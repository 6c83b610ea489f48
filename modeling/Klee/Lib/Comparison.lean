import Mathlib.Order.Compare

/-! Three-way comparisons that look at one part after another. -/
namespace Comparison

/-- What the comparisons of `a` with `b`, of `b` with `c` and of `a` with `c` have to do with
each other when they come from one order. -/
structure Chained (x y z : Ordering) : Prop where
  of_eq_left : x = .eq → z = y
  of_eq_right : y = .eq → z = x
  lt : x = .lt → y = .lt → z = .lt
  gt : x = .gt → y = .gt → z = .gt

namespace Chained

variable {x y z x' y' z' : Ordering}

theorem of_compare {α : Type*} [Ord α] [Std.TransOrd α] (a b c : α) :
    Chained (compare a b) (compare b c) (compare a c) where
  of_eq_left := Std.TransCmp.congr_left
  of_eq_right h := (Std.TransCmp.congr_right h).symm
  lt := Std.TransCmp.lt_trans
  gt := Std.TransCmp.gt_trans

/-- The second parts matter only where the first ones are equal. -/
theorem andThen (h : Chained x y z) (h' : x = .eq → y = .eq → Chained x' y' z') :
    Chained (x.then x') (y.then y') (z.then z') := by
  cases x with
  | lt =>
    cases y with
    | lt => obtain rfl := h.lt rfl rfl; exact ⟨nofun, nofun, fun _ _ => rfl, nofun⟩
    | eq => obtain rfl := h.of_eq_right rfl; exact ⟨nofun, fun _ => rfl, fun _ _ => rfl, nofun⟩
    | gt => exact ⟨nofun, nofun, nofun, nofun⟩
  | eq =>
    obtain rfl := h.of_eq_left rfl
    cases z with
    | lt => exact ⟨fun _ => rfl, nofun, fun _ _ => rfl, nofun⟩
    | eq => exact h' rfl rfl
    | gt => exact ⟨fun _ => rfl, nofun, nofun, fun _ _ => rfl⟩
  | gt =>
    cases y with
    | lt => exact ⟨nofun, nofun, nofun, nofun⟩
    | eq => obtain rfl := h.of_eq_right rfl; exact ⟨nofun, fun _ => rfl, nofun, fun _ _ => rfl⟩
    | gt => obtain rfl := h.gt rfl rfl; exact ⟨nofun, nofun, nofun, fun _ _ => rfl⟩

theorem isLE (h : Chained x y z) (hx : x.isLE) (hy : y.isLE) : z.isLE := by
  cases x with
  | lt =>
    cases y with
    | lt => rw [h.lt rfl rfl]; rfl
    | eq => rw [h.of_eq_right rfl]; rfl
    | gt => cases hy
  | eq => rwa [h.of_eq_left rfl]
  | gt => cases hx

end Chained

end Comparison
