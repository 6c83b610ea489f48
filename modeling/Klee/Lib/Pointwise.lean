import Mathlib.Data.List.Forall2
import Mathlib.Tactic

/-! Lists that are related element by element. -/
namespace Pointwise

variable {β γ δ : Type*} {xs : List β} {ys : List γ} {zs : List δ}

theorem forall₂_mem_right {R : β → γ → Prop} (h : List.Forall₂ R xs ys) {y : γ} (hy : y ∈ ys) :
    ∃ x ∈ xs, R x y := by
  induction h with
  | nil => exact absurd hy List.not_mem_nil
  | cons hxy _ ih =>
    rcases List.mem_cons.mp hy with rfl | hmem
    · exact ⟨_, List.mem_cons_self, hxy⟩
    · obtain ⟨x, hx, hR⟩ := ih hmem
      exact ⟨x, List.mem_cons_of_mem _ hx, hR⟩

theorem forall₂_mem_left {R : β → γ → Prop} (h : List.Forall₂ R xs ys) {x : β} (hx : x ∈ xs) :
    ∃ y ∈ ys, R x y :=
  forall₂_mem_right h.flip hx

theorem forall₂_trans {R : β → γ → Prop} {S : γ → δ → Prop} {T : β → δ → Prop}
    (h : List.Forall₂ R xs ys) (h' : List.Forall₂ S ys zs)
    (htrans : ∀ x y z, R x y → S y z → T x z) : List.Forall₂ T xs zs := by
  induction h generalizing zs with
  | nil =>
    cases h'
    exact .nil
  | cons hxy _ ih =>
    obtain ⟨z, zs, hyz, hrest, rfl⟩ := List.forall₂_cons_left_iff.mp h'
    exact .cons (htrans _ _ _ hxy hyz) (ih hrest)

theorem forall₂_imp_mem {R S : β → γ → Prop} (h : List.Forall₂ R xs ys)
    (himp : ∀ x ∈ xs, ∀ y ∈ ys, R x y → S x y) : List.Forall₂ S xs ys := by
  induction h with
  | nil => exact .nil
  | cons hxy _ ih =>
    exact .cons (himp _ List.mem_cons_self _ List.mem_cons_self hxy) (ih fun x hx y hy =>
      himp x (List.mem_cons_of_mem _ hx) y (List.mem_cons_of_mem _ hy))

theorem forall₂_getD {R : β → γ → Prop} (h : List.Forall₂ R xs ys) {x : β} {y : γ} (hxy : R x y)
    (k : Nat) : R (xs.getD k x) (ys.getD k y) := by
  induction h generalizing k with
  | nil => exact hxy
  | cons hhead _ ih =>
    cases k with
    | zero => exact hhead
    | succ k => exact ih k

theorem forall₂_append {R : β → γ → Prop} {xs' : List β} {ys' : List γ}
    (hlength : xs.length = ys.length) :
    List.Forall₂ R (xs ++ xs') (ys ++ ys') ↔ List.Forall₂ R xs ys ∧ List.Forall₂ R xs' ys' := by
  induction xs generalizing ys with
  | nil =>
    obtain rfl := List.length_eq_zero_iff.mp hlength.symm
    exact (and_iff_right .nil).symm
  | cons x xs ih =>
    obtain ⟨y, ys, rfl⟩ := List.exists_cons_of_length_eq_add_one hlength.symm
    rw [List.cons_append, List.cons_append, List.forall₂_cons, List.forall₂_cons,
      ih (Nat.succ.inj hlength), and_assoc]

theorem mapM_eq_some_iff {g : β → Option γ} :
    xs.mapM g = some ys ↔ List.Forall₂ (fun x y => g x = some y) xs ys := by
  induction xs generalizing ys with
  | nil =>
    rw [List.mapM_nil, List.forall₂_nil_left_iff]
    exact ⟨fun h => (Option.some.inj h).symm, fun h => congrArg some h.symm⟩
  | cons x xs ih =>
    rw [List.mapM_cons, List.forall₂_cons_left_iff]
    constructor
    · intro h
      obtain ⟨y, hy, h⟩ := Option.bind_eq_some_iff.mp h
      obtain ⟨zs, hzs, h⟩ := Option.bind_eq_some_iff.mp h
      exact ⟨y, zs, hy, ih.mp hzs, (Option.some.inj h).symm⟩
    · rintro ⟨y, zs, hy, hzs, rfl⟩
      rw [hy, ih.mpr hzs]
      rfl

theorem exists_mapM {g : β → Option γ} {R : β → γ → Prop} (xs : List β)
    (h : ∀ x ∈ xs, ∃ y, g x = some y ∧ R x y) :
    ∃ ys, xs.mapM g = some ys ∧ List.Forall₂ R xs ys := by
  induction xs with
  | nil => exact ⟨[], rfl, .nil⟩
  | cons x xs ih =>
    rw [List.forall_mem_cons] at h
    obtain ⟨y, hy, hR⟩ := h.1
    obtain ⟨ys, hys, hRs⟩ := ih h.2
    exact ⟨y :: ys, by rw [List.mapM_cons, hy, hys]; rfl, .cons hR hRs⟩

end Pointwise
