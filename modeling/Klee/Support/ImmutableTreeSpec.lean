import Klee.Support.ImmutableTree
import Klee.Lib.KeyedMap
import Mathlib.Data.List.Pairwise
import Mathlib.Order.RelClasses
import Mathlib.Tactic.Cases

/-! The trees of `ImmutableTree` stay ordered and balanced, and hold what a finite map holds. -/
namespace Klee.ImmutableTree

open KeyedMap

namespace Node

variable {K V : Type} {left right t : Node V} {u v value : V} {k : K} {height : Nat}

section Balance

/-- The stored heights are right, and those of siblings differ by 2 at most. -/
def Balanced : Node V → Prop
  | terminator => True
  | node left right _ height =>
    left.Balanced ∧ right.Balanced ∧ height = max left.height right.height + 1 ∧
      left.height ≤ right.height + 2 ∧ right.height ≤ left.height + 2

@[simp] theorem height_terminator : (terminator : Node V).height = 0 := rfl

@[simp] theorem height_node : (node left right value height).height = height := rfl

@[simp] theorem height_mk : (mk left right value).height = max left.height right.height + 1 := rfl

theorem balanced_mk (hl : left.Balanced) (hr : right.Balanced)
    (hlr : left.height ≤ right.height + 2) (hrl : right.height ≤ left.height + 2) :
    (mk left right value).Balanced :=
  ⟨hl, hr, rfl, hlr, hrl⟩

theorem balance_eq_mk (hlr : left.height ≤ right.height + 2) (hrl : right.height ≤ left.height + 2) :
    balance left value right = mk left right value := by
  unfold balance
  rw [if_neg (by omega), if_neg (by omega)]

/-- Siblings one step further apart than allowed: one rotation or two restore the balance. -/
theorem balance_spec (value : V) (hl : left.Balanced) (hr : right.Balanced)
    (hlr : left.height ≤ right.height + 3) (hrl : right.height ≤ left.height + 3) :
    (balance left value right).Balanced ∧
    max left.height right.height ≤ (balance left value right).height ∧
    (balance left value right).height ≤ max left.height right.height + 1 := by
  unfold balance
  by_cases hdeep : left.height > right.height + 2
  · rw [if_pos hdeep]
    cases left with
    | terminator => exact absurd hdeep (Nat.not_lt_zero _)
    | node ll lr leftValue h =>
      obtain ⟨hll, hlr', hh, hd1, hd2⟩ := hl
      simp only [height_node] at *
      by_cases hge : ll.height ≥ lr.height
      · simp only [if_pos hge]
        refine ⟨balanced_mk hll (balanced_mk hlr' hr ?_ ?_) ?_ ?_, ?_, ?_⟩
        all_goals try simp only [height_mk]
        all_goals omega
      · simp only [if_neg hge]
        cases lr with
        | terminator => exact absurd (Nat.zero_le _) hge
        | node lrl lrr lrValue h' =>
          obtain ⟨hlrl, hlrr, hh', hd1', hd2'⟩ := hlr'
          simp only [height_node] at *
          refine ⟨balanced_mk (balanced_mk hll hlrl ?_ ?_) (balanced_mk hlrr hr ?_ ?_) ?_ ?_, ?_, ?_⟩
          all_goals try simp only [height_mk]
          all_goals omega
  · rw [if_neg hdeep]
    by_cases hdeep' : right.height > left.height + 2
    · rw [if_pos hdeep']
      cases right with
      | terminator => exact absurd hdeep' (Nat.not_lt_zero _)
      | node rl rr rightValue h =>
        obtain ⟨hrl', hrr, hh, hd1, hd2⟩ := hr
        simp only [height_node] at *
        by_cases hge : rr.height ≥ rl.height
        · simp only [if_pos hge]
          refine ⟨balanced_mk (balanced_mk hl hrl' ?_ ?_) hrr ?_ ?_, ?_, ?_⟩
          all_goals try simp only [height_mk]
          all_goals omega
        · simp only [if_neg hge]
          cases rl with
          | terminator => exact absurd (Nat.zero_le _) hge
          | node rll rlr rlValue h' =>
            obtain ⟨hrll, hrlr, hh', hd1', hd2'⟩ := hrl'
            simp only [height_node] at *
            refine ⟨balanced_mk (balanced_mk hl hrll ?_ ?_) (balanced_mk hrlr hrr ?_ ?_) ?_ ?_, ?_, ?_⟩
            all_goals try simp only [height_mk]
            all_goals omega
    · rw [if_neg hdeep']
      refine ⟨balanced_mk hl hr (by omega) (by omega), ?_, ?_⟩ <;> simp only [height_mk] <;> omega

def Grows (t t' : Node V) : Prop := t'.Balanced ∧ t.height ≤ t'.height ∧ t'.height ≤ t.height + 1

def Shrinks (t t' : Node V) : Prop := t'.Balanced ∧ t'.height ≤ t.height ∧ t.height ≤ t'.height + 1

theorem Balanced.grows (h : t.Balanced) : Grows t t := ⟨h, le_rfl, Nat.le_succ _⟩

theorem Balanced.shrinks (h : t.Balanced) : Shrinks t t := ⟨h, le_rfl, Nat.le_succ _⟩

theorem Grows.balance_left {left' : Node V} (h : (node left right value height).Balanced)
    (hl : Grows left left') : Grows (node left right value height) (balance left' value right) := by
  obtain ⟨-, hr, hh, hlr, hrl⟩ := h
  obtain ⟨hl', hlow, hhigh⟩ := hl
  obtain ⟨hb, hb1, hb2⟩ := balance_spec value hl' hr (by omega) (by omega)
  refine ⟨hb, ?_, ?_⟩
  · by_cases hclose : left'.height ≤ right.height + 2
    · rw [balance_eq_mk hclose (by omega)]
      simp only [height_node, height_mk]
      omega
    · simp only [height_node]
      omega
  · simp only [height_node]
    omega

theorem Grows.balance_right {right' : Node V} (h : (node left right value height).Balanced)
    (hr : Grows right right') : Grows (node left right value height) (balance left value right') := by
  obtain ⟨hl, -, hh, hlr, hrl⟩ := h
  obtain ⟨hr', hlow, hhigh⟩ := hr
  obtain ⟨hb, hb1, hb2⟩ := balance_spec value hl hr' (by omega) (by omega)
  refine ⟨hb, ?_, ?_⟩
  · by_cases hclose : right'.height ≤ left.height + 2
    · rw [balance_eq_mk (by omega) hclose]
      simp only [height_node, height_mk]
      omega
    · simp only [height_node]
      omega
  · simp only [height_node]
    omega

/-- The value at the root may be another one, as where an inner node is removed. -/
theorem Shrinks.balance_left {left' : Node V} (v : V) (h : (node left right value height).Balanced)
    (hl : Shrinks left left') : Shrinks (node left right value height) (balance left' v right) := by
  obtain ⟨-, hr, hh, hlr, hrl⟩ := h
  obtain ⟨hl', hlow, hhigh⟩ := hl
  obtain ⟨hb, hb1, hb2⟩ := balance_spec v hl' hr (by omega) (by omega)
  refine ⟨hb, ?_, ?_⟩
  · simp only [height_node]
    omega
  · by_cases hclose : right.height ≤ left'.height + 2
    · rw [balance_eq_mk (by omega) hclose]
      simp only [height_node, height_mk]
      omega
    · simp only [height_node]
      omega

theorem Shrinks.balance_right {right' : Node V} (v : V) (h : (node left right value height).Balanced)
    (hr : Shrinks right right') : Shrinks (node left right value height) (balance left v right') := by
  obtain ⟨hl, -, hh, hlr, hrl⟩ := h
  obtain ⟨hr', hlow, hhigh⟩ := hr
  obtain ⟨hb, hb1, hb2⟩ := balance_spec v hl hr' (by omega) (by omega)
  refine ⟨hb, ?_, ?_⟩
  · simp only [height_node]
    omega
  · by_cases hclose : left.height ≤ right'.height + 2
    · rw [balance_eq_mk hclose (by omega)]
      simp only [height_node, height_mk]
      omega
    · simp only [height_node]
      omega

theorem height_of_isTerminator (h : t.isTerminator = true) : t.height = 0 := by
  cases t with
  | terminator => rfl
  | node => cases h

section Pop

variable [Inhabited V]

theorem popMin_shrinks (h : t.Balanced) : Shrinks t t.popMin.2 := by
  induction t with
  | terminator => exact h.shrinks
  | node left right value height ihl ihr =>
    rw [popMin]
    split
    case isTrue hl =>
      have hzero := height_of_isTerminator hl
      obtain ⟨-, hr, hh, hlr, hrl⟩ := h
      refine ⟨hr, ?_, ?_⟩ <;> simp only [height_node] <;> omega
    case isFalse => exact .balance_left value h (ihl h.1)

theorem popMax_shrinks (h : t.Balanced) : Shrinks t t.popMax.2 := by
  induction t with
  | terminator => exact h.shrinks
  | node left right value height ihl ihr =>
    rw [popMax]
    split
    case isTrue hr =>
      have hzero := height_of_isTerminator hr
      obtain ⟨hl, -, hh, hlr, hrl⟩ := h
      refine ⟨hl, ?_, ?_⟩ <;> simp only [height_node] <;> omega
    case isFalse => exact .balance_right value h (ihr h.2.1)

end Pop

variable (lt : K → K → Prop) [DecidableRel lt] (key : V → K)

theorem balanced_singleton : Grows terminator (mk terminator terminator v) :=
  ⟨balanced_mk trivial trivial (Nat.zero_le _) (Nat.zero_le _), Nat.zero_le _, le_rfl⟩

theorem insert_grows (h : t.Balanced) : Grows t (t.insert lt key v) := by
  induction t with
  | terminator => exact balanced_singleton
  | node left right value height ihl ihr =>
    rw [insert]
    split
    case isTrue => exact .balance_left h (ihl h.1)
    case isFalse =>
      split
      case isTrue => exact .balance_right h (ihr h.2.1)
      case isFalse => exact h.grows

theorem replace_grows (h : t.Balanced) : Grows t (t.replace lt key v) := by
  induction t with
  | terminator => exact balanced_singleton
  | node left right value height ihl ihr =>
    rw [replace]
    split
    case isTrue => exact .balance_left h (ihl h.1)
    case isFalse =>
      split
      case isTrue => exact .balance_right h (ihr h.2.1)
      case isFalse =>
        obtain ⟨hl, hr, rfl, hlr, hrl⟩ := h
        exact ⟨balanced_mk hl hr hlr hrl, le_rfl, Nat.le_succ _⟩

theorem remove_shrinks [Inhabited V] (h : t.Balanced) : Shrinks t (t.remove lt key k) := by
  induction t with
  | terminator => exact h.shrinks
  | node left right value height ihl ihr =>
    rw [remove]
    split
    case isTrue => exact .balance_left value h (ihl h.1)
    case isFalse =>
      split
      case isTrue => exact .balance_right value h (ihr h.2.1)
      case isFalse =>
        split
        case isTrue hl =>
          have hzero := height_of_isTerminator hl
          obtain ⟨-, hr, hh, hlr, hrl⟩ := h
          refine ⟨hr, ?_, ?_⟩ <;> simp only [height_node] <;> omega
        case isFalse =>
          split
          case isTrue hr =>
            have hzero := height_of_isTerminator hr
            obtain ⟨hl, -, hh, hlr, hrl⟩ := h
            refine ⟨hl, ?_, ?_⟩ <;> simp only [height_node] <;> omega
          case isFalse => exact .balance_right _ h (popMin_shrinks h.2.1)

end Balance

section Order

def toList : Node V → List V
  | terminator => []
  | node left right value _ => left.toList ++ value :: right.toList

@[simp] theorem toList_terminator : (terminator : Node V).toList = [] := rfl

@[simp] theorem toList_node :
    (node left right value height).toList = left.toList ++ value :: right.toList := rfl

@[simp] theorem toList_mk :
    (mk left right value).toList = left.toList ++ value :: right.toList := rfl

/-- Rotations keep the order of the values. -/
@[simp] theorem toList_balance :
    (balance left value right).toList = left.toList ++ value :: right.toList := by
  unfold balance
  by_cases hdeep : left.height > right.height + 2
  · rw [if_pos hdeep]
    cases left with
    | terminator => rfl
    | node ll lr leftValue h =>
      by_cases hge : ll.height ≥ lr.height
      · simp [if_pos hge]
      · simp only [if_neg hge]
        cases lr <;> simp
  · rw [if_neg hdeep]
    by_cases hdeep' : right.height > left.height + 2
    · rw [if_pos hdeep']
      cases right with
      | terminator => rfl
      | node rl rr rightValue h =>
        by_cases hge : rr.height ≥ rl.height
        · simp [if_pos hge]
        · simp only [if_neg hge]
          cases rl <;> simp
    · rw [if_neg hdeep']
      rfl

theorem toList_of_isTerminator (h : t.isTerminator = true) : t.toList = [] := by
  cases t with
  | terminator => rfl
  | node => cases h

section Pop

variable [Inhabited V]

theorem popMin_of_isTerminator (h : t.isTerminator = true) : t.popMin = (default, terminator) := by
  cases t with
  | terminator => rfl
  | node => cases h

theorem popMax_of_isTerminator (h : t.isTerminator = true) : t.popMax = (default, terminator) := by
  cases t with
  | terminator => rfl
  | node => cases h

theorem toList_popMin (h : ¬ t.isTerminator = true) :
    t.toList = t.popMin.1 :: t.popMin.2.toList := by
  induction t with
  | terminator => exact absurd rfl h
  | node left right value height ihl ihr =>
    rw [popMin]
    split
    case isTrue hl => rw [toList_node, toList_of_isTerminator hl, List.nil_append]
    case isFalse hl => rw [toList_node, toList_balance, ihl hl, List.cons_append]

theorem toList_popMax (h : ¬ t.isTerminator = true) :
    t.toList = t.popMax.2.toList ++ [t.popMax.1] := by
  induction t with
  | terminator => exact absurd rfl h
  | node left right value height ihl ihr =>
    rw [popMax]
    split
    case isTrue hr => rw [toList_node, toList_of_isTerminator hr]
    case isFalse hr =>
      rw [toList_node, toList_balance, ihr hr, List.append_assoc, List.cons_append]

end Pop

def Ordered (lt : K → K → Prop) (key : V → K) (l : List V) : Prop :=
  l.Pairwise fun u v => lt (key u) (key v)

variable {lt : K → K → Prop} {key : V → K} {l r : List V}

theorem ordered_append_cons [IsTrans K lt] : Ordered lt key (l ++ value :: r) ↔
    Ordered lt key l ∧ Ordered lt key r ∧ (∀ u ∈ l, lt (key u) (key value)) ∧
      ∀ u ∈ r, lt (key value) (key u) := by
  unfold Ordered
  rw [List.pairwise_append, List.pairwise_cons]
  constructor
  · rintro ⟨hl, ⟨hvr, hr⟩, hcross⟩
    exact ⟨hl, hr, fun u hu => hcross u hu value List.mem_cons_self, hvr⟩
  · rintro ⟨hl, hr, hlv, hvr⟩
    refine ⟨hl, ⟨hvr, hr⟩, fun u hu w hw => ?_⟩
    rcases List.mem_cons.mp hw with rfl | hw
    · exact hlv u hu
    · exact trans_of lt (hlv u hu) (hvr w hw)

theorem not_incompRel_of_lt {a b : K} (h : lt a b) : ¬ IncompRel lt a b := fun hab => hab.1 h

theorem not_incompRel_of_gt {a b : K} (h : lt b a) : ¬ IncompRel lt a b := fun hab => hab.2 h

section Update

variable [IsStrictWeakOrder K lt]

/-- No element with the key `k` lies on the other side. -/
theorem not_incompRel_right (hvr : ∀ w ∈ r, lt (key value) (key w)) (hv : lt k (key value)) :
    ∀ w, w = value ∨ w ∈ r → ¬ IncompRel lt (key w) k := by
  rintro w (rfl | hw)
  · exact not_incompRel_of_gt hv
  · exact not_incompRel_of_gt (trans_of lt hv (hvr w hw))

theorem not_incompRel_left (hlv : ∀ w ∈ l, lt (key w) (key value)) (hv : lt (key value) k) :
    ∀ w, w ∈ l ∨ w = value → ¬ IncompRel lt (key w) k := by
  rintro w (hw | rfl)
  · exact not_incompRel_of_lt (trans_of lt (hlv w hw) hv)
  · exact not_incompRel_of_lt hv

/-- The other elements have other keys than the root. -/
theorem not_incompRel_root (hlv : ∀ w ∈ l, lt (key w) (key value))
    (hvr : ∀ w ∈ r, lt (key value) (key w)) (hkey : IncompRel lt (key value) k) :
    ∀ w, w ∈ l ∨ w ∈ r → ¬ IncompRel lt (key w) k := by
  rintro w (hw | hw)
  · exact not_incompRel_of_lt (lt_of_lt_of_incompRel (hlv w hw) hkey)
  · exact not_incompRel_of_gt (lt_of_incompRel_of_lt hkey.symm (hvr w hw))

variable [DecidableRel lt]

theorem mem_insert (h : Ordered lt key t.toList) : u ∈ (t.insert lt key v).toList ↔
    u ∈ t.toList ∨ (u = v ∧ ∀ w ∈ t.toList, ¬ IncompRel lt (key w) (key v)) := by
  induction t with
  | terminator => simp [insert]
  | node left right value height ihl ihr =>
    obtain ⟨hl, hr, hlv, hvr⟩ := ordered_append_cons.mp h
    rw [insert, toList_node]
    split
    case isTrue hlt =>
      have hother := not_incompRel_right hvr hlt
      have hright : ∀ w ∈ value :: right.toList, ¬ IncompRel lt (key w) (key v) :=
        fun w hw => hother w (List.mem_cons.mp hw)
      rw [toList_balance, List.forall_mem_append, and_iff_left hright]
      simp only [List.mem_append, List.mem_cons, ihl hl]
      exact or_right_comm
    case isFalse hnlt =>
      split
      case isTrue hgt =>
        have hother := not_incompRel_left hlv hgt
        rw [toList_balance, List.forall_mem_append, List.forall_mem_cons,
          and_iff_right fun w hw => hother w (.inl hw), and_iff_right (hother value (.inr rfl))]
        simp only [List.mem_append, List.mem_cons, ihr hr]
        rw [or_assoc, or_assoc]
      case isFalse hngt =>
        refine ⟨.inl, ?_⟩
        rintro (hu | ⟨-, hnew⟩)
        · exact hu
        · exact absurd ⟨hngt, hnlt⟩ (hnew value (by simp))

theorem ordered_insert (h : Ordered lt key t.toList) :
    Ordered lt key (t.insert lt key v).toList := by
  induction t with
  | terminator => exact List.pairwise_singleton _ _
  | node left right value height ihl ihr =>
    obtain ⟨hl, hr, hlv, hvr⟩ := ordered_append_cons.mp h
    rw [insert]
    split
    case isTrue hlt =>
      rw [toList_balance]
      refine ordered_append_cons.mpr ⟨ihl hl, hr, fun u hu => ?_, hvr⟩
      rcases (mem_insert hl).mp hu with hu | ⟨rfl, -⟩
      · exact hlv u hu
      · exact hlt
    case isFalse hnlt =>
      split
      case isTrue hgt =>
        rw [toList_balance]
        refine ordered_append_cons.mpr ⟨hl, ihr hr, hlv, fun u hu => ?_⟩
        rcases (mem_insert hr).mp hu with hu | ⟨rfl, -⟩
        · exact hvr u hu
        · exact hgt
      case isFalse => exact h

theorem mem_replace (h : Ordered lt key t.toList) : u ∈ (t.replace lt key v).toList ↔
    u = v ∨ (u ∈ t.toList ∧ ¬ IncompRel lt (key u) (key v)) := by
  induction t with
  | terminator => simp [replace]
  | node left right value height ihl ihr =>
    obtain ⟨hl, hr, hlv, hvr⟩ := ordered_append_cons.mp h
    rw [replace, toList_node]
    split
    case isTrue hlt =>
      have hother := not_incompRel_right hvr hlt u
      rw [toList_balance, List.mem_append, List.mem_append, List.mem_cons, ihl hl]
      rw [or_assoc, or_and_right, and_iff_left_of_imp hother]
    case isFalse hnlt =>
      split
      case isTrue hgt =>
        have hother := not_incompRel_left hlv hgt u
        rw [toList_balance, List.mem_append, List.mem_append, List.mem_cons, List.mem_cons, ihr hr]
        rw [← or_assoc, or_left_comm, ← or_assoc (a := u ∈ left.toList), or_and_right,
          and_iff_left_of_imp hother]
      case isFalse hngt =>
        have hkey : IncompRel lt (key value) (key v) := ⟨hngt, hnlt⟩
        have hother := not_incompRel_root hlv hvr hkey
        rw [toList_mk, List.mem_append, List.mem_append, List.mem_cons, List.mem_cons]
        constructor
        · rintro (hu | hu | hu)
          · exact .inr ⟨.inl hu, hother u (.inl hu)⟩
          · exact .inl hu
          · exact .inr ⟨.inr (.inr hu), hother u (.inr hu)⟩
        · rintro (hu | ⟨hu | rfl | hu, hnot⟩)
          · exact .inr (.inl hu)
          · exact .inl hu
          · exact absurd hkey hnot
          · exact .inr (.inr hu)

theorem ordered_replace (h : Ordered lt key t.toList) :
    Ordered lt key (t.replace lt key v).toList := by
  induction t with
  | terminator => exact List.pairwise_singleton _ _
  | node left right value height ihl ihr =>
    obtain ⟨hl, hr, hlv, hvr⟩ := ordered_append_cons.mp h
    rw [replace]
    split
    case isTrue hlt =>
      rw [toList_balance]
      refine ordered_append_cons.mpr ⟨ihl hl, hr, fun u hu => ?_, hvr⟩
      rcases (mem_replace hl).mp hu with rfl | ⟨hu, -⟩
      · exact hlt
      · exact hlv u hu
    case isFalse hnlt =>
      split
      case isTrue hgt =>
        rw [toList_balance]
        refine ordered_append_cons.mpr ⟨hl, ihr hr, hlv, fun u hu => ?_⟩
        rcases (mem_replace hr).mp hu with rfl | ⟨hu, -⟩
        · exact hgt
        · exact hvr u hu
      case isFalse hngt =>
        have hkey : IncompRel lt (key value) (key v) := ⟨hngt, hnlt⟩
        exact ordered_append_cons.mpr ⟨hl, hr,
          fun u hu => lt_of_lt_of_incompRel (hlv u hu) hkey,
          fun u hu => lt_of_incompRel_of_lt hkey.symm (hvr u hu)⟩

section Remove

variable [Inhabited V]

/-- The node that `remove` takes out leaves its two subtrees. -/
theorem toList_join : (if left.isTerminator = true then right
    else if right.isTerminator = true then left
    else balance left right.popMin.1 right.popMin.2).toList = left.toList ++ right.toList := by
  split
  case isTrue hl => rw [toList_of_isTerminator hl, List.nil_append]
  case isFalse =>
    split
    case isTrue hr => rw [toList_of_isTerminator hr, List.append_nil]
    case isFalse hr => rw [toList_balance, ← toList_popMin hr]

theorem mem_remove (h : Ordered lt key t.toList) : u ∈ (t.remove lt key k).toList ↔
    u ∈ t.toList ∧ ¬ IncompRel lt (key u) k := by
  induction t with
  | terminator => simp [remove]
  | node left right value height ihl ihr =>
    obtain ⟨hl, hr, hlv, hvr⟩ := ordered_append_cons.mp h
    rw [remove, toList_node]
    split
    case isTrue hlt =>
      have hother := not_incompRel_right hvr hlt u
      rw [toList_balance, List.mem_append, List.mem_append, List.mem_cons, ihl hl]
      rw [or_and_right, and_iff_left_of_imp hother]
    case isFalse hnlt =>
      split
      case isTrue hgt =>
        have hother := not_incompRel_left hlv hgt u
        rw [toList_balance, List.mem_append, List.mem_append, List.mem_cons, List.mem_cons, ihr hr]
        rw [← or_assoc, ← or_assoc, or_and_right, and_iff_left_of_imp hother]
      case isFalse hngt =>
        have hkey : IncompRel lt (key value) k := ⟨hngt, hnlt⟩
        have hother := not_incompRel_root hlv hvr hkey
        rw [toList_join, List.mem_append, List.mem_append, List.mem_cons]
        constructor
        · exact fun hu => ⟨hu.imp_right .inr, hother u hu⟩
        · rintro ⟨hu | rfl | hu, hnot⟩
          · exact .inl hu
          · exact absurd hkey hnot
          · exact .inr hu

theorem ordered_remove (h : Ordered lt key t.toList) :
    Ordered lt key (t.remove lt key k).toList := by
  induction t with
  | terminator => exact h
  | node left right value height ihl ihr =>
    obtain ⟨hl, hr, hlv, hvr⟩ := ordered_append_cons.mp h
    rw [remove]
    split
    case isTrue =>
      rw [toList_balance]
      exact ordered_append_cons.mpr ⟨ihl hl, hr, fun u hu => hlv u ((mem_remove hl).mp hu).1, hvr⟩
    case isFalse =>
      split
      case isTrue =>
        rw [toList_balance]
        exact ordered_append_cons.mpr ⟨hl, ihr hr, hlv, fun u hu => hvr u ((mem_remove hr).mp hu).1⟩
      case isFalse =>
        rw [toList_join]
        exact h.sublist (List.Sublist.append_left (List.sublist_cons_self _ _) _)

end Remove

end Update

section Pop

variable [Inhabited V]

theorem ordered_popMin (h : Ordered lt key t.toList) : Ordered lt key t.popMin.2.toList := by
  by_cases ht : t.isTerminator = true
  · cases t with
    | terminator => exact h
    | node => cases ht
  · rw [toList_popMin ht] at h
    exact (List.pairwise_cons.mp h).2

theorem ordered_popMax (h : Ordered lt key t.toList) : Ordered lt key t.popMax.2.toList := by
  by_cases ht : t.isTerminator = true
  · cases t with
    | terminator => exact h
    | node => cases ht
  · rw [toList_popMax ht] at h
    exact (List.pairwise_append.mp h).1

variable [IsStrictOrder K lt]

theorem mem_popMin (h : Ordered lt key t.toList) : u ∈ t.popMin.2.toList ↔
    u ∈ t.toList ∧ ∃ w ∈ t.toList, lt (key w) (key u) := by
  by_cases ht : t.isTerminator = true
  · cases t with
    | terminator => simp [popMin]
    | node => cases ht
  · rw [toList_popMin ht] at h ⊢
    obtain ⟨hmin, -⟩ := List.pairwise_cons.mp h
    refine ⟨fun hu => ⟨List.mem_cons_of_mem _ hu, _, List.mem_cons_self, hmin u hu⟩, ?_⟩
    rintro ⟨hu, w, hw, hlt⟩
    rcases List.mem_cons.mp hu with rfl | hu
    · rcases List.mem_cons.mp hw with rfl | hw
      · exact absurd hlt (irrefl_of lt _)
      · exact absurd hlt (asymm_of lt (hmin w hw))
    · exact hu

theorem mem_popMax (h : Ordered lt key t.toList) : u ∈ t.popMax.2.toList ↔
    u ∈ t.toList ∧ ∃ w ∈ t.toList, lt (key u) (key w) := by
  by_cases ht : t.isTerminator = true
  · cases t with
    | terminator => simp [popMax]
    | node => cases ht
  · rw [toList_popMax ht] at h ⊢
    obtain ⟨-, -, hmax⟩ := List.pairwise_append.mp h
    refine ⟨fun hu => ⟨List.mem_append_left _ hu, _, List.mem_append_right _ List.mem_cons_self,
      hmax u hu _ List.mem_cons_self⟩, ?_⟩
    rintro ⟨hu, w, hw, hlt⟩
    rcases List.mem_append.mp hu with hu | hu
    · exact hu
    · rw [List.mem_singleton.mp hu] at hlt ⊢
      rcases List.mem_append.mp hw with hw | hw
      · exact absurd hlt (asymm_of lt (hmax w hw _ List.mem_cons_self))
      · rw [List.mem_singleton.mp hw] at hlt
        exact absurd hlt (irrefl_of lt _)

end Pop

section Lookup

/-- The last value of the list that `k` does not precede. -/
def IsPreviousIn (lt : K → K → Prop) (key : V → K) (l : List V) (k : K) (v : V) : Prop :=
  v ∈ l ∧ ¬ lt k (key v) ∧ ∀ w ∈ l, ¬ lt k (key w) → ¬ lt (key v) (key w)

theorem isPreviousIn_left [IsTrans K lt] (hvr : ∀ w ∈ r, lt (key value) (key w)) (hv : lt k (key value)) :
    IsPreviousIn lt key (l ++ value :: r) k v ↔ IsPreviousIn lt key l k v := by
  have hright : ∀ w, w = value ∨ w ∈ r → lt k (key w) := by
    rintro w (rfl | hw)
    · exact hv
    · exact trans_of lt hv (hvr w hw)
  unfold IsPreviousIn
  simp only [List.mem_append, List.mem_cons]
  constructor
  · rintro ⟨hmem | hmem, hle, hlast⟩
    · exact ⟨hmem, hle, fun w hw => hlast w (.inl hw)⟩
    · exact absurd (hright v hmem) hle
  · rintro ⟨hmem, hle, hlast⟩
    refine ⟨.inl hmem, hle, ?_⟩
    rintro w (hw | hw) hwk
    · exact hlast w hw hwk
    · exact absurd (hright w hw) hwk

variable [IsStrictWeakOrder K lt] [DecidableRel lt]

theorem lookup_eq_some (h : Ordered lt key t.toList) : t.lookup lt key k = some v ↔
    v ∈ t.toList ∧ IncompRel lt (key v) k := by
  induction t with
  | terminator => simp [lookup]
  | node left right value height ihl ihr =>
    obtain ⟨hl, hr, hlv, hvr⟩ := ordered_append_cons.mp h
    rw [lookup, toList_node, List.mem_append, List.mem_cons]
    split
    case isTrue hlt =>
      have hother := not_incompRel_right hvr hlt v
      rw [ihl hl]
      rw [or_and_right, or_iff_left fun hv => hother hv.1 hv.2]
    case isFalse hnlt =>
      split
      case isTrue hgt =>
        have hother := not_incompRel_left hlv hgt v
        rw [ihr hr]
        rw [← or_assoc, or_and_right, or_iff_right fun hv => hother hv.1 hv.2]
      case isFalse hngt =>
        have hkey : IncompRel lt (key value) k := ⟨hngt, hnlt⟩
        have hother := not_incompRel_root hlv hvr hkey
        rw [Option.some.injEq]
        constructor
        · rintro rfl
          exact ⟨.inr (.inl rfl), hkey⟩
        · rintro ⟨hv | hv | hv, heq⟩
          · exact absurd heq (hother v (.inl hv))
          · exact hv.symm
          · exact absurd heq (hother v (.inr hv))

theorem isPreviousIn_right (hlv : ∀ w ∈ l, lt (key w) (key value))
    (hvr : ∀ w ∈ r, lt (key value) (key w)) (hv : ¬ lt k (key value)) :
    IsPreviousIn lt key (l ++ value :: r) k v ↔
      IsPreviousIn lt key r k v ∨ ((∀ w ∈ r, lt k (key w)) ∧ value = v) := by
  unfold IsPreviousIn
  simp only [List.mem_append, List.mem_cons]
  constructor
  · rintro ⟨hmem | rfl | hmem, hle, hlast⟩
    · exact absurd (hlv v hmem) (hlast value (.inr (.inl rfl)) hv)
    · refine .inr ⟨fun w hw => ?_, rfl⟩
      by_contra hwk
      exact hlast w (.inr (.inr hw)) hwk (hvr w hw)
    · exact .inl ⟨hmem, hle, fun w hw => hlast w (.inr (.inr hw))⟩
  · rintro (⟨hmem, hle, hlast⟩ | ⟨hr, rfl⟩)
    · refine ⟨.inr (.inr hmem), hle, ?_⟩
      rintro w (hw | rfl | hw) hwk
      · exact asymm_of lt (trans_of lt (hlv w hw) (hvr v hmem))
      · exact asymm_of lt (hvr v hmem)
      · exact hlast w hw hwk
    · refine ⟨.inr (.inl rfl), hv, ?_⟩
      rintro w (hw | rfl | hw) hwk
      · exact asymm_of lt (hlv w hw)
      · exact irrefl_of lt _
      · exact absurd (hr w hw) hwk

/-- The result found so far counts where the tree has none. -/
theorem lookupPreviousFrom_eq_some {result : Option V} (h : Ordered lt key t.toList) :
    t.lookupPreviousFrom lt key k result = some v ↔
      IsPreviousIn lt key t.toList k v ∨ ((∀ w ∈ t.toList, lt k (key w)) ∧ result = some v) := by
  induction t generalizing result with
  | terminator => simp [lookupPreviousFrom, IsPreviousIn]
  | node left right value height ihl ihr =>
    obtain ⟨hl, hr, hlv, hvr⟩ := ordered_append_cons.mp h
    rw [lookupPreviousFrom, toList_node]
    split
    case isTrue hlt =>
      have hright : ∀ w ∈ value :: right.toList, lt k (key w) := by
        intro w hw
        rcases List.mem_cons.mp hw with rfl | hw
        · exact hlt
        · exact trans_of lt hlt (hvr w hw)
      rw [ihl hl, isPreviousIn_left hvr hlt, List.forall_mem_append, and_iff_left hright]
    case isFalse hnlt =>
      have hnone : ¬ ∀ w ∈ left.toList ++ value :: right.toList, lt k (key w) := fun hall =>
        hnlt (hall value (List.mem_append_right _ List.mem_cons_self))
      rw [isPreviousIn_right hlv hvr hnlt, or_iff_left fun hall => hnone hall.1]
      split
      case isTrue => rw [ihr hr, Option.some.injEq]
      case isFalse hngt =>
        have hkey : IncompRel lt (key value) k := ⟨hngt, hnlt⟩
        have hright : ∀ w ∈ right.toList, lt k (key w) := fun w hw =>
          lt_of_incompRel_of_lt hkey.symm (hvr w hw)
        rw [and_iff_right hright, Option.some.injEq, or_iff_right]
        exact fun hprev => hprev.2.1 (hright v hprev.1)

theorem lookupPrevious_eq_some (h : Ordered lt key t.toList) :
    t.lookupPrevious lt key k = some v ↔ IsPreviousIn lt key t.toList k v := by
  rw [lookupPrevious, lookupPreviousFrom_eq_some h, or_iff_left fun hnone => nomatch hnone.2]

end Lookup

end Order

end Node

open Node

structure Tree {K V : Type} (lt : K → K → Prop) (key : V → K) where
  node : Node V
  ordered : Ordered lt key node.toList
  balanced : node.Balanced

namespace Tree

variable {K V : Type} {lt : K → K → Prop} {key : V → K} (t : Tree lt key) (v : V) (k : K)

section Operations

variable [IsStrictWeakOrder K lt] [DecidableRel lt]

def insert : Tree lt key :=
  ⟨t.node.insert lt key v, ordered_insert t.ordered, (insert_grows lt key t.balanced).1⟩

def replace : Tree lt key :=
  ⟨t.node.replace lt key v, ordered_replace t.ordered, (replace_grows lt key t.balanced).1⟩

variable [Inhabited V]

def remove : Tree lt key :=
  ⟨t.node.remove lt key k, ordered_remove t.ordered, (remove_shrinks lt key t.balanced).1⟩

def popMin : Tree lt key :=
  ⟨t.node.popMin.2, ordered_popMin t.ordered, (popMin_shrinks t.balanced).1⟩

def popMax : Tree lt key :=
  ⟨t.node.popMax.2, ordered_popMax t.ordered, (popMax_shrinks t.balanced).1⟩

end Operations

def toMap : KeyedMap lt key where
  elements := {u | u ∈ t.node.toList}
  finite := t.node.toList.finite_toSet
  unique u hu v hv hkeys := by
    have hne : t.node.toList.Pairwise fun u v => ¬ IncompRel lt (key u) (key v) :=
      t.ordered.imp not_incompRel_of_lt
    have : Std.Symm fun u v : V => ¬ IncompRel lt (key u) (key v) := ⟨fun _ _ h h' => h h'.symm⟩
    by_contra hdistinct
    exact hne.forall hu hv hdistinct hkeys

section Refinement

variable [IsStrictWeakOrder K lt]

theorem toMap_popMin [Inhabited V] : t.popMin.toMap = t.toMap.popMin :=
  KeyedMap.ext (Set.ext fun _ => mem_popMin t.ordered)

theorem toMap_popMax [Inhabited V] : t.popMax.toMap = t.toMap.popMax :=
  KeyedMap.ext (Set.ext fun _ => mem_popMax t.ordered)

/-- The value that `popMin` hands out; the tree without elements has the terminator's. -/
theorem popMin_value [Inhabited V] : t.node.popMin.1 = t.toMap.min.getD default := by
  by_cases ht : t.node.isTerminator = true
  · have hnone : t.toMap.min = none := by
      refine Option.eq_none_iff_forall_ne_some.mpr fun v hv => ?_
      have hmem : v ∈ t.node.toList := (KeyedMap.min_eq_some.mp hv).1
      rw [toList_of_isTerminator ht] at hmem
      exact absurd hmem List.not_mem_nil
    rw [hnone, popMin_of_isTerminator ht]
    rfl
  · have hlist := toList_popMin ht
    have hmin : t.toMap.IsMin t.node.popMin.1 := by
      have hordered := t.ordered
      rw [hlist] at hordered
      obtain ⟨hlt, -⟩ := List.pairwise_cons.mp hordered
      have hmem : t.node.popMin.1 ∈ t.node.toList := hlist ▸ List.mem_cons_self
      refine ⟨hmem, fun w hw => ?_⟩
      have hw : w ∈ t.node.popMin.1 :: t.node.popMin.2.toList := hlist ▸ hw
      rcases List.mem_cons.mp hw with rfl | hw
      · exact irrefl_of lt _
      · exact asymm_of lt (hlt w hw)
    rw [KeyedMap.min_eq_some.mpr hmin]
    rfl

theorem popMax_value [Inhabited V] : t.node.popMax.1 = t.toMap.max.getD default := by
  by_cases ht : t.node.isTerminator = true
  · have hnone : t.toMap.max = none := by
      refine Option.eq_none_iff_forall_ne_some.mpr fun v hv => ?_
      have hmem : v ∈ t.node.toList := (KeyedMap.max_eq_some.mp hv).1
      rw [toList_of_isTerminator ht] at hmem
      exact absurd hmem List.not_mem_nil
    rw [hnone, popMax_of_isTerminator ht]
    rfl
  · have hlist := toList_popMax ht
    have hmax : t.toMap.IsMax t.node.popMax.1 := by
      have hordered := t.ordered
      rw [hlist] at hordered
      obtain ⟨-, -, hlt⟩ := List.pairwise_append.mp hordered
      have hmem : t.node.popMax.1 ∈ t.node.toList :=
        hlist ▸ List.mem_append_right _ List.mem_cons_self
      refine ⟨hmem, fun w hw => ?_⟩
      have hw : w ∈ t.node.popMax.2.toList ++ [t.node.popMax.1] := hlist ▸ hw
      rcases List.mem_append.mp hw with hw | hw
      · exact asymm_of lt (hlt w hw _ List.mem_cons_self)
      · rw [List.mem_singleton.mp hw]
        exact irrefl_of lt _
    rw [KeyedMap.max_eq_some.mpr hmax]
    rfl

variable [DecidableRel lt]

theorem toMap_insert : (t.insert v).toMap = t.toMap.insert v :=
  KeyedMap.ext (Set.ext fun _ => mem_insert t.ordered)

theorem toMap_replace : (t.replace v).toMap = t.toMap.replace v :=
  KeyedMap.ext (Set.ext fun _ => mem_replace t.ordered)

theorem lookup_toMap : t.node.lookup lt key k = t.toMap.lookup k :=
  Option.ext fun _ => (Node.lookup_eq_some t.ordered).trans (KeyedMap.lookup_eq_some (m := t.toMap)).symm

theorem lookupPrevious_toMap : t.node.lookupPrevious lt key k = t.toMap.lookupPrevious k :=
  Option.ext fun _ =>
    (Node.lookupPrevious_eq_some t.ordered).trans
      (KeyedMap.lookupPrevious_eq_some (m := t.toMap)).symm

theorem toMap_remove [Inhabited V] : (t.remove k).toMap = t.toMap.remove k :=
  KeyedMap.ext (Set.ext fun _ => mem_remove t.ordered)

end Refinement

end Tree

end Klee.ImmutableTree
