import Mathlib.Data.Set.Finite.Basic
import Mathlib.Order.Comparable
import Mathlib.Order.Defs.Unbundled

/-! Finite maps whose keys are compared by a strict weak order: keys that neither precedes are one
key. -/

variable {K V : Type} {lt : K → K → Prop} {key : V → K}

section StrictWeakOrder

variable [IsStrictWeakOrder K lt] {a b c : K}

theorem lt_of_incompRel_of_lt (hab : IncompRel lt a b) (hbc : lt b c) : lt a c := by
  by_contra hac
  by_cases hca : lt c a
  · exact hab.2 (trans_of lt hbc hca)
  · exact (IsStrictWeakOrder.incomp_trans _ _ _ hab.symm ⟨hac, hca⟩).1 hbc

theorem lt_of_lt_of_incompRel (hab : lt a b) (hbc : IncompRel lt b c) : lt a c := by
  by_contra hac
  by_cases hca : lt c a
  · exact hbc.2 (trans_of lt hca hab)
  · exact (IsStrictWeakOrder.incomp_trans _ _ _ ⟨hac, hca⟩ hbc.symm).1 hab

end StrictWeakOrder

@[ext] structure KeyedMap (lt : K → K → Prop) (key : V → K) where
  elements : Set V
  finite : elements.Finite
  unique : ∀ u ∈ elements, ∀ v ∈ elements, IncompRel lt (key u) (key v) → u = v

namespace KeyedMap

instance : Membership V (KeyedMap lt key) := ⟨fun m v => v ∈ m.elements⟩

variable (m : KeyedMap lt key) (u v : V) (k : K)

section Operations

def empty : KeyedMap lt key where
  elements := ∅
  finite := Set.finite_empty
  unique := nofun

/-- An element with the key of `v` stays. -/
def insert : KeyedMap lt key where
  elements := {u | u ∈ m ∨ (u = v ∧ ∀ w ∈ m, ¬ IncompRel lt (key w) (key v))}
  finite := by
    refine (m.finite.union (Set.finite_singleton v)).subset ?_
    rintro u (hu | ⟨rfl, -⟩)
    · exact .inl hu
    · exact .inr rfl
  unique := by
    rintro u (hu | ⟨rfl, hnew⟩) w (hw | ⟨rfl, hnew'⟩) hkeys
    · exact m.unique u hu w hw hkeys
    · exact absurd hkeys (hnew' u hu)
    · exact absurd hkeys.symm (hnew w hw)
    · rfl

/-- An element with the key of `v` gives way. -/
def replace : KeyedMap lt key where
  elements := {u | u = v ∨ (u ∈ m ∧ ¬ IncompRel lt (key u) (key v))}
  finite := by
    refine (m.finite.union (Set.finite_singleton v)).subset ?_
    rintro u (rfl | ⟨hu, -⟩)
    · exact .inr rfl
    · exact .inl hu
  unique := by
    rintro u (rfl | ⟨hu, hold⟩) w (rfl | ⟨hw, hold'⟩) hkeys
    · rfl
    · exact absurd hkeys.symm hold'
    · exact absurd hkeys hold
    · exact m.unique u hu w hw hkeys

/-- The elements that satisfy `P`. -/
def filter (P : V → Prop) : KeyedMap lt key where
  elements := {u | u ∈ m ∧ P u}
  finite := m.finite.subset fun _ hu => hu.1
  unique := fun u hu w hw => m.unique u hu.1 w hw.1

def remove : KeyedMap lt key := m.filter fun u => ¬ IncompRel lt (key u) k

def popMin : KeyedMap lt key := m.filter fun u => ∃ w ∈ m, lt (key w) (key u)

def popMax : KeyedMap lt key := m.filter fun u => ∃ w ∈ m, lt (key u) (key w)

end Operations

section Answers

/-- The element with the property `P`, where there is one. -/
noncomputable def pick (P : V → Prop) : Option V :=
  open Classical in if h : ∃ v, P v then some h.choose else none

theorem pick_eq_some {P : V → Prop} (hunique : ∀ u v, P u → P v → u = v) {v : V} :
    pick P = some v ↔ P v := by
  unfold pick
  split
  case isTrue h =>
    rw [Option.some.injEq]
    exact ⟨fun heq => heq ▸ h.choose_spec, fun hv => hunique _ _ h.choose_spec hv⟩
  case isFalse h => exact ⟨nofun, fun hv => absurd ⟨v, hv⟩ h⟩

def IsMin : Prop := v ∈ m ∧ ∀ w ∈ m, ¬ lt (key w) (key v)

def IsMax : Prop := v ∈ m ∧ ∀ w ∈ m, ¬ lt (key v) (key w)

def HasKey : Prop := v ∈ m ∧ IncompRel lt (key v) k

/-- The last element that `k` does not precede. -/
def IsPrevious : Prop :=
  v ∈ m ∧ ¬ lt k (key v) ∧ ∀ w ∈ m, ¬ lt k (key w) → ¬ lt (key v) (key w)

noncomputable def min : Option V := pick m.IsMin

noncomputable def max : Option V := pick m.IsMax

noncomputable def lookup : Option V := pick fun v => m.HasKey v k

noncomputable def lookupPrevious : Option V := pick fun v => m.IsPrevious v k

end Answers

variable {m u v k}

theorem IsMin.unique (hu : m.IsMin u) (hv : m.IsMin v) : u = v :=
  m.unique u hu.1 v hv.1 ⟨hv.2 u hu.1, hu.2 v hv.1⟩

theorem IsMax.unique (hu : m.IsMax u) (hv : m.IsMax v) : u = v :=
  m.unique u hu.1 v hv.1 ⟨hu.2 v hv.1, hv.2 u hu.1⟩

theorem HasKey.unique [IsStrictWeakOrder K lt] (hu : m.HasKey u k) (hv : m.HasKey v k) : u = v :=
  m.unique u hu.1 v hv.1 (IsStrictWeakOrder.incomp_trans _ _ _ hu.2 hv.2.symm)

theorem IsPrevious.unique (hu : m.IsPrevious u k) (hv : m.IsPrevious v k) : u = v :=
  m.unique u hu.1 v hv.1 ⟨hu.2.2 v hv.1 hv.2.1, hv.2.2 u hu.1 hu.2.1⟩

theorem min_eq_some : m.min = some v ↔ m.IsMin v := pick_eq_some fun _ _ => IsMin.unique

theorem max_eq_some : m.max = some v ↔ m.IsMax v := pick_eq_some fun _ _ => IsMax.unique

theorem lookup_eq_some [IsStrictWeakOrder K lt] : m.lookup k = some v ↔ m.HasKey v k :=
  pick_eq_some fun _ _ => HasKey.unique

theorem lookupPrevious_eq_some : m.lookupPrevious k = some v ↔ m.IsPrevious v k :=
  pick_eq_some fun _ _ => IsPrevious.unique

end KeyedMap
