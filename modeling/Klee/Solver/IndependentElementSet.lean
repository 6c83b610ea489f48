import Klee.Expr.FindReads

/-! `IndependentElementSet` of `IndependentSolver.cpp`: which bytes of which arrays a group of
expressions reads. -/
namespace Klee

/-- `elements` lists the pairs of an array and an index of the source's map from arrays to
sets of indices, in which no set is empty. -/
structure IndependentElementSet where
  elements : List (Array × Nat)
  /-- arrays that are read at a symbolic index -/
  wholeObjects : List Array
  exprs : List Expr

namespace IndependentElementSet

/-- `elements.find(array) != elements.end()` -/
def hasElements (ies : IndependentElementSet) (array : Array) : Bool :=
  ies.elements.any fun p => decide (p.1 = array)

def insertElement (ies : IndependentElementSet) (p : Array × Nat) : IndependentElementSet :=
  if p ∈ ies.elements then ies else { ies with elements := ies.elements ++ [p] }

def collapse (ies : IndependentElementSet) (array : Array) : IndependentElementSet :=
  { ies with
    elements := ies.elements.filter fun p => decide (p.1 ≠ array)
    wholeObjects := ies.wholeObjects ++ [array] }

def addRead (ies : IndependentElementSet) (re : ReadExpr) : IndependentElementSet :=
  let array := re.updates.root
  -- reads of a constant array don't alias
  if array.isConstantArray && re.updates.head == .null then ies
  else if array ∈ ies.wholeObjects then ies
  else match re.index with
    | .constant c => ies.insertElement (array, (c.value.setWidth 32).toNat)
    | _ => ies.collapse array

/-- `IndependentElementSet(e)` -/
def ofExpr (e : Expr) : IndependentElementSet := (findReads e true).foldl addRead ⟨[], [], [e]⟩

def intersects (a b : IndependentElementSet) : Bool :=
  (a.wholeObjects.any fun array => decide (array ∈ b.wholeObjects) || b.hasElements array) ||
  a.elements.any fun p => decide (p.1 ∈ b.wholeObjects) || decide (p ∈ b.elements)

/-- A whole object of the other set, in `add`. -/
def addWhole (s : IndependentElementSet × Bool) (array : Array) : IndependentElementSet × Bool :=
  if s.1.hasElements array then (s.1.collapse array, true)
  else if array ∈ s.1.wholeObjects then s
  else ({ s.1 with wholeObjects := s.1.wholeObjects ++ [array] }, true)

/-- An element of the other set, in `add`. -/
def addElement (s : IndependentElementSet × Bool) (p : Array × Nat) :
    IndependentElementSet × Bool :=
  if p.1 ∈ s.1.wholeObjects then s
  else if p ∈ s.1.elements then s
  else ({ s.1 with elements := s.1.elements ++ [p] }, true)

/-- `add`, with whether the set of elements changed. -/
def add (a b : IndependentElementSet) : IndependentElementSet × Bool :=
  let a := { a with exprs := a.exprs ++ b.exprs }
  b.elements.foldl addElement (b.wholeObjects.foldl addWhole (a, false))

/-- `calculateArrayReferences` -/
def arrays (ies : IndependentElementSet) : List Array :=
  (ies.elements.map (·.1) ++ ies.wholeObjects).dedup

section Has

variable {a b c : IndependentElementSet} {p : Array × Nat} {array : Array}

def Has (ies : IndependentElementSet) (p : Array × Nat) : Prop :=
  p.1 ∈ ies.wholeObjects ∨ p ∈ ies.elements

instance : Decidable (a.Has p) := inferInstanceAs (Decidable (_ ∨ _))

theorem hasElements_iff : a.hasElements array = true ↔ ∃ i, (array, i) ∈ a.elements := by
  simp [hasElements]

theorem mem_arrays : array ∈ a.arrays ↔ ∃ i, a.Has (array, i) := by
  simp only [arrays, List.mem_dedup, List.mem_append, List.mem_map, Has]
  constructor
  · rintro (⟨p, hp, rfl⟩ | h)
    · exact ⟨p.2, .inr hp⟩
    · exact ⟨0, .inl h⟩
  · rintro ⟨i, h | h⟩
    · exact .inr h
    · exact .inl ⟨_, h, rfl⟩

/-- The test is complete for common bytes, also where one set reads a whole array. -/
theorem intersects_eq_false (h : a.intersects b = false) (ha : a.Has p) : ¬ b.Has p := by
  simp only [intersects, Bool.or_eq_false_iff, List.any_eq_false, decide_eq_true_eq, Bool.or_eq_true,
    not_or] at h
  obtain ⟨hwhole, helements⟩ := h
  intro hb
  rcases ha with ha | ha
  · rcases hb with hb | hb
    · exact (hwhole p.1 ha).1 hb
    · exact (hwhole p.1 ha).2 (hasElements_iff.mpr ⟨p.2, hb⟩)
  · rcases hb with hb | hb
    · exact (helements p ha).1 hb
    · exact (helements p ha).2 hb

theorem exists_has_of_intersects (h : a.intersects b = true) :
    (∃ p, a.Has p) ∧ ∃ p, b.Has p := by
  simp only [intersects, Bool.or_eq_true, List.any_eq_true, decide_eq_true_eq] at h
  obtain ⟨array, ha, hb⟩ | ⟨p, ha, hb⟩ := h
  · refine ⟨⟨(array, 0), .inl ha⟩, ?_⟩
    rcases hb with hb | hb
    · exact ⟨(array, 0), .inl hb⟩
    · obtain ⟨i, hb⟩ := hasElements_iff.mp hb
      exact ⟨(array, i), .inr hb⟩
  · refine ⟨⟨p, .inr ha⟩, ?_⟩
    rcases hb with hb | hb
    · exact ⟨p, .inl hb⟩
    · exact ⟨p, .inr hb⟩

end Has

section Add

variable {a b : IndependentElementSet} {p : Array × Nat} {s : IndependentElementSet × Bool}

theorem has_collapse (array : Array) : (a.collapse array).Has p ↔ a.Has p ∨ p.1 = array := by
  simp only [Has, collapse, List.mem_append, List.mem_singleton, List.mem_filter, decide_eq_true_eq]
  tauto

theorem has_insertElement (q : Array × Nat) : (a.insertElement q).Has p ↔ a.Has p ∨ p = q := by
  unfold insertElement
  by_cases hq : q ∈ a.elements
  · rw [if_pos hq]
    refine ⟨.inl, fun h => h.elim id ?_⟩
    rintro rfl
    exact .inr hq
  · rw [if_neg hq]
    simp only [Has, List.mem_append, List.mem_singleton]
    tauto

theorem has_addWhole (array : Array) :
    (addWhole s array).1.Has p ↔ s.1.Has p ∨ p.1 = array := by
  unfold addWhole
  by_cases helem : s.1.hasElements array = true
  · rw [if_pos helem]
    exact has_collapse array
  · rw [if_neg helem]
    by_cases hwhole : array ∈ s.1.wholeObjects
    · rw [if_pos hwhole]
      refine ⟨.inl, fun h => h.elim id ?_⟩
      rintro rfl
      exact .inl hwhole
    · rw [if_neg hwhole]
      simp only [Has, List.mem_append, List.mem_singleton]
      tauto

theorem has_addElement (q : Array × Nat) : (addElement s q).1.Has p ↔ s.1.Has p ∨ p = q := by
  unfold addElement
  by_cases hwhole : q.1 ∈ s.1.wholeObjects
  · rw [if_pos hwhole]
    refine ⟨.inl, fun h => h.elim id ?_⟩
    rintro rfl
    exact .inl hwhole
  · rw [if_neg hwhole]
    by_cases hq : q ∈ s.1.elements
    · rw [if_pos hq]
      refine ⟨.inl, fun h => h.elim id ?_⟩
      rintro rfl
      exact .inr hq
    · rw [if_neg hq]
      simp only [Has, List.mem_append, List.mem_singleton]
      tauto

theorem has_foldl_addWhole (arrays : List Array) :
    (arrays.foldl addWhole s).1.Has p ↔ s.1.Has p ∨ p.1 ∈ arrays := by
  induction arrays generalizing s with
  | nil => simp
  | cons array arrays ih =>
    rw [List.foldl_cons, ih, has_addWhole, List.mem_cons, or_assoc]

theorem has_foldl_addElement (ps : List (Array × Nat)) :
    (ps.foldl addElement s).1.Has p ↔ s.1.Has p ∨ p ∈ ps := by
  induction ps generalizing s with
  | nil => simp
  | cons q ps ih => rw [List.foldl_cons, ih, has_addElement, List.mem_cons, or_assoc]

/-- `add` covers what either set covers. -/
theorem has_add : (a.add b).1.Has p ↔ a.Has p ∨ b.Has p := by
  rw [add, has_foldl_addElement, has_foldl_addWhole, or_assoc]
  exact Iff.rfl

theorem addWhole_unmodified {array : Array} (h : (addWhole s array).2 = false) :
    addWhole s array = s := by
  unfold addWhole at h ⊢
  split at h
  · cases h
  · split at h
    · simp_all
    · cases h

theorem addElement_unmodified {q : Array × Nat} (h : (addElement s q).2 = false) :
    addElement s q = s := by
  unfold addElement at h ⊢
  split at h
  · simp_all
  · split at h
    · simp_all
    · cases h

/-- A loop whose rounds report every change does nothing if no change is reported. -/
theorem foldl_unmodified {β : Type} {f : IndependentElementSet × Bool → β →
    IndependentElementSet × Bool} (hf : ∀ s x, (f s x).2 = false → f s x = s) (l : List β)
    (h : (l.foldl f s).2 = false) : l.foldl f s = s := by
  induction l generalizing s with
  | nil => rfl
  | cons x l ih =>
    rw [List.foldl_cons] at h ⊢
    have hrest := ih h
    rw [hrest] at h ⊢
    exact hf s x h

/-- `add` only reports no change when the elements stay what they are. -/
theorem add_unmodified (h : (a.add b).2 = false) :
    (a.add b).1 = { a with exprs := a.exprs ++ b.exprs } := by
  unfold add at h ⊢
  have helements := foldl_unmodified (fun _ _ => addElement_unmodified) _ h
  rw [helements] at h ⊢
  rw [foldl_unmodified (fun _ _ => addWhole_unmodified) _ h]

/-- `add` makes up no element. -/
theorem mem_elements_add (h : p ∈ (a.add b).1.elements) : p ∈ a.elements ∨ p ∈ b.elements := by
  have hwhole (arrays : List Array) (s : IndependentElementSet × Bool)
      (hp : p ∈ (arrays.foldl addWhole s).1.elements) : p ∈ s.1.elements := by
    induction arrays generalizing s with
    | nil => exact hp
    | cons array arrays ih =>
      have hone := ih _ hp
      unfold addWhole at hone
      split at hone
      · exact List.mem_of_mem_filter hone
      · split at hone <;> exact hone
  have helements (ps : List (Array × Nat)) (s : IndependentElementSet × Bool)
      (hp : p ∈ (ps.foldl addElement s).1.elements) : p ∈ s.1.elements ∨ p ∈ ps := by
    induction ps generalizing s with
    | nil => exact .inl hp
    | cons q ps ih =>
      rcases ih _ hp with hone | hrest
      · unfold addElement at hone
        split at hone
        · exact .inl hone
        · split at hone
          · exact .inl hone
          · rcases List.mem_append.mp hone with hold | hnew
            · exact .inl hold
            · exact .inr (List.mem_singleton.mp hnew ▸ List.mem_cons_self)
      · exact .inr (List.mem_cons_of_mem q hrest)
  exact (helements b.elements _ h).imp_left (hwhole b.wholeObjects _)

theorem exprs_add : (a.add b).1.exprs = a.exprs ++ b.exprs := by
  have hwhole (arrays : List Array) (s : IndependentElementSet × Bool) :
      (arrays.foldl addWhole s).1.exprs = s.1.exprs := by
    induction arrays generalizing s with
    | nil => rfl
    | cons array arrays ih =>
      rw [List.foldl_cons, ih, addWhole]
      split
      · rfl
      · split <;> rfl
  have helements (ps : List (Array × Nat)) (s : IndependentElementSet × Bool) :
      (ps.foldl addElement s).1.exprs = s.1.exprs := by
    induction ps generalizing s with
    | nil => rfl
    | cons p ps ih =>
      rw [List.foldl_cons, ih, addElement]
      split
      · rfl
      · split <;> rfl
  rw [add, helements, hwhole]

end Add

section OfExpr

variable {e : Expr} {ies : IndependentElementSet} {p : Array × Nat}

def Records (ies : IndependentElementSet) (re : ReadExpr) : Prop :=
  (re.updates.root.isConstantArray = true ∧ re.updates.head = .null) ∨
  re.updates.root ∈ ies.wholeObjects ∨
  ∃ c, re.index = .constant c ∧ ies.Has (re.updates.root, (c.value.setWidth 32).toNat)

theorem has_addRead_of_has (re : ReadExpr) (h : ies.Has p) : (ies.addRead re).Has p := by
  unfold addRead
  simp only
  split
  · exact h
  · split
    · exact h
    · split
      · exact (has_insertElement _).mpr (.inl h)
      · exact (has_collapse _).mpr (.inl h)

theorem mem_wholeObjects_addRead {array : Array} (re : ReadExpr) (h : array ∈ ies.wholeObjects) :
    array ∈ (ies.addRead re).wholeObjects := by
  unfold addRead
  simp only
  split
  · exact h
  · split
    · exact h
    · split
      · unfold insertElement
        split <;> exact h
      · exact List.mem_append_left _ h

theorem records_addRead (re : ReadExpr) : (ies.addRead re).Records re := by
  unfold addRead Records
  simp only
  split
  case isTrue h => exact .inl (by simpa using h)
  case isFalse =>
    split
    case isTrue h => exact .inr (.inl h)
    case isFalse =>
      split
      next c hc => exact .inr (.inr ⟨c, hc, (has_insertElement _).mpr (.inr rfl)⟩)
      next => exact .inr (.inl (List.mem_append_right _ (List.mem_singleton_self _)))

theorem Records.addRead {re : ReadExpr} (h : ies.Records re) (re' : ReadExpr) :
    (ies.addRead re').Records re := by
  rcases h with h | h | ⟨c, hc, h⟩
  · exact .inl h
  · exact .inr (.inl (mem_wholeObjects_addRead re' h))
  · exact .inr (.inr ⟨c, hc, has_addRead_of_has re' h⟩)

theorem records_foldl_addRead (reads : List ReadExpr) (ies : IndependentElementSet)
    {re : ReadExpr} (h : re ∈ reads ∨ ies.Records re) :
    (reads.foldl IndependentElementSet.addRead ies).Records re := by
  induction reads generalizing ies with
  | nil => exact h.resolve_left (by simp)
  | cons re' reads ih =>
    refine ih _ ?_
    rcases h with h | h
    · rcases List.mem_cons.mp h with rfl | h
      · exact .inr (records_addRead re)
      · exact .inl h
    · exact .inr (h.addRead re')

theorem exprs_addRead (re : ReadExpr) : (ies.addRead re).exprs = ies.exprs := by
  unfold addRead
  simp only
  split
  · rfl
  · split
    · rfl
    · split
      · unfold insertElement
        split <;> rfl
      · rfl

theorem exprs_ofExpr : (ofExpr e).exprs = [e] := by
  have hfold (reads : List ReadExpr) (ies : IndependentElementSet) :
      (reads.foldl addRead ies).exprs = ies.exprs := by
    induction reads generalizing ies with
    | nil => rfl
    | cons re reads ih => rw [List.foldl_cons, ih, exprs_addRead]
  exact hfold _ _

/-- The elements come from reads at constant indices. -/
theorem exists_read_of_mem_elements (h : p ∈ (ofExpr e).elements) :
    ∃ re ∈ findReads e true, ∃ c, re.index = .constant c ∧
      p = (re.updates.root, (c.value.setWidth 32).toNat) := by
  have hread (re : ReadExpr) (ies : IndependentElementSet) (hp : p ∈ (ies.addRead re).elements) :
      p ∈ ies.elements ∨ ∃ c, re.index = .constant c ∧
        p = (re.updates.root, (c.value.setWidth 32).toNat) := by
    unfold addRead at hp
    simp only at hp
    split at hp
    · exact .inl hp
    · split at hp
      · exact .inl hp
      · split at hp
        next c hc =>
          unfold insertElement at hp
          split at hp
          · exact .inl hp
          · rcases List.mem_append.mp hp with hp | hp
            · exact .inl hp
            · exact .inr ⟨c, hc, List.mem_singleton.mp hp⟩
        next => exact .inl (List.mem_of_mem_filter hp)
  have hfold (reads : List ReadExpr) (ies : IndependentElementSet)
      (hp : p ∈ (reads.foldl addRead ies).elements) : p ∈ ies.elements ∨
        ∃ re ∈ reads, ∃ c, re.index = .constant c ∧
          p = (re.updates.root, (c.value.setWidth 32).toNat) := by
    induction reads generalizing ies with
    | nil => exact .inl hp
    | cons re reads ih =>
      rcases ih _ hp with hp | ⟨re', hre', hc⟩
      · exact (hread re ies hp).imp_right fun hc => ⟨re, List.mem_cons_self, hc⟩
      · exact .inr ⟨re', List.mem_cons_of_mem re hre', hc⟩
  exact (hfold _ _ h).resolve_left (by simp)

def Agree (ies : IndependentElementSet) (σ τ : Assignment) : Prop :=
  ∀ p : Array × Nat, ies.Has p → p.1.initial σ p.2 = p.1.initial τ p.2

/-- An expression is a function of the bytes that its set covers. -/
theorem eval_congr_of_agree {σ τ : Assignment} (h : (ofExpr e).Agree σ τ) (w : Nat) :
    e.eval σ w = e.eval τ w := by
  refine Expr.eval_eq_of_findReads w fun re hre => ?_
  have hrec : (ofExpr e).Records re := records_foldl_addRead _ _ (.inl hre)
  have hall (heq : ∀ i, re.updates.root.initial σ i = re.updates.root.initial τ i) :
      re.Agrees σ τ := by
    unfold ReadExpr.Agrees
    split
    · exact heq _
    · exact heq
  rcases hrec with ⟨hconst, -⟩ | hwhole | ⟨c, hc, hhas⟩
  · refine hall fun i => ?_
    rw [Array.initial, Array.initial, if_pos hconst, if_pos hconst]
  · exact hall fun i => h (re.updates.root, i) (.inl hwhole)
  · unfold ReadExpr.Agrees
    rw [hc]
    exact h _ hhas

end OfExpr

end IndependentElementSet

end Klee
