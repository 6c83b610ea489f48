import Klee.Core.ForkSpec

/-! `branch`, when it makes no new state (there is one condition, or the fork limit is reached),
and when it makes one. -/
namespace Klee.Executor

open Hoare

variable {M : Type} {o : ExecutorOptions} {ex ex' : Executor M} {state : StateId}
variable {s : ExecutionState M}

def Limited (o : ExecutorOptions) (ex : Executor M) : Prop :=
  o.maxForks.any (· ≤ ex.forks) = true

instance : Decidable (Limited o ex) := inferInstanceAs (Decidable (_ = _))

/-- The state at index `i` of `n`. -/
def aloneAt (state : StateId) (i n : Nat) : List (Option StateId) :=
  (List.range n).map fun k => if k = i then some state else none

/-- The stages of `branch` change the constraints of the state at most, and terminate it if it
is not in the result. -/
structure StillAlone (state : StateId) (ex : Executor M) (s : ExecutionState M)
    (result : List (Option StateId)) (ex' : Executor M) : Prop where
  others : ∀ st, st ≠ state → ex'.heap st = ex.heap st
  nextState : ex'.nextState = ex.nextState
  pathWriter : ex'.pathWriter = ex.pathWriter
  symPathWriter : ex'.symPathWriter = ex.symPathWriter
  live : some state ∈ result → ∃ cs, ex'.heap state = some { s with constraints := cs }

theorem stillAlone_refl {result : List (Option StateId)} (hs : ex.heap state = some s) :
    StillAlone state ex s result ex := ⟨fun _ _ => rfl, rfl, rfl, rfl, fun _ => ⟨s.constraints, hs⟩⟩

/-- A result in which the state occurs once, or not at all, and no other state does. -/
inductive Lone (state : StateId) : List (Option StateId) → Prop
  | nil : Lone state []
  | none {result : List (Option StateId)} (h : Lone state result) : Lone state (none :: result)
  | some {result : List (Option StateId)} (h : ∀ st ∈ result, st = Option.none) :
      Lone state (some state :: result)

theorem Lone.only {result : List (Option StateId)} (h : Lone state result) {st : StateId}
    (hst : Option.some st ∈ result) : st = state := by
  induction h with
  | nil => cases hst
  | none _ ih => exact ih ((List.mem_cons.mp hst).resolve_left (by simp))
  | some h =>
    cases List.mem_cons.mp hst with
    | inl heq => exact Option.some.inj heq
    | inr hmem => cases h _ hmem

theorem lone_range' (i k n : Nat) :
    Lone state ((List.range' k n).map fun j => if j = i then some state else none) := by
  induction n generalizing k with
  | zero => exact .nil
  | succ n ih =>
    rw [List.range'_succ, List.map_cons]
    by_cases hk : k = i
    · rw [if_pos hk]
      refine .some fun st hst => ?_
      obtain ⟨j, hj, rfl⟩ := List.mem_map.mp hst
      have hlt := (List.mem_range'_1.mp hj).1
      exact if_neg (by omega)
    · rw [if_neg hk]
      exact .none (ih (k + 1))

theorem lone_aloneAt (i n : Nat) : Lone state (aloneAt state i n) := by
  rw [aloneAt, List.range_eq_range']
  exact lone_range' i 0 n

section Seeds

theorem keeps_firstTaken (cs : List Expr) (seed : SeedInfo) (conditions : List Expr) :
    Keeps (firstTaken o cs seed conditions : ExecutorM M Nat) := by
  induction conditions with
  | nil => exact keeps_pure 0
  | cons condition rest ih =>
    have htakes : Keeps (seedTakes o cs condition seed : ExecutorM M Bool) :=
      (keeps_orThrow _ _).bind fun _ => keeps_pure _
    exact htakes.bind fun side => Keeps.ite (keeps_pure 0) (ih.bind fun i => keeps_pure _)

/-- A seed moves to an entry of the seed map. -/
theorem wp_giveSeed {Q : Unit → Executor M → Prop} {cs conditions : List Expr}
    {result : List (Option StateId)} {seed : SeedInfo}
    (hQ : ∀ m g, Q () { ex with seedMap := m, theRNG := g }) :
    wp (giveSeed o cs conditions result seed) Q (fun _ => True) ex := by
  unfold giveSeed
  rw [wp_bind]
  refine (keeps_firstTaken _ _ _).wp fun i => ?_
  dsimp only
  rw [wp_ite]
  constructor
  · intro _
    rw [wp_bind, wp_getInt32, pure_bind]
    split
    · exact hQ _ _
    · exact hQ ex.seedMap _
  · intro _
    rw [pure_bind]
    split
    · exact hQ _ ex.theRNG
    · exact hQ ex.seedMap ex.theRNG

/-- Killing the states without seeds keeps a lone state, or terminates it. -/
theorem wp_killUnseeded {Q : List (Option StateId) → Executor M → Prop}
    {result : List (Option StateId)} (hresult : Lone state result) (hs : ex.heap state = some s)
    (hkeep : Q result ex)
    (hkill : ∀ result' ex', (∀ st ∈ result', st = none) → Terminated [state] ex ex' →
      Q result' ex') :
    wp (result.mapM (killUnseeded o)) Q (fun _ => True) ex := by
  have hnone {result : List (Option StateId)} (h : ∀ st ∈ result, st = none) (ex : Executor M)
      {Q : List (Option StateId) → Executor M → Prop} (hQ : Q result ex) :
      wp (result.mapM (killUnseeded o)) Q (fun _ => True) ex := by
    induction result generalizing Q with
    | nil => exact hQ
    | cons st rest ih =>
      obtain rfl := h st List.mem_cons_self
      rw [List.mapM_cons, wp_bind]
      show wp (rest.mapM (killUnseeded o) >>= fun l => pure (none :: l)) Q _ ex
      rw [wp_bind]
      exact ih (fun st hst => h st (List.mem_cons_of_mem _ hst)) hQ
  induction hresult generalizing Q with
  | nil => exact hkeep
  | none _ ih =>
    rw [List.mapM_cons, wp_bind]
    show wp (List.mapM (killUnseeded o) _ >>= fun l => pure (Option.none :: l)) Q _ ex
    rw [wp_bind]
    refine ih hkeep fun result' ex' hall hterm => ?_
    refine hkill _ ex' (fun st hst => ?_) hterm
    cases List.mem_cons.mp hst with
    | inl heq => exact heq
    | inr hmem => exact hall st hmem
  | some hrest =>
    rw [List.mapM_cons, wp_bind]
    unfold killUnseeded
    rw [wp_bind, wp_get, wp_ite]
    constructor
    · intro _
      rw [wp_bind]
      refine wp_terminateState_terminated hs fun ex' hterm => ?_
      rw [wp_pure, wp_bind]
      refine hnone hrest ex' (hkill _ ex' (fun st hst => ?_) hterm)
      cases List.mem_cons.mp hst with
      | inl heq => exact heq
      | inr hmem => exact hrest st hmem
    · intro _
      rw [wp_pure, wp_bind]
      exact hnone hrest ex hkeep

end Seeds

section Branch

variable {result : List (Option StateId)}

theorem StillAlone.constraints (h : StillAlone state ex s result ex')
    {m : StateId → Option (List SeedInfo)} {n : BitVec 32} {cs : List Expr} :
    StillAlone state ex s result { ex' with
      heap := Function.update ex'.heap state (some { s with constraints := cs })
      seedMap := m
      nextID := n } where
  others st hst := (Function.update_of_ne hst _ _).trans (h.others st hst)
  nextState := h.nextState
  pathWriter := h.pathWriter
  symPathWriter := h.symPathWriter
  live _ := ⟨cs, Function.update_self _ _ _⟩

/-- The seeds are redistributed; the state may be killed for want of seeds. -/
theorem wp_branchSeeds {Q : List (Option StateId) → Executor M → Prop} {conditions : List Expr}
    (hresult : Lone state result) (hs : ex.heap state = some s)
    (hkeep : ∀ ex', StillAlone state ex s result ex' → Q result ex')
    (hkill : ∀ result' ex', (∀ st ∈ result', st = none) → StillAlone state ex s result' ex' →
      Q result' ex') :
    wp (branchSeeds o state conditions result) Q (fun _ => True) ex := by
  unfold branchSeeds
  rw [wp_bind, wp_get]
  cases ex.seedMap state with
  | none => exact hkeep ex (stillAlone_refl hs)
  | some seeds =>
    dsimp only
    rw [wp_bind, wp_modify, wp_bind]
    refine (wp_readState (s := s) (by exact hs)).mpr ?_
    rw [wp_bind]
    have hseeds := wp_forM (E := fun _ => True) (g := giveSeed o s.constraints conditions result)
      (I := fun _ ex' => ∃ m g, ex' = { ex with seedMap := m, theRNG := g }) seeds
      (s := { ex with seedMap := Function.update ex.seedMap state none }) ⟨_, ex.theRNG, rfl⟩
      (fun seed rest ex' hex' => by
        obtain ⟨m, g, rfl⟩ := hex'
        exact wp_giveSeed fun m' g' => ⟨m', g', rfl⟩)
    refine wp_post hseeds fun _ ex' hex' => ?_
    obtain ⟨m, g, rfl⟩ := hex'
    have halone : StillAlone state ex s result { ex with seedMap := m, theRNG := g } :=
      ⟨fun _ _ => rfl, rfl, rfl, rfl, fun _ => ⟨s.constraints, hs⟩⟩
    rw [wp_ite]
    refine ⟨fun _ => ?_, fun _ => hkeep _ halone⟩
    refine wp_killUnseeded hresult (by exact hs) (hkeep _ halone) fun result' ex' hall hterm => ?_
    refine hkill result' ex' hall ⟨fun st hst => hterm.heap st (by simpa using hst),
      hterm.nextState, hterm.pathWriter, hterm.symPathWriter, fun hmem => by cases hall _ hmem⟩

/-- The loop of `branch` that adds the conditions. -/
def addConditions (o : ExecutorOptions) (result : List (Option StateId)) (conditions : List Expr) :
    ExecutorM M Unit :=
  (result.zip conditions).forM fun (st, condition) =>
    match st with
    | some st => addConstraint o st condition
    | none => pure ()

theorem wp_addConditions {Q : Unit → Executor M → Prop} {conditions : List Expr}
    (hresult : Lone state result) (halone : StillAlone state ex s result ex')
    (hQ : ∀ ex'', StillAlone state ex s result ex'' → Q () ex'') :
    wp (addConditions o result conditions) Q (fun _ => True) ex' := by
  unfold addConditions
  refine wp_post (wp_forM (I := fun rest ex'' => StillAlone state ex s result ex'' ∧
    ∀ p ∈ rest, p.1 ∈ result) _ ⟨halone, fun p hp => (List.of_mem_zip hp).1⟩
    fun p rest ex₁ h₁ => ?_) fun _ ex'' h => hQ ex'' h.1
  obtain ⟨h₁, hmem⟩ := h₁
  have hrest : ∀ p ∈ rest, p.1 ∈ result := fun p hp => hmem p (List.mem_cons_of_mem _ hp)
  obtain ⟨st, condition⟩ := p
  cases st with
  | none => exact ⟨h₁, hrest⟩
  | some st =>
    have hst := hmem _ List.mem_cons_self
    obtain rfl := hresult.only hst
    obtain ⟨cs, hcs⟩ := h₁.live hst
    have hadd : wp (addConstraint o st condition)
        (fun _ ex'' => StillAlone st ex s result ex'' ∧ ∀ p ∈ rest, p.1 ∈ result)
        (fun _ => ¬ False) ex₁ :=
      wp_addConstraint hcs False.elim fun cs' m n _ _ => ⟨h₁.constraints, hrest⟩
    exact wp_mono hadd (fun _ _ h => h) fun _ _ => trivial

/-- What `branch` does to the history of the state when it makes no new one: it records the
first branch, unless the fork limit is reached. -/
def branchEntry (o : ExecutorOptions) (ex : Executor M) (s : ExecutionState M) :
    ExecutionState M :=
  if Limited o ex then s else s.took 0

/-- `branch` without new states. -/
theorem wp_branch_alone {Q : List (Option StateId) → Executor M → Prop} {conditions : List Expr}
    (hs : ex.heap state = some s) (hlen : conditions.length = 1 ∨ Limited o ex)
    (hQ : ∀ result ex' i, i < conditions.length → (∀ st ∈ result, st = none) ∨
        result = aloneAt state i conditions.length →
      StillAlone state ex (branchEntry o ex s) result ex' → Q result ex') :
    wp (branch o state conditions) Q (fun _ => True) ex := by
  have hrest (ex₁ : Executor M) (i : Nat) (hi : i < conditions.length)
      (h₁ : StillAlone state ex (branchEntry o ex s) (aloneAt state i conditions.length) ex₁)
      (hheap : ex₁.heap state = some (branchEntry o ex s)) : wp (do
        let result ← branchSeeds o state conditions (aloneAt state i conditions.length)
        addConditions o result conditions
        pure result) Q (fun _ => True) ex₁ := by
    have htrans {result : List (Option StateId)} {ex₂ : Executor M}
        (h₂ : StillAlone state ex₁ (branchEntry o ex s) result ex₂) :
        StillAlone state ex (branchEntry o ex s) result ex₂ :=
      ⟨fun st hst => (h₂.others st hst).trans (h₁.others st hst), h₂.nextState.trans h₁.nextState,
        h₂.pathWriter.trans h₁.pathWriter, h₂.symPathWriter.trans h₁.symPathWriter, h₂.live⟩
    have hnone {result : List (Option StateId)} (h : ∀ st ∈ result, st = none) :
        Lone state result := by
      induction result with
      | nil => exact .nil
      | cons st rest ih =>
        obtain rfl := h st List.mem_cons_self
        exact .none (ih fun st hst => h st (List.mem_cons_of_mem _ hst))
    rw [wp_bind]
    refine wp_branchSeeds (lone_aloneAt i _) hheap (fun ex₂ h₂ => ?_) fun result ex₂ hall h₂ => ?_
    · rw [wp_bind]
      exact wp_addConditions (lone_aloneAt i _) (htrans h₂) fun ex₃ h₃ => hQ _ ex₃ i hi (.inr rfl) h₃
    · rw [wp_bind]
      exact wp_addConditions (hnone hall) (htrans h₂) fun ex₃ h₃ => hQ _ ex₃ i hi (.inl hall) h₃
  unfold branch
  rw [wp_ite]
  refine ⟨fun _ => trivial, fun hne => ?_⟩
  have hpos : 0 < conditions.length := List.length_pos_of_ne_nil hne
  rw [wp_bind]
  unfold branchStates
  rw [wp_bind, wp_get, wp_ite]
  constructor
  · intro hlimited
    have hentry : branchEntry o ex s = s := if_pos hlimited
    rw [wp_bind, wp_getInt32]
    refine hrest _ _ (Nat.mod_lt _ hpos) ?_ (by rw [hentry]; exact hs)
    refine ⟨fun _ _ => rfl, rfl, rfl, rfl, fun _ => ⟨s.constraints, ?_⟩⟩
    rw [hentry]
    exact hs
  · intro hlimited
    have hentry : branchEntry o ex s = s.took 0 := if_neg hlimited
    have hone : conditions.length = 1 := hlen.resolve_right hlimited
    rw [wp_bind, wp_modify, wp_bind]
    refine (wp_readState (s := s) (by exact hs)).mpr ?_
    rw [wp_bind]
    refine (wp_pushTaken (s := s) (by exact hs)).mpr ?_
    rw [wp_bind]
    refine wp_insertFeatureState_of fun fs => ?_
    rw [wp_bind, hone]
    refine wp_pure.mpr ?_
    have halone : [state].map some = aloneAt state 0 conditions.length := by
      rw [hone]
      rfl
    rw [wp_pure, halone]
    have hheap : Function.update ex.heap state (some (s.took 0)) state =
        some (branchEntry o ex s) := by rw [Function.update_self, hentry]
    refine hrest _ 0 hpos ⟨fun st hst => Function.update_of_ne hst _ _, rfl, rfl, rfl,
      fun _ => ⟨s.constraints, ?_⟩⟩ hheap
    rw [hentry]
    exact Function.update_self _ _ _

end Branch

section Pair

variable {c d : Expr}

def pairBase (ex : Executor M) (t : PTree) (fs : List StateId) (g : Nat → BitVec 32)
    (n : BitVec 32) : Executor M :=
  { ex with
    nextState := ex.nextState + 1
    nextID := n
    addedStates := ex.addedStates ++ [ex.nextState]
    processTree := t
    featureStates := fs
    forks := ex.forks + 1
    theRNG := g }

/-- The two states of a branch on two conditions: the copy has both entries. -/
def pairOf (s : ExecutionState M) (n : BitVec 32) (cs ds : List Expr) :
    ExecutionState M × ExecutionState M :=
  ({ s.took 0 with depth := s.depth + 1, constraints := cs },
    { (s.took 0).took 1 with
      id := n
      depth := s.depth + 1
      coveredNew := false
      coveredLines := []
      constraints := ds })

/-- A branch on two conditions that can hold, without seeds. -/
theorem wp_branch_pair {Q : List (Option StateId) → Executor M → Prop} {t : PTree}
    (hs : ex.heap state = some s) (hnew : ex.heap ex.nextState = none)
    (ht : ex.processTree.attach state ex.nextState state = some t) (hfree : ¬ Limited o ex)
    (hseeds : ex.seedMap state = none) (hseeds' : ex.seedMap ex.nextState = none)
    (hc : Answers o s.constraints c) (hd : Answers o s.constraints d)
    (hcsat : ∃ σ, Satisfies σ s.constraints ∧ c.Holds σ)
    (hdsat : ∃ σ, Satisfies σ s.constraints ∧ d.Holds σ)
    (hQ : ∀ fs g n id cs ds, (∀ e ∈ cs, e.IsBool) →
      (∀ σ, Satisfies σ cs ↔ Satisfies σ s.constraints ∧ c.Holds σ) →
      Q [some state, some ex.nextState] ((pairBase ex t fs g n).withPair state ex.nextState
        (pairOf s id cs ds).1 (pairOf s id cs ds).2)) :
    wp (branch o state [c, d]) Q (fun _ => ¬ True) ex := by
  have hne : state ≠ ex.nextState := by
    intro heq
    rw [← heq, hs] at hnew
    cases hnew
  unfold branch
  rw [wp_ite]
  refine ⟨fun h => (List.cons_ne_nil _ _ h).elim, fun _ => ?_⟩
  rw [wp_bind]
  unfold branchStates
  rw [wp_bind, wp_get, wp_ite]
  refine ⟨fun h => absurd h hfree, fun _ => ?_⟩
  rw [wp_bind, wp_modify, wp_bind]
  refine (wp_readState (s := s) (by exact hs)).mpr ?_
  rw [wp_bind]
  refine (wp_pushTaken (s := s) (by exact hs)).mpr ?_
  rw [wp_bind]
  refine wp_insertFeatureState_of fun fs => ?_
  dsimp only [List.length_cons, List.length_nil]
  rw [wp_bind, branchCopies, wp_bind, wp_getInt32, List.length_singleton, Nat.mod_one, wp_bind,
    List.getElem?_cons_zero, wp_orThrow_some, wp_bind]
  refine (wp_branchState (s := s.took 0) (Function.update_self _ _ _)).mpr ?_
  rw [wp_bind, wp_modify, wp_bind]
  refine (wp_attach (t := t) (by exact ht)).mpr ?_
  have hbase (g : Nat → BitVec 32) (n : BitVec 32) (a b : ExecutionState M) :
      withPair { pairBase ex t fs g n with
        heap := Function.update ex.heap state (some (s.took 0)) } state ex.nextState a b =
        (pairBase ex t fs g n).withPair state ex.nextState a b := by
    unfold withPair
    rw [Function.update_idem]
    rfl
  change wp _ _ _ (withPair { pairBase ex t fs (fun n => ex.theRNG (n + 1)) (ex.nextID + 1) with
    heap := Function.update ex.heap state (some (s.took 0)) } state ex.nextState
      { s.took 0 with depth := s.depth + 1 } (copyOf ex (s.took 0)))
  rw [hbase]
  dsimp only
  rw [wp_bind, pushTaken, wp_modify_right, wp_bind]
  refine wp_insertFeatureState_of fun fs' => ?_
  change wp _ _ _ ((pairBase ex t fs' (fun n => ex.theRNG (n + 1)) (ex.nextID + 1)).withPair state
    ex.nextState { s.took 0 with depth := s.depth + 1 } ((copyOf ex (s.took 0)).took 1))
  rw [branchCopies, wp_pure, wp_pure, wp_bind]
  unfold branchSeeds
  rw [wp_bind, wp_get]
  dsimp only [withPair, pairBase]
  rw [hseeds]
  rw [wp_pure, wp_bind]
  change wp (addConstraint o state c >>= fun _ => addConstraint o ex.nextState d >>= fun _ => pure ())
    _ _ ((pairBase ex t fs' (fun n => ex.theRNG (n + 1)) (ex.nextID + 1)).withPair state
      ex.nextState { s.took 0 with depth := s.depth + 1 } ((copyOf ex (s.took 0)).took 1))
  rw [wp_bind]
  refine wp_addConstraint_left hne (fun _ => ⟨hc, hcsat, fun seeds h => ?_⟩) fun cs m n hadds hcs => ?_
  · cases h.symm.trans hseeds
  obtain ⟨rfl, rfl⟩ := hcs trivial
  rw [wp_bind]
  refine wp_addConstraint_right (fun _ => ⟨hd, hdsat, fun seeds h => ?_⟩) fun ds m n _ hds => ?_
  · cases h.symm.trans hseeds'
  obtain ⟨rfl, rfl⟩ := hds trivial
  exact hQ fs' _ _ _ cs ds (hadds.isBool hc.constraints hc.condition)
    (hadds.satisfies hc.constraints hc.condition)

end Pair

end Klee.Executor
