import Klee.Core.Executor

/-! What each operation of the executor does to its state. A proposition `C` stands for the
assumptions that exclude faults: an operation ends well, or `C` is false. With `C` false the
lemmas are about the runs that end well, with `C` true they also say that the run does. -/
namespace Klee.Executor

open Hoare

variable {M : Type} {o : ExecutorOptions} {ex : Executor M} {st : StateId} {s : ExecutionState M}
variable {C : Prop} {E : ExecutorFault → Prop}

section State

theorem wp_readState {Q : ExecutionState M → Executor M → Prop} (hs : ex.heap st = some s) :
    wp (readState st) Q E ex ↔ Q s ex := by
  unfold readState
  rw [wp_bind, wp_get, hs]
  exact wp_pure

theorem wp_modifyState {Q : Unit → Executor M → Prop} {f : ExecutionState M → ExecutionState M}
    (hs : ex.heap st = some s) : wp (modifyState st f) Q E ex ↔
      Q () { ex with heap := Function.update ex.heap st (some (f s)) } := by
  unfold modifyState
  rw [wp_bind, wp_readState hs]
  exact wp_modify

@[simp] theorem wp_orThrow_some {α : Type} {a : α} {f : ExecutorFault}
    {Q : α → Executor M → Prop} : wp (orThrow f (some a)) Q E ex ↔ Q a ex := wp_pure

@[simp] theorem wp_orThrow_none {α : Type} {f : ExecutorFault} {Q : α → Executor M → Prop} :
    wp (orThrow f (none : Option α)) Q E ex ↔ E f := wp_throw

theorem keeps_orThrow {α : Type} (f : ExecutorFault) (a : Option α) :
    Keeps (orThrow f a : ExecutorM M α) := by
  cases a with
  | none => exact keeps_throw f
  | some a => exact keeps_pure a

theorem wp_getInt32 {Q : BitVec 32 → Executor M → Prop} : wp getInt32 Q E ex ↔
    Q (ex.theRNG 0) { ex with theRNG := fun n => ex.theRNG (n + 1) } := by
  unfold getInt32
  simp

theorem wp_getBool {Q : Bool → Executor M → Prop}
    (hQ : ∀ b, Q b { ex with theRNG := fun n => ex.theRNG (n + 1) }) : wp getBool Q E ex := by
  unfold getBool
  rw [wp_bind, wp_getInt32]
  exact hQ _

theorem wp_insertFeatureState {Q : Unit → Executor M → Prop} : wp (insertFeatureState o st) Q E ex ↔
    Q () { ex with
      featureStates := if o.featureExtract then ex.featureStates.insert st
        else ex.featureStates } := by
  unfold insertFeatureState
  by_cases h : o.featureExtract = true
  · rw [if_pos h, if_pos h]
    exact wp_modify
  · rw [if_neg h, if_neg h]
    exact wp_pure

theorem wp_insertFeatureState_of {Q : Unit → Executor M → Prop}
    (hQ : ∀ fs, Q () { ex with featureStates := fs }) : wp (insertFeatureState o st) Q E ex :=
  wp_insertFeatureState.mpr (hQ _)

theorem wp_pushTaken {Q : Unit → Executor M → Prop} {inst index : Nat}
    (hs : ex.heap st = some s) : wp (pushTaken st inst index) Q E ex ↔
      Q () { ex with
        heap := Function.update ex.heap st
          (some { s with takenBranches := s.takenBranches ++ [(inst, index)] }) } :=
  wp_modifyState hs

end State

section Copy

/-- The copy that `ExecutionState::branch` makes of a state with the new depth. -/
def copyOf (ex : Executor M) (s : ExecutionState M) : ExecutionState M :=
  { s with id := ex.nextID, depth := s.depth + 1, coveredNew := false, coveredLines := [] }

theorem wp_branchState {Q : StateId → Executor M → Prop} (hs : ex.heap st = some s) :
    wp (branchState st) Q E ex ↔ Q ex.nextState { ex with
      heap := Function.update (Function.update ex.heap st (some { s with depth := s.depth + 1 }))
        ex.nextState (some (copyOf ex s))
      nextState := ex.nextState + 1
      nextID := ex.nextID + 1 } := by
  unfold branchState
  rw [wp_bind, wp_modifyState hs, wp_bind, wp_readState (s := { s with depth := s.depth + 1 })
    (Function.update_self _ _ _)]
  simp only [wp_bind, wp_get, wp_set, wp_pure]
  exact Iff.rfl

theorem wp_attach {Q : Unit → Executor M → Prop} {left right : StateId} {t : PTree}
    (ht : ex.processTree.attach st left right = some t) :
    wp (attach st left right) Q E ex ↔ Q () { ex with processTree := t } := by
  unfold attach
  rw [wp_bind, wp_get, ht]
  exact wp_set

theorem wp_removeNode {Q : Unit → Executor M → Prop} {t : PTree}
    (ht : ex.processTree.remove st = some t) :
    wp (removeNode st) Q E ex ↔ Q () { ex with processTree := t } := by
  unfold removeNode
  rw [wp_bind, wp_get, ht]
  exact wp_set

end Copy

section Terminate

/-- The state is noted as explored, and leaves the set of the states with new features. -/
def noted (o : ExecutorOptions) (ex : Executor M) (st : StateId) (s : ExecutionState M)
    (reason : TerminateReason) : Executor M :=
  { ex with
    explored := ex.explored ++ [(st, s, reason)]
    featureStates := if o.featureExtract then ex.featureStates.erase st else ex.featureStates }

/-- A state that never reached the searcher is deleted at once, any other is queued. -/
theorem wp_terminateState {Q : Unit → Executor M → Prop} {reason : TerminateReason}
    (hs : ex.heap st = some s)
    (hadded : st ∈ ex.addedStates → match ex.processTree.remove st with
      | none => E .noState
      | some t => Q () { noted o ex st s reason with
          seedMap := Function.update ex.seedMap st none
          addedStates := ex.addedStates.erase st
          processTree := t
          heap := Function.update ex.heap st none })
    (hremoved : st ∉ ex.addedStates → Q () { noted o ex st s reason with
      heap := Function.update ex.heap st (some { s with pc := s.prevPC })
      removedStates := ex.removedStates ++ [st] }) :
    wp (terminateState o st reason) Q E ex := by
  unfold terminateState
  rw [wp_bind, wp_readState hs, wp_bind, wp_modify, wp_bind, wp_get, wp_ite]
  constructor
  · intro h
    have hadded := hadded h
    rw [wp_bind, wp_set, wp_bind]
    cases ht : ex.processTree.remove st with
    | none =>
      rw [ht] at hadded
      unfold removeNode
      rw [wp_bind, wp_get, ht]
      exact wp_throw.mpr hadded
    | some t =>
      rw [ht] at hadded
      refine (wp_removeNode (t := t) ?_).mpr ?_
      · exact ht
      exact hadded
  · intro h
    rw [wp_bind]
    refine (wp_modifyState (s := s) ?_).mpr ?_
    · exact hs
    exact hremoved h

/-- What is left of the executor when the states `sts` have been terminated. -/
structure Terminated (sts : List StateId) (ex ex' : Executor M) : Prop where
  heap : ∀ st, st ∉ sts → ex'.heap st = ex.heap st
  nextState : ex'.nextState = ex.nextState
  pathWriter : ex'.pathWriter = ex.pathWriter
  symPathWriter : ex'.symPathWriter = ex.symPathWriter
  explored : ∃ l, ex'.explored = ex.explored ++ l ∧ l.map (·.1) = sts

theorem Terminated.trans {sts sts' : List StateId} {ex' ex'' : Executor M}
    (h : Terminated sts ex ex') (h' : Terminated sts' ex' ex'') :
    Terminated (sts ++ sts') ex ex'' where
  heap st hst := by
    rw [List.mem_append, not_or] at hst
    rw [h'.heap st hst.2, h.heap st hst.1]
  nextState := h'.nextState.trans h.nextState
  pathWriter := h'.pathWriter.trans h.pathWriter
  symPathWriter := h'.symPathWriter.trans h.symPathWriter
  explored := by
    obtain ⟨l, hl, hsts⟩ := h.explored
    obtain ⟨l', hl', hsts'⟩ := h'.explored
    exact ⟨l ++ l', by rw [hl', hl, List.append_assoc], by rw [List.map_append, hsts, hsts']⟩

/-- The spec of `terminateState` with the entry that the interpreter handler is told. -/
theorem wp_terminateState_reason {Q : Unit → Executor M → Prop} {reason : TerminateReason}
    (hs : ex.heap st = some s)
    (hQ : ∀ ex', Terminated [st] ex ex' → ex'.explored = ex.explored ++ [(st, s, reason)] → Q () ex') :
    wp (terminateState o st reason) Q (fun _ => True) ex := by
  have hheap (a : Option (ExecutionState M)) (x : StateId) (hx : x ∉ [st]) :
      Function.update ex.heap st a x = ex.heap x :=
    Function.update_of_ne (by simpa using hx) _ _
  have hlist : [(st, s, reason)].map (·.1) = [st] := rfl
  refine wp_terminateState hs (fun _ => ?_) fun _ =>
    hQ _ ⟨hheap _, rfl, rfl, rfl, _, rfl, hlist⟩ rfl
  cases ex.processTree.remove st with
  | none => trivial
  | some t => exact hQ _ ⟨hheap _, rfl, rfl, rfl, _, rfl, hlist⟩ rfl

theorem wp_terminateState_terminated {Q : Unit → Executor M → Prop} {reason : TerminateReason}
    (hs : ex.heap st = some s) (hQ : ∀ ex', Terminated [st] ex ex' → Q () ex') :
    wp (terminateState o st reason) Q (fun _ => True) ex :=
  wp_terminateState_reason hs fun ex' h _ => hQ ex' h

end Terminate

section Constraints

theorem keeps_addConstraintTo (cs : List Expr) (e : Expr) :
    Keeps (addConstraintTo o cs e : ExecutorM M (List Expr)) := keeps_orThrow _ _

theorem keeps_patchByte (array : Array) (index : Nat) (seed : SeedInfo) (tmp : List Expr) :
    Keeps (patchByte o array index seed tmp : ExecutorM M (SeedInfo × List Expr)) := by
  unfold patchByte
  refine (keeps_orThrow _ _).bind fun byte => (keeps_orThrow _ _).bind fun res => Keeps.ite ?_ ?_
  · exact (keeps_orThrow _ _).bind fun value => (keeps_addConstraintTo _ _).bind fun tmp =>
      keeps_pure _
  · exact (keeps_addConstraintTo _ _).bind fun tmp => keeps_pure _

/-- Patching a seed takes an identifier and changes nothing else. -/
theorem wp_patchSeed {Q : SeedInfo → Executor M → Prop} {cs : List Expr} {condition : Expr}
    {seed : SeedInfo} (hQ : ∀ seed', Q seed' { ex with nextID := ex.nextID + 1 }) :
    wp (patchSeed o cs condition seed) Q (fun _ => True) ex := by
  unfold patchSeed
  rw [wp_bind, wp_modify]
  refine Keeps.wp ?_ hQ
  refine (keeps_addConstraintTo _ _).bind fun tmp =>
    (keeps_foldlM (fun b c => Keeps.ite (keeps_patchByte _ _ _ _) (keeps_pure _)) _ _).bind
      fun r => (keeps_orThrow _ _).bind fun res => Keeps.ite (keeps_pure _) ?_
  refine (keeps_foldlM (fun b c => keeps_foldlM (fun b' i => keeps_patchByte _ _ _ _) _ _) _ _).bind
    fun r => (keeps_orThrow _ _).bind fun res => Keeps.ite (keeps_pure _) (keeps_throw _)

/-- What a query about `e` under the constraints `cs` needs for a right answer. -/
structure Answers (o : ExecutorOptions) (cs : List Expr) (e : Expr) : Prop where
  solver : o.solver.Correct
  constraints : ∀ c ∈ cs, c.IsBool
  condition : e.IsBool
  sat : ∃ σ, Satisfies σ cs

variable {cs : List Expr} {e : Expr} {seed : SeedInfo}

theorem Answers.evaluate (h : Answers o cs e) (seed : SeedInfo) :
    Answers o cs (seed.assignment.evaluate e) :=
  ⟨h.solver, h.constraints, ArrayAssignment.isBool_evaluate h.condition, h.sat⟩

/-- A seed that may meet the condition is kept. -/
theorem wp_checkSeed {Q : SeedInfo → Executor M → Prop} (hC : C → Answers o cs e ∧
      ∃ σ, Satisfies σ cs ∧ (seed.assignment.evaluate e).Holds σ)
    (hQ : ∀ seed' n, (C → seed' = seed ∧ n = ex.nextID) → Q seed' { ex with nextID := n }) :
    wp (checkSeed o cs e seed) Q (fun _ => ¬ C) ex := by
  unfold checkSeed
  rw [wp_bind]
  by_cases hc : C
  · obtain ⟨ha, σ, hσ, hholds⟩ := hC hc
    obtain ⟨b, hb, hiff⟩ := ha.solver.mustBeFalse ha.constraints (ha.evaluate seed).condition ha.sat
    have hfalse : b = false := by
      by_contra hne
      exact hiff.mp (by simpa using hne) σ hσ hholds
    rw [hb, wp_orThrow_some, hfalse]
    exact hQ seed ex.nextID fun _ => ⟨rfl, rfl⟩
  · cases hres : o.solver.mustBeFalse cs (seed.assignment.evaluate e) with
    | none => exact hc
    | some b =>
      rw [wp_orThrow_some, wp_ite]
      constructor
      · intro _
        exact wp_mono (wp_patchSeed fun seed' => hQ seed' _ fun h => absurd h hc)
          (fun _ _ h => h) fun _ _ => hc
      · intro _
        exact hQ seed ex.nextID fun h => absurd h hc

theorem wp_checkSeeds {seeds : List SeedInfo} {Q : List SeedInfo → Executor M → Prop}
    (hC : C → Answers o cs e ∧
      ∀ seed ∈ seeds, ∃ σ, Satisfies σ cs ∧ (seed.assignment.evaluate e).Holds σ)
    (hQ : ∀ seeds' n, (C → seeds' = seeds ∧ n = ex.nextID) → Q seeds' { ex with nextID := n }) :
    wp (seeds.mapM (checkSeed o cs e)) Q (fun _ => ¬ C) ex := by
  induction seeds generalizing ex Q with
  | nil =>
    rw [List.mapM_nil]
    exact hQ [] ex.nextID fun _ => ⟨rfl, rfl⟩
  | cons seed rest ih =>
    rw [List.mapM_cons, wp_bind]
    refine wp_checkSeed (fun hc => ⟨(hC hc).1, (hC hc).2 seed List.mem_cons_self⟩)
      fun seed' n hseed => ?_
    rw [wp_bind]
    refine ih (fun hc => ⟨(hC hc).1, fun s hs => (hC hc).2 s (List.mem_cons_of_mem _ hs)⟩)
      fun rest' m hrest => ?_
    refine hQ (seed' :: rest') m fun hc => ?_
    obtain ⟨rfl, rfl⟩ := hseed hc
    obtain ⟨rfl, rfl⟩ := hrest hc
    exact ⟨rfl, rfl⟩

/-- Storing a constraint that is satisfiable together with those of the state. -/
theorem Answers.addConstraint (h : Answers o cs e) (hsat : ∃ σ, Satisfies σ cs ∧ e.Holds σ) :
    ∃ cs', ConstraintManager.addConstraint o.rewriteEqualities cs e = some cs' ∧
      (∀ c ∈ cs', c.IsBool) ∧ ∀ σ, Satisfies σ cs' ↔ Satisfies σ cs ∧ e.Holds σ := by
  have hst := ConstraintManager.addConstraint_stores o.rewriteEqualities cs e h.constraints
    h.condition
  cases hres : ConstraintManager.addConstraint o.rewriteEqualities cs e with
  | none =>
    rw [hres] at hst
    obtain ⟨σ, hσ, hholds⟩ := hsat
    exact absurd ⟨hσ, (satisfies_singleton σ e).mpr hholds⟩ (hst σ trivial)
  | some cs' =>
    rw [hres] at hst
    exact ⟨cs', rfl, hst.1, fun σ => by rw [hst.2 σ trivial, satisfies_singleton]⟩

/-- What `addConstraint` needs to end well and to keep the seeds. -/
structure Accepts (o : ExecutorOptions) (ex : Executor M) (st : StateId) (cs : List Expr)
    (e : Expr) : Prop where
  answers : Answers o cs e
  sat : ∃ σ, Satisfies σ cs ∧ e.Holds σ
  seeds : ∀ seeds, ex.seedMap st = some seeds → ∀ seed ∈ seeds,
    ∃ σ, Satisfies σ cs ∧ (seed.assignment.evaluate e).Holds σ

/-- The constraints `cs'` are `cs` with `e`, if they are boolean. -/
structure Adds (cs : List Expr) (e : Expr) (cs' : List Expr) : Prop where
  isBool : (∀ c ∈ cs, c.IsBool) → e.IsBool → ∀ c ∈ cs', c.IsBool
  satisfies : (∀ c ∈ cs, c.IsBool) → e.IsBool →
    ∀ σ, Satisfies σ cs' ↔ Satisfies σ cs ∧ e.Holds σ

theorem adds_addConstraint {b : Bool} {cs cs' : List Expr}
    (h : ConstraintManager.addConstraint b cs e = some cs') : Adds cs e cs' := by
  have hstores (hcs : ∀ c ∈ cs, c.IsBool) (he : e.IsBool) :
      (∀ c ∈ cs', c.IsBool) ∧ ∀ σ, Satisfies σ cs' ↔ Satisfies σ cs ∧ e.Holds σ := by
    have hst := ConstraintManager.addConstraint_stores b cs e hcs he
    rw [h] at hst
    exact ⟨hst.1, fun σ => by rw [hst.2 σ trivial, satisfies_singleton]⟩
  exact ⟨fun hcs he => (hstores hcs he).1, fun hcs he => (hstores hcs he).2⟩

theorem adds_true {c : ConstantExpr} {cs : List Expr} (h : c.isTrue = true) :
    Adds cs (.constant c) cs :=
  ⟨fun hcs _ => hcs, fun _ he _ =>
    ⟨fun hσ => ⟨hσ, (Expr.holds_constant_iff he).mpr h⟩, And.left⟩⟩

/-- `addConstraint` changes the constraints of the state, patches its seeds, and takes
identifiers for it. -/
theorem wp_addConstraint {Q : Unit → Executor M → Prop} (hs : ex.heap st = some s)
    (hC : C → Accepts o ex st s.constraints e)
    (hQ : ∀ cs m n, Adds s.constraints e cs → (C → m = ex.seedMap ∧ n = ex.nextID) →
      Q () { ex with
        heap := Function.update ex.heap st (some { s with constraints := cs })
        seedMap := m
        nextID := n }) :
    wp (addConstraint o st e) Q (fun _ => ¬ C) ex := by
  have hstore (m : StateId → Option (List SeedInfo)) (n : BitVec 32)
      (hmn : C → m = ex.seedMap ∧ n = ex.nextID) :
      wp (do
        let cs ← addConstraintTo o s.constraints e
        modifyState st fun s => { s with constraints := cs }) Q (fun _ => ¬ C)
        { ex with seedMap := m, nextID := n } := by
    rw [wp_bind, addConstraintTo]
    cases hres : ConstraintManager.addConstraint o.rewriteEqualities s.constraints e with
    | none =>
      refine wp_orThrow_none.mpr fun hc => ?_
      obtain ⟨cs', hcs', -⟩ := (hC hc).answers.addConstraint (hC hc).sat
      cases hres.symm.trans hcs'
    | some cs' =>
      rw [wp_orThrow_some]
      refine (wp_modifyState (s := s) ?_).mpr ?_
      · exact hs
      exact hQ cs' m n (adds_addConstraint hres) hmn
  unfold addConstraint
  split
  · rename_i c
    rw [wp_ite]
    constructor
    · intro htrue
      have hsame := hQ s.constraints ex.seedMap ex.nextID (adds_true htrue) fun _ => ⟨rfl, rfl⟩
      rw [wp_pure]
      have hheap : Function.update ex.heap st (some s) = ex.heap := by
        rw [← hs, Function.update_eq_self]
      rwa [hheap] at hsame
    · intro hfalse hc
      obtain ⟨σ, -, hholds⟩ := (hC hc).sat
      exact hfalse ((Expr.holds_constant_iff (hC hc).answers.condition).mp hholds)
  · rw [wp_bind, wp_readState hs, wp_bind, wp_get]
    cases hseeds : ex.seedMap st with
    | none =>
      exact hstore ex.seedMap ex.nextID fun _ => ⟨rfl, rfl⟩
    | some seeds =>
      dsimp only
      rw [wp_bind]
      refine wp_checkSeeds (fun hc => ⟨(hC hc).answers, (hC hc).seeds seeds hseeds⟩)
        fun seeds' n hsame => ?_
      rw [wp_bind, wp_modify]
      refine hstore (Function.update ex.seedMap st (some seeds')) n fun hc => ?_
      obtain ⟨rfl, rfl⟩ := hsame hc
      exact ⟨by rw [← hseeds, Function.update_eq_self], rfl⟩

section Faults

abbrev NotNoState (f : ExecutorFault) : Prop := f ≠ .noState

theorem faults_orThrow {α : Type} {f : ExecutorFault} (hf : E f) (a : Option α) :
    Faults E (orThrow f a : ExecutorM M α) := by
  cases a with
  | none => exact faults_throw hf
  | some a => exact faults_pure a

theorem faults_addConstraintTo (cs : List Expr) (e : Expr) :
    Faults NotNoState (addConstraintTo o cs e : ExecutorM M (List Expr)) :=
  faults_orThrow (by decide) _

theorem faults_patchByte (array : Array) (index : Nat) (seed : SeedInfo) (tmp : List Expr) :
    Faults NotNoState (patchByte o array index seed tmp : ExecutorM M (SeedInfo × List Expr)) := by
  unfold patchByte
  refine (faults_orThrow (by decide) _).bind fun byte =>
    (faults_orThrow (by decide) _).bind fun res => Faults.ite ?_ ?_
  · exact (faults_orThrow (by decide) _).bind fun value => (faults_addConstraintTo _ _).bind
      fun tmp => faults_pure _
  · exact (faults_addConstraintTo _ _).bind fun tmp => faults_pure _

theorem faults_patchSeed (cs : List Expr) (condition : Expr) (seed : SeedInfo) :
    Faults NotNoState (patchSeed o cs condition seed : ExecutorM M SeedInfo) := by
  unfold patchSeed
  refine Faults.bind (fun _ => trivial) fun _ => ?_
  refine (faults_addConstraintTo _ _).bind fun tmp =>
    (faults_foldlM (fun b c => Faults.ite (faults_patchByte _ _ _ _) (faults_pure _)) _ _).bind
      fun r => (faults_orThrow (by decide) _).bind fun res => Faults.ite (faults_pure _) ?_
  refine (faults_foldlM (fun b c => faults_foldlM (fun b' i => faults_patchByte _ _ _ _) _ _) _
    _).bind fun r => (faults_orThrow (by decide) _).bind fun res => ?_
  exact Faults.ite (faults_pure _) (faults_throw (by decide))

theorem faults_checkSeed (cs : List Expr) (condition : Expr) (seed : SeedInfo) :
    Faults NotNoState (checkSeed o cs condition seed : ExecutorM M SeedInfo) :=
  (faults_orThrow (by decide) _).bind fun _ => Faults.ite (faults_patchSeed _ _ _) (faults_pure _)

end Faults

/-- Whenever `addConstraint` ends, the constraint has been stored. -/
theorem wp_addConstraint_stored {Q : Unit → Executor M → Prop} (hs : ex.heap st = some s)
    (hcs : ∀ c ∈ s.constraints, c.IsBool) (he : e.IsBool)
    (hQ : ∀ cs m n, (∀ c ∈ cs, c.IsBool) →
        (∀ σ, Satisfies σ cs ↔ Satisfies σ s.constraints ∧ e.Holds σ) →
        (∀ x, x ≠ st → m x = ex.seedMap x) → (ex.seedMap st = none → m = ex.seedMap) →
      Q () { ex with
        heap := Function.update ex.heap st (some { s with constraints := cs })
        seedMap := m
        nextID := n }) :
    wp (addConstraint o st e) Q NotNoState ex := by
  have hstore (m : StateId → Option (List SeedInfo)) (n : BitVec 32)
      (hm : ∀ x, x ≠ st → m x = ex.seedMap x) (hnone : ex.seedMap st = none → m = ex.seedMap) :
      wp (do
        let cs ← addConstraintTo o s.constraints e
        modifyState st fun s => { s with constraints := cs }) Q NotNoState
        { ex with seedMap := m, nextID := n } := by
    rw [wp_bind, addConstraintTo]
    cases hres : ConstraintManager.addConstraint o.rewriteEqualities s.constraints e with
    | none => exact wp_orThrow_none.mpr (by decide)
    | some cs' =>
      have hadds := adds_addConstraint hres
      rw [wp_orThrow_some]
      refine (wp_modifyState (s := s) (by exact hs)).mpr ?_
      exact hQ cs' m n (hadds.isBool hcs he) (hadds.satisfies hcs he) hm hnone
  unfold addConstraint
  split
  · rename_i c
    rw [wp_ite]
    refine ⟨fun htrue => ?_, fun _ => wp_throw.mpr (by decide)⟩
    have hsame := hQ s.constraints ex.seedMap ex.nextID hcs ((adds_true htrue).satisfies hcs he)
      (fun _ _ => rfl) fun _ => rfl
    have hheap : Function.update ex.heap st (some s) = ex.heap := by
      rw [← hs, Function.update_eq_self]
    rwa [hheap] at hsame
  · rw [wp_bind, wp_readState hs, wp_bind, wp_get]
    cases hseeds : ex.seedMap st with
    | none => exact hstore ex.seedMap ex.nextID (fun _ _ => rfl) fun _ => rfl
    | some seeds =>
      dsimp only
      rw [wp_bind]
      have hcheck : wp (seeds.mapM (checkSeed o s.constraints e))
          (fun _ ex' => ∃ n, ex' = { ex with nextID := n }) (fun _ => ¬ False) ex :=
        wp_checkSeeds False.elim fun _ n _ => ⟨n, rfl⟩
      refine wp_mono (wp_and hcheck (faults_mapM (faults_checkSeed s.constraints e) seeds ex))
        (fun seeds' ex' hex' => ?_) fun _ hf => hf.2
      obtain ⟨⟨n, rfl⟩, -⟩ := hex'
      rw [wp_bind, wp_modify]
      refine hstore _ n (fun x hx => Function.update_of_ne hx _ _) fun hnone => ?_
      cases hnone.symm.trans hseeds

/-- The same, with the assumptions that exclude faults. -/
theorem wp_addConstraint_stores {Q : Unit → Executor M → Prop} (hs : ex.heap st = some s)
    (hcs : ∀ c ∈ s.constraints, c.IsBool) (he : e.IsBool)
    (hC : C → Accepts o ex st s.constraints e)
    (hQ : ∀ cs m n, (∀ c ∈ cs, c.IsBool) →
        (∀ σ, Satisfies σ cs ↔ Satisfies σ s.constraints ∧ e.Holds σ) →
        (∀ x, x ≠ st → m x = ex.seedMap x) → (ex.seedMap st = none → m = ex.seedMap) →
      Q () { ex with
        heap := Function.update ex.heap st (some { s with constraints := cs })
        seedMap := m
        nextID := n }) :
    wp (addConstraint o st e) Q (fun f => f ≠ .noState ∧ ¬ C) ex := by
  have hends : wp (addConstraint o st e) (fun _ _ => True) (fun _ => ¬ C) ex :=
    wp_addConstraint hs hC fun _ _ _ _ _ => trivial
  exact wp_mono (wp_and (wp_addConstraint_stored hs hcs he hQ) hends) (fun _ _ h => h.1) fun _ h => h

end Constraints

end Klee.Executor
