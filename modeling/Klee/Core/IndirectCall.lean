import Klee.Core.InternalFork

/-! The call through a symbolic function pointer: `executeInstruction` asks for one value of the
pointer after the other and forks on it. -/
namespace Klee.Executor

open Hoare

/-- The frames that calls push: the call site, and the address of the function. The rest of a
frame and of a state is left out. -/
abbrev Frames := List (Nat × Nat)

/-- What the loop looks up. `entry` is the first instruction of the function at an address,
`optimizeExpr` is that of `ExprOptimizer`, which does nothing by default. -/
structure CallContext where
  legalFunctions : Finset Nat
  entry : Nat → Nat
  optimizeExpr : Expr → Expr

variable (c : CallContext) (o : ExecutorOptions)

/-- `executeCall` of a function with a body: its frame is pushed and its first instruction is
next. -/
def executeCall (state : StateId) (f : Nat) : ExecutorM Frames Unit :=
  modifyState state fun s => { s with
    pc := c.entry f
    memory := (s.prevPC, f) :: s.memory }

def callValue (state : StateId) (value : ConstantExpr) (hasInvalid : Bool) :
    Option StateId → ExecutorM Frames Bool
  | none => pure hasInvalid
  | some st =>
    let addr := value.value.toNat
    if addr ∈ c.legalFunctions then do
      executeCall c st addr
      pure hasInvalid
    else do
      if hasInvalid then pure () else terminateStateOnExecError o state
      pure true

/-- The loop, for at most as many rounds as the first argument says; the result tells whether
it has ended. A warning is left out. -/
def callTargets (state : StateId) : Nat → StateId → Expr → Bool → ExecutorM Frames Bool
  | 0, _, _, _ => pure false
  | n + 1, free, v, hasInvalid => do
    let v := c.optimizeExpr v
    let s ← readState free
    let value ← orThrow .solverFailure (o.solver.getValue s.constraints v)
    let res ← fork o free (EqExpr.create v (.constant value)) true
    let hasInvalid ← callValue c o state value hasInvalid res.1
    match res.2 with
    | none => pure true
    | some free => callTargets state n free v hasInvalid

/-- The indirect call in `state` through the pointer `v`. -/
def callIndirect (n : Nat) (state : StateId) (v : Expr) : ExecutorM Frames Bool :=
  callTargets c o state n state v false

variable {c o} {ex ex' : Executor Frames} {state free : StateId} {s : ExecutionState Frames}
variable {address : Assignment → Nat}

section Round

/-- The condition of a round. -/
theorem eqValue_spec {v : Expr} {value : ConstantExpr} (hv : v.WellSorted)
    (hw : value.width = v.width) : (EqExpr.create v (.constant value)).IsBool ∧
      ∀ σ, (EqExpr.create v (.constant value)).Holds σ ↔
        (v.eval σ v.width).toNat = value.value.toNat := by
  obtain ⟨w, x⟩ := value
  obtain rfl : w = v.width := hw
  have hpos := v.width_pos hv
  constructor
  · exact (EqExpr.create_denotes (Denotes.of_wellSorted_none hv rfl)
      (Denotes.constant (v := x) hpos)).isBool
  · intro σ
    have heq := EqExpr.create_denotes (Denotes.of_wellSorted (σ := σ) hv rfl)
      (Denotes.constant (v := x) hpos)
    rw [heq.holds_iff, BitVec.ofBool_eq_one, beq_iff_eq, BitVec.toNat_inj]

def Entered (c : CallContext) (s : ExecutionState Frames) (f : Nat) (s' : ExecutionState Frames) :
    Prop := s'.memory = (s.prevPC, f) :: s.memory ∧ s'.pc = c.entry f

def roundKilled (c : CallContext) (state : StateId) (v : Nat) (hasInvalid : Bool) : List StateId :=
  if hasInvalid = true ∨ v ∈ c.legalFunctions then [] else [state]

/-- What `callValue` does: it changes the state of the round, or terminates `state`. -/
structure CallRound (c : CallContext) (state st : StateId) (a : ExecutionState Frames) (v : Nat)
    (hasInvalid : Bool) (ex : Executor Frames)
    (killed : List (StateId × ExecutionState Frames × TerminateReason)) (ex' : Executor Frames) :
    Prop where
  executor : ex' = { ex with
    heap := ex'.heap
    featureStates := ex'.featureStates
    explored := ex.explored ++ killed
    removedStates := ex.removedStates ++ killed.map (·.1) }
  states : killed.map (·.1) = roundKilled c state v hasInvalid
  others : ∀ y, y ≠ st → y ≠ state → ex'.heap y = ex.heap y
  kept : ∀ y x, ex.heap y = some x → ∃ x', ex'.heap y = some x' ∧
    x'.constraints = x.constraints ∧ (killed = [] → y ≠ st → x' = x)
  killedState : ∀ e ∈ killed, ∃ x, ex.heap state = some x ∧ e.2.1.constraints = x.constraints
  entered : v ∈ c.legalFunctions → ∃ s', ex'.heap st = some s' ∧ Entered c a v s'

variable {st : StateId} {a x : ExecutionState Frames} {value : ConstantExpr} {hasInvalid : Bool}

theorem wp_callValue {Q : Bool → Executor Frames → Prop} (hst : ex.heap st = some a)
    (hstate : ex.heap state = some x) (hadded : state ∉ ex.addedStates)
    (hQ : ∀ ex' killed, CallRound c state st a value.value.toNat hasInvalid ex killed ex' →
      Q (hasInvalid || decide (value.value.toNat ∉ c.legalFunctions)) ex') :
    wp (callValue c o state value hasInvalid (some st)) Q (fun _ => False) ex := by
  have hupdate (y z : StateId) (u u' : ExecutionState Frames) (hu : ex.heap z = some u)
      (hc : u'.constraints = u.constraints) (w : ExecutionState Frames) (hw : ex.heap y = some w) :
      ∃ x', Function.update ex.heap z (some u') y = some x' ∧ x'.constraints = w.constraints ∧
        (y ≠ z → x' = w) := by
    by_cases hyz : y = z
    · subst hyz
      rw [Function.update_self]
      obtain rfl := Option.some.inj (hu.symm.trans hw)
      exact ⟨u', rfl, hc, fun h => absurd rfl h⟩
    · rw [Function.update_of_ne hyz]
      exact ⟨w, hw, rfl, fun _ => rfl⟩
  unfold callValue
  dsimp only
  rw [wp_ite]
  constructor
  · intro hlegal
    rw [wp_bind]
    refine (wp_modifyState hst).mpr ?_
    rw [wp_pure]
    have hround := hQ { ex with
        heap := Function.update ex.heap st (some { a with
          pc := c.entry value.value.toNat
          memory := (a.prevPC, value.value.toNat) :: a.memory }) } []
      ⟨by simp, by simp [roundKilled, hlegal], fun y hy _ => Function.update_of_ne hy _ _,
        fun y w hw => ?_, fun e he => (List.not_mem_nil he).elim,
        fun _ => ⟨_, Function.update_self _ _ _, rfl, rfl⟩⟩
    · simpa [hlegal] using hround
    · exact (hupdate y st a _ hst (by rfl) w hw).imp fun x' h => ⟨h.1, h.2.1, fun _ => h.2.2⟩
  · intro hillegal
    rw [wp_ite]
    constructor
    · intro hinvalid
      have hround := hQ ex [] ⟨by simp, by simp [roundKilled, hinvalid], fun _ _ _ => rfl,
        fun y w hw => ⟨w, hw, rfl, fun _ _ => rfl⟩, fun e he => (List.not_mem_nil he).elim, fun h => absurd h hillegal⟩
      rw [wp_pure]
      simpa [hinvalid] using hround
    · intro hvalid
      rw [wp_bind]
      refine wp_terminateState hstate (fun h => absurd h hadded) fun _ => ?_
      have hround := hQ { noted o ex state x .exec with
          heap := Function.update ex.heap state (some { x with pc := x.prevPC })
          removedStates := ex.removedStates ++ [state] } [(state, x, .exec)]
        ⟨rfl, by simp [roundKilled, hvalid, hillegal],
          fun y _ hy => Function.update_of_ne hy _ _,
          fun y w hw => ?_, fun e he => ?_,
          fun h => absurd h hillegal⟩
      · rw [wp_pure]
        simpa [hillegal] using hround
      · exact (hupdate y state x _ hstate (by rfl) w hw).imp fun x' h =>
          ⟨h.1, h.2.1, fun hnil => (List.cons_ne_nil _ _ hnil).elim⟩
      · rw [List.mem_singleton.mp he]
        exact ⟨x, hstate, rfl⟩

end Round

section Loop

/-- The state `st` has the pointer value `v`; if the function at `v` is legal and the state was
not terminated, it has entered that function. -/
structure Handled (c : CallContext) (address : Assignment → Nat) (s : ExecutionState Frames)
    (killed : List StateId) (ex' : Executor Frames) (st : StateId) (v : Nat)
    (s' : ExecutionState Frames) : Prop where
  heap : ex'.heap st = some s'
  constraints : ∀ σ, Satisfies σ s'.constraints ↔ Satisfies σ s.constraints ∧ address σ = v
  sat : ∃ σ, Satisfies σ s'.constraints
  entered : v ∈ c.legalFunctions → st ∉ killed → Entered c s v s'

/-- What the loop does from the state `free` on: `targets` pairs the states with their values. -/
structure LoopDone (c : CallContext) (address : Assignment → Nat) (state : StateId)
    (hasInvalid : Bool) (ex : Executor Frames) (free : StateId) (s : ExecutionState Frames)
    (targets : List (StateId × Nat))
    (killed : List (StateId × ExecutionState Frames × TerminateReason)) (ex' : Executor Frames) :
    Prop where
  nextState : ex.nextState ≤ ex'.nextState
  states : ∀ st, st ∈ targets.map (·.1) ↔ st = free ∨ ex.nextState ≤ st ∧ st < ex'.nextState
  nodup : (targets.map (·.1)).Nodup
  values : ∀ p ∈ targets, ∀ q ∈ targets, p.2 = q.2 → p = q
  covers : ∀ σ, Satisfies σ s.constraints → ∃ st, (st, address σ) ∈ targets
  handled : ∀ p ∈ targets, ∃ s', Handled c address s (killed.map (·.1)) ex' p.1 p.2 s'
  others : ∀ st, st ≠ state → st ≠ free → st < ex.nextState → ex'.heap st = ex.heap st
  kept : ∀ x, state ≠ free → ex.heap state = some x → ∃ x', ex'.heap state = some x' ∧
    x'.constraints = x.constraints ∧ (killed = [] → x' = x)
  explored : ex'.explored = ex.explored ++ killed
  removedStates : ex'.removedStates = ex.removedStates ++ killed.map (·.1)
  who : killed.map (·.1) = if hasInvalid = true ∨ ∀ p ∈ targets, p.2 ∈ c.legalFunctions then []
    else [state]
  killedState : ∀ e ∈ killed, ∃ x', ex'.heap state = some x' ∧ e.2.1.constraints = x'.constraints

variable {ex₁ ex₂ : Executor Frames} {b : ExecutionState Frames} {v : Nat} {new : StateId}
variable {killed killed' : List (StateId × ExecutionState Frames × TerminateReason)}
variable {targets : List (StateId × Nat)}

theorem Entered.of_branched {side : Assignment → Prop} {s' : ExecutionState Frames} {f : Nat}
    (h : Entered c a f s') (hs : Branched s a side) : Entered c s f s' := by
  obtain ⟨hmem, hpc⟩ := h
  rw [hs.memory, hs.prevPC] at hmem
  exact ⟨hmem, hpc⟩

theorem CallRound.nextState (h : CallRound c state st a v hasInvalid ex killed ex') :
    ex'.nextState = ex.nextState := by rw [h.executor]

theorem CallRound.wellFormed (h : CallRound c state free a v hasInvalid ex killed ex')
    (hwf : ex.WellFormed) (hfree : free < ex.nextState) (hlive : state < ex.nextState) :
    ex'.WellFormed where
  heap st hst := by
    rw [h.nextState] at hst
    rw [h.others st (Nat.ne_of_gt (Nat.lt_of_lt_of_le hfree hst))
      (Nat.ne_of_gt (Nat.lt_of_lt_of_le hlive hst))]
    exact hwf.heap st hst
  addedStates st hst := by
    rw [h.nextState] at hst
    rw [h.executor]
    exact hwf.addedStates st hst
  leaves st hst := by
    rw [h.nextState] at hst
    rw [h.executor]
    exact hwf.leaves st hst
  seedMap st hst := by
    rw [h.nextState] at hst
    rw [h.executor]
    exact hwf.seedMap st hst
  nodup := by
    rw [h.executor]
    exact hwf.nodup

/-- The state for the rest of the loop is as the fork left it. -/
theorem CallRound.ready (h : CallRound c state free a v hasInvalid ex killed ex')
    (hready : Ready ex new b) (hfree : new ≠ free) (hstate : new ≠ state) : Ready ex' new b where
  heap := (h.others new hfree hstate).trans hready.heap
  node := by
    rw [h.executor]
    exact hready.node
  seeds := by
    rw [h.executor]
    exact hready.seeds
  isBool := hready.isBool
  sat := hready.sat

theorem CallRound.room {k : Nat} (h : CallRound c state free a v hasInvalid ex killed ex')
    (hroom : Room o ex b k) : Room o ex' b k :=
  { hroom with
    maxForks := by
      rw [h.executor]
      exact hroom.maxForks }

/-- The last round: no other value is left. -/
theorem loopDone_last (honly : OnlyIn [free] ex ex₁) (hnext : ex₁.nextState = ex.nextState)
    (hready : Ready ex₁ free a) (ha : Branched s a fun σ => address σ = v)
    (hall : ∀ σ, Satisfies σ s.constraints → address σ = v)
    (hround : CallRound c state free a v hasInvalid ex₁ killed ex₂) :
    LoopDone c address state hasInvalid ex free s [(free, v)] killed ex₂ := by
  have hnext₂ : ex₂.nextState = ex.nextState := hround.nextState.trans hnext
  obtain ⟨a', ha', hcs, -⟩ := hround.kept free a hready.heap
  refine ⟨hnext₂.ge, fun st => ?_, List.nodup_singleton _, ?_, fun σ hσ => ?_, ?_,
    fun y hy hfree _ => ?_, fun x hne hx => ?_, ?_, ?_, ?_, fun e he => ?_⟩
  · rw [hnext₂, List.map_cons, List.map_nil, List.mem_singleton]
    constructor
    · exact .inl
    · rintro (h | ⟨hle, hlt⟩)
      · exact h
      · exact absurd hlt (Nat.not_lt.mpr hle)
  · intro p hp q hq _
    rw [List.mem_singleton.mp hp, List.mem_singleton.mp hq]
  · exact ⟨free, by rw [hall σ hσ]; exact List.mem_singleton.mpr rfl⟩
  · intro p hp
    obtain rfl := List.mem_singleton.mp hp
    refine ⟨a', ha', fun σ => by rw [hcs]; exact ha.constraints σ, by rw [hcs]; exact hready.sat,
      fun hlegal _ => ?_⟩
    obtain ⟨s', hs', hentered⟩ := hround.entered hlegal
    obtain rfl := Option.some.inj (hs'.symm.trans ha')
    exact hentered.of_branched ha
  · rw [hround.others y hfree hy, honly.heap y (by simpa using hfree)]
  · rw [← honly.heap state (by simpa using hne)] at hx
    obtain ⟨x', hx', hcs', hsame⟩ := hround.kept state x hx
    exact ⟨x', hx', hcs', fun h => hsame h hne⟩
  · rw [hround.executor, honly.explored]
  · rw [hround.executor, honly.removedStates]
  · rw [hround.states, roundKilled]
    simp
  · obtain ⟨x, hx, hex⟩ := hround.killedState e he
    obtain ⟨x', hx', hcs', -⟩ := hround.kept state x hx
    exact ⟨x', hx', hex.trans hcs'.symm⟩

/-- A round whose state keeps one value, and the rounds for the rest. -/
theorem LoopDone.next (hlt : free < ex.nextState) (honly : OnlyIn [free, ex.nextState] ex ex₁)
    (hnext : ex₁.nextState = ex.nextState + 1) (hready : Ready ex₁ free a)
    (hlive : state < ex.nextState) (ha : Branched s a fun σ => address σ = v)
    (hb : Branched s b fun σ => ¬ address σ = v)
    (hround : CallRound c state free a v hasInvalid ex₁ killed ex₂)
    (hrest : LoopDone c address state (hasInvalid || decide (v ∉ c.legalFunctions)) ex₂
      ex.nextState b targets killed' ex') :
    LoopDone c address state hasInvalid ex free s ((free, v) :: targets) (killed ++ killed') ex' := by
  have hnext₂ : ex₂.nextState = ex.nextState + 1 := hround.nextState.trans hnext
  have hnew : free ≠ ex.nextState := Nat.ne_of_lt hlt
  have hstate : state ≠ ex.nextState := Nat.ne_of_lt hlive
  -- the value of another state is another one
  have hother {p : StateId × Nat} (hp : p ∈ targets) : p.2 ≠ v := by
    obtain ⟨s', hs'⟩ := hrest.handled p hp
    obtain ⟨σ, hσ⟩ := hs'.sat
    obtain ⟨hσb, hvalue⟩ := (hs'.constraints σ).mp hσ
    intro heq
    exact ((hb.constraints σ).mp hσb).2 (hvalue.trans heq)
  have hfree : free ∉ targets.map (·.1) := by
    rw [hrest.states, hnext₂]
    rintro (h | ⟨h, -⟩)
    · exact hnew h
    · exact absurd hlt (Nat.not_lt.mpr (Nat.le_of_succ_le h))
  obtain ⟨a', ha', hcs, -⟩ := hround.kept free a hready.heap
  -- after the rest, the state of this round is as the round left it, unless it was terminated
  have hlast : ∃ x, ex'.heap free = some x ∧ x.constraints = a.constraints ∧
      (free ∉ killed'.map (·.1) → x = a') := by
    by_cases hfs : free = state
    · subst hfs
      obtain ⟨x, hx, hxcs, hxsame⟩ := hrest.kept a' hnew ha'
      refine ⟨x, hx, hxcs.trans hcs, fun hnot => hxsame ?_⟩
      have hwho := hrest.who
      split at hwho
      · exact List.map_eq_nil_iff.mp hwho
      · rw [hwho] at hnot
        exact absurd (List.mem_singleton.mpr rfl) hnot
    · refine ⟨a', ?_, hcs, fun _ => rfl⟩
      rw [hrest.others free hfs hnew (by rw [hnext₂]; exact Nat.lt_succ_of_lt hlt)]
      exact ha'
  refine ⟨?_, fun st => ?_, ?_, ?_, fun σ hσ => ?_, ?_, fun y hy hyfree hylt => ?_,
    fun x hne hx => ?_, ?_, ?_, ?_, ?_⟩
  · have hle := hrest.nextState
    rw [hnext₂] at hle
    exact Nat.le_of_succ_le hle
  · have hle := hrest.nextState
    rw [List.map_cons, List.mem_cons, hrest.states, hnext₂]
    rw [hnext₂] at hle
    constructor
    · rintro (h | h | ⟨h, h'⟩)
      · exact .inl h
      · exact .inr ⟨h.ge, h ▸ hle⟩
      · exact .inr ⟨Nat.le_of_succ_le h, h'⟩
    · rintro (h | ⟨h, h'⟩)
      · exact .inl h
      · cases Nat.eq_or_lt_of_le h with
        | inl heq => exact .inr (.inl heq.symm)
        | inr hlt => exact .inr (.inr ⟨hlt, h'⟩)
  · rw [List.map_cons, List.nodup_cons]
    exact ⟨hfree, hrest.nodup⟩
  · intro p hp q hq hpq
    cases List.mem_cons.mp hp with
    | inl hp =>
      subst hp
      cases List.mem_cons.mp hq with
      | inl hq => exact hq.symm
      | inr hq => exact absurd hpq.symm (hother hq)
    | inr hp =>
      cases List.mem_cons.mp hq with
      | inl hq =>
        subst hq
        exact absurd hpq (hother hp)
      | inr hq => exact hrest.values p hp q hq hpq
  · by_cases hvalue : address σ = v
    · exact ⟨free, hvalue ▸ List.mem_cons_self⟩
    · obtain ⟨st, hst⟩ := hrest.covers σ ((hb.constraints σ).mpr ⟨hσ, hvalue⟩)
      exact ⟨st, List.mem_cons_of_mem _ hst⟩
  · intro p hp
    rw [List.map_append]
    cases List.mem_cons.mp hp with
    | inl hp =>
      subst hp
      obtain ⟨x, hx, hxcs, hxsame⟩ := hlast
      refine ⟨x, hx, fun σ => by rw [hxcs]; exact ha.constraints σ, by rw [hxcs]; exact hready.sat,
        fun hlegal hnot => ?_⟩
      rw [List.mem_append, not_or] at hnot
      obtain rfl := hxsame hnot.2
      obtain ⟨s', hs', hentered⟩ := hround.entered hlegal
      obtain rfl := Option.some.inj (hs'.symm.trans ha')
      exact hentered.of_branched ha
    | inr hp =>
      obtain ⟨s', hs'⟩ := hrest.handled p hp
      refine ⟨s', hs'.heap, fun σ => ?_, hs'.sat, fun hlegal hnot => ?_⟩
      · rw [hs'.constraints, hb.constraints]
        constructor
        · exact fun h => ⟨h.1.1, h.2⟩
        · exact fun h => ⟨⟨h.1, fun heq => hother hp (h.2.symm.trans heq)⟩, h.2⟩
      · rw [List.mem_append, not_or] at hnot
        exact (hs'.entered hlegal hnot.2).of_branched hb
  · have hynew : y ≠ ex.nextState := Nat.ne_of_lt hylt
    rw [hrest.others y hy hynew (by rw [hnext₂]; exact Nat.lt_succ_of_lt hylt),
      hround.others y hyfree hy, honly.heap y (by simp [hyfree, hynew])]
  · rw [← honly.heap state (by simp [hne, hstate])] at hx
    obtain ⟨x₁, hx₁, hcs₁, hsame₁⟩ := hround.kept state x hx
    obtain ⟨x₂, hx₂, hcs₂, hsame₂⟩ := hrest.kept x₁ hstate hx₁
    refine ⟨x₂, hx₂, hcs₂.trans hcs₁, fun hnil => ?_⟩
    obtain ⟨h₁, h₂⟩ := List.append_eq_nil_iff.mp hnil
    exact (hsame₂ h₂).trans (hsame₁ h₁ hne)
  · rw [hrest.explored, hround.executor, honly.explored, List.append_assoc]
  · rw [hrest.removedStates, hround.executor, honly.removedStates, List.append_assoc,
      List.map_append]
  · rw [List.map_append, hround.states, hrest.who, roundKilled]
    by_cases hinvalid : hasInvalid = true
    · simp [hinvalid]
    · by_cases hlegal : v ∈ c.legalFunctions
      · rw [if_pos (.inr hlegal), List.nil_append]
        refine if_congr ?_ rfl rfl
        rw [List.forall_mem_cons]
        simp [hlegal]
      · simp [hinvalid, hlegal]
  · intro e he
    cases List.mem_append.mp he with
    | inl he =>
      obtain ⟨x, hx, hex⟩ := hround.killedState e he
      obtain ⟨x₁, hx₁, hcs₁, -⟩ := hround.kept state x hx
      obtain ⟨x₂, hx₂, hcs₂, -⟩ := hrest.kept x₁ hstate hx₁
      exact ⟨x₂, hx₂, hex.trans (hcs₁.symm.trans hcs₂.symm)⟩
    | inr he => exact hrest.killedState e he

def KeepsValue (optimizeExpr : Expr → Expr) : Prop :=
  ∀ e, e.WellSorted → (optimizeExpr e).WellSorted ∧ (optimizeExpr e).width = e.width ∧
    ∀ σ, (optimizeExpr e).eval σ e.width = e.eval σ e.width

/-- The loop ends when there are as many rounds as values. -/
theorem wp_callTargets (hsolver : o.solver.Correct) (hopt : KeepsValue c.optimizeExpr) :
    ∀ (n : Nat) (ex : Executor Frames) (free : StateId) (s x : ExecutionState Frames) (v : Expr)
      (hasInvalid : Bool) (values : Finset Nat), ex.WellFormed → Ready ex free s →
      ex.heap state = some x → state ∉ ex.addedStates → Room o ex s values.card → v.WellSorted →
      (∀ σ, (v.eval σ v.width).toNat = address σ) →
      (∀ σ, Satisfies σ s.constraints → address σ ∈ values) → values.card ≤ n →
      wp (callTargets c o state n free v hasInvalid) (fun done ex' => done = true ∧
        ∃ value targets killed, o.solver.getValue s.constraints (c.optimizeExpr v) = some value ∧
          LoopDone c address state hasInvalid ex free s ((free, value.value.toNat) :: targets)
            killed ex') (fun _ => False) ex := by
  intro n
  induction n with
  | zero =>
    intro ex free s x v hasInvalid values _ hready _ _ _ _ _ hvalues hcard
    obtain ⟨σ, hσ⟩ := hready.sat
    rw [Finset.card_eq_zero.mp (Nat.le_zero.mp hcard)] at hvalues
    exact absurd (hvalues σ hσ) (Finset.notMem_empty _)
  | succ n ih =>
    intro ex free s x v hasInvalid values hwf hready hstate hadded hroom hv haddress hvalues hcard
    obtain ⟨hv', hw', heval⟩ := hopt v hv
    have haddress' (σ : Assignment) :
        ((c.optimizeExpr v).eval σ (c.optimizeExpr v).width).toNat = address σ := by
      rw [hw', heval, haddress]
    obtain ⟨value, hvalue, hwidth, σ₀, hσ₀, hfeasible⟩ :=
      hsolver.getValue hready.isBool hv' hready.sat
    obtain ⟨hbool, hiff⟩ := eqValue_spec hv' hwidth
    have hfirst : address σ₀ = value.value.toNat := by
      rw [← haddress', ← hwidth, hfeasible]
    have hmem := hvalues σ₀ hσ₀
    obtain ⟨k, hk⟩ : ∃ k, values.card = k + 1 :=
      Nat.exists_eq_succ_of_ne_zero (Finset.card_ne_zero_of_mem hmem)
    have hlt := lt_nextState hwf hready.heap
    have hlive := lt_nextState hwf hstate
    unfold callTargets
    rw [wp_bind, wp_readState hready.heap, wp_bind, hvalue, wp_orThrow_some, wp_bind]
    refine wp_fork_internal hwf hready hsolver hbool (hk ▸ hroom) ?_ ?_
    · intro side ex₁ a hall honly hnext hready₁ _ ha
      have hside : side = true := (hall σ₀ hσ₀).mp ((hiff σ₀).mpr (by rw [haddress', hfirst]))
      subst hside
      have hstate₁ : ∃ x₁, ex₁.heap state = some x₁ := by
        by_cases hfs : state = free
        · exact ⟨a, hfs ▸ hready₁.heap⟩
        · exact ⟨x, (honly.heap state (by simpa using hfs)).trans hstate⟩
      obtain ⟨x₁, hx₁⟩ := hstate₁
      rw [wp_bind]
      refine wp_callValue hready₁.heap hx₁ (honly.addedStates state hlive hadded)
        fun ex₂ killed hround => ?_
      refine ⟨rfl, value, [], killed, rfl,
        loopDone_last honly hnext hready₁ (ha.congr fun σ => ?_) (fun σ hσ => ?_) hround⟩
      · rw [hiff, haddress']
        exact iff_true_right rfl
      · have hholds := (hall σ hσ).mpr rfl
        rwa [hiff, haddress'] at hholds
    · intro ex₁ a b htrue hfalse honly hnext hready₁ hready₂ _ hroom₂ ha hb
      have hnew : ex.nextState ≠ free := Nat.ne_of_gt hlt
      have hnewState : ex.nextState ≠ state := Nat.ne_of_gt hlive
      have hstate₁ : ∃ x₁, ex₁.heap state = some x₁ := by
        by_cases hfs : state = free
        · exact ⟨a, hfs ▸ hready₁.heap⟩
        · refine ⟨x, (honly.heap state ?_).trans hstate⟩
          rw [List.mem_cons, List.mem_singleton, not_or]
          exact ⟨hfs, hnewState.symm⟩
      obtain ⟨x₁, hx₁⟩ := hstate₁
      have hlt₁ : free < ex₁.nextState := hnext ▸ Nat.lt_succ_of_lt hlt
      have hlive₁ : state < ex₁.nextState := hnext ▸ Nat.lt_succ_of_lt hlive
      rw [wp_bind]
      refine wp_callValue hready₁.heap hx₁ (honly.addedStates state hlive hadded)
        fun ex₂ killed hround => ?_
      obtain ⟨x₂, hx₂, -⟩ := hround.kept state x₁ hx₁
      have hadded₂ : state ∉ ex₂.addedStates := by
        rw [hround.executor]
        exact honly.addedStates state hlive hadded
      have hb' : Branched s b fun σ => ¬ address σ = value.value.toNat :=
        hb.congr fun σ => by rw [hiff, haddress']
      have hrest := ih ex₂ ex.nextState b x₂ (c.optimizeExpr v)
        (hasInvalid || decide (value.value.toNat ∉ c.legalFunctions)) (values.erase value.value.toNat)
        (hround.wellFormed honly.wellFormed hlt₁ hlive₁) (hround.ready hready₂ hnew hnewState) hx₂
        hadded₂ ?_ hv' haddress' (fun σ hσ => ?_) ?_
      · refine wp_post hrest fun done ex' h => ?_
        obtain ⟨rfl, value', targets, killed', -, hdone⟩ := h
        refine ⟨rfl, value, _, _, rfl, hdone.next hlt honly hnext hready₁ hlive
          (ha.congr fun σ => ?_) hb' hround⟩
        rw [hiff, haddress']
      · rw [Finset.card_erase_of_mem (hfirst ▸ hmem), hk]
        exact hround.room hroom₂
      · obtain ⟨hσs, hne⟩ := (hb'.constraints σ).mp hσ
        exact Finset.mem_erase.mpr ⟨hne, hvalues σ hσs⟩
      · rw [Finset.card_erase_of_mem (hfirst ▸ hmem)]
        omega

end Loop

section Right

/-- The entries of `explored` that the call has added. -/
def newExplored (ex ex' : Executor Frames) :
    List (StateId × ExecutionState Frames × TerminateReason) :=
  ex'.explored.drop ex.explored.length

def InCall (ex : Executor Frames) (state : StateId) (ex' : Executor Frames) (st : StateId) : Prop :=
  st = state ∨ ex.nextState ≤ st ∧ st < ex'.nextState

structure CallsRight (c : CallContext) (address : Assignment → Nat) (ex : Executor Frames)
    (state : StateId) (s : ExecutionState Frames) (ex' : Executor Frames) : Prop where
  legal : ∀ σ, Satisfies σ s.constraints → address σ ∈ c.legalFunctions →
    ∃! st, InCall ex state ex' st ∧ st ∉ (newExplored ex ex').map (·.1) ∧
      ∃ s', ex'.heap st = some s' ∧ Satisfies σ s'.constraints ∧ Entered c s (address σ) s'
  illegal : ∀ σ, Satisfies σ s.constraints → address σ ∉ c.legalFunctions →
    ∃ e ∈ newExplored ex ex', Satisfies σ e.2.1.constraints
  terminated : ∀ e ∈ newExplored ex ex', InCall ex state ex' e.1 ∧
    ∀ σ, Satisfies σ e.2.1.constraints → address σ ∉ c.legalFunctions
  once : ((newExplored ex ex').map (·.1)).Nodup
  live : ∀ st s', InCall ex state ex' st → st ∉ (newExplored ex ex').map (·.1) →
    ex'.heap st = some s' → ∃ f ∈ c.legalFunctions, Entered c s f s' ∧
      ∀ σ, Satisfies σ s'.constraints → address σ = f

variable {targets : List (StateId × Nat)} {v : Nat}
variable {killed : List (StateId × ExecutionState Frames × TerminateReason)}

theorem LoopDone.newExplored (h : LoopDone c address state false ex state s targets killed ex') :
    newExplored ex ex' = killed := by
  rw [Executor.newExplored, h.explored, List.drop_left]

theorem LoopDone.inCall (h : LoopDone c address state false ex state s targets killed ex')
    {st : StateId} : InCall ex state ex' st ↔ ∃ f, (st, f) ∈ targets := by
  rw [InCall, ← h.states]
  simp

/-- A state has one value. -/
theorem LoopDone.functional (h : LoopDone c address state false ex state s targets killed ex')
    {st : StateId} {f g : Nat} (hf : (st, f) ∈ targets) (hg : (st, g) ∈ targets) : f = g := by
  have heq := List.inj_on_of_nodup_map h.nodup hf hg rfl
  exact congrArg (·.2) heq

/-- When only the first value may be no legal function, the state that is terminated is the one
that has it. -/
theorem LoopDone.callsRight
    (h : LoopDone c address state false ex state s ((state, v) :: targets) killed ex')
    (hlegal : ∀ σ, Satisfies σ s.constraints → address σ ≠ v → address σ ∈ c.legalFunctions) :
    CallsRight c address ex state s ex' := by
  -- a value is legal or the first one
  have hvalue {p : StateId × Nat} (hp : p ∈ (state, v) :: targets) (hill : p.2 ∉ c.legalFunctions) :
      p = (state, v) := by
    obtain ⟨s', hs'⟩ := h.handled p hp
    obtain ⟨σ, hσ⟩ := hs'.sat
    obtain ⟨hσs, haddr⟩ := (hs'.constraints σ).mp hσ
    refine h.values p hp (state, v) List.mem_cons_self ?_
    by_contra hne
    rw [← haddr] at hne hill
    exact hill (hlegal σ hσs hne)
  have hkilled (st : StateId) : st ∈ killed.map (·.1) ↔ st = state ∧ v ∉ c.legalFunctions := by
    rw [h.who]
    by_cases hv : v ∈ c.legalFunctions
    · have hall : ∀ p ∈ (state, v) :: targets, p.2 ∈ c.legalFunctions := by
        intro p hp
        by_contra hill
        rw [hvalue hp hill] at hill
        exact hill hv
      rw [if_pos (.inr hall)]
      simp [hv]
    · rw [if_neg (by simp [hv])]
      simp [hv]
  have hnot {st : StateId} {f : Nat} (hp : (st, f) ∈ (state, v) :: targets)
      (hf : f ∈ c.legalFunctions) : st ∉ killed.map (·.1) := by
    rw [hkilled]
    rintro ⟨rfl, hv⟩
    rw [h.functional hp List.mem_cons_self] at hf
    exact hv hf
  refine ⟨fun σ hσ hf => ?_, fun σ hσ hf => ?_, fun e he => ?_, ?_, fun st s' hst hlive hs' => ?_⟩
  · obtain ⟨st, hp⟩ := h.covers σ hσ
    obtain ⟨s', hs'⟩ := h.handled _ hp
    refine ⟨st, ⟨h.inCall.mpr ⟨_, hp⟩, ?_, s', hs'.heap, (hs'.constraints σ).mpr ⟨hσ, rfl⟩,
      hs'.entered hf (hnot hp hf)⟩, ?_⟩
    · rw [h.newExplored]
      exact hnot hp hf
    · rintro st' ⟨hin, -, s'', hheap, hσ', -⟩
      obtain ⟨g, hq⟩ := h.inCall.mp hin
      obtain ⟨t, ht⟩ := h.handled _ hq
      obtain rfl := Option.some.inj (hheap.symm.trans ht.heap)
      have heq := h.values _ hp _ hq ((ht.constraints σ).mp hσ').2
      exact (congrArg (·.1) heq).symm
  · obtain ⟨st, hp⟩ := h.covers σ hσ
    obtain ⟨rfl, hv⟩ := Prod.mk.inj (hvalue hp hf)
    have hmem : st ∈ killed.map (·.1) := (hkilled st).mpr ⟨rfl, hv ▸ hf⟩
    obtain ⟨e, he, -⟩ := List.mem_map.mp hmem
    obtain ⟨x, hx, hcs⟩ := h.killedState e he
    obtain ⟨s', hs'⟩ := h.handled _ hp
    obtain rfl := Option.some.inj (hx.symm.trans hs'.heap)
    refine ⟨e, by rwa [h.newExplored], ?_⟩
    rw [hcs, hs'.constraints]
    exact ⟨hσ, rfl⟩
  · rw [h.newExplored] at he
    obtain ⟨hst, hv⟩ := (hkilled e.1).mp (List.mem_map_of_mem he)
    refine ⟨.inl hst, fun σ hσ => ?_⟩
    obtain ⟨x, hx, hcs⟩ := h.killedState e he
    obtain ⟨s', hs'⟩ := h.handled _ List.mem_cons_self
    obtain rfl := Option.some.inj (hx.symm.trans hs'.heap)
    rw [hcs] at hσ
    rw [((hs'.constraints σ).mp hσ).2]
    exact hv
  · rw [h.newExplored, h.who]
    split
    · exact List.nodup_nil
    · exact List.nodup_singleton _
  · rw [h.newExplored] at hlive
    obtain ⟨f, hp⟩ := h.inCall.mp hst
    obtain ⟨t, ht⟩ := h.handled _ hp
    obtain rfl := Option.some.inj (hs'.symm.trans ht.heap)
    have hf : f ∈ c.legalFunctions := by
      by_contra hill
      obtain ⟨rfl, rfl⟩ := Prod.mk.inj (hvalue hp hill)
      exact hlive ((hkilled _).mpr ⟨rfl, hill⟩)
    exact ⟨f, hf, ht.entered hf hlive, fun σ hσ => ((ht.constraints σ).mp hσ).2⟩

/-- A state whose value is neither the first one nor a legal function goes on without a call. -/
theorem LoopDone.legal
    (h : LoopDone c address state false ex state s ((state, v) :: targets) killed ex')
    (hright : CallsRight c address ex state s ex') {σ : Assignment}
    (hσ : Satisfies σ s.constraints) (hne : address σ ≠ v) : address σ ∈ c.legalFunctions := by
  obtain ⟨st, hp⟩ := h.covers σ hσ
  obtain ⟨s', hs'⟩ := h.handled _ hp
  have hlive : st ∉ killed.map (·.1) := by
    rw [h.who]
    intro hmem
    have hst : st = state := by
      split at hmem
      · cases hmem
      · exact List.mem_singleton.mp hmem
    subst hst
    exact hne (h.functional hp List.mem_cons_self)
  rw [← h.newExplored] at hlive
  obtain ⟨f, hf, -, hall⟩ := hright.live st s' (h.inCall.mpr ⟨_, hp⟩) hlive hs'.heap
  obtain ⟨τ, hτ⟩ := hs'.sat
  have hvalue : address τ = address σ := ((hs'.constraints τ).mp hτ).2
  rwa [← hvalue, hall τ hτ]

section Run

variable (values : Finset Nat) (n : Nat) (v : Expr)

/-- With room for the forks the loop ends. -/
theorem exists_loopDone (hwf : ex.WellFormed) (hready : Ready ex state s)
    (hadded : state ∉ ex.addedStates) (hsolver : o.solver.Correct)
    (hopt : KeepsValue c.optimizeExpr) (hv : v.WellSorted)
    (hvalues : ∀ σ, Satisfies σ s.constraints → (v.eval σ v.width).toNat ∈ values)
    (hroom : Room o ex s values.card) (hn : values.card ≤ n) :
    ∃ ex' first targets killed, callIndirect c o n state v ex = .ok (true, ex') ∧
      o.solver.getValue s.constraints (c.optimizeExpr v) = some first ∧
      LoopDone c (fun σ => (v.eval σ v.width).toNat) state false ex state s
        ((state, first.value.toNat) :: targets) killed ex' := by
  have hloop := wp_callTargets hsolver hopt n ex state s s v false values hwf hready hready.heap
    hadded hroom hv (fun _ => rfl) hvalues hn
  obtain ⟨done, ex', hcall, rfl, first, targets, killed, hfirst, hdone⟩ := exists_ok_of_wp hloop
  exact ⟨ex', first, targets, killed, hcall, hfirst, hdone⟩

end Run

end Right

section Example

def callState : ExecutionState Frames := { emptyState with memory := [] }

/-- `x[0] == 1 ? 8192 : 12288` -/
def pointer : Expr := .select (byteIs 1 0) (.constant ⟨64, 8192⟩) (.constant ⟨64, 12288⟩)

def callContext (legalFunctions : Finset Nat) : CallContext := ⟨legalFunctions, fun f => f, id⟩

theorem wellSorted_pointer : pointer.WellSorted := by
  have hcond : (byteIs 1 0).WellSorted ∧ (byteIs 1 0).width = 1 := isBool_byteIs 1 0
  simpa [pointer, Expr.WellSorted, Expr.width] using hcond

theorem eval_pointer (σ : Assignment) : (pointer.eval σ pointer.width).toNat =
    if (byteIs 1 0).Holds σ then 8192 else 12288 := by
  show (if (byteIs 1 0).Holds σ then (8192#64) else 12288#64).toNat = _
  split <;> rfl

theorem eval_pointer_mem (σ : Assignment) :
    (pointer.eval σ pointer.width).toNat ∈ ({8192, 12288} : Finset Nat) := by
  rw [eval_pointer]
  split <;> decide

theorem ready_callState : Ready (initial callState none none) 0 callState where
  heap := rfl
  node := List.mem_singleton.mpr rfl
  seeds := by simp [initial]
  isBool := by simp [callState, emptyState]
  sat := ⟨fun _ _ => 0, satisfies_nil _⟩

theorem room_callState (k : Nat) : Room plainOptions (initial callState none none) callState k where
  onlyReplaySeeds := rfl
  replayKTest := rfl
  maxStaticPct := rfl
  memory := rfl
  forkDisabled := rfl
  inhibitForking := rfl
  maxForks := by simp [plainOptions]
  depth := .inl rfl

theorem keepsValue_id : KeepsValue id := fun _ h => ⟨h, rfl, fun _ => rfl⟩

end Example

end Klee.Executor
