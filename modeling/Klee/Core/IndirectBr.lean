import Klee.Core.SwitchSpec

/-! `executeInstruction` at an `indirectbr`. -/
namespace Klee.Executor

open Hoare

section Model

variable (c : BlockContext) (o : ExecutorOptions) (cs : List Expr) (address : Expr)

/-- `EqExpr::create(address, Expr::createPointer(d))` -/
def labelIs (d : BasicBlock) : Expr := EqExpr.create address (.constant ⟨64, d⟩)

structure IndirectTargets where
  destinations : List BasicBlock
  targets : List BasicBlock
  expressions : List Expr
  errorCase : Expr

def IndirectTargets.initial : IndirectTargets := ⟨[], [], [], .constant (.alloc 1 1)⟩

def addDestination (t : IndirectTargets) (d : BasicBlock) : Option IndirectTargets :=
  -- filter duplicates
  if d ∈ t.destinations then some t
  else
    let e := labelIs address d
    let t := { t with
      destinations := t.destinations ++ [d]
      errorCase := AndExpr.create t.errorCase e.createIsZero }
    (o.solver.mayBeTrue cs e).map fun result =>
      if result then { t with targets := t.targets ++ [d], expressions := t.expressions ++ [e] }
      else t

/-- The error state is the last one; the pointer to it is dereferenced without a check. -/
def terminateBack (branches : List (Option StateId)) :
    ExecutorM IncomingBBIndex (List (Option StateId)) := do
  match branches.getLast? with
  | some (some es) =>
    terminateStateOnExecError o es
    pure branches.dropLast
  | _ => throw .noState

def branchIndirect (destinations : List BasicBlock) (state : StateId) :
    ExecutorM IncomingBBIndex Unit := do
  let t ← orThrow .solverFailure (destinations.foldlM (addDestination o cs address) .initial)
  let result ← orThrow .solverFailure (o.solver.mayBeTrue cs t.errorCase)
  let branches ← branch o state (if result then t.expressions ++ [t.errorCase] else t.expressions)
  let branches ← if result then terminateBack o branches else pure branches
  transferAll c t.targets branches

/-- `destinations` is the label list of the instruction. A concrete address is not looked up
in it. -/
def executeIndirectBr (destinations : List BasicBlock) (state : StateId) :
    ExecutorM IncomingBBIndex Unit := do
  let s ← readState state
  match toUnique c o s.constraints address with
  | .constant ce => transferToBasicBlock c (ce.value.setWidth 64) state
  | address => branchIndirect c o s.constraints address destinations state

end Model

section Labels

variable {c : BlockContext} {o : ExecutorOptions} {cs : List Expr} {address : Expr}
variable {done ds : List BasicBlock} {d : BasicBlock} {σ : Assignment} {t : IndirectTargets}

def addressUnder (address : Expr) (σ : Assignment) : BasicBlock := address.eval σ 64

def unlisted (address : Expr) (ds : List BasicBlock) : Expr :=
  ds.eraseDups.foldl (fun e d => AndExpr.create e (labelIs address d).createIsZero)
    (.constant (.alloc 1 1))

open Classical in
noncomputable def feasibleLabels (cs : List Expr) (address : Expr) (ds : List BasicBlock) :
    List BasicBlock :=
  ds.eraseDups.filter fun d => ∃ σ, Satisfies σ cs ∧ addressUnder address σ = d

/-- What the loop has gathered from the labels `done`. -/
structure Gathered (cs : List Expr) (address : Expr) (done : List BasicBlock)
    (t : IndirectTargets) : Prop where
  destinations : t.destinations = done.eraseDups
  targets : t.targets = feasibleLabels cs address done
  expressions : t.expressions = (feasibleLabels cs address done).map (labelIs address)
  errorCase : t.errorCase = unlisted address done

theorem isBool_labelIs (ha : address.WellSorted) (hw : address.width = 64) (d : BasicBlock) :
    (labelIs address d).IsBool := isBool_eqConstant ha hw.symm

theorem holds_labelIs (ha : address.WellSorted) (hw : address.width = 64) :
    (labelIs address d).Holds σ ↔ addressUnder address σ = d := by
  rw [labelIs, holds_eqConstant ha hw.symm, valueUnder, hw]
  simp [addressUnder]

theorem eraseDups_concat : (done ++ [d]).eraseDups =
    if d ∈ done then done.eraseDups else done.eraseDups ++ [d] := by
  rw [List.eraseDups_append]
  by_cases h : d ∈ done
  · simp [h, List.removeAll]
  · simp [h, List.removeAll, List.eraseDups_cons]

theorem feasibleLabels_concat_of_mem (h : d ∈ done) :
    feasibleLabels cs address (done ++ [d]) = feasibleLabels cs address done := by
  rw [feasibleLabels, eraseDups_concat, if_pos h, feasibleLabels]

theorem unlisted_concat_of_mem (h : d ∈ done) :
    unlisted address (done ++ [d]) = unlisted address done := by
  rw [unlisted, eraseDups_concat, if_pos h, unlisted]

theorem unlisted_concat (h : d ∉ done) : unlisted address (done ++ [d]) =
    AndExpr.create (unlisted address done) (labelIs address d).createIsZero := by
  rw [unlisted, eraseDups_concat, if_neg h, List.foldl_concat, unlisted]

theorem mem_feasibleLabels : d ∈ feasibleLabels cs address ds ↔
    d ∈ ds ∧ ∃ σ, Satisfies σ cs ∧ addressUnder address σ = d := by
  simp [feasibleLabels]

/-- One label, feasible or not. -/
theorem Gathered.addDestination (hsup : Supports c o cs) (ha : address.WellSorted)
    (hw : address.width = 64) (h : Gathered cs address done t) :
    ∃ t', addDestination o cs address t d = some t' ∧ Gathered cs address (done ++ [d]) t' := by
  have hmem : d ∈ t.destinations ↔ d ∈ done := by rw [h.destinations, List.mem_eraseDups]
  unfold Executor.addDestination
  by_cases hd : d ∈ done
  · rw [if_pos (hmem.mpr hd)]
    refine ⟨t, rfl, ?_, ?_, ?_, ?_⟩
    · rw [h.destinations, eraseDups_concat, if_pos hd]
    · rw [h.targets, feasibleLabels_concat_of_mem hd]
    · rw [h.expressions, feasibleLabels_concat_of_mem hd]
    · rw [h.errorCase, unlisted_concat_of_mem hd]
  · rw [if_neg (hmem.not.mpr hd)]
    obtain ⟨b, hb, hiff⟩ :=
      hsup.solver.mayBeTrue hsup.constraints (isBool_labelIs ha hw d) hsup.sat
    simp only [holds_labelIs ha hw] at hiff
    have hdestinations : t.destinations ++ [d] = (done ++ [d]).eraseDups := by
      rw [h.destinations, eraseDups_concat, if_neg hd]
    have herror : AndExpr.create t.errorCase (labelIs address d).createIsZero =
        unlisted address (done ++ [d]) := by
      rw [h.errorCase, unlisted_concat hd]
    have hlabels : feasibleLabels cs address (done ++ [d]) =
        feasibleLabels cs address done ++ if b then [d] else [] := by
      rw [feasibleLabels, eraseDups_concat, if_neg hd, List.filter_append, ← feasibleLabels]
      simp [List.filter_singleton, ← hiff]
    refine ⟨_, congrArg (Option.map _) hb, ?_⟩
    cases b with
    | true =>
      refine ⟨hdestinations, ?_, ?_, herror⟩
      · rw [hlabels, ← h.targets]
        rfl
      · rw [hlabels, List.map_append, ← h.expressions]
        rfl
    | false =>
      refine ⟨hdestinations, ?_, ?_, herror⟩
      · rw [hlabels, if_neg Bool.false_ne_true, List.append_nil]
        exact h.targets
      · rw [hlabels, if_neg Bool.false_ne_true, List.append_nil]
        exact h.expressions

theorem gathered_loop (hsup : Supports c o cs) (ha : address.WellSorted) (hw : address.width = 64)
    (rest : List BasicBlock) (h : Gathered cs address done t) :
    ∃ t', rest.foldlM (Executor.addDestination o cs address) t = some t' ∧
      Gathered cs address (done ++ rest) t' := by
  induction rest generalizing done t with
  | nil => exact ⟨t, rfl, by rwa [List.append_nil]⟩
  | cons d rest ih =>
    obtain ⟨t₁, ht₁, h₁⟩ := h.addDestination hsup ha hw
    obtain ⟨t', ht', h'⟩ := ih h₁
    refine ⟨t', ?_, by rwa [List.append_assoc] at h'⟩
    rw [List.foldlM_cons, ht₁]
    exact ht'

theorem gathered_initial : Gathered cs address [] .initial := ⟨rfl, rfl, rfl, rfl⟩

/-- The error case is that of an address that is no label. -/
theorem unlisted_spec (ha : address.WellSorted) (hw : address.width = 64) (ds : List BasicBlock) :
    (unlisted address ds).IsBool ∧
      ∀ σ, (unlisted address ds).Holds σ ↔ addressUnder address σ ∉ ds := by
  induction ds using List.reverseRecOn with
  | nil => exact ⟨isBool_alloc 1, fun σ => by simp [unlisted, holds_alloc_one]⟩
  | append_singleton done d ih =>
    obtain ⟨hbool, hholds⟩ := ih
    by_cases hd : d ∈ done
    · rw [unlisted_concat_of_mem hd]
      refine ⟨hbool, fun σ => (hholds σ).trans (not_congr ?_)⟩
      rw [List.mem_append, List.mem_singleton]
      refine (or_iff_left_of_imp ?_).symm
      rintro rfl
      exact hd
    · have hzero := TimingSolver.isBool_createIsZero (isBool_labelIs ha hw d)
      rw [unlisted_concat hd]
      refine ⟨isBool_andCreate hbool hzero, fun σ => ?_⟩
      rw [holds_andCreate hbool hzero, hholds,
        TimingSolver.holds_createIsZero (isBool_labelIs ha hw d), holds_labelIs ha hw,
        List.mem_append, List.mem_singleton, not_or]

end Labels

section Unique

variable {c : BlockContext} {o : ExecutorOptions} {cs : List Expr} {e : Expr} {v : ConstantExpr}

theorem valueUnder_eq {σ : Assignment} (hw : v.width = e.width)
    (heval : e.eval σ v.width = v.value) : valueUnder e σ = v := by
  obtain ⟨w, x⟩ := v
  obtain rfl : w = e.width := hw
  rw [valueUnder, heval]

/-- `toUnique` finds the only value of an expression. -/
theorem toUnique_unique (hsup : Supports c o cs) (he : e.WellSorted)
    (hv : ∀ σ, Satisfies σ cs → valueUnder e σ = v) : toUnique c o cs e = .constant v := by
  obtain ⟨τ, hτ⟩ := hsup.sat
  unfold toUnique
  split
  · rename_i ce
    rw [← hv τ hτ]
    simp [valueUnder, Expr.eval, Expr.width]
  · obtain ⟨hwell, hwidth, heval⟩ := hsup.optimizeExpr true e he
    have hvalue (σ : Assignment) : valueUnder (c.optimizeExpr e true) σ = valueUnder e σ := by
      rw [valueUnder, hwidth, heval]
      rfl
    obtain ⟨value, hget, hw, σ, hσ, hσv⟩ :=
      hsup.solver.getValue hsup.constraints hwell hsup.sat
    have hisValue := (isValue_eq hwell hw).optimize (hsup.optimizeExpr false)
    obtain rfl : v = value := by
      rw [← hv σ hσ, ← hvalue]
      exact valueUnder_eq hw hσv
    obtain ⟨b, hb, hiff⟩ := hsup.solver.mustBeTrue hsup.constraints hisValue.isBool hsup.sat
    obtain rfl : b = true := hiff.mpr fun τ hτ => by rw [hisValue.holds, hvalue, hv τ hτ]
    dsimp only at hget hb ⊢
    rw [hget]
    dsimp only
    rw [hb, if_pos rfl]

end Unique

section Run

variable {c : BlockContext} {o : ExecutorOptions} {ex ex' ex₁ ex₂ : Executor IncomingBBIndex}
variable {state : StateId} {s : ExecutionState IncomingBBIndex} {address : Expr}
variable {ds targets : List BasicBlock} {conditions : List Expr} {result : List (Option StateId)}
variable {killed dropped : List (Explored IncomingBBIndex)}

/-- What an execution of the instruction leaves. The states that a limit or the seeds drop are
the discarded ones. -/
structure IndirectRight (c : BlockContext) (o : ExecutorOptions) (address : Expr)
    (ds : List BasicBlock) (ex : Executor IncomingBBIndex) (state : StateId)
    (s : ExecutionState IncomingBBIndex) (ex' : Executor IncomingBBIndex) : Prop where
  transferred : ∀ st s', Live ex state ex' st s' →
    ∃ bb ∈ ds, AtDestination c s (addressUnder address) bb s'
  terminated : ∀ e ∈ terminatedIn ex ex', e.2.2 ≠ .discarded → e.2.2 = .exec ∧
    ∀ σ, Satisfies σ e.2.1.constraints → Satisfies σ s.constraints ∧ addressUnder address σ ∉ ds
  covers : ¬ Limited o ex → (o.onlyReplaySeeds = true → ex.seedMap state = none) →
    ∀ σ, Satisfies σ s.constraints →
      (∃ st s', Live ex state ex' st s' ∧ Satisfies σ s'.constraints) ∨
      ∃ e ∈ terminatedIn ex ex', e.2.2 = .exec ∧ Satisfies σ e.2.1.constraints

/-- The conditions of the branch: those of the labels, and the error case if it is feasible. -/
structure IndirectConditions (cs : List Expr) (address : Expr) (ds targets : List BasicBlock)
    (conditions : List Expr) : Prop where
  feasible : ∀ bb, bb ∈ targets ↔ bb ∈ ds ∧ ∃ σ, Satisfies σ cs ∧ addressUnder address σ = bb
  label : ∀ (k : Nat) (bb : BasicBlock), targets[k]? = some bb →
    conditions[k]? = some (labelIs address bb)
  length : targets.length ≤ conditions.length
  error : ∀ k e, targets.length ≤ k → conditions[k]? = some e →
    ∀ σ, e.Holds σ ↔ addressUnder address σ ∉ ds
  covers : ∀ σ, Satisfies σ cs → addressUnder address σ ∉ ds → targets.length < conditions.length

/-- The branch, the end of the error state and the transfer of the other states. -/
theorem indirectRight_of_placed (ha : address.WellSorted) (hw : address.width = 64)
    (hcond : IndirectConditions s.constraints address ds targets conditions)
    (h : Placed o ex state s conditions (placeSide conditions) result killed ex₁)
    (hdrop : Dropped dropped ex₁ ex₂)
    (hdropped : ∀ st, st ∈ dropped.map (·.1) ↔ ∃ k, targets.length ≤ k ∧ result[k]? = some (some st))
    (hexec : ∀ e ∈ dropped, e.2.2 = .exec)
    (hmoved : Transferred c (targets.zip result) ex₂ ex') :
    IndirectRight c o address ds ex state s ex' := by
  have hnext : ex'.nextState = ex₁.nextState := by rw [hmoved.executor]; exact hdrop.nextState
  have hterminated : terminatedIn ex ex' = killed ++ dropped := by
    rw [terminatedIn, hmoved.executor]
    show ex₂.explored.drop _ = _
    rw [hdrop.explored, h.explored, List.append_assoc, List.drop_left]
  have hfamily {st : StateId} : InFamily ex state ex' st ↔
      st ∈ family ex state (newStates o ex conditions.length) := by
    rw [← h.inFamily, InFamily, hnext]
    rfl
  -- the state at the place of a label goes on there
  have hplace {k : Nat} {st : StateId} (hk : result[k]? = some (some st))
      (hlt : k < targets.length) : ∃ bb s', bb ∈ targets ∧ targets[k]? = some bb ∧
        ex'.heap st = some s' ∧ s'.pc = c.basicBlockEntry bb ∧
        s'.memory = (c.basicBlockIndex bb).getD s.memory ∧
        ∀ σ, Satisfies σ s'.constraints ↔
          Satisfies σ s.constraints ∧ addressUnder address σ = bb := by
    have hbb : targets[k]? = some targets[k] := List.getElem?_eq_getElem hlt
    have hzip : (targets[k], some st) ∈ targets.zip result :=
      List.mem_of_getElem? (List.getElem?_zip_eq_some.mpr ⟨hbb, hk⟩)
    have hkeep : ex₂.heap st = ex₁.heap st := by
      refine hdrop.heap st fun hin => ?_
      obtain ⟨j, hle, hj⟩ := (hdropped st).mp hin
      exact absurd (h.once k j st hk hj) (Nat.ne_of_lt (Nat.lt_of_lt_of_le hlt hle))
    obtain ⟨s', hs', hpc, hmemory, hcs⟩ := h.moved hmoved hk hzip (hcond.label k _ hbb) hkeep
    refine ⟨targets[k], s', List.getElem_mem hlt, hbb, hs', hpc, hmemory, fun σ => ?_⟩
    rw [hcs, holds_labelIs ha hw]
  -- the state at the place of the error case is terminated
  have herror {e : Explored IncomingBBIndex} (he : e ∈ dropped) (σ : Assignment) :
      Satisfies σ e.2.1.constraints ↔
        Satisfies σ s.constraints ∧ addressUnder address σ ∉ ds := by
    obtain ⟨k, hle, hk⟩ := (hdropped e.1).mp (List.mem_map_of_mem he)
    obtain ⟨-, x, hx, htakes⟩ := h.live k e.1 hk
    obtain rfl : e.2.1 = x := Option.some.inj ((hdrop.states e he).symm.trans hx)
    have hlt : k < conditions.length := h.length ▸ (List.getElem?_eq_some_iff.mp hk).1
    have hget : conditions[k]? = some conditions[k] := List.getElem?_eq_getElem hlt
    rw [htakes.constraints, placeSide, ← hcond.error k _ hle hget σ, hget]
    simp
  refine ⟨fun st s' hlive => ?_, fun e he hreason => ?_, fun hlimit hseeds σ hσ => ?_⟩
  · have hnot := hlive.notTerminated
    rw [hterminated, List.map_append, List.mem_append, not_or, h.killed, not_and, not_not] at hnot
    obtain ⟨k, hk⟩ := List.mem_iff_getElem?.mp (hnot.1 (hfamily.mp hlive.family))
    have hlt : k < targets.length := by
      by_contra hle
      exact hnot.2 ((hdropped st).mpr ⟨k, Nat.le_of_not_lt hle, hk⟩)
    obtain ⟨bb, x, hbb, -, hx, hpc, hmemory, hcs⟩ := hplace hk hlt
    obtain rfl : s' = x := Option.some.inj (hlive.heap.symm.trans hx)
    exact ⟨bb, ((hcond.feasible bb).mp hbb).1, hpc, hmemory, fun σ hσ => (hcs σ).mp hσ⟩
  · rw [hterminated] at he
    cases List.mem_append.mp he with
    | inl he => exact absurd (h.discarded e he) hreason
    | inr he => exact ⟨hexec e he, fun σ hσ => (herror he σ).mp hσ⟩
  · by_cases hin : addressUnder address σ ∈ ds
    · left
      obtain ⟨k, hk⟩ := List.mem_iff_getElem?.mp ((hcond.feasible _).mpr ⟨hin, σ, hσ, rfl⟩)
      have hlt : k < targets.length := (List.getElem?_eq_some_iff.mp hk).1
      obtain ⟨st, hst⟩ := h.taken hlimit hseeds (Nat.lt_of_lt_of_le hlt hcond.length)
      obtain ⟨bb, s', -, hkbb, hs', -, -, hcs⟩ := hplace hst hlt
      obtain rfl : addressUnder address σ = bb := Option.some.inj (hk.symm.trans hkbb)
      have hmem : some st ∈ result := List.mem_of_getElem? hst
      refine ⟨st, s', ⟨hfamily.mpr (h.members st hmem), ?_, hs'⟩, (hcs σ).mpr ⟨hσ, rfl⟩⟩
      rw [hterminated, List.map_append, List.mem_append, not_or, h.killed]
      refine ⟨fun hkilled => hkilled.2 hmem, fun hdrop => ?_⟩
      obtain ⟨j, hle, hj⟩ := (hdropped st).mp hdrop
      exact absurd (h.once k j st hst hj) (Nat.ne_of_lt (Nat.lt_of_lt_of_le hlt hle))
    · right
      obtain ⟨st, hst⟩ := h.taken hlimit hseeds (hcond.covers σ hσ hin)
      obtain ⟨e, he, rfl⟩ := List.mem_map.mp ((hdropped st).mpr ⟨_, le_rfl, hst⟩)
      exact ⟨e, hterminated ▸ List.mem_append_right _ he, hexec e he, (herror he σ).mpr ⟨hσ, hin⟩⟩

theorem zip_take_length (result : List (Option StateId)) :
    targets.zip (result.take targets.length) = targets.zip result := by
  induction targets generalizing result with
  | nil => rfl
  | cons bb rest ih =>
    cases result with
    | nil => rfl
    | cons st result => exact congrArg ((bb, st) :: ·) (ih result)

/-- The transfer, after the states of `dropped` have been terminated. -/
theorem wp_transferAll_right {E : ExecutorFault → Prop} {P : Prop} (ha : address.WellSorted)
    (hw : address.width = 64)
    (hcond : IndirectConditions s.constraints address ds targets conditions)
    (h : Placed o ex state s conditions (placeSide conditions) result killed ex₁)
    (hdrop : Dropped dropped ex₁ ex₂)
    (hdropped : ∀ st, st ∈ dropped.map (·.1) ↔ ∃ k, targets.length ≤ k ∧ result[k]? = some (some st))
    (hexec : ∀ e ∈ dropped, e.2.2 = .exec) (hP : P) :
    wp (transferAll c targets result)
      (fun _ ex' => IndirectRight c o address ds ex state s ex' ∧ P) E ex₂ := by
  refine wp_transferPairs _ (h.once.pairwise_zip _) (fun bb st hmem => ?_) fun ex' hmoved =>
    ⟨indirectRight_of_placed ha hw hcond h hdrop hdropped hexec hmoved, hP⟩
  obtain ⟨k, hk⟩ := List.mem_iff_getElem?.mp hmem
  obtain ⟨hbb, hst⟩ := List.getElem?_zip_eq_some.mp hk
  have hlt : k < targets.length := (List.getElem?_eq_some_iff.mp hbb).1
  obtain ⟨-, x, hx, -⟩ := h.live k st hst
  refine ⟨x, (hdrop.heap st fun hin => ?_).trans hx⟩
  obtain ⟨j, hle, hj⟩ := (hdropped st).mp hin
  exact absurd (h.once k j st hst hj) (Nat.ne_of_lt (Nat.lt_of_lt_of_le hlt hle))

noncomputable def indirectConditions (cs : List Expr) (address : Expr) (ds : List BasicBlock) :
    List Expr :=
  (feasibleLabels cs address ds).map (labelIs address) ++ [unlisted address ds]

/-- If the address can be none of the labels, the branch keeps a state for that. -/
def ErrorPlaced (o : ExecutorOptions) (ex : Executor IncomingBBIndex) (state : StateId)
    (cs : List Expr) (address : Expr) (ds : List BasicBlock) : Prop :=
  (∃ σ, Satisfies σ cs ∧ addressUnder address σ ∉ ds) →
    ¬ Untaken o ex state cs (indirectConditions cs address ds)
      (feasibleLabels cs address ds).length

variable {cs : List Expr}

theorem getElem?_map_labelIs {k : Nat} {bb : BasicBlock} {rest : List Expr}
    (h : targets[k]? = some bb) :
    (targets.map (labelIs address) ++ rest)[k]? = some (labelIs address bb) := by
  have hlt : k < targets.length := (List.getElem?_eq_some_iff.mp h).1
  rw [List.getElem?_append_left (by rwa [List.length_map]), List.getElem?_map, h]
  rfl

theorem indirectConditions_spec (ha : address.WellSorted) (hw : address.width = 64) :
    IndirectConditions cs address ds (feasibleLabels cs address ds)
      (indirectConditions cs address ds) where
  feasible _ := mem_feasibleLabels
  label _ _ := getElem?_map_labelIs
  length := by simp [indirectConditions]
  error k e hle he σ := by
    rw [indirectConditions, List.getElem?_append_right (by rwa [List.length_map]),
      List.getElem?_singleton] at he
    split at he
    · rw [← Option.some.inj he]
      exact (unlisted_spec ha hw ds).2 σ
    · cases he
  covers _ _ _ := by simp [indirectConditions]

theorem indirectConditions_listed (hlisted : ∀ σ, Satisfies σ cs → addressUnder address σ ∈ ds) :
    IndirectConditions cs address ds (feasibleLabels cs address ds)
      ((feasibleLabels cs address ds).map (labelIs address)) where
  feasible _ := mem_feasibleLabels
  label k bb h := by
    have hget := @getElem?_map_labelIs address _ k bb [] h
    rwa [List.append_nil] at hget
  length := by simp
  error k e hle he := by
    have hlt := (List.getElem?_eq_some_iff.mp he).1
    rw [List.length_map] at hlt
    exact absurd hlt (Nat.not_lt.mpr hle)
  covers σ hσ hnot := absurd (hlisted σ hσ) hnot

/-- The last state is terminated, or there is none. -/
theorem wp_terminateBack {Q : List (Option StateId) → Executor IncomingBBIndex → Prop}
    {E : ExecutorFault → Prop} {n : Nat}
    (h : Placed o ex state s conditions (placeSide conditions) result killed ex₁)
    (hlen : conditions.length = n + 1) (hnull : Untaken o ex state s.constraints conditions n → E .noState)
    (hQ : ∀ dropped ex₂, Dropped dropped ex₁ ex₂ →
      (∀ st, st ∈ dropped.map (·.1) ↔ ∃ k, n ≤ k ∧ result[k]? = some (some st)) →
      (∀ e ∈ dropped, e.2.2 = .exec) → ¬ Untaken o ex state s.constraints conditions n →
      Q (result.take n) ex₂) : wp (terminateBack o result) Q E ex₁ := by
  have hlt : n < result.length := by rw [h.length, hlen]; exact Nat.lt_succ_self n
  have hget : result[n]? = some result[n] := List.getElem?_eq_getElem hlt
  have hlast : result.getLast? = some result[n] := by
    rw [List.getLast?_eq_getElem?, h.length, hlen]
    exact hget
  have htake : result.dropLast = result.take n := by
    rw [List.dropLast_eq_take, h.length, hlen]
    rfl
  have huntaken := h.null n (hlen ▸ Nat.lt_succ_self n)
  unfold terminateBack
  rw [hlast]
  cases hplace : result[n] with
  | none => exact hnull (huntaken.mp (hplace ▸ hget))
  | some es =>
    rw [hplace] at hget
    obtain ⟨hnode, x, hx, -⟩ := h.live n es hget
    dsimp only
    rw [wp_bind]
    refine wp_terminateState_dropped h.wellFormed hx hnode fun ex₂ hdrop => ?_
    rw [wp_pure, htake]
    refine hQ _ ex₂ hdrop (fun st => ?_) (fun e he => ?_) fun hun => ?_
    · rw [List.map_singleton, List.mem_singleton]
      constructor
      · rintro rfl
        exact ⟨n, le_rfl, hget⟩
      · rintro ⟨k, hle, hk⟩
        have hk' : k < result.length := (List.getElem?_eq_some_iff.mp hk).1
        obtain rfl : k = n := by
          rw [h.length, hlen] at hk'
          exact Nat.le_antisymm (Nat.le_of_lt_succ hk') hle
        exact Option.some.inj (Option.some.inj (hk.symm.trans hget))
    · rw [List.mem_singleton.mp he]
    · cases (huntaken.mpr hun).symm.trans hget

theorem wp_branchIndirect (hwf : ex.WellFormed) (hs : ex.heap state = some s)
    (hnode : state ∈ ex.processTree.leaves) (hsup : Supports c o s.constraints)
    (ha : address.WellSorted) (hw : address.width = 64) :
    wp (branchIndirect c o s.constraints address ds state)
      (fun _ ex' => IndirectRight c o address ds ex state s ex' ∧
        ErrorPlaced o ex state s.constraints address ds)
      (fun f => (f = .noState → ¬ ErrorPlaced o ex state s.constraints address ds) ∧
        (f ≠ .noState → ex.seedMap state ≠ none)) ex := by
  obtain ⟨t, ht, hgathered⟩ := gathered_loop hsup ha hw ds gathered_initial
  obtain ⟨herror, hholds⟩ := unlisted_spec ha hw ds
  obtain ⟨b, hb, hiff⟩ := hsup.solver.mayBeTrue hsup.constraints herror hsup.sat
  simp only [hholds] at hiff
  have hbool (bb : BasicBlock) : (labelIs address bb).IsBool := isBool_labelIs ha hw bb
  have hfault (f : ExecutorFault) (hf : f ≠ .noState ∧ ¬ ex.seedMap state = none) :
      (f = .noState → ¬ ErrorPlaced o ex state s.constraints address ds) ∧
        (f ≠ .noState → ex.seedMap state ≠ none) := ⟨fun h => absurd h hf.1, fun _ => hf.2⟩
  have hlabel : ∀ e ∈ (feasibleLabels s.constraints address ds).map (labelIs address),
      e.IsBool ∧ ∃ σ, Satisfies σ s.constraints ∧ e.Holds σ := by
    intro e he
    obtain ⟨bb, hbb, rfl⟩ := List.mem_map.mp he
    obtain ⟨-, σ, hσ, heq⟩ := mem_feasibleLabels.mp hbb
    exact ⟨hbool bb, σ, hσ, (holds_labelIs ha hw).mpr heq⟩
  unfold branchIndirect
  rw [wp_bind, ht, wp_orThrow_some, wp_bind, hgathered.errorCase, List.nil_append, hb,
    wp_orThrow_some, wp_bind, hgathered.expressions, hgathered.targets, List.nil_append]
  cases b with
  | true =>
    have hans : Answerable o s.constraints (indirectConditions s.constraints address ds) := by
      refine ⟨hsup.solver, hsup.constraints, fun e he => ?_, hsup.sat⟩
      cases List.mem_append.mp he with
      | inl he => exact (hlabel e he).1
      | inr he => exact List.mem_singleton.mp he ▸ herror
    have hlen : (indirectConditions s.constraints address ds).length =
        (feasibleLabels s.constraints address ds).length + 1 := by simp [indirectConditions]
    refine wp_mono (wp_branch hwf hs hnode hans (List.ne_nil_of_length_eq_add_one hlen)
      (fun hseeds => ⟨hseeds, fun e he => ?_⟩) fun result killed ex₁ h => ?_) (fun _ _ h => h) hfault
    · cases List.mem_append.mp he with
      | inl he => exact (hlabel e he).2
      | inr he =>
        obtain ⟨σ, hσ, hnot⟩ := hiff.mp rfl
        exact ⟨σ, hσ, List.mem_singleton.mp he ▸ (hholds σ).mpr hnot⟩
    · dsimp only
      rw [if_pos rfl, wp_bind]
      refine wp_terminateBack h hlen
        (fun hun => ⟨fun _ hplaced => hplaced (hiff.mp rfl) hun, fun hne => absurd rfl hne⟩)
        fun dropped ex₂ hdrop hdropped hexec hun => ?_
      rw [transferAll, zip_take_length]
      exact wp_transferAll_right ha hw (indirectConditions_spec ha hw) h hdrop hdropped hexec
        fun _ => hun
  | false =>
    have hlisted (σ : Assignment) (hσ : Satisfies σ s.constraints) :
        addressUnder address σ ∈ ds := by
      by_contra hnot
      cases hiff.mpr ⟨σ, hσ, hnot⟩
    have hne : (feasibleLabels s.constraints address ds).map (labelIs address) ≠ [] := by
      obtain ⟨σ, hσ⟩ := hsup.sat
      exact List.ne_nil_of_mem (List.mem_map_of_mem (mem_feasibleLabels.mpr ⟨hlisted σ hσ, σ, hσ, rfl⟩))
    have hans : Answerable o s.constraints
        ((feasibleLabels s.constraints address ds).map (labelIs address)) :=
      ⟨hsup.solver, hsup.constraints, fun e he => (hlabel e he).1, hsup.sat⟩
    refine wp_mono (wp_branch hwf hs hnode hans hne
      (fun hseeds => ⟨hseeds, fun e he => (hlabel e he).2⟩) fun result killed ex₁ h => ?_)
      (fun _ _ h => h) hfault
    dsimp only
    rw [if_neg Bool.false_ne_true, wp_bind, wp_pure]
    refine wp_transferAll_right ha hw (indirectConditions_listed hlisted) h
      (Dropped.refl h.wellFormed) (fun st => ?_) (fun e he => (List.not_mem_nil he).elim)
      fun ⟨σ, hσ, hnot⟩ => absurd (hlisted σ hσ) hnot
    refine ⟨fun hin => (List.not_mem_nil hin).elim, fun ⟨k, hle, hk⟩ => ?_⟩
    have hlt := (List.getElem?_eq_some_iff.mp hk).1
    rw [h.length, if_neg Bool.false_ne_true, List.length_map] at hlt
    exact absurd hlt (Nat.not_lt.mpr hle)

/-- An address with one value is listed, and one with several values, some of them not listed,
finds a state for its error case. -/
def Listed (o : ExecutorOptions) (ex : Executor IncomingBBIndex) (state : StateId)
    (cs : List Expr) (address : Expr) (ds : List BasicBlock) : Prop :=
  (∀ d, (∀ σ, Satisfies σ cs → addressUnder address σ = d) → d ∈ ds) ∧
    ErrorPlaced o ex state cs address ds

theorem addressUnder_of_valueUnder {σ : Assignment} {ce : ConstantExpr} (hw : address.width = 64)
    (h : valueUnder address σ = ce) : addressUnder address σ = ce.value.setWidth 64 := by
  rw [← h, valueUnder, hw]
  exact (BitVec.setWidth_eq _).symm

/-- The transfer to the only block. -/
theorem wp_transfer_unique {E : ExecutorFault → Prop} {d : BasicBlock}
    (hs : ex.heap state = some s) (hsat : ∃ σ, Satisfies σ s.constraints)
    (hd : ∀ σ, Satisfies σ s.constraints → addressUnder address σ = d) :
    wp (transferToBasicBlock c d state) (fun _ ex' =>
      IndirectRight c o address ds ex state s ex' ↔
        Listed o ex state s.constraints address ds) E ex := by
  obtain ⟨τ, hτ⟩ := hsat
  refine (wp_modifyState hs).mpr ⟨fun hright => ?_, fun hlisted => ?_⟩
  · obtain ⟨bb, hbb, hat⟩ := hright.transferred state (atBlock c d s) (live_atBlock.mpr ⟨rfl, rfl⟩)
    obtain rfl : d = bb := (hd τ hτ).symm.trans (hat.inputs τ hτ).2
    refine ⟨fun d' hd' => ?_, fun ⟨σ, hσ, hnot⟩ => absurd ((hd σ hσ).symm ▸ hbb) hnot⟩
    rwa [← hd' τ hτ, hd τ hτ]
  · refine ⟨fun st s' hlive => ?_, fun e he => ?_, fun _ _ σ hσ => .inl ?_⟩
    · obtain ⟨rfl, rfl⟩ := live_atBlock.mp hlive
      exact ⟨d, hlisted.1 d hd, rfl, rfl, fun σ hσ => ⟨hσ, hd σ hσ⟩⟩
    · rw [terminatedIn, List.drop_length] at he
      cases he
    · exact ⟨state, atBlock c d s, live_atBlock.mpr ⟨rfl, rfl⟩, hσ⟩

/-- An address with several values is looked up in the label list. -/
theorem executeIndirectBr_symbolic (hs : ex.heap state = some s)
    (heq : toUnique c o s.constraints address = address) (hsymbolic : address.isConstant = false) :
    executeIndirectBr c o address ds state ex =
      branchIndirect c o s.constraints address ds state ex := by
  have hread : readState state ex = .ok (s, ex) := by
    unfold readState
    rw [run_bind_of_ok rfl, hs]
    rfl
  unfold executeIndirectBr
  rw [run_bind_of_ok hread, heq]
  split
  · cases hsymbolic
  · rfl

theorem wp_executeIndirectBr (hwf : ex.WellFormed) (hs : ex.heap state = some s)
    (hnode : state ∈ ex.processTree.leaves) (hsup : Supports c o s.constraints)
    (ha : address.WellSorted) (hw : address.width = 64) :
    wp (executeIndirectBr c o address ds state)
      (fun _ ex' => IndirectRight c o address ds ex state s ex' ↔
        Listed o ex state s.constraints address ds)
      (fun f => (f = .noState → ¬ Listed o ex state s.constraints address ds) ∧
        (f ≠ .noState → ex.seedMap state ≠ none)) ex := by
  obtain ⟨heq, hsymbolic⟩ | ⟨ce, heq, hvalue⟩ := toUnique_spec hsup ha
  · unfold wp
    rw [executeIndirectBr_symbolic hs heq hsymbolic]
    refine wp_mono (wp_branchIndirect hwf hs hnode hsup ha hw) (fun _ ex' h => ?_) fun f h => ?_
    · refine iff_of_true h.1 ⟨fun d hd => ?_, h.2⟩
      have hunique := toUnique_unique (v := ⟨64, d⟩) hsup ha fun σ hσ => by
        rw [valueUnder, hw]
        exact congrArg _ (hd σ hσ)
      rw [heq] at hunique
      rw [hunique] at hsymbolic
      cases hsymbolic
    · exact ⟨fun hf hlisted => h.1 hf hlisted.2, h.2⟩
  · unfold executeIndirectBr
    rw [wp_bind]
    refine (wp_readState hs).mpr ?_
    rw [heq]
    exact wp_transfer_unique hs hsup.sat fun σ hσ => addressUnder_of_valueUnder hw (hvalue σ hσ)

/-- The instruction ends with every state where it belongs, and dereferences no null pointer. -/
def RunsIndirectBr (c : BlockContext) (o : ExecutorOptions) (address : Expr) (ds : List BasicBlock)
    (ex : Executor IncomingBBIndex) (state : StateId) (s : ExecutionState IncomingBBIndex) : Prop :=
  match executeIndirectBr c o address ds state ex with
  | .ok (_, ex') => IndirectRight c o address ds ex state s ex'
  | .error f => f ≠ .noState

end Run

section Example

theorem addressUnder_pointer (σ : Assignment) :
    addressUnder pointer σ = if (byteIs 1 0).Holds σ then 8192 else 12288 := by
  show (if (byteIs 1 0).Holds σ then (8192#64) else 12288#64) = _
  split <;> rfl

/-- The pointer has two values. -/
theorem exists_addressUnder_pointer :
    (∃ σ, Satisfies σ blockState.constraints ∧ addressUnder pointer σ = 8192) ∧
      ∃ σ, Satisfies σ blockState.constraints ∧ addressUnder pointer σ = 12288 := by
  refine ⟨⟨fun _ _ => 1, satisfies_nil _, ?_⟩, ⟨fun _ _ => 0, satisfies_nil _, ?_⟩⟩
  · rw [addressUnder_pointer, if_pos (by decide)]
  · rw [addressUnder_pointer, if_neg (by decide)]

/-- The pointer is no single block. -/
theorem not_unique_pointer (d : BasicBlock) :
    ¬ ∀ σ, Satisfies σ blockState.constraints → addressUnder pointer σ = d := by
  intro hd
  obtain ⟨⟨σ, hσ, h⟩, ⟨τ, hτ, h'⟩⟩ := exists_addressUnder_pointer
  rw [hd σ hσ] at h
  rw [hd τ hτ, h] at h'
  cases h'

noncomputable def noForks : ExecutorOptions := { plainOptions with maxForks := some 0 }

theorem supports_noForks : Supports exampleBlocks noForks blockState.constraints :=
  { supports_blockState with }

theorem not_errorPlaced_pointer : ¬ ErrorPlaced noForks (initial blockState none none) 0
    blockState.constraints pointer [8192] := by
  obtain ⟨hlabel, σ, hσ, hvalue⟩ := exists_addressUnder_pointer
  have hmem : (8192 : BasicBlock) ∈ feasibleLabels blockState.constraints pointer [8192] :=
    mem_feasibleLabels.mpr ⟨List.mem_singleton.mpr rfl, hlabel⟩
  intro hplaced
  refine hplaced ⟨σ, hσ, by rw [hvalue]; decide⟩ (.inl ⟨rfl, fun hlen => ?_⟩)
  have hpick : ((initial blockState none none).theRNG 0).toNat = 0 := rfl
  rw [hpick, Nat.zero_mod, List.length_eq_zero_iff] at hlen
  rw [hlen] at hmem
  cases hmem

end Example

end Klee.Executor
