import Klee.Core.BranchStates

/-! `fork` in every mode and under every limit: a state that goes on has inputs of its side only,
and every state either goes on or is terminated. -/
namespace Klee.Executor

open Hoare

variable {M : Type} {o : ExecutorOptions} {ex ex' ex'' : Executor M} {st state : StateId}
variable {s s' s'' : ExecutionState M} {condition condition' : Expr} {side side' : Assignment → Prop}

structure Narrowed (s s' : ExecutionState M) (side : Assignment → Prop) : Prop where
  memory : s'.memory = s.memory
  pc : s'.pc = s.pc
  prevPC : s'.prevPC = s.prevPC
  isBool : ∀ c ∈ s'.constraints, c.IsBool
  sat : ∃ σ, Satisfies σ s'.constraints
  inputs : ∀ σ, Satisfies σ s'.constraints → Satisfies σ s.constraints ∧ side σ

theorem Narrowed.trans (h : Narrowed s s' side) (h' : Narrowed s' s'' side') :
    Narrowed s s'' fun σ => side σ ∧ side' σ where
  memory := h'.memory.trans h.memory
  pc := h'.pc.trans h.pc
  prevPC := h'.prevPC.trans h.prevPC
  isBool := h'.isBool
  sat := h'.sat
  inputs σ hσ :=
    have h₁ := h'.inputs σ hσ
    have h₀ := h.inputs σ h₁.1
    ⟨h₀.1, h₀.2, h₁.2⟩

theorem Narrowed.mono (h : Narrowed s s' side) (hside : ∀ σ, side σ → side' σ) :
    Narrowed s s' side' :=
  { h with inputs := fun σ hσ => (h.inputs σ hσ).imp_right (hside σ) }

section Stages

variable {res res' : Validity}

/-- A condition that a limit has replaced says the same of the inputs that are left. -/
theorem Concretized.narrows (h : Concretized o s condition condition' s') (hsolver : o.solver.Correct)
    (hcs : ∀ c ∈ s.constraints, c.IsBool) (hcond : condition.IsBool)
    (hsat : ∃ σ, Satisfies σ s.constraints) :
    condition'.IsBool ∧ (∀ c ∈ s'.constraints, c.IsBool) ∧ (∃ σ, Satisfies σ s'.constraints) ∧
      ∀ σ, Satisfies σ s'.constraints →
        Satisfies σ s.constraints ∧ (condition'.Holds σ ↔ condition.Holds σ) := by
  obtain ⟨rfl, rfl⟩ | ⟨value, hvalue, rfl, hadds⟩ := h
  · exact ⟨hcond, hcs, hsat, fun σ hσ => ⟨hσ, Iff.rfl⟩⟩
  · obtain ⟨hw, τ, hτ, hval⟩ :=
      (hsolver.valueSound hcs).getValue hcs hcond.1 hsat hvalue
    obtain ⟨w, x⟩ := value
    obtain rfl : w = 1 := hw.trans hcond.2
    have hconst : (Expr.constant ⟨1, x⟩).IsBool := ⟨Nat.one_pos, rfl⟩
    have hself (a : Option Assignment) := Denotes.constant (s := a) (v := x) Nat.one_pos
    have heq : (EqExpr.create (.constant ⟨1, x⟩) condition).IsBool :=
      (EqExpr.create_denotes (hself none) hcond.denotes_none).isBool
    have hholds (σ : Assignment) :
        (EqExpr.create (.constant ⟨1, x⟩) condition).Holds σ ↔ x = condition.eval σ 1 := by
      rw [(EqExpr.create_denotes (hself (some σ)) (hcond.denotes σ)).holds_iff,
        BitVec.ofBool_eq_one, beq_iff_eq]
    refine ⟨hconst, hadds.isBool hcs heq, ⟨τ, ?_⟩, fun σ hσ => ?_⟩
    · exact (hadds.satisfies hcs heq τ).mpr ⟨hτ, (hholds τ).mpr hval.symm⟩
    · obtain ⟨hσs, hx⟩ := (hadds.satisfies hcs heq σ).mp hσ
      refine ⟨hσs, ?_⟩
      rw [Expr.Holds, Expr.Holds, ← (hholds σ).mp hx]
      simp [Expr.eval]

/-- The validity with which a fork ends is right for the inputs that are left. -/
theorem Fixed.says (h : Fixed s condition res res' s') (hcs : ∀ c ∈ s.constraints, c.IsBool)
    (hcond : condition.IsBool) (hsat : ∃ σ, Satisfies σ s.constraints)
    (hres : res.Says s.constraints condition) :
    (∀ c ∈ s'.constraints, c.IsBool) ∧ (∃ σ, Satisfies σ s'.constraints) ∧
      (∀ σ, Satisfies σ s'.constraints → Satisfies σ s.constraints) ∧
      res'.Says s'.constraints condition := by
  obtain ⟨rfl, rfl⟩ | ⟨rfl, side, rfl, hadds⟩ := h
  · exact ⟨hcs, hsat, fun _ hσ => hσ, hres⟩
  · have hside := isBool_side hcond side
    have hiff (σ : Assignment) : Satisfies σ s'.constraints ↔
        Satisfies σ s.constraints ∧ (condition.Holds σ ↔ side = true) := by
      rw [hadds.satisfies hcs hside, holds_side hcond]
    refine ⟨hadds.isBool hcs hside, ?_, fun σ hσ => ((hiff σ).mp hσ).1, ?_⟩
    · obtain ⟨σ, hσ⟩ := Validity.Says.feasible hres side
      exact ⟨σ, (hiff σ).mpr hσ⟩
    · cases side with
      | true => exact fun σ hσ => ((hiff σ).mp hσ).2.mpr rfl
      | false => exact fun σ hσ hholds => Bool.false_ne_true (((hiff σ).mp hσ).2.mp hholds)

end Stages

/-- The ways in which `fork` ends for a state. -/
inductive ForkEnds (ex : Executor M) (st : StateId) (s : ExecutionState M) (condition : Expr) :
    Option StateId × Option StateId → Executor M → Prop
  | alone (side : Bool) (s' : ExecutionState M) {ex' : Executor M}
    (hheap : ex'.heap = Function.update ex.heap st (some s'))
    (hnext : ex'.nextState = ex.nextState) (hexplored : ex'.explored = ex.explored)
    (h : Narrowed s s' fun σ => condition.Holds σ ↔ side = true) :
    ForkEnds ex st s condition (alone st side) ex'
  | split (a b : ExecutionState M) {ex' : Executor M}
    (hheap : ex'.heap =
      Function.update (Function.update ex.heap st (some a)) ex.nextState (some b))
    (hnext : ex'.nextState = ex.nextState + 1) (hexplored : ex'.explored = ex.explored)
    (ha : Narrowed s a fun σ => condition.Holds σ)
    (hb : Narrowed s b fun σ => ¬ condition.Holds σ) :
    ForkEnds ex st s condition (some st, some ex.nextState) ex'
  | ended {ex' : Executor M} (hheap : ∀ x, x ≠ st → x ≠ ex.nextState → ex'.heap x = ex.heap x)
    (hnext : ex'.nextState = ex.nextState + 1)
    (hexplored : ∃ l, ex'.explored = ex.explored ++ l ∧ l.map (·.1) = [st, ex.nextState]) :
    ForkEnds ex st s condition (none, none) ex'

theorem wp_fork_ends (hs : ex.heap st = some s) (hnew : ex.heap ex.nextState = none)
    (hsolver : o.solver.Correct) (hcs : ∀ c ∈ s.constraints, c.IsBool) (hcond : condition.IsBool)
    (hsat : ∃ σ, Satisfies σ s.constraints) (isInternal : Bool) :
    wp (fork o st condition isInternal) (ForkEnds ex st s condition) (fun _ => True) ex := by
  have hfork : wp (fork o st condition isInternal) (ForkEnds ex st s condition) (fun _ => ¬ False)
      ex := by
    refine wp_fork_stages hs False.elim
      (fun condition' res res' s₁ ex₂ s₂ hprep hconc hres hfixed _ => ?_)
      fun condition' ex₁ s₁ ex' hprep hconc hnone _ _ => ?_
    · obtain ⟨hcond', hcs₁, hsat₁, hsame⟩ := hconc.narrows hsolver hcs hcond hsat
      obtain ⟨v, hv, hverdict⟩ := hsolver.evaluate hcs₁ hcond'
      obtain rfl : res = v := Option.some.inj (hres.symm.trans hv)
      obtain ⟨hcs₂, hsat₂, hinputs, hsays⟩ := hfixed.says hcs₁ hcond' hsat₁ hverdict
      have hheap : ex₂.heap = Function.update ex.heap st (some s₂) := by rw [hprep.executor]
      have hexplored : ex₂.explored = ex.explored := by rw [hprep.executor]
      have hback (σ : Assignment) (hσ : Satisfies σ s₂.constraints) :
          Satisfies σ s.constraints ∧ (condition'.Holds σ ↔ condition.Holds σ) :=
        hsame σ (hinputs σ hσ)
      refine wp_finishFork hprep.heap (hprep.fresh hs hnew) False.elim ?_ ?_ ?_
      · rintro side fs rfl
        have hstate := hprep.state
        refine .alone side (s₂.took (sideIndex side)) ?_ hprep.nextState hexplored
          ⟨?_, ?_, ?_, hcs₂, hsat₂, fun σ hσ => ?_⟩
        · show Function.update ex₂.heap st _ = _
          rw [hheap, Function.update_idem]
        · rw [hstate]; rfl
        · rw [hstate]; rfl
        · rw [hstate]; rfl
        · obtain ⟨hσs, hiff⟩ := hback σ hσ
          exact ⟨hσs, hiff.symm.trans (Validity.Says.ofSide hsays σ hσ)⟩
      · rintro t fs m n a b rfl - hstates hadds hadds' -
        have hstate := hprep.state
        have hzero := TimingSolver.isBool_createIsZero hcond'
        rw [hprep.nextState]
        refine .split a b ?_ ?_ hexplored ⟨?_, ?_, ?_, hadds.isBool hcs₂ hcond', ?_, fun σ hσ => ?_⟩
          ⟨?_, ?_, ?_, hadds'.isBool hcs₂ hzero, ?_, fun σ hσ => ?_⟩
        · show Function.update (Function.update ex₂.heap st _) ex₂.nextState _ = _
          rw [hheap, Function.update_idem, hprep.nextState]
        · show ex₂.nextState + 1 = _
          rw [hprep.nextState]
        · rw [hstates.trueSide, hstate]; rfl
        · rw [hstates.trueSide, hstate]; rfl
        · rw [hstates.trueSide, hstate]; rfl
        · obtain ⟨σ, hσ, hholds⟩ := hsays.1
          exact ⟨σ, (hadds.satisfies hcs₂ hcond' σ).mpr ⟨hσ, hholds⟩⟩
        · obtain ⟨hσ₂, hholds⟩ := (hadds.satisfies hcs₂ hcond' σ).mp hσ
          obtain ⟨hσs, hiff⟩ := hback σ hσ₂
          exact ⟨hσs, hiff.mp hholds⟩
        · rw [hstates.falseSide, hstate]; rfl
        · rw [hstates.falseSide, hstate]; rfl
        · rw [hstates.falseSide, hstate]; rfl
        · obtain ⟨σ, hσ, hnot⟩ := hsays.2
          exact ⟨σ, (hadds'.satisfies hcs₂ hzero σ).mpr
            ⟨hσ, (TimingSolver.holds_createIsZero hcond').mpr hnot⟩⟩
        · obtain ⟨hσ₂, hholds⟩ := (hadds'.satisfies hcs₂ hzero σ).mp hσ
          obtain ⟨hσs, hiff⟩ := hback σ hσ₂
          exact ⟨hσs, fun hc => (TimingSolver.holds_createIsZero hcond').mp hholds (hiff.mpr hc)⟩
      · intro t fs m n a b ex' _ _ hterm _
        refine .ended (fun x hx hx' => ?_) ?_ ?_
        · have hnot : x ∉ [st, ex₂.nextState] := by
            rw [hprep.nextState]
            simp [hx, hx']
          rw [hterm.heap x hnot]
          have hkeep : (splitResult ex₂ st s₂ isInternal t fs m n a b).heap x = ex₂.heap x :=
            heap_withPair_of_ne hx (by rwa [hprep.nextState])
          rw [hkeep, hprep.heap_of_ne hx]
        · rw [hterm.nextState]
          show ex₂.nextState + 1 = _
          rw [hprep.nextState]
        · obtain ⟨l, hl, hids⟩ := hterm.explored
          rw [hprep.nextState] at hids
          refine ⟨l, hl.trans ?_, hids⟩
          show ex₂.explored ++ l = _
          rw [hexplored]
    · obtain ⟨hcond', hcs₁, -⟩ := hconc.narrows hsolver hcs hcond hsat
      obtain ⟨v, hv, -⟩ := hsolver.evaluate hcs₁ hcond'
      cases hnone.symm.trans hv
  exact wp_mono hfork (fun _ _ h => h) fun _ _ => trivial

section Accounted

/-- The states of `live` go on, and all others of the parent and the new states have been
terminated. -/
structure Accounted (ex : Executor M) (state : StateId) (live : List StateId)
    (ex' : Executor M) : Prop where
  fresh : ∀ x, ex'.nextState ≤ x → ex'.heap x = none
  others : ∀ x, x < ex.nextState → x ≠ state → ex'.heap x = ex.heap x
  states : ∃ k l, ex'.nextState = ex.nextState + k ∧ ex'.explored = ex.explored ++ l ∧
    (l.map (·.1) ++ live).Perm (family ex state k)

variable {live : List StateId}

theorem accounted_refl (hfresh : ∀ x, ex.nextState ≤ x → ex.heap x = none) :
    Accounted ex state [state] ex :=
  ⟨hfresh, fun _ _ _ => rfl, 0, [], rfl, (List.append_nil _).symm, .refl _⟩

theorem Accounted.perm {live' : List StateId} (h : Accounted ex state live ex')
    (hperm : live.Perm live') : Accounted ex state live' ex' :=
  { h with
    states := by
      obtain ⟨k, l, hnext, hexplored, hstates⟩ := h.states
      exact ⟨k, l, hnext, hexplored, (hperm.append_left _).symm.trans hstates⟩ }

/-- A state that goes on is the parent or a new one. -/
theorem Accounted.mem (h : Accounted ex state live ex') (hst : st ∈ live) :
    st = state ∨ ex.nextState ≤ st ∧ st < ex'.nextState := by
  obtain ⟨k, l, hnext, -, hstates⟩ := h.states
  rw [hnext]
  exact mem_family.mp (hstates.mem_iff.mp (List.mem_append_right _ hst))

theorem Accounted.nodup (h : Accounted ex state live ex') (hlt : state < ex.nextState) :
    live.Nodup := by
  obtain ⟨k, l, -, -, hstates⟩ := h.states
  exact (hstates.nodup_iff.mpr (nodup_family hlt)).of_append_right

/-- The states that go on are those that have not been terminated. -/
theorem Accounted.mem_iff (h : Accounted ex state live ex') (hlt : state < ex.nextState) :
    st ∈ live ↔ InFamily ex state ex' st ∧ st ∉ (terminatedIn ex ex').map (·.1) := by
  obtain ⟨k, l, hnext, hexplored, hstates⟩ := h.states
  have hfamily : InFamily ex state ex' st ↔ st ∈ l.map (·.1) ∨ st ∈ live := by
    rw [InFamily, hnext, ← mem_family, ← hstates.mem_iff, List.mem_append]
  have hdisjoint := List.disjoint_of_nodup_append (hstates.nodup_iff.mpr (nodup_family hlt))
  rw [hfamily, terminatedIn, hexplored, List.drop_left]
  constructor
  · exact fun hst => ⟨.inr hst, fun hl => hdisjoint hl hst⟩
  · rintro ⟨hl | hst, hnot⟩
    · exact absurd hl hnot
    · exact hst

theorem Accounted.next_le (h : Accounted ex state live ex') : ex.nextState ≤ ex'.nextState := by
  obtain ⟨k, l, hnext, -⟩ := h.states
  exact hnext ▸ Nat.le_add_right _ k

theorem Accounted.lt (h : Accounted ex state live ex') (hlt : state < ex.nextState)
    (hst : st ∈ live) : st < ex'.nextState := by
  cases h.mem hst with
  | inl heq => exact heq ▸ Nat.lt_of_lt_of_le hlt h.next_le
  | inr hnew => exact hnew.2

/-- No state of before but the parent is among those that go on. -/
theorem Accounted.ne_of_lt (h : Accounted ex state live ex') (hst : st ∈ live) {x : StateId}
    (hx : x < ex.nextState) (hne : x ≠ state) : x ≠ st := by
  rintro rfl
  exact (h.mem hst).elim hne fun hnew => Nat.not_lt.mpr hnew.1 hx

/-- A change of the states that go on. -/
theorem Accounted.update (h : Accounted ex state live ex')
    (hheap : ∀ x, x ∉ live → ex''.heap x = ex'.heap x) (hnext : ex''.nextState = ex'.nextState)
    (hexplored : ex''.explored = ex'.explored) (hlt : state < ex.nextState) :
    Accounted ex state live ex'' := by
  obtain ⟨k, l, hnext', hexplored', hstates⟩ := h.states
  refine ⟨fun x hx => ?_, fun x hx hne => ?_, k, l, hnext.trans hnext', hexplored.trans hexplored',
    hstates⟩
  · rw [hnext] at hx
    exact (hheap x fun hmem => Nat.not_lt.mpr hx (h.lt hlt hmem)).trans (h.fresh x hx)
  · exact (hheap x fun hmem => h.ne_of_lt hmem hx hne rfl).trans (h.others x hx hne)

/-- A state is terminated. -/
theorem Accounted.terminated (h : Accounted ex state (st :: live) ex')
    (hterm : Terminated [st] ex' ex'') (hlt : state < ex.nextState) :
    Accounted ex state live ex'' := by
  obtain ⟨k, l, hnext, hexplored, hstates⟩ := h.states
  obtain ⟨l', hl', hids⟩ := hterm.explored
  refine ⟨fun x hx => ?_, fun x hx hne => ?_, k, l ++ l', hterm.nextState.trans hnext, ?_, ?_⟩
  · rw [hterm.nextState] at hx
    refine (hterm.heap x fun hmem => ?_).trans (h.fresh x hx)
    exact Nat.not_lt.mpr hx (h.lt hlt (List.mem_singleton.mp hmem ▸ List.mem_cons_self))
  · refine (hterm.heap x fun hmem => ?_).trans (h.others x hx hne)
    exact h.ne_of_lt List.mem_cons_self hx hne (List.mem_singleton.mp hmem)
  · rw [hl', hexplored, List.append_assoc]
  · rw [List.map_append, hids, List.append_assoc]
    exact hstates

theorem perm_family_succ {k : Nat} {ended : List StateId}
    (h : (ended ++ st :: live).Perm (family ex state k)) :
    (ended ++ st :: (ex.nextState + k) :: live).Perm (family ex state (k + 1)) := by
  have happend := h.append_right [ex.nextState + k]
  rw [List.append_assoc] at happend
  rw [family_succ]
  exact .trans (.append_left ended (.cons st (List.perm_append_singleton _ live).symm)) happend

/-- A state is forked. -/
theorem Accounted.fork (h : Accounted ex state (st :: live) ex') (hlt : state < ex.nextState)
    {r : Option StateId × Option StateId} (hfork : ForkEnds ex' st s condition r ex'') :
    Accounted ex state (r.1.toList ++ r.2.toList ++ live) ex'' := by
  obtain ⟨k, l, hnext, hexplored, hstates⟩ := h.states
  have hst : st < ex'.nextState := h.lt hlt List.mem_cons_self
  have hold {x : StateId} (hx : x < ex.nextState) (hne : x ≠ state) :
      x ≠ st ∧ x ≠ ex'.nextState :=
    ⟨h.ne_of_lt List.mem_cons_self hx hne, Nat.ne_of_lt (Nat.lt_of_lt_of_le hx h.next_le)⟩
  have hbeyond {x : StateId} (hx : ex'.nextState + 1 ≤ x) : x ≠ st ∧ x ≠ ex'.nextState :=
    ⟨Nat.ne_of_gt (Nat.lt_trans hst hx), Nat.ne_of_gt hx⟩
  have hstates' := perm_family_succ hstates
  rw [← hnext] at hstates'
  cases hfork with
  | alone side s' hheap hnext' hexplored' _ =>
    have hsame : (alone st side).1.toList ++ (alone st side).2.toList ++ live = st :: live := by
      cases side <;> rfl
    rw [hsame]
    refine h.update (fun x hx => ?_) hnext' hexplored' hlt
    rw [hheap]
    exact Function.update_of_ne (List.ne_of_not_mem_cons hx) _ _
  | split a b hheap hnext' hexplored' _ _ =>
    have hother {x : StateId} (hx : x ≠ st ∧ x ≠ ex'.nextState) : ex''.heap x = ex'.heap x := by
      rw [hheap, Function.update_of_ne hx.2, Function.update_of_ne hx.1]
    refine ⟨fun x hx => ?_, fun x hx hne => ?_, k + 1, l, ?_, hexplored'.trans hexplored, hstates'⟩
    · rw [hnext'] at hx
      exact (hother (hbeyond hx)).trans (h.fresh x (Nat.le_of_succ_le hx))
    · exact (hother (hold hx hne)).trans (h.others x hx hne)
    · rw [hnext', hnext, Nat.add_assoc]
  | ended hheap hnext' hexplored' =>
    obtain ⟨l', hl', hids⟩ := hexplored'
    refine ⟨fun x hx => ?_, fun x hx hne => ?_, k + 1, l ++ l', ?_, ?_, ?_⟩
    · rw [hnext'] at hx
      exact (hheap x (hbeyond hx).1 (hbeyond hx).2).trans (h.fresh x (Nat.le_of_succ_le hx))
    · exact (hheap x (hold hx hne).1 (hold hx hne).2).trans (h.others x hx hne)
    · rw [hnext', hnext, Nat.add_assoc]
    · rw [hl', hexplored, List.append_assoc]
    · rw [List.map_append, hids, List.append_assoc]
      exact hstates'

/-- The other states are as they were. -/
theorem ForkEnds.heap {r : Option StateId × Option StateId} (h : ForkEnds ex st s condition r ex')
    {x : StateId} (hx : x ≠ st) (hnew : x ≠ ex.nextState) : ex'.heap x = ex.heap x := by
  cases h with
  | alone side s' hheap _ _ _ => rw [hheap, Function.update_of_ne hx]
  | split a b hheap _ _ _ _ => rw [hheap, Function.update_of_ne hnew, Function.update_of_ne hx]
  | ended hheap _ _ => exact hheap x hx hnew

/-- The state of a side that goes on. -/
theorem ForkEnds.narrowed {r : Option StateId × Option StateId} (h : ForkEnds ex st s condition r ex')
    (hlt : st < ex.nextState) {x : StateId} :
    (r.1 = some x → ∃ s', ex'.heap x = some s' ∧ Narrowed s s' fun σ => condition.Holds σ) ∧
      (r.2 = some x → ∃ s', ex'.heap x = some s' ∧ Narrowed s s' fun σ => ¬ condition.Holds σ) := by
  cases h with
  | alone side s' hheap _ _ h =>
    have hself : ex'.heap st = some s' := by rw [hheap, Function.update_self]
    cases side with
    | true =>
      refine ⟨fun hx => ?_, nofun⟩
      obtain rfl := Option.some.inj hx
      exact ⟨s', hself, h.mono fun _ hiff => hiff.mpr rfl⟩
    | false =>
      refine ⟨nofun, fun hx => ?_⟩
      obtain rfl := Option.some.inj hx
      exact ⟨s', hself, h.mono fun _ hiff hc => Bool.false_ne_true (hiff.mp hc)⟩
  | split a b hheap _ _ ha hb =>
    refine ⟨fun hx => ?_, fun hx => ?_⟩
    · obtain rfl := Option.some.inj hx
      refine ⟨a, ?_, ha⟩
      rw [hheap, Function.update_of_ne (Nat.ne_of_lt hlt), Function.update_self]
    · obtain rfl := Option.some.inj hx
      exact ⟨b, by rw [hheap, Function.update_self], hb⟩
  | ended _ _ _ => exact ⟨nofun, nofun⟩

end Accounted

end Klee.Executor
