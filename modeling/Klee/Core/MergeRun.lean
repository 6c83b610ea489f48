import Klee.Core.MergeHandlerSpec

/-! Merging over whole runs: no state is stranded at a close point. -/
namespace Klee.Merging

open Hoare

variable {s s₀ s' : MergeState} {h : HandlerId} {m m₀ : MergeHandler} {es x current : StateId}
variable {Q : Unit → MergeState → Prop} {E : MergeFault → Prop}

def MergeState.Alive (s : MergeState) (x : StateId) : Prop :=
  x ∈ s.executor.states ∨ x ∈ s.executor.addedStates

/-- Between the operations a handler has the states open that have it on their stacks. -/
def MergeState.view (s : MergeState) : View where
  isOpen h x := s.Alive x ∧ h ∈ s.executor.openMergeStack x
  extra _ := 0
  held x := x ∈ s.executor.states
  closing _ := False

structure Settled (s : MergeState) : Prop where
  inv : Inv s.view s
  nodup : (s.executor.states ++ s.executor.addedStates).Nodup
  sorted : ∀ x, s.Alive x → (s.executor.openMergeStack x).Pairwise (· < ·)
  handlers : ∀ x, s.Alive x → ∀ h ∈ s.executor.openMergeStack x, h < s.executor.nextHandler
  states : ∀ x, s.Alive x → x < s.executor.nextState

/-- What an instruction of the current state has done up to here: only that state is paused,
and it alone is removed. -/
structure Since (current : StateId) (s₀ s : MergeState) : Prop where
  states : s.executor.states = s₀.executor.states
  paused : ∀ h m, s.handlers h = some m → ∀ x ∈ m.closedStates, x = current ∨
    ∃ m₀, s₀.handlers h = some m₀ ∧ x ∈ m₀.closedStates
  kept : ∀ h m₀ m, s₀.handlers h = some m₀ → s.handlers h = some m →
    ∀ x ∈ m₀.closedStates, x ∈ m.closedStates

theorem Since.refl (s : MergeState) : Since current s s where
  states := rfl
  paused h m hm x hx := .inr ⟨m, hm, hx⟩
  kept h m₀ m hm₀ hm x hx := by
    obtain rfl := Option.some.inj (hm₀.symm.trans hm)
    exact hx

theorem Since.shrinks {e : MergeExecutor} (hs : Since current s₀ s)
    (hshrinks : Shrinks { s with executor := e } s') (he : e.states = s.executor.states) :
    Since current s₀ s' where
  states := by
    rw [hshrinks.executor]
    exact he.trans hs.states
  paused h m' hm' x hx := by
    obtain ⟨m, hm, heq⟩ := hshrinks.closed h m' hm'
    exact hs.paused h m hm x (heq ▸ hx)
  kept h m₀ m' hm₀ hm' x hx := by
    obtain ⟨m, hm, heq⟩ := hshrinks.closed h m' hm'
    rw [heq]
    exact hs.kept h m₀ m hm₀ hm x hx

section Operations

theorem Settled.nodup_stack (hs : Settled s) (hx : s.Alive x) :
    (s.executor.openMergeStack x).Nodup := (hs.sorted x hx).imp fun hlt => Nat.ne_of_lt hlt

theorem Settled.notMem_added (hs : Settled s) (hx : x ∈ s.executor.states) :
    x ∉ s.executor.addedStates := fun hx' => List.disjoint_of_nodup_append hs.nodup hx hx'

/-- A split of a state of the instruction. -/
theorem wp_fork (hs : Settled s) (hes : s.Alive es) (hsince : Since current s₀ s)
    (hQ : ∀ s', Settled s' → Since current s₀ s' →
      s'.executor.removedStates = s.executor.removedStates → (∀ x, s.Alive x → s'.Alive x) →
      s'.searcher = s.searcher → Q () s') : wp (fork es) Q E s := by
  have hnodup := hs.nodup_stack hes
  have hfresh : ¬ s.Alive s.executor.nextState := fun h => Nat.lt_irrefl _ (hs.states _ h)
  have hheld : s.executor.nextState ∉ s.searcher.pausedStates := fun h =>
    hfresh (.inl (hs.inv.paused_held _ h))
  unfold fork
  rw [wp_bind, wp_get, wp_bind]
  refine wp_modify.mpr ?_
  rw [wp_bind]
  refine wp_incAll (hs.inv.withExecutor _) hnodup (fun h hh => ?_) fun s₁ hinv₁ hs₁ hq₁ => ?_
  · exact hs.inv.exists_of_open h es ⟨hes, hh⟩
  rw [wp_bind]
  refine wp_addAll hinv₁ hnodup (fun h hh => ?_) (fun h _ ho => hfresh ho.1) (hq₁ ▸ hheld)
    fun s₂ hinv₂ hs₂ hq₂ => wp_modify.mpr ?_
  · simp [hh]
  have hexec : s₂.executor = { s.executor with
      nextState := s.executor.nextState + 1
      openMergeStack := Function.update s.executor.openMergeStack s.executor.nextState
        (s.executor.openMergeStack es) } := hs₂.executor.trans hs₁.executor
  generalize hs' : ({ s₂ with executor := { s₂.executor with
      addedStates := s₂.executor.addedStates ++ [s.executor.nextState] } } : MergeState) = s'
  have halive (x : StateId) : s'.Alive x ↔ s.Alive x ∨ x = s.executor.nextState := by
    rw [← hs', MergeState.Alive, MergeState.Alive, hexec, List.mem_append, List.mem_singleton,
      or_assoc]
  have hstack (x : StateId) : s'.executor.openMergeStack x = if x = s.executor.nextState then
      s.executor.openMergeStack es else s.executor.openMergeStack x := by
    rw [← hs', hexec]
    exact Function.update_apply _ _ _ _
  have hne (x : StateId) (hx : s.Alive x) : x ≠ s.executor.nextState := fun heq => hfresh (heq ▸ hx)
  -- a new state has the stack of `es`
  have hold (x : StateId) (hx : s'.Alive x) :
      ∃ y, s.Alive y ∧ s'.executor.openMergeStack x = s.executor.openMergeStack y := by
    rw [hstack]
    cases (halive x).mp hx with
    | inl hx => exact ⟨x, hx, if_neg (hne x hx)⟩
    | inr hx => exact ⟨es, hes, if_pos hx⟩
  have hstates : s'.executor.states = s.executor.states := by
    rw [← hs', hexec]
  refine hQ s' ⟨?_, ?_, fun x hx => ?_, fun x hx h hh => ?_, fun x hx => ?_⟩ ?_ ?_
    (fun x hx => (halive x).mpr (.inl hx)) ?_
  · rw [← hs']
    refine (hinv₂.withExecutor _).congr (fun h x => ?_) (fun h => ?_) (fun x => ?_) fun _ => Iff.rfl
    · rw [hs']
      show s'.Alive x ∧ h ∈ s'.executor.openMergeStack x ↔ (s.Alive x ∧ h ∈ s.executor.openMergeStack x)
        ∨ (x = s.executor.nextState ∧ h ∈ s.executor.openMergeStack es)
      rw [halive, hstack]
      by_cases hx : x = s.executor.nextState
      · have hnot : ¬ s.Alive x := fun h => hne x h hx
        simp [hx, hx ▸ hnot]
      · simp [hx]
    · simp [MergeState.view]
    · rw [hs']
      show x ∈ s'.executor.states ↔ x ∈ s.executor.states
      rw [hstates]
  · have hadded : s'.executor.addedStates = s.executor.addedStates ++ [s.executor.nextState] := by
      rw [← hs', hexec]
    rw [hstates, hadded, ← List.append_assoc, List.nodup_append]
    refine ⟨hs.nodup, List.nodup_singleton _, fun x hx y hy heq => ?_⟩
    rw [List.mem_singleton.mp hy] at heq
    exact hne x (List.mem_append.mp hx) heq
  · obtain ⟨y, hy, heq⟩ := hold x hx
    rw [heq]
    exact hs.sorted y hy
  · obtain ⟨y, hy, heq⟩ := hold x hx
    have hnext : s'.executor.nextHandler = s.executor.nextHandler := by
      rw [← hs', hexec]
    rw [hnext]
    exact hs.handlers y hy h (heq ▸ hh)
  · have hnext : s'.executor.nextState = s.executor.nextState + 1 := by
      rw [← hs', hexec]
    rw [hnext]
    cases (halive x).mp hx with
    | inl hx => exact Nat.lt_succ_of_lt (hs.states x hx)
    | inr hx => exact hx ▸ Nat.lt_succ_self _
  · have hshrinks := (hs₁.trans hs₂).withExecutor s'.executor
    rw [← hs'] at hshrinks ⊢
    refine hsince.shrinks hshrinks ?_
    rw [hs']
    exact hstates
  · rw [← hs', hexec]
  · rw [← hs']
    exact hq₂.trans hq₁

/-- What the invariant needs when states go away and stacks become shorter. -/
theorem Settled.sub (hs : Settled s) (hinv : Inv s'.view s')
    (hnodup : (s'.executor.states ++ s'.executor.addedStates).Nodup)
    (hstack : ∀ x, s'.Alive x → s.Alive x ∧
      (s'.executor.openMergeStack x).Sublist (s.executor.openMergeStack x))
    (hnext : s'.executor.nextState = s.executor.nextState)
    (hhandler : s'.executor.nextHandler = s.executor.nextHandler) : Settled s' where
  inv := hinv
  nodup := hnodup
  sorted x hx := (hs.sorted x (hstack x hx).1).sublist (hstack x hx).2
  handlers x hx h hh := by
    rw [hhandler]
    exact hs.handlers x (hstack x hx).1 h ((hstack x hx).2.subset hh)
  states x hx := by
    rw [hnext]
    exact hs.states x (hstack x hx).1

/-- No state was paused since. -/
theorem Shrinks.paused {v v' : View} {e : MergeExecutor} (hinv : Inv v s) (hinv' : Inv v' s')
    (hshrinks : Shrinks { s with executor := e } s') (hx : x ∈ s'.searcher.pausedStates) :
    x ∈ s.searcher.pausedStates := by
  obtain ⟨h, m', hm', hx⟩ := (hinv'.paused x).mp hx
  obtain ⟨m, hm, heq⟩ := hshrinks.closed h m' hm'
  exact (hinv.paused x).mpr ⟨h, m, hm, heq ▸ hx⟩

/-- A state that was added by the instruction is deleted at once. -/
theorem wp_terminate_added (hs : Settled s) (hes : es ∈ s.executor.addedStates)
    (hsince : Since current s₀ s)
    (hQ : ∀ s', Settled s' → Since current s₀ s' →
      s'.executor.removedStates = s.executor.removedStates →
      (∀ x ∈ s'.searcher.pausedStates, x ∈ s.searcher.pausedStates) → Q () s') :
    wp (terminateState es) Q E s := by
  have hnot : es ∉ s.executor.states := fun h => hs.notMem_added h hes
  have hadded : s.executor.addedStates.Nodup := (List.nodup_append.mp hs.nodup).2.1
  unfold terminateState
  rw [wp_bind, wp_get, if_pos hes, wp_bind]
  refine wp_modify.mpr ?_
  refine wp_deleteState (hs.inv.withExecutor _) (hs.nodup_stack (.inr hes)) (fun h => ?_)
    (fun _ => id) fun s' hinv hshrinks => ?_
  · exact and_iff_right (.inr hes)
  have hexec := hshrinks.executor
  have halive (x : StateId) : s'.Alive x ↔ s.Alive x ∧ x ≠ es := by
    rw [MergeState.Alive, hexec]
    show x ∈ s.executor.states ∨ x ∈ s.executor.addedStates.erase es ↔ _
    rw [hadded.mem_erase_iff, MergeState.Alive]
    constructor
    · rintro (hx | hx)
      · exact ⟨.inl hx, fun heq => hnot (heq ▸ hx)⟩
      · exact ⟨.inr hx.2, hx.1⟩
    · rintro ⟨hx | hx, hne⟩
      · exact .inl hx
      · exact .inr ⟨hne, hx⟩
  have hstack (x : StateId) (hne : x ≠ es) :
      s'.executor.openMergeStack x = s.executor.openMergeStack x := by
    rw [hexec]
    exact Function.update_of_ne hne _ _
  have hinv' : Inv s'.view s' := by
    refine hinv.congr (fun h x => ?_) (fun _ => rfl) (fun x => ?_) fun _ => Iff.rfl
    · show s'.Alive x ∧ h ∈ s'.executor.openMergeStack x ↔
        (s.Alive x ∧ h ∈ s.executor.openMergeStack x) ∧ x ≠ es
      rw [halive, and_right_comm]
      exact and_congr_left fun hne => by rw [hstack x hne]
    · show x ∈ s'.executor.states ↔ x ∈ s.executor.states
      rw [hexec]
  refine hQ s' (hs.sub hinv' ?_ (fun x hx => ?_) ?_ ?_) (hsince.shrinks hshrinks rfl) ?_
    fun x hx => hshrinks.paused (hs.inv.withExecutor _) hinv' hx
  · rw [hexec]
    exact hs.nodup.sublist (List.erase_sublist.append_left _)
  · obtain ⟨hx, hne⟩ := (halive x).mp hx
    rw [hstack x hne]
    exact ⟨hx, List.Sublist.refl _⟩
  · rw [hexec]
  · rw [hexec]
  · rw [hexec]

/-- The current state is only marked. -/
theorem wp_terminate_current (hs : Settled s) (hcurrent : current ∈ s.executor.states)
    (hsince : Since current s₀ s)
    (hQ : ∀ s', Settled s' → Since current s₀ s' →
      s'.executor = { s.executor with
        removedStates := s.executor.removedStates ++ [current] } →
      s'.searcher = s.searcher → Q () s') : wp (terminateState current) Q E s := by
  unfold terminateState
  rw [wp_bind, wp_get, if_neg (hs.notMem_added hcurrent)]
  refine wp_modify.mpr (hQ _ ?_ ?_ rfl rfl)
  · exact { hs with inv := hs.inv.withExecutor _ }
  · exact { hsince with }

/-- In an instruction other than those for merging, the current state is not paused. -/
structure Running (current : StateId) (s₀ s : MergeState) : Prop where
  settled : Settled s
  since : Since current s₀ s
  held : current ∈ s.executor.states
  removed : s.executor.removedStates = [] ∨ s.executor.removedStates = [current]
  unpaused : current ∉ s.searcher.pausedStates

theorem wp_stateOp (hr : Running current s₀ s) (op : StateOp) :
    wp (op.exec current) (fun _ s' => Running current s₀ s') (· = .notRunning) s := by
  have hheld {s' : MergeState} (h : Since current s₀ s') : current ∈ s'.executor.states := by
    rw [h.states, ← hr.since.states]
    exact hr.held
  cases op with
  | fork es =>
    unfold StateOp.exec
    rw [wp_bind, wp_get, wp_ite]
    constructor
    · intro hes
      have halive : s.Alive es := by
        cases hes with
        | inl heq => exact .inl (heq ▸ hr.held)
        | inr hadded => exact .inr hadded
      refine wp_fork hr.settled halive hr.since fun s' hs' hsince hremoved _ hq => ?_
      exact ⟨hs', hsince, hheld hsince, hremoved ▸ hr.removed, hq ▸ hr.unpaused⟩
    · intro _
      exact wp_throw.mpr rfl
  | terminate es =>
    unfold StateOp.exec
    rw [wp_bind, wp_get, wp_ite]
    constructor
    · intro hes
      cases hes with
      | inl heq =>
        obtain ⟨rfl, hnot⟩ := heq
        refine wp_terminate_current hr.settled hr.held hr.since fun s' hs' hsince hexec hq => ?_
        refine ⟨hs', hsince, hheld hsince, .inr ?_, hq ▸ hr.unpaused⟩
        rw [hexec]
        cases hr.removed with
        | inl hnil => simp [hnil]
        | inr hone =>
          rw [hone] at hnot
          exact absurd List.mem_cons_self hnot
      | inr hadded =>
        refine wp_terminate_added hr.settled hadded hr.since
          fun s' hs' hsince hremoved hpaused => ?_
        exact ⟨hs', hsince, hheld hsince, hremoved ▸ hr.removed,
          fun hp => hr.unpaused (hpaused _ hp)⟩
    · intro _
      exact wp_throw.mpr rfl

theorem wp_stateOps (hr : Running current s₀ s) (ops : List StateOp) :
    wp (ops.forM (·.exec current)) (fun _ s' => Running current s₀ s') (· = .notRunning) s :=
  wp_forM (I := fun _ s => Running current s₀ s) ops hr fun op _ _ h => wp_stateOp h op

/-- Every handler has an open state. -/
theorem Settled.exists_open (hs : Settled s) (hm : s.handlers h = some m) :
    ∃ y ∈ m.openStates, s.Alive y ∧ h ∈ s.executor.openMergeStack y := by
  have hcount := hs.inv.refCount h m hm
  have hpos := hs.inv.pos h m hm
  have hlen : 0 < m.openStates.length := by
    have hextra : s.view.extra h = 0 := rfl
    omega
  obtain ⟨y, hy⟩ := List.exists_mem_of_length_pos hlen
  exact ⟨y, hy, (hs.inv.openStates h m hm y).mp hy⟩

/-- The handlers that are still to be made. -/
theorem Settled.handlers_none (hs : Settled s) (hle : s.executor.nextHandler ≤ h) :
    s.handlers h = none := by
  cases hm : s.handlers h with
  | none => rfl
  | some m =>
    obtain ⟨x, -, hlive, hstack⟩ := hs.exists_open hm
    exact absurd (hs.handlers x hlive h hstack) (Nat.not_lt.mpr hle)

theorem wp_handleOpenMerge (hr : Running current s s) :
    wp (handleOpenMerge current) (fun _ s' => Running current s s') E s := by
  have hfresh : s.handlers s.executor.nextHandler = none := hr.settled.handlers_none le_rfl
  have hinv := hr.settled.inv.create hfresh hr.unpaused
  unfold handleOpenMerge addOpenState incRef
  rw [wp_bind, wp_get, wp_bind]
  refine wp_modify.mpr ?_
  rw [wp_bind]
  refine wp_modify.mpr ?_
  rw [wp_bind]
  refine wp_setHandler ?_
  rw [wp_bind]
  refine wp_modifyHandler handlers_withHandler_self ?_
  rw [wp_bind]
  refine wp_modifyHandler handlers_withHandler_self (wp_modify.mpr ?_)
  -- the five steps together
  generalize hstack : s.executor.openMergeStack current ++ [s.executor.nextHandler] = stack
  suffices hnew : Running current s { s.withNew s.executor.nextHandler current with
      executor := { s.executor with
        nextHandler := s.executor.nextHandler + 1
        openMergeStack := Function.update s.executor.openMergeStack current stack } } by
    simpa only [MergeState.withHandler, MergeState.withNew, Function.update_idem,
      List.nil_append, Nat.zero_add] using hnew
  have hheld : s.Alive current := .inl hr.held
  have hlt (x : StateId) (hx : s.Alive x) (h : HandlerId) (hh : h ∈ s.executor.openMergeStack x) :
      h < s.executor.nextHandler := hr.settled.handlers x hx h hh
  refine ⟨⟨?_, hr.settled.nodup, fun x hx => ?_, fun x hx h hh => ?_, hr.settled.states⟩,
    ⟨rfl, fun h m hm x hx => ?_, fun h m₀ m hm₀ hm x hx => ?_⟩, hr.held, hr.removed,
    hr.unpaused⟩
  · refine (hinv.withExecutor _).congr (fun h x => ?_) (fun _ => rfl) (fun _ => Iff.rfl)
      fun _ => Iff.rfl
    show s.Alive x ∧ h ∈ Function.update s.executor.openMergeStack current stack x ↔
      Function.update s.view.isOpen s.executor.nextHandler (· = current) h x
    by_cases hx : x = current
    · subst hx
      rw [Function.update_self, ← hstack, List.mem_append, List.mem_singleton]
      by_cases hh : h = s.executor.nextHandler
      · subst hh
        simp [hheld]
      · rw [Function.update_of_ne hh]
        simp [hh, MergeState.view]
    · rw [Function.update_of_ne hx]
      by_cases hh : h = s.executor.nextHandler
      · subst hh
        rw [Function.update_self]
        exact iff_of_false (fun ho => Nat.lt_irrefl _ (hlt x ho.1 _ ho.2)) hx
      · rw [Function.update_of_ne hh]
        exact Iff.rfl
  · show (Function.update s.executor.openMergeStack current stack x).Pairwise (· < ·)
    by_cases heq : x = current
    · subst heq
      rw [Function.update_self, ← hstack, List.pairwise_append]
      refine ⟨hr.settled.sorted x hheld, List.pairwise_singleton _ _, fun a ha b hb => ?_⟩
      rw [List.mem_singleton.mp hb]
      exact hlt x hheld a ha
    · rw [Function.update_of_ne heq]
      exact hr.settled.sorted x hx
  · have hh : h ∈ Function.update s.executor.openMergeStack current stack x := hh
    show h < s.executor.nextHandler + 1
    by_cases heq : x = current
    · subst heq
      rw [Function.update_self, ← hstack, List.mem_append, List.mem_singleton] at hh
      cases hh with
      | inl hh => exact Nat.lt_succ_of_lt (hlt x hheld h hh)
      | inr hh => exact hh ▸ Nat.lt_succ_self _
    · rw [Function.update_of_ne heq] at hh
      exact Nat.lt_succ_of_lt (hlt x hx h hh)
  · exact .inr ⟨m, withNew_closed hm hx, hx⟩
  · obtain rfl := Option.some.inj ((withNew_old hfresh hm₀).symm.trans hm)
    exact hx

structure Executed (current : StateId) (s₀ s : MergeState) : Prop where
  settled : Settled s
  since : Since current s₀ s
  held : current ∈ s.executor.states
  removed : s.executor.removedStates = [] ∨ s.executor.removedStates = [current]
  idle : current ∈ s.searcher.pausedStates →
    s.executor.addedStates = [] ∧ s.executor.removedStates = []

theorem Running.executed (hr : Running current s₀ s) : Executed current s₀ s where
  settled := hr.settled
  since := hr.since
  held := hr.held
  removed := hr.removed
  idle hpaused := absurd hpaused hr.unpaused

/-- The view while the current state leaves the handler `h`. -/
def MergeState.leaving (s : MergeState) (h : HandlerId) (current : StateId) : View where
  isOpen h' x := (s.Alive x ∧ h' ∈ s.executor.openMergeStack x) ∧ ¬ (h' = h ∧ x = current)
  extra h' := if h' = h then 1 else 0
  held x := x ∈ s.executor.states
  closing _ := False

/-- The end of `handleCloseMerge`: the handler goes from the stack. -/
theorem wp_popStack {stack : List HandlerId} {removed : List StateId} (hs : Settled s)
    (hcurrent : current ∈ s.executor.states)
    (hstack : s.executor.openMergeStack current = stack ++ [h])
    (hexec : s'.executor = { s.executor with removedStates := removed })
    (hinv : Inv (s.leaving h current) s') (hsince : Since current s s')
    (hQ : ∀ s'', Settled s'' → Since current s s'' → s''.executor.states = s.executor.states →
      s''.executor.addedStates = s.executor.addedStates → s''.executor.removedStates = removed →
      (∀ x ∈ s''.searcher.pausedStates, x ∈ s'.searcher.pausedStates) → Q () s'') :
    wp (do setStack current stack; decRef h) Q E s' := by
  have hsorted := hs.sorted current (.inl hcurrent)
  have hnot : h ∉ stack := by
    intro hmem
    rw [hstack, List.pairwise_append] at hsorted
    exact Nat.lt_irrefl h (hsorted.2.2 h hmem h (List.mem_singleton.mpr rfl))
  rw [wp_bind]
  refine wp_modify.mpr (wp_decRef (hinv.withExecutor _) ?_ (fun _ _ => id) fun s'' hinv'' hs'' => ?_)
  · show 0 < if h = h then 1 else 0
    rw [if_pos rfl]
    exact Nat.one_pos
  have hexec'' : s''.executor = { s.executor with
      removedStates := removed
      openMergeStack := Function.update s.executor.openMergeStack current stack } := by
    rw [hs''.executor, hexec]
  have halive (x : StateId) : s''.Alive x ↔ s.Alive x := by
    rw [MergeState.Alive, hexec'']
    exact Iff.rfl
  have hnew (x : StateId) : s''.executor.openMergeStack x =
      if x = current then stack else s.executor.openMergeStack x := by
    rw [hexec'']
    exact Function.update_apply _ _ _ _
  have hinvNew : Inv s''.view s'' := by
    refine hinv''.congr (fun h' x => ?_) (fun h' => ?_) (fun x => ?_) fun _ => Iff.rfl
    · show s''.Alive x ∧ h' ∈ s''.executor.openMergeStack x ↔
        (s.Alive x ∧ h' ∈ s.executor.openMergeStack x) ∧ ¬ (h' = h ∧ x = current)
      rw [halive, hnew]
      by_cases hx : x = current
      · rw [if_pos hx, hx, hstack, List.mem_append, List.mem_singleton]
        have hne (hmem : h' ∈ stack) : h' ≠ h := fun heq => hnot (heq ▸ hmem)
        tauto
      · simp [hx]
    · show 0 = Function.update (fun h' => if h' = h then 1 else 0) h ((if h = h then 1 else 0) - 1) h'
      by_cases heq : h' = h
      · simp [heq]
      · simp [heq]
    · show x ∈ s''.executor.states ↔ x ∈ s.executor.states
      rw [hexec'']
  refine hQ s'' (hs.sub hinvNew ?_ (fun x hx => ⟨(halive x).mp hx, ?_⟩) ?_ ?_) ?_ ?_ ?_ ?_
    fun x hx => hs''.paused hinv hinvNew hx
  · rw [hexec'']
    exact hs.nodup
  · rw [hnew]
    by_cases heq : x = current
    · rw [if_pos heq, heq, hstack]
      exact List.sublist_append_left _ _
    · rw [if_neg heq]
  · rw [hexec'']
  · rw [hexec'']
  · refine hsince.shrinks hs'' ?_
    rfl
  · rw [hexec'']
  · rw [hexec'']
  · rw [hexec'']

/-- The state leaves the handler: it was merged, or it waits. -/
theorem wp_addClosedState (mp : Nat) (merges : StateId → Bool) {s₁ : MergeState}
    {stack : List HandlerId} (hr : Running current s s) (hremoved : s.executor.removedStates = [])
    (hstack : s.executor.openMergeStack current = stack ++ [h])
    (hinv : Inv { s.view with closing := (· = current) } s₁) (hs₁ : Shrinks s s₁)
    (hpaused : current ∉ s₁.searcher.pausedStates) (hsince : Since current s s₁)
    (hQ : ∀ s' removed, Inv (s.leaving h current) s' →
      s'.executor = { s.executor with removedStates := removed } → Since current s s' →
      (removed = [] ∨ removed = [current] ∧ current ∉ s'.searcher.pausedStates) → Q () s') :
    wp (addClosedState h current mp merges) Q E s₁ := by
  have hheld : s.Alive current := .inl hr.held
  have hopen : s.view.isOpen h current := by
    refine ⟨hheld, ?_⟩
    rw [hstack]
    exact List.mem_append_right _ (List.mem_singleton.mpr rfl)
  unfold addClosedState
  rw [wp_bind]
  refine wp_removeOpenState hinv hopen fun s₂ hinv₂ hs₂ hq₂ => ?_
  have hexec : s₂.executor = s.executor := hs₂.executor.trans hs₁.executor
  have hpaused₂ : current ∉ s₂.searcher.pausedStates := hq₂ ▸ hpaused
  have hleaving (s' : MergeState) (hinv : Inv { View.close s.view h current with
      closing := fun _ => False } s') : Inv (s.leaving h current) s' := by
    refine hinv.congr (fun h' x => ?_) (fun h' => ?_) (fun _ => Iff.rfl) fun _ => Iff.rfl
    · by_cases heq : h' = h
      · simp [View.close, heq, MergeState.leaving, MergeState.view]
      · simp [View.close, heq, MergeState.leaving, MergeState.view]
    · by_cases heq : h' = h
      · simp [View.close, heq, MergeState.leaving, MergeState.view]
      · simp [View.close, heq, MergeState.leaving, MergeState.view]
  have hsince₂ : Since current s s₂ := hsince.shrinks (e := s₁.executor) hs₂ rfl
  obtain ⟨m, hm⟩ := hinv₂.exists_of_extra h (by simp [View.close])
  rw [wp_bind]
  refine wp_readHandler hm ?_
  cases (m.reachedCloseMerge.lookup mp).bind (·.find? merges) with
  | some _ =>
    dsimp only
    unfold terminateState
    rw [wp_bind, wp_bind, wp_get, hexec, if_neg (hr.settled.notMem_added hr.held)]
    refine wp_modify.mpr (wp_modify.mpr ?_)
    have hclosed := hinv₂.withClosing (s₂.searcher.inCloseMerge.erase current) (fun _ => False)
      fun x => by
        rw [Finset.mem_erase, hinv₂.inCloseMerge]
        have hne (hx : x ∈ s₂.searcher.pausedStates) : x ≠ current := fun heq => hpaused₂ (heq ▸ hx)
        show x ≠ current ∧ (x ∈ s₂.searcher.pausedStates ∨ x = current) ↔ _ ∨ False
        tauto
    refine hQ _ [current] ((hleaving _ hclosed).withExecutor _) ?_ ?_ (.inr ⟨rfl, hpaused₂⟩)
    · show { s₂.executor with removedStates := s₂.executor.removedStates ++ [current] } = _
      rw [hexec, hremoved, List.nil_append]
    · exact ⟨hsince₂.states, hsince₂.paused, hsince₂.kept⟩
  | none =>
    have hbase : current ∈ s₂.searcher.base := (hinv₂.base current).mpr ⟨hr.held, hpaused₂⟩
    dsimp only
    unfold waitClosed pauseState
    rw [wp_bind]
    refine wp_modifyHandler hm ?_
    rw [wp_bind, wp_get]
    rw [if_neg (show current ∉ (s₂.withHandler h _).searcher.pausedStates from hpaused₂),
      if_pos (show current ∈ (s₂.withHandler h _).searcher.base from hbase)]
    refine wp_modify.mpr ?_
    have hwait : Inv (s.leaving h current) (s₂.withClosed h m mp current) := by
      refine hleaving _ (hinv₂.push hm hr.held hpaused₂ (fun x => Iff.rfl) fun h' ho => ?_)
      by_cases heq : h' = h
      · simp [View.close, heq] at ho
      · have ho : s.Alive current ∧ h' ∈ s.executor.openMergeStack current := by
          simpa [View.close, heq, MergeState.view] using ho
        have hsorted := hr.settled.sorted current hheld
        rw [hstack, List.pairwise_append] at hsorted
        rw [hstack, List.mem_append, List.mem_singleton] at ho
        exact hsorted.2.2 h' (ho.2.resolve_right heq) h (List.mem_singleton.mpr rfl)
    refine hQ _ [] hwait ?_ ?_ (.inl rfl)
    · show s₂.executor = _
      rw [hexec, ← hremoved]
    · refine ⟨hsince₂.states, fun h' m' hm' x hx => ?_, fun h' m₀ m' hm₀ hm' x hx => ?_⟩
      · cases withClosed_closed hm hm' hx with
        | inl hnew => exact .inl hnew.2
        | inr hold =>
          obtain ⟨m₂, hm₂, hx⟩ := hold
          exact hsince₂.paused h' m₂ hm₂ x hx
      · cases withClosed_cases hm' with
        | inl hnew =>
          obtain ⟨rfl, rfl⟩ := hnew
          exact mem_push.mpr (.inr (hsince₂.kept h' m₀ m hm₀ hm x hx))
        | inr hold => exact hsince₂.kept h' m₀ m' hm₀ hold.2 x hx

theorem wp_handleCloseMerge (mp : Nat) (merges : StateId → Bool) (hr : Running current s s)
    (hadded : s.executor.addedStates = []) (hremoved : s.executor.removedStates = []) :
    wp (handleCloseMerge current mp merges) (fun _ s' => Executed current s s') E s := by
  have hinv := hr.settled.inv
  unfold handleCloseMerge
  rw [wp_bind, wp_get]
  cases hlast : (s.executor.openMergeStack current).getLast? with
  | none => exact wp_pure.mpr hr.executed
  | some h =>
    obtain ⟨stack, hstack⟩ := List.getLast?_eq_some_iff.mp hlast
    have hclosing : current ∉ s.searcher.inCloseMerge := by
      rw [hinv.inCloseMerge]
      rintro (hp | hc)
      · exact hr.unpaused hp
      · exact hc
    have hdrop : (s.executor.openMergeStack current).dropLast = stack := by
      rw [hstack, List.dropLast_concat]
    dsimp only
    rw [if_neg hclosing, hdrop, wp_bind]
    refine wp_modify.mpr ?_
    have hinv₁ := hinv.withClosing (insert current s.searcher.inCloseMerge) (· = current)
      fun x => by
        rw [Finset.mem_insert, hinv.inCloseMerge]
        exact or_comm.trans (or_congr_left (or_iff_left id))
    rw [wp_bind]
    refine wp_addClosedState mp merges hr hremoved hstack hinv₁ ⟨rfl, fun h m hm => ⟨m, hm, rfl⟩⟩
      hr.unpaused { hr.since with } fun s' removed hinv' hexec' hsince' hor => ?_
    refine wp_popStack hr.settled hr.held hstack hexec' hinv' hsince'
      fun s'' hs'' hsince'' hstates hadded'' hremoved'' hpaused'' => ?_
    refine ⟨hs'', hsince'', hstates ▸ hr.held, ?_, fun hp => ⟨hadded''.trans hadded, ?_⟩⟩
    · rw [hremoved'']
      exact hor.imp_right (·.1)
    · rw [hremoved'']
      cases hor with
      | inl hnil => exact hnil
      | inr hone => exact absurd (hpaused'' _ hp) hone.2

end Operations

section Update

structure Quiet (s : MergeState) : Prop where
  settled : Settled s
  added : s.executor.addedStates = []
  removed : s.executor.removedStates = []

/-- What a round has done after the selection of `current`. -/
structure Round (current : StateId) (s₀ s' : MergeState) : Prop where
  quiet : Quiet s'
  /-- Only the current state can go. -/
  states : ∀ x ∈ s₀.executor.states, x ≠ current → x ∈ s'.executor.states
  paused : ∀ h m, s'.handlers h = some m → ∀ x ∈ m.closedStates, x = current ∨
    ∃ m₀, s₀.handlers h = some m₀ ∧ x ∈ m₀.closedStates
  kept : ∀ h m₀ m, s₀.handlers h = some m₀ → s'.handlers h = some m →
    ∀ x ∈ m₀.closedStates, x ∈ m.closedStates

def MergeState.coming (s : MergeState) (x : StateId) : Prop :=
  s.Alive x ∧ x ∉ s.executor.removedStates

/-- The searcher hears of the states. -/
theorem wp_update (he : Executed current s₀ s)
    (hQ : ∀ s', Inv { s.view with held := s.coming } s' → s'.executor = s.executor →
      s'.handlers = s.handlers → Q () s') :
    wp (update current s.executor.addedStates s.executor.removedStates) Q E s := by
  have hinv := he.settled.inv
  have hadded (x : StateId) (hx : x ∈ s.executor.addedStates) : x ∉ s.searcher.pausedStates :=
    fun hp => he.settled.notMem_added (hinv.paused_held x hp) hx
  unfold update
  rw [wp_bind, wp_get, wp_ite]
  constructor
  · intro hp
    obtain ⟨hadded, hremoved⟩ := he.idle hp
    refine wp_pure.mpr (hQ s (hinv.congr (fun _ _ => Iff.rfl) (fun _ => rfl) (fun x => ?_)
      fun _ => Iff.rfl) rfl rfl)
    show s.Alive x ∧ x ∉ s.executor.removedStates ↔ x ∈ s.executor.states
    rw [MergeState.Alive, hadded, hremoved]
    simp
  intro hunpaused
  rw [wp_bind]
  refine wp_modify.mpr ?_
  have hbase : (s.searcher.base ++ s.executor.addedStates).Nodup := by
    refine List.nodup_append.mpr ⟨hinv.base_nodup, (List.nodup_append.mp he.settled.nodup).2.1,
      fun a ha b hb heq => ?_⟩
    exact he.settled.notMem_added ((hinv.base a).mp ha).1 (heq ▸ hb)
  have hmem (x : StateId) : x ∈ s.searcher.base ++ s.executor.addedStates ↔
      s.Alive x ∧ x ∉ s.searcher.pausedStates := by
    rw [List.mem_append, hinv.base]
    show (x ∈ s.executor.states ∧ _) ∨ _ ↔ (x ∈ s.executor.states ∨ x ∈ s.executor.addedStates) ∧ _
    have := hadded x
    tauto
  cases he.removed with
  | inl hnil =>
    rw [hnil]
    refine wp_pure.mpr (hQ _ (hinv.withBase _ s.coming hbase (fun x => ?_) fun x hx => ?_) rfl rfl)
    · rw [hmem, MergeState.coming, hnil]
      simp
    · refine ⟨.inl (hinv.paused_held x hx), ?_⟩
      rw [hnil]
      exact List.not_mem_nil
  | inr hone =>
    rw [hone]
    refine wp_bind.mpr ?_
    unfold removeFromBase
    rw [wp_bind, wp_get]
    rw [if_pos (show current ∈ s.searcher.base ++ s.executor.addedStates from
      (hmem current).mpr ⟨.inl he.held, hunpaused⟩)]
    refine wp_modify.mpr (wp_pure.mpr (hQ _ (hinv.withBase _ s.coming (hbase.erase current)
      (fun x => ?_) fun x hx => ?_) rfl rfl))
    · rw [hbase.mem_erase_iff, hmem, MergeState.coming, hone, List.mem_singleton]
      tauto
    · refine ⟨.inl (hinv.paused_held x hx), ?_⟩
      rw [hone, List.mem_singleton]
      exact fun heq => hunpaused (heq ▸ hx)

/-- The end of a round, once the executor and the handlers have what they shall have. -/
theorem Executed.round (he : Executed current s₀ s) {v : View} (hinv : Inv v s')
    (hstates : ∀ x, x ∈ s'.executor.states ↔ s.coming x) (hnodup : s'.executor.states.Nodup)
    (hadded : s'.executor.addedStates = []) (hremoved : s'.executor.removedStates = [])
    (hstack : ∀ x, s.coming x → s'.executor.openMergeStack x = s.executor.openMergeStack x)
    (hnext : s'.executor.nextState = s.executor.nextState)
    (hhandler : s'.executor.nextHandler = s.executor.nextHandler)
    (hopen : ∀ h x, v.isOpen h x ↔ s.coming x ∧ h ∈ s.executor.openMergeStack x)
    (hextra : ∀ h, v.extra h = 0) (hheld : v.held = s.coming) (hclosing : ∀ x, ¬ v.closing x)
    (hclosed : ∀ h m', s'.handlers h = some m' → ∃ m, s.handlers h = some m ∧
      m'.closedStates = m.closedStates) : Round current s₀ s' := by
  have halive (x : StateId) : s'.Alive x ↔ s.coming x := by
    rw [MergeState.Alive, hadded, hstates]
    exact or_iff_left List.not_mem_nil
  refine ⟨⟨he.settled.sub ?_ ?_ (fun x hx => ?_) hnext hhandler, hadded, hremoved⟩,
    fun x hx hne => ?_, fun h m' hm' x hx => ?_, fun h m₀ m' hm₀ hm' x hx => ?_⟩
  · refine hinv.congr (fun h x => ?_) (fun h => (hextra h).symm) (fun x => ?_)
      fun x => iff_of_false id (hclosing x)
    · show s'.Alive x ∧ h ∈ s'.executor.openMergeStack x ↔ v.isOpen h x
      rw [hopen, halive]
      exact and_congr_right fun hx => by rw [hstack x hx]
    · rw [hheld]
      exact hstates x
  · rw [hadded, List.append_nil]
    exact hnodup
  · have hcoming := (halive x).mp hx
    rw [hstack x hcoming]
    exact ⟨hcoming.1, List.Sublist.refl _⟩
  · rw [hstates]
    refine ⟨.inl (he.since.states ▸ hx), ?_⟩
    cases he.removed with
    | inl hnil =>
      rw [hnil]
      exact List.not_mem_nil
    | inr hone =>
      rw [hone, List.mem_singleton]
      exact hne
  · obtain ⟨m, hm, heq⟩ := hclosed h m' hm'
    exact he.since.paused h m hm x (heq ▸ hx)
  · obtain ⟨m, hm, heq⟩ := hclosed h m' hm'
    rw [heq]
    exact he.since.kept h m₀ m hm₀ hm x hx

theorem wp_updateStates (he : Executed current s₀ s) :
    wp (updateStates current) (fun _ s' => Round current s₀ s') E s := by
  unfold updateStates
  rw [wp_bind, wp_get, wp_bind]
  refine wp_update he fun s₁ hinv₁ hexec₁ hhandlers₁ => ?_
  rw [wp_bind]
  refine wp_modify.mpr ?_
  rw [wp_bind]
  cases he.removed with
  | inl hnil =>
    rw [hnil]
    refine wp_pure.mpr (wp_modify.mpr ?_)
    have hcoming (x : StateId) : s.coming x ↔ s.Alive x := by
      rw [MergeState.coming, hnil]
      exact and_iff_left List.not_mem_nil
    refine he.round (hinv₁.withExecutor _) (fun x => ?_) ?_ rfl rfl (fun x _ => ?_) ?_ ?_
      (fun h x => ?_) (fun _ => rfl) rfl (fun _ => id) fun h m hm => ⟨m, hhandlers₁ ▸ hm, rfl⟩
    · show x ∈ s₁.executor.states ++ s₁.executor.addedStates ↔ _
      rw [hexec₁, List.mem_append, hcoming]
      exact Iff.rfl
    · show (s₁.executor.states ++ s₁.executor.addedStates).Nodup
      rw [hexec₁]
      exact he.settled.nodup
    · show s₁.executor.openMergeStack x = _
      rw [hexec₁]
    · show s₁.executor.nextState = _
      rw [hexec₁]
    · show s₁.executor.nextHandler = _
      rw [hexec₁]
    · rw [hcoming]
      exact Iff.rfl
  | inr hone =>
    rw [hone]
    refine wp_bind.mpr ?_
    unfold removeState
    rw [wp_bind, wp_get, hexec₁]
    rw [if_pos (show current ∈ s.executor.states ++ s.executor.addedStates from
      List.mem_append_left _ he.held), wp_bind]
    refine wp_modify.mpr ?_
    have hcoming (x : StateId) : s.coming x ↔ s.Alive x ∧ x ≠ current := by
      rw [MergeState.coming, hone, List.mem_singleton]
    refine wp_deleteState (hinv₁.withExecutor _) (he.settled.nodup_stack (.inl he.held))
      (fun h => and_iff_right (.inl he.held)) (fun _ => id) fun s' hinv' hs' => ?_
    refine wp_pure.mpr (wp_modify.mpr ?_)
    have hexec' := hs'.executor
    refine he.round (hinv'.withExecutor _) (fun x => ?_) ?_ ?_ rfl (fun x hx => ?_) ?_ ?_
      (fun h x => ?_) (fun _ => rfl) rfl (fun _ => id) fun h m hm => ?_
    · show x ∈ s'.executor.states ↔ _
      rw [hexec']
      show x ∈ (s.executor.states ++ s.executor.addedStates).erase current ↔ _
      rw [he.settled.nodup.mem_erase_iff, List.mem_append, hcoming, and_comm]
      exact Iff.rfl
    · show s'.executor.states.Nodup
      rw [hexec']
      exact he.settled.nodup.erase current
    · show s'.executor.addedStates = []
      rw [hexec']
    · show s'.executor.openMergeStack x = _
      rw [hexec']
      exact Function.update_of_ne ((hcoming x).mp hx).2 _ _
    · show s'.executor.nextState = _
      rw [hexec']
    · show s'.executor.nextHandler = _
      rw [hexec']
    · rw [hcoming]
      exact and_right_comm
    · obtain ⟨m₁, hm₁, heq⟩ := hs'.closed h m hm
      exact ⟨m₁, hhandlers₁ ▸ hm₁, heq⟩

end Update

section Select

/-- From a handler to that for which its open state waits, the identifiers grow. -/
theorem Settled.exists_unpaused_of_handler (hs : Settled s) (n : Nat)
    (hn : s.executor.nextHandler ≤ h + n) (hm : s.handlers h = some m) :
    ∃ y, s.Alive y ∧ y ∉ s.searcher.pausedStates := by
  induction n generalizing h m with
  | zero =>
    rw [hs.handlers_none (show s.executor.nextHandler ≤ h from hn)] at hm
    cases hm
  | succ n ih =>
    obtain ⟨y, -, halive, hstack⟩ := hs.exists_open hm
    by_cases hp : y ∈ s.searcher.pausedStates
    · obtain ⟨h', m', hm', hy⟩ := (hs.inv.paused y).mp hp
      have hlt : h < h' := hs.inv.newer h' m' y h hm' hy ⟨halive, hstack⟩
      have hle : s.executor.nextHandler ≤ h' + n := calc
        s.executor.nextHandler ≤ h + (n + 1) := hn
        _ = (h + 1) + n := by rw [Nat.add_right_comm, Nat.add_assoc]
        _ ≤ h' + n := Nat.add_le_add_right hlt n
      exact ih hle hm'
    · exact ⟨y, halive, hp⟩

theorem Quiet.alive_iff (hq : Quiet s) : s.Alive x ↔ x ∈ s.executor.states := by
  rw [MergeState.Alive, hq.added]
  exact or_iff_left List.not_mem_nil

theorem Quiet.exists_unpaused (hq : Quiet s) (hne : s.executor.states ≠ []) :
    ∃ y ∈ s.executor.states, y ∉ s.searcher.pausedStates := by
  obtain ⟨x, hx⟩ := List.exists_mem_of_ne_nil _ hne
  by_cases hp : x ∈ s.searcher.pausedStates
  · obtain ⟨h, m, hm, -⟩ := (hq.settled.inv.paused x).mp hp
    obtain ⟨y, halive, hy⟩ := hq.settled.exists_unpaused_of_handler s.executor.nextHandler
      (Nat.le_add_left _ h) hm
    exact ⟨y, hq.alive_iff.mp halive, hy⟩
  · exact ⟨x, hx, hp⟩

theorem Quiet.base_ne_nil (hq : Quiet s) (hne : s.executor.states ≠ []) :
    s.searcher.base ≠ [] := by
  obtain ⟨y, hy, hp⟩ := hq.exists_unpaused hne
  exact List.ne_nil_of_mem ((hq.settled.inv.base y).mpr ⟨hy, hp⟩)

/-- The selection may only release states. -/
theorem Quiet.of_executor (hq : Quiet s) (hs' : Settled s') (hexec : s'.executor = s.executor) :
    Quiet s' := ⟨hs', hexec ▸ hq.added, hexec ▸ hq.removed⟩

variable (c : Config)

theorem wp_selectMerging {hs : List HandlerId} (hset : Settled s)
    (hgroups : ∀ h ∈ hs, ∃ m, s.handlers h = some m)
    {Q : Option StateId → MergeState → Prop}
    (hQ : ∀ s' r, Settled s' → s'.executor = s.executor →
      (∀ es, r = some es → s.Alive es ∧ es ∉ s'.searcher.pausedStates) → Q r s') :
    wp (selectMerging c hs) Q E s := by
  induction hs generalizing s with
  | nil => exact hQ s none hset rfl fun es hes => by cases hes
  | cons h hs ih =>
    obtain ⟨m, hm⟩ := hgroups h List.mem_cons_self
    have hrest (h' : HandlerId) (hh' : h' ∈ hs) := hgroups h' (List.mem_cons_of_mem _ hh')
    unfold selectMerging
    rw [wp_bind]
    refine wp_readHandler hm ?_
    by_cases hnil : m.reachedCloseMerge = []
    · rw [if_pos hnil]
      exact ih hset hrest hQ
    rw [if_neg hnil, wp_bind, wp_get]
    cases hes : getPrioritizeState c s h m with
    | some es =>
      refine wp_pure.mpr (hQ s (some es) hset rfl fun es' heq => ?_)
      obtain rfl := Option.some.inj heq
      have hmem : es ∈ m.openStates := List.mem_of_find?_eq_some hes
      have hclosing : es ∉ s.searcher.inCloseMerge := by
        have hfound := List.find?_some hes
        simp only [Bool.and_eq_true, decide_eq_true_eq] at hfound
        exact hfound.1
      refine ⟨((hset.inv.openStates h m hm es).mp hmem).1, fun hp => hclosing ?_⟩
      exact (hset.inv.inCloseMerge es).mpr (.inl hp)
    | none =>
      dsimp only
      rw [wp_bind]
      refine wp_releaseStates hm (hset.inv.closed_nodup h m hm)
        (fun x hx => (hset.inv.paused x).mpr ⟨h, m, hm, hx⟩) hset.inv.paused_nodup
        fun s₁ hs₁ hrel => ?_
      have hexec : s₁.executor = s.executor := hrel.executor
      have hinv := hset.inv.release hm hrel fun _ _ => id
      rw [← hs₁] at hinv
      have hset₁ : Settled s₁ := by
        have hview : s₁.view = s.view := by
          unfold MergeState.view MergeState.Alive
          rw [hexec]
        refine hset.sub (hview ▸ hinv) ?_ (fun x hx => ?_) ?_ ?_
        · rw [hexec]
          exact hset.nodup
        · rw [MergeState.Alive, hexec] at hx
          rw [hexec]
          exact ⟨hx, List.Sublist.refl _⟩
        · rw [hexec]
        · rw [hexec]
      refine ih hset₁ (fun h' hh' => ?_) fun s' r hs' hexec' hr => ?_
      · rw [hs₁]
        by_cases heq : h' = h
        · subst heq
          exact ⟨_, Function.update_self _ _ _⟩
        · rw [Function.update_of_ne heq]
          exact hrest h' hh'
      · refine hQ s' r hs' (hexec'.trans hexec) fun es hes => ?_
        have hes := hr es hes
        rw [MergeState.Alive, hexec] at hes
        exact hes

theorem wp_selectState (hselect : ∀ l, l ≠ [] → c.select l ∈ l) (hq : Quiet s)
    (hne : s.executor.states ≠ []) {Q : StateId → MergeState → Prop}
    (hQ : ∀ s' es, Quiet s' → s'.executor = s.executor →
      (c.useIncompleteMerge = false → s' = s) → es ∈ s'.executor.states →
      es ∉ s'.searcher.pausedStates → Q es s') : wp (selectState c) Q E s := by
  have hselected (s' : MergeState) (hq' : Quiet s') (hne : s'.executor.states ≠ []) :
      c.select s'.searcher.base ∈ s'.executor.states ∧
        c.select s'.searcher.base ∉ s'.searcher.pausedStates :=
    (hq'.settled.inv.base _).mp (hselect _ (hq'.base_ne_nil hne))
  unfold selectState selectBase
  rw [wp_bind, wp_get, if_neg (hq.base_ne_nil hne)]
  cases hincomplete : c.useIncompleteMerge with
  | false =>
    obtain ⟨hheld, hunpaused⟩ := hselected s hq hne
    exact hQ s _ hq rfl (fun _ => rfl) hheld hunpaused
  | true =>
    rw [if_pos rfl, wp_bind]
    refine wp_selectMerging c hq.settled (fun h hh => (hq.settled.inv.groups h).mp hh)
      fun s' r hs' hexec hr => ?_
    have hq' := hq.of_executor hs' hexec
    have hfalse : c.useIncompleteMerge = false → s' = s := by
      rw [hincomplete]
      exact fun h => by cases h
    cases r with
    | some es =>
      obtain ⟨halive, hunpaused⟩ := hr es rfl
      exact hQ s' es hq' hexec hfalse (hexec ▸ hq.alive_iff.mp halive) hunpaused
    | none =>
      obtain ⟨hheld, hunpaused⟩ := hselected s' hq' (hexec ▸ hne)
      exact hQ s' _ hq' hexec hfalse hheld hunpaused

end Select

section Run

theorem quiet_initial : Quiet initial where
  settled := by
    have hopen (h : HandlerId) (x : StateId) : ¬ initial.view.isOpen h x := fun ho => by
      cases ho.2
    have hnone (h : HandlerId) (m : MergeHandler) : ¬ initial.handlers h = some m := fun hm => by
      cases hm
    have halive (x : StateId) (hx : initial.Alive x) : x = 0 := by
      cases hx with
      | inl hx => exact List.mem_singleton.mp hx
      | inr hx => cases hx
    refine ⟨?_, List.nodup_singleton _, fun x _ => List.Pairwise.nil, fun x _ h hh => ?_,
      fun x hx => ?_⟩
    · exact {
        nodup := fun h m hm => absurd hm (hnone h m)
        openStates := fun h m hm => absurd hm (hnone h m)
        refCount := fun h m hm => absurd hm (hnone h m)
        pos := fun h m hm => absurd hm (hnone h m)
        exists_of_open := fun h x ho => absurd ho (hopen h x)
        exists_of_extra := fun h he => absurd he (Nat.lt_irrefl 0)
        closed_nodup := fun h m hm => absurd hm (hnone h m)
        closed_unique := fun h m h' m' x hm => absurd hm (hnone h m)
        paused_nodup := List.nodup_nil
        paused := fun x => iff_of_false List.not_mem_nil fun ⟨h, m, hm, _⟩ => hnone h m hm
        inCloseMerge := fun x => iff_of_false (Finset.notMem_empty x)
          fun hx => hx.elim List.not_mem_nil id
        base_nodup := List.nodup_singleton _
        base := fun x => (and_iff_left List.not_mem_nil).symm
        paused_held := fun x hx => absurd hx List.not_mem_nil
        newer := fun h m x h' hm => absurd hm (hnone h m)
        groups_nodup := List.nodup_nil
        groups := fun h => iff_of_false List.not_mem_nil fun ⟨m, hm⟩ => hnone h m hm }
    · cases hh
    · rw [halive x hx]
      exact Nat.one_pos
  added := rfl
  removed := rfl

/-- What the current state does, and the end of the round. -/
theorem wp_round (hq : Quiet s) (hcurrent : current ∈ s.executor.states)
    (hunpaused : current ∉ s.searcher.pausedStates) (i : Instruction) :
    wp (do i.exec current; updateStates current) (fun _ s' => Round current s s')
      (· = .notRunning) s := by
  have hr : Running current s s := ⟨hq.settled, .refl s, hcurrent, .inl hq.removed, hunpaused⟩
  rw [wp_bind]
  have hexec : wp (i.exec current) (fun _ s' => Executed current s s') (· = .notRunning) s := by
    cases i with
    | openMerge => exact wp_post (wp_handleOpenMerge hr) fun _ _ h => h.executed
    | closeMerge mp merges => exact wp_handleCloseMerge mp merges hr hq.added hq.removed
    | other ops => exact wp_post (wp_stateOps hr ops) fun _ _ h => h.executed
  exact wp_post hexec fun _ _ he => wp_updateStates he

theorem wp_step {c : Config} (hselect : ∀ l, l ≠ [] → c.select l ∈ l) (hq : Quiet s)
    (hne : s.executor.states ≠ []) (i : Instruction) :
    wp (step c i) (fun _ s' => Quiet s') (· = .notRunning) s := by
  unfold step
  rw [wp_bind]
  refine wp_selectState c hselect hq hne fun s₁ es hq₁ _ _ hheld hunpaused => ?_
  exact wp_post (wp_round hq₁ hheld hunpaused i) fun _ _ h => h.quiet

/-- Without a state the searcher has none to select. -/
theorem wp_step_of_nil {c : Config} {i : Instruction} (hq : Quiet s)
    (hnil : s.executor.states = []) : wp (step c i) (fun _ _ => False) (fun _ => True) s := by
  have hbase : s.searcher.base = [] := by
    refine List.eq_nil_iff_forall_not_mem.mpr fun x hx => ?_
    have hx : x ∈ s.executor.states := ((hq.settled.inv.base x).mp hx).1
    rw [hnil] at hx
    cases hx
  unfold step selectState
  rw [wp_bind, wp_bind, wp_get, if_pos hbase]
  exact wp_throw.mpr trivial

theorem Run.quiet (hrun : Run s) : Quiet s := by
  induction hrun with
  | initial => exact quiet_initial
  | @step s s' c i h hselect hi ih =>
    by_cases hnil : s.executor.states = []
    · exact (wp_ok (wp_step_of_nil ih hnil) hi).elim
    · exact wp_ok (wp_step hselect ih hnil i) hi

structure NoneStranded (s : MergeState) : Prop where
  paused : ∀ x, x ∈ s.searcher.pausedStates ↔ ∃ h m, s.handlers h = some m ∧ x ∈ m.closedStates
  exists_open : ∀ h m, s.handlers h = some m → m.openStates ≠ []
  exists_unpaused : s.searcher.pausedStates ≠ [] →
    ∃ y ∈ s.executor.states, y ∉ s.searcher.pausedStates
  nodup : ∀ h m, s.handlers h = some m → m.openStates.Nodup
  openStates : ∀ h m, s.handlers h = some m → ∀ x, x ∈ m.openStates ↔
    x ∈ s.executor.states ∧ h ∈ s.executor.openMergeStack x
  exists_handler : ∀ x ∈ s.executor.states, ∀ h ∈ s.executor.openMergeStack x,
    ∃ m, s.handlers h = some m
  /-- The base searcher holds every state once that is not paused. -/
  base : ∀ x, s.searcher.base.count x =
    if x ∈ s.executor.states ∧ x ∉ s.searcher.pausedStates then 1 else 0

structure Releases (s s' : MergeState) : Prop where
  /-- The last open state has left: the states go back to the base searcher, once. -/
  released : ∀ h m, s.handlers h = some m →
    (∀ y ∈ s'.executor.states, h ∉ s'.executor.openMergeStack y) → ∀ x ∈ m.closedStates,
      x ∈ s'.executor.states ∧ x ∉ s'.searcher.pausedStates ∧
        s.searcher.base.count x = 0 ∧ s'.searcher.base.count x = 1
  /-- While a state is open, they wait. -/
  waiting : ∀ h m, s.handlers h = some m →
    (∃ y ∈ s'.executor.states, h ∈ s'.executor.openMergeStack y) → ∀ x ∈ m.closedStates,
      x ∈ s'.searcher.pausedStates

theorem Quiet.noneStranded (hq : Quiet s) : NoneStranded s where
  paused := hq.settled.inv.paused
  exists_open h m hm := by
    obtain ⟨y, hy, -⟩ := hq.settled.exists_open hm
    exact List.ne_nil_of_mem hy
  exists_unpaused hne := by
    obtain ⟨x, hx⟩ := List.exists_mem_of_ne_nil _ hne
    exact hq.exists_unpaused (List.ne_nil_of_mem (hq.settled.inv.paused_held x hx))
  nodup := hq.settled.inv.nodup
  openStates h m hm x := by
    refine (hq.settled.inv.openStates h m hm x).trans ?_
    exact and_congr_left fun _ => hq.alive_iff
  exists_handler x hx h hh := hq.settled.inv.exists_of_open h x ⟨.inl hx, hh⟩
  base x := by
    have hmem := hq.settled.inv.base x
    rw [List.Nodup.count hq.settled.inv.base_nodup]
    exact if_congr hmem rfl rfl

theorem Round.releases (hround : Round current s s') (hq : Quiet s)
    (hunpaused : current ∉ s.searcher.pausedStates) : Releases s s' where
  released h m hm hnone x hx := by
    have hinv := hround.quiet.settled.inv
    have hp : x ∈ s.searcher.pausedStates := (hq.settled.inv.paused x).mpr ⟨h, m, hm, hx⟩
    have hne : x ≠ current := fun heq => hunpaused (heq ▸ hp)
    have hheld := hround.states x (hq.settled.inv.paused_held x hp) hne
    have hreleased : x ∉ s'.searcher.pausedStates := by
      intro hp'
      obtain ⟨h', m', hm', hx'⟩ := (hinv.paused x).mp hp'
      obtain ⟨m₀, hm₀, hx₀⟩ := (hround.paused h' m' hm' x hx').resolve_left hne
      obtain rfl : h' = h := hq.settled.inv.closed_unique h' m₀ h m x hm₀ hm hx₀ hx
      obtain ⟨y, -, halive, hstack⟩ := hround.quiet.settled.exists_open hm'
      exact hnone y (hround.quiet.alive_iff.mp halive) hstack
    refine ⟨hheld, hreleased, ?_, ?_⟩
    · rw [hq.noneStranded.base, if_neg fun h => h.2 hp]
    · rw [hround.quiet.noneStranded.base, if_pos ⟨hheld, hreleased⟩]
  waiting h m hm hopen x hx := by
    obtain ⟨y, hy, hstack⟩ := hopen
    obtain ⟨m', hm'⟩ := hround.quiet.noneStranded.exists_handler y hy h hstack
    exact (hround.quiet.settled.inv.paused x).mpr ⟨h, m', hm', hround.kept h m m' hm hm' x hx⟩

/-- In every next round no assertion of the merging fails, and the paused states are released
with the last open state of their handler. -/
def Continues (s : MergeState) : Prop :=
  ∀ c : Config, (∀ l, l ≠ [] → c.select l ∈ l) → s.executor.states ≠ [] →
    wp (selectState c) (fun current s₁ => NoneStranded s₁ ∧ s₁.executor = s.executor ∧
      (c.useIncompleteMerge = false → s₁ = s) ∧
      ∀ i : Instruction, wp (do i.exec current; updateStates current)
        (fun _ s' => NoneStranded s' ∧ Releases s₁ s') (· = .notRunning) s₁)
      (fun _ => False) s

end Run

end Klee.Merging
