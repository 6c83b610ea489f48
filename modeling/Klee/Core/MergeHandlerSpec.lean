import Klee.Core.MergeHandler

/-! The invariant of the merge handlers and of the merging searcher, and what each operation
does to it. -/
namespace Klee.Merging

open Hoare

section Lists

variable {α : Type} [DecidableEq α] {l : List α} {x : α}

theorem set_idxOf_perm {y : α} (hx : x ∈ l) :
    (l.set (l.idxOf x) y).Perm (y :: l.erase x) := by
  induction l with
  | nil => cases hx
  | cons a l ih =>
    by_cases heq : a = x
    · subst heq
      rw [List.idxOf_cons_self, List.set_cons_zero, List.erase_cons_head]
    · have hmem : x ∈ l := (List.mem_cons.mp hx).resolve_left (Ne.symm heq)
      rw [List.idxOf_cons_ne _ heq, List.set_cons_succ, List.erase_cons_tail (by simpa using heq)]
      exact ((ih hmem).cons a).trans (.swap y a _)

/-- Up to the order, `x` is erased. -/
theorem swapPop_perm (hx : x ∈ l) : (swapPop l x).Perm (l.erase x) := by
  unfold swapPop
  cases hlast : l.getLast? with
  | none =>
    rw [List.getLast?_eq_none_iff.mp hlast] at hx
    cases hx
  | some y =>
    obtain ⟨ys, rfl⟩ := List.getLast?_eq_some_iff.mp hlast
    dsimp only
    by_cases hmem : x ∈ ys
    · have hlt : ys.idxOf x < ys.length := List.idxOf_lt_length_iff.mpr hmem
      rw [List.idxOf_append, if_pos hmem, List.set_append_left _ _ hlt, List.dropLast_concat,
        List.erase_append_left _ hmem]
      exact (set_idxOf_perm hmem).trans (List.perm_append_singleton y _).symm
    · obtain rfl : x = y := by
        cases List.mem_append.mp hx with
        | inl h => exact absurd h hmem
        | inr h => exact List.mem_singleton.mp h
      rw [List.idxOf_append, if_neg hmem, List.idxOf_cons_self, Nat.zero_add,
        List.set_append_right _ _ le_rfl, Nat.sub_self, List.set_cons_zero, List.dropLast_concat,
        List.erase_append_right _ hmem, List.erase_cons_head, List.append_nil]

theorem mem_swapPop (hl : l.Nodup) (hx : x ∈ l) {y : α} : y ∈ swapPop l x ↔ y ∈ l ∧ y ≠ x := by
  rw [(swapPop_perm hx).mem_iff, hl.mem_erase_iff, and_comm]

theorem nodup_swapPop (hl : l.Nodup) (hx : x ∈ l) : (swapPop l x).Nodup :=
  (swapPop_perm hx).nodup_iff.mpr (hl.erase x)

theorem length_swapPop (hx : x ∈ l) : (swapPop l x).length + 1 = l.length := by
  rw [(swapPop_perm hx).length_eq, List.length_erase_of_mem hx]
  exact Nat.succ_pred_eq_of_pos (List.length_pos_of_mem hx)

end Lists

/-- How the merge handlers are to be seen in the middle of an operation: who is open in a
handler, how many more references there are to it, which states the searcher chain holds, and
which states are closing without being paused. -/
structure View where
  isOpen : HandlerId → StateId → Prop
  extra : HandlerId → Nat
  held : StateId → Prop
  closing : StateId → Prop

structure Inv (v : View) (s : MergeState) : Prop where
  nodup : ∀ h m, s.handlers h = some m → m.openStates.Nodup
  openStates : ∀ h m, s.handlers h = some m → ∀ x, x ∈ m.openStates ↔ v.isOpen h x
  refCount : ∀ h m, s.handlers h = some m → m.refCount = m.openStates.length + v.extra h
  pos : ∀ h m, s.handlers h = some m → 0 < m.refCount
  exists_of_open : ∀ h x, v.isOpen h x → ∃ m, s.handlers h = some m
  exists_of_extra : ∀ h, 0 < v.extra h → ∃ m, s.handlers h = some m
  closed_nodup : ∀ h m, s.handlers h = some m → m.closedStates.Nodup
  closed_unique : ∀ h m h' m' x, s.handlers h = some m → s.handlers h' = some m' →
    x ∈ m.closedStates → x ∈ m'.closedStates → h = h'
  paused_nodup : s.searcher.pausedStates.Nodup
  paused : ∀ x, x ∈ s.searcher.pausedStates ↔
    ∃ h m, s.handlers h = some m ∧ x ∈ m.closedStates
  inCloseMerge : ∀ x, x ∈ s.searcher.inCloseMerge ↔
    x ∈ s.searcher.pausedStates ∨ v.closing x
  base_nodup : s.searcher.base.Nodup
  base : ∀ x, x ∈ s.searcher.base ↔ v.held x ∧ x ∉ s.searcher.pausedStates
  paused_held : ∀ x ∈ s.searcher.pausedStates, v.held x
  /-- A state waits for handlers that are older than the one that it has closed. -/
  newer : ∀ h m x h', s.handlers h = some m → x ∈ m.closedStates → v.isOpen h' x → h' < h
  groups_nodup : s.searcher.mergeGroups.Nodup
  groups : ∀ h, h ∈ s.searcher.mergeGroups ↔ ∃ m, s.handlers h = some m

structure Shrinks (s s' : MergeState) : Prop where
  executor : s'.executor = s.executor
  closed : ∀ h m', s'.handlers h = some m' → ∃ m, s.handlers h = some m ∧
    m'.closedStates = m.closedStates

variable {s s' s'' : MergeState} {v v' : View} {h h' : HandlerId} {m m' : MergeHandler}
variable {es x : StateId} {Q : Unit → MergeState → Prop} {E : MergeFault → Prop}

theorem Shrinks.refl (s : MergeState) : Shrinks s s := ⟨rfl, fun _ m' hm => ⟨m', hm, rfl⟩⟩

theorem Shrinks.trans (h₁ : Shrinks s s') (h₂ : Shrinks s' s'') : Shrinks s s'' where
  executor := h₂.executor.trans h₁.executor
  closed h m' hm := by
    obtain ⟨m₁, hm₁, heq₁⟩ := h₂.closed h m' hm
    obtain ⟨m, hm, heq⟩ := h₁.closed h m₁ hm₁
    exact ⟨m, hm, heq₁.trans heq⟩

section Handlers

def MergeState.withHandler (s : MergeState) (h : HandlerId) (m : Option MergeHandler) :
    MergeState := { s with handlers := Function.update s.handlers h m }

@[simp] theorem handlers_withHandler_self {o : Option MergeHandler} :
    (s.withHandler h o).handlers h = o := Function.update_self _ _ _

theorem handlers_withHandler_of_ne {o : Option MergeHandler} (hne : h' ≠ h) :
    (s.withHandler h o).handlers h' = s.handlers h' := Function.update_of_ne hne _ _

theorem wp_readHandler {Q : MergeHandler → MergeState → Prop} (hm : s.handlers h = some m)
    (hQ : Q m s) : wp (readHandler h) Q E s := by
  unfold readHandler
  rw [wp_bind, wp_get, hm]
  exact hQ

theorem wp_setHandler {o : Option MergeHandler} (hQ : Q () (s.withHandler h o)) :
    wp (setHandler h o) Q E s := hQ

theorem wp_modifyHandler {f : MergeHandler → MergeHandler} (hm : s.handlers h = some m)
    (hQ : Q () (s.withHandler h (some (f m)))) : wp (modifyHandler h f) Q E s := by
  unfold modifyHandler
  rw [wp_bind]
  exact wp_readHandler hm hQ

/-- A handler of the changed state is the new one or an old one. -/
theorem withHandler_cases {o : Option MergeHandler}
    (hm : (s.withHandler h o).handlers h' = some m) :
    (h' = h ∧ o = some m) ∨ (h' ≠ h ∧ s.handlers h' = some m) := by
  by_cases heq : h' = h
  · subst heq
    rw [handlers_withHandler_self] at hm
    exact .inl ⟨rfl, hm⟩
  · rw [handlers_withHandler_of_ne heq] at hm
    exact .inr ⟨heq, hm⟩

theorem shrinks_withHandler (hm : s.handlers h = some m) (hclosed : m'.closedStates = m.closedStates) :
    Shrinks s (s.withHandler h (some m')) where
  executor := rfl
  closed h' m₁ hm₁ := by
    cases withHandler_cases hm₁ with
    | inl heq =>
      obtain ⟨rfl, heq⟩ := heq
      obtain rfl := Option.some.inj heq
      exact ⟨m, hm, hclosed⟩
    | inr hne => exact ⟨m₁, hne.2, rfl⟩

/-- What a change of the open states and the count of one handler keeps. -/
theorem Inv.modify (hinv : Inv v s) (hm : s.handlers h = some m)
    (hclosed : m'.closedStates = m.closedStates) (hnodup : m'.openStates.Nodup)
    (hopen : ∀ x, x ∈ m'.openStates ↔ v'.isOpen h x)
    (hother : ∀ h', h' ≠ h → v'.isOpen h' = v.isOpen h' ∧ v'.extra h' = v.extra h')
    (hcount : m'.refCount = m'.openStates.length + v'.extra h) (hpos : 0 < m'.refCount)
    (hheld : v'.held = v.held) (hclosing : v'.closing = v.closing)
    (hnewer : ∀ x, v'.isOpen h x → v.isOpen h x ∨ x ∉ s.searcher.pausedStates) :
    Inv v' (s.withHandler h (some m')) := by
  -- a handler and its closed states before the change
  have hold (h' : HandlerId) (m₁ : MergeHandler)
      (hm₁ : (s.withHandler h (some m')).handlers h' = some m₁) :
      ∃ m₀, s.handlers h' = some m₀ ∧ m₁.closedStates = m₀.closedStates :=
    (shrinks_withHandler hm hclosed).closed h' m₁ hm₁
  have hexists (h' : HandlerId) : (∃ m₁, (s.withHandler h (some m')).handlers h' = some m₁) ↔
      ∃ m₀, s.handlers h' = some m₀ := by
    by_cases heq : h' = h
    · subst heq
      simp [hm]
    · rw [handlers_withHandler_of_ne heq]
  have hpaused (x : StateId) : x ∈ s.searcher.pausedStates ↔
      ∃ h' m₁, (s.withHandler h (some m')).handlers h' = some m₁ ∧ x ∈ m₁.closedStates := by
    rw [hinv.paused]
    constructor
    · rintro ⟨h', m₀, hm₀, hx⟩
      obtain ⟨m₁, hm₁⟩ := (hexists h').mpr ⟨m₀, hm₀⟩
      obtain ⟨m₀', hm₀', heq⟩ := hold h' m₁ hm₁
      obtain rfl := Option.some.inj (hm₀.symm.trans hm₀')
      exact ⟨h', m₁, hm₁, heq ▸ hx⟩
    · rintro ⟨h', m₁, hm₁, hx⟩
      obtain ⟨m₀, hm₀, heq⟩ := hold h' m₁ hm₁
      exact ⟨h', m₀, hm₀, heq ▸ hx⟩
  have hopen' (h' : HandlerId) (x : StateId) (ho : v'.isOpen h' x) :
      v.isOpen h' x ∨ (h' = h ∧ x ∉ s.searcher.pausedStates) := by
    by_cases heq : h' = h
    · subst heq
      exact (hnewer x ho).imp_right fun hx => ⟨rfl, hx⟩
    · rw [(hother h' heq).1] at ho
      exact .inl ho
  have hread (h' : HandlerId) (m₁ : MergeHandler)
      (hm₁ : (s.withHandler h (some m')).handlers h' = some m₁) : m₁.openStates.Nodup ∧
        (∀ x, x ∈ m₁.openStates ↔ v'.isOpen h' x) ∧
        m₁.refCount = m₁.openStates.length + v'.extra h' ∧ 0 < m₁.refCount := by
    cases withHandler_cases hm₁ with
    | inl heq =>
      obtain ⟨rfl, heq⟩ := heq
      obtain rfl := Option.some.inj heq
      exact ⟨hnodup, hopen, hcount, hpos⟩
    | inr hne =>
      obtain ⟨hne, hm₁⟩ := hne
      rw [(hother h' hne).1, (hother h' hne).2]
      exact ⟨hinv.nodup h' m₁ hm₁, hinv.openStates h' m₁ hm₁, hinv.refCount h' m₁ hm₁,
        hinv.pos h' m₁ hm₁⟩
  refine {
    nodup := fun h' m₁ hm₁ => (hread h' m₁ hm₁).1
    openStates := fun h' m₁ hm₁ => (hread h' m₁ hm₁).2.1
    refCount := fun h' m₁ hm₁ => (hread h' m₁ hm₁).2.2.1
    pos := fun h' m₁ hm₁ => (hread h' m₁ hm₁).2.2.2
    exists_of_open := fun h' x ho => ?_
    exists_of_extra := fun h' he => ?_
    closed_nodup := fun h' m₁ hm₁ => ?_
    closed_unique := fun h₁ m₁ h₂ m₂ x hm₁ hm₂ hx₁ hx₂ => ?_
    paused_nodup := hinv.paused_nodup
    paused := hpaused
    inCloseMerge := fun x => hclosing ▸ hinv.inCloseMerge x
    base_nodup := hinv.base_nodup
    base := fun x => hheld ▸ hinv.base x
    paused_held := fun x hx => hheld ▸ hinv.paused_held x hx
    newer := fun h₁ m₁ x h₂ hm₁ hx ho => ?_
    groups_nodup := hinv.groups_nodup
    groups := fun h' => (hinv.groups h').trans (hexists h').symm }
  · rw [hexists]
    cases hopen' h' x ho with
    | inl ho => exact hinv.exists_of_open h' x ho
    | inr heq => exact ⟨m, heq.1 ▸ hm⟩
  · rw [hexists]
    by_cases heq : h' = h
    · exact ⟨m, heq ▸ hm⟩
    · rw [(hother h' heq).2] at he
      exact hinv.exists_of_extra h' he
  · obtain ⟨m₀, hm₀, heq⟩ := hold h' m₁ hm₁
    rw [heq]
    exact hinv.closed_nodup h' m₀ hm₀
  · obtain ⟨m₀, hm₀, heq⟩ := hold h₁ m₁ hm₁
    obtain ⟨m₀', hm₀', heq'⟩ := hold h₂ m₂ hm₂
    exact hinv.closed_unique h₁ m₀ h₂ m₀' x hm₀ hm₀' (heq ▸ hx₁) (heq' ▸ hx₂)
  · obtain ⟨m₀, hm₀, heq⟩ := hold h₁ m₁ hm₁
    cases hopen' h₂ x ho with
    | inl ho => exact hinv.newer h₁ m₀ x h₂ hm₀ (heq ▸ hx) ho
    | inr hnot => exact absurd ((hpaused x).mpr ⟨h₁, m₁, hm₁, hx⟩) hnot.2

/-- `es` is no longer open in `h`, of which it still has a reference. -/
def View.close (v : View) (h : HandlerId) (es : StateId) : View :=
  { v with
    isOpen := Function.update v.isOpen h fun x => v.isOpen h x ∧ x ≠ es
    extra := Function.update v.extra h (v.extra h + 1) }

theorem wp_removeOpenState (hinv : Inv v s) (ho : v.isOpen h es)
    (hQ : ∀ s', Inv (v.close h es) s' → Shrinks s s' → s'.searcher = s.searcher → Q () s') :
    wp (removeOpenState h es) Q E s := by
  obtain ⟨m, hm⟩ := hinv.exists_of_open h es ho
  have hnodup := hinv.nodup h m hm
  have hmem : es ∈ m.openStates := (hinv.openStates h m hm es).mpr ho
  have hlen := length_swapPop hmem
  have hcount := hinv.refCount h m hm
  unfold removeOpenState
  rw [wp_bind]
  refine wp_readHandler hm ?_
  rw [if_pos hmem]
  refine wp_setHandler (hQ _ ?_ (shrinks_withHandler hm rfl) rfl)
  refine hinv.modify hm rfl (nodup_swapPop hnodup hmem) (fun x => ?_) (fun h' hne => ?_) ?_
    (hinv.pos h m hm) rfl rfl fun x hx => ?_
  · rw [mem_swapPop hnodup hmem, hinv.openStates h m hm]
    simp [View.close]
  · simp [View.close, Function.update_of_ne hne]
  · show m.refCount = (swapPop m.openStates es).length + Function.update v.extra h _ h
    rw [Function.update_self]
    omega
  · have hx : v.isOpen h x ∧ x ≠ es := by simpa [View.close] using hx
    exact .inl hx.1

def View.addRef (v : View) (h : HandlerId) : View :=
  { v with extra := Function.update v.extra h (v.extra h + 1) }

theorem wp_incRef (hinv : Inv v s) (hm : s.handlers h = some m)
    (hQ : ∀ s', Inv (v.addRef h) s' → Shrinks s s' → s'.searcher = s.searcher → Q () s') :
    wp (incRef h) Q E s := by
  have hcount := hinv.refCount h m hm
  refine wp_modifyHandler hm (hQ _ ?_ (shrinks_withHandler hm rfl) rfl)
  refine hinv.modify hm rfl (hinv.nodup h m hm) (hinv.openStates h m hm) (fun h' hne => ?_) ?_
    (Nat.succ_pos _) rfl rfl fun x hx => .inl hx
  · simp [View.addRef, Function.update_of_ne hne]
  · show m.refCount + 1 = m.openStates.length + Function.update v.extra h _ h
    rw [Function.update_self]
    omega

/-- A reference becomes that of the open state `es`. -/
def View.open (v : View) (h : HandlerId) (es : StateId) : View :=
  { v with
    isOpen := Function.update v.isOpen h fun x => v.isOpen h x ∨ x = es
    extra := Function.update v.extra h (v.extra h - 1) }

theorem wp_addOpenState (hinv : Inv v s) (he : 0 < v.extra h) (ho : ¬ v.isOpen h es)
    (hpaused : es ∉ s.searcher.pausedStates)
    (hQ : ∀ s', Inv (v.open h es) s' → Shrinks s s' → s'.searcher = s.searcher → Q () s') :
    wp (addOpenState h es) Q E s := by
  obtain ⟨m, hm⟩ := hinv.exists_of_extra h he
  have hnot : es ∉ m.openStates := fun hmem => ho ((hinv.openStates h m hm es).mp hmem)
  have hcount := hinv.refCount h m hm
  refine wp_modifyHandler hm (hQ _ ?_ (shrinks_withHandler hm rfl) rfl)
  refine hinv.modify hm rfl ?_ (fun x => ?_) (fun h' hne => ?_) ?_ (hinv.pos h m hm) rfl rfl
    fun x hx => ?_
  · exact List.nodup_append.mpr ⟨hinv.nodup h m hm, List.nodup_singleton _, by
      intro a ha b hb heq
      rw [List.mem_singleton.mp hb] at heq
      exact hnot (heq ▸ ha)⟩
  · simp [View.open, hinv.openStates h m hm]
  · simp [View.open, Function.update_of_ne hne]
  · show m.refCount = (m.openStates ++ [es]).length + Function.update v.extra h _ h
    rw [Function.update_self, List.length_append, List.length_singleton]
    omega
  · have hx : v.isOpen h x ∨ x = es := by simpa [View.open] using hx
    cases hx with
    | inl hx => exact .inl hx
    | inr hx => exact .inr (hx ▸ hpaused)

end Handlers

section Release

structure Released (l : List StateId) (s s' : MergeState) : Prop where
  executor : s'.executor = s.executor
  handlers : s'.handlers = s.handlers
  mergeGroups : s'.searcher.mergeGroups = s.searcher.mergeGroups
  nodup : s'.searcher.pausedStates.Nodup
  paused : ∀ x, x ∈ s'.searcher.pausedStates ↔ x ∈ s.searcher.pausedStates ∧ x ∉ l
  inCloseMerge : ∀ x, x ∈ s'.searcher.inCloseMerge ↔ x ∈ s.searcher.inCloseMerge ∧ x ∉ l
  base : s'.searcher.base = s.searcher.base ++ l

theorem wp_releaseState (hx : x ∈ s.searcher.pausedStates) (hnodup : s.searcher.pausedStates.Nodup)
    (hQ : ∀ s', Released [x] s s' → Q () s') : wp (releaseState x) Q E s := by
  unfold releaseState continueState
  rw [wp_bind, wp_bind, wp_get, if_pos hx]
  refine hQ _ ⟨rfl, rfl, rfl, hnodup.erase x, fun y => ?_, fun y => ?_, rfl⟩
  · show y ∈ s.searcher.pausedStates.erase x ↔ _
    rw [hnodup.mem_erase_iff, List.mem_singleton, and_comm]
  · show y ∈ s.searcher.inCloseMerge.erase x ↔ _
    rw [Finset.mem_erase, List.mem_singleton, and_comm]

theorem wp_releaseAll {l : List StateId} (hl : l.Nodup)
    (hmem : ∀ x ∈ l, x ∈ s.searcher.pausedStates) (hnodup : s.searcher.pausedStates.Nodup)
    (hQ : ∀ s', Released l s s' → Q () s') : wp (l.forM releaseState) Q E s := by
  induction l generalizing s with
  | nil =>
    exact hQ s ⟨rfl, rfl, rfl, hnodup, fun x => by simp, fun x => by simp, by simp⟩
  | cons x l ih =>
    obtain ⟨hx, hl⟩ := List.nodup_cons.mp hl
    refine wp_bind.mpr (wp_releaseState (hmem x List.mem_cons_self) hnodup fun s₁ h₁ => ?_)
    refine ih hl (fun y hy => ?_) h₁.nodup fun s' h' => hQ s' ?_
    · have hne : y ≠ x := fun heq => hx (heq ▸ hy)
      exact (h₁.paused y).mpr ⟨hmem y (List.mem_cons_of_mem _ hy), by simpa using hne⟩
    · refine ⟨h'.executor.trans h₁.executor, h'.handlers.trans h₁.handlers,
        h'.mergeGroups.trans h₁.mergeGroups, h'.nodup, fun y => ?_, fun y => ?_, ?_⟩
      · rw [h'.paused, h₁.paused, List.mem_singleton, List.mem_cons, not_or, and_assoc]
      · rw [h'.inCloseMerge, h₁.inCloseMerge, List.mem_singleton, List.mem_cons, not_or, and_assoc]
      · rw [h'.base, h₁.base, List.append_assoc, List.singleton_append]

def MergeHandler.emptied (m : MergeHandler) : MergeHandler := { m with reachedCloseMerge := [] }

theorem wp_releaseStates (hm : s.handlers h = some m) (hclosed : m.closedStates.Nodup)
    (hmem : ∀ x ∈ m.closedStates, x ∈ s.searcher.pausedStates)
    (hnodup : s.searcher.pausedStates.Nodup)
    (hQ : ∀ s', s'.handlers = Function.update s.handlers h (some m.emptied) →
      Released m.closedStates s { s' with handlers := s.handlers } → Q () s') :
    wp (releaseStates h) Q E s := by
  unfold releaseStates
  rw [wp_bind]
  refine wp_readHandler hm ?_
  rw [wp_bind]
  refine wp_releaseAll hclosed hmem hnodup fun s₁ h₁ => ?_
  have hm₁ : s₁.handlers h = some m := h₁.handlers ▸ hm
  refine wp_modifyHandler hm₁ (hQ _ ?_ ?_)
  · show Function.update s₁.handlers h _ = _
    rw [h₁.handlers]
    rfl
  · exact { h₁ with handlers := rfl }

/-- The closed states of a handler after the release of those of `h`. -/
theorem mem_closed_emptied {h₁ : HandlerId} {m₁ : MergeHandler}
    (hm₁ : Function.update s.handlers h (some m.emptied) h₁ = some m₁)
    (hx : x ∈ m₁.closedStates) : h₁ ≠ h ∧ s.handlers h₁ = some m₁ := by
  by_cases heq : h₁ = h
  · subst heq
    rw [Function.update_self] at hm₁
    obtain rfl := Option.some.inj hm₁
    cases hx
  · rw [Function.update_of_ne heq] at hm₁
    exact ⟨heq, hm₁⟩

theorem Inv.release (hinv : Inv v s) (hm : s.handlers h = some m)
    (hrel : Released m.closedStates s s') (hclosing : ∀ x ∈ m.closedStates, ¬ v.closing x) :
    Inv v { s' with handlers := Function.update s.handlers h (some m.emptied) } := by
  have hread {h₁ : HandlerId} {m₁ : MergeHandler}
      (hm₁ : Function.update s.handlers h (some m.emptied) h₁ = some m₁) :
      ∃ m₀, s.handlers h₁ = some m₀ ∧ m₁.openStates = m₀.openStates ∧
        m₁.refCount = m₀.refCount ∧ (m₁.closedStates = [] ∨ m₁.closedStates = m₀.closedStates) := by
    by_cases heq : h₁ = h
    · subst heq
      rw [Function.update_self] at hm₁
      obtain rfl := Option.some.inj hm₁
      exact ⟨m, hm, rfl, rfl, .inl rfl⟩
    · rw [Function.update_of_ne heq] at hm₁
      exact ⟨m₁, hm₁, rfl, rfl, .inr rfl⟩
  have hexists (h₁ : HandlerId) : (∃ m₁, Function.update s.handlers h (some m.emptied) h₁ = some m₁) ↔
      ∃ m₀, s.handlers h₁ = some m₀ := by
    by_cases heq : h₁ = h
    · subst heq
      simp [hm]
    · rw [Function.update_of_ne heq]
  refine {
    nodup := fun h₁ m₁ hm₁ => ?_
    openStates := fun h₁ m₁ hm₁ => ?_
    refCount := fun h₁ m₁ hm₁ => ?_
    pos := fun h₁ m₁ hm₁ => ?_
    exists_of_open := fun h₁ x ho => (hexists h₁).mpr (hinv.exists_of_open h₁ x ho)
    exists_of_extra := fun h₁ he => (hexists h₁).mpr (hinv.exists_of_extra h₁ he)
    closed_nodup := fun h₁ m₁ hm₁ => ?_
    closed_unique := fun h₁ m₁ h₂ m₂ x hm₁ hm₂ hx₁ hx₂ => hinv.closed_unique h₁ m₁ h₂ m₂ x
      (mem_closed_emptied hm₁ hx₁).2 (mem_closed_emptied hm₂ hx₂).2 hx₁ hx₂
    paused_nodup := hrel.nodup
    paused := fun x => ?_
    inCloseMerge := fun x => ?_
    base_nodup := ?_
    base := fun x => ?_
    paused_held := fun x hx => hinv.paused_held x ((hrel.paused x).mp hx).1
    newer := fun h₁ m₁ x h₂ hm₁ hx ho => hinv.newer h₁ m₁ x h₂ (mem_closed_emptied hm₁ hx).2 hx ho
    groups_nodup := by
      show s'.searcher.mergeGroups.Nodup
      rw [hrel.mergeGroups]
      exact hinv.groups_nodup
    groups := fun h₁ => by
      show h₁ ∈ s'.searcher.mergeGroups ↔ _
      rw [hrel.mergeGroups]
      exact (hinv.groups h₁).trans (hexists h₁).symm }
  · obtain ⟨m₀, hm₀, hopen, -, -⟩ := hread hm₁
    rw [hopen]
    exact hinv.nodup h₁ m₀ hm₀
  · obtain ⟨m₀, hm₀, hopen, -, -⟩ := hread hm₁
    rw [hopen]
    exact hinv.openStates h₁ m₀ hm₀
  · obtain ⟨m₀, hm₀, hopen, hcount, -⟩ := hread hm₁
    rw [hopen, hcount]
    exact hinv.refCount h₁ m₀ hm₀
  · obtain ⟨m₀, hm₀, -, hcount, -⟩ := hread hm₁
    rw [hcount]
    exact hinv.pos h₁ m₀ hm₀
  · obtain ⟨m₀, hm₀, -, -, hclosed⟩ := hread hm₁
    cases hclosed with
    | inl hnil =>
      rw [hnil]
      exact List.nodup_nil
    | inr heq =>
      rw [heq]
      exact hinv.closed_nodup h₁ m₀ hm₀
  · refine (hrel.paused x).trans ?_
    rw [hinv.paused]
    constructor
    · rintro ⟨⟨h₁, m₁, hm₁, hx⟩, hnot⟩
      have hne : h₁ ≠ h := by
        rintro rfl
        obtain rfl := Option.some.inj (hm₁.symm.trans hm)
        exact hnot hx
      exact ⟨h₁, m₁, (Function.update_of_ne hne _ _).trans hm₁, hx⟩
    · rintro ⟨h₁, m₁, hm₁, hx⟩
      obtain ⟨hne, hm₁⟩ := mem_closed_emptied hm₁ hx
      exact ⟨⟨h₁, m₁, hm₁, hx⟩, fun hx' => hne (hinv.closed_unique h₁ m₁ h m x hm₁ hm hx hx')⟩
  · refine (hrel.inCloseMerge x).trans ?_
    show _ ↔ x ∈ s'.searcher.pausedStates ∨ v.closing x
    rw [hinv.inCloseMerge, hrel.paused]
    constructor
    · rintro ⟨hx, hnot⟩
      exact hx.imp_left fun hp => ⟨hp, hnot⟩
    · rintro (⟨hp, hnot⟩ | hc)
      · exact ⟨.inl hp, hnot⟩
      · exact ⟨.inr hc, fun hx => hclosing x hx hc⟩
  · show s'.searcher.base.Nodup
    rw [hrel.base, List.nodup_append]
    refine ⟨hinv.base_nodup, hinv.closed_nodup h m hm, fun x hx y hy heq => ?_⟩
    subst heq
    exact ((hinv.base x).mp hx).2 ((hinv.paused x).mpr ⟨h, m, hm, hy⟩)
  · show x ∈ s'.searcher.base ↔ v.held x ∧ x ∉ s'.searcher.pausedStates
    rw [hrel.base, List.mem_append, hinv.base, hrel.paused]
    constructor
    · rintro (⟨hheld, hnot⟩ | hx)
      · exact ⟨hheld, fun hp => hnot hp.1⟩
      · exact ⟨hinv.paused_held x ((hinv.paused x).mpr ⟨h, m, hm, hx⟩), fun hp => hp.2 hx⟩
    · rintro ⟨hheld, hnot⟩
      by_cases hx : x ∈ m.closedStates
      · exact .inr hx
      · exact .inl ⟨hheld, fun hp => hnot ⟨hp, hx⟩⟩

def View.dropRef (v : View) (h : HandlerId) : View :=
  { v with extra := Function.update v.extra h (v.extra h - 1) }

def MergeState.without (s : MergeState) (h : HandlerId) : MergeState :=
  { s with
    searcher := { s.searcher with mergeGroups := swapPop s.searcher.mergeGroups h }
    handlers := Function.update s.handlers h none }

theorem Inv.remove (hinv : Inv v s) (hm : s.handlers h = some m) (hclosed : m.closedStates = [])
    (hopen : m.openStates = []) (hextra : v.extra h = 1) : Inv (v.dropRef h) (s.without h) := by
  have hread {h₁ : HandlerId} {m₁ : MergeHandler} (hm₁ : (s.without h).handlers h₁ = some m₁) :
      h₁ ≠ h ∧ s.handlers h₁ = some m₁ := by
    have hm₁ : Function.update s.handlers h none h₁ = some m₁ := hm₁
    by_cases heq : h₁ = h
    · subst heq
      rw [Function.update_self] at hm₁
      cases hm₁
    · rw [Function.update_of_ne heq] at hm₁
      exact ⟨heq, hm₁⟩
  have hkeep {h₁ : HandlerId} (hne : h₁ ≠ h) : (s.without h).handlers h₁ = s.handlers h₁ :=
    Function.update_of_ne hne _ _
  have hmem : h ∈ s.searcher.mergeGroups := (hinv.groups h).mpr ⟨m, hm⟩
  have hnot (x : StateId) : ¬ v.isOpen h x := by
    intro ho
    have hx := (hinv.openStates h m hm x).mpr ho
    rw [hopen] at hx
    cases hx
  have hother {h₁ : HandlerId} (hne : h₁ ≠ h) : (v.dropRef h).extra h₁ = v.extra h₁ :=
    Function.update_of_ne hne _ _
  refine {
    nodup := fun h₁ m₁ hm₁ => hinv.nodup h₁ m₁ (hread hm₁).2
    openStates := fun h₁ m₁ hm₁ => hinv.openStates h₁ m₁ (hread hm₁).2
    refCount := fun h₁ m₁ hm₁ => ?_
    pos := fun h₁ m₁ hm₁ => hinv.pos h₁ m₁ (hread hm₁).2
    exists_of_open := fun h₁ x ho => ?_
    exists_of_extra := fun h₁ he => ?_
    closed_nodup := fun h₁ m₁ hm₁ => hinv.closed_nodup h₁ m₁ (hread hm₁).2
    closed_unique := fun h₁ m₁ h₂ m₂ x hm₁ hm₂ => hinv.closed_unique h₁ m₁ h₂ m₂ x (hread hm₁).2
      (hread hm₂).2
    paused_nodup := hinv.paused_nodup
    paused := fun x => (hinv.paused x).trans ⟨?_, ?_⟩
    inCloseMerge := hinv.inCloseMerge
    base_nodup := hinv.base_nodup
    base := hinv.base
    paused_held := hinv.paused_held
    newer := fun h₁ m₁ x h₂ hm₁ => hinv.newer h₁ m₁ x h₂ (hread hm₁).2
    groups_nodup := nodup_swapPop hinv.groups_nodup hmem
    groups := fun h₁ => ?_ }
  · obtain ⟨hne, hm₁⟩ := hread hm₁
    rw [hother hne]
    exact hinv.refCount h₁ m₁ hm₁
  · have hne : h₁ ≠ h := by
      rintro rfl
      exact hnot x ho
    rw [hkeep hne]
    exact hinv.exists_of_open h₁ x ho
  · by_cases heq : h₁ = h
    · subst heq
      have hzero : (v.dropRef h₁).extra h₁ = v.extra h₁ - 1 := Function.update_self _ _ _
      rw [hzero, hextra] at he
      cases he
    · rw [hother heq] at he
      rw [hkeep heq]
      exact hinv.exists_of_extra h₁ he
  · rintro ⟨h₁, m₁, hm₁, hx⟩
    have hne : h₁ ≠ h := by
      rintro rfl
      obtain rfl := Option.some.inj (hm₁.symm.trans hm)
      rw [hclosed] at hx
      cases hx
    exact ⟨h₁, m₁, (hkeep hne).trans hm₁, hx⟩
  · rintro ⟨h₁, m₁, hm₁, hx⟩
    exact ⟨h₁, m₁, (hread hm₁).2, hx⟩
  · show h₁ ∈ swapPop s.searcher.mergeGroups h ↔ _
    rw [mem_swapPop hinv.groups_nodup hmem, hinv.groups]
    constructor
    · rintro ⟨⟨m₁, hm₁⟩, hne⟩
      exact ⟨m₁, (hkeep hne).trans hm₁⟩
    · rintro ⟨m₁, hm₁⟩
      exact ⟨⟨m₁, (hread hm₁).2⟩, (hread hm₁).1⟩

theorem wp_deleteHandler (hinv : Inv v s) (hm : s.handlers h = some m) (hopen : m.openStates = [])
    (hextra : v.extra h = 1) (hclosing : ∀ x ∈ s.searcher.pausedStates, ¬ v.closing x)
    {n : Nat} (hQ : ∀ s', Inv (v.dropRef h) s' → Shrinks s s' → Q () s') :
    wp (deleteHandler h) Q E (s.withHandler h (some { m with refCount := n })) := by
  have hgroups : h ∈ s.searcher.mergeGroups := (hinv.groups h).mpr ⟨m, hm⟩
  have hpaused (x : StateId) (hx : x ∈ m.closedStates) : x ∈ s.searcher.pausedStates :=
    (hinv.paused x).mpr ⟨h, m, hm, hx⟩
  unfold deleteHandler
  rw [wp_bind, wp_get]
  rw [if_pos (show h ∈ (s.withHandler h (some { m with refCount := n })).searcher.mergeGroups from
    hgroups), wp_bind]
  refine wp_modify.mpr ?_
  rw [wp_bind]
  refine wp_releaseStates (m := { m with refCount := n }) (Function.update_self _ _ _)
    (hinv.closed_nodup h m hm) hpaused hinv.paused_nodup fun s₁ hs₁ hrel => ?_
  have hrel' : Released m.closedStates s { s₁ with
      searcher := { s₁.searcher with mergeGroups := s.searcher.mergeGroups }
      handlers := s.handlers } :=
    ⟨hrel.executor, rfl, rfl, hrel.nodup, hrel.paused, hrel.inCloseMerge, hrel.base⟩
  have hreleased := hinv.release hm hrel' fun x hx => hclosing x (hpaused x hx)
  have hremoved := hreleased.remove (Function.update_self _ _ _) rfl hopen hextra
  have hfinal : s₁.withHandler h none = MergeState.without { s₁ with
      searcher := { s₁.searcher with mergeGroups := s.searcher.mergeGroups }
      handlers := Function.update s.handlers h (some m.emptied) } h := by
    have hmerge : s₁.searcher.mergeGroups = swapPop s.searcher.mergeGroups h := hrel.mergeGroups
    unfold MergeState.withHandler MergeState.without
    rw [hs₁]
    simp only [MergeState.withHandler, Function.update_idem, ← hmerge]
  refine wp_setHandler (hQ _ ?_ ?_)
  · rw [hfinal]
    exact hremoved
  · refine ⟨hrel.executor, fun h₁ m₁ hm₁ => ?_⟩
    rw [hfinal] at hm₁
    have hm₁ : Function.update (Function.update s.handlers h (some m.emptied)) h none h₁ =
      some m₁ := hm₁
    rw [Function.update_idem] at hm₁
    by_cases heq : h₁ = h
    · subst heq
      rw [Function.update_self] at hm₁
      cases hm₁
    · rw [Function.update_of_ne heq] at hm₁
      exact ⟨m₁, hm₁, rfl⟩

/-- The last reference takes the handler with it. -/
theorem wp_decRef (hinv : Inv v s) (he : 0 < v.extra h)
    (hclosing : ∀ x ∈ s.searcher.pausedStates, ¬ v.closing x)
    (hQ : ∀ s', Inv (v.dropRef h) s' → Shrinks s s' → Q () s') : wp (decRef h) Q E s := by
  obtain ⟨m, hm⟩ := hinv.exists_of_extra h he
  have hcount := hinv.refCount h m hm
  unfold decRef
  rw [wp_bind]
  refine wp_readHandler hm ?_
  rw [wp_bind]
  refine wp_setHandler ?_
  rw [wp_ite]
  constructor
  · intro hzero
    have hlen : m.openStates.length = 0 := by omega
    exact wp_deleteHandler hinv hm (List.length_eq_zero_iff.mp hlen) (by omega) hclosing hQ
  · intro hpos
    refine hQ _ ?_ (shrinks_withHandler hm rfl)
    refine hinv.modify hm rfl (hinv.nodup h m hm) (hinv.openStates h m hm) (fun h' hne => ?_) ?_
      (Nat.pos_of_ne_zero hpos) rfl rfl fun x hx => .inl hx
    · simp [View.dropRef, Function.update_of_ne hne]
    · show m.refCount - 1 = m.openStates.length + Function.update v.extra h _ h
      rw [Function.update_self]
      omega

end Release

section States

/-- Views that say the same. -/
theorem Inv.congr (hinv : Inv v s) (hopen : ∀ h x, v'.isOpen h x ↔ v.isOpen h x)
    (hextra : ∀ h, v'.extra h = v.extra h) (hheld : ∀ x, v'.held x ↔ v.held x)
    (hclosing : ∀ x, v'.closing x ↔ v.closing x) : Inv v' s := by
  have heq : v' = v := by
    obtain ⟨o, e, a, c⟩ := v
    obtain ⟨o', e', a', c'⟩ := v'
    obtain rfl : o' = o := funext fun h => funext fun x => propext (hopen h x)
    obtain rfl : e' = e := funext hextra
    obtain rfl : a' = a := funext fun x => propext (hheld x)
    obtain rfl : c' = c := funext fun x => propext (hclosing x)
    rfl
  rwa [heq]

/-- The executor does not matter for the handlers. -/
theorem Inv.withExecutor (hinv : Inv v s) (e : MergeExecutor) : Inv v { s with executor := e } :=
  { hinv with }

theorem Shrinks.withExecutor (hs : Shrinks s s') (e : MergeExecutor) :
    Shrinks { s with executor := e } { s' with executor := e } := ⟨rfl, hs.closed⟩

theorem wp_removeAll {hs : List HandlerId} (hinv : Inv v s) (hnodup : hs.Nodup)
    (ho : ∀ h ∈ hs, v.isOpen h es)
    (hQ : ∀ s', Inv { v with
      isOpen := fun h x => v.isOpen h x ∧ ¬ (x = es ∧ h ∈ hs)
      extra := fun h => v.extra h + if h ∈ hs then 1 else 0 } s' → Shrinks s s' →
        s'.searcher = s.searcher → Q () s') :
    wp (hs.forM (removeOpenState · es)) Q E s := by
  induction hs generalizing v s with
  | nil =>
    refine hQ s (hinv.congr (fun h x => ?_) (fun h => ?_) (fun x => Iff.rfl) fun x => Iff.rfl)
      (.refl s) rfl
    · simp
    · simp
  | cons h hs ih =>
    obtain ⟨hnot, hnodup⟩ := List.nodup_cons.mp hnodup
    have hne (h' : HandlerId) (hh' : h' ∈ hs) : h' ≠ h := fun heq => hnot (heq ▸ hh')
    refine wp_bind.mpr (wp_removeOpenState hinv (ho h List.mem_cons_self) fun s₁ hinv₁ hs₁ hq₁ => ?_)
    refine ih hinv₁ hnodup (fun h' hh' => ?_) fun s' hinv' hs' hq' => ?_
    · have heq : (v.close h es).isOpen h' = v.isOpen h' := Function.update_of_ne (hne h' hh') _ _
      rw [heq]
      exact ho h' (List.mem_cons_of_mem _ hh')
    · refine hQ s' (hinv'.congr (fun h' x => ?_) (fun h' => ?_) (fun _ => Iff.rfl) fun _ => Iff.rfl)
        (hs₁.trans hs') (hq'.trans hq₁)
      · by_cases heq : h' = h
        · subst heq
          simp [View.close, hnot]
        · simp [View.close, heq]
      · by_cases heq : h' = h
        · subst heq
          simp [View.close, hnot]
        · simp [View.close, heq]

theorem wp_decAll {hs : List HandlerId} (hinv : Inv v s) (hnodup : hs.Nodup)
    (he : ∀ h ∈ hs, 0 < v.extra h) (hclosing : ∀ x, ¬ v.closing x)
    (hQ : ∀ s', Inv { v with extra := fun h => v.extra h - if h ∈ hs then 1 else 0 } s' →
      Shrinks s s' → Q () s') : wp (hs.forM decRef) Q E s := by
  induction hs generalizing v s with
  | nil =>
    refine hQ s (hinv.congr (fun h x => Iff.rfl) (fun h => ?_) (fun x => Iff.rfl) fun x => Iff.rfl)
      (.refl s)
    simp
  | cons h hs ih =>
    obtain ⟨hnot, hnodup⟩ := List.nodup_cons.mp hnodup
    have hne (h' : HandlerId) (hh' : h' ∈ hs) : h' ≠ h := fun heq => hnot (heq ▸ hh')
    refine wp_bind.mpr (wp_decRef hinv (he h List.mem_cons_self) (fun x _ => hclosing x)
      fun s₁ hinv₁ hs₁ => ?_)
    refine ih hinv₁ hnodup (fun h' hh' => ?_) hclosing fun s' hinv' hs' => ?_
    · have heq : (v.dropRef h).extra h' = v.extra h' := Function.update_of_ne (hne h' hh') _ _
      rw [heq]
      exact he h' (List.mem_cons_of_mem _ hh')
    · refine hQ s' (hinv'.congr (fun _ _ => Iff.rfl) (fun h' => ?_) (fun _ => Iff.rfl)
        fun _ => Iff.rfl) (hs₁.trans hs')
      by_cases heq : h' = h
      · subst heq
        simp [View.dropRef, hnot]
      · simp [View.dropRef, heq]

/-- The state is gone from the handlers of its stack. -/
theorem wp_deleteState (hinv : Inv v s) (hstack : (s.executor.openMergeStack es).Nodup)
    (hopen : ∀ h, v.isOpen h es ↔ h ∈ s.executor.openMergeStack es)
    (hclosing : ∀ x, ¬ v.closing x)
    (hQ : ∀ s', Inv { v with isOpen := fun h x => v.isOpen h x ∧ x ≠ es } s' →
      Shrinks { s with executor := { s.executor with
        openMergeStack := Function.update s.executor.openMergeStack es [] } } s' → Q () s') :
    wp (deleteState es) Q E s := by
  unfold deleteState
  rw [wp_bind, wp_get, wp_bind]
  refine wp_removeAll hinv hstack (fun h hh => (hopen h).mpr hh) fun s₁ hinv₁ hs₁ _ => ?_
  rw [wp_bind]
  refine wp_modify.mpr ?_
  refine wp_decAll (hinv₁.withExecutor _) hstack (fun h hh => ?_) hclosing fun s' hinv' hs' => ?_
  · simp [hh]
  · refine hQ s' (hinv'.congr (fun h x => ?_) (fun h => ?_) (fun _ => Iff.rfl) fun _ => Iff.rfl)
      ?_
    · refine and_congr_right fun ho => ?_
      constructor
      · rintro hne ⟨heq, -⟩
        exact hne heq
      · rintro hnot rfl
        exact hnot ⟨rfl, (hopen h).mp ho⟩
    · simp
    · have hs₁' := hs₁.withExecutor { s₁.executor with
        openMergeStack := Function.update s₁.executor.openMergeStack es [] }
      rw [hs₁.executor] at hs₁' hs'
      exact hs₁'.trans hs'

theorem wp_incAll {hs : List HandlerId} (hinv : Inv v s) (hnodup : hs.Nodup)
    (he : ∀ h ∈ hs, ∃ m, s.handlers h = some m)
    (hQ : ∀ s', Inv { v with extra := fun h => v.extra h + if h ∈ hs then 1 else 0 } s' →
      Shrinks s s' → s'.searcher = s.searcher → Q () s') : wp (hs.forM incRef) Q E s := by
  induction hs generalizing v s with
  | nil =>
    refine hQ s (hinv.congr (fun _ _ => Iff.rfl) (fun h => ?_) (fun _ => Iff.rfl) fun _ => Iff.rfl)
      (.refl s) rfl
    simp
  | cons h hs ih =>
    obtain ⟨hnot, hnodup⟩ := List.nodup_cons.mp hnodup
    obtain ⟨m, hm⟩ := he h List.mem_cons_self
    refine wp_bind.mpr (wp_incRef hinv hm fun s₁ hinv₁ hs₁ hq₁ => ?_)
    refine ih hinv₁ hnodup (fun h' hh' => ?_) fun s' hinv' hs' hq' => ?_
    · obtain ⟨m', hm'⟩ := he h' (List.mem_cons_of_mem _ hh')
      have hgroup := (hinv.groups h').mpr ⟨m', hm'⟩
      rw [← hq₁] at hgroup
      exact (hinv₁.groups h').mp hgroup
    · refine hQ s' (hinv'.congr (fun _ _ => Iff.rfl) (fun h' => ?_) (fun _ => Iff.rfl)
        fun _ => Iff.rfl) (hs₁.trans hs') (hq'.trans hq₁)
      by_cases heq : h' = h
      · subst heq
        simp [View.addRef, hnot]
      · simp [View.addRef, heq]

theorem wp_addAll {hs : List HandlerId} (hinv : Inv v s) (hnodup : hs.Nodup)
    (he : ∀ h ∈ hs, 0 < v.extra h) (ho : ∀ h ∈ hs, ¬ v.isOpen h es)
    (hpaused : es ∉ s.searcher.pausedStates)
    (hQ : ∀ s', Inv { v with
      isOpen := fun h x => v.isOpen h x ∨ (x = es ∧ h ∈ hs)
      extra := fun h => v.extra h - if h ∈ hs then 1 else 0 } s' → Shrinks s s' →
        s'.searcher = s.searcher → Q () s') :
    wp (hs.forM (addOpenState · es)) Q E s := by
  induction hs generalizing v s with
  | nil =>
    refine hQ s (hinv.congr (fun h x => ?_) (fun h => ?_) (fun _ => Iff.rfl) fun _ => Iff.rfl)
      (.refl s) rfl
    · simp
    · simp
  | cons h hs ih =>
    obtain ⟨hnot, hnodup⟩ := List.nodup_cons.mp hnodup
    have hne (h' : HandlerId) (hh' : h' ∈ hs) : h' ≠ h := fun heq => hnot (heq ▸ hh')
    refine wp_bind.mpr (wp_addOpenState hinv (he h List.mem_cons_self) (ho h List.mem_cons_self)
      hpaused fun s₁ hinv₁ hs₁ hq₁ => ?_)
    refine ih hinv₁ hnodup (fun h' hh' => ?_) (fun h' hh' => ?_) (hq₁ ▸ hpaused)
      fun s' hinv' hs' hq' => ?_
    · have heq : (v.open h es).extra h' = v.extra h' := Function.update_of_ne (hne h' hh') _ _
      rw [heq]
      exact he h' (List.mem_cons_of_mem _ hh')
    · have heq : (v.open h es).isOpen h' = v.isOpen h' := Function.update_of_ne (hne h' hh') _ _
      rw [heq]
      exact ho h' (List.mem_cons_of_mem _ hh')
    · refine hQ s' (hinv'.congr (fun h' x => ?_) (fun h' => ?_) (fun _ => Iff.rfl) fun _ => Iff.rfl)
        (hs₁.trans hs') (hq'.trans hq₁)
      · by_cases heq : h' = h
        · subst heq
          simp [View.open, hnot]
        · simp [View.open, heq]
      · by_cases heq : h' = h
        · subst heq
          simp [View.open, hnot]
        · simp [View.open, heq]

end States

section Changes

/-- A new handler with the open state `es`. -/
def MergeState.withNew (s : MergeState) (h : HandlerId) (es : StateId) : MergeState :=
  { s with
    searcher := { s.searcher with mergeGroups := s.searcher.mergeGroups ++ [h] }
    handlers := Function.update s.handlers h (some ⟨[es], [], 1⟩) }

theorem withNew_cases (hm : (s.withNew h es).handlers h' = some m) :
    (h' = h ∧ m = ⟨[es], [], 1⟩) ∨ (h' ≠ h ∧ s.handlers h' = some m) := by
  have hm : Function.update s.handlers h (some ⟨[es], [], 1⟩) h' = some m := hm
  by_cases heq : h' = h
  · subst heq
    rw [Function.update_self] at hm
    exact .inl ⟨rfl, (Option.some.inj hm).symm⟩
  · rw [Function.update_of_ne heq] at hm
    exact .inr ⟨heq, hm⟩

/-- A handler with closed states is an old one. -/
theorem withNew_closed (hm : (s.withNew h es).handlers h' = some m) (hx : x ∈ m.closedStates) :
    s.handlers h' = some m := by
  cases withNew_cases hm with
  | inl heq =>
    obtain ⟨-, rfl⟩ := heq
    cases hx
  | inr hold => exact hold.2

theorem withNew_old (hfresh : s.handlers h = none) (hm : s.handlers h' = some m) :
    (s.withNew h es).handlers h' = some m := by
  have hne : h' ≠ h := by
    rintro rfl
    rw [hfresh] at hm
    cases hm
  exact (Function.update_of_ne hne _ _).trans hm

theorem Inv.create (hinv : Inv v s) (hfresh : s.handlers h = none)
    (hpaused : es ∉ s.searcher.pausedStates) :
    Inv { v with isOpen := Function.update v.isOpen h (· = es) } (s.withNew h es) := by
  have hextra : v.extra h = 0 := by
    refine Nat.eq_zero_of_not_pos fun he => ?_
    obtain ⟨m, hm⟩ := hinv.exists_of_extra h he
    rw [hfresh] at hm
    cases hm
  have hgroup : h ∉ s.searcher.mergeGroups := by
    intro hmem
    obtain ⟨m, hm⟩ := (hinv.groups h).mp hmem
    rw [hfresh] at hm
    cases hm
  have hread {h₁ : HandlerId} {m₁ : MergeHandler} (hm₁ : (s.withNew h es).handlers h₁ = some m₁) :
      m₁.openStates.Nodup ∧
        (∀ x, x ∈ m₁.openStates ↔ Function.update v.isOpen h (· = es) h₁ x) ∧
        m₁.refCount = m₁.openStates.length + v.extra h₁ ∧ 0 < m₁.refCount ∧
        m₁.closedStates.Nodup := by
    cases withNew_cases hm₁ with
    | inl heq =>
      obtain ⟨rfl, rfl⟩ := heq
      rw [Function.update_self, hextra]
      exact ⟨List.nodup_singleton _, fun x => List.mem_singleton, rfl, Nat.one_pos, List.nodup_nil⟩
    | inr hold =>
      obtain ⟨hne, hm₁⟩ := hold
      rw [Function.update_of_ne hne]
      exact ⟨hinv.nodup h₁ m₁ hm₁, hinv.openStates h₁ m₁ hm₁, hinv.refCount h₁ m₁ hm₁,
        hinv.pos h₁ m₁ hm₁, hinv.closed_nodup h₁ m₁ hm₁⟩
  have hexists (h₁ : HandlerId) (hx : h₁ = h ∨ ∃ m₁, s.handlers h₁ = some m₁) :
      ∃ m₁, (s.withNew h es).handlers h₁ = some m₁ := by
    cases hx with
    | inl heq =>
      subst heq
      exact ⟨_, Function.update_self _ _ _⟩
    | inr hold =>
      obtain ⟨m₁, hm₁⟩ := hold
      exact ⟨m₁, withNew_old hfresh hm₁⟩
  refine {
    nodup := fun h₁ m₁ hm₁ => (hread hm₁).1
    openStates := fun h₁ m₁ hm₁ => (hread hm₁).2.1
    refCount := fun h₁ m₁ hm₁ => (hread hm₁).2.2.1
    pos := fun h₁ m₁ hm₁ => (hread hm₁).2.2.2.1
    exists_of_open := fun h₁ x ho => hexists h₁ ?_
    exists_of_extra := fun h₁ he => hexists h₁ (.inr (hinv.exists_of_extra h₁ he))
    closed_nodup := fun h₁ m₁ hm₁ => (hread hm₁).2.2.2.2
    closed_unique := fun h₁ m₁ h₂ m₂ x hm₁ hm₂ hx₁ hx₂ => hinv.closed_unique h₁ m₁ h₂ m₂ x
      (withNew_closed hm₁ hx₁) (withNew_closed hm₂ hx₂) hx₁ hx₂
    paused_nodup := hinv.paused_nodup
    paused := fun x => (hinv.paused x).trans ⟨?_, ?_⟩
    inCloseMerge := hinv.inCloseMerge
    base_nodup := hinv.base_nodup
    base := hinv.base
    paused_held := hinv.paused_held
    newer := fun h₁ m₁ x h₂ hm₁ hx ho => ?_
    groups_nodup := ?_
    groups := fun h₁ => ?_ }
  · by_cases heq : h₁ = h
    · exact .inl heq
    · have ho : Function.update v.isOpen h (· = es) h₁ x := ho
      rw [Function.update_of_ne heq] at ho
      exact .inr (hinv.exists_of_open h₁ x ho)
  · rintro ⟨h₁, m₁, hm₁, hx⟩
    exact ⟨h₁, m₁, withNew_old hfresh hm₁, hx⟩
  · rintro ⟨h₁, m₁, hm₁, hx⟩
    exact ⟨h₁, m₁, withNew_closed hm₁ hx, hx⟩
  · have ho : Function.update v.isOpen h (· = es) h₂ x := ho
    have hold := withNew_closed hm₁ hx
    by_cases heq : h₂ = h
    · subst heq
      rw [Function.update_self] at ho
      subst ho
      exact absurd ((hinv.paused x).mpr ⟨h₁, m₁, hold, hx⟩) hpaused
    · rw [Function.update_of_ne heq] at ho
      exact hinv.newer h₁ m₁ x h₂ hold hx ho
  · exact List.nodup_append.mpr ⟨hinv.groups_nodup, List.nodup_singleton _, fun a ha b hb heq =>
      hgroup (List.mem_singleton.mp hb ▸ heq ▸ ha)⟩
  · show h₁ ∈ s.searcher.mergeGroups ++ [h] ↔ _
    rw [List.mem_append, List.mem_singleton, hinv.groups]
    constructor
    · intro hx
      exact hexists h₁ hx.symm
    · rintro ⟨m₁, hm₁⟩
      exact (withNew_cases hm₁).symm.imp (fun hold => ⟨m₁, hold.2⟩) (·.1)

def MergeHandler.push (m : MergeHandler) (mp : Nat) (es : StateId) : MergeHandler :=
  { m with reachedCloseMerge := pushClosed mp es m.reachedCloseMerge }

theorem pushClosed_perm (mp : Nat) (es : StateId) (groups : List (Nat × List StateId)) :
    ((pushClosed mp es groups).flatMap (·.2)).Perm (es :: groups.flatMap (·.2)) := by
  induction groups with
  | nil => exact List.Perm.refl _
  | cons group groups ih =>
    obtain ⟨k, cpv⟩ := group
    unfold pushClosed
    by_cases heq : mp = k
    · rw [if_pos heq]
      show (cpv ++ [es] ++ groups.flatMap (·.2)).Perm (es :: (cpv ++ groups.flatMap (·.2)))
      rw [List.append_assoc]
      exact List.perm_middle
    rw [if_neg heq]
    by_cases hlt : mp < k
    · rw [if_pos hlt]
      exact List.Perm.refl _
    · rw [if_neg hlt]
      exact (ih.append_left cpv).trans List.perm_middle

theorem mem_push {mp : Nat} : x ∈ (m.push mp es).closedStates ↔ x = es ∨ x ∈ m.closedStates := by
  have hperm : (m.push mp es).closedStates.Perm (es :: m.closedStates) := pushClosed_perm _ _ _
  rw [hperm.mem_iff, List.mem_cons]

/-- The state `es` waits in `h`. -/
def MergeState.withClosed (s : MergeState) (h : HandlerId) (m : MergeHandler) (mp : Nat)
    (es : StateId) : MergeState :=
  { s with
    searcher := { s.searcher with
      pausedStates := s.searcher.pausedStates ++ [es]
      base := s.searcher.base.erase es }
    handlers := Function.update s.handlers h (some (m.push mp es)) }

theorem withClosed_cases {mp : Nat} {m₁ : MergeHandler}
    (hm₁ : (s.withClosed h m mp es).handlers h' = some m₁) :
    (h' = h ∧ m₁ = m.push mp es) ∨ (h' ≠ h ∧ s.handlers h' = some m₁) := by
  cases withHandler_cases (s := s) hm₁ with
  | inl heq => exact .inl ⟨heq.1, (Option.some.inj heq.2).symm⟩
  | inr hold => exact .inr hold

/-- Who waits in the handlers now. -/
theorem withClosed_closed {mp : Nat} {m₁ : MergeHandler} (hm : s.handlers h = some m)
    (hm₁ : (s.withClosed h m mp es).handlers h' = some m₁) (hx : x ∈ m₁.closedStates) :
    (h' = h ∧ x = es) ∨ ∃ m₀, s.handlers h' = some m₀ ∧ x ∈ m₀.closedStates := by
  cases withClosed_cases hm₁ with
  | inl heq =>
    obtain ⟨rfl, rfl⟩ := heq
    exact (mem_push.mp hx).imp (fun heq => ⟨rfl, heq⟩) fun hx => ⟨m, hm, hx⟩
  | inr hold => exact .inr ⟨m₁, hold.2, hx⟩

theorem Inv.push {mp : Nat} (hinv : Inv v s) (hm : s.handlers h = some m) (hheld : v.held es)
    (hpaused : es ∉ s.searcher.pausedStates) (hclosing : ∀ x, v.closing x ↔ x = es)
    (hnewer : ∀ h', v.isOpen h' es → h' < h) :
    Inv { v with closing := fun _ => False } (s.withClosed h m mp es) := by
  have hnot {h₁ : HandlerId} {m₁ : MergeHandler} (hm₁ : s.handlers h₁ = some m₁) :
      es ∉ m₁.closedStates := fun hx => hpaused ((hinv.paused es).mpr ⟨h₁, m₁, hm₁, hx⟩)
  have hread {h₁ : HandlerId} {m₁ : MergeHandler}
      (hm₁ : (s.withClosed h m mp es).handlers h₁ = some m₁) :
      ∃ m₀, s.handlers h₁ = some m₀ ∧ m₁.openStates = m₀.openStates ∧
        m₁.refCount = m₀.refCount ∧ m₁.closedStates.Nodup := by
    cases withClosed_cases hm₁ with
    | inl heq =>
      obtain ⟨rfl, rfl⟩ := heq
      have hperm : (m.push mp es).closedStates.Perm (es :: m.closedStates) := pushClosed_perm _ _ _
      refine ⟨m, hm, rfl, rfl, hperm.nodup_iff.mpr (List.nodup_cons.mpr ⟨hnot hm, ?_⟩)⟩
      exact hinv.closed_nodup h₁ m hm
    | inr hold => exact ⟨m₁, hold.2, rfl, rfl, hinv.closed_nodup h₁ m₁ hold.2⟩
  have hexists (h₁ : HandlerId) : (∃ m₁, (s.withClosed h m mp es).handlers h₁ = some m₁) ↔
      ∃ m₀, s.handlers h₁ = some m₀ := by
    constructor
    · rintro ⟨m₁, hm₁⟩
      obtain ⟨m₀, hm₀, -⟩ := hread hm₁
      exact ⟨m₀, hm₀⟩
    · rintro ⟨m₀, hm₀⟩
      by_cases heq : h₁ = h
      · subst heq
        exact ⟨_, Function.update_self _ _ _⟩
      · exact ⟨m₀, (Function.update_of_ne heq _ _).trans hm₀⟩
  have hpaused' (x : StateId) : x ∈ s.searcher.pausedStates ++ [es] ↔
      x ∈ s.searcher.pausedStates ∨ x = es := by
    rw [List.mem_append, List.mem_singleton]
  refine {
    nodup := fun h₁ m₁ hm₁ => ?_
    openStates := fun h₁ m₁ hm₁ => ?_
    refCount := fun h₁ m₁ hm₁ => ?_
    pos := fun h₁ m₁ hm₁ => ?_
    exists_of_open := fun h₁ x ho => (hexists h₁).mpr (hinv.exists_of_open h₁ x ho)
    exists_of_extra := fun h₁ he => (hexists h₁).mpr (hinv.exists_of_extra h₁ he)
    closed_nodup := fun h₁ m₁ hm₁ => ?_
    closed_unique := fun h₁ m₁ h₂ m₂ x hm₁ hm₂ hx₁ hx₂ => ?_
    paused_nodup := ?_
    paused := fun x => (hpaused' x).trans ⟨?_, ?_⟩
    inCloseMerge := fun x => ?_
    base_nodup := hinv.base_nodup.erase es
    base := fun x => ?_
    paused_held := fun x hx => ?_
    newer := fun h₁ m₁ x h₂ hm₁ hx ho => ?_
    groups_nodup := hinv.groups_nodup
    groups := fun h₁ => (hinv.groups h₁).trans (hexists h₁).symm }
  · obtain ⟨m₀, hm₀, hopen, -, -⟩ := hread hm₁
    rw [hopen]
    exact hinv.nodup h₁ m₀ hm₀
  · obtain ⟨m₀, hm₀, hopen, -, -⟩ := hread hm₁
    rw [hopen]
    exact hinv.openStates h₁ m₀ hm₀
  · obtain ⟨m₀, hm₀, hopen, hcount, -⟩ := hread hm₁
    rw [hopen, hcount]
    exact hinv.refCount h₁ m₀ hm₀
  · obtain ⟨m₀, hm₀, -, hcount, -⟩ := hread hm₁
    rw [hcount]
    exact hinv.pos h₁ m₀ hm₀
  · obtain ⟨m₀, -, -, -, hnodup⟩ := hread hm₁
    exact hnodup
  · cases withClosed_closed hm hm₁ hx₁ with
    | inl h₁new =>
      obtain ⟨rfl, rfl⟩ := h₁new
      cases withClosed_closed hm hm₂ hx₂ with
      | inl h₂new => exact h₂new.1.symm
      | inr h₂old =>
        obtain ⟨m₀, hm₀, hx⟩ := h₂old
        exact absurd hx (hnot hm₀)
    | inr h₁old =>
      obtain ⟨m₀, hm₀, hx⟩ := h₁old
      cases withClosed_closed hm hm₂ hx₂ with
      | inl h₂new => exact absurd (h₂new.2 ▸ hx) (hnot hm₀)
      | inr h₂old =>
        obtain ⟨m₀', hm₀', hx'⟩ := h₂old
        exact hinv.closed_unique h₁ m₀ h₂ m₀' x hm₀ hm₀' hx hx'
  · exact List.nodup_append.mpr ⟨hinv.paused_nodup, List.nodup_singleton _, fun a ha b hb heq =>
      hpaused (List.mem_singleton.mp hb ▸ heq ▸ ha)⟩
  · intro hx
    cases hx with
    | inl hx =>
      obtain ⟨h₁, m₀, hm₀, hx⟩ := (hinv.paused x).mp hx
      by_cases heq : h₁ = h
      · subst heq
        obtain rfl := Option.some.inj (hm.symm.trans hm₀)
        exact ⟨h₁, _, Function.update_self _ _ _, mem_push.mpr (.inr hx)⟩
      · exact ⟨h₁, m₀, (Function.update_of_ne heq _ _).trans hm₀, hx⟩
    | inr heq => exact ⟨h, _, Function.update_self _ _ _, mem_push.mpr (.inl heq)⟩
  · rintro ⟨h₁, m₁, hm₁, hx⟩
    cases withClosed_closed hm hm₁ hx with
    | inl hnew => exact .inr hnew.2
    | inr hold =>
      obtain ⟨m₀, hm₀, hx⟩ := hold
      exact .inl ((hinv.paused x).mpr ⟨h₁, m₀, hm₀, hx⟩)
  · refine (hinv.inCloseMerge x).trans ?_
    rw [hclosing]
    exact (hpaused' x).symm.trans (or_iff_left id).symm
  · show x ∈ s.searcher.base.erase es ↔ v.held x ∧ x ∉ s.searcher.pausedStates ++ [es]
    rw [hinv.base_nodup.mem_erase_iff, hinv.base, hpaused', not_or]
    tauto
  · cases (hpaused' x).mp hx with
    | inl hx => exact hinv.paused_held x hx
    | inr heq => exact heq ▸ hheld
  · cases withClosed_closed hm hm₁ hx with
    | inl hnew =>
      obtain ⟨rfl, rfl⟩ := hnew
      exact hnewer h₂ ho
    | inr hold =>
      obtain ⟨m₀, hm₀, hx⟩ := hold
      exact hinv.newer h₁ m₀ x h₂ hm₀ hx ho

/-- Another base searcher and other held states. -/
theorem Inv.withBase (hinv : Inv v s) (base : List StateId) (held : StateId → Prop)
    (hnodup : base.Nodup) (hbase : ∀ x, x ∈ base ↔ held x ∧ x ∉ s.searcher.pausedStates)
    (hheld : ∀ x ∈ s.searcher.pausedStates, held x) :
    Inv { v with held := held } { s with searcher := { s.searcher with base := base } } :=
  { hinv with base_nodup := hnodup, base := hbase, paused_held := hheld }

/-- Other closing states. -/
theorem Inv.withClosing (hinv : Inv v s) (inCloseMerge : Finset StateId)
    (closing : StateId → Prop)
    (hmem : ∀ x, x ∈ inCloseMerge ↔ x ∈ s.searcher.pausedStates ∨ closing x) :
    Inv { v with closing := closing }
      { s with searcher := { s.searcher with inCloseMerge := inCloseMerge } } :=
  { hinv with inCloseMerge := hmem }

end Changes

end Klee.Merging
