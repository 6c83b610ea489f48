import Klee.Core.ForkSides
import Klee.Core.IndirectCall
import Klee.Core.MakeSymbolic
import Klee.Core.ObjectStateSpec
import Klee.Core.ResolveSpec

/-! Which states `handleMakeSymbolic` leaves with a symbolic object, and which with the old one. -/
namespace Klee.Executor

open Hoare

variable {c : MakeSymbolicContext} {o : ExecutorOptions}

section Names

variable {names : Finset String} {name : String}

theorem nameCandidate_injective (name : String) : Function.Injective (nameCandidate name) := by
  intro i j hij
  unfold nameCandidate at hij
  have hne (k : Nat) : name ≠ name ++ "_" ++ toString k := by
    intro h
    have hlen := congrArg String.length h
    simp only [String.length_append] at hlen
    have hone : "_".length = 1 := rfl
    omega
  split at hij
  · split at hij
    · omega
    · exact absurd hij (hne j)
  · split at hij
    · exact absurd hij.symm (hne i)
    · have hlist := congrArg String.toList hij
      simp only [String.toList_append] at hlist
      have hdigits : Nat.toDigits 10 i = Nat.toDigits 10 j := by
        simpa [Nat.toString_eq_repr, Nat.toList_repr] using List.append_cancel_left hlist
      rw [← @Nat.ofDigitChars_ten_toDigits i, hdigits, Nat.ofDigitChars_ten_toDigits]

/-- One of the names that are tried is new. -/
theorem uniqueName_notMem (names : Finset String) (name : String) : uniqueName names name ∉ names := by
  unfold uniqueName
  cases hfind : (List.range (names.card + 1)).find? fun id => decide (nameCandidate name id ∉ names) with
  | some id => simpa using List.find?_some hfind
  | none =>
    have hall : ∀ id ∈ Finset.range (names.card + 1), nameCandidate name id ∈ names := by
      intro id hid
      have hnot := List.find?_eq_none.mp hfind id (List.mem_range.mpr (Finset.mem_range.mp hid))
      simpa using hnot
    have hcard := Finset.card_le_card_of_injOn _ hall (nameCandidate_injective name).injOn
    rw [Finset.card_range] at hcard
    exact absurd hcard (Nat.not_succ_le_self _)

end Names

section Resolution

variable {ex ex₁ ex₂ : Executor SymbolicMemory} {state u : StateId}
variable {s su : ExecutionState SymbolicMemory} {p : Expr} {live : List StateId}

def IsBase (p : Expr) (mo : MemoryObject) (σ : Assignment) : Prop := p.eval σ 64 = mo.address

theorem isBool_isBase (hp : p.IsPointer) (mo : MemoryObject) :
    (EqExpr.create p mo.getBaseExpr).IsBool := (eqValue_spec hp.1 hp.2.symm).1

theorem holds_isBase (hp : p.IsPointer) {mo : MemoryObject} {σ : Assignment} :
    (EqExpr.create p mo.getBaseExpr).Holds σ ↔ IsBase p mo σ := by
  rw [MemoryObject.getBaseExpr, (eqValue_spec hp.1 hp.2.symm).2, hp.2]
  exact BitVec.toNat_inj

/-- The entries of a resolution: states of their own, each with a pointer to its object. -/
structure Entries (ex : Executor SymbolicMemory) (s : ExecutionState SymbolicMemory) (p : Expr)
    (rl : List ObjectPair) (results : List (ObjectPair × StateId)) : Prop where
  sublist : (results.map (·.1)).Sublist rl
  heap : ∀ e ∈ results, ∃ s', ex.heap e.2 = some s' ∧ Narrowed s s' (IsBase p e.1.1)

theorem wp_forkExact (hlt : state < ex.nextState) (hsolver : o.solver.Correct) (hp : p.IsPointer)
    (rl : List ObjectPair) (hacc : Accounted ex state (u :: live) ex₁)
    (hu : ex₁.heap u = some su) (hcs : ∀ e ∈ su.constraints, e.IsBool)
    (hsat : ∃ σ, Satisfies σ su.constraints) :
    wp (forkExact o p rl u) (fun r ex₂ =>
      Accounted ex state (r.1.map (·.2) ++ r.2.toList ++ live) ex₂ ∧
      (∀ x ∈ live, ex₂.heap x = ex₁.heap x) ∧ Entries ex₂ su p rl r.1 ∧
      ∀ u' ∈ r.2, ∃ s', ex₂.heap u' = some s') (fun _ => True) ex₁ := by
  induction rl generalizing u su live ex₁ with
  | nil =>
    refine ⟨hacc, fun _ _ => rfl, ⟨.refl _, fun e he => (List.not_mem_nil he).elim⟩, fun u' hu' => ?_⟩
    obtain rfl := Option.some.inj hu'
    exact ⟨su, hu⟩
  | cons op rl ih =>
    unfold forkExact
    rw [wp_bind]
    have hbase := isBool_isBase hp op.1
    have hult : u < ex₁.nextState := hacc.lt hlt List.mem_cons_self
    refine wp_post (wp_fork_ends hu (hacc.fresh _ le_rfl) hsolver hcs hbase hsat true)
      fun r ex' hfork => ?_
    have hacc' := hacc.fork hlt hfork
    have hnodup := List.nodup_cons.mp (hacc.nodup hlt)
    have hsame (x : StateId) (hx : x ∈ live) : ex'.heap x = ex₁.heap x :=
      hfork.heap (fun heq => hnodup.1 (heq ▸ hx))
        (Nat.ne_of_lt (hacc.lt hlt (List.mem_cons_of_mem _ hx)))
    obtain ⟨a, b⟩ := r
    have hfound : ∀ e ∈ a.toList.map fun st => (op, st),
        ∃ s', ex'.heap e.2 = some s' ∧ Narrowed su s' (IsBase p e.1.1) := by
      intro e he
      obtain ⟨x, hx, rfl⟩ := List.mem_map.mp he
      obtain ⟨s', hs', hnarrow⟩ := (hfork.narrowed hult).1 (Option.mem_toList.mp hx)
      exact ⟨s', hs', hnarrow.mono fun σ => (holds_isBase hp).mp⟩
    have hids : (a.toList.map fun st => (op, st)).map (·.2) = a.toList := by
      rw [List.map_map]
      exact List.map_id _
    have hobjects : ((a.toList.map fun st => (op, st)).map (·.1)).Sublist [op] := by
      cases a with
      | none => exact List.nil_sublist _
      | some x => exact List.Sublist.refl _
    dsimp only
    cases b with
    | none =>
      refine ⟨?_, hsame, ⟨hobjects.trans (List.singleton_sublist.mpr List.mem_cons_self), hfound⟩,
        nofun⟩
      rw [hids]
      exact hacc'
    | some u' =>
      obtain ⟨su', hu', hnarrow⟩ := (hfork.narrowed hult).2 rfl
      have hrest : Accounted ex state (u' :: (a.toList ++ live)) ex' := by
        refine hacc'.perm ?_
        rw [List.append_assoc]
        exact List.perm_middle
      rw [wp_bind]
      refine wp_post (ih hrest hu' hnarrow.isBool hnarrow.sat) fun r' ex₂ h => ?_
      obtain ⟨hacc₂, hheap₂, hentries, hleft⟩ := h
      obtain ⟨results, left⟩ := r'
      refine ⟨hacc₂.perm ?_, fun x hx => ?_, ⟨?_, fun e he => ?_⟩, hleft⟩
      · rw [List.map_append, hids, ← List.append_assoc _ a.toList, List.append_assoc a.toList]
        exact List.perm_append_comm.append_right live
      · exact (hheap₂ x (List.mem_append_right _ hx)).trans (hsame x hx)
      · rw [List.map_append]
        exact hobjects.append hentries.sublist
      · cases List.mem_append.mp he with
        | inl he =>
          obtain ⟨s', hs', hn⟩ := hfound e he
          refine ⟨s', (hheap₂ e.2 (List.mem_append_left _ ?_)).trans hs', hn⟩
          rw [← hids]
          exact List.mem_map_of_mem he
        | inr he =>
          obtain ⟨s', hs', hn⟩ := hentries.heap e he
          exact ⟨s', hs', (hnarrow.trans hn).mono fun σ h => h.2⟩

theorem lt_of_heap {M : Type} {ex : Executor M} {s : ExecutionState M}
    (hfresh : ∀ x, ex.nextState ≤ x → ex.heap x = none) (hs : ex.heap state = some s) :
    state < ex.nextState := by
  by_contra hle
  rw [hfresh state (Nat.le_of_not_lt hle)] at hs
  cases hs

/-- What the resolution leaves: each state of the instruction is in the list, or terminated. -/
structure ResolvedTo (ex : Executor SymbolicMemory) (state : StateId)
    (s : ExecutionState SymbolicMemory) (p : Expr) (rl : List ObjectPair)
    (results : List (ObjectPair × StateId)) (ex' : Executor SymbolicMemory) : Prop where
  accounted : Accounted ex state (results.map (·.2)) ex'
  entries : Entries ex' s p rl results

theorem wp_resolveExact (hfresh : ∀ x, ex.nextState ≤ x → ex.heap x = none)
    (hs : ex.heap state = some s) (hsolver : o.solver.Correct)
    (hp : (c.optimizeExpr p true).IsPointer) (hcs : ∀ e ∈ s.constraints, e.IsBool)
    (hsat : ∃ σ, Satisfies σ s.constraints) :
    wp (resolveExact c o state p) (ResolvedTo ex state s (c.optimizeExpr p true)
      (MemoryMap.resolve o.solver s.constraints (c.optimizeExpr p true) 0 (fun _ => false)
        s.memory.objects).2) (fun _ => True) ex := by
  have hlt := lt_of_heap hfresh hs
  unfold resolveExact
  rw [wp_bind, wp_readState hs, wp_bind]
  dsimp only
  refine wp_post (wp_forkExact hlt hsolver hp _ (accounted_refl hfresh) hs hcs hsat)
    fun r ex₁ h => ?_
  obtain ⟨hacc, -, hentries, hleft⟩ := h
  obtain ⟨results, left⟩ := r
  dsimp only at hacc hentries hleft ⊢
  cases left with
  | none =>
    refine ⟨?_, hentries⟩
    simpa using hacc
  | some u =>
    obtain ⟨su, hu⟩ := hleft u rfl
    rw [wp_bind]
    refine wp_terminateState_terminated hu fun ex₂ hterm => ?_
    have hacc : Accounted ex state (u :: results.map (·.2)) ex₁ := by
      refine hacc.perm ?_
      rw [List.append_nil]
      exact List.perm_append_singleton _ _
    have hnot : u ∉ results.map (·.2) := (List.nodup_cons.mp (hacc.nodup hlt)).1
    refine ⟨hacc.terminated hterm hlt, hentries.sublist, fun e he => ?_⟩
    obtain ⟨s', hs', hn⟩ := hentries.heap e he
    refine ⟨s', (hterm.heap e.2 fun hmem => hnot ?_).trans hs', hn⟩
    rw [← List.mem_singleton.mp hmem]
    exact List.mem_map_of_mem he

end Resolution

section Handler

variable {ex ex' ex₁ : Executor SymbolicMemory} {state st : StateId}
variable {s s' : ExecutionState SymbolicMemory} {p size : Expr} {name : String}
variable {mo : MemoryObject} {m m' : SymbolicMemory}

/-- The whole object is the contents of a new symbolic array, which is recorded. -/
structure MadeSymbolic (mo : MemoryObject) (m m' : SymbolicMemory) (array : Array) (os : ObjectState) :
    Prop where
  objects : m'.objects = m.objects.bindObject mo os
  symbolics : m'.symbolics = m.symbolics ++ [(mo, array)]
  arrayNames : array.name ∉ m.arrayNames ∧ m'.arrayNames = insert array.name m.arrayNames
  isSymbolic : array.isSymbolicArray = true
  size : array.size = mo.size ∧ os.size = mo.size
  contents : ∀ σ : Assignment, ∀ i < mo.size, os.contents σ i = σ array i

theorem madeSymbolic_withSymbolic (hsize : mo.size < 2 ^ 32) :
    ∃ array os, MadeSymbolic mo m (withSymbolic c m mo name) array os := by
  have hmod : mo.size % 2 ^ 32 = mo.size := Nat.mod_eq_of_lt hsize
  have hrep (σ : Assignment) := ObjectState.rep_symbolic (s := some σ)
    (Nat.mod_lt mo.size (show 0 < 2 ^ 32 by decide)) (createArray c (uniqueName m.arrayNames name) mo)
  refine ⟨createArray c (uniqueName m.arrayNames name) mo, _, rfl, rfl,
    ⟨uniqueName_notMem _ _, rfl⟩, rfl, ⟨hmod, ?_⟩, fun σ i hi => ?_⟩
  · exact (hrep fun _ _ => 0).size_eq.trans hmod
  · rw [← hmod] at hi
    refine ((hrep σ).contents_eq hi).trans ?_
    exact if_pos hi

/-- What `executeMakeSymbolic` does to an object: where a test is replayed, the object has the bytes
of the test instead. -/
inductive ObjectMade (o : ExecutorOptions) (mo : MemoryObject) (m m' : SymbolicMemory) : Prop
  | symbolic (array : Array) (os : ObjectState) (h : MadeSymbolic mo m m' array os)
  | replayed (hreplay : o.replayKTest = true) (bytes : List (BitVec 8))
    (hlength : bytes.length = mo.size)
    (h : m' = { m with objects := m.objects.bindObject mo (replayed mo bytes) })

inductive EntryDone (o : ExecutorOptions) (mo : MemoryObject) (st : StateId)
    (s : ExecutionState SymbolicMemory) (ex ex' : Executor SymbolicMemory) : Prop
  | terminated (s' : ExecutionState SymbolicMemory) (hterm : Terminated [st] ex ex')
    (hexplored : ex'.explored = ex.explored ++ [(st, s', TerminateReason.user)])
  | made (m' : SymbolicMemory)
    (hheap : ex'.heap = Function.update ex.heap st (some { s with memory := m' }))
    (hnext : ex'.nextState = ex.nextState) (hexplored : ex'.explored = ex.explored)
    (h : ObjectMade o mo s.memory m')

theorem bindObject_bindObject (objects : MemoryMap) (mo : MemoryObject) (os os' : ObjectState) :
    (objects.bindObject mo os).bindObject mo os' = objects.bindObject mo os' := by
  have hbefore : (objects.filter fun p => decide (mo.address < p.1.address)).filter
      (fun p => decide (p.1.address < mo.address)) = [] := by
    rw [List.filter_filter, List.filter_eq_nil_iff]
    intro p _ h
    rw [Bool.and_eq_true, decide_eq_true_eq, decide_eq_true_eq] at h
    bv_omega
  have hafter : (objects.filter fun p => decide (p.1.address < mo.address)).filter
      (fun p => decide (mo.address < p.1.address)) = [] := by
    rw [List.filter_filter, List.filter_eq_nil_iff]
    intro p _ h
    rw [Bool.and_eq_true, decide_eq_true_eq, decide_eq_true_eq] at h
    bv_omega
  unfold MemoryMap.bindObject
  rw [List.filter_append, List.filter_append, List.filter_cons_of_neg (by simp),
    List.filter_cons_of_neg (by simp), hbefore, hafter, List.filter_filter,
    List.filter_filter]
  simp

structure Replaces (st : StateId) (a : ExecutionState SymbolicMemory)
    (ex ex₁ : Executor SymbolicMemory) : Prop where
  heap : ex₁.heap = Function.update ex.heap st (some a)
  nextState : ex₁.nextState = ex.nextState
  pathWriter : ex₁.pathWriter = ex.pathWriter
  symPathWriter : ex₁.symPathWriter = ex.symPathWriter
  explored : ex₁.explored = ex.explored

/-- A state that was changed first is ended. -/
theorem wp_terminateUser {a : ExecutionState SymbolicMemory} (h : Replaces st a ex ex₁) :
    wp (terminateStateOnError o st .user) (fun _ ex' => EntryDone o mo st s ex ex')
      (fun _ => True) ex₁ := by
  have hst : ex₁.heap st = some a := by rw [h.heap, Function.update_self]
  refine wp_terminateState_reason hst fun ex' hterm hexplored => ?_
  rw [h.explored] at hexplored
  refine .terminated a ⟨fun x hx => ?_, hterm.nextState.trans h.nextState,
    hterm.pathWriter.trans h.pathWriter, hterm.symPathWriter.trans h.symPathWriter,
    _, hexplored, rfl⟩ hexplored
  rw [hterm.heap x hx, h.heap]
  exact Function.update_of_ne (by simpa using hx) _ _

theorem Replaces.done {m' : SymbolicMemory} (h : Replaces st { s with memory := m' } ex ex₁)
    (hmade : ObjectMade o mo s.memory m') : EntryDone o mo st s ex ex₁ :=
  .made m' h.heap h.nextState h.explored hmade

theorem wp_executeMakeSymbolic (hst : ex.heap st = some s) (hsize : mo.size < 2 ^ 32) :
    wp (executeMakeSymbolic c o st mo name) (fun _ ex' => EntryDone o mo st s ex ex')
      (fun _ => True) ex := by
  unfold executeMakeSymbolic
  by_cases hreplay : o.replayKTest = true
  · rw [if_pos hreplay, wp_bind]
    refine (wp_modifyState hst).mpr ?_
    rw [wp_bind, wp_get]
    dsimp only
    cases c.replayObjects[ex.replayPosition]? with
    | none => exact wp_terminateUser ⟨rfl, rfl, rfl, rfl, rfl⟩
    | some bytes =>
      dsimp only
      rw [wp_bind, wp_set]
      split
      · exact wp_terminateUser ⟨rfl, rfl, rfl, rfl, rfl⟩
      · rename_i hlength
        refine (wp_modifyState (Function.update_self _ _ _)).mpr ?_
        have hmade : ObjectMade o mo s.memory { s.memory with
            objects := s.memory.objects.bindObject mo (replayed mo bytes) } :=
          .replayed hreplay bytes (not_not.mp hlength) rfl
        refine Replaces.done ⟨?_, rfl, rfl, rfl, rfl⟩ hmade
        rw [Function.update_idem, bindObject_bindObject]
  · rw [if_neg hreplay, wp_bind, wp_readState hst, wp_bind]
    refine (wp_modifyState hst).mpr ?_
    have hmade : ObjectMade o mo s.memory (withSymbolic c s.memory mo name) := by
      obtain ⟨array, os, h⟩ := @madeSymbolic_withSymbolic c name mo s.memory hsize
      exact .symbolic array os h
    dsimp only
    rw [wp_bind, wp_get]
    dsimp only
    cases ex.seedMap st with
    | none => exact Replaces.done ⟨rfl, rfl, rfl, rfl, rfl⟩ hmade
    | some seeds =>
      dsimp only
      rw [wp_bind, wp_modify]
      split
      · exact Replaces.done ⟨rfl, rfl, rfl, rfl, rfl⟩ hmade
      · exact wp_terminateUser ⟨rfl, rfl, rfl, rfl, rfl⟩

theorem wp_makeEntry (hst : ex.heap st = some s) (hsize : mo.size < 2 ^ 32) :
    wp (makeEntry c o size name mo st) (fun _ ex' => EntryDone o mo st s ex ex')
      (fun _ => True) ex := by
  unfold makeEntry
  rw [wp_bind, wp_readState hst, wp_bind]
  cases o.solver.mustBeTrue s.constraints (EqExpr.create (ZExtExpr.create size 64) mo.getSizeExpr) with
  | none => exact wp_orThrow_none.mpr trivial
  | some res =>
    rw [wp_orThrow_some]
    split
    · exact wp_executeMakeSymbolic hst hsize
    · exact wp_terminateUser (a := s) ⟨(Function.update_eq_self_iff.mpr hst.symm).symm, rfl, rfl, rfl, rfl⟩

def unreached : List (ObjectPair × StateId) → List (ObjectPair × StateId)
  | [] => []
  | e :: rest => if e.1.2.readOnly then rest else unreached rest

theorem unreached_eq_nil {results : List (ObjectPair × StateId)} :
    unreached results = [] ↔ ∀ op ∈ (results.map (·.1)).dropLast, op.2.readOnly = false := by
  induction results with
  | nil => simp [unreached]
  | cons e rest ih =>
    cases rest with
    | nil => simp [unreached]
    | cons e' rest =>
      rw [List.map_cons] at ih
      rw [unreached, List.map_cons, List.map_cons, List.dropLast_cons_cons, List.forall_mem_cons,
        ← ih]
      cases e.1.2.readOnly <;> simp

theorem unreached_sublist (results : List (ObjectPair × StateId)) :
    (unreached results).Sublist results := by
  induction results with
  | nil => exact List.Sublist.refl _
  | cons e rest ih =>
    unfold unreached
    split
    · exact List.sublist_cons_self e rest
    · exact ih.cons e

/-- What the loop over the entries has done, with the states that it has made symbolic. -/
structure EntriesDone (o : ExecutorOptions) (ex : Executor SymbolicMemory) (state : StateId)
    (results : List (ObjectPair × StateId)) (live made : List StateId)
    (ex₁ ex' : Executor SymbolicMemory) : Prop where
  accounted : Accounted ex state (made ++ ((unreached results).map (·.2) ++ live)) ex'
  explored : ex₁.explored <+: ex'.explored
  kept : ∀ x ∈ (unreached results).map (·.2) ++ live, ex'.heap x = ex₁.heap x
  mem : ∀ x ∈ made, x ∈ results.map (·.2)
  reached : ∀ e ∈ results, e ∈ unreached results ∨
    (∃ s', (e.2, s', TerminateReason.user) ∈ terminatedIn ex₁ ex') ∨ e.2 ∈ made
  made : ∀ e ∈ results, e.2 ∈ made → ∃ s₁ s', ex₁.heap e.2 = some s₁ ∧ ex'.heap e.2 = some s' ∧
    s'.constraints = s₁.constraints ∧ ObjectMade o e.1.1 s₁.memory s'.memory

theorem mem_terminatedIn {M : Type} {ex ex₁ ex' : Executor M} {x : Explored M}
    (h : ex.explored <+: ex₁.explored) (h' : ex₁.explored <+: ex'.explored)
    (hx : x ∈ terminatedIn ex₁ ex' ∨ x ∈ terminatedIn ex ex₁) : x ∈ terminatedIn ex ex' := by
  obtain ⟨l, hl⟩ := h
  obtain ⟨l', hl'⟩ := h'
  have hall : terminatedIn ex ex' = terminatedIn ex ex₁ ++ terminatedIn ex₁ ex' := by
    unfold terminatedIn
    rw [← hl', ← hl, List.append_assoc, List.drop_left, List.drop_left, ← List.append_assoc,
      List.drop_left]
  rw [hall, List.mem_append]
  exact hx.symm

theorem wp_makeEntries (hlt : state < ex.nextState) (results : List (ObjectPair × StateId))
    (hsize : ∀ e ∈ results, e.1.1.size < 2 ^ 32) {live : List StateId}
    (hacc : Accounted ex state (results.map (·.2) ++ live) ex₁)
    (hheap : ∀ e ∈ results, ∃ s', ex₁.heap e.2 = some s') :
    wp (makeEntries c o size name results)
      (fun _ ex' => ∃ made, EntriesDone o ex state results live made ex₁ ex') (fun _ => True) ex₁ := by
  induction results generalizing live ex₁ with
  | nil =>
    exact ⟨[], hacc, List.prefix_refl _, fun _ _ => rfl, fun _ h => absurd h List.not_mem_nil,
      fun _ h => absurd h List.not_mem_nil, fun _ h => absurd h List.not_mem_nil⟩
  | cons e rest ih =>
    obtain ⟨⟨mo, old⟩, st⟩ := e
    obtain ⟨s, hs⟩ := hheap _ List.mem_cons_self
    have hnodup : st ∉ rest.map (·.2) ++ live := (List.nodup_cons.mp (hacc.nodup hlt)).1
    unfold makeEntries
    split
    · rename_i hro
      refine wp_terminateState_reason hs fun ex' hterm hexplored => ?_
      have hrest : unreached (((mo, old), st) :: rest) = rest := if_pos hro
      refine ⟨[], ?_, ⟨_, hexplored.symm⟩, fun x hx => ?_, fun _ h => absurd h List.not_mem_nil,
        fun e he => ?_, fun _ _ h => absurd h List.not_mem_nil⟩
      · rw [hrest]
        exact hacc.terminated hterm hlt
      · rw [hrest] at hx
        refine hterm.heap x fun hmem => hnodup ?_
        rwa [← List.mem_singleton.mp hmem]
      · rw [hrest]
        cases List.mem_cons.mp he with
        | inl he =>
          refine .inr (.inl ⟨s, ?_⟩)
          rw [he, terminatedIn, hexplored, List.drop_left]
          exact List.mem_singleton_self _
        | inr he => exact .inl he
    · rename_i hro
      have hrest : unreached (((mo, old), st) :: rest) = unreached rest := if_neg hro
      have hsize' : ∀ e ∈ rest, e.1.1.size < 2 ^ 32 := fun e he => hsize e (List.mem_cons_of_mem _ he)
      rw [wp_bind]
      refine wp_post (wp_makeEntry hs (hsize _ List.mem_cons_self)) fun _ ex₂ hdone => ?_
      have hne (e : ObjectPair × StateId) (he : e ∈ rest) : e.2 ≠ st := fun heq =>
        hnodup (List.mem_append_left _ (heq ▸ List.mem_map_of_mem he))
      have hother {x : StateId} (hx : x ∈ (unreached rest).map (·.2) ++ live) : x ≠ st := by
        rintro rfl
        refine hnodup (List.mem_append.mpr ((List.mem_append.mp hx).imp_left fun hmem => ?_))
        exact ((unreached_sublist rest).map _).subset hmem
      cases hdone with
      | terminated s' hterm hexplored =>
        have hsame {x : StateId} (hx : x ≠ st) : ex₂.heap x = ex₁.heap x :=
          hterm.heap x (by simpa using hx)
        refine wp_post (ih hsize' (hacc.terminated hterm hlt) fun e he => ?_) fun _ ex' h => ?_
        · obtain ⟨s₁, hs₁⟩ := hheap e (List.mem_cons_of_mem _ he)
          exact ⟨s₁, (hsame (hne e he)).trans hs₁⟩
        · obtain ⟨made, h⟩ := h
          have hgrown : ex₁.explored <+: ex₂.explored := ⟨_, hexplored.symm⟩
          refine ⟨made, hrest ▸ h.accounted, hgrown.trans h.explored, fun x hx => ?_,
            fun x hx => List.mem_cons_of_mem _ (h.mem x hx), fun e he => ?_, fun e he hmade => ?_⟩
          · rw [hrest] at hx
            exact (h.kept x hx).trans (hsame (hother hx))
          · rw [hrest]
            cases List.mem_cons.mp he with
            | inl he =>
              refine .inr (.inl ⟨s', mem_terminatedIn hgrown h.explored (.inr ?_)⟩)
              rw [he, terminatedIn, hexplored, List.drop_left]
              exact List.mem_singleton_self _
            | inr he =>
              refine (h.reached e he).imp_right (Or.imp_left fun hterminated => ?_)
              obtain ⟨s₁, hs₁⟩ := hterminated
              exact ⟨s₁, mem_terminatedIn hgrown h.explored (.inl hs₁)⟩
          · cases List.mem_cons.mp he with
            | inl he =>
              rw [he] at hmade
              exact absurd (List.mem_append_left _ (h.mem st hmade)) hnodup
            | inr he =>
              rw [← hsame (hne e he)]
              exact h.made e he hmade
      | made m' hheap₂ hnext hexplored hmade =>
        have hsame {x : StateId} (hx : x ≠ st) : ex₂.heap x = ex₁.heap x := by
          rw [hheap₂, Function.update_of_ne hx]
        have hacc₂ : Accounted ex state (rest.map (·.2) ++ st :: live) ex₂ :=
          (hacc.update (fun x hx => hsame (List.ne_of_not_mem_cons hx)) hnext hexplored hlt).perm
            List.perm_middle.symm
        refine wp_post (ih hsize' hacc₂ fun e he => ?_) fun _ ex' h => ?_
        · obtain ⟨s₁, hs₁⟩ := hheap e (List.mem_cons_of_mem _ he)
          exact ⟨s₁, (hsame (hne e he)).trans hs₁⟩
        · obtain ⟨made, h⟩ := h
          have hgrown : ex₁.explored <+: ex₂.explored := hexplored ▸ List.prefix_refl _
          have hkept {x : StateId} (hx : x ∈ (unreached rest).map (·.2) ++ live) :
              ex'.heap x = ex₂.heap x := by
            refine h.kept x (List.mem_append.mpr ((List.mem_append.mp hx).imp_right ?_))
            exact List.mem_cons_of_mem st
          refine ⟨st :: made, ?_, hgrown.trans h.explored, fun x hx => ?_, fun x hx => ?_,
            fun e he => ?_, fun e he hmem => ?_⟩
          · rw [hrest]
            refine h.accounted.perm ?_
            rw [← List.append_assoc, ← List.append_assoc]
            exact List.perm_middle
          · rw [hrest] at hx
            exact (hkept hx).trans (hsame (hother hx))
          · exact List.mem_cons.mpr ((List.mem_cons.mp hx).imp_right (h.mem x))
          · rw [hrest]
            cases List.mem_cons.mp he with
            | inl he => exact .inr (.inr (he ▸ List.mem_cons_self))
            | inr he =>
              rcases h.reached e he with hun | ⟨s₁, hs₁⟩ | hmem
              · exact .inl hun
              · exact .inr (.inl ⟨s₁, mem_terminatedIn hgrown h.explored (.inl hs₁)⟩)
              · exact .inr (.inr (List.mem_cons_of_mem st hmem))
          · cases List.mem_cons.mp he with
            | inl he =>
              subst he
              refine ⟨s, { s with memory := m' }, hs, ?_, rfl, hmade⟩
              rw [h.kept st (List.mem_append_right _ List.mem_cons_self), hheap₂,
                Function.update_self]
            | inr he =>
              rw [← hsame (hne e he)]
              exact h.made e he ((List.mem_cons.mp hmem).resolve_left (hne e he))

end Handler

section Room

variable {ex ex' : Executor SymbolicMemory} {state u : StateId}
variable {s su : ExecutionState SymbolicMemory} {p : Expr} {f : ObjectPair → Bool}

def PicksBases (su : ExecutionState SymbolicMemory) (p : Expr) (f : ObjectPair → Bool)
    (rl : List ObjectPair) : Prop :=
  ∀ op ∈ rl, f op = true ↔ ∃ σ, Satisfies σ su.constraints ∧ IsBase p op.1 σ

structure ForkedExact (p : Expr) (f : ObjectPair → Bool) (rl : List ObjectPair) (u : StateId)
    (su : ExecutionState SymbolicMemory) (ex : Executor SymbolicMemory)
    (r : List (ObjectPair × StateId) × Option StateId) (ex' : Executor SymbolicMemory) : Prop where
  wellFormed : ex'.WellFormed
  ready : ∀ x sx, x < ex.nextState → x ≠ u → Ready ex x sx → Ready ex' x sx
  objects : r.1.map (·.1) = rl.filter f
  entries : ∀ e ∈ r.1, ∃ s', Ready ex' e.2 s'
  left : ∀ u' ∈ r.2, ∃ s', Ready ex' u' s' ∧ ∀ σ, Satisfies σ s'.constraints →
    Satisfies σ su.constraints ∧ ∀ op ∈ rl, ¬ IsBase p op.1 σ

theorem OnlyIn.ready {M : Type} {ex ex' : Executor M} {sts : List StateId} {x : StateId}
    {sx : ExecutionState M} (h : OnlyIn sts ex ex') (hx : x ∉ sts) (hready : Ready ex x sx) :
    Ready ex' x sx where
  heap := (h.heap x hx).trans hready.heap
  node := h.node x hready.node
  seeds := h.seedMap x hx ▸ hready.seeds
  isBool := hready.isBool
  sat := hready.sat

/-- With room for the forks the list has each object that the pointer can be the base of. -/
theorem wp_forkExact_room (hsolver : o.solver.Correct) (hp : p.IsPointer) (rl : List ObjectPair)
    (hnodup : (rl.map (·.1.address)).Nodup) (hwf : ex.WellFormed) (hready : Ready ex u su)
    (hroom : Room o ex su rl.length) (hf : PicksBases su p f rl) :
    wp (forkExact o p rl u) (ForkedExact p f rl u su ex) (fun _ => False) ex := by
  induction rl generalizing u su ex with
  | nil =>
    refine ⟨hwf, fun _ _ _ _ h => h, rfl, fun _ h => absurd h List.not_mem_nil,
        fun u' hu' => ?_⟩
    obtain rfl := Option.some.inj hu'
    exact ⟨su, hready, fun σ hσ => ⟨hσ, fun _ h => absurd h List.not_mem_nil⟩⟩
  | cons op rl ih =>
    obtain ⟨hnew, hnodup'⟩ := List.nodup_cons.mp hnodup
    have hapart {op' : ObjectPair} (hop' : op' ∈ rl) {σ : Assignment} (hbase : IsBase p op.1 σ) :
        ¬ IsBase p op'.1 σ := fun hbase' =>
      hnew (List.mem_map.mpr ⟨op', hop', hbase'.symm.trans hbase⟩)
    have hlt := lt_nextState hwf hready.heap
    have hop := hf op List.mem_cons_self
    unfold forkExact
    rw [wp_bind]
    refine wp_fork_internal hwf hready hsolver (isBool_isBase hp op.1) hroom ?_ ?_
    · intro side ex₁ s₁ hall honly hnext hready₁ hroom₁ hs₁
      have hkept (x : StateId) (sx : ExecutionState SymbolicMemory) (hx : x ≠ u)
          (h : Ready ex x sx) : Ready ex₁ x sx := honly.ready (by simpa using hx) h
      cases side with
      | true =>
        have hfilter : (op :: rl).filter f = [op] := by
          obtain ⟨σ, hσ⟩ := hready.sat
          have hbase (σ : Assignment) (hσ : Satisfies σ su.constraints) : IsBase p op.1 σ :=
            (holds_isBase hp).mp ((hall σ hσ).mpr rfl)
          rw [List.filter_cons_of_pos (hop.mpr ⟨σ, hσ, hbase σ hσ⟩), List.cons_inj_right,
            List.filter_eq_nil_iff]
          intro op' hop' hpick
          obtain ⟨σ, hσ, hbase'⟩ := (hf op' (List.mem_cons_of_mem _ hop')).mp hpick
          exact hapart hop' (hbase σ hσ) hbase'
        refine ⟨honly.wellFormed, fun x sx _ => hkept x sx, hfilter.symm, fun e he => ?_, nofun⟩
        rw [List.mem_singleton.mp he]
        exact ⟨s₁, hready₁⟩
      | false =>
        have hnot (σ : Assignment) (hσ : Satisfies σ su.constraints) : ¬ IsBase p op.1 σ :=
          fun hbase => Bool.false_ne_true ((hall σ hσ).mp ((holds_isBase hp).mpr hbase))
        have hsame (σ : Assignment) : Satisfies σ s₁.constraints ↔ Satisfies σ su.constraints := by
          rw [hs₁.constraints, and_iff_left_iff_imp]
          exact hall σ
        have hf₁ : PicksBases s₁ p f rl := fun op' hop' => by
          simp only [hsame]
          exact hf op' (List.mem_cons_of_mem _ hop')
        show wp (forkExact o p rl u >>= fun r => pure ([] ++ r.1, r.2)) _ _ _
        rw [wp_bind]
        refine wp_post (ih hnodup' honly.wellFormed hready₁ (hroom₁.mono (Nat.le_succ _)) hf₁)
          fun r ex₂ h => ?_
        refine ⟨h.wellFormed, fun x sx hx hne hx' =>
            h.ready x sx (hnext ▸ hx) hne (hkept x sx hne hx'), ?_, h.entries,
          fun u' hu' => ?_⟩
        · rw [List.filter_cons_of_neg]
          · exact h.objects
          · rw [hop]
            exact fun ⟨σ, hσ, hbase⟩ => hnot σ hσ hbase
        · obtain ⟨s', hs', hleft⟩ := h.left u' hu'
          refine ⟨s', hs', fun σ hσ => ?_⟩
          obtain ⟨hσ₁, hbases⟩ := hleft σ hσ
          exact ⟨(hsame σ).mp hσ₁, List.forall_mem_cons.mpr ⟨hnot σ ((hsame σ).mp hσ₁), hbases⟩⟩
    · intro ex₁ a b htrue hfalse honly hnext hready₁ hready₂ _ hroom₂ ha hb
      have hkept (x : StateId) (sx : ExecutionState SymbolicMemory) (hx : x < ex.nextState)
          (hne : x ≠ u) (h : Ready ex x sx) : Ready ex₁ x sx := by
        refine honly.ready ?_ h
        rw [List.mem_cons, List.mem_singleton, not_or]
        exact ⟨hne, Nat.ne_of_lt hx⟩
      have hlt₁ {x : StateId} (hx : x < ex.nextState) : x < ex₁.nextState :=
        hnext ▸ Nat.lt_succ_of_lt hx
      have hb' (σ : Assignment) : Satisfies σ b.constraints ↔
          Satisfies σ su.constraints ∧ ¬ IsBase p op.1 σ := by
        rw [hb.constraints, holds_isBase hp]
      have hf₁ : PicksBases b p f rl := fun op' hop' => by
        rw [hf op' (List.mem_cons_of_mem _ hop')]
        refine exists_congr fun σ => ?_
        rw [hb']
        exact ⟨fun h => ⟨⟨h.1, fun hbase => hapart hop' hbase h.2⟩, h.2⟩, fun h => ⟨h.1.1, h.2⟩⟩
      show wp (forkExact o p rl ex.nextState >>= fun r => pure ([(op, u)] ++ r.1, r.2)) _ _ _
      rw [wp_bind]
      refine wp_post (ih hnodup' honly.wellFormed hready₂ hroom₂ hf₁) fun r ex₂ h => ?_
      refine ⟨h.wellFormed, fun x sx hx hne hx' =>
          h.ready x sx (hlt₁ hx) (Nat.ne_of_lt hx) (hkept x sx hx hne hx'), ?_, ?_,
        fun u' hu' => ?_⟩
      · obtain ⟨σ, hσ, hholds⟩ := htrue
        rw [List.filter_cons_of_pos (hop.mpr ⟨σ, hσ, (holds_isBase hp).mp hholds⟩)]
        exact congrArg (op :: ·) h.objects
      · refine List.forall_mem_cons.mpr ⟨⟨a, ?_⟩, h.entries⟩
        exact h.ready u a (hlt₁ hlt) (Nat.ne_of_lt hlt) hready₁
      · obtain ⟨s', hs', hleft⟩ := h.left u' hu'
        refine ⟨s', hs', fun σ hσ => ?_⟩
        obtain ⟨hσ₁, hbases⟩ := hleft σ hσ
        obtain ⟨hσs, hnot⟩ := (hb' σ).mp hσ₁
        exact ⟨hσs, List.forall_mem_cons.mpr ⟨hnot, hbases⟩⟩

end Room

section Ends

variable {ex ex' : Executor SymbolicMemory} {state st : StateId}
variable {s : ExecutionState SymbolicMemory} {pointer size : Expr} {name : String}
variable {mo : MemoryObject} {left : List StateId}

structure Standing (ex : Executor SymbolicMemory) (st : StateId)
    (s : ExecutionState SymbolicMemory) : Prop where
  heap : ex.heap st = some s
  node : st ∈ ex.processTree.leaves
  isBool : ∀ e ∈ s.constraints, e.IsBool
  sat : ∃ σ, Satisfies σ s.constraints

theorem Ready.standing (h : Ready ex st s) : Standing ex st s := ⟨h.heap, h.node, h.isBool, h.sat⟩

structure Waiting (left : List StateId) (ex : Executor SymbolicMemory) : Prop where
  nodup : ex.processTree.leaves.Nodup
  standing : ∀ x ∈ left, ∃ s, Standing ex x s

theorem Waiting.update (h : Waiting (st :: left) ex)
    (hst : st ∉ left) (hheap : ∀ x, x ≠ st → ex'.heap x = ex.heap x)
    (hnodup : ex'.processTree.leaves.Nodup)
    (hleaves : ∀ x ∈ ex.processTree.leaves, x ≠ st → x ∈ ex'.processTree.leaves) :
    Waiting left ex' := by
  refine ⟨hnodup, fun x hx => ?_⟩
  obtain ⟨s, hs⟩ := h.standing x (List.mem_cons_of_mem st hx)
  have hne : x ≠ st := fun heq => hst (heq ▸ hx)
  exact ⟨s, (hheap x hne).trans hs.heap, hleaves x hs.node hne, hs.isBool, hs.sat⟩

theorem wp_terminateState_waiting {reason : TerminateReason} (h : Waiting (st :: left) ex)
    (hst : st ∉ left) :
    wp (terminateState o st reason) (fun _ => Waiting left) (fun _ => False) ex := by
  obtain ⟨s, hs⟩ := h.standing st List.mem_cons_self
  have hother (a : Option (ExecutionState SymbolicMemory)) (x : StateId) (hx : x ≠ st) :
      Function.update ex.heap st a x = ex.heap x := Function.update_of_ne hx _ _
  refine wp_terminateState hs.heap (fun _ => ?_) fun _ => ?_
  · obtain ⟨t, ht, hnodup, -, hkept⟩ := PTree.remove_of_mem hs.node h.nodup
    rw [ht]
    exact h.update hst (hother _) hnodup hkept
  · exact h.update hst (hother _) h.nodup fun x hx _ => hx

theorem isBool_isSize (hsize : (ZExtExpr.create size 64).IsPointer) (mo : MemoryObject) :
    (EqExpr.create (ZExtExpr.create size 64) mo.getSizeExpr).IsBool :=
  (eqValue_spec hsize.1 hsize.2.symm).1

theorem wp_makeEntry_waiting (hsolver : o.solver.Correct) (hreplay : o.replayKTest = false)
    (hsize : (ZExtExpr.create size 64).IsPointer) (h : Waiting (st :: left) ex) (hst : st ∉ left) :
    wp (makeEntry c o size name mo st) (fun _ => Waiting left) (fun _ => False) ex := by
  obtain ⟨s, hs⟩ := h.standing st List.mem_cons_self
  obtain ⟨b, hb, -⟩ := hsolver.mustBeTrue hs.isBool (isBool_isSize hsize mo) hs.sat
  have hother (a : Option (ExecutionState SymbolicMemory)) (x : StateId) (hx : x ≠ st) :
      Function.update ex.heap st a x = ex.heap x := Function.update_of_ne hx _ _
  unfold makeEntry
  rw [wp_bind, wp_readState hs.heap, wp_bind, hb, wp_orThrow_some]
  cases b with
  | false => exact wp_terminateState_waiting h hst
  | true =>
    rw [if_pos rfl, executeMakeSymbolic, if_neg (by rw [hreplay]; exact Bool.false_ne_true), wp_bind,
      wp_readState hs.heap, wp_bind]
    refine (wp_modifyState hs.heap).mpr ?_
    dsimp only
    rw [wp_bind, wp_get]
    dsimp only
    cases ex.seedMap st with
    | none => exact h.update hst (hother _) h.nodup fun x hx _ => hx
    | some seeds =>
      dsimp only
      rw [wp_bind, wp_modify]
      split
      · exact h.update hst (hother _) h.nodup fun x hx _ => hx
      · refine wp_terminateState_waiting ⟨h.nodup, List.forall_mem_cons.mpr ⟨⟨_,
          Function.update_self _ _ _, hs.node, hs.isBool, hs.sat⟩, fun x hx => ?_⟩⟩ hst
        obtain ⟨s', hs'⟩ := h.standing x (List.mem_cons_of_mem st hx)
        have hne : x ≠ st := fun heq => hst (heq ▸ hx)
        exact ⟨s', (hother _ x hne).trans hs'.heap, hs'.node, hs'.isBool, hs'.sat⟩

theorem wp_makeEntries_waiting (hsolver : o.solver.Correct) (hreplay : o.replayKTest = false)
    (hsize : (ZExtExpr.create size 64).IsPointer) (results : List (ObjectPair × StateId))
    (h : Waiting (results.map (·.2)) ex) (hnodup : (results.map (·.2)).Nodup) :
    wp (makeEntries c o size name results) (fun _ _ => True) (fun _ => False) ex := by
  induction results generalizing ex with
  | nil => trivial
  | cons e rest ih =>
    obtain ⟨⟨mo, old⟩, st⟩ := e
    obtain ⟨hst, hrest⟩ := List.nodup_cons.mp hnodup
    unfold makeEntries
    split
    · exact wp_post (wp_terminateState_waiting h hst) fun _ _ _ => trivial
    · rw [wp_bind]
      exact wp_post (wp_makeEntry_waiting hsolver hreplay hsize h hst) fun _ _ h' => ih h' hrest

end Ends

section Right

variable {ex ex' ex₁ : Executor SymbolicMemory} {state st : StateId}
variable {s s' : ExecutionState SymbolicMemory} {pointer size : Expr} {name : String}
variable {results : List (ObjectPair × StateId)} {made : List StateId}

/-- The objects of `resolve`, in its order. -/
def resolvedObjects (c : MakeSymbolicContext) (o : ExecutorOptions)
    (s : ExecutionState SymbolicMemory) (pointer : Expr) : List ObjectPair :=
  (MemoryMap.resolve o.solver s.constraints (c.optimizeExpr pointer true) 0 (fun _ => false)
    s.memory.objects).2

def baseObjects (c : MakeSymbolicContext) (o : ExecutorOptions)
    (s : ExecutionState SymbolicMemory) (pointer : Expr) : List ObjectPair :=
  (resolvedObjects c o s pointer).filter fun op => o.solver.mayBeTrue s.constraints
    (EqExpr.create (c.optimizeExpr pointer true) op.1.getBaseExpr) = some true

def NoneAfterReadOnly (ops : List ObjectPair) : Prop := ∀ op ∈ ops.dropLast, op.2.readOnly = false

/-- An entry of the resolution is ended with an error, or its state goes on with the object made
symbolic. -/
inductive EntryRight (o : ExecutorOptions) (ex ex₁ : Executor SymbolicMemory) (state : StateId)
    (m : SymbolicMemory) (e : ObjectPair × StateId) (ex' : Executor SymbolicMemory) : Prop
  | terminated (s' : ExecutionState SymbolicMemory)
    (h : (e.2, s', TerminateReason.user) ∈ terminatedIn ex₁ ex') : EntryRight o ex ex₁ state m e ex'
  | made (s' : ExecutionState SymbolicMemory) (hlive : Live ex state ex' e.2 s')
    (h : ObjectMade o e.1.1 m s'.memory) : EntryRight o ex ex₁ state m e ex'

structure HandledRight (o : ExecutorOptions) (ex : Executor SymbolicMemory) (state : StateId)
    (s : ExecutionState SymbolicMemory) (pointer : Expr) (results : List (ObjectPair × StateId))
    (ex₁ ex' : Executor SymbolicMemory) : Prop where
  entries : ∀ e ∈ results, EntryRight o ex ex₁ state s.memory e ex'
  others : ∀ st s', Live ex state ex' st s' → ∃ e ∈ results, e.2 = st ∧ e.1 ∈ s.memory.objects ∧
    ∀ σ, Satisfies σ s'.constraints → IsBase pointer e.1.1 σ

theorem Accounted.live {M : Type} {ex ex' : Executor M} {s' : ExecutionState M}
    {live : List StateId} (h : Accounted ex state live ex') (hlt : state < ex.nextState) (hst : st ∈ live)
    (hs' : ex'.heap st = some s') : Live ex state ex' st s' :=
  ⟨((h.mem_iff hlt).mp hst).1, ((h.mem_iff hlt).mp hst).2, hs'⟩

/-- An entry that the loop has not reached goes on with the old object. -/
theorem EntriesDone.not_right (h : EntriesDone o ex state results [] made ex₁ ex')
    (hlt : state < ex.nextState) (hgrown : ex.explored <+: ex₁.explored)
    {e : ObjectPair × StateId} (he : e ∈ unreached results)
    {m : SymbolicMemory} (hs : ∃ s', ex₁.heap e.2 = some s' ∧ s'.memory = m)
    (hreplay : o.replayKTest = false) : ¬ EntryRight o ex ex₁ state m e ex' := by
  obtain ⟨s₁, hs₁, rfl⟩ := hs
  have hmem : e.2 ∈ (unreached results).map (·.2) ++ [] :=
    List.mem_append_left _ (List.mem_map_of_mem he)
  intro hright
  cases hright with
  | terminated s' hs' =>
    refine ((h.accounted.mem_iff hlt).mp (List.mem_append_right _ hmem)).2 ?_
    exact List.mem_map_of_mem (mem_terminatedIn hgrown h.explored (.inl hs'))
  | made s' hlive hmade =>
    have heq := hlive.heap.symm.trans ((h.kept e.2 hmem).trans hs₁)
    obtain rfl := Option.some.inj heq
    cases hmade with
    | symbolic array os hmade =>
      have hlen := congrArg List.length hmade.symbolics
      simp at hlen
    | replayed hreplay' => cases hreplay.symm.trans hreplay'

theorem Accounted.explored {M : Type} {ex ex' : Executor M} {live : List StateId}
    (h : Accounted ex state live ex') : ex.explored <+: ex'.explored := by
  obtain ⟨k, l, -, hexplored, -⟩ := h.states
  exact ⟨l, hexplored.symm⟩

/-- The state of an entry has the constraints of the resolution to the end. -/
theorem EntriesDone.constraints {live : List StateId}
    (h : EntriesDone o ex state results live made ex₁ ex')
    {e : ObjectPair × StateId} (he : e ∈ results) (hmem : e.2 ∈ made ∨ e ∈ unreached results)
    (hs : ex'.heap e.2 = some s') : ∃ s₁, ex₁.heap e.2 = some s₁ ∧ s'.constraints = s₁.constraints := by
  cases hmem with
  | inl hmade =>
    obtain ⟨s₁, s₂, hs₁, hs₂, hcs, -⟩ := h.made e he hmade
    obtain rfl := Option.some.inj (hs.symm.trans hs₂)
    exact ⟨s₁, hs₁, hcs⟩
  | inr hun =>
    refine ⟨s', (h.kept e.2 (List.mem_append_left _ (List.mem_map_of_mem hun))).symm.trans hs, rfl⟩

theorem IsPointer.optimized (hopt : KeepsValue (c.optimizeExpr · true)) (hp : pointer.IsPointer) :
    (c.optimizeExpr pointer true).IsPointer ∧
      ∀ mo σ, IsBase (c.optimizeExpr pointer true) mo σ ↔ IsBase pointer mo σ := by
  obtain ⟨hsorted, hwidth, heval⟩ := hopt pointer hp.1
  refine ⟨⟨hsorted, hwidth.trans hp.2⟩, fun mo σ => ?_⟩
  have hvalue := heval σ
  rw [hp.2] at hvalue
  exact Iff.of_eq (congrArg (· = mo.address) hvalue)

/-- What is known of a handled resolution: which entries are right depends on the unreached ones. -/
theorem EntriesDone.right_iff (hopt : KeepsValue (c.optimizeExpr · true)) (hp : pointer.IsPointer)
    (hlt : state < ex.nextState)
    (hres : ResolvedTo ex state s (c.optimizeExpr pointer true) (resolvedObjects c o s pointer) results ex₁)
    (hobjects : ∀ op ∈ resolvedObjects c o s pointer, op ∈ s.memory.objects)
    (h : EntriesDone o ex state results [] made ex₁ ex') :
    (unreached results = [] → HandledRight o ex state s pointer results ex₁ ex') ∧
      (o.replayKTest = false → HandledRight o ex state s pointer results ex₁ ex' →
        unreached results = []) := by
  constructor
  · intro hnil
    refine ⟨fun e he => ?_, fun st s' hlive => ?_⟩
    · rcases h.reached e he with hun | ⟨s', hs'⟩ | hmem
      · rw [hnil] at hun
        exact absurd hun List.not_mem_nil
      · exact .terminated s' hs'
      · obtain ⟨s₁, s', hs₁, hs', -, hmade⟩ := h.made e he hmem
        obtain ⟨s₂, hs₂, hnarrow⟩ := hres.entries.heap e he
        obtain rfl := Option.some.inj (hs₁.symm.trans hs₂)
        rw [hnarrow.memory] at hmade
        exact .made s' (h.accounted.live hlt (List.mem_append_left _ hmem) hs') hmade
    · have hst := (h.accounted.mem_iff hlt).mpr ⟨hlive.family, hlive.notTerminated⟩
      rw [hnil, List.map_nil, List.append_nil, List.append_nil] at hst
      obtain ⟨e, he, rfl⟩ := List.mem_map.mp (h.mem st hst)
      obtain ⟨s₁, hs₁, hcs⟩ := h.constraints he (.inl hst) hlive.heap
      obtain ⟨s₂, hs₂, hnarrow⟩ := hres.entries.heap e he
      obtain rfl := Option.some.inj (hs₁.symm.trans hs₂)
      refine ⟨e, he, rfl, hobjects _ (hres.entries.sublist.subset (List.mem_map_of_mem he)),
        fun σ hσ => ?_⟩
      rw [hcs] at hσ
      exact ((IsPointer.optimized hopt hp).2 e.1.1 σ).mp (hnarrow.inputs σ hσ).2
  · intro hreplay hright
    by_contra hne
    obtain ⟨e, he⟩ := List.exists_mem_of_ne_nil _ hne
    have hmem := (unreached_sublist results).subset he
    obtain ⟨s₁, hs₁, hnarrow⟩ := hres.entries.heap e hmem
    exact h.not_right hlt hres.accounted.explored he ⟨s₁, hs₁, hnarrow.memory⟩ hreplay
      (hright.entries e hmem)

/-- The objects of the entries are bases of the pointer, in the order of the resolution. -/
theorem ResolvedTo.sublist_baseObjects (hsolver : o.solver.Correct)
    (hopt : KeepsValue (c.optimizeExpr · true)) (hp : pointer.IsPointer)
    (hcs : ∀ e ∈ s.constraints, e.IsBool) (hsat : ∃ σ, Satisfies σ s.constraints)
    (hres : ResolvedTo ex state s (c.optimizeExpr pointer true) (resolvedObjects c o s pointer) results ex₁) :
    (results.map (·.1)).Sublist (baseObjects c o s pointer) := by
  have hpicked : (results.map (·.1)).filter (fun op => decide (o.solver.mayBeTrue s.constraints
      (EqExpr.create (c.optimizeExpr pointer true) op.1.getBaseExpr) = some true)) =
      results.map (·.1) := by
    refine List.filter_eq_self.mpr fun op hop => ?_
    obtain ⟨e, he, rfl⟩ := List.mem_map.mp hop
    obtain ⟨s', -, hnarrow⟩ := hres.entries.heap e he
    obtain ⟨σ, hσ⟩ := hnarrow.sat
    have hpointer := (IsPointer.optimized hopt hp).1
    obtain ⟨b, hb, hiff⟩ := hsolver.mayBeTrue hcs (isBool_isBase hpointer e.1.1) hsat
    obtain ⟨hσs, hbase⟩ := hnarrow.inputs σ hσ
    rw [decide_eq_true_eq, hb, hiff.mpr ⟨σ, hσs, (holds_isBase hpointer).mpr hbase⟩]
  rw [← hpicked]
  exact hres.entries.sublist.filter _

/-- The order of the list is what matters: a part of it keeps the condition. -/
theorem NoneAfterReadOnly.sublist {ops ops' : List ObjectPair} (h : NoneAfterReadOnly ops)
    (hsub : ops'.Sublist ops) : NoneAfterReadOnly ops' := by
  have htail := hsub.reverse.tail
  rw [List.tail_reverse, List.tail_reverse, List.reverse_sublist] at htail
  exact fun op hop => h op (htail.subset hop)

theorem exact_resolvedObjects (hsolver : o.solver.Correct)
    (hopt : KeepsValue (c.optimizeExpr · true)) (hp : pointer.IsPointer)
    (hcs : ∀ e ∈ s.constraints, e.IsBool) (hsat : ∃ σ, Satisfies σ s.constraints)
    (hl : s.memory.objects.Layout) : MemoryMap.Exact s.constraints (c.optimizeExpr pointer true)
      s.memory.objects (resolvedObjects c o s pointer) := by
  obtain ⟨hexact, hcomplete, -⟩ := MemoryMap.resolve_exact o.solver hsolver s.memory.objects hl
    s.constraints hcs hsat _ (IsPointer.optimized hopt hp).1
  exact hexact (fun _ => false) _ (Prod.ext (hcomplete _ fun _ _ => rfl) rfl)

/-- The forks of the resolution, with room for them. -/
theorem wp_forkExact_resolved (hsolver : o.solver.Correct)
    (hopt : KeepsValue (c.optimizeExpr · true)) (hp : pointer.IsPointer)
    (hl : s.memory.objects.Layout) (hwf : ex.WellFormed) (hready : Ready ex state s)
    (hroom : Room o ex s (resolvedObjects c o s pointer).length) :
    wp (forkExact o (c.optimizeExpr pointer true) (resolvedObjects c o s pointer) state)
      (fun r ex₁ => ForkedExact (c.optimizeExpr pointer true) (fun op => decide
        (o.solver.mayBeTrue s.constraints (EqExpr.create (c.optimizeExpr pointer true)
          op.1.getBaseExpr) = some true)) (resolvedObjects c o s pointer) state s ex r ex₁ ∧
        (r.1.map (·.2) ++ r.2.toList).Nodup) (fun _ => False) ex := by
  have hpointer := (IsPointer.optimized hopt hp).1
  have hlt := lt_nextState hwf hready.heap
  obtain ⟨hnodup, hmem⟩ := exact_resolvedObjects (c := c) hsolver hopt hp hready.isBool hready.sat hl
  have haddress : ((resolvedObjects c o s pointer).map (·.1.address)).Nodup := by
    refine List.Nodup.map_on (fun op hop op' hop' heq => ?_) hnodup
    exact hl.sorted.eq_of_address ((hmem op).mp hop).1 ((hmem op').mp hop').1 heq
  have hpicks : PicksBases s (c.optimizeExpr pointer true) (fun op => decide
      (o.solver.mayBeTrue s.constraints (EqExpr.create (c.optimizeExpr pointer true)
        op.1.getBaseExpr) = some true)) (resolvedObjects c o s pointer) := by
    intro op _
    obtain ⟨b, hb, hiff⟩ := hsolver.mayBeTrue hready.isBool (isBool_isBase hpointer op.1) hready.sat
    rw [decide_eq_true_eq, hb, Option.some.injEq, hiff]
    exact exists_congr fun σ => and_congr_right fun _ => holds_isBase hpointer
  have hroomed := wp_forkExact_room hsolver hpointer _ haddress hwf hready hroom hpicks
  have hall := wp_forkExact hlt hsolver hpointer (resolvedObjects c o s pointer)
    (accounted_refl hwf.heap) hready.heap hready.isBool hready.sat
  refine wp_mono (wp_and hroomed hall) (fun r ex₁ h => ⟨h.1, ?_⟩) fun _ h => h.1
  have hids := h.2.1.nodup hlt
  rwa [List.append_nil] at hids

/-- With room for its forks the resolution has every object that the pointer can be the base of. -/
theorem wp_resolveExact_room (hsolver : o.solver.Correct)
    (hopt : KeepsValue (c.optimizeExpr · true)) (hp : pointer.IsPointer)
    (hl : s.memory.objects.Layout) (hwf : ex.WellFormed) (hready : Ready ex state s)
    (hroom : Room o ex s (resolvedObjects c o s pointer).length) :
    wp (resolveExact c o state pointer) (fun results ex₁ =>
      results.map (·.1) = baseObjects c o s pointer ∧ (results.map (·.2)).Nodup ∧
      Waiting (results.map (·.2)) ex₁) (fun _ => False) ex := by
  unfold resolveExact
  rw [wp_bind, wp_readState hready.heap, wp_bind]
  refine wp_post (wp_forkExact_resolved hsolver hopt hp hl hwf hready hroom) fun r ex₁ h => ?_
  obtain ⟨results, left⟩ := r
  obtain ⟨hforked, hnodup⟩ := h
  have hentries : ∀ x ∈ results.map (·.2), ∃ s', Standing ex₁ x s' := by
    intro x hx
    obtain ⟨e, he, rfl⟩ := List.mem_map.mp hx
    obtain ⟨s', hs'⟩ := hforked.entries e he
    exact ⟨s', hs'.standing⟩
  cases left with
  | none => exact ⟨hforked.objects, hnodup.of_append_left, hforked.wellFormed.nodup, hentries⟩
  | some u =>
    obtain ⟨su, hu, -⟩ := hforked.left u rfl
    have hids := List.nodup_cons.mp ((List.perm_append_singleton u _).nodup_iff.mp hnodup)
    have hwaiting : Waiting (u :: results.map (·.2)) ex₁ :=
      ⟨hforked.wellFormed.nodup, List.forall_mem_cons.mpr ⟨⟨su, hu.standing⟩, hentries⟩⟩
    rw [wp_bind]
    refine wp_post (wp_terminateState_waiting hwaiting hids.1) fun _ ex₂ hwaiting₂ => ?_
    exact ⟨hforked.objects, hids.2, hwaiting₂⟩

/-- With room for the forks the handler ends. -/
theorem exists_handleMakeSymbolic (c : MakeSymbolicContext) (name : String) (hsolver : o.solver.Correct)
    (hopt : KeepsValue (c.optimizeExpr · true)) (hp : pointer.IsPointer)
    (hsize : (ZExtExpr.create size 64).IsPointer) (hl : s.memory.objects.Layout) (hwf : ex.WellFormed)
    (hready : Ready ex state s) (hroom : Room o ex s (resolvedObjects c o s pointer).length) :
    ∃ ex', handleMakeSymbolic c o size name state pointer ex = .ok ((), ex') := by
  obtain ⟨results, ex₁, hresolve, -, hnodup, hwaiting⟩ :=
    exists_ok_of_wp (wp_resolveExact_room hsolver hopt hp hl hwf hready hroom)
  have hmakes : wp (makeEntries c o size name results) (fun _ _ => True) (fun _ => False) ex₁ :=
    wp_makeEntries_waiting hsolver hroom.replayKTest hsize results hwaiting hnodup
  obtain ⟨⟨⟩, ex', hmake, -⟩ := exists_ok_of_wp hmakes
  exact ⟨ex', by rw [handleMakeSymbolic, run_bind_of_ok hresolve, hmake]⟩

/-- What a run of the handler that ends has done. -/
theorem exists_entriesDone (hfresh : ∀ x, ex.nextState ≤ x → ex.heap x = none)
    (hs : ex.heap state = some s) (hsolver : o.solver.Correct)
    (hopt : KeepsValue (c.optimizeExpr · true)) (hp : pointer.IsPointer)
    (hcs : ∀ e ∈ s.constraints, e.IsBool) (hsat : ∃ σ, Satisfies σ s.constraints)
    (hl : s.memory.objects.Layout)
    (hrun : handleMakeSymbolic c o size name state pointer ex = .ok ((), ex')) :
    ∃ results ex₁ made, resolveExact c o state pointer ex = .ok (results, ex₁) ∧
      ResolvedTo ex state s (c.optimizeExpr pointer true) (resolvedObjects c o s pointer) results ex₁ ∧
      EntriesDone o ex state results [] made ex₁ ex' := by
  have hexact := exact_resolvedObjects (c := c) hsolver hopt hp hcs hsat hl
  cases hresolve : resolveExact c o state pointer ex with
  | error f =>
    rw [handleMakeSymbolic, run_bind_of_error hresolve] at hrun
    cases hrun
  | ok r =>
    obtain ⟨results, ex₁⟩ := r
    rw [handleMakeSymbolic, run_bind_of_ok hresolve] at hrun
    have hres := wp_ok (wp_resolveExact hfresh hs hsolver (IsPointer.optimized hopt hp).1 hcs hsat) hresolve
    have hsize : ∀ e ∈ results, e.1.1.size < 2 ^ 32 := fun e he =>
      hl.size_lt _ ((hexact.2 _).mp (hres.entries.sublist.subset (List.mem_map_of_mem he))).1
    have hacc : Accounted ex state (results.map (·.2) ++ []) ex₁ := by
      rw [List.append_nil]
      exact hres.accounted
    obtain ⟨made, hdone⟩ := wp_ok (wp_makeEntries (lt_of_heap hfresh hs) results hsize hacc fun e he =>
      (hres.entries.heap e he).imp fun _ h => h.1) hrun
    exact ⟨results, ex₁, made, rfl, hres, hdone⟩

/-- In every run that ends it is enough for each entry to be right that no read-only object has
another one after it; where no test is replayed, the entries are right in no other case. The
objects of the entries are all that the pointer can be the base of, unless a limit leaves some
out. -/
theorem handleMakeSymbolic_right_iff (c : MakeSymbolicContext) (o : ExecutorOptions)
    (ex : Executor SymbolicMemory) (state : StateId) (s : ExecutionState SymbolicMemory)
    (pointer size : Expr) (name : String) (hfresh : ∀ x, ex.nextState ≤ x → ex.heap x = none)
    (hs : ex.heap state = some s) (hsolver : o.solver.Correct)
    (hopt : KeepsValue (c.optimizeExpr · true)) (hp : pointer.IsPointer)
    (hcs : ∀ e ∈ s.constraints, e.IsBool) (hsat : ∃ σ, Satisfies σ s.constraints)
    (hl : s.memory.objects.Layout) (ex' : Executor SymbolicMemory)
    (hrun : handleMakeSymbolic c o size name state pointer ex = .ok ((), ex')) :
    ∃ results ex₁, resolveExact c o state pointer ex = .ok (results, ex₁) ∧
      (NoneAfterReadOnly (baseObjects c o s pointer) →
        HandledRight o ex state s pointer results ex₁ ex') ∧
      (o.replayKTest = false → (HandledRight o ex state s pointer results ex₁ ex' ↔
        NoneAfterReadOnly (results.map (·.1)))) ∧
      (results.map (·.1)).Sublist (baseObjects c o s pointer) ∧
      (ex.WellFormed → Ready ex state s → Room o ex s (resolvedObjects c o s pointer).length →
        results.map (·.1) = baseObjects c o s pointer) := by
  obtain ⟨results, ex₁, made, hresolve, hres, hdone⟩ :=
    exists_entriesDone hfresh hs hsolver hopt hp hcs hsat hl hrun
  have hsub := hres.sublist_baseObjects hsolver hopt hp hcs hsat
  obtain ⟨hright, hnil⟩ := hdone.right_iff hopt hp (lt_of_heap hfresh hs) hres fun op hop =>
    (((exact_resolvedObjects hsolver hopt hp hcs hsat hl).2 op).mp hop).1
  refine ⟨results, ex₁, hresolve, fun h => hright (unreached_eq_nil.mpr (h.sublist hsub)),
    fun hreplay => ⟨fun h => unreached_eq_nil.mp (hnil hreplay h),
      fun h => hright (unreached_eq_nil.mpr h)⟩, hsub, fun hwf hready hroom => ?_⟩
  exact (wp_ok (wp_resolveExact_room hsolver hopt hp hl hwf hready hroom) hresolve).1

end Right

section Example

def pointerObjects (readOnly : Bool) : MemoryMap :=
  [(⟨8192, 4, false⟩, { ObjectState.ofMemoryObject 4 MemoryMap.four_lt with readOnly := readOnly }),
    (⟨12288, 4, false⟩,
      { ObjectState.ofMemoryObject 4 MemoryMap.four_lt with readOnly := readOnly })]

theorem layout_pointerObjects (readOnly : Bool) : (pointerObjects readOnly).Layout where
  sorted := by simp [MemoryMap.Sorted, pointerObjects]
  size_lt := by simp [pointerObjects]
  inside := by simp [pointerObjects]
  disjoint op hop op' hop' x hx hx' := by
    have hapart : ¬ ((⟨8192, 4, false⟩ : MemoryObject).Contains x ∧
        (⟨12288, 4, false⟩ : MemoryObject).Contains x) := by
      simp only [MemoryObject.Contains]
      bv_omega
    rcases List.mem_pair.mp hop with rfl | rfl <;> rcases List.mem_pair.mp hop' with rfl | rfl
    · rfl
    · exact absurd ⟨hx, hx'⟩ hapart
    · exact absurd ⟨hx', hx⟩ hapart
    · rfl

def symbolicState (readOnly : Bool) : ExecutionState SymbolicMemory :=
  { emptyState with memory := ⟨pointerObjects readOnly, ∅, []⟩ }

def symbolicContext : MakeSymbolicContext where
  optimizeExpr e _ := e
  arrayId _ size := size
  getNextInput _ _ _ := none
  allowSeedExtension := false
  zeroSeedExtension := false
  allowSeedTruncation := false
  replayObjects := []

def symbolicExecutor (readOnly : Bool) : Executor SymbolicMemory :=
  initial (symbolicState readOnly) none none

theorem ready_symbolicState (readOnly : Bool) :
    Ready (symbolicExecutor readOnly) 0 (symbolicState readOnly) where
  heap := rfl
  node := List.mem_singleton.mpr rfl
  seeds := by simp [symbolicExecutor, initial]
  isBool := by simp [symbolicState, emptyState]
  sat := ⟨fun _ _ => 0, satisfies_nil _⟩

theorem room_symbolicState (readOnly : Bool) (k : Nat) :
    Room plainOptions (symbolicExecutor readOnly) (symbolicState readOnly) k where
  onlyReplaySeeds := rfl
  replayKTest := rfl
  maxStaticPct := rfl
  memory := rfl
  forkDisabled := rfl
  inhibitForking := rfl
  maxForks := by simp [plainOptions]
  depth := .inl rfl

theorem isPointer_pointer : pointer.IsPointer := ⟨wellSorted_pointer, rfl⟩

/-- `klee_make_symbolic(p, 4, "x")` -/
theorem exists_makeFour (readOnly : Bool) : ∃ ex', handleMakeSymbolic symbolicContext plainOptions
    (.constant ⟨64, 4⟩) "x" 0 pointer (symbolicExecutor readOnly) = .ok ((), ex') := by
  have hsize : (ZExtExpr.create (.constant ⟨64, 4⟩) 64).IsPointer := ⟨Nat.zero_lt_succ 63, rfl⟩
  exact exists_handleMakeSymbolic symbolicContext "x" TimingSolver.correct_ideal keepsValue_id
    isPointer_pointer hsize (layout_pointerObjects readOnly) (wellFormed_initial _ _ _)
    (ready_symbolicState readOnly) (room_symbolicState readOnly _)

theorem exact_resolvedObjects_pointer (readOnly : Bool) : MemoryMap.Exact [] pointer
    (pointerObjects readOnly)
    (resolvedObjects symbolicContext plainOptions (symbolicState readOnly) pointer) :=
  exact_resolvedObjects TimingSolver.correct_ideal keepsValue_id isPointer_pointer nofun
    ⟨fun _ _ => 0, satisfies_nil _⟩ (layout_pointerObjects readOnly)

theorem readOnly_baseObjects {readOnly : Bool} {op : ObjectPair}
    (hop : op ∈ baseObjects symbolicContext plainOptions (symbolicState readOnly) pointer) :
    op.2.readOnly = readOnly := by
  have hmem := ((exact_resolvedObjects_pointer readOnly).2 op).mp (List.mem_of_mem_filter hop)
  rcases List.mem_pair.mp hmem.1 with rfl | rfl <;> rfl

/-- Both objects can be the one. -/
theorem mem_baseObjects_pointer (readOnly : Bool) : ∀ op ∈ pointerObjects readOnly,
    op ∈ baseObjects symbolicContext plainOptions (symbolicState readOnly) pointer := by
  intro op hop
  have hbase : ∃ σ, IsBase pointer op.1 σ := by
    have hone : pointer.eval (fun _ _ => 1) 64 = 8192 := by decide
    have hzero : pointer.eval (fun _ _ => 0) 64 = 12288 := by decide
    rcases List.mem_pair.mp hop with rfl | rfl
    · exact ⟨fun _ _ => 1, hone⟩
    · exact ⟨fun _ _ => 0, hzero⟩
  obtain ⟨σ, hσ⟩ := hbase
  have hcontains : op.1.Contains (pointer.eval σ 64) := by
    have hsize : op.1.size = 4 := by rcases List.mem_pair.mp hop with rfl | rfl <;> rfl
    refine .inr ?_
    rw [hσ, hsize, BitVec.sub_self]
    decide
  have hresolved := ((exact_resolvedObjects_pointer readOnly).2 op).mpr
    ⟨hop, σ, satisfies_nil σ, hcontains⟩
  have hcs : ∀ e ∈ (symbolicState readOnly).constraints, e.IsBool := by simp [symbolicState, emptyState]
  obtain ⟨b, hb, hiff⟩ := TimingSolver.correct_ideal.mayBeTrue hcs
    (isBool_isBase isPointer_pointer op.1) ⟨σ, satisfies_nil σ⟩
  refine List.mem_filter.mpr ⟨hresolved, ?_⟩
  rw [hiff.mpr ⟨σ, satisfies_nil σ, (holds_isBase isPointer_pointer).mpr hσ⟩] at hb
  exact decide_eq_true hb

/-- The pointer may be the base of either of two objects, which are not read-only. -/
theorem handleMakeSymbolic_right_pointer : ∃ ex' results ex₁,
    handleMakeSymbolic symbolicContext plainOptions (.constant ⟨64, 4⟩) "x" 0 pointer
      (symbolicExecutor false) = .ok ((), ex') ∧
    HandledRight plainOptions (symbolicExecutor false) 0 (symbolicState false) pointer results ex₁ ex' := by
  obtain ⟨ex', hrun⟩ := exists_makeFour false
  obtain ⟨results, ex₁, -, hright, -⟩ := handleMakeSymbolic_right_iff symbolicContext plainOptions
    (symbolicExecutor false) 0 (symbolicState false) pointer (.constant ⟨64, 4⟩) "x"
    (wellFormed_initial _ _ _).heap rfl TimingSolver.correct_ideal keepsValue_id isPointer_pointer
    (by simp [symbolicState, emptyState]) ⟨fun _ _ => 0, satisfies_nil _⟩
    (layout_pointerObjects false) ex' hrun
  refine ⟨ex', results, ex₁, hrun, hright fun op hop => ?_⟩
  exact readOnly_baseObjects (List.dropLast_subset _ hop)

/-- Both objects are read-only: the state with the second one goes on. -/
theorem not_handleMakeSymbolic_right : ∃ ex' results ex₁,
    handleMakeSymbolic symbolicContext plainOptions (.constant ⟨64, 4⟩) "x" 0 pointer
      (symbolicExecutor true) = .ok ((), ex') ∧
    resolveExact symbolicContext plainOptions 0 pointer (symbolicExecutor true) = .ok (results, ex₁) ∧
    ¬ HandledRight plainOptions (symbolicExecutor true) 0 (symbolicState true) pointer results ex₁ ex' := by
  obtain ⟨ex', hrun⟩ := exists_makeFour true
  obtain ⟨results, ex₁, made, hresolve, hres, hdone⟩ := exists_entriesDone
    (wellFormed_initial _ _ _).heap rfl TimingSolver.correct_ideal keepsValue_id isPointer_pointer
    (by simp [symbolicState, emptyState]) ⟨fun _ _ => 0, satisfies_nil _⟩ (layout_pointerObjects true) hrun
  refine ⟨ex', results, ex₁, hrun, hresolve, fun hright => ?_⟩
  have hlt : (0 : StateId) < (symbolicExecutor true).nextState := Nat.one_pos
  have hnone := unreached_eq_nil.mp ((hdone.right_iff keepsValue_id isPointer_pointer hlt hres
    fun op hop => (((exact_resolvedObjects_pointer true).2 op).mp hop).1).2 rfl hright)
  have hall := wp_ok (wp_resolveExact_room TimingSolver.correct_ideal keepsValue_id
    isPointer_pointer (layout_pointerObjects true) (wellFormed_initial _ _ _)
    (ready_symbolicState true) (room_symbolicState true _)) hresolve
  rw [hall.1] at hnone
  have hfirst := mem_baseObjects_pointer true _ (List.mem_cons_self)
  have hsecond := mem_baseObjects_pointer true _ (List.mem_cons_of_mem _ (List.mem_singleton_self _))
  cases hbases : baseObjects symbolicContext plainOptions (symbolicState true) pointer with
  | nil =>
    rw [hbases] at hfirst
    exact absurd hfirst List.not_mem_nil
  | cons op ops =>
    cases ops with
    | nil =>
      rw [hbases] at hfirst hsecond
      have heq := (List.mem_singleton.mp hfirst).trans (List.mem_singleton.mp hsecond).symm
      exact absurd (congrArg (·.1.address) heq) (by decide)
    | cons op' ops =>
      have hop : op ∈ (op :: op' :: ops).dropLast := List.mem_cons_self
      rw [hbases] at hnone
      have hro : op.2.readOnly = true := readOnly_baseObjects (hbases ▸ List.mem_cons_self)
      cases hro.symm.trans (hnone op hop)

end Example

end Klee.Executor
