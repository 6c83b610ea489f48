import Klee.Core.BranchSpec
import Klee.Core.ForkPartition

/-! `branch` on any number of conditions. -/
namespace Klee.Executor

open Hoare

variable {M : Type} {o : ExecutorOptions} {ex ex' ex'' : Executor M} {state st : StateId}
variable {s s' s'' : ExecutionState M} {E : ExecutorFault → Prop}

/-- A state that `branch` makes, or the parent, before its condition is added. -/
structure Copied (s s' : ExecutionState M) : Prop where
  constraints : s'.constraints = s.constraints
  memory : s'.memory = s.memory
  pc : s'.pc = s.pc
  prevPC : s'.prevPC = s.prevPC

theorem Copied.refl (s : ExecutionState M) : Copied s s := ⟨rfl, rfl, rfl, rfl⟩

theorem Copied.trans (h : Copied s s') (h' : Copied s' s'') : Copied s s'' :=
  ⟨h'.constraints.trans h.constraints, h'.memory.trans h.memory, h'.pc.trans h.pc,
    h'.prevPC.trans h.prevPC⟩

section Copies

/-- The parent and the next `k` states. -/
def family (ex : Executor M) (state : StateId) (k : Nat) : List StateId :=
  state :: List.range' ex.nextState k

/-- What `branch` has done when there are `k` new states and it has drawn `r` numbers. -/
structure Copies (ex : Executor M) (state : StateId) (s : ExecutionState M) (k r : Nat)
    (ex' : Executor M) : Prop where
  wellFormed : ex'.WellFormed
  nextState : ex'.nextState = ex.nextState + k
  heap : ∀ st ∈ family ex state k, ∃ s', ex'.heap st = some s' ∧ Copied s s'
  others : ∀ st, st ∉ family ex state k → ex'.heap st = ex.heap st
  node : ∀ st ∈ family ex state k, st ∈ ex'.processTree.leaves
  seedMap : ex'.seedMap = ex.seedMap
  explored : ex'.explored = ex.explored
  theRNG : ex'.theRNG = fun i => ex.theRNG (i + r)

variable {k r : Nat}

theorem length_family : (family ex state k).length = k + 1 := by simp [family]

theorem family_succ : family ex state (k + 1) = family ex state k ++ [ex.nextState + k] := by
  rw [family, family, List.cons_append, List.range'_1_concat]

theorem mem_family : st ∈ family ex state k ↔
    st = state ∨ ex.nextState ≤ st ∧ st < ex.nextState + k := by
  rw [family, List.mem_cons, List.mem_range'_1]

theorem nodup_family (hlt : state < ex.nextState) : (family ex state k).Nodup := by
  refine List.nodup_cons.mpr ⟨fun hmem => ?_, List.nodup_range'⟩
  exact Nat.not_lt.mpr (List.mem_range'_1.mp hmem).1 hlt

/-- The executor after the round that copies `es`. -/
def copyRound (ex : Executor M) (es : StateId) (a b : ExecutionState M) (t : PTree)
    (fs : List StateId) : Executor M :=
  { ex with
    heap := Function.update (Function.update ex.heap es (some a)) ex.nextState (some b)
    nextState := ex.nextState + 1
    nextID := ex.nextID + 1
    addedStates := ex.addedStates ++ [ex.nextState]
    processTree := t
    featureStates := fs
    theRNG := fun n => ex.theRNG (n + 1) }

theorem Copies.round (h : Copies ex state s k r ex') {es : StateId} (hes : es ∈ family ex state k)
    {a b : ExecutionState M} (ha : Copied s a) (hb : Copied s b) {t : PTree}
    (ht : ex'.processTree.attach es ex'.nextState es = some t) (fs : List StateId) :
    Copies ex state s (k + 1) (r + 1) (copyRound ex' es a b t fs) := by
  obtain ⟨t', ht', hperm⟩ := PTree.attach_spec ex'.nextState es (h.node es hes)
  obtain rfl : t = t' := Option.some.inj (ht.symm.trans ht')
  have hperm : t.leaves.Perm (ex'.nextState :: ex'.processTree.leaves) :=
    hperm.trans ((List.perm_cons_erase (h.node es hes)).symm.cons _)
  have hlt : es < ex'.nextState := by
    by_contra hle
    obtain ⟨x, hx, -⟩ := h.heap es hes
    rw [h.wellFormed.heap es (Nat.le_of_not_lt hle)] at hx
    cases hx
  have hbig (x : StateId) (hx : ex'.nextState + 1 ≤ x) : x ≠ es ∧ x ≠ ex'.nextState :=
    ⟨Nat.ne_of_gt (Nat.lt_trans hlt hx), Nat.ne_of_gt hx⟩
  refine ⟨⟨fun x hx => ?_, fun x hx hmem => ?_, fun x hx hmem => ?_, fun x hx => ?_, ?_⟩,
    ?_, fun x hx => ?_, fun x hx => ?_, fun x hx => ?_, h.seedMap, h.explored, ?_⟩
  · obtain ⟨hne, hnew⟩ := hbig x hx
    show Function.update (Function.update ex'.heap es (some a)) ex'.nextState (some b) x = none
    rw [Function.update_of_ne hnew, Function.update_of_ne hne]
    exact h.wellFormed.heap x (Nat.le_of_lt hx)
  · cases List.mem_append.mp hmem with
    | inl hold => exact h.wellFormed.addedStates x (Nat.le_of_lt hx) hold
    | inr hnew => exact (hbig x hx).2 (List.mem_singleton.mp hnew)
  · cases List.mem_cons.mp (hperm.mem_iff.mp hmem) with
    | inl hnew => exact (hbig x hx).2 hnew
    | inr hold => exact h.wellFormed.leaves x (Nat.le_of_lt hx) hold
  · exact h.wellFormed.seedMap x (Nat.le_of_lt hx)
  · exact hperm.nodup_iff.mpr
      (List.nodup_cons.mpr ⟨h.wellFormed.leaves _ le_rfl, h.wellFormed.nodup⟩)
  · show ex'.nextState + 1 = _
    rw [h.nextState, Nat.add_assoc]
  · show ∃ s', Function.update (Function.update ex'.heap es (some a)) ex'.nextState (some b) x =
      some s' ∧ _
    by_cases hnew : x = ex'.nextState
    · rw [hnew, Function.update_self]
      exact ⟨b, rfl, hb⟩
    · rw [Function.update_of_ne hnew]
      by_cases hxes : x = es
      · rw [hxes, Function.update_self]
        exact ⟨a, rfl, ha⟩
      · rw [Function.update_of_ne hxes]
        refine h.heap x ?_
        rw [family_succ, List.mem_append, List.mem_singleton, ← h.nextState] at hx
        exact hx.resolve_right hnew
  · rw [family_succ, List.mem_append, List.mem_singleton, not_or, ← h.nextState] at hx
    show Function.update (Function.update ex'.heap es (some a)) ex'.nextState (some b) x = _
    rw [Function.update_of_ne hx.2, Function.update_of_ne fun heq : x = es => hx.1 (heq ▸ hes)]
    exact h.others x hx.1
  · refine hperm.mem_iff.mpr ?_
    rw [family_succ, List.mem_append, List.mem_singleton, ← h.nextState] at hx
    exact List.mem_cons.mpr (hx.symm.imp_right (h.node x))
  · show (fun n => ex'.theRNG (n + 1)) = _
    funext n
    rw [h.theRNG]
    show ex.theRNG (n + 1 + r) = ex.theRNG (n + (r + 1))
    rw [Nat.add_assoc, Nat.add_comm 1 r]

/-- The rounds that are left. -/
theorem wp_branchCopies {Q : List StateId → Executor M → Prop} {inst : Nat} (n : Nat)
    (h : Copies ex state s k r ex')
    (hQ : ∀ ex'', Copies ex state s (k + n) (r + n) ex'' → Q (family ex state (k + n)) ex'') :
    wp (branchCopies o inst n (family ex state k)) Q E ex' := by
  induction n generalizing k r ex' with
  | zero => exact hQ ex' h
  | succ n ih =>
    rw [branchCopies, wp_bind, wp_getInt32, wp_bind]
    obtain ⟨es, hes⟩ : ∃ es, (family ex state k)[(ex'.theRNG 0).toNat %
        (family ex state k).length]? = some es := by
      refine ⟨_, List.getElem?_eq_getElem (Nat.mod_lt _ ?_)⟩
      rw [length_family]
      exact Nat.succ_pos k
    have hmem := List.mem_of_getElem? hes
    obtain ⟨x, hx, hcopied⟩ := h.heap es hmem
    have hne : es ≠ ex'.nextState := by
      rintro rfl
      rw [h.wellFormed.heap _ le_rfl] at hx
      cases hx
    obtain ⟨t, ht, -⟩ := PTree.attach_spec ex'.nextState es (h.node es hmem)
    rw [hes, wp_orThrow_some, wp_bind]
    refine (wp_branchState (s := x) (by exact hx)).mpr ?_
    rw [wp_bind, wp_modify, wp_bind]
    refine (wp_attach (t := t) (by exact ht)).mpr ?_
    rw [wp_bind]
    refine (wp_pushTaken (s := copyOf ex' x) (Function.update_self _ _ _)).mpr ?_
    rw [wp_bind]
    refine wp_insertFeatureState_of fun fs => ?_
    have hround := h.round (a := { x with depth := x.depth + 1 })
      (b := { copyOf ex' x with
        takenBranches := x.takenBranches ++ [(inst, (family ex state k).length)] }) hmem
      (hcopied.trans ⟨rfl, rfl, rfl, rfl⟩) (hcopied.trans ⟨rfl, rfl, rfl, rfl⟩) ht fs
    dsimp only
    rw [Function.update_idem, h.nextState, ← family_succ]
    rw [copyRound, h.nextState] at hround
    refine ih hround fun ex'' h'' => ?_
    have hk : k + 1 + n = k + (n + 1) := by omega
    have hr : r + 1 + n = r + (n + 1) := by omega
    rw [hk, hr] at h''
    rw [hk]
    exact hQ ex'' h''

/-- The new states of a branch on `n` conditions. -/
def newStates (o : ExecutorOptions) (ex : Executor M) (n : Nat) : Nat :=
  if Limited o ex then 0 else n - 1

/-- The random numbers that `branchStates` draws. -/
def branchDraws (o : ExecutorOptions) (ex : Executor M) (n : Nat) : Nat :=
  if Limited o ex then 1 else n - 1

/-- The states for `n` conditions; at the fork limit the parent is put at a random place. -/
def statesFor (o : ExecutorOptions) (ex : Executor M) (state : StateId) (n : Nat) :
    List (Option StateId) :=
  if Limited o ex then aloneAt state ((ex.theRNG 0).toNat % n) n
  else (family ex state (n - 1)).map some

theorem wp_branchStates {Q : List (Option StateId) → Executor M → Prop} {n : Nat}
    (hwf : ex.WellFormed) (hs : ex.heap state = some s) (hnode : state ∈ ex.processTree.leaves)
    (hQ : ∀ ex', Copies ex state s (newStates o ex n) (branchDraws o ex n) ex' →
      Q (statesFor o ex state n) ex') : wp (branchStates o state n) Q E ex := by
  have hsingle {x : StateId} (hx : x ∈ family ex state 0) : x = state := by
    simpa [family] using hx
  unfold branchStates
  rw [wp_bind, wp_get, wp_ite]
  constructor
  · intro (hlimited : Limited o ex)
    rw [newStates, branchDraws, statesFor, if_pos hlimited, if_pos hlimited, if_pos hlimited] at hQ
    rw [wp_bind, wp_getInt32]
    refine hQ _ ⟨⟨hwf.heap, hwf.addedStates, hwf.leaves, hwf.seedMap, hwf.nodup⟩, rfl,
      fun x hx => ?_, fun _ _ => rfl, fun x hx => ?_, rfl, rfl, rfl⟩
    · rw [hsingle hx]
      exact ⟨s, hs, .refl s⟩
    · rw [hsingle hx]
      exact hnode
  · intro (hlimited : ¬ Limited o ex)
    rw [newStates, branchDraws, statesFor, if_neg hlimited, if_neg hlimited, if_neg hlimited] at hQ
    rw [wp_bind, wp_modify, wp_bind]
    refine (wp_readState (s := s) (by exact hs)).mpr ?_
    rw [wp_bind]
    refine (wp_pushTaken (s := s) (by exact hs)).mpr ?_
    rw [wp_bind]
    refine wp_insertFeatureState_of fun fs => ?_
    rw [wp_bind]
    have hlt : state < ex.nextState := by
      by_contra hle
      rw [hwf.heap state (Nat.le_of_not_lt hle)] at hs
      cases hs
    have hother (x : StateId) (hx : x ≠ state) :
        Function.update ex.heap state (some (s.took 0)) x = ex.heap x :=
      Function.update_of_ne hx _ _
    refine wp_branchCopies (s := s) (k := 0) (r := 0) (n - 1) ⟨⟨fun x hx => ?_, hwf.addedStates, hwf.leaves,
      hwf.seedMap, hwf.nodup⟩, rfl, fun x hx => ?_, fun x hx => ?_, fun x hx => ?_, rfl, rfl, rfl⟩
      fun ex' h => ?_
    · exact (hother x (Nat.ne_of_gt (Nat.lt_of_lt_of_le hlt hx))).trans (hwf.heap x hx)
    · rw [hsingle hx]
      exact ⟨_, Function.update_self _ _ _, rfl, rfl, rfl, rfl⟩
    · exact hother x fun heq => hx (mem_family.mpr (.inl heq))
    · rw [hsingle hx]
      exact hnode
    · rw [wp_pure]
      rw [Nat.zero_add] at h ⊢
      exact hQ ex' h

def Once (result : List (Option StateId)) : Prop :=
  ∀ (i j : Nat) (st : StateId), result[i]? = some (some st) → result[j]? = some (some st) → i = j

variable {n i : Nat}

theorem getElem?_aloneAt (hk : k < n) :
    (aloneAt state i n)[k]? = some (if k = i then some state else none) := by
  rw [aloneAt, List.getElem?_map, List.getElem?_range hk]
  rfl

theorem length_statesFor (hn : 0 < n) : (statesFor o ex state n).length = n := by
  unfold statesFor
  split
  · simp [aloneAt]
  · rw [List.length_map, length_family, Nat.sub_add_cancel hn]

theorem getElem?_statesFor_of_limited (h : Limited o ex) (hk : k < n) :
    (statesFor o ex state n)[k]? =
      some (if k = (ex.theRNG 0).toNat % n then some state else none) := by
  rw [statesFor, if_pos h, getElem?_aloneAt hk]

theorem once_statesFor (hlt : state < ex.nextState) (hn : 0 < n) :
    Once (statesFor o ex state n) := by
  intro i j st hi hj
  have hlen : (statesFor o ex state n).length = n := length_statesFor hn
  have hilt : i < n := hlen ▸ (List.getElem?_eq_some_iff.mp hi).1
  have hjlt : j < n := hlen ▸ (List.getElem?_eq_some_iff.mp hj).1
  by_cases h : Limited o ex
  · rw [getElem?_statesFor_of_limited h hilt] at hi
    rw [getElem?_statesFor_of_limited h hjlt] at hj
    by_cases hip : i = (ex.theRNG 0).toNat % n
    · by_cases hjp : j = (ex.theRNG 0).toNat % n
      · rw [hip, hjp]
      · simp [hjp] at hj
    · simp [hip] at hi
  · rw [statesFor, if_neg h, List.getElem?_map, Option.map_eq_some_iff] at hi hj
    obtain ⟨x, hx, hxst⟩ := hi
    obtain ⟨y, hy, hyst⟩ := hj
    obtain rfl : x = y := Option.some.inj (hxst.trans hyst.symm)
    have hnodup : (family ex state (n - 1)).Nodup := nodup_family hlt
    exact (List.getElem?_inj (List.getElem?_eq_some_iff.mp hx).1 hnodup).mp (hx.trans hy.symm)

theorem mem_statesFor (hn : 0 < n) :
    some st ∈ statesFor o ex state n ↔ st ∈ family ex state (newStates o ex n) := by
  by_cases h : Limited o ex
  · have hpick := Nat.mod_lt (ex.theRNG 0).toNat hn
    rw [newStates, if_pos h, List.mem_iff_getElem?]
    constructor
    · rintro ⟨k, hk⟩
      have hlen : (statesFor o ex state n).length = n := length_statesFor hn
      have hlt : k < n := hlen ▸ (List.getElem?_eq_some_iff.mp hk).1
      rw [getElem?_statesFor_of_limited h hlt] at hk
      split at hk
      · obtain rfl := Option.some.inj (Option.some.inj hk)
        exact List.mem_cons_self
      · cases Option.some.inj hk
    · intro hst
      obtain rfl : st = state := by simpa [family] using hst
      exact ⟨_, by rw [getElem?_statesFor_of_limited h hpick, if_pos rfl]⟩
  · rw [newStates, if_neg h, statesFor, if_neg h]
    simp

theorem statesFor_eq_none (hk : k < n) :
    (statesFor o ex state n)[k]? = some none ↔
      Limited o ex ∧ k ≠ (ex.theRNG 0).toNat % n := by
  by_cases h : Limited o ex
  · rw [getElem?_statesFor_of_limited h hk]
    simp [h]
  · rw [statesFor, if_neg h, List.getElem?_map]
    simp [h]

end Copies

section Seeds

/-- The first condition that holds under the seed, as far as the solver fixes it. -/
def takenIndex (o : ExecutorOptions) (cs conditions : List Expr) (seed : SeedInfo) : Nat :=
  conditions.findIdx fun c => (o.solver.getValue cs (seed.assignment.evaluate c)).any (·.isTrue)

/-- The places that the seeds are given; a seed that meets no condition goes to a random one. -/
def seedIndices (o : ExecutorOptions) (cs conditions : List Expr) :
    List SeedInfo → (Nat → BitVec 32) → List Nat
  | [], _ => []
  | seed :: rest, rng =>
    if takenIndex o cs conditions seed = conditions.length then
      (rng 0).toNat % conditions.length :: seedIndices o cs conditions rest fun i => rng (i + 1)
    else takenIndex o cs conditions seed :: seedIndices o cs conditions rest rng

variable {cs conditions : List Expr} {seed : SeedInfo} {result : List (Option StateId)}

structure Answerable (o : ExecutorOptions) (cs conditions : List Expr) : Prop where
  solver : o.solver.Correct
  constraints : ∀ c ∈ cs, c.IsBool
  conditions : ∀ c ∈ conditions, c.IsBool
  sat : ∃ σ, Satisfies σ cs

theorem wp_firstTaken (h : Answerable o cs conditions) {Q : Nat → Executor M → Prop}
    (hQ : Q (takenIndex o cs conditions seed) ex) : wp (firstTaken o cs seed conditions) Q E ex := by
  induction conditions generalizing Q with
  | nil => exact hQ
  | cons c rest ih =>
    obtain ⟨ce, hce, -⟩ := h.solver.getValue h.constraints
      (ArrayAssignment.isBool_evaluate (a := seed.assignment) (h.conditions c List.mem_cons_self)).1 h.sat
    rw [firstTaken, wp_bind, seedTakes, wp_bind, hce, wp_orThrow_some, wp_pure]
    rw [takenIndex, List.findIdx_cons, hce] at hQ
    by_cases htrue : ce.isTrue = true
    · rw [if_pos htrue]
      simpa [htrue] using hQ
    · rw [if_neg htrue, wp_bind]
      refine ih ⟨h.solver, h.constraints, fun c hc => h.conditions c (List.mem_cons_of_mem _ hc),
        h.sat⟩ ?_
      simpa [htrue, takenIndex] using hQ

/-- The state at the place `i` gets a seed. -/
def placeSeed (result : List (Option StateId)) (i : Nat) (seed : SeedInfo)
    (m : StateId → Option (List SeedInfo)) : StateId → Option (List SeedInfo) :=
  match result[i]? with
  | some (some st) => Function.update m st (some ((m st).getD [] ++ [seed]))
  | _ => m

theorem isSome_placeSeed {i : Nat} {m : StateId → Option (List SeedInfo)} (st : StateId) :
    (placeSeed result i seed m st).isSome = true ↔
      (m st).isSome = true ∨ result[i]? = some (some st) := by
  unfold placeSeed
  rcases result[i]? with _ | _ | x
  · simp
  · simp
  · by_cases hst : st = x
    · simp [hst]
    · simp [Function.update_of_ne hst, Ne.symm hst]

theorem wp_giveSeed_place (h : Answerable o cs conditions) {Q : Unit → Executor M → Prop}
    (hrandom : takenIndex o cs conditions seed = conditions.length → Q () { ex with
      seedMap := placeSeed result ((ex.theRNG 0).toNat % conditions.length) seed ex.seedMap
      theRNG := fun n => ex.theRNG (n + 1) })
    (htaken : takenIndex o cs conditions seed ≠ conditions.length → Q () { ex with
      seedMap := placeSeed result (takenIndex o cs conditions seed) seed ex.seedMap }) :
    wp (giveSeed o cs conditions result seed) Q E ex := by
  have hgive {ex' : Executor M} {i : Nat}
      (hQ : Q () { ex' with seedMap := placeSeed result i seed ex'.seedMap }) :
      wp (match result[i]? with
        | some (some st) => modify fun ex => { ex with
            seedMap := Function.update ex.seedMap st (some ((ex.seedMap st).getD [] ++ [seed])) }
        | _ => pure () : ExecutorM M Unit) Q E ex' := by
    unfold placeSeed at hQ
    split at hQ
    · exact hQ
    · exact hQ
  unfold giveSeed
  rw [wp_bind]
  refine wp_firstTaken h ?_
  dsimp only
  rw [wp_ite]
  constructor
  · intro heq
    rw [wp_bind, wp_getInt32]
    exact hgive (hrandom heq)
  · intro hne
    exact hgive (htaken hne)

/-- Exactly the states at the places of the seeds get seeds. -/
theorem wp_giveSeeds (h : Answerable o cs conditions) {Q : Unit → Executor M → Prop}
    (seeds : List SeedInfo)
    (hQ : ∀ m g, (∀ st, (m st).isSome = true ↔ (ex.seedMap st).isSome = true ∨
        ∃ i ∈ seedIndices o cs conditions seeds ex.theRNG, result[i]? = some (some st)) →
      Q () { ex with seedMap := m, theRNG := g }) :
    wp (seeds.forM (giveSeed o cs conditions result)) Q E ex := by
  induction seeds generalizing ex Q with
  | nil => exact hQ ex.seedMap ex.theRNG (by simp [seedIndices])
  | cons seed rest ih =>
    show wp (giveSeed o cs conditions result seed >>= fun _ =>
      rest.forM (giveSeed o cs conditions result)) Q E ex
    rw [wp_bind]
    have hrest {i : Nat} {rng : Nat → BitVec 32}
        (hindices : seedIndices o cs conditions (seed :: rest) ex.theRNG =
          i :: seedIndices o cs conditions rest rng) :
        wp (rest.forM (giveSeed o cs conditions result)) Q E
          { ex with seedMap := placeSeed result i seed ex.seedMap, theRNG := rng } := by
      refine ih fun m g hm => hQ m g fun st => ?_
      rw [hm st, isSome_placeSeed, hindices, List.exists_mem_cons_iff, or_assoc]
    refine wp_giveSeed_place h (fun heq => hrest ?_) fun hne => hrest ?_
    · rw [seedIndices, if_pos heq]
    · rw [seedIndices, if_neg hne]

end Seeds

section Kill

/-- An entry of `explored`. -/
abbrev Explored (M : Type) := StateId × ExecutionState M × TerminateReason

/-- The states of `killed` have been terminated, as they were. -/
structure Dropped (killed : List (Explored M)) (ex ex' : Executor M) : Prop where
  wellFormed : ex'.WellFormed
  nextState : ex'.nextState = ex.nextState
  heap : ∀ st, st ∉ killed.map (·.1) → ex'.heap st = ex.heap st
  node : ∀ st, st ∉ killed.map (·.1) → st ∈ ex.processTree.leaves → st ∈ ex'.processTree.leaves
  seedMap : ∀ st, st ∉ killed.map (·.1) → ex'.seedMap st = ex.seedMap st
  explored : ex'.explored = ex.explored ++ killed
  states : ∀ e ∈ killed, ex.heap e.1 = some e.2.1

variable {killed killed' : List (Explored M)} {reason : TerminateReason}

theorem Dropped.refl (h : ex.WellFormed) : Dropped [] ex ex :=
  ⟨h, rfl, fun _ _ => rfl, fun _ _ h => h, fun _ _ => rfl, (List.append_nil _).symm,
    fun _ he => (List.not_mem_nil he).elim⟩

theorem Dropped.trans (h : Dropped killed ex ex') (h' : Dropped killed' ex' ex'')
    (hdisjoint : ∀ e ∈ killed', e.1 ∉ killed.map (·.1)) : Dropped (killed ++ killed') ex ex'' := by
  have hnot {st : StateId} (hst : st ∉ (killed ++ killed').map (·.1)) :
      st ∉ killed.map (·.1) ∧ st ∉ killed'.map (·.1) := by
    rwa [List.map_append, List.mem_append, not_or] at hst
  refine ⟨h'.wellFormed, h'.nextState.trans h.nextState, fun st hst => ?_, fun st hst hmem => ?_,
    fun st hst => ?_, ?_, fun e he => ?_⟩
  · exact (h'.heap st (hnot hst).2).trans (h.heap st (hnot hst).1)
  · exact h'.node st (hnot hst).2 (h.node st (hnot hst).1 hmem)
  · exact (h'.seedMap st (hnot hst).2).trans (h.seedMap st (hnot hst).1)
  · rw [h'.explored, h.explored, List.append_assoc]
  · cases List.mem_append.mp he with
    | inl he => exact h.states e he
    | inr he => exact (h.heap e.1 (hdisjoint e he)).symm.trans (h'.states e he)

theorem wp_terminateState_dropped {Q : Unit → Executor M → Prop} (hwf : ex.WellFormed)
    (hs : ex.heap st = some s) (hnode : st ∈ ex.processTree.leaves)
    (hQ : ∀ ex', Dropped [(st, s, reason)] ex ex' → Q () ex') :
    wp (terminateState o st reason) Q E ex := by
  have hlt : st < ex.nextState := by
    by_contra hle
    rw [hwf.heap st (Nat.le_of_not_lt hle)] at hs
    cases hs
  have hheap (a : Option (ExecutionState M)) (x : StateId) (hx : x ≠ st) :
      Function.update ex.heap st a x = ex.heap x := Function.update_of_ne hx _ _
  have hnext (a : Option (ExecutionState M)) (x : StateId) (hx : ex.nextState ≤ x) :
      Function.update ex.heap st a x = none :=
    (hheap a x (Nat.ne_of_gt (Nat.lt_of_lt_of_le hlt hx))).trans (hwf.heap x hx)
  have hne {x : StateId} (hx : x ∉ [(st, s, reason)].map (·.1)) : x ≠ st := by simpa using hx
  have hstate : ∀ e ∈ [(st, s, reason)], ex.heap e.1 = some e.2.1 := by
    intro e he
    rw [List.mem_singleton.mp he]
    exact hs
  refine wp_terminateState hs (fun hadded => ?_) fun hadded => ?_
  · obtain ⟨t, ht, hnodup, hsub, hother⟩ := PTree.remove_of_mem hnode hwf.nodup
    rw [ht]
    refine hQ _ ⟨⟨hnext none, fun x hx hmem => ?_, fun x hx hmem => hwf.leaves x hx (hsub hmem),
      fun x hx => ?_, hnodup⟩, rfl, fun x hx => hheap _ x (hne hx),
      fun x hx hmem => hother x hmem (hne hx), fun x hx => Function.update_of_ne (hne hx) _ _, rfl,
      hstate⟩
    · exact hwf.addedStates x hx (List.mem_of_mem_erase hmem)
    · refine (Function.update_of_ne ?_ _ _).trans (hwf.seedMap x hx)
      exact Nat.ne_of_gt (Nat.lt_of_lt_of_le hlt hx)
  · exact hQ _ ⟨⟨hnext _, hwf.addedStates, hwf.leaves, hwf.seedMap, hwf.nodup⟩, rfl,
      fun x hx => hheap _ x (hne hx), fun x _ hmem => hmem, fun _ _ => rfl, rfl, hstate⟩

def keepSeeded (m : StateId → Option (List SeedInfo)) (st : Option StateId) : Option StateId :=
  st.filter fun x => (m x).isSome

structure Unseeded (ex : Executor M) (result : List (Option StateId)) (killed : List (Explored M)) :
    Prop where
  reason : ∀ e ∈ killed, e.2.2 = .discarded
  seeds : ∀ st, st ∈ killed.map (·.1) ↔ some st ∈ result ∧ ex.seedMap st = none

variable {result : List (Option StateId)}

theorem getElem?_keepSeeded_some {m : StateId → Option (List SeedInfo)} {k : Nat} :
    (result.map (keepSeeded m))[k]? = some (some st) ↔
      result[k]? = some (some st) ∧ (m st).isSome = true := by
  rw [List.getElem?_map]
  rcases result[k]? with _ | _ | x
  · simp
  · simp [keepSeeded]
  · simp only [Option.map_some, keepSeeded, Option.some.injEq, Option.filter_eq_some_iff]

theorem getElem?_keepSeeded_none {m : StateId → Option (List SeedInfo)} {k : Nat} :
    (result.map (keepSeeded m))[k]? = some none ↔
      result[k]? = some none ∨ ∃ st, result[k]? = some (some st) ∧ m st = none := by
  rw [List.getElem?_map]
  rcases result[k]? with _ | _ | x
  · simp
  · simp [keepSeeded]
  · simp [keepSeeded]

theorem Once.tail {st : Option StateId} (h : Once (st :: result)) : Once result := by
  intro i j x hi hj
  exact Nat.succ_injective (h (i + 1) (j + 1) x hi hj)

theorem Once.head (h : Once (some st :: result)) : some st ∉ result := by
  intro hmem
  obtain ⟨i, hi⟩ := List.mem_iff_getElem?.mp hmem
  exact Nat.succ_ne_zero i (h (i + 1) 0 st hi rfl)

theorem wp_killUnseeded_all {Q : List (Option StateId) → Executor M → Prop} (hwf : ex.WellFormed)
    (honce : Once result) (hlive : ∀ st, some st ∈ result →
      (∃ s, ex.heap st = some s) ∧ st ∈ ex.processTree.leaves)
    (hQ : ∀ killed ex', Dropped killed ex ex' → Unseeded ex result killed →
      Q (result.map (keepSeeded ex.seedMap)) ex') :
    wp (result.mapM (killUnseeded o)) Q E ex := by
  induction result generalizing ex Q with
  | nil => exact hQ [] ex (.refl hwf) ⟨by simp, by simp⟩
  | cons p rest ih =>
    have hrest {st : StateId} (hst : some st ∈ rest) : some st ∈ p :: rest :=
      List.mem_cons_of_mem _ hst
    rw [List.mapM_cons, wp_bind]
    cases p with
    | none =>
      show wp (rest.mapM (killUnseeded o) >>= fun l => pure (none :: l)) Q E ex
      rw [wp_bind]
      refine ih hwf honce.tail (fun st hst => hlive st (hrest hst)) fun killed ex' h hkilled => ?_
      exact hQ killed ex' h ⟨hkilled.reason, fun st => by rw [hkilled.seeds]; simp⟩
    | some st =>
      obtain ⟨⟨s, hs⟩, hnode⟩ := hlive st List.mem_cons_self
      have hnew := honce.head
      unfold killUnseeded
      rw [wp_bind, wp_get, wp_ite]
      constructor
      · intro hnone
        have hnone : ex.seedMap st = none := Option.isNone_iff_eq_none.mp hnone
        rw [wp_bind]
        refine wp_terminateState_dropped hwf hs hnode fun ex₁ h₁ => ?_
        rw [wp_pure, wp_bind]
        -- the other states are as they were
        have hother {x : StateId} (hx : some x ∈ rest) :
            x ∉ [(st, s, TerminateReason.discarded)].map (·.1) := by
          have hne : x ≠ st := fun heq => hnew (heq ▸ hx)
          simpa using hne
        have hkeep : rest.map (keepSeeded ex₁.seedMap) = rest.map (keepSeeded ex.seedMap) := by
          refine List.map_congr_left fun q hq => ?_
          cases q with
          | none => rfl
          | some x => rw [keepSeeded, keepSeeded, Option.filter_some, Option.filter_some, h₁.seedMap x (hother hq)]
        refine ih h₁.wellFormed honce.tail (fun x hx => ?_) fun killed ex' h hkilled => ?_
        · obtain ⟨⟨y, hy⟩, hxnode⟩ := hlive x (hrest hx)
          exact ⟨⟨y, (h₁.heap x (hother hx)).trans hy⟩, h₁.node x (hother hx) hxnode⟩
        · have hdrop := h₁.trans h fun e he =>
            hother ((hkilled.seeds e.1).mp (List.mem_map_of_mem he)).1
          have hresult : (some st :: rest).map (keepSeeded ex.seedMap) =
              none :: rest.map (keepSeeded ex₁.seedMap) := by
            rw [hkeep, List.map_cons, keepSeeded, Option.filter_some, hnone]
            rfl
          rw [wp_pure, ← hresult]
          refine hQ _ ex' hdrop ⟨fun e he => ?_, fun x => ?_⟩
          · cases List.mem_cons.mp he with
            | inl heq => rw [heq]
            | inr he => exact hkilled.reason e he
          · rw [List.map_append, List.mem_append, hkilled.seeds]
            constructor
            · rintro (hx | ⟨hx, hseeds⟩)
              · obtain rfl : x = st := by simpa using hx
                exact ⟨List.mem_cons_self, hnone⟩
              · exact ⟨hrest hx, (h₁.seedMap x (hother hx)).symm.trans hseeds⟩
            · rintro ⟨hx, hseeds⟩
              cases List.mem_cons.mp hx with
              | inl heq => exact .inl (by simpa using heq)
              | inr hx => exact .inr ⟨hx, (h₁.seedMap x (hother hx)).trans hseeds⟩
      · intro hsome
        have hseeded : (ex.seedMap st).isSome = true := by
          cases hm : ex.seedMap st with
          | none => exact absurd (by rw [hm]; rfl) hsome
          | some seeds => rfl
        rw [wp_pure, wp_bind]
        refine ih hwf honce.tail (fun x hx => hlive x (hrest hx)) fun killed ex' h hkilled => ?_
        have hresult : (some st :: rest).map (keepSeeded ex.seedMap) =
            some st :: rest.map (keepSeeded ex.seedMap) := by
          rw [List.map_cons, keepSeeded, Option.filter_some, hseeded]
          rfl
        rw [wp_pure, ← hresult]
        refine hQ killed ex' h ⟨hkilled.reason, fun x => ?_⟩
        rw [hkilled.seeds]
        constructor
        · rintro ⟨hx, hseeds⟩
          exact ⟨hrest hx, hseeds⟩
        · rintro ⟨hx, hseeds⟩
          cases List.mem_cons.mp hx with
          | inl heq =>
            obtain rfl := Option.some.inj heq
            rw [hseeds] at hseeded
            cases hseeded
          | inr hx => exact ⟨hx, hseeds⟩

end Kill

section Placed

structure Takes (s : ExecutionState M) (side : Assignment → Prop) (s' : ExecutionState M) :
    Prop where
  memory : s'.memory = s.memory
  pc : s'.pc = s.pc
  prevPC : s'.prevPC = s.prevPC
  isBool : ∀ c ∈ s'.constraints, c.IsBool
  constraints : ∀ σ, Satisfies σ s'.constraints ↔ Satisfies σ s.constraints ∧ side σ

/-- No state is kept for the condition at `k`: the fork limit is reached and the random choice
is another one, or only seeds are replayed and none goes there. -/
def Untaken (o : ExecutorOptions) (ex : Executor M) (state : StateId) (cs conditions : List Expr)
    (k : Nat) : Prop :=
  Limited o ex ∧ k ≠ (ex.theRNG 0).toNat % conditions.length ∨
    o.onlyReplaySeeds = true ∧ ∃ seeds ∈ ex.seedMap state,
      k ∉ seedIndices o cs conditions seeds
        fun i => ex.theRNG (i + branchDraws o ex conditions.length)

/-- The states of a branch are at their places, and have the inputs of their side. -/
structure Placed (o : ExecutorOptions) (ex : Executor M) (state : StateId) (s : ExecutionState M)
    (conditions : List Expr) (side : Nat → Assignment → Prop) (result : List (Option StateId))
    (killed : List (Explored M)) (ex' : Executor M) : Prop where
  wellFormed : ex'.WellFormed
  nextState : ex'.nextState = ex.nextState + newStates o ex conditions.length
  length : result.length = conditions.length
  once : Once result
  live : ∀ (k : Nat) (st : StateId), result[k]? = some (some st) → st ∈ ex'.processTree.leaves ∧
    ∃ s', ex'.heap st = some s' ∧ Takes s (side k) s'
  others : ∀ st, st ∉ family ex state (newStates o ex conditions.length) →
    ex'.heap st = ex.heap st
  members : ∀ st, some st ∈ result → st ∈ family ex state (newStates o ex conditions.length)
  explored : ex'.explored = ex.explored ++ killed
  discarded : ∀ e ∈ killed, e.2.2 = .discarded
  killed : ∀ st, st ∈ killed.map (·.1) ↔
    st ∈ family ex state (newStates o ex conditions.length) ∧ some st ∉ result
  null : ∀ k < conditions.length,
    result[k]? = some none ↔ Untaken o ex state s.constraints conditions k
  seedMap : ex.seedMap state = none → ex'.seedMap = ex.seedMap

variable {conditions : List Expr} {result : List (Option StateId)} {side : Nat → Assignment → Prop}
variable {killed : List (Explored M)}

/-- Without a change of the constraints, a state has all inputs of the parent. -/
theorem Copied.takes (h : Copied s s') (hcs : ∀ c ∈ s.constraints, c.IsBool) {side : Assignment → Prop}
    (hside : ∀ σ, side σ) : Takes s side s' where
  memory := h.memory
  pc := h.pc
  prevPC := h.prevPC
  isBool := h.constraints ▸ hcs
  constraints σ := by
    rw [h.constraints]
    exact (and_iff_left (hside σ)).symm

/-- The places before the seeds are looked at, if no state is killed. -/
theorem Copies.placed {n : Nat} (h : Copies ex state s (newStates o ex conditions.length) n ex')
    (hcs : ∀ c ∈ s.constraints, c.IsBool) (hlt : state < ex.nextState) (hne : conditions ≠ [])
    (hside : ∀ k σ, side k σ) {m : StateId → Option (List SeedInfo)} {g : Nat → BitVec 32}
    (hm : ∀ st, ex.nextState + newStates o ex conditions.length ≤ st → m st = none)
    (hseeds : ex.seedMap state = none → m = ex.seedMap)
    (huntaken : ∀ k < conditions.length,
      Limited o ex ∧ k ≠ (ex.theRNG 0).toNat % conditions.length ↔
        Untaken o ex state s.constraints conditions k) :
    Placed o ex state s conditions side (statesFor o ex state conditions.length) []
      { ex' with seedMap := m, theRNG := g } := by
  have hpos : 0 < conditions.length := List.length_pos_of_ne_nil hne
  refine ⟨⟨h.wellFormed.heap, h.wellFormed.addedStates, h.wellFormed.leaves, fun st hst => ?_,
    h.wellFormed.nodup⟩, h.nextState, length_statesFor hpos, once_statesFor hlt hpos,
    fun k st hk => ?_, h.others, fun st hst => (mem_statesFor hpos).mp hst, ?_,
    fun e he => (List.not_mem_nil he).elim, fun st => ?_, fun k hk => ?_, hseeds⟩
  · exact hm st (h.nextState ▸ hst)
  · have hmem := (mem_statesFor hpos).mp (List.mem_of_getElem? hk)
    obtain ⟨s', hs', hcopied⟩ := h.heap st hmem
    exact ⟨h.node st hmem, s', hs', hcopied.takes hcs (hside k)⟩
  · rw [List.append_nil]
    exact h.explored
  · rw [mem_statesFor hpos]
    simp
  · rw [statesFor_eq_none hk]
    exact huntaken k hk

/-- The places after the states without seeds have been killed. -/
theorem Copies.placed_seeded {n : Nat} {seeds : List SeedInfo}
    (h : Copies ex state s (newStates o ex conditions.length) n ex')
    (hcs : ∀ c ∈ s.constraints, c.IsBool) (hlt : state < ex.nextState) (hne : conditions ≠ [])
    (hside : ∀ k σ, side k σ) {m : StateId → Option (List SeedInfo)} {g : Nat → BitVec 32}
    (honly : o.onlyReplaySeeds = true) (hseeds : ex.seedMap state = some seeds)
    (hm : ∀ st ∈ family ex state (newStates o ex conditions.length), (m st).isSome = true ↔
      ∃ i ∈ seedIndices o s.constraints conditions seeds
        fun i => ex.theRNG (i + branchDraws o ex conditions.length),
        (statesFor o ex state conditions.length)[i]? = some (some st))
    (hdrop : Dropped killed { ex' with seedMap := m, theRNG := g } ex'')
    (hkilled : Unseeded { ex' with seedMap := m, theRNG := g }
      (statesFor o ex state conditions.length) killed) :
    Placed o ex state s conditions side
      ((statesFor o ex state conditions.length).map (keepSeeded m)) killed ex'' := by
  have hpos : 0 < conditions.length := List.length_pos_of_ne_nil hne
  have honce : Once (statesFor o ex state conditions.length) := once_statesFor hlt hpos
  have hmem {st : StateId} {k : Nat}
      (hk : (statesFor o ex state conditions.length)[k]? = some (some st)) :
      st ∈ family ex state (newStates o ex conditions.length) :=
    (mem_statesFor hpos).mp (List.mem_of_getElem? hk)
  have hnotKilled {st : StateId} (hst : (m st).isSome = true) : st ∉ killed.map (·.1) := by
    rw [hkilled.seeds]
    rintro ⟨-, hnone⟩
    rw [show m st = none from hnone] at hst
    cases hst
  have hin {st : StateId} :
      some st ∈ (statesFor o ex state conditions.length).map (keepSeeded m) ↔
        st ∈ family ex state (newStates o ex conditions.length) ∧ (m st).isSome = true := by
    rw [← mem_statesFor (o := o) hpos, List.mem_iff_getElem?, List.mem_iff_getElem?]
    simp only [getElem?_keepSeeded_some, exists_and_right]
  refine ⟨hdrop.wellFormed, hdrop.nextState.trans h.nextState, ?_, fun i j st hi hj => ?_,
    fun k st hk => ?_, fun st hst => ?_, fun st hst => (hin.mp hst).1, ?_, hkilled.reason,
    fun st => ?_, fun k hk => ?_, fun hnone => ?_⟩
  · rw [List.length_map, length_statesFor hpos]
  · exact honce i j st (getElem?_keepSeeded_some.mp hi).1 (getElem?_keepSeeded_some.mp hj).1
  · obtain ⟨hk, hst⟩ := getElem?_keepSeeded_some.mp hk
    obtain ⟨s', hs', hcopied⟩ := h.heap st (hmem hk)
    exact ⟨hdrop.node st (hnotKilled hst) (h.node st (hmem hk)), s',
      (hdrop.heap st (hnotKilled hst)).trans hs', hcopied.takes hcs (hside k)⟩
  · refine (hdrop.heap st fun hk => hst ?_).trans (h.others st hst)
    exact (mem_statesFor hpos).mp ((hkilled.seeds st).mp hk).1
  · rw [hdrop.explored]
    exact congrArg (· ++ killed) h.explored
  · rw [hkilled.seeds, mem_statesFor hpos, hin, not_and, Bool.not_eq_true, Option.isSome_eq_false_iff,
      Option.isNone_iff_eq_none]
    exact ⟨fun h => ⟨h.1, fun _ => h.2⟩, fun h => ⟨h.1, h.2 h.1⟩⟩
  · have hplace : (statesFor o ex state conditions.length)[k]? = some none ↔
        Limited o ex ∧ k ≠ (ex.theRNG 0).toNat % conditions.length := statesFor_eq_none hk
    rw [getElem?_keepSeeded_none, Untaken, ← hplace]
    refine or_congr_right' fun hplace => ⟨?_, ?_⟩
    · rintro ⟨st, hst, hnone⟩
      refine ⟨honly, seeds, hseeds, fun hi => ?_⟩
      have hsome := (hm st (hmem hst)).mpr ⟨k, hi, hst⟩
      rw [hnone] at hsome
      cases hsome
    · rintro ⟨-, seeds', hseeds', hi⟩
      obtain rfl : seeds = seeds' := Option.some.inj (hseeds.symm.trans hseeds')
      obtain ⟨st, hst⟩ : ∃ st, (statesFor o ex state conditions.length)[k]? = some (some st) := by
        have hin : k < (statesFor o ex state conditions.length).length := by
          rwa [length_statesFor hpos]
        rw [List.getElem?_eq_getElem hin] at hplace ⊢
        cases hp : (statesFor o ex state conditions.length)[k] with
        | none => exact absurd (congrArg some hp) hplace
        | some st => exact ⟨st, rfl⟩
      refine ⟨st, hst, Option.isNone_iff_eq_none.mp ?_⟩
      rw [← Option.isSome_eq_false_iff, ← Bool.not_eq_true, hm st (hmem hst)]
      rintro ⟨i, hmem, hplace'⟩
      rw [honce i k st hplace' hst] at hmem
      exact hi hmem
  · cases hnone.symm.trans hseeds

/-- The redistribution of the seeds. -/
theorem wp_branchSeeds_placed {Q : List (Option StateId) → Executor M → Prop}
    (hwf : ex.WellFormed) (hs : ex.heap state = some s) (hans : Answerable o s.constraints conditions)
    (hne : conditions ≠ []) (hside : ∀ k σ, side k σ)
    (h : Copies ex state s (newStates o ex conditions.length)
      (branchDraws o ex conditions.length) ex')
    (hQ : ∀ result killed ex'', Placed o ex state s conditions side result killed ex'' →
      Q result ex'') :
    wp (branchSeeds o state conditions (statesFor o ex state conditions.length)) Q E ex' := by
  have hpos : 0 < conditions.length := List.length_pos_of_ne_nil hne
  have hlt : state < ex.nextState := by
    by_contra hle
    rw [hwf.heap state (Nat.le_of_not_lt hle)] at hs
    cases hs
  obtain ⟨s₁, hs₁, hcopied⟩ := h.heap state (mem_family.mpr (.inl rfl))
  have hfresh (st : StateId) (hst : ex.nextState ≤ st) : ex'.seedMap st = none := by
    rw [h.seedMap]
    exact hwf.seedMap st hst
  unfold branchSeeds
  rw [wp_bind, wp_get]
  cases hseeds : ex'.seedMap state with
  | none =>
    have hnone : ex.seedMap state = none := h.seedMap ▸ hseeds
    exact hQ _ [] _ (h.placed (m := ex'.seedMap) (g := ex'.theRNG) hans.constraints hlt hne hside
      (fun st hst => hfresh st (Nat.le_of_add_right_le hst)) (fun _ => h.seedMap)
      fun k hk => by simp [Untaken, hnone])
  | some seeds =>
    have hsome : ex.seedMap state = some seeds := h.seedMap ▸ hseeds
    dsimp only
    rw [wp_bind, wp_modify, wp_bind]
    refine (wp_readState (s := s₁) (by exact hs₁)).mpr ?_
    rw [wp_bind, hcopied.constraints]
    refine wp_giveSeeds hans seeds fun m g hm => ?_
    have hbeyond (st : StateId) (hst : ex.nextState + newStates o ex conditions.length ≤ st) :
        m st = none := by
      have hold : st ≠ state := Nat.ne_of_gt (Nat.lt_of_lt_of_le hlt (Nat.le_of_add_right_le hst))
      rw [← Option.isNone_iff_eq_none, ← Option.isSome_eq_false_iff, ← Bool.not_eq_true, hm st]
      dsimp only
      rw [Function.update_of_ne hold, hfresh st (Nat.le_of_add_right_le hst)]
      rintro (h' | ⟨i, -, hi⟩)
      · cases h'
      · have hmem := mem_family.mp ((mem_statesFor hpos).mp (List.mem_of_getElem? hi))
        exact Nat.not_lt.mpr hst (hmem.resolve_left hold).2
    have hm (st : StateId) (hst : st ∈ family ex state (newStates o ex conditions.length)) :
        (m st).isSome = true ↔ ∃ i ∈ seedIndices o s.constraints conditions seeds ex'.theRNG,
          (statesFor o ex state conditions.length)[i]? = some (some st) := by
      rw [hm st]
      refine or_iff_right fun hold => ?_
      dsimp only at hold
      by_cases heq : st = state
      · rw [heq, Function.update_self] at hold
        cases hold
      · rw [Function.update_of_ne heq,
          hfresh st ((mem_family.mp hst).resolve_left heq).1] at hold
        cases hold
    rw [h.theRNG] at hm
    rw [wp_ite]
    constructor
    · intro honly
      have hlive (st : StateId) (hst : some st ∈ statesFor o ex state conditions.length) :
          (∃ s', ex'.heap st = some s') ∧ st ∈ ex'.processTree.leaves := by
        have hmem := (mem_statesFor hpos).mp hst
        obtain ⟨s', hs', -⟩ := h.heap st hmem
        exact ⟨⟨s', hs'⟩, h.node st hmem⟩
      refine wp_killUnseeded_all ⟨h.wellFormed.heap, h.wellFormed.addedStates, h.wellFormed.leaves,
        fun st hst => hbeyond st (h.nextState ▸ hst), h.wellFormed.nodup⟩
        (once_statesFor hlt hpos) hlive fun killed ex'' hdrop hkilled => ?_
      exact hQ _ killed ex'' (h.placed_seeded hans.constraints hlt hne hside honly hsome hm hdrop hkilled)
    · intro honly
      exact hQ _ [] _ (h.placed hans.constraints hlt hne hside hbeyond
        (fun hnone => by cases hnone.symm.trans hsome) fun k hk => by simp [Untaken, honly])

/-- The condition at a place, if the first `j` conditions have been added. -/
def addedSide (conditions : List Expr) (j k : Nat) (σ : Assignment) : Prop :=
  k < j → ∀ c ∈ conditions[k]?, c.Holds σ

theorem addedSide_succ_of_ne {j k : Nat} (h : k ≠ j) (σ : Assignment) :
    addedSide conditions (j + 1) k σ ↔ addedSide conditions j k σ := by
  have hlt : k < j + 1 ↔ k < j := by omega
  rw [addedSide, addedSide, hlt]

theorem Takes.congr {side side' : Assignment → Prop} (h : Takes s side s')
    (hside : ∀ σ, side σ ↔ side' σ) : Takes s side' s' :=
  { h with constraints := fun σ => by rw [h.constraints, hside] }

/-- A round that adds no constraint. -/
theorem Placed.skip {j : Nat} (h : Placed o ex state s conditions (addedSide conditions j) result killed ex')
    (hj : result[j]? = some none) :
    Placed o ex state s conditions (addedSide conditions (j + 1)) result killed ex' :=
  { h with
    live := fun k st hk => by
      obtain ⟨hnode, s', hs', htakes⟩ := h.live k st hk
      refine ⟨hnode, s', hs', htakes.congr fun σ => ?_⟩
      refine (addedSide_succ_of_ne ?_ σ).symm
      rintro rfl
      rw [hj] at hk
      cases hk }

/-- A round that adds the constraint of its state. -/
theorem Placed.add {j : Nat} {c : Expr} {cs : List Expr} {m : StateId → Option (List SeedInfo)}
    {n : BitVec 32} (hwf : ex.WellFormed)
    (h : Placed o ex state s conditions (addedSide conditions j) result killed ex')
    (hj : result[j]? = some (some st)) (hc : conditions[j]? = some c) (hs' : ex'.heap st = some s')
    (hbool : ∀ c ∈ cs, c.IsBool)
    (hcs : ∀ σ, Satisfies σ cs ↔ Satisfies σ s'.constraints ∧ c.Holds σ)
    (hm : ∀ x, x ≠ st → m x = ex'.seedMap x) (hseeds : ex'.seedMap st = none → m = ex'.seedMap) :
    Placed o ex state s conditions (addedSide conditions (j + 1)) result killed { ex' with
      heap := Function.update ex'.heap st (some { s' with constraints := cs })
      seedMap := m
      nextID := n } := by
  have hmem := h.members st (List.mem_of_getElem? hj)
  have hlt : st < ex'.nextState := by
    by_contra hle
    rw [h.wellFormed.heap st (Nat.le_of_not_lt hle)] at hs'
    cases hs'
  have hother (x : StateId) (hx : x ≠ st) :
      Function.update ex'.heap st (some { s' with constraints := cs }) x = ex'.heap x :=
    Function.update_of_ne hx _ _
  have hbeyond {x : StateId} (hx : ex'.nextState ≤ x) : x ≠ st :=
    Nat.ne_of_gt (Nat.lt_of_lt_of_le hlt hx)
  refine ⟨⟨fun x hx => ?_, h.wellFormed.addedStates, h.wellFormed.leaves, fun x hx => ?_,
    h.wellFormed.nodup⟩, h.nextState, h.length, h.once, fun k x hk => ?_, fun x hx => ?_, h.members,
    h.explored, h.discarded, h.killed, h.null, fun hnone => ?_⟩
  · exact (hother x (hbeyond hx)).trans (h.wellFormed.heap x hx)
  · exact (hm x (hbeyond hx)).trans (h.wellFormed.seedMap x hx)
  · obtain ⟨hnode, y, hy, htakes⟩ := h.live k x hk
    refine ⟨hnode, ?_⟩
    dsimp only
    by_cases hxst : x = st
    · subst hxst
      obtain rfl : k = j := h.once k j x hk hj
      obtain rfl : y = s' := Option.some.inj (hy.symm.trans hs')
      refine ⟨_, Function.update_self _ _ _, htakes.memory, htakes.pc, htakes.prevPC, hbool,
        fun σ => ?_⟩
      rw [hcs, htakes.constraints, addedSide, addedSide, hc]
      simp
    · refine ⟨y, (hother x hxst).trans hy, htakes.congr fun σ => ?_⟩
      refine (addedSide_succ_of_ne ?_ σ).symm
      rintro rfl
      rw [hj] at hk
      exact hxst (Option.some.inj (Option.some.inj hk)).symm
  · exact (hother x fun heq => hx (heq ▸ hmem)).trans (h.others x hx)
  · have hold := h.seedMap hnone
    refine (hseeds ?_).trans hold
    rw [hold]
    cases mem_family.mp hmem with
    | inl heq => rw [heq, hnone]
    | inr hin => exact hwf.seedMap st hin.1

end Placed

section Branch

variable {conditions : List Expr} {C : Prop}

def placeSide (conditions : List Expr) (k : Nat) (σ : Assignment) : Prop :=
  ∀ c ∈ conditions[k]?, c.Holds σ

/-- `branch` on any number of conditions. `C` excludes faults. -/
theorem wp_branch {Q : List (Option StateId) → Executor M → Prop} (hwf : ex.WellFormed)
    (hs : ex.heap state = some s) (hnode : state ∈ ex.processTree.leaves)
    (hans : Answerable o s.constraints conditions) (hne : conditions ≠ [])
    (hC : C → ex.seedMap state = none ∧
      ∀ c ∈ conditions, ∃ σ, Satisfies σ s.constraints ∧ c.Holds σ)
    (hQ : ∀ result killed ex',
      Placed o ex state s conditions (placeSide conditions) result killed ex' → Q result ex') :
    wp (branch o state conditions) Q (fun f => f ≠ .noState ∧ ¬ C) ex := by
  unfold branch
  rw [wp_ite]
  refine ⟨fun hnil => absurd hnil hne, fun _ => ?_⟩
  rw [wp_bind]
  refine wp_branchStates hwf hs hnode fun ex₁ h₁ => ?_
  rw [wp_bind]
  have hside (k : Nat) (σ : Assignment) : addedSide conditions 0 k σ :=
    fun hk => absurd hk (Nat.not_lt_zero k)
  refine wp_branchSeeds_placed hwf hs hans hne hside h₁ fun result killed ex₂ h₂ => ?_
  rw [wp_bind]
  have hlen : (result.zip conditions).length = conditions.length := by
    rw [List.length_zip, h₂.length, min_self]
  -- the rounds that are left, from the place `j` on
  refine wp_post (wp_forM (I := fun rest ex' => ∃ j, rest = (result.zip conditions).drop j ∧
      Placed o ex state s conditions (addedSide conditions j) result killed ex')
    _ ⟨0, rfl, h₂⟩ fun p rest ex₃ h₃ => ?_) fun _ ex₃ h₃ => ?_
  · obtain ⟨j, hrest, h₃⟩ := h₃
    have hp : (result.zip conditions)[j]? = some p := by
      have hhead := congrArg (·[0]?) hrest
      rw [List.getElem?_drop, Nat.add_zero] at hhead
      exact hhead.symm
    have hnext : rest = (result.zip conditions).drop (j + 1) := by
      rw [← List.tail_drop, ← hrest]
      rfl
    obtain ⟨hj, hc⟩ := List.getElem?_zip_eq_some.mp hp
    obtain ⟨st, c⟩ := p
    cases st with
    | none => exact ⟨j + 1, hnext, h₃.skip hj⟩
    | some st =>
      obtain ⟨-, s', hs', htakes⟩ := h₃.live j st hj
      have hmem := List.mem_of_getElem? hc
      have hsame (σ : Assignment) : Satisfies σ s'.constraints ↔ Satisfies σ s.constraints := by
        rw [htakes.constraints]
        exact and_iff_left fun hlt => absurd hlt (Nat.lt_irrefl j)
      refine wp_addConstraint_stores hs' htakes.isBool (hans.conditions c hmem) (fun hc' => ?_)
        fun cs m n hbool hcs hm hseeds => ?_
      · obtain ⟨hnone, hfeasible⟩ := hC hc'
        obtain ⟨σ, hσ⟩ := hans.sat
        refine ⟨⟨hans.solver, htakes.isBool, hans.conditions c hmem, σ, (hsame σ).mpr hσ⟩, ?_,
          fun seeds hst => ?_⟩
        · obtain ⟨τ, hτ, hholds⟩ := hfeasible c hmem
          exact ⟨τ, (hsame τ).mpr hτ, hholds⟩
        · rw [h₃.seedMap hnone] at hst
          cases mem_family.mp (h₃.members st (List.mem_of_getElem? hj)) with
          | inl heq => cases (heq ▸ hst).symm.trans hnone
          | inr hin => cases hst.symm.trans (hwf.seedMap st hin.1)
      · exact ⟨j + 1, hnext, h₃.add hwf hj hc hs' hbool hcs hm hseeds⟩
  · obtain ⟨j, hrest, h₃⟩ := h₃
    have hle : conditions.length ≤ j := hlen ▸ List.drop_eq_nil_iff.mp hrest.symm
    refine hQ result killed ex₃ { h₃ with live := fun k st hk => ?_ }
    obtain ⟨hnode, s', hs', htakes⟩ := h₃.live k st hk
    refine ⟨hnode, s', hs', htakes.congr fun σ => ?_⟩
    have hlt : k < j := Nat.lt_of_lt_of_le (h₃.length ▸ (List.getElem?_eq_some_iff.mp hk).1) hle
    exact forall_prop_of_true hlt

def InFamily (ex : Executor M) (state : StateId) (ex' : Executor M) (st : StateId) : Prop :=
  st = state ∨ ex.nextState ≤ st ∧ st < ex'.nextState

def terminatedIn (ex ex' : Executor M) : List (Explored M) :=
  ex'.explored.drop ex.explored.length

structure Live (ex : Executor M) (state : StateId) (ex' : Executor M) (st : StateId)
    (s' : ExecutionState M) : Prop where
  family : InFamily ex state ex' st
  notTerminated : st ∉ (terminatedIn ex ex').map (·.1)
  heap : ex'.heap st = some s'

variable {result : List (Option StateId)} {killed : List (Explored M)}
variable {side : Nat → Assignment → Prop}

theorem Placed.inFamily (h : Placed o ex state s conditions side result killed ex') :
    InFamily ex state ex' st ↔ st ∈ family ex state (newStates o ex conditions.length) := by
  rw [InFamily, h.nextState, mem_family]

/-- Only a limit or the seeds can leave a condition without a state. -/
theorem Placed.taken (h : Placed o ex state s conditions side result killed ex')
    (hlimit : ¬ Limited o ex) (hseeds : o.onlyReplaySeeds = true → ex.seedMap state = none)
    {k : Nat} (hk : k < conditions.length) : ∃ st, result[k]? = some (some st) := by
  have hplace : k < result.length := h.length ▸ hk
  have hnull := h.null k hk
  rw [List.getElem?_eq_getElem hplace] at hnull ⊢
  cases hst : result[k] with
  | some st => exact ⟨st, rfl⟩
  | none =>
    rw [hst] at hnull
    rcases hnull.mp rfl with ⟨hlimited, -⟩ | ⟨honly, seeds, hsome, -⟩
    · exact absurd hlimited hlimit
    · cases (hseeds honly).symm.trans hsome

end Branch

end Klee.Executor
