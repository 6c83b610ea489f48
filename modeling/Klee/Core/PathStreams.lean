import Klee.Core.PathHistory

/-! The paths that the states write, over the runs of `fork` and `branch`: each live state has
a stream of its own, which holds its own decisions. -/
namespace Klee

section Owners

namespace TreeStreamWriter

variable {ι : Type} [DecidableEq ι]

structure Owns (w : TreeStreamWriter) (own : ι → Option (BitVec 32 × List UInt8)) : Prop where
  inv : w.Inv
  holds : ∀ i id bs, own i = some (id, bs) → w.IsOpen id ∧ w.streams id = bs
  unique : ∀ i j id bs bs', own i = some (id, bs) → own j = some (id, bs') → i = j

variable {w : TreeStreamWriter} {own : ι → Option (BitVec 32 × List UInt8)} {i j : ι}
variable {id : BitVec 32} {bs : List UInt8}

/-- An owner writes to its stream. -/
theorem Owns.write (h : w.Owns own) (hi : own i = some (id, bs)) {s : List UInt8}
    (hs : s.length < 2 ^ 31) :
    (w.write id s).Owns (Function.update own i (some (id, bs ++ s))) := by
  obtain ⟨hopen, hbs⟩ := h.holds i id bs hi
  obtain ⟨hinv, hiff, -, hstreams⟩ := h.inv.write hopen hs
  have hentry (k : ι) (id' : BitVec 32) (bs' : List UInt8)
      (hk : Function.update own i (some (id, bs ++ s)) k = some (id', bs')) :
      k = i ∧ id' = id ∧ bs' = bs ++ s ∨ k ≠ i ∧ own k = some (id', bs') := by
    by_cases hki : k = i
    · subst hki
      rw [Function.update_self] at hk
      cases hk
      exact .inl ⟨rfl, rfl, rfl⟩
    · rw [Function.update_of_ne hki] at hk
      exact .inr ⟨hki, hk⟩
  refine ⟨hinv, fun k id' bs' hk => ?_, fun k l id' bs₁ bs₂ hk hl => ?_⟩
  · rw [hiff, hstreams]
    obtain ⟨rfl, rfl, rfl⟩ | ⟨hki, hold⟩ := hentry k id' bs' hk
    · exact ⟨hopen, by rw [Function.update_self, hbs]⟩
    · have hne : id' ≠ id := by
        intro heq
        subst heq
        exact hki (h.unique k i _ _ _ hold hi)
      rw [Function.update_of_ne hne]
      exact h.holds k id' bs' hold
  · obtain ⟨rfl, rfl, -⟩ | ⟨-, hold⟩ := hentry k id' bs₁ hk
    · obtain ⟨rfl, -, -⟩ | ⟨-, hold'⟩ := hentry l _ bs₂ hl
      · rfl
      · exact h.unique k l _ _ _ hi hold'
    · obtain ⟨rfl, rfl, -⟩ | ⟨-, hold'⟩ := hentry l id' bs₂ hl
      · exact h.unique k l _ _ _ hold hi
      · exact h.unique k l id' _ _ hold hold'

/-- A new stream is opened from the stream of an owner. -/
theorem Owns.openFrom (h : w.Owns own) (hi : own i = some (id, bs)) (j : ι)
    (hids : w.ids.toNat < 2 ^ 31) :
    (w.openFrom id).1.Owns (Function.update own j (some (w.ids, bs))) := by
  obtain ⟨hopen, hbs⟩ := h.holds i id bs hi
  obtain ⟨hinv, hnew, hiff, hstreams⟩ := h.inv.openFrom (.inr hopen) hids
  have hentry (k : ι) (id' : BitVec 32) (bs' : List UInt8)
      (hk : Function.update own j (some (w.ids, bs)) k = some (id', bs')) :
      k = j ∧ id' = w.ids ∧ bs' = bs ∨ id' ≠ w.ids ∧ own k = some (id', bs') := by
    by_cases hkj : k = j
    · subst hkj
      rw [Function.update_self] at hk
      cases hk
      exact .inl ⟨rfl, rfl, rfl⟩
    · rw [Function.update_of_ne hkj] at hk
      refine .inr ⟨fun heq => ?_, hk⟩
      exact hnew (heq ▸ (h.holds k id' bs' hk).1)
  refine ⟨hinv, fun k id' bs' hk => ?_, fun k l id' bs₁ bs₂ hk hl => ?_⟩
  · rw [hiff, hstreams]
    obtain ⟨rfl, rfl, rfl⟩ | ⟨hne, hk⟩ := hentry k id' bs' hk
    · exact ⟨.inr rfl, by rw [Function.update_self, hbs]⟩
    · rw [Function.update_of_ne hne]
      exact ⟨.inl (h.holds k id' bs' hk).1, (h.holds k id' bs' hk).2⟩
  · obtain ⟨rfl, rfl, -⟩ | ⟨hne, hk⟩ := hentry k id' bs₁ hk
    · obtain ⟨rfl, -, -⟩ | ⟨hne, -⟩ := hentry l _ bs₂ hl
      · rfl
      · exact absurd rfl hne
    · obtain ⟨-, rfl, -⟩ | ⟨-, hl⟩ := hentry l id' bs₂ hl
      · exact absurd rfl hne
      · exact h.unique k l id' _ _ hk hl

def root : TreeStreamWriter × BitVec 32 := empty.openFrom 0

theorem owns_root (i : ι) : root.1.Owns (Function.update (fun _ => none) i (some (root.2, []))) := by
  obtain ⟨hinv, -, hiff, hstreams⟩ := inv_empty.openFrom (.inl (Eq.refl (0 : BitVec 32))) (by decide)
  have hentry (k : ι) (id' : BitVec 32) (bs' : List UInt8)
      (hk : Function.update (fun _ => none) i (some (root.2, [])) k = some (id', bs')) :
      k = i ∧ id' = root.2 ∧ bs' = [] := by
    by_cases hki : k = i
    · subst hki
      rw [Function.update_self] at hk
      cases hk
      exact ⟨rfl, rfl, rfl⟩
    · rw [Function.update_of_ne hki] at hk
      cases hk
  refine ⟨hinv, fun k id' bs' hk => ?_, fun k l id' bs₁ bs₂ hk hl => ?_⟩
  · obtain ⟨rfl, rfl, rfl⟩ := hentry k id' bs' hk
    refine ⟨(hiff _).mpr (.inr rfl), ?_⟩
    show (empty.openFrom 0).1.streams _ = []
    rw [hstreams]
    rfl
  · rw [(hentry k id' bs₁ hk).1, (hentry l id' bs₂ hl).1]

end TreeStreamWriter

end Owners

namespace Decision

/-- What a decision writes to a file: its side, unless the branch is internal; the symbolic
path has only the branches of which both sides were feasible. -/
def written (file : PathFile) : Decision → List UInt8
  | fork _ side isInternal split =>
    if isInternal = false ∧ (file = .symPath → split = true) then [Executor.sideByte side] else []
  | branch _ _ => []

def recordedPath (file : PathFile) (ds : List Decision) : List UInt8 :=
  ds.flatMap (written file)

variable {file : PathFile} {ds : List Decision} {d : Decision}

theorem recordedPath_snoc : recordedPath file (ds ++ [d]) = recordedPath file ds ++ d.written file := by
  unfold recordedPath
  rw [List.flatMap_append, List.flatMap_singleton]

end Decision

namespace Executor

open Hoare Decision

variable {M : Type} {ex ex' : Executor M} {h : Histories} {current : StateId}
variable {s : ExecutionState M} {ds : List Decision} {isInternal : Bool} {file : PathFile}

section Split

variable {w : TreeStreamWriter} {own : StateId → Option (BitVec 32 × List UInt8)}
variable {os : BitVec 32} {bs : List UInt8} {new : StateId}

theorem length_sideByte (side : Bool) : [sideByte side].length < 2 ^ 31 := by
  rw [List.length_singleton]
  decide

/-- After a split both states own a stream, with their decisions. -/
theorem owns_splitWriter (file : PathFile) (inst : Nat) (howns : w.Owns own) (hcurrent : own current = some (os, bs))
    (hne : current ≠ new) (hids : w.ids.toNat < 2 ^ 31) : ∃ w' id own',
      splitWriter isInternal (some w) os = (some w', id) ∧ w'.Owns own' ∧
        own' current = some (os, bs ++ (Decision.fork inst true isInternal true).written file) ∧
        own' new = some (id, bs ++ (Decision.fork inst false isInternal true).written file) ∧
        ∀ st, st ≠ current → st ≠ new → own' st = own st := by
  have hopen := howns.openFrom hcurrent new hids
  have hcurrent' : Function.update own new (some (w.ids, bs)) current = some (os, bs) := by
    rw [Function.update_of_ne hne, hcurrent]
  cases isInternal with
  | true =>
    refine ⟨_, _, _, rfl, hopen, ?_, ?_, fun st _ hst => Function.update_of_ne hst _ _⟩
    · rw [hcurrent']
      simp [written]
    · rw [Function.update_self, TreeStreamWriter.snd_openFrom]
      simp [written]
  | false =>
    have hwrite := hopen.write hcurrent' (length_sideByte true)
    have hnew : Function.update (Function.update own new (some (w.ids, bs))) current
        (some (os, bs ++ [sideByte true])) new = some (w.ids, bs) := by
      rw [Function.update_of_ne hne.symm, Function.update_self]
    have hwrite' := hwrite.write hnew (length_sideByte false)
    have hsplit : splitWriter false (some w) os = (some (((w.openFrom os).1.write os
        [sideByte true]).write w.ids [sideByte false]), w.ids) := by
      simp [splitWriter, TreeStreamWriter.snd_openFrom]
    refine ⟨_, _, _, hsplit, hwrite', ?_, ?_, fun st hst hst' => ?_⟩
    · rw [Function.update_of_ne hne, Function.update_self]
      simp [written]
    · rw [Function.update_self]
      simp [written]
    · rw [Function.update_of_ne hst', Function.update_of_ne hst, Function.update_of_ne hst']

end Split

section Streams

def Owned (ex : Executor M) (h : Histories) (file : PathFile) (w : TreeStreamWriter) : Prop :=
  ∃ own : StateId → Option (BitVec 32 × List UInt8), w.Owns own ∧
    ∀ st ds, h st = some ds → ∃ s, ex.heap st = some s ∧
      own st = some (file.stream s, recordedPath file ds)

structure Streams (ex : Executor M) (h : Histories) : Prop where
  fresh : Fresh ex
  owned : ∀ file w, file.writer ex = some w → Owned ex h file w

/-- The stream of a live state. -/
theorem own_entry {own : StateId → Option (BitVec 32 × List UInt8)}
    (hown : ∀ st ds, h st = some ds → ∃ s, ex.heap st = some s ∧
      own st = some (file.stream s, recordedPath file ds))
    (hlive : h current = some ds) (hs : ex.heap current = some s) :
    own current = some (file.stream s, recordedPath file ds) := by
  obtain ⟨s', hs', hentry⟩ := hown current ds hlive
  rwa [Option.some.inj (hs.symm.trans hs')]

theorem Prepared.stream {ex₁ : Executor M} {s₁ : ExecutionState M}
    (hprep : Prepared current ex s ex₁ s₁) : file.stream s₁ = file.stream s := by
  rw [hprep.state]
  cases file <;> rfl

theorem Prepared.writer {ex₁ : Executor M} {s₁ : ExecutionState M}
    (hprep : Prepared current ex s ex₁ s₁) : file.writer ex₁ = file.writer ex := by
  rw [hprep.executor]
  cases file <;> rfl

theorem Terminated.writer {sts : List StateId} (hterm : Terminated sts ex ex') :
    file.writer ex' = file.writer ex := by
  cases file with
  | path => exact hterm.pathWriter
  | symPath => exact hterm.symPathWriter

theorem SplitStates.stream {a b : ExecutionState M} (hstates : SplitStates ex s isInternal a b)
    (file : PathFile) :
    file.stream a = file.stream s ∧
      file.stream b = (splitWriter isInternal (file.writer ex) (file.stream s)).2 := by
  rw [hstates.trueSide, hstates.falseSide]
  cases file <;> exact ⟨rfl, rfl⟩

theorem writer_splitResult {t : PTree} {fs : List StateId} {n : BitVec 32}
    {m : StateId → Option (List SeedInfo)} {a b : ExecutionState M} :
    file.writer (splitResult ex current s isInternal t fs m n a b) =
      (splitWriter isInternal (file.writer ex) (file.stream s)).1 := by
  cases file <;> rfl

/-- A state that goes on alone writes its decision to its stream. -/
theorem owned_alone {w : TreeStreamWriter} {side : Bool} {fs : List StateId} {ex₁ : Executor M}
    {s₁ : ExecutionState M} (howned : ∀ w, file.writer ex = some w → Owned ex h file w)
    (hlive : h current = some ds) (hs : ex.heap current = some s)
    (hprep : Prepared current ex s ex₁ s₁)
    (hw : file.writer (aloneResult ex₁ current s₁ isInternal side fs) = some w) :
    Owned (aloneResult ex₁ current s₁ isInternal side fs)
      (h.record current (forkTaken s.prevPC isInternal (alone current side))) file w := by
  have hstep : ∃ own, w.Owns own ∧
      own current = some (file.stream s,
        recordedPath file ds ++ (Decision.fork s.prevPC side isInternal false).written file) ∧
      ∀ st ds', st ≠ current → h st = some ds' → ∃ s', ex.heap st = some s' ∧
        own st = some (file.stream s', recordedPath file ds') := by
    have hwriter : file.writer ex₁ = file.writer ex := hprep.writer
    cases file with
    | path =>
      cases isInternal with
      | true =>
        obtain ⟨own, howns, hown⟩ := howned w (hwriter ▸ hw)
        exact ⟨own, howns, by simpa [written] using own_entry hown hlive hs, fun st ds' _ hst =>
          hown st ds' hst⟩
      | false =>
        obtain ⟨w₀, hw₀, rfl⟩ := Option.map_eq_some_iff.mp hw
        obtain ⟨own, howns, hown⟩ := howned w₀ (hwriter ▸ hw₀)
        have hentry := own_entry hown hlive hs
        have hwrite := howns.write hentry (length_sideByte side)
        have hos : PathFile.path.stream s₁ = PathFile.path.stream s := hprep.stream
        refine ⟨_, hos ▸ hwrite, ?_, fun st ds' hst hst' => ?_⟩
        · rw [Function.update_self, hos]
          simp [written]
        · rw [Function.update_of_ne hst]
          exact hown st ds' hst'
    | symPath =>
      obtain ⟨own, howns, hown⟩ := howned w (hwriter ▸ hw)
      exact ⟨own, howns, by simpa [written] using own_entry hown hlive hs, fun st ds' _ hst =>
        hown st ds' hst⟩
  obtain ⟨own, howns, hcurrent, hothers⟩ := hstep
  refine ⟨own, howns, fun st ds' hst => ?_⟩
  obtain ⟨d, hd, rfl⟩ | ⟨hne, hst⟩ := Histories.record_cases hlive hst
  · obtain ⟨rfl, rfl⟩ := lookup_forkTaken_alone hd
    refine ⟨_, Function.update_self _ _ _, ?_⟩
    rw [recordedPath_snoc, hcurrent, ← hprep.stream]
    cases file <;> rfl
  · obtain ⟨s', hs', hentry⟩ := hothers st ds' hne hst
    refine ⟨s', ?_, hentry⟩
    exact (heap_aloneResult_of_ne hne).trans ((hprep.heap_of_ne hne).trans hs')

/-- After a split the states own their streams, also if they are terminated at once. -/
theorem owned_split {w : TreeStreamWriter} {ex₁ : Executor M} {s₁ : ExecutionState M}
    {r : Option StateId × Option StateId} {a b : ExecutionState M} {inst : Nat}
    (howned : ∀ w, file.writer ex = some w → Owned ex h file w)
    (hids : ∀ w, file.writer ex = some w → w.ids.toNat < 2 ^ 31)
    (hlive : h current = some ds) (hs : ex.heap current = some s) (hfresh : Fresh ex)
    (hprep : Prepared current ex s ex₁ s₁) (hstates : SplitStates ex₁ s₁ isInternal a b)
    (hw : (splitWriter isInternal (file.writer ex₁) (file.stream s₁)).1 = some w)
    (hheap : ∀ st, st ≠ current → st ≠ ex.nextState → ex'.heap st = ex.heap st)
    (hr : r = (none, none) ∨ r = (some current, some ex.nextState) ∧
      ex'.heap current = some a ∧ ex'.heap ex.nextState = some b) :
    Owned ex' (h.record current (forkTaken inst isInternal r)) file w := by
  have hne : current ≠ ex.nextState := Nat.ne_of_lt (hfresh.lt hs)
  obtain ⟨w₀, hw₀⟩ : ∃ w₀, file.writer ex = some w₀ := by
    cases hw₀ : file.writer ex with
    | none =>
      rw [hprep.writer, hw₀] at hw
      cases hw
    | some w₀ => exact ⟨w₀, rfl⟩
  obtain ⟨own, howns, hown⟩ := howned w₀ hw₀
  obtain ⟨w', id, own', hsplit, howns', hleft, hright, hothers⟩ :=
    owns_splitWriter file inst howns (own_entry hown hlive hs) hne
      (hids w₀ hw₀)
  have hsplit₁ : splitWriter isInternal (file.writer ex₁) (file.stream s₁) = (some w', id) := by
    rw [hprep.writer, hprep.stream, hw₀]
    exact hsplit
  obtain rfl : w' = w := by
    rw [hsplit₁] at hw
    exact Option.some.inj hw
  obtain ⟨ha, hb⟩ := hstates.stream file
  rw [hsplit₁] at hb
  refine ⟨own', howns', fun st ds' hst => ?_⟩
  obtain ⟨d, hd, rfl⟩ | ⟨hne', hst⟩ := Histories.record_cases hlive hst
  · obtain rfl | ⟨rfl, hcurrent, hnew⟩ := hr
    · cases hd
    · rw [recordedPath_snoc]
      obtain ⟨rfl, rfl⟩ | ⟨rfl, rfl⟩ := lookup_forkTaken_split hd
      · exact ⟨a, hcurrent, by rw [hleft, ha, hprep.stream]⟩
      · exact ⟨b, hnew, by rw [hright, hb]⟩
  · obtain ⟨s', hs', hentry⟩ := hown st ds' hst
    have hnew : st ≠ ex.nextState := Nat.ne_of_lt (hfresh.lt hs')
    exact ⟨s', (hheap st hne' hnew).trans hs', (hothers st hne' hnew).trans hentry⟩

/-- `fork` keeps the streams apart. -/
theorem Streams.fork {r : Option StateId × Option StateId} (hstreams : Streams ex h)
    (hids : ∀ file w, PathFile.writer ex file = some w → w.ids.toNat < 2 ^ 31)
    (hlive : h current = some ds) (hs : ex.heap current = some s)
    (heffect : ForkEffect ex current s isInternal r ex') :
    Streams ex' (h.record current (forkTaken s.prevPC isInternal r)) where
  fresh := heffect.fresh hstreams.fresh hs
  owned file w hw := by
    have howned := hstreams.owned file
    have hne : current ≠ ex.nextState := Nat.ne_of_lt (hstreams.fresh.lt hs)
    have hheap (st : StateId) (hst : st ≠ current) (hst' : st ≠ ex.nextState) :=
      heffect.heap hst hst'
    cases heffect with
    | alone side fs hprep => exact owned_alone howned hlive hs hprep hw
    | @split t fs m n ex₁ s₁ a b hprep hstates =>
      rw [writer_splitResult] at hw
      refine owned_split howned (hids file) hlive hs hstreams.fresh hprep hstates hw hheap
        (.inr ⟨rfl, ?_, ?_⟩)
      · refine heap_withPair_left ?_
        rwa [hprep.nextState]
      · rw [← hprep.nextState]
        exact heap_withPair_right
    | depth hprep hstates hterm =>
      rw [hterm.writer, writer_splitResult] at hw
      exact owned_split howned (hids file) hlive hs hstreams.fresh hprep hstates hw hheap (.inl rfl)
    | timeout hprep hterm =>
      rw [hterm.writer, hprep.writer] at hw
      obtain ⟨own, howns, hown⟩ := howned w hw
      refine ⟨own, howns, fun st ds' hst => ?_⟩
      obtain ⟨d, hd, -⟩ | ⟨hne', hst⟩ := Histories.record_cases hlive hst
      · cases hd
      · obtain ⟨s', hs', hentry⟩ := hown st ds' hst
        exact ⟨s', (hheap st hne' (Nat.ne_of_lt (hstreams.fresh.lt hs'))).trans hs', hentry⟩

theorem stream_branchEntry (o : ExecutorOptions) (ex : Executor M) (s : ExecutionState M)
    (file : PathFile) : file.stream (branchEntry o ex s) = file.stream s := by
  unfold branchEntry
  split
  · rfl
  · cases file <;> rfl

theorem Elsewhere.writer (helse : Elsewhere ex ex') (file : PathFile) :
    file.writer ex' = file.writer ex := by
  cases file with
  | path => exact helse.pathWriter
  | symPath => exact helse.symPathWriter

theorem Elsewhere.stream {st : StateId} {s' : ExecutionState M} (helse : Elsewhere ex ex')
    (hs' : ex'.heap st = some s') (file : PathFile) :
    ∃ s, ex.heap st = some s ∧ file.stream s' = file.stream s := by
  obtain ⟨s, hs, -, hpath, hsym⟩ := helse.states st s' hs'
  refine ⟨s, hs, ?_⟩
  cases file with
  | path => exact hpath
  | symPath => exact hsym

/-- `branch` without a new state writes nothing. -/
theorem Streams.branch {o : ExecutorOptions} {n : Nat} {result : List (Option StateId)}
    (hstreams : Streams ex h) (hlive : h current = some ds) (hs : ex.heap current = some s)
    (heffect : BranchEffect o ex current s n result ex') :
    Streams ex' (h.record current (branchTaken s.prevPC result)) where
  fresh := heffect.fresh hstreams.fresh hs
  owned file w hw := by
    have hwriter : file.writer ex' = file.writer ex := by
      cases file with
      | path => exact heffect.still.pathWriter
      | symPath => exact heffect.still.symPathWriter
    obtain ⟨own, howns, hown⟩ := hstreams.owned file w (hwriter ▸ hw)
    refine ⟨own, howns, fun st ds' hst => ?_⟩
    obtain ⟨d, hd, rfl⟩ | ⟨hne, hst⟩ := Histories.record_cases hlive hst
    · obtain ⟨hmem, i, rfl⟩ := lookup_branchTaken hd
      obtain rfl : st = current := by
        obtain hnone | ⟨j, -, rfl⟩ := heffect.result
        · cases hnone _ hmem
        · exact (lone_aloneAt j n).only hmem
      obtain ⟨cs, hcs⟩ := heffect.still.live hmem
      refine ⟨_, hcs, ?_⟩
      rw [own_entry hown hlive hs, recordedPath_snoc, ← stream_branchEntry o ex s file]
      cases file <;> simp [written, PathFile.stream]
    · obtain ⟨s', hs', hentry⟩ := hown st ds' hst
      exact ⟨s', (heffect.still.others st hne).trans hs', hentry⟩

/-- A transfer writes nothing. -/
theorem Streams.transfer {index : Nat} (hstreams : Streams ex h) (hlive : h current = some ds)
    (hs : ex.heap current = some s) (htrans : MovedOn ex ex') :
    Streams ex' (h.record current
      (branchTaken s.prevPC (aloneAt current index (index + 1)))) where
  fresh := htrans.toElsewhere.fresh hstreams.fresh
  owned file w hw := by
    obtain ⟨own, howns, hown⟩ := hstreams.owned file w (htrans.toElsewhere.writer file ▸ hw)
    have hkept (st : StateId) (ds' : List Decision) (hst : h st = some ds') : ∃ s', ex'.heap st =
        some s' ∧ own st = some (file.stream s', recordedPath file ds') := by
      obtain ⟨s₀, hs₀, hentry⟩ := hown st ds' hst
      obtain ⟨s', hs'⟩ := htrans.live st s₀ hs₀
      obtain ⟨s₁, hs₁, hstream⟩ := htrans.toElsewhere.stream hs' file
      obtain rfl := Option.some.inj (hs₀.symm.trans hs₁)
      exact ⟨s', hs', by rw [hstream, hentry]⟩
    refine ⟨own, howns, fun st ds' hst => ?_⟩
    obtain ⟨d, hd, rfl⟩ | ⟨-, hst⟩ := Histories.record_cases hlive hst
    · obtain ⟨hmem, i, rfl⟩ := lookup_branchTaken hd
      obtain rfl : st = current := (lone_aloneAt index (index + 1)).only hmem
      obtain ⟨s', hs', hentry⟩ := hkept st ds hlive
      refine ⟨s', hs', ?_⟩
      rw [hentry, recordedPath_snoc]
      cases file <;> simp [written]
    · exact hkept st ds' hst

theorem Streams.elsewhere (hstreams : Streams ex h) (helse : Elsewhere ex ex') :
    Streams ex' fun st => if (ex'.heap st).isSome then h st else none where
  fresh := helse.fresh hstreams.fresh
  owned file w hw := by
    obtain ⟨own, howns, hown⟩ := hstreams.owned file w (helse.writer file ▸ hw)
    refine ⟨own, howns, fun st ds hst => ?_⟩
    dsimp only at hst
    cases hs' : ex'.heap st with
    | none =>
      rw [hs'] at hst
      cases hst
    | some s' =>
      rw [hs'] at hst
      obtain ⟨s, hs, hstream⟩ := helse.stream hs' file
      exact ⟨s', rfl, by rw [own_entry hown hst hs, hstream]⟩

/-- The calls that keep the streams apart: `branch` makes no state, and there are streams left
for `fork`. -/
def OwnStreams (ex : Executor M) : Call → Prop
  | .fork _ _ _ _ => ∀ file w, PathFile.writer ex file = some w → w.ids.toNat < 2 ^ 31
  | .branch o _ conditions => conditions.length = 1 ∨ Limited o ex
  | .transfer _ _ => True

theorem isSome_splitWriter (w : Option TreeStreamWriter) (os : BitVec 32) :
    (splitWriter isInternal w os).1.isSome = w.isSome := by
  cases w <;> rfl

/-- A file that is written stays so. -/
theorem ForkEffect.isSome_writer {r : Option StateId × Option StateId}
    (heffect : ForkEffect ex current s isInternal r ex') (file : PathFile) :
    (file.writer ex').isSome = (file.writer ex).isSome := by
  cases heffect with
  | @alone side fs ex₁ s₁ hprep =>
    rw [← hprep.writer]
    cases file with
    | path =>
      cases isInternal with
      | true => rfl
      | false => exact Option.isSome_map
    | symPath => rfl
  | split t fs m n hprep hstates =>
    rw [writer_splitResult, isSome_splitWriter, hprep.writer]
  | depth hprep hstates hterm =>
    rw [hterm.writer, writer_splitResult, isSome_splitWriter, hprep.writer]
  | timeout hprep hterm => rw [hterm.writer, hprep.writer]

theorem BranchEffect.writer {o : ExecutorOptions} {n : Nat} {result : List (Option StateId)}
    (heffect : BranchEffect o ex current s n result ex') (file : PathFile) :
    file.writer ex' = file.writer ex := by
  cases file with
  | path => exact heffect.still.pathWriter
  | symPath => exact heffect.still.symPathWriter

theorem Streams.run {start : Executor M} (hstart : Streams start .initial)
    (hrun : Run OwnStreams start ex h) :
    Streams ex h ∧ ∀ file, (PathFile.writer ex file).isSome = (PathFile.writer start file).isSome := by
  induction hrun with
  | start => exact ⟨hstart, fun _ => rfl⟩
  | fork hrun hlive hs hok hcall ih =>
    have heffect := forkEffect_of_fork hs (ih.1.fresh _ le_rfl) hcall
    exact ⟨ih.1.fork hok hlive hs heffect,
      fun file => (heffect.isSome_writer file).trans (ih.2 file)⟩
  | branch hrun hlive hs hok hcall ih =>
    have heffect := branchEffect_of_branch hs hok hcall
    exact ⟨ih.1.branch hlive hs heffect, fun file => by rw [heffect.writer file, ih.2 file]⟩
  | transfer hrun hlive hs hok htrans ih =>
    exact ⟨ih.1.transfer hlive hs htrans,
      fun file => by rw [htrans.toElsewhere.writer file, ih.2 file]⟩
  | elsewhere hrun helse ih =>
    exact ⟨ih.1.elsewhere helse, fun file => by rw [helse.writer file, ih.2 file]⟩

def StartsStreams (s₀ : ExecutionState M) (pw sw : Option TreeStreamWriter) : Prop :=
  ∀ file w, PathFile.writer (initial s₀ pw sw) file = some w →
    (w, file.stream s₀) = TreeStreamWriter.root

theorem streams_initial {s₀ : ExecutionState M} {pw sw : Option TreeStreamWriter}
    (hstart : StartsStreams s₀ pw sw) : Streams (initial s₀ pw sw) .initial where
  fresh := fresh_initial s₀ pw sw
  owned file w hw := by
    have hroot := hstart file w hw
    have howns := TreeStreamWriter.owns_root (ι := StateId) 0
    rw [← hroot] at howns
    refine ⟨_, howns, fun st ds hst => ?_⟩
    unfold Histories.initial at hst
    by_cases h0 : st = 0
    · subst h0
      rw [if_pos rfl] at hst
      obtain rfl := Option.some.inj hst
      exact ⟨s₀, heap_initial_self s₀ pw sw, Function.update_self _ _ _⟩
    · rw [if_neg h0] at hst
      cases hst

/-- In a run in which `branch` makes no state and the streams do not run out, each live state
has a stream of its own in every file that is written, with exactly its own decisions. -/
theorem readStream_run (s₀ : ExecutionState M) (pw sw : Option TreeStreamWriter)
    (ex : Executor M) (h : Histories) (hstart : StartsStreams s₀ pw sw)
    (hrun : Run OwnStreams (initial s₀ pw sw) ex h) (file : PathFile)
    (hon : (PathFile.writer (initial s₀ pw sw) file).isSome = true) :
    ∃ w, file.writer ex = some w ∧ ∀ st ds, h st = some ds → ∃ s, ex.heap st = some s ∧
      w.readStream (file.stream s) = some (recordedPath file ds) ∧
      ∀ st' s', (h st').isSome = true → ex.heap st' = some s' →
        file.stream s' = file.stream s → st' = st := by
  obtain ⟨hstreams, hwriters⟩ := Streams.run (streams_initial hstart) hrun
  obtain ⟨w, hw⟩ := Option.isSome_iff_exists.mp ((hwriters file).trans hon)
  obtain ⟨own, howns, hown⟩ := hstreams.owned file w hw
  refine ⟨w, hw, fun st ds hst => ?_⟩
  obtain ⟨s, hs, hentry⟩ := hown st ds hst
  obtain ⟨hopen, hpath⟩ := howns.holds st _ _ hentry
  refine ⟨s, hs, by rw [howns.inv.readStream_eq hopen, hpath], fun st' s' hst' hs' hsame => ?_⟩
  obtain ⟨ds', hds'⟩ := Option.isSome_iff_exists.mp hst'
  have hentry' := own_entry hown hds' hs'
  rw [hsame] at hentry'
  exact howns.unique st' st _ _ _ hentry' hentry

end Streams

section Example

def streamState : ExecutionState Unit :=
  { emptyState with
    pathOS := TreeStreamWriter.root.2
    symPathOS := TreeStreamWriter.root.2 }

def streamStart : Executor Unit :=
  initial streamState (some TreeStreamWriter.root.1) (some TreeStreamWriter.root.1)

theorem startsStreams_streamState :
    StartsStreams streamState (some TreeStreamWriter.root.1) (some TreeStreamWriter.root.1) := by
  intro file w hw
  cases file with
  | path =>
    cases hw
    rfl
  | symPath =>
    cases hw
    rfl

/-- After a first fork on `x[0] == 1` the state of the false side has its decision. -/
theorem readStream_run_byteIs : ∃ ex h, Run OwnStreams streamStart ex h ∧
    h 1 = some [.fork 7 false false true] ∧ ∃ w, PathFile.writer ex .path = some w ∧
      ∃ s, ex.heap 1 = some s ∧ w.readStream (PathFile.stream s .path) = some [48] := by
  obtain ⟨ex, hcall⟩ := fork_byteIs_splits streamState (some TreeStreamWriter.root.1)
    (some TreeStreamWriter.root.1) rfl rfl
  have hids (file : PathFile) (w : TreeStreamWriter) (hw : file.writer streamStart = some w) :
      w.ids.toNat < 2 ^ 31 := by
    have hroot := startsStreams_streamState file w hw
    obtain rfl : w = TreeStreamWriter.root.1 := congrArg Prod.fst hroot
    decide
  have hrun : Run OwnStreams streamStart ex _ := .fork .start rfl rfl hids hcall
  obtain ⟨w, hw, hpaths⟩ := readStream_run streamState _ _ ex _ startsStreams_streamState hrun
    .path rfl
  obtain ⟨s, hs, hpath, -⟩ := hpaths 1 [.fork 7 false false true] rfl
  exact ⟨ex, _, hrun, rfl, w, hw, s, hs, hpath⟩

/-- After a branch on two conditions, the decision of one state appears in the path of the
other. -/
theorem branch_shares_stream : ∃ ex₁ ex₂ b w,
    branch plainOptions 0 [byteIs 0 0, byteIs 1 0] streamStart = .ok ([some 0, some 1], ex₁) ∧
      fork plainOptions 0 (.constant ⟨1, 1⟩) false ex₁ = .ok ((some 0, none), ex₂) ∧
      (∃ a, ex₁.heap 0 = some a ∧ a.prevPC = 7) ∧ ex₂.heap 1 = some b ∧
      ex₂.pathWriter = some w ∧ w.readStream b.pathOS = some [49] := by
  have hanswers (v : BitVec 8) : Answers plainOptions streamState.constraints (byteIs v 0) :=
    ⟨TimingSolver.correct_ideal, by simp [streamState, emptyState], isBool_byteIs v 0,
      fun _ _ => 0, satisfies_nil _⟩
  have hbranch : wp (branch plainOptions 0 [byteIs 0 0, byteIs 1 0])
      (fun result ex₁ => result = [some 0, some 1] ∧
        ∃ fs g n id cs ds, (∀ e ∈ cs, e.IsBool) ∧ (∃ σ, Satisfies σ cs) ∧
          ex₁ = (pairBase streamStart (.node (.leaf 1) (.leaf 0)) fs g n).withPair 0 1
            (pairOf streamState id cs ds).1 (pairOf streamState id cs ds).2) (fun _ => ¬ True)
      streamStart := by
    refine wp_branch_pair (s := streamState) (t := .node (.leaf 1) (.leaf 0)) rfl rfl rfl
      (by simp [Limited, plainOptions]) rfl rfl (hanswers 0) (hanswers 1)
      ⟨fun _ _ => 0, satisfies_nil _, by decide⟩ ⟨fun _ _ => 1, satisfies_nil _, by decide⟩
      fun fs g n id cs ds hbool hiff => ⟨rfl, fs, g, n, id, cs, ds, hbool, ⟨fun _ _ => 0, ?_⟩, rfl⟩
    exact (hiff _).mpr ⟨satisfies_nil _, by decide⟩
  obtain ⟨result, ex₁, hcall, rfl, fs, g, n, id, cs, ds, hbool, hsat, rfl⟩ :=
    exists_ok_of_wp (wp_mono hbranch (fun _ _ h => h) fun _ h => h trivial)
  have hfork : wp (fork plainOptions 0 (.constant ⟨1, 1⟩) false)
      (fun r ex₂ => r = (some 0, none) ∧ ∃ b w, ex₂.heap 1 = some b ∧ ex₂.pathWriter = some w ∧
        w.readStream b.pathOS = some [49]) (fun _ => ¬ True)
      ((pairBase streamStart (.node (.leaf 1) (.leaf 0)) fs g n).withPair 0 1
        (pairOf streamState id cs ds).1 (pairOf streamState id cs ds).2) := by
    have htrue (σ : Assignment) : (Expr.constant ⟨1, 1⟩).Holds σ := by
      simp [Expr.Holds, Expr.eval]
    have hone {v : Validity} (hverdict : v.Says cs (.constant ⟨1, 1⟩)) : v = .true := by
      cases v with
      | true => rfl
      | false =>
        obtain ⟨σ, hσ⟩ := hsat
        exact absurd (htrue σ) (hverdict σ hσ)
      | unknown =>
        obtain ⟨σ, hσ, hfalse⟩ := hverdict.2
        exact absurd (htrue σ) hfalse
    have hfresh : ((pairBase streamStart (.node (.leaf 1) (.leaf 0)) fs g n).withPair 0 1
        (pairOf streamState id cs ds).1 (pairOf streamState id cs ds).2).heap 2 = none :=
      heap_withPair_of_ne (by decide) (by decide)
    refine wp_fork (s := (pairOf streamState id cs ds).1) (heap_withPair_left (by decide))
      hfresh (fun _ => ?_)
      (fun side ex' s' fs' hprep h => ?_) (fun ex' s' t fs m n a b hprep ht hstates h => ?_)
      (fun _ _ _ _ _ _ _ _ _ _ _ _ _ hnC => absurd trivial hnC)
      fun _ _ _ _ _ hnC => absurd trivial hnC
    · have hbit : (Expr.constant ⟨1, 1⟩).IsBool := by
        simp [Expr.IsBool, Expr.WellSorted, Expr.width]
      have hseeds : ((pairBase streamStart (.node (.leaf 1) (.leaf 0)) fs g n).withPair 0 1
          (pairOf streamState id cs ds).1 (pairOf streamState id cs ds).2).seedMap 0 ≠ some [] := by
        simp [withPair, pairBase, streamStart, initial]
      have hdepth : ¬ (plainOptions.maxDepth ≠ 0 ∧
          plainOptions.maxDepth ≤ (pairOf streamState id cs ds).1.depth + 1) := fun h => h.1 rfl
      exact ⟨⟨TimingSolver.correct_ideal, hbool, hbit, hsat⟩, rfl, rfl, hseeds, rfl, fun _ => rfl, rfl,
        rfl, hdepth⟩
    · have hside : side = true := by
        cases (h trivial).why with
        | inl hall =>
          obtain ⟨σ, hσ⟩ := hsat
          exact (hall σ hσ).mp (htrue σ)
        | inr hseeded => cases hone hseeded.1
      subst hside
      have hwriter : PathFile.path.writer ex' = some TreeStreamWriter.root.1 := hprep.writer
      have hstream : PathFile.path.stream s' = TreeStreamWriter.root.2 := hprep.stream
      have hheap : ex'.heap 1 = some (pairOf streamState id cs ds).2 :=
        (hprep.heap_of_ne (by decide)).trans heap_withPair_right
      refine ⟨rfl, (pairOf streamState id cs ds).2,
        TreeStreamWriter.write TreeStreamWriter.root.1 TreeStreamWriter.root.2 [49], ?_, ?_, ?_⟩
      · exact (heap_aloneResult_of_ne (by decide)).trans hheap
      · show sideWriter (PathFile.path.writer ex') (PathFile.path.stream s') true = _
        rw [hwriter, hstream]
        rfl
      · show TreeStreamWriter.readStream _ TreeStreamWriter.root.2 = _
        decide
    · cases hone (h trivial).2.2.feasible
  obtain ⟨r, ex₂, hcall₂, rfl, b, w, hb, hw, hpath⟩ :=
    exists_ok_of_wp (wp_mono hfork (fun _ _ h => h) fun _ h => h trivial)
  exact ⟨_, ex₂, b, w, hcall, hcall₂, ⟨_, heap_withPair_left (by decide), rfl⟩, hb, hw, hpath⟩

/-- Not every run keeps the paths apart. -/
theorem not_readStream_run : ¬ ∀ (ex : Executor Unit) (h : Histories),
    Run (fun _ _ => True) streamStart ex h → ∃ w, PathFile.writer ex .path = some w ∧
      ∀ st ds, h st = some ds → ∃ s, ex.heap st = some s ∧
        w.readStream (PathFile.stream s .path) = some (recordedPath .path ds) := by
  intro hall
  obtain ⟨ex₁, ex₂, b, w, hcall, hcall₂, ⟨a, ha, hpc⟩, hb, hw, hpath⟩ := branch_shares_stream
  have hrun : Run (fun _ _ => True) streamStart ex₁ _ := .branch .start rfl rfl trivial hcall
  have hrun₂ : Run (fun _ _ => True) streamStart ex₂ _ := .fork hrun rfl ha trivial hcall₂
  obtain ⟨w', hw', hpaths⟩ := hall ex₂ _ hrun₂
  obtain ⟨b', hb', hpath'⟩ := hpaths 1 [.branch 7 1] rfl
  obtain rfl : w = w' := Option.some.inj (hw.symm.trans hw')
  obtain rfl : b = b' := Option.some.inj (hb.symm.trans hb')
  rw [show PathFile.stream b .path = b.pathOS from rfl, hpath] at hpath'
  cases hpath'

end Example

end Executor

end Klee
