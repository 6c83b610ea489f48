import Klee.Core.ReturnDistances

/-! The second part of `computeReachableUncovered` and `computeMinDistToUncovered`: what they find
are the lengths of the shortest ways to uncovered code that enter no function called. -/
namespace Klee.StatsTracker

open Relaxation

/-- There is a way of some length from an instruction to an uncovered one, which goes through
functions called, or into them too. -/
inductive Reach (m : Module) (uncovered : Inst → Bool) (enter : Bool) : Inst → Nat → Prop
  | here {i : Inst} (hi : i ∈ m.instructions) (hun : uncovered i = true) :
    Reach m uncovered enter i 1
  | step {i j : Inst} {d : Nat} (hi : i ∈ m.instructions) (hcall : m.callTargets i = none)
      (hj : j ∈ m.getSuccs i) (hd : Reach m uncovered enter j d) : Reach m uncovered enter i (1 + d)
  | across {i j : Inst} {targets : List Nat} {f c d : Nat} (hi : i ∈ m.instructions)
      (hcall : m.callTargets i = some targets) (hf : f ∈ targets) (hc : Returns m (.function f) c)
      (hj : j ∈ m.getSuccs i) (hd : Reach m uncovered enter j d) :
    Reach m uncovered enter i (1 + c + d)
  | into {i : Inst} {targets : List Nat} {f d : Nat} (hi : i ∈ m.instructions)
      (hcall : m.callTargets i = some targets) (hf : f ∈ targets)
      (hdef : m.isDeclaration f = false) (henter : enter = true)
      (hd : Reach m uncovered enter (Module.entry f) d) : Reach m uncovered enter i (1 + d)

variable {m : Module} {infos : InstructionInfoTable m} {uncovered : Inst → Bool}

/-- The length of the way through a function called fits its type with the call. -/
def Passable (m : Module) (returns : ReturnTables) : Prop :=
  ∀ i ∈ m.instructions, ∀ f ∈ (m.callTargets i).getD [], returns.functionShortestPath f + 1 < 2 ^ 32

/-- What holds of the table all along: a distance is the length of a way that enters no function,
what is known from the start stays known, and functions have none. -/
structure UncoveredInv (m : Module) (infos : InstructionInfoTable m) (uncovered : Inst → Bool)
    (table : Nat → Nat) : Prop where
  inst : ∀ i ∈ m.instructions, table (infos.getInfo i) ≠ 0 →
    Reach m uncovered false i (table (infos.getInfo i))
  here : ∀ i ∈ m.instructions, uncovered i = true → toENat (table (infos.getInfo i)) ≤ 1
  function : ∀ f, table (infos.getFunctionInfo f) = 0

theorem UncoveredInv.init (uncovered : Inst → Bool) :
    UncoveredInv m infos uncovered (initUncovered m infos uncovered) := by
  have hvalue : ∀ i ∈ m.instructions, initUncovered m infos uncovered (infos.getInfo i) =
      if uncovered i then 1 else 0 := fun i hi =>
    setAll_of_mem _ _ (fun i hi j _ h => infos.getInfo_inj hi h) hi
  refine ⟨fun i hi hne => ?_, fun i hi hun => ?_, fun f => ?_⟩
  · rw [hvalue i hi] at hne ⊢
    split_ifs at hne ⊢ with hun
    · exact .here hi hun
    · exact absurd rfl hne
  · rw [hvalue i hi, if_pos hun]
    rfl
  · exact setAll_of_forall_ne _ _ fun i hi => infos.getInfo_ne_getFunctionInfo hi f

/-- No function called is entered, for the table has nothing under its number. -/
theorem bestUncovered_eq {table : Nat → Nat} (hinv : UncoveredInv m infos uncovered table)
    (returns : ReturnTables) (i : Inst) : bestUncovered m infos returns i table =
      if bestThrough m returns.functionShortestPath i = 0 then table (infos.getInfo i) else
        best (fun j => further (bestThrough m returns.functionShortestPath i)
          (table (infos.getInfo j))) (table (infos.getInfo i)) (m.getSuccs i) := by
  have hcallee (f : Nat) : further 1 (calleeDist m infos table f) = 0 := by
    by_contra hne
    rw [← ne_eq, further_ne_zero, calleeDist, hinv.function f] at hne
    exact hne (by split_ifs <;> rfl)
  have hwithin : best (fun f => further 1 (calleeDist m infos table f)) (table (infos.getInfo i))
      ((m.callTargets i).getD []) = table (infos.getInfo i) := by
    rcases (best_spec (fun f => further 1 (calleeDist m infos table f))
      (table (infos.getInfo i)) ((m.callTargets i).getD [])).2.2 with h | ⟨f, -, h, -⟩
    · exact h
    · exact absurd (hcallee f) h
  unfold bestUncovered
  dsimp only
  rw [hwithin]

section Visit

variable {returns : ReturnTables} (hright : returns.Right m infos) (hpass : Passable m returns)

include hright hpass

/-- A way through an instruction and a way from what comes next make a way. -/
theorem reach_further {enter : Bool} {i j : Inst} {d : Nat} (hi : i ∈ m.instructions)
    (hj : j ∈ m.getSuccs i) (hthrough : bestThrough m returns.functionShortestPath i ≠ 0)
    (hd : Reach m uncovered enter j d) :
    Reach m uncovered enter i (bestThrough m returns.functionShortestPath i + d) := by
  cases hcall : m.callTargets i with
  | none =>
    rw [bestThrough_of_none hcall]
    exact .step hi hcall hj hd
  | some targets =>
    have hfit : ∀ f ∈ targets, returns.functionShortestPath f + 1 < 2 ^ 32 := by
      simpa [hcall] using hpass i hi
    rw [bestThrough_of_some hcall] at hthrough ⊢
    obtain ⟨f, hf, hF, heq⟩ := (throughCall_spec hfit).2 hthrough
    rw [heq]
    exact .across hi hcall hf ((hright.function f).1 hF) hj hd

theorem visitUncovered_lowers : Lowers (visitUncovered m infos returns) (fun _ _ => True)
    (UncoveredInv m infos uncovered)
    (fun table (i : {i // i ∈ m.instructions}) => toENat (table (infos.getInfo i.1)))
    m.instructions.reverse := by
  intro i hi table _ hinv
  replace hi := List.mem_reverse.mp hi
  by_cases hsame : bestUncovered m infos returns i table = table (infos.getInfo i)
  · exact .inl (if_neg (not_not.mpr hsame))
  have hvisit : visitUncovered m infos returns i table =
      (Function.update table (infos.getInfo i) (bestUncovered m infos returns i table), true) :=
    if_pos hsame
  have hvalue (best : Nat) (j : Inst) : Function.update table (infos.getInfo i) best
      (infos.getInfo j) = if j = i then best else table (infos.getInfo j) := by
    by_cases hj : j = i
    · rw [if_pos hj, hj, Function.update_self]
    · rw [if_neg hj]
      exact Function.update_of_ne (fun h => hj (infos.getInfo_inj hi h.symm).symm) _ _
  have hthrough : bestThrough m returns.functionShortestPath i ≠ 0 := by
    intro h
    rw [bestUncovered_eq hinv, if_pos h] at hsame
    exact hsame rfl
  have hbest := bestUncovered_eq hinv returns i
  rw [if_neg hthrough] at hbest
  obtain ⟨hle, -, hone⟩ := best_spec
    (fun j => further (bestThrough m returns.functionShortestPath i)
      (table (infos.getInfo j)))
    (table (infos.getInfo i)) (m.getSuccs i)
  rw [← hbest] at hle hone
  obtain ⟨j, hj, hd, heq⟩ := hone.resolve_left hsame
  rw [further_ne_zero] at hd
  rw [further_of_ne hd] at heq
  have hway : Reach m uncovered false i (bestUncovered m infos returns i table) := by
    rw [heq]
    exact reach_further hright hpass hi hj hthrough
      (hinv.inst j (m.mem_of_mem_getSuccs hi hj) hd)
  rw [hvisit]
  refine .inr ⟨rfl, ⟨fun k hk hne => ?_, fun k hk hun => ?_, fun f => ?_⟩,
    Pi.lt_def.mpr ⟨fun k => ?_, ⟨i, hi⟩, ?_⟩⟩
  · dsimp only at hne ⊢
    rw [hvalue] at hne ⊢
    split_ifs at hne ⊢ with hki
    · exact hki ▸ hway
    · exact hinv.inst k hk hne
  · dsimp only
    rw [hvalue]
    split_ifs with hki
    · exact hle.trans (hinv.here i hi (hki ▸ hun))
    · exact hinv.here k hk hun
  · dsimp only
    rw [Function.update_of_ne (infos.getInfo_ne_getFunctionInfo hi f).symm]
    exact hinv.function f
  · dsimp only
    rw [hvalue]
    split_ifs with hki
    · rwa [hki]
    · exact le_rfl
  · dsimp only
    rw [hvalue, if_pos rfl]
    exact lt_of_le_of_ne hle fun h => hsame (toENat_inj.mp h)

/-- A table that no visit changes is at most as long as any way. -/
theorem le_of_reach {table : Nat → Nat} (hinv : UncoveredInv m infos uncovered table)
    (hsame : ∀ i ∈ m.instructions, visitUncovered m infos returns i table = (table, false))
    {i : Inst} {k : Nat} (hway : Reach m uncovered false i k) :
    toENat (table (infos.getInfo i)) ≤ (k : ℕ∞) := by
  have hfurther {i j : Inst} (hi : i ∈ m.instructions) (hj : j ∈ m.getSuccs i)
      (hthrough : bestThrough m returns.functionShortestPath i ≠ 0) :
      toENat (table (infos.getInfo i)) ≤
        toENat (further (bestThrough m returns.functionShortestPath i)
          (table (infos.getInfo j))) := by
    have hbest : bestUncovered m infos returns i table = table (infos.getInfo i) := by
      by_contra hne
      have hchanged := hsame i hi
      rw [visitUncovered, if_pos hne] at hchanged
      exact absurd (congrArg Prod.snd hchanged) (by simp)
    rw [bestUncovered_eq hinv, if_neg hthrough] at hbest
    have hle := (best_spec (fun j => further (bestThrough m returns.functionShortestPath i)
      (table (infos.getInfo j))) (table (infos.getInfo i)) (m.getSuccs i)).2.1 j hj
    rwa [hbest] at hle
  generalize hent : false = enter at hway
  induction hway with
  | here hi hun => exact hinv.here _ hi hun
  | step hi hcall hj hd ih =>
    have hthrough := bestThrough_of_none hcall returns.functionShortestPath
    refine (hfurther hi hj (by omega)).trans ?_
    rw [hthrough]
    exact toENat_further_le le_rfl ih
  | across hi hcall hf hc hj hd ih =>
    obtain ⟨hne, hle⟩ := bestThrough_le hcall (hpass _ hi) hf ((hright.function _).le hc)
    exact (hfurther hi hj hne).trans (toENat_further_le hle ih)
  | into hi hcall hf hdef henter hd ih => exact absurd (hent.trans henter) (by simp)

/-- The loop ends, and finds the lengths of the shortest ways that enter no function. -/
theorem exists_uncovered (uncovered : Inst → Bool) : ∃ fuel table,
    computeUncovered m infos returns uncovered fuel = some table ∧
    ∀ i ∈ m.instructions, Shortest (Reach m uncovered false i) (table (infos.getInfo i)) := by
  obtain ⟨fuel, table, hloop, hinv, hall⟩ := exists_loop (visitUncovered_lowers hright hpass)
    (always_of_forall (fun _ _ => trivial) _ _) (UncoveredInv.init uncovered)
  refine ⟨fuel, table, hloop, fun i hi => ?_⟩
  have hsame : ∀ i ∈ m.instructions, visitUncovered m infos returns i table = (table, false) :=
    fun i hi => (hall i (List.mem_reverse.mpr hi)).2
  exact shortest_of_le (hinv.inst i hi) fun _ hk => le_of_reach hright hpass hinv hsame hk

end Visit

section Enter

/-- Uncovered code in a function called is no nearer than what else the call site leads to. -/
def NoneNearerInside (m : Module) (uncovered : Inst → Bool) : Prop :=
  ∀ i ∈ m.instructions, ∀ targets f d, m.callTargets i = some targets → f ∈ targets →
    m.isDeclaration f = false → Reach m uncovered false (Module.entry f) d →
    ∃ d' ≤ 1 + d, Reach m uncovered false i d'

theorem Reach.enter {i : Inst} {d : Nat} (h : Reach m uncovered false i d) :
    Reach m uncovered true i d := by
  induction h with
  | here hi hun => exact .here hi hun
  | step hi hcall hj _ ih => exact .step hi hcall hj ih
  | across hi hcall hf hc hj _ ih => exact .across hi hcall hf hc hj ih
  | into hi hcall hf hdef _ _ ih => exact .into hi hcall hf hdef rfl ih

theorem NoneNearerInside.exists_le (h : NoneNearerInside m uncovered) {enter : Bool} {i : Inst}
    {d : Nat} (hway : Reach m uncovered enter i d) : ∃ d' ≤ d, Reach m uncovered false i d' := by
  induction hway with
  | here hi hun => exact ⟨1, le_rfl, .here hi hun⟩
  | @step i j d hi hcall hj _ ih =>
    obtain ⟨d', hle, hd'⟩ := ih
    exact ⟨1 + d', by omega, .step hi hcall hj hd'⟩
  | @across i j targets f c d hi hcall hf hc hj _ ih =>
    obtain ⟨d', hle, hd'⟩ := ih
    exact ⟨1 + c + d', by omega, .across hi hcall hf hc hj hd'⟩
  | @into i targets f d hi hcall hf hdef _ _ ih =>
    obtain ⟨d', hle, hd'⟩ := ih
    obtain ⟨e, hle', he⟩ := h i hi targets f d' hcall hf hdef hd'
    exact ⟨e, by omega, he⟩

/-- The distances that enter no function are right where entering one never helps. -/
theorem shortest_reach_iff {dist : Inst → Nat}
    (hdist : ∀ i ∈ m.instructions, Shortest (Reach m uncovered false i) (dist i)) :
    (∀ i ∈ m.instructions, Shortest (Reach m uncovered true i) (dist i)) ↔
      NoneNearerInside m uncovered := by
  constructor
  · intro htrue i hi targets f d hcall hf hdef hd
    obtain ⟨hne, hle⟩ := (htrue i hi).2 (1 + d) (.into hi hcall hf hdef rfl hd.enter)
    exact ⟨dist i, hle, (hdist i hi).1 hne⟩
  · intro hnone i hi
    refine ⟨fun hne => ((hdist i hi).1 hne).enter, fun k hk => ?_⟩
    obtain ⟨k', hle, hk'⟩ := hnone.exists_le hk
    obtain ⟨hne, hle'⟩ := (hdist i hi).2 k' hk'
    exact ⟨hne, hle'.trans hle⟩

end Enter

section Stack

/-- Where execution goes on after a call site: at the next instruction, or at the normal
destination of an `invoke`. -/
def resume (m : Module) (i : Inst) : List Inst := (m.getSuccs i).take 1

/-- There is a way of some length to uncovered code from the first of some instructions, or from
the others after a return from it. -/
inductive StackReach (m : Module) (uncovered : Inst → Bool) : List Inst → Nat → Prop
  | here {i : Inst} {below : List Inst} {d : Nat} (hd : Reach m uncovered true i d) :
    StackReach m uncovered (i :: below) d
  | back {i : Inst} {below : List Inst} {c d : Nat} (hc : Returns m (.inst i) c)
      (hd : StackReach m uncovered below d) : StackReach m uncovered (i :: below) (c + d)

theorem shortest_stackReach_nil : Shortest (StackReach m uncovered []) 0 :=
  ⟨fun h => absurd rfl h, fun k hk => by cases hk⟩

/-- The distances of the frames are right, from those below to the last, and with them that of the
instruction that is next. -/
def FramesRight (m : Module) (infos : InstructionInfoTable m) (uncovered : Inst → Bool)
    (returns : ReturnTables) (table : Nat → Nat) (pc : Inst) :
    List Inst → List Inst → List Nat → Prop
  | below, [], [d] => Shortest (StackReach m uncovered below) d ∧
      Shortest (StackReach m uncovered (pc :: below))
        (computeMinDistToUncovered m infos returns table pc d)
  | below, caller :: callers, d :: dists => Shortest (StackReach m uncovered below) d ∧
      FramesRight m infos uncovered returns table pc (resume m caller ++ below) callers dists
  | _, _, _ => False

/-- After each frame, execution goes on as near to uncovered code as the instruction is that comes
next to its call site. -/
def GoesOnNext (m : Module) (uncovered : Inst → Bool) : List Inst → List Inst → Prop
  | _, [] => True
  | below, caller :: callers => (∃ j, nextInst m caller = some j ∧
      ∀ d, Shortest (StackReach m uncovered (j :: below)) d ↔
        Shortest (StackReach m uncovered (resume m caller ++ below)) d) ∧
      GoesOnNext m uncovered (resume m caller ++ below) callers

theorem head?_onReturn {returns : ReturnTables} {table : Nat → Nat} {callers : List Inst} {d : Nat}
    {dists : List Nat} (h : onReturn m infos returns table callers d = some dists) :
    dists.head? = some d := by
  cases callers with
  | nil => exact Option.some.inj h ▸ rfl
  | cons caller callers =>
    obtain ⟨j, -, h⟩ := Option.bind_eq_some_iff.mp h
    obtain ⟨rest, -, h⟩ := Option.bind_eq_some_iff.mp h
    exact Option.some.inj h ▸ rfl

theorem FramesRight.head {returns : ReturnTables} {table : Nat → Nat} {pc : Inst}
    {below callers : List Inst} {dists : List Nat} {d : Nat}
    (h : FramesRight m infos uncovered returns table pc below callers dists)
    (hd : dists.head? = some d) : Shortest (StackReach m uncovered below) d := by
  cases dists with
  | nil => cases hd
  | cons e dists =>
    cases hd
    cases callers with
    | nil =>
      cases dists with
      | nil => exact h.1
      | cons => exact h.elim
    | cons => exact h.1

theorem nextInst_mem {i j : Inst} (h : nextInst m i = some j) : j ∈ m.instructions := by
  obtain ⟨bb, hbb, hnext⟩ := Option.bind_eq_some_iff.mp h
  split_ifs at hnext with hidx
  · cases hnext
    exact m.mem_instructions.mpr ⟨bb, hbb, hidx⟩
  · obtain ⟨bb', hbb', rfl⟩ := Option.map_eq_some_iff.mp hnext
    obtain ⟨fn, hfn, hb⟩ := Option.bind_eq_some_iff.mp hbb'
    obtain ⟨hb', -⟩ := List.getElem?_eq_some_iff.mp hb
    exact m.first_mem_instructions hfn hb'

/-- What comes next to a call site inside its block is where execution goes on. -/
theorem resume_of_lt {i : Inst} {bb : BasicBlock} (hbb : m.block? i = some bb)
    (hidx : i.idx + 1 < bb.insts.length) : ∃ j, nextInst m i = some j ∧ resume m i = [j] := by
  refine ⟨⟨i.fn, i.bb, i.idx + 1⟩, ?_, ?_⟩
  · rw [nextInst, hbb, Option.bind_some, if_pos hidx]
  · rw [resume, Module.getSuccs, hbb, Option.elim_some, if_neg hidx.ne]
    rfl

section Frames

variable {returns : ReturnTables} {table : Nat → Nat} (hright : returns.Right m infos)
  (htable : ∀ i ∈ m.instructions, Shortest (Reach m uncovered true i) (table (infos.getInfo i)))

include hright htable

/-- `computeMinDistToUncovered` finds the better of the ways inside a frame and back from it. -/
theorem computeMinDistToUncovered_right {i : Inst} {below : List Inst} {d : Nat}
    (hi : i ∈ m.instructions) (hd : Shortest (StackReach m uncovered below) d) :
    Shortest (StackReach m uncovered (i :: below))
      (computeMinDistToUncovered m infos returns table i d) := by
  have hlocal := htable i hi
  have hreturn := hright.inst i hi
  have hbound : ∀ k, StackReach m uncovered (i :: below) k →
      table (infos.getInfo i) ≠ 0 ∧ table (infos.getInfo i) ≤ k ∨
      d ≠ 0 ∧ returns.minDistToReturn (infos.getInfo i) ≠ 0 ∧
        returns.minDistToReturn (infos.getInfo i) + d ≤ k := by
    intro k hk
    cases hk with
    | here hk => exact .inl (hlocal.2 k hk)
    | back hc hk =>
      obtain ⟨hret, hle⟩ := hreturn.2 _ hc
      obtain ⟨hd', hle'⟩ := hd.2 _ hk
      exact .inr ⟨hd', hret, Nat.add_le_add hle hle'⟩
  have hhere (hne : table (infos.getInfo i) ≠ 0) :
      StackReach m uncovered (i :: below) (table (infos.getInfo i)) := .here (hlocal.1 hne)
  have hback (hd' : d ≠ 0) (hret : returns.minDistToReturn (infos.getInfo i) ≠ 0) :
      StackReach m uncovered (i :: below) (returns.minDistToReturn (infos.getInfo i) + d) :=
    .back (hreturn.1 hret) (hd.1 hd')
  unfold computeMinDistToUncovered
  dsimp only
  split_ifs with hd' hret hlocal'
  · exact ⟨hhere, fun k hk => (hbound k hk).resolve_right fun h => h.1 hd'⟩
  · exact ⟨hhere, fun k hk => (hbound k hk).resolve_right fun h => h.2.1 hret⟩
  · refine ⟨fun _ => hback hd' hret, fun k hk => ?_⟩
    have hk' := (hbound k hk).resolve_left fun h => h.1 hlocal'
    omega
  · refine ⟨fun _ => ?_, fun k hk => ?_⟩
    · rcases min_choice (table (infos.getInfo i))
        (returns.minDistToReturn (infos.getInfo i) + d) with h | h
      · rw [h]
        exact hhere hlocal'
      · rw [h]
        exact hback hd' hret
    · have hk' := hbound k hk
      omega

theorem framesRight_iff {pc : Inst} (hpc : pc ∈ m.instructions) {below callers : List Inst}
    {d : Nat} (hd : Shortest (StackReach m uncovered below) d) :
    (∃ dists, onReturn m infos returns table callers d = some dists ∧
      FramesRight m infos uncovered returns table pc below callers dists) ↔
      GoesOnNext m uncovered below callers := by
  induction callers generalizing below d with
  | nil =>
    have hpc' := computeMinDistToUncovered_right hright htable hpc hd
    exact ⟨fun _ => trivial, fun _ => ⟨[d], rfl, hd, hpc'⟩⟩
  | cons caller callers ih =>
    constructor
    · rintro ⟨dists, hdists, hframes⟩
      obtain ⟨j, hj, hdists⟩ := Option.bind_eq_some_iff.mp hdists
      obtain ⟨rest, hrest, hdists⟩ := Option.bind_eq_some_iff.mp hdists
      cases hdists
      have hnext := computeMinDistToUncovered_right hright htable (nextInst_mem hj) hd
      have hresume := hframes.2.head (head?_onReturn hrest)
      refine ⟨⟨j, hj, fun e => ?_⟩, (ih hresume).mp ⟨rest, hrest, hframes.2⟩⟩
      exact ⟨fun he => he.unique hnext ▸ hresume, fun he => he.unique hresume ▸ hnext⟩
    · rintro ⟨⟨j, hj, hsame⟩, hrest⟩
      have hnext := computeMinDistToUncovered_right hright htable (nextInst_mem hj) hd
      obtain ⟨dists, hdists, hframes⟩ := (ih ((hsame _).mp hnext)).mpr hrest
      refine ⟨d :: dists, ?_, hd, hframes⟩
      rw [onReturn, hj]
      simp [hdists]

end Frames

end Stack

/-- All distances to uncovered code that are found are right, in the table and for a call stack:
that of its frames, by the call sites that all but the first return to, and that of the instruction
that is next. -/
def UncoveredRight (m : Module) (infos : InstructionInfoTable m) (uncovered : Inst → Bool)
    (callers : List Inst) (pc : Inst) : Prop :=
  ∃ fuel returns fuel' table dists, computeReturn m infos fuel = some returns ∧
    computeUncovered m infos returns uncovered fuel' = some table ∧
    (∀ i ∈ m.instructions, Shortest (Reach m uncovered true i) (table (infos.getInfo i))) ∧
    onReturn m infos returns table callers 0 = some dists ∧
    FramesRight m infos uncovered returns table pc [] callers dists

/-- The tables that are computed, where all lengths of ways to a return fit. -/
theorem exists_tables (hfits : Always (visitReturn m infos) (Fits m infos)
    m.instructions.reverse (initReturn m infos)) (uncovered : Inst → Bool) :
    ∃ fuel returns fuel' table, computeReturn m infos fuel = some returns ∧
      returns.Right m infos ∧ computeUncovered m infos returns uncovered fuel' = some table ∧
      ∀ i ∈ m.instructions, Shortest (Reach m uncovered false i) (table (infos.getInfo i)) := by
  obtain ⟨fuel, returns, hreturns, hinv, hsettled⟩ := exists_settled hfits
  have hpass : Passable m returns := fun i hi => (hsettled i hi).1.1
  obtain ⟨fuel', table, htable, hshortest⟩ :=
    exists_uncovered (hsettled.right hinv) hpass uncovered
  exact ⟨fuel, returns, fuel', table, hreturns, hsettled.right hinv, htable, hshortest⟩

/-- The distances are right exactly if no uncovered code in a function called is nearer than other,
and execution goes on at what comes next to a call site, or as near. -/
theorem uncoveredRight_iff (hfits : Always (visitReturn m infos) (Fits m infos)
    m.instructions.reverse (initReturn m infos)) {callers : List Inst} {pc : Inst}
    (hpc : pc ∈ m.instructions) : UncoveredRight m infos uncovered callers pc ↔
      NoneNearerInside m uncovered ∧ GoesOnNext m uncovered [] callers := by
  obtain ⟨fuel, returns, fuel', table, hreturns, hright, htable, hfalse⟩ :=
    exists_tables hfits uncovered
  constructor
  · rintro ⟨_, returns', _, table', dists, hreturns', htable', htrue, hdists, hframes⟩
    cases loop_unique hreturns hreturns'
    cases loop_unique htable htable'
    exact ⟨(shortest_reach_iff hfalse).mp htrue,
      (framesRight_iff hright htrue hpc shortest_stackReach_nil).mp ⟨dists, hdists, hframes⟩⟩
  · rintro ⟨hnone, hnext⟩
    have htrue := (shortest_reach_iff hfalse).mpr hnone
    obtain ⟨dists, hdists, hframes⟩ :=
      (framesRight_iff hright htrue hpc shortest_stackReach_nil).mpr hnext
    exact ⟨fuel, returns, fuel', table, dists, hreturns, htable, htrue, hdists, hframes⟩

theorem uncoveredRight_recursive : UncoveredRight recursive (.inOrder _)
    (fun i => (recursive.callTargets i).isSome) [⟨0, 2, 0⟩] ⟨1, 0, 0⟩ := by
  refine (uncoveredRight_iff (always_of_fixed (k := 2) (by decide) rfl) (by decide)).mpr
    ⟨fun i hi targets f d hcall _ _ _ => ⟨1, by omega, .here hi ?_⟩, ⟨⟨0, 2, 1⟩, rfl, fun d => ?_⟩,
      trivial⟩
  · rw [hcall]
    rfl
  · rfl

def oneCall : Module where
  functions := [⟨[⟨[.call (.function 1), .ret], []⟩], false⟩, ⟨[⟨[.ret], []⟩], false⟩]
  escapingFunctions := []
  wellFormed := by decide

/-- Where only the function called is uncovered, nothing leads to uncovered code from the call. -/
theorem not_uncoveredRight_oneCall :
    ¬ UncoveredRight oneCall (.inOrder _) (fun i => i.fn = 1) [] ⟨0, 0, 0⟩ := by
  rintro ⟨_, returns', _, table', dists, hreturns', htable', htrue, -⟩
  have hfits : Always (visitReturn oneCall (.inOrder _)) (Fits oneCall (.inOrder _))
      oneCall.instructions.reverse (initReturn oneCall (.inOrder _)) :=
    always_of_fixed (k := 2) (by decide) rfl
  obtain ⟨fuel, returns, fuel', table, hreturns, -, htable, hfalse⟩ :=
    exists_tables hfits fun i => i.fn = 1
  cases loop_unique hreturns hreturns'
  cases loop_unique htable htable'
  have hinto : Reach oneCall (fun i => i.fn = 1) true ⟨0, 0, 0⟩ (1 + 1) :=
    .into (f := 1) (by decide) rfl (by decide) rfl rfl (.here (by decide) rfl)
  have hne := ((htrue ⟨0, 0, 0⟩ (by decide)).2 _ hinto).1
  have hway := (hfalse ⟨0, 0, 0⟩ (by decide)).1 hne
  generalize table' _ = d at hway
  cases hway with
  | here _ hun => cases hun
  | step _ hcall => cases hcall
  | across _ _ _ _ hj hd =>
    -- what comes after the call leads nowhere else
    have hj' := List.mem_singleton.mp hj
    subst hj'
    cases hd with
    | here _ hun => cases hun
    | step _ _ hj => cases hj
    | across _ hcall => cases hcall
    | into _ hcall => cases hcall
  | into _ _ _ _ henter => cases henter

end Klee.StatsTracker
