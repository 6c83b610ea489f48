import Klee.Core.ExecutorSpec
import Klee.Core.Fork

/-! What `fork` does, stage by stage. As for the operations, `C` stands for the assumptions
that exclude faults. -/
namespace Klee

def ExecutionState.took {M : Type} (s : ExecutionState M) (index : Nat) : ExecutionState M :=
  { s with takenBranches := s.takenBranches ++ [(s.prevPC, index)] }

namespace Executor

open Hoare

variable {M : Type} {o : ExecutorOptions} {ex : Executor M} {st current new : StateId}
variable {s a b : ExecutionState M} {condition : Expr} {cs : List Expr} {isInternal : Bool}
variable {C : Prop} {E : ExecutorFault → Prop}

section Seeds

def SeedTakes (o : ExecutorOptions) (cs : List Expr) (condition : Expr) (side : Bool)
    (seed : SeedInfo) : Prop :=
  ∃ c, o.solver.getValue cs (seed.assignment.evaluate condition) = some c ∧ c.isTrue = side

/-- The side that a seed takes is one that it may take. -/
theorem SeedTakes.feasible {side : Bool} {seed : SeedInfo} (h : SeedTakes o cs condition side seed)
    (ha : Answers o cs condition) : ∃ σ, Satisfies σ cs ∧
      (seed.assignment.evaluate (if side then condition else condition.createIsZero)).Holds σ := by
  obtain ⟨c, hc, rfl⟩ := h
  obtain ⟨c', hc', hw, σ, hσ, hval⟩ :=
    ha.solver.getValue ha.constraints (ha.evaluate seed).condition.1 ha.sat
  obtain rfl : c' = c := Option.some.inj (hc'.symm.trans hc)
  have hw : c'.width = 1 := hw.trans (ha.evaluate seed).condition.2
  obtain ⟨w, v⟩ := c'
  obtain rfl : w = 1 := hw
  have hholds : (seed.assignment.evaluate condition).Holds σ ↔ ConstantExpr.isTrue ⟨1, v⟩ = true := by
    rw [Expr.Holds, hval]
    simp [ConstantExpr.isTrue, BitVec.ne_zero_iff_eq_one]
  refine ⟨σ, hσ, ?_⟩
  by_cases ht : ConstantExpr.isTrue ⟨1, v⟩ = true
  · rw [ht]
    exact hholds.mpr ht
  · rw [Bool.not_eq_true] at ht
    rw [ht]
    refine (ArrayAssignment.holds_evaluate_createIsZero ha.condition).mpr fun h => ?_
    cases ht.symm.trans (hholds.mp h)

theorem wp_seedTakes {seed : SeedInfo} {Q : Bool → Executor M → Prop}
    (hC : C → Answers o cs condition)
    (hQ : ∀ side, SeedTakes o cs condition side seed → Q side ex) :
    wp (seedTakes o cs condition seed) Q (fun _ => ¬ C) ex := by
  unfold seedTakes
  rw [wp_bind]
  cases hres : o.solver.getValue cs (seed.assignment.evaluate condition) with
  | none =>
    intro hc
    have ha := (hC hc).evaluate seed
    obtain ⟨c, hc', -⟩ := ha.solver.getValue ha.constraints ha.condition.1 ha.sat
    cases hres.symm.trans hc'
  | some c =>
    rw [wp_orThrow_some]
    exact hQ _ ⟨c, hres, rfl⟩

/-- What the loop over the seeds has found when it ends, if it starts from `found`. -/
structure SidesOf (o : ExecutorOptions) (cs : List Expr) (condition : Expr)
    (seeds : List SeedInfo) (found sides : Bool × Bool) : Prop where
  trueSeed : sides.1 = true →
    found.1 = true ∨ ∃ seed ∈ seeds, SeedTakes o cs condition true seed
  falseSeed : sides.2 = true →
    found.2 = true ∨ ∃ seed ∈ seeds, SeedTakes o cs condition false seed
  noTrueSeed : sides.1 = false →
    found.1 = false ∧ ∀ seed ∈ seeds, SeedTakes o cs condition false seed
  noFalseSeed : sides.2 = false →
    found.2 = false ∧ ∀ seed ∈ seeds, SeedTakes o cs condition true seed

theorem SidesOf.cons {seed : SeedInfo} {seeds : List SeedInfo} {found sides : Bool × Bool}
    {side : Bool} (hside : SeedTakes o cs condition side seed)
    (h : SidesOf o cs condition seeds (found.1 || side, found.2 || !side) sides) :
    SidesOf o cs condition (seed :: seeds) found sides := by
  obtain ⟨ht, hf, hnt, hnf⟩ := h
  have hmem {x : SeedInfo} (hx : x ∈ seeds) : x ∈ seed :: seeds := List.mem_cons_of_mem _ hx
  cases side with
  | true =>
    refine ⟨fun h => .inr ⟨seed, List.mem_cons_self, hside⟩, fun h => ?_, fun h => ?_, fun h => ?_⟩
    · cases hf h with
      | inl h => exact .inl (by simpa using h)
      | inr h => exact .inr (h.imp fun x hx => ⟨hmem hx.1, hx.2⟩)
    · have hfound := (hnt h).1
      simp at hfound
    · obtain ⟨h1, h2⟩ := hnf h
      refine ⟨by simpa using h1, fun x hx => ?_⟩
      obtain rfl | hx := List.mem_cons.mp hx
      · exact hside
      · exact h2 x hx
  | false =>
    refine ⟨fun h => ?_, fun h => .inr ⟨seed, List.mem_cons_self, hside⟩, fun h => ?_, fun h => ?_⟩
    · cases ht h with
      | inl h => exact .inl (by simpa using h)
      | inr h => exact .inr (h.imp fun x hx => ⟨hmem hx.1, hx.2⟩)
    · obtain ⟨h1, h2⟩ := hnt h
      refine ⟨by simpa using h1, fun x hx => ?_⟩
      obtain rfl | hx := List.mem_cons.mp hx
      · exact hside
      · exact h2 x hx
    · have hfound := (hnf h).1
      simp at hfound

/-- The loop that looks for a seed on each side. -/
theorem wp_seedSides {seeds : List SeedInfo} {trueSeed falseSeed : Bool}
    {Q : Bool × Bool → Executor M → Prop} (hC : C → Answers o cs condition)
    (hQ : ∀ sides, SidesOf o cs condition seeds (trueSeed, falseSeed) sides → Q sides ex) :
    wp (seedSides o cs condition seeds trueSeed falseSeed) Q (fun _ => ¬ C) ex := by
  induction seeds generalizing trueSeed falseSeed with
  | nil =>
    refine hQ _ ⟨.inl, .inl, fun h => ⟨h, by simp⟩, fun h => ⟨h, by simp⟩⟩
  | cons seed rest ih =>
    rw [seedSides, wp_bind]
    refine wp_seedTakes hC fun side hside => ?_
    dsimp only
    rw [wp_ite]
    constructor
    · intro hboth
      rw [Bool.and_eq_true] at hboth
      refine hQ _ (SidesOf.cons hside ⟨.inl, .inl, fun h => ?_, fun h => ?_⟩)
      · cases hboth.1.symm.trans h
      · cases hboth.2.symm.trans h
    · intro _
      exact ih fun sides h => hQ sides (SidesOf.cons hside h)

/-- The seeds of a fork go to the side that they take. -/
theorem wp_partitionSeeds {seeds : List SeedInfo}
    {Q : List SeedInfo × List SeedInfo → Executor M → Prop} (hC : C → Answers o cs condition)
    (hQ : ∀ ts fs, seeds.Perm (ts ++ fs) → (∀ seed ∈ ts, SeedTakes o cs condition true seed) →
      (∀ seed ∈ fs, SeedTakes o cs condition false seed) → Q (ts, fs) ex) :
    wp (partitionSeeds o cs condition seeds) Q (fun _ => ¬ C) ex := by
  induction seeds generalizing Q with
  | nil => exact hQ [] [] .nil (by simp) (by simp)
  | cons seed rest ih =>
    rw [partitionSeeds, wp_bind]
    refine wp_seedTakes hC fun side hside => ?_
    rw [wp_bind]
    refine ih fun ts fs hperm ht hf => ?_
    dsimp only
    rw [wp_pure]
    cases side with
    | true =>
      refine hQ (seed :: ts) fs (hperm.cons seed) (fun x hx => ?_) hf
      obtain rfl | hx := List.mem_cons.mp hx
      · exact hside
      · exact ht x hx
    | false =>
      refine hQ ts (seed :: fs) ((hperm.cons seed).trans List.perm_middle.symm) ht fun x hx => ?_
      obtain rfl | hx := List.mem_cons.mp hx
      · exact hside
      · exact hf x hx

end Seeds

section TwoStates

/-- The states `current` and `new` are `a` and `b`. -/
def withPair (ex : Executor M) (current new : StateId) (a b : ExecutionState M) : Executor M :=
  { ex with heap := Function.update (Function.update ex.heap current (some a)) new (some b) }

theorem heap_withPair : (ex.withPair current new a b).heap =
    Function.update (Function.update ex.heap current (some a)) new (some b) := rfl

theorem heap_withPair_left (h : current ≠ new) :
    (ex.withPair current new a b).heap current = some a := by
  rw [heap_withPair, Function.update_of_ne h, Function.update_self]

theorem heap_withPair_right : (ex.withPair current new a b).heap new = some b :=
  Function.update_self _ _ _

theorem heap_withPair_of_ne (h : st ≠ current) (h' : st ≠ new) :
    (ex.withPair current new a b).heap st = ex.heap st := by
  rw [heap_withPair, Function.update_of_ne h', Function.update_of_ne h]

theorem update_withPair_left (h : current ≠ new) (a' : ExecutionState M) :
    Function.update (ex.withPair current new a b).heap current (some a') =
      (ex.withPair current new a' b).heap := by
  rw [heap_withPair, Function.update_comm h.symm, Function.update_idem]
  rfl

theorem update_withPair_right (b' : ExecutionState M) :
    Function.update (ex.withPair current new a b).heap new (some b') =
      (ex.withPair current new a b').heap := Function.update_idem _ _ _

theorem wp_modify_left {Q : Unit → Executor M → Prop} {f : ExecutionState M → ExecutionState M}
    (h : current ≠ new) : wp (modifyState current f) Q E (ex.withPair current new a b) ↔
      Q () (ex.withPair current new (f a) b) := by
  rw [wp_modifyState (heap_withPair_left h), update_withPair_left h]
  rfl

theorem wp_modify_right {Q : Unit → Executor M → Prop} {f : ExecutionState M → ExecutionState M} :
    wp (modifyState new f) Q E (ex.withPair current new a b) ↔
      Q () (ex.withPair current new a (f b)) := by
  rw [wp_modifyState heap_withPair_right, update_withPair_right]
  rfl

theorem wp_addConstraint_left {Q : Unit → Executor M → Prop} {e : Expr} (h : current ≠ new)
    (hC : C → Accepts o ex current a.constraints e)
    (hQ : ∀ cs m n, Adds a.constraints e cs → (C → m = ex.seedMap ∧ n = ex.nextID) →
      Q () ({ ex with seedMap := m, nextID := n }.withPair current new
        { a with constraints := cs } b)) :
    wp (addConstraint o current e) Q (fun _ => ¬ C) (ex.withPair current new a b) := by
  refine wp_addConstraint (heap_withPair_left h) (fun hc => ?_) fun cs m n hadds hcs => ?_
  · exact ⟨(hC hc).answers, (hC hc).sat, (hC hc).seeds⟩
  · rw [update_withPair_left h]
    exact hQ cs m n hadds hcs

theorem wp_addConstraint_right {Q : Unit → Executor M → Prop} {e : Expr}
    (hC : C → Accepts o ex new b.constraints e)
    (hQ : ∀ cs m n, Adds b.constraints e cs → (C → m = ex.seedMap ∧ n = ex.nextID) →
      Q () ({ ex with seedMap := m, nextID := n }.withPair current new a
        { b with constraints := cs })) :
    wp (addConstraint o new e) Q (fun _ => ¬ C) (ex.withPair current new a b) := by
  refine wp_addConstraint heap_withPair_right (fun hc => ?_) fun cs m n hadds hcs => ?_
  · exact ⟨(hC hc).answers, (hC hc).sat, (hC hc).seeds⟩
  · rw [update_withPair_right]
    exact hQ cs m n hadds hcs

end TwoStates

section Paths

variable {file : PathFile}

def sideWriter (w : Option TreeStreamWriter) (os : BitVec 32) (side : Bool) :
    Option TreeStreamWriter := w.map (·.write os [sideByte side])

theorem wp_writePath {Q : Unit → Executor M → Prop} {side : Bool} (hs : ex.heap st = some s) :
    wp (writePath file st side) Q E ex ↔
      Q () (file.setWriter ex (sideWriter (file.writer ex) (file.stream s) side)) := by
  unfold writePath
  rw [wp_bind, wp_get]
  cases hw : file.writer ex with
  | none =>
    have hsame : file.setWriter ex none = ex := by
      rw [← hw]
      cases file <;> rfl
    exact wp_pure.trans (by rw [sideWriter, Option.map_none, hsame])
  | some w =>
    rw [wp_bind, wp_readState hs, wp_set]
    exact Iff.rfl

theorem wp_takeSide {Q : Unit → Executor M → Prop} {side : Bool} (hs : ex.heap current = some s) :
    wp (takeSide o current isInternal side) Q E ex ↔ Q () { ex with
      heap := Function.update ex.heap current (some (s.took (sideIndex side)))
      pathWriter := if isInternal then ex.pathWriter else sideWriter ex.pathWriter s.pathOS side
      featureStates := if o.featureExtract then ex.featureStates.insert current
        else ex.featureStates } := by
  unfold takeSide
  cases isInternal with
  | true =>
    rw [if_pos rfl, wp_bind, wp_readState hs, wp_bind, wp_pushTaken hs, wp_insertFeatureState]
    exact Iff.rfl
  | false =>
    rw [if_neg (by decide), wp_bind, wp_writePath hs, wp_bind]
    refine (wp_readState (s := s) ?_).trans ?_
    · exact hs
    rw [wp_bind]
    refine (wp_pushTaken (s := s) ?_).trans ?_
    · exact hs
    exact wp_insertFeatureState

/-- The writer after a new stream was opened from `os`, and each side got its decision; with
the new stream. -/
def splitWriter (isInternal : Bool) (w : Option TreeStreamWriter) (os : BitVec 32) :
    Option TreeStreamWriter × BitVec 32 :=
  match w with
  | none => (none, os)
  | some w =>
    let w' := (w.openFrom os).1
    let id := (w.openFrom os).2
    (some (if isInternal then w'
      else (w'.write os [sideByte true]).write id [sideByte false]), id)

theorem wp_splitPath {Q : Unit → Executor M → Prop} (hne : current ≠ new)
    (hstream : file.stream b = file.stream a) :
    wp (splitPath file current new isInternal) Q E (ex.withPair current new a b) ↔
      Q () ((file.setWriter ex
        (splitWriter isInternal (file.writer ex) (file.stream a)).1).withPair current new a
          (file.setStream b (splitWriter isInternal (file.writer ex) (file.stream a)).2)) := by
  have hwriter (ex' : Executor M) (a' b' : ExecutionState M) :
      file.writer (ex'.withPair current new a' b') = file.writer ex' := by cases file <;> rfl
  have hset (ex' : Executor M) (w : Option TreeStreamWriter) (a' b' : ExecutionState M) :
      file.setWriter (ex'.withPair current new a' b') w =
        (file.setWriter ex' w).withPair current new a' b' := by cases file <;> rfl
  unfold splitPath
  rw [wp_bind, wp_get]
  cases hw : file.writer ex with
  | none =>
    have hsame : file.setWriter ex none = ex := by
      rw [← hw]
      cases file <;> rfl
    have hb : file.setStream b (file.stream a) = b := by
      rw [← hstream]
      cases file <;> rfl
    rw [hwriter, hw]
    exact wp_pure.trans (by rw [splitWriter, hsame, hb])
  | some w =>
    rw [hwriter, hw]
    dsimp only
    rw [wp_bind, wp_readState (heap_withPair_left hne), wp_bind, wp_set, wp_bind, hset,
      wp_modify_right]
    cases isInternal with
    | true =>
      rw [if_pos rfl, wp_pure]
      exact Iff.rfl
    | false =>
      rw [if_neg (by decide), wp_bind, wp_writePath (heap_withPair_left hne),
        hwriter, hset]
      rw [wp_writePath heap_withPair_right, hwriter, hset]
      cases file <;> exact Iff.rfl

end Paths

section Split

/-- How the seeds of `current` are split: `m` is the map afterwards. -/
structure SeedsSplit (o : ExecutorOptions) (ex : Executor M) (current new : StateId)
    (cs : List Expr) (condition : Expr) (m : StateId → Option (List SeedInfo))
    (trueSeeds falseSeeds : List SeedInfo) : Prop where
  perm : ((ex.seedMap current).getD []).Perm (trueSeeds ++ falseSeeds)
  trueSide : ∀ seed ∈ trueSeeds, SeedTakes o cs condition true seed
  falseSide : ∀ seed ∈ falseSeeds, SeedTakes o cs condition false seed
  map : m = if (ex.seedMap current).isNone then ex.seedMap
    else Function.update (Function.update ex.seedMap current (seedEntry trueSeeds)) new
      (seedEntry falseSeeds)

theorem seedEntry_eq_some {seeds l : List SeedInfo} (h : seedEntry seeds = some l) : l = seeds := by
  unfold seedEntry at h
  split at h
  · cases h
  · exact (Option.some.inj h).symm

theorem getD_seedEntry (seeds : List SeedInfo) : (seedEntry seeds).getD [] = seeds := by
  unfold seedEntry
  split
  case isTrue h => exact h.symm
  case isFalse => rfl

section Maps

variable {m : StateId → Option (List SeedInfo)} {trueSeeds falseSeeds : List SeedInfo}

theorem SeedsSplit.left (h : SeedsSplit o ex current new cs condition m trueSeeds falseSeeds)
    (hne : current ≠ new) : (m current).getD [] = trueSeeds := by
  have hperm := h.perm
  rw [h.map]
  cases hs : ex.seedMap current with
  | none =>
    rw [hs] at hperm
    rw [if_pos Option.isNone_none, hs]
    exact (List.append_eq_nil_iff.mp (List.nil_perm.mp hperm)).1.symm
  | some seeds =>
    rw [if_neg (by simp), Function.update_of_ne hne, Function.update_self, getD_seedEntry]

theorem SeedsSplit.right (h : SeedsSplit o ex current new cs condition m trueSeeds falseSeeds)
    (hnew : ex.seedMap new = none) : (m new).getD [] = falseSeeds := by
  have hperm := h.perm
  rw [h.map]
  cases hs : ex.seedMap current with
  | none =>
    rw [hs] at hperm
    rw [if_pos Option.isNone_none, hnew]
    exact (List.append_eq_nil_iff.mp (List.nil_perm.mp hperm)).2.symm
  | some seeds => rw [if_neg (by simp), Function.update_self, getD_seedEntry]

theorem SeedsSplit.of_ne (h : SeedsSplit o ex current new cs condition m trueSeeds falseSeeds)
    (hc : st ≠ current) (hn : st ≠ new) : m st = ex.seedMap st := by
  rw [h.map]
  split
  · rfl
  · rw [Function.update_of_ne hn, Function.update_of_ne hc]

end Maps

/-- The seeds are split; the states may swap their coverage. -/
theorem wp_splitSeeds {Q : Unit → Executor M → Prop} (hne : current ≠ new)
    (hC : C → Answers o a.constraints condition)
    (hQ : ∀ m ts fs cn cl cn' cl', SeedsSplit o ex current new a.constraints condition m ts fs →
      Q () ({ ex with seedMap := m }.withPair current new
        { a with coveredNew := cn, coveredLines := cl }
        { b with coveredNew := cn', coveredLines := cl' })) :
    wp (splitSeeds o current new condition) Q (fun _ => ¬ C) (ex.withPair current new a b) := by
  unfold splitSeeds
  have hmap : (ex.withPair current new a b).seedMap current = ex.seedMap current := rfl
  rw [wp_bind, wp_get, hmap]
  cases hs : ex.seedMap current with
  | none =>
    refine hQ ex.seedMap [] [] a.coveredNew a.coveredLines b.coveredNew b.coveredLines
      ⟨?_, by simp, by simp, ?_⟩
    · rw [hs]
      exact .nil
    · rw [hs, if_pos Option.isNone_none]
  | some seeds =>
    dsimp only
    rw [wp_bind, wp_readState (heap_withPair_left hne), wp_bind]
    refine wp_partitionSeeds hC fun ts fs hperm ht hf => ?_
    rw [wp_bind, wp_modify, wp_ite]
    have hsplit : SeedsSplit o ex current new a.constraints condition
        (Function.update (Function.update ex.seedMap current (seedEntry ts)) new (seedEntry fs))
        ts fs := by
      refine ⟨?_, ht, hf, ?_⟩
      · rw [hs]
        exact hperm
      · rw [hs, if_neg (by simp)]
    constructor
    · intro _
      change wp _ Q _ (withPair { ex with
        seedMap := Function.update (Function.update ex.seedMap current (seedEntry ts)) new
          (seedEntry fs) } current new a b)
      rw [wp_bind, wp_readState heap_withPair_right, wp_bind, wp_modify_left hne, wp_modify_right]
      exact hQ _ ts fs _ _ _ _ hsplit
    · intro _
      exact hQ _ ts fs a.coveredNew a.coveredLines b.coveredNew b.coveredLines hsplit

structure Splits (o : ExecutorOptions) (ex : Executor M) (current : StateId)
    (s : ExecutionState M) (condition : Expr) : Prop where
  answers : Answers o s.constraints condition
  trueSide : ∃ σ, Satisfies σ s.constraints ∧ condition.Holds σ
  falseSide : ∃ σ, Satisfies σ s.constraints ∧ ¬ condition.Holds σ
  node : (ex.processTree.attach current ex.nextState current).isSome = true
  seeds : ex.seedMap ex.nextState = none
  depth : ¬ (o.maxDepth ≠ 0 ∧ o.maxDepth ≤ s.depth + 1)

/-- The two states of a fork of `s`, but for coverage and identifier. -/
structure SplitStates (ex : Executor M) (s : ExecutionState M) (isInternal : Bool)
    (a b : ExecutionState M) : Prop where
  trueSide : a = { s.took 1 with
    depth := s.depth + 1
    constraints := a.constraints
    coveredNew := a.coveredNew
    coveredLines := a.coveredLines }
  falseSide : b = { s.took 0 with
    id := b.id
    depth := s.depth + 1
    constraints := b.constraints
    coveredNew := b.coveredNew
    coveredLines := b.coveredLines
    pathOS := (splitWriter isInternal ex.pathWriter s.pathOS).2
    symPathOS := (splitWriter isInternal ex.symPathWriter s.symPathOS).2 }

def splitBase (ex : Executor M) (t : PTree) (fs : List StateId)
    (m : StateId → Option (List SeedInfo)) (n : BitVec 32) (pw sw : Option TreeStreamWriter) :
    Executor M :=
  { ex with
    nextState := ex.nextState + 1
    nextID := n
    addedStates := ex.addedStates ++ [ex.nextState]
    seedMap := m
    processTree := t
    featureStates := fs
    forks := ex.forks + 1
    pathWriter := pw
    symPathWriter := sw }

/-- The executor after a fork into the states `a` and `b`. -/
def splitResult (ex : Executor M) (current : StateId) (s : ExecutionState M) (isInternal : Bool)
    (t : PTree) (fs : List StateId) (m : StateId → Option (List SeedInfo)) (n : BitVec 32)
    (a b : ExecutionState M) : Executor M :=
  (splitBase ex t fs m n (splitWriter isInternal ex.pathWriter s.pathOS).1
    (splitWriter isInternal ex.symPathWriter s.symPathOS).1).withPair current ex.nextState a b

structure SplitRight (o : ExecutorOptions) (ex : Executor M) (current : StateId)
    (s : ExecutionState M) (condition : Expr) (m : StateId → Option (List SeedInfo))
    (a b : ExecutionState M) : Prop where
  seeds : ∃ ts fs, SeedsSplit o ex current ex.nextState s.constraints condition m ts fs
  isBool : (∀ c ∈ a.constraints, c.IsBool) ∧ ∀ c ∈ b.constraints, c.IsBool
  trueSide : ∀ σ, Satisfies σ a.constraints ↔ Satisfies σ s.constraints ∧ condition.Holds σ
  falseSide : ∀ σ, Satisfies σ b.constraints ↔ Satisfies σ s.constraints ∧ ¬ condition.Holds σ

theorem wp_splitState {Q : Option StateId × Option StateId → Executor M → Prop}
    (hs : ex.heap current = some s) (hnew : ex.heap ex.nextState = none)
    (hC : C → Splits o ex current s condition)
    (hQ : ∀ t fs m n a b, ex.processTree.attach current ex.nextState current = some t →
      SplitStates ex s isInternal a b → Adds s.constraints condition a.constraints →
      Adds s.constraints condition.createIsZero b.constraints →
      (C → SplitRight o ex current s condition m a b) →
      Q (some current, some ex.nextState) (splitResult ex current s isInternal t fs m n a b))
    (hEnd : ∀ t fs m n a b ex', ex.processTree.attach current ex.nextState current = some t →
      SplitStates ex s isInternal a b →
      Terminated [current, ex.nextState] (splitResult ex current s isInternal t fs m n a b) ex' →
      ¬ C → Q (none, none) ex') :
    wp (splitState o current condition isInternal) Q (fun _ => ¬ C) ex := by
  have hne : current ≠ ex.nextState := by
    intro heq
    rw [← heq, hs] at hnew
    cases hnew
  unfold splitState
  rw [wp_bind, wp_modify, wp_bind, wp_branchState (by exact hs), wp_bind, wp_modify]
  dsimp only
  change wp _ Q _ (withPair (splitBase ex ex.processTree ex.featureStates ex.seedMap (ex.nextID + 1)
    ex.pathWriter ex.symPathWriter) current ex.nextState { s with depth := s.depth + 1 }
      (copyOf ex s))
  rw [wp_bind]
  refine wp_splitSeeds hne (fun hc => (hC hc).answers) fun m ts fs cn cl cn' cl' hseeds => ?_
  have hseeds : SeedsSplit o ex current ex.nextState s.constraints condition m ts fs :=
    ⟨hseeds.perm, hseeds.trueSide, hseeds.falseSide, hseeds.map⟩
  rw [wp_bind]
  cases ht : ex.processTree.attach current ex.nextState current with
  | none =>
    have hfault : ¬ C := fun hc => by simpa [ht] using (hC hc).node
    unfold attach
    rw [wp_bind, wp_get]
    split
    · rename_i t h
      cases ht.symm.trans h
    · exact hfault
  | some t =>
    refine (wp_attach (t := t) (by exact ht)).mpr ?_
    change wp _ Q _ (withPair (splitBase ex t ex.featureStates m (ex.nextID + 1)
      ex.pathWriter ex.symPathWriter) current ex.nextState
        { s with depth := s.depth + 1, coveredNew := cn, coveredLines := cl }
        { copyOf ex s with coveredNew := cn', coveredLines := cl' })
    rw [wp_bind, wp_readState (heap_withPair_left hne), wp_bind, pushTaken, wp_modify_right,
      wp_bind, pushTaken, wp_modify_left hne, wp_bind]
    refine wp_insertFeatureState_of fun _ => ?_
    rw [wp_bind]
    refine wp_insertFeatureState_of fun features => ?_
    change wp _ Q _ (withPair (splitBase ex t features m (ex.nextID + 1) ex.pathWriter
      ex.symPathWriter) current ex.nextState
        { s.took 1 with depth := s.depth + 1, coveredNew := cn, coveredLines := cl }
        { (copyOf ex s).took 0 with coveredNew := cn', coveredLines := cl' })
    rw [wp_bind]
    refine (wp_splitPath hne ?_).mpr ?_
    · rfl
    change wp _ Q _ (withPair (splitBase ex t features m (ex.nextID + 1)
      (splitWriter isInternal ex.pathWriter s.pathOS).1 ex.symPathWriter) current ex.nextState _ _)
    rw [wp_bind]
    refine (wp_splitPath hne ?_).mpr ?_
    · rfl
    change wp _ Q _ (withPair (splitBase ex t features m (ex.nextID + 1)
      (splitWriter isInternal ex.pathWriter s.pathOS).1
      (splitWriter isInternal ex.symPathWriter s.symPathOS).1) current ex.nextState _ _)
    rw [wp_bind]
    refine wp_addConstraint_left hne (fun hc => ?_) fun cs₁ m₁ n₁ hadds₁ h₁ => ?_
    · refine ⟨(hC hc).answers, (hC hc).trueSide, fun seeds hs seed hseed => ?_⟩
      have hleft := hseeds.left hne
      rw [show m current = some seeds from hs] at hleft
      exact (hseeds.trueSide seed (hleft ▸ hseed)).feasible (hC hc).answers
    change wp _ Q _ (withPair (splitBase ex t features m₁ n₁
      (splitWriter isInternal ex.pathWriter s.pathOS).1
      (splitWriter isInternal ex.symPathWriter s.symPathOS).1) current ex.nextState _ _)
    rw [wp_bind]
    refine wp_addConstraint_right (fun hc => ?_) fun cs₂ m₂ n₂ hadds₂ h₂ => ?_
    · obtain ⟨rfl, -⟩ := h₁ hc
      have ha := (hC hc).answers
      refine ⟨⟨ha.solver, ha.constraints, TimingSolver.isBool_createIsZero ha.condition, ha.sat⟩,
        ?_, fun seeds hs seed hseed => ?_⟩
      · obtain ⟨σ, hσ, hholds⟩ := (hC hc).falseSide
        exact ⟨σ, hσ, (TimingSolver.holds_createIsZero ha.condition).mpr hholds⟩
      · have hright := hseeds.right (hC hc).seeds
        rw [show m₁ ex.nextState = some seeds from hs] at hright
        exact (hseeds.falseSide seed (hright ▸ hseed)).feasible ha
    change wp _ Q _ (splitResult ex current s isInternal t features m₂ n₂
      { s.took 1 with
        depth := s.depth + 1, coveredNew := cn, coveredLines := cl, constraints := cs₁ }
      { (copyOf ex s).took 0 with
        coveredNew := cn', coveredLines := cl', constraints := cs₂
        pathOS := (splitWriter isInternal ex.pathWriter s.pathOS).2
        symPathOS := (splitWriter isInternal ex.symPathWriter s.symPathOS).2 })
    have hstates : SplitStates ex s isInternal
        { s.took 1 with
          depth := s.depth + 1, coveredNew := cn, coveredLines := cl, constraints := cs₁ }
        { (copyOf ex s).took 0 with
          coveredNew := cn', coveredLines := cl', constraints := cs₂
          pathOS := (splitWriter isInternal ex.pathWriter s.pathOS).2
          symPathOS := (splitWriter isInternal ex.symPathWriter s.symPathOS).2 } := ⟨rfl, rfl⟩
    rw [wp_bind]
    refine (wp_readState (heap_withPair_left hne)).mpr ?_
    rw [wp_ite]
    constructor
    · intro hdepth
      have hfault : ¬ C := fun hc => (hC hc).depth hdepth
      rw [wp_bind]
      refine wp_mono (wp_terminateState_terminated (heap_withPair_left hne) fun ex₁ h₁ => ?_)
        (fun _ _ h => h) fun _ _ => hfault
      · rw [wp_bind]
        have hheap : ex₁.heap ex.nextState = _ :=
          (h₁.heap ex.nextState (by simpa using hne.symm)).trans heap_withPair_right
        refine wp_mono (wp_terminateState_terminated hheap fun ex₂ h₂ => ?_)
          (fun _ _ h => h) fun _ _ => hfault
        exact hEnd t features m₂ n₂ _ _ ex₂ ht hstates (h₁.trans h₂) hfault
    · intro _
      refine hQ t features m₂ n₂ _ _ ht hstates hadds₁ hadds₂ fun hc => ?_
      obtain ⟨rfl, rfl⟩ := h₁ hc
      obtain ⟨rfl, rfl⟩ := h₂ hc
      have ha := (hC hc).answers
      have hzero := TimingSolver.isBool_createIsZero ha.condition
      refine ⟨⟨ts, fs, hseeds⟩, ⟨hadds₁.isBool ha.constraints ha.condition,
        hadds₂.isBool ha.constraints hzero⟩, hadds₁.satisfies ha.constraints ha.condition,
        fun σ => ?_⟩
      rw [← TimingSolver.holds_createIsZero ha.condition]
      exact hadds₂.satisfies ha.constraints hzero σ

end Split

section Fork

/-- The stages of `fork` up to the validity change the constraints of the state, seeds and
counters. -/
structure Prepared (current : StateId) (ex : Executor M) (s : ExecutionState M)
    (ex' : Executor M) (s' : ExecutionState M) : Prop where
  executor : ex' = { ex with
    heap := Function.update ex.heap current (some s')
    seedMap := ex'.seedMap
    nextID := ex'.nextID
    replayPosition := ex'.replayPosition
    theRNG := ex'.theRNG }
  state : s' = { s with constraints := s'.constraints }

variable {ex' ex'' : Executor M} {s' s'' : ExecutionState M}

theorem prepared_refl (hs : ex.heap current = some s) : Prepared current ex s ex s where
  executor := by rw [← hs, Function.update_eq_self]
  state := rfl

theorem Prepared.heap (h : Prepared current ex s ex' s') : ex'.heap current = some s' := by
  rw [h.executor]
  exact Function.update_self _ _ _

theorem Prepared.heap_of_ne (h : Prepared current ex s ex' s') (hst : st ≠ current) :
    ex'.heap st = ex.heap st := by
  rw [h.executor]
  exact Function.update_of_ne hst _ _

theorem Prepared.trans (h : Prepared current ex s ex' s') (h' : Prepared current ex' s' ex'' s'') :
    Prepared current ex s ex'' s'' where
  executor := by
    rw [h'.executor, h.executor, Function.update_idem]
  state := by rw [h'.state, h.state]

theorem prepared_addConstraint {m : StateId → Option (List SeedInfo)} {n : BitVec 32} :
    Prepared current ex s { ex with
      heap := Function.update ex.heap current (some { s with constraints := cs })
      seedMap := m
      nextID := n } { s with constraints := cs } := ⟨rfl, rfl⟩

/-- A static limit may have replaced the condition by a value, which is then a constraint. -/
def Concretized (o : ExecutorOptions) (s : ExecutionState M) (condition condition' : Expr)
    (s' : ExecutionState M) : Prop :=
  condition' = condition ∧ s' = s ∨
    ∃ value, o.solver.getValue s.constraints condition = some value ∧
      condition' = .constant value ∧
      Adds s.constraints (EqExpr.create (.constant value) condition) s'.constraints

/-- An unknown validity may have been fixed to a side, which is then a constraint. -/
def Fixed (s : ExecutionState M) (condition : Expr) (res res' : Validity)
    (s' : ExecutionState M) : Prop :=
  res' = res ∧ s' = s ∨ res = .unknown ∧ ∃ side, res' = ofSide side ∧
    Adds s.constraints (if side then condition else condition.createIsZero) s'.constraints

/-- One side is followed: its constraint is stored. -/
theorem wp_follow {Q : Validity → Executor M → Prop} {side : Bool} (hs : ex.heap current = some s)
    (hC : C → Accepts o ex current s.constraints
      (if side then condition else condition.createIsZero))
    (hQ : ∀ ex' s', Prepared current ex s ex' s' →
      Adds s.constraints (if side then condition else condition.createIsZero) s'.constraints →
      (C → ex'.seedMap = ex.seedMap) → Q (ofSide side) ex') :
    wp (follow o current condition side) Q (fun _ => ¬ C) ex := by
  unfold follow
  rw [wp_bind]
  refine wp_addConstraint hs hC fun cs m n hadds hcs => ?_
  exact hQ _ _ prepared_addConstraint hadds fun hc => (hcs hc).1

/-- Stages that `C` rules out leave a prepared executor. -/
theorem wp_follow_of_not {Q : Validity → Executor M → Prop} {side : Bool}
    (hs : ex.heap current = some s) (hnC : ¬ C)
    (hQ : ∀ res ex' s', Prepared current ex s ex' s' → Fixed s condition .unknown res s' →
      Q res ex') :
    wp (follow o current condition side) Q (fun _ => ¬ C) ex :=
  wp_follow hs (fun hc => absurd hc hnC) fun ex' s' h hadds _ =>
    hQ _ ex' s' h (.inr ⟨rfl, side, rfl, hadds⟩)

theorem wp_concretizeCondition {Q : Expr → Executor M → Prop} (hs : ex.heap current = some s)
    (hC : C → o.maxStaticPct = false)
    (hQ : ∀ condition' ex' s', Prepared current ex s ex' s' →
      Concretized o s condition condition' s' →
      (C → condition' = condition ∧ ex' = ex ∧ s' = s) → Q condition' ex') :
    wp (concretizeCondition o current condition) Q (fun _ => ¬ C) ex := by
  unfold concretizeCondition
  rw [wp_bind, wp_get, wp_ite]
  constructor
  · intro hstatic
    have hnC : ¬ C := fun hc => by simpa [hC hc] using hstatic.2.2
    rw [wp_bind, wp_readState hs, wp_bind]
    cases hvalue : o.solver.getValue s.constraints condition with
    | none => exact hnC
    | some value =>
      rw [wp_orThrow_some, wp_bind]
      refine wp_addConstraint hs (fun hc => absurd hc hnC) fun cs m n hadds _ => ?_
      exact hQ _ _ _ prepared_addConstraint (.inr ⟨value, hvalue, rfl, hadds⟩)
        fun hc => absurd hc hnC
  · intro _
    exact hQ condition ex s (prepared_refl hs) (.inl ⟨rfl, rfl⟩) fun _ => ⟨rfl, rfl, rfl⟩

theorem wp_replayBranch {Q : Validity → Executor M → Prop} {path : List Bool} {res : Validity}
    (hs : ex.heap current = some s) (hnC : ¬ C)
    (hQ : ∀ res' ex' s', Prepared current ex s ex' s' → Fixed s condition res res' s' → Q res' ex') :
    wp (replayBranch o current condition path res) Q (fun _ => ¬ C) ex := by
  unfold replayBranch
  rw [wp_bind, wp_get]
  cases path[ex.replayPosition]? with
  | none => exact hnC
  | some side =>
    dsimp only
    rw [wp_bind, wp_set]
    have hnext : Prepared current ex s { ex with replayPosition := ex.replayPosition + 1 } s :=
      ⟨by rw [← hs, Function.update_eq_self], rfl⟩
    cases res with
    | true => exact wp_ite.mpr ⟨fun _ => hQ _ _ _ hnext (.inl ⟨rfl, rfl⟩), fun _ => hnC⟩
    | false => exact wp_ite.mpr ⟨fun _ => hnC, fun _ => hQ _ _ _ hnext (.inl ⟨rfl, rfl⟩)⟩
    | unknown =>
      exact wp_follow_of_not (by exact hs) hnC fun res ex' s' h => hQ res ex' s' (hnext.trans h)

theorem wp_fixUnseeded {Q : Validity → Executor M → Prop} {res : Validity}
    (hs : ex.heap current = some s)
    (hC : C → (isInternal = false → o.replayPath = none) ∧ o.replayKTest = false ∧
      skipsFork o ex s = false)
    (hQ : ∀ res' ex' s', Prepared current ex s ex' s' → Fixed s condition res res' s' →
      (C → res' = res ∧ ex' = ex ∧ s' = s) → Q res' ex') :
    wp (fixUnseeded o current condition isInternal res) Q (fun _ => ¬ C) ex := by
  have hsame := hQ res ex s (prepared_refl hs) (.inl ⟨rfl, rfl⟩) fun _ => ⟨rfl, rfl, rfl⟩
  unfold fixUnseeded
  split
  · rename_i path hpath
    have hnC : ¬ C := fun hc => by simpa [hpath] using (hC hc).1 rfl
    exact wp_replayBranch hs hnC fun res ex' s' h hfixed =>
      hQ res ex' s' h hfixed fun hc => absurd hc hnC
  · rw [wp_ite]
    refine ⟨fun hunknown => ?_, fun _ => hsame⟩
    subst hunknown
    rw [wp_ite]
    constructor
    · intro hktest hc
      cases hktest.symm.trans (hC hc).2.1
    · intro _
      rw [wp_bind, wp_readState hs, wp_bind, wp_get, wp_ite]
      constructor
      · intro hskip
        have hnC : ¬ C := fun hc => by cases hskip.symm.trans (hC hc).2.2
        rw [wp_bind]
        refine wp_getBool fun side => ?_
        have hnext : Prepared current ex s { ex with theRNG := fun n => ex.theRNG (n + 1) } s :=
          ⟨by rw [← hs, Function.update_eq_self], rfl⟩
        exact wp_follow_of_not (by exact hs) hnC fun res ex' s' h hfixed =>
          hQ res ex' s' (hnext.trans h) hfixed fun hc => absurd hc hnC
      · intro _
        exact hsame

/-- Only-replay-seed mode has fixed the branch to the one side that seeds take. -/
structure FixedBySeeds (o : ExecutorOptions) (ex : Executor M) (s : ExecutionState M)
    (condition : Expr) (seeds : List SeedInfo) (side : Bool) (ex' : Executor M)
    (s' : ExecutionState M) : Prop where
  onlyReplaySeeds : o.onlyReplaySeeds = true
  takes : ∀ seed ∈ seeds, SeedTakes o s.constraints condition side seed
  seedMap : ex'.seedMap = ex.seedMap
  isBool : ∀ c ∈ s'.constraints, c.IsBool
  constraints : ∀ σ, Satisfies σ s'.constraints ↔
    Satisfies σ s.constraints ∧ (condition.Holds σ ↔ side = true)

def BothSeeded (o : ExecutorOptions) (cs : List Expr) (condition : Expr)
    (seeds : List SeedInfo) : Prop :=
  o.onlyReplaySeeds = true → (∃ seed ∈ seeds, SeedTakes o cs condition true seed) ∧
    ∃ seed ∈ seeds, SeedTakes o cs condition false seed

theorem holds_side (h : condition.IsBool) {side : Bool} {σ : Assignment} :
    (if side then condition else condition.createIsZero).Holds σ ↔
      (condition.Holds σ ↔ side = true) := by
  cases side with
  | true => simp
  | false => simpa using TimingSolver.holds_createIsZero h

theorem isBool_side (h : condition.IsBool) (side : Bool) :
    (if side then condition else condition.createIsZero).IsBool := by
  cases side with
  | true => exact h
  | false => exact TimingSolver.isBool_createIsZero h

/-- A feasible side that all seeds take is accepted. -/
theorem accepts_side {seeds : List SeedInfo} {side : Bool} (ha : Answers o s.constraints condition)
    (hsat : ∃ σ, Satisfies σ s.constraints ∧ (condition.Holds σ ↔ side = true))
    (hseeds : ex.seedMap current = some seeds)
    (htakes : ∀ seed ∈ seeds, SeedTakes o s.constraints condition side seed) :
    Accepts o ex current s.constraints (if side then condition else condition.createIsZero) where
  answers := ⟨ha.solver, ha.constraints, isBool_side ha.condition side, ha.sat⟩
  sat := hsat.imp fun _ hσ => ⟨hσ.1, (holds_side ha.condition).mpr hσ.2⟩
  seeds l hl seed hseed := by
    obtain rfl : seeds = l := Option.some.inj (hseeds.symm.trans hl)
    exact (htakes seed hseed).feasible ha

theorem Validity.Says.feasible (h : Validity.unknown.Says cs condition) (side : Bool) :
    ∃ σ, Satisfies σ cs ∧ (condition.Holds σ ↔ side = true) := by
  cases side with
  | true => simpa using h.1
  | false => simpa using h.2

theorem wp_fixSeeded {Q : Validity → Executor M → Prop} {res : Validity} {seeds : List SeedInfo}
    (hs : ex.heap current = some s)
    (hC : C → Answers o s.constraints condition ∧ s.forkDisabled = false ∧ seeds ≠ [] ∧
      ex.seedMap current = some seeds ∧ res.Says s.constraints condition)
    (hQ : ∀ res' ex' s', Prepared current ex s ex' s' → Fixed s condition res res' s' →
      (C → (res' = res ∧ ex' = ex ∧ s' = s ∧
          (res = .unknown → BothSeeded o s.constraints condition seeds)) ∨
        ∃ side, res = .unknown ∧ res' = ofSide side ∧
          FixedBySeeds o ex s condition seeds side ex' s') → Q res' ex') :
    wp (fixSeeded o current condition seeds res) Q (fun _ => ¬ C) ex := by
  unfold fixSeeded
  rw [wp_bind, wp_readState hs, wp_ite]
  constructor
  · intro hmode
    simp only [Bool.and_eq_true, Bool.or_eq_true, decide_eq_true_eq] at hmode
    obtain ⟨hmode, rfl⟩ := hmode
    have honly (hc : C) : o.onlyReplaySeeds = true := by simpa [(hC hc).2.1] using hmode
    rw [wp_bind]
    refine wp_seedSides (fun hc => (hC hc).1) fun sides hsides => ?_
    obtain ⟨ht, hf, hnt, hnf⟩ := hsides
    obtain ⟨trueSeed, falseSeed⟩ := sides
    dsimp only at ht hf hnt hnf ⊢
    rw [wp_ite]
    constructor
    · intro hboth
      simp only [Bool.and_eq_true] at hboth
      refine hQ _ ex s (prepared_refl hs) (.inl ⟨rfl, rfl⟩)
        fun hc => .inl ⟨rfl, rfl, rfl, fun _ _ => ?_⟩
      exact ⟨(ht hboth.1).resolve_left (by simp), (hf hboth.2).resolve_left (by simp)⟩
    · intro hboth
      rw [wp_ite]
      constructor
      · intro hone
        have htakes : ∀ seed ∈ seeds, SeedTakes o s.constraints condition trueSeed seed := by
          cases trueSeed with
          | true => exact (hnf (by simpa using hboth)).2
          | false => exact (hnt rfl).2
        refine wp_follow hs (fun hc => ?_) fun ex' s' hprep hadds hmap => ?_
        · obtain ⟨ha, -, -, hseeds, hverdict⟩ := hC hc
          exact accepts_side ha (Validity.Says.feasible hverdict trueSeed) hseeds htakes
        · refine hQ _ ex' s' hprep (.inr ⟨rfl, trueSeed, rfl, hadds⟩)
            fun hc => .inr ⟨trueSeed, rfl, rfl, ?_⟩
          have ha := (hC hc).1
          have hside := isBool_side ha.condition trueSeed
          refine ⟨honly hc, htakes, hmap hc, hadds.isBool ha.constraints hside, fun σ => ?_⟩
          rw [hadds.satisfies ha.constraints hside, holds_side ha.condition]
      · intro hnone hc
        rw [Bool.or_eq_true, not_or, Bool.not_eq_true, Bool.not_eq_true] at hnone
        obtain ⟨seed, hseed⟩ := List.exists_mem_of_ne_nil seeds (hC hc).2.2.1
        obtain ⟨c, hc₁, hc₂⟩ := (hnt hnone.1).2 seed hseed
        obtain ⟨c', hc₁', hc₂'⟩ := (hnf hnone.2).2 seed hseed
        obtain rfl : c = c' := Option.some.inj (hc₁.symm.trans hc₁')
        cases hc₂.symm.trans hc₂'
  · intro hmode
    refine hQ res ex s (prepared_refl hs) (.inl ⟨rfl, rfl⟩)
      fun _ => .inl ⟨rfl, rfl, rfl, fun hres honly => ?_⟩
    simp [hres, honly] at hmode

/-- What `fork` needs to be free: the satisfiable state, a solver that answers, and no limit
or mode that keeps it from forking. -/
structure Free (o : ExecutorOptions) (ex : Executor M) (current : StateId)
    (s : ExecutionState M) (condition : Expr) (isInternal : Bool) : Prop where
  answers : Answers o s.constraints condition
  node : (ex.processTree.attach current ex.nextState current).isSome = true
  freshSeeds : ex.seedMap ex.nextState = none
  seeds : ex.seedMap current ≠ some []
  maxStaticPct : o.maxStaticPct = false
  replayPath : isInternal = false → o.replayPath = none
  replayKTest : o.replayKTest = false
  skipsFork : skipsFork o ex s = false
  depth : ¬ (o.maxDepth ≠ 0 ∧ o.maxDepth ≤ s.depth + 1)

theorem Free.forkDisabled (h : Free o ex current s condition isInternal) : s.forkDisabled = false := by
  have hskip := h.skipsFork
  unfold Executor.skipsFork at hskip
  simp only [Bool.or_eq_false_iff] at hskip
  exact hskip.1.1.2

structure OneSided (o : ExecutorOptions) (ex : Executor M) (current : StateId)
    (s : ExecutionState M) (condition : Expr) (side : Bool) (ex' : Executor M)
    (s' : ExecutionState M) : Prop where
  seedMap : ex'.seedMap = ex.seedMap
  isBool : ∀ c ∈ s'.constraints, c.IsBool
  constraints : ∀ σ, Satisfies σ s'.constraints ↔
    Satisfies σ s.constraints ∧ (condition.Holds σ ↔ side = true)
  why : (∀ σ, Satisfies σ s.constraints → (condition.Holds σ ↔ side = true)) ∨
    Validity.unknown.Says s.constraints condition ∧ o.onlyReplaySeeds = true ∧
      ∃ seeds, ex.seedMap current = some seeds ∧ seeds ≠ [] ∧
        ∀ seed ∈ seeds, SeedTakes o s.constraints condition side seed

structure TwoSided (o : ExecutorOptions) (ex : Executor M) (current : StateId)
    (s : ExecutionState M) (condition : Expr) (m : StateId → Option (List SeedInfo))
    (a b : ExecutionState M) : Prop where
  split : SplitRight o ex current s condition m a b
  feasible : Validity.unknown.Says s.constraints condition
  seeded : ∀ seeds, ex.seedMap current = some seeds → BothSeeded o s.constraints condition seeds

/-- The states that `fork` returns when the state goes on alone. -/
def alone (current : StateId) (side : Bool) : Option StateId × Option StateId :=
  if side then (some current, none) else (none, some current)

def aloneResult (ex : Executor M) (current : StateId) (s : ExecutionState M) (isInternal side : Bool)
    (fs : List StateId) : Executor M :=
  { ex with
    heap := Function.update ex.heap current (some (s.took (sideIndex side)))
    pathWriter := if isInternal then ex.pathWriter else sideWriter ex.pathWriter s.pathOS side
    featureStates := fs }

/-- The end of `fork` from a validity. -/
theorem wp_finishFork {Q : Option StateId × Option StateId → Executor M → Prop} {res : Validity}
    (hs : ex.heap current = some s) (hnew : ex.heap ex.nextState = none)
    (hC : C → res = .unknown → Splits o ex current s condition)
    (hOne : ∀ side fs, res = ofSide side →
      Q (alone current side) (aloneResult ex current s isInternal side fs))
    (hTwo : ∀ t fs m n a b, res = .unknown →
      ex.processTree.attach current ex.nextState current = some t →
      SplitStates ex s isInternal a b → Adds s.constraints condition a.constraints →
      Adds s.constraints condition.createIsZero b.constraints →
      (C → SplitRight o ex current s condition m a b) →
      Q (some current, some ex.nextState) (splitResult ex current s isInternal t fs m n a b))
    (hEnd : ∀ t fs m n a b ex', ex.processTree.attach current ex.nextState current = some t →
      SplitStates ex s isInternal a b →
      Terminated [current, ex.nextState] (splitResult ex current s isInternal t fs m n a b) ex' →
      ¬ C → Q (none, none) ex') :
    wp (finishFork o current condition isInternal res) Q (fun _ => ¬ C) ex := by
  unfold finishFork
  cases res with
  | true =>
    rw [wp_bind, wp_takeSide hs]
    exact hOne true _ rfl
  | false =>
    rw [wp_bind, wp_takeSide hs]
    exact hOne false _ rfl
  | unknown =>
    exact wp_splitState hs hnew (fun hc => hC hc rfl) (fun t fs m n a b => hTwo t fs m n a b rfl)
      hEnd

theorem Prepared.nextState (h : Prepared current ex s ex' s') : ex'.nextState = ex.nextState := by
  rw [h.executor]

theorem Prepared.processTree (h : Prepared current ex s ex' s') :
    ex'.processTree = ex.processTree := by
  rw [h.executor]

theorem Prepared.fresh (h : Prepared current ex s ex' s') (hs : ex.heap current = some s)
    (hnew : ex.heap ex.nextState = none) : ex'.heap ex'.nextState = none := by
  have hne : ex.nextState ≠ current := by
    intro heq
    rw [heq, hs] at hnew
    cases hnew
  rw [h.nextState, h.heap_of_ne hne, hnew]

/-- The validity with which `fork` ends, after the stages that may fix it. -/
def Resolved (o : ExecutorOptions) (ex : Executor M) (current : StateId) (s : ExecutionState M)
    (condition : Expr) (res : Validity) (ex' : Executor M) (s' : ExecutionState M) : Prop :=
  (ex' = ex ∧ s' = s ∧ res.Says s.constraints condition ∧ (res = .unknown →
    ∀ seeds, ex.seedMap current = some seeds → BothSeeded o s.constraints condition seeds)) ∨
  Validity.unknown.Says s.constraints condition ∧ ∃ side seeds, res = ofSide side ∧
    ex.seedMap current = some seeds ∧ FixedBySeeds o ex s condition seeds side ex' s'

theorem Validity.Says.ofSide {side : Bool} (h : (ofSide side).Says cs condition) :
    ∀ σ, Satisfies σ cs → (condition.Holds σ ↔ side = true) := by
  intro σ hσ
  cases side with
  | true => exact iff_of_true (h σ hσ) rfl
  | false => exact iff_of_false (h σ hσ) (by decide)

theorem ofSide_ne_unknown (side : Bool) : ofSide side ≠ .unknown := by cases side <;> decide

theorem Resolved.oneSided {side : Bool} (hfree : Free o ex current s condition isInternal)
    (h : Resolved o ex current s condition (ofSide side) ex' s') :
    OneSided o ex current s condition side ex' s' := by
  obtain ⟨rfl, rfl, hverdict, -⟩ | ⟨hverdict, side', seeds, hside, hseeds, hfixed⟩ := h
  · have hall := Validity.Says.ofSide hverdict
    exact ⟨rfl, hfree.answers.constraints, fun σ => ⟨fun hσ => ⟨hσ, hall σ hσ⟩, And.left⟩, .inl hall⟩
  · have hside : side' = side := by
      cases side <;> cases side' <;> first | rfl | cases hside
    subst hside
    refine ⟨hfixed.seedMap, hfixed.isBool, hfixed.constraints,
      .inr ⟨hverdict, hfixed.onlyReplaySeeds, seeds, hseeds, fun hnil => ?_, hfixed.takes⟩⟩
    exact hfree.seeds (hnil ▸ hseeds)

theorem Resolved.unknown (h : Resolved o ex current s condition .unknown ex' s') :
    ex' = ex ∧ s' = s ∧ Validity.unknown.Says s.constraints condition ∧
      ∀ seeds, ex.seedMap current = some seeds → BothSeeded o s.constraints condition seeds := by
  obtain ⟨hex, hs, hverdict, hseeds⟩ | ⟨-, side, -, hside, -⟩ := h
  · exact ⟨hex, hs, hverdict, hseeds rfl⟩
  · exact absurd hside.symm (ofSide_ne_unknown side)

theorem Free.splits (h : Free o ex current s condition isInternal)
    (hverdict : Validity.unknown.Says s.constraints condition) : Splits o ex current s condition :=
  ⟨h.answers, hverdict.1, hverdict.2, h.node, h.freshSeeds, h.depth⟩

/-- The stages of `fork` before its end. -/
theorem wp_fork_stages {Q : Option StateId × Option StateId → Executor M → Prop}
    (hs : ex.heap current = some s) (hC : C → Free o ex current s condition isInternal)
    (hFinish : ∀ condition' res res' s₁ ex' s', Prepared current ex s ex' s' →
      Concretized o s condition condition' s₁ →
      o.solver.evaluate s₁.constraints condition' = some res → Fixed s₁ condition' res res' s' →
      (C → condition' = condition ∧ Resolved o ex current s condition res' ex' s') →
      wp (finishFork o current condition' isInternal res') Q (fun _ => ¬ C) ex')
    (hTimeout : ∀ condition' ex₁ s₁ ex', Prepared current ex s ex₁ s₁ →
      Concretized o s condition condition' s₁ →
      o.solver.evaluate s₁.constraints condition' = none → Terminated [current] ex₁ ex' → ¬ C →
      Q (none, none) ex') : wp (fork o current condition isInternal) Q (fun _ => ¬ C) ex := by
  unfold fork
  rw [wp_bind]
  refine wp_concretizeCondition hs (fun hc => (hC hc).maxStaticPct)
    fun condition' ex₁ s₁ hprep hconc hsame => ?_
  rw [wp_bind, wp_readState hprep.heap]
  cases hres : o.solver.evaluate s₁.constraints condition' with
  | none =>
    have hnC : ¬ C := by
      intro hc
      obtain ⟨rfl, rfl, rfl⟩ := hsame hc
      have ha := (hC hc).answers
      obtain ⟨v, hv, -⟩ := ha.solver.evaluate ha.constraints ha.condition
      cases hres.symm.trans hv
    dsimp only
    rw [wp_bind, wp_modifyState hprep.heap, wp_bind]
    refine wp_mono (wp_terminateState_terminated (Function.update_self _ _ _) fun ex' hterm => ?_)
      (fun _ _ h => h) fun _ _ => hnC
    refine hTimeout condition' ex₁ s₁ ex' hprep hconc hres ?_ hnC
    exact { hterm with heap := fun st hst =>
      (hterm.heap st hst).trans (Function.update_of_ne (by simpa using hst) _ _) }
  | some res =>
    have hverdict (hc : C) : res.Says s.constraints condition := by
      obtain ⟨rfl, rfl, rfl⟩ := hsame hc
      have ha := (hC hc).answers
      obtain ⟨v, hv, hverdict⟩ := ha.solver.evaluate ha.constraints ha.condition
      obtain rfl : res = v := Option.some.inj (hres.symm.trans hv)
      exact hverdict
    dsimp only
    rw [wp_bind, wp_get]
    cases hseeds : ex₁.seedMap current with
    | none =>
      rw [wp_bind]
      refine wp_fixUnseeded hprep.heap (fun hc => ?_) fun res' ex₂ s₂ hprep₂ hfixed hsame₂ => ?_
      · obtain ⟨-, rfl, rfl⟩ := hsame hc
        exact ⟨(hC hc).replayPath, (hC hc).replayKTest, (hC hc).skipsFork⟩
      · refine hFinish _ _ _ _ _ _ (hprep.trans hprep₂) hconc hres hfixed fun hc => ?_
        obtain ⟨rfl, rfl, rfl⟩ := hsame hc
        obtain ⟨rfl, rfl, rfl⟩ := hsame₂ hc
        refine ⟨rfl, .inl ⟨rfl, rfl, hverdict hc, fun _ seeds hs' => ?_⟩⟩
        cases hseeds.symm.trans hs'
    | some seeds =>
      rw [wp_bind]
      refine wp_fixSeeded hprep.heap (fun hc => ?_) fun res' ex₂ s₂ hprep₂ hfixed hres₂ => ?_
      · obtain ⟨rfl, rfl, rfl⟩ := hsame hc
        exact ⟨(hC hc).answers, (hC hc).forkDisabled, fun hnil => (hC hc).seeds (hnil ▸ hseeds),
          hseeds, hverdict hc⟩
      · refine hFinish _ _ _ _ _ _ (hprep.trans hprep₂) hconc hres hfixed fun hc => ?_
        obtain ⟨rfl, rfl, rfl⟩ := hsame hc
        refine ⟨rfl, ?_⟩
        obtain ⟨rfl, rfl, rfl, hboth⟩ | ⟨side, rfl, rfl, hseeded⟩ := hres₂ hc
        · refine .inl ⟨rfl, rfl, hverdict hc, fun hunknown seeds' hs' => ?_⟩
          obtain rfl : seeds = seeds' := Option.some.inj (hseeds.symm.trans hs')
          exact hboth hunknown
        · exact .inr ⟨hverdict hc, side, seeds, rfl, hseeds, hseeded⟩

section

variable {Q : Option StateId × Option StateId → Executor M → Prop}

variable (hs : ex.heap current = some s) (hnew : ex.heap ex.nextState = none)
    (hC : C → Free o ex current s condition isInternal)
    (hOne : ∀ side ex' s' fs, Prepared current ex s ex' s' →
      (C → OneSided o ex current s condition side ex' s') →
      Q (alone current side) (aloneResult ex' current s' isInternal side fs))
    (hTwo : ∀ ex' s' t fs m n a b, Prepared current ex s ex' s' →
      ex.processTree.attach current ex.nextState current = some t →
      SplitStates ex' s' isInternal a b → (C → ex' = ex ∧ s' = s ∧
        TwoSided o ex current s condition m a b) →
      Q (some current, some ex.nextState) (splitResult ex' current s' isInternal t fs m n a b))
    (hEnd : ∀ ex₁ s₁ t fs m n a b ex', Prepared current ex s ex₁ s₁ →
      ex.processTree.attach current ex.nextState current = some t →
      SplitStates ex₁ s₁ isInternal a b →
      Terminated [current, ex.nextState] (splitResult ex₁ current s₁ isInternal t fs m n a b) ex' →
      ¬ C → Q (none, none) ex')

include hs hnew hC hOne hTwo hEnd

theorem wp_finishFork_resolved {condition' : Expr} {res : Validity}
    (hprep : Prepared current ex s ex' s')
    (hres : C → condition' = condition ∧ Resolved o ex current s condition res ex' s') :
    wp (finishFork o current condition' isInternal res) Q (fun _ => ¬ C) ex' := by
  refine wp_finishFork hprep.heap (hprep.fresh hs hnew) ?_ ?_ ?_ ?_
  · rintro hc rfl
    obtain ⟨rfl, hr⟩ := hres hc
    obtain ⟨rfl, rfl, hverdict, -⟩ := hr.unknown
    exact (hC hc).splits hverdict
  · rintro side fs rfl
    exact hOne side ex' s' fs hprep fun hc => (hres hc).2.oneSided (hC hc)
  · rintro t fs m n a b rfl ht hstates - - hright
    rw [hprep.nextState] at ht ⊢
    rw [hprep.processTree] at ht
    refine hTwo ex' s' t fs m n a b hprep ht hstates fun hc => ?_
    obtain ⟨rfl, hr⟩ := hres hc
    obtain ⟨rfl, rfl, hverdict, hseeds⟩ := hr.unknown
    exact ⟨rfl, rfl, hright hc, hverdict, hseeds⟩
  · intro t fs m n a b ex'' ht hstates hterm hnC
    rw [hprep.nextState] at ht hterm
    rw [hprep.processTree] at ht
    exact hEnd ex' s' t fs m n a b ex'' hprep ht hstates hterm hnC

/-- Every way in which `fork` ends. -/
theorem wp_fork (hTimeout : ∀ ex₁ s₁ ex', Prepared current ex s ex₁ s₁ →
      Terminated [current] ex₁ ex' → ¬ C → Q (none, none) ex') :
    wp (fork o current condition isInternal) Q (fun _ => ¬ C) ex :=
  wp_fork_stages hs hC
    (fun _ _ _ _ _ _ hprep _ _ _ hres =>
      wp_finishFork_resolved hs hnew hC hOne hTwo hEnd hprep hres)
    fun _ ex₁ s₁ ex' hprep _ _ hterm hnC => hTimeout ex₁ s₁ ex' hprep hterm hnC

end

end Fork

end Executor

end Klee
