import Klee.Solver.IndependentFactors

/-! The initial values of `IndependentSolver`: solutions of the factors are stitched into one
assignment. -/
namespace Klee

open IndependentElementSet

namespace IndependentSolver

section Stitch

variable {f : IndependentElementSet} {retMap : RetMap} {a : Array} {new : List (BitVec 8)}

theorem overlay_spec (new : List (BitVec 8)) {indices : List Nat} {bytes : List (BitVec 8)}
    (h : ∀ i ∈ indices, i < bytes.length) :
    ∃ out, overlay new indices bytes = some out ∧ out.length = bytes.length ∧
      ∀ i < bytes.length, out.getD i 0 = if i ∈ indices then new.getD i 0 else bytes.getD i 0 := by
  induction indices generalizing bytes with
  | nil => exact ⟨bytes, rfl, rfl, fun i _ => by simp⟩
  | cons j indices ih =>
    obtain ⟨hj, hrest⟩ := List.forall_mem_cons.mp h
    have hlen : (bytes.set j (new.getD j 0)).length = bytes.length := List.length_set
    have hrest' : ∀ i ∈ indices, i < (bytes.set j (new.getD j 0)).length := by rwa [hlen]
    obtain ⟨out, hout, hlen', hget⟩ := ih hrest'
    refine ⟨out, by rw [overlay, if_pos hj, hout], hlen'.trans hlen, fun i hi => ?_⟩
    rw [hget i (by rwa [hlen])]
    by_cases hmem : i ∈ indices
    · rw [if_pos hmem, if_pos (List.mem_cons_of_mem j hmem)]
    · rw [if_neg hmem]
      by_cases hij : i = j
      · subst hij
        rw [if_pos List.mem_cons_self]
        simp [hi]
      · rw [if_neg (by simp [hij, hmem])]
        simp [Ne.symm hij]

/-- The array holds the new bytes where the factor has its elements, and keeps the others. -/
structure Stitched (f : IndependentElementSet) (old : Option (List (BitVec 8))) (a : Array)
    (new out : List (BitVec 8)) : Prop where
  length : out.length = a.size
  own : ∀ i < a.size, f.Has (a, i) → out.getD i 0 = new.getD i 0
  others : ∀ bytes, old = some bytes → ∀ i < a.size, ¬ f.Has (a, i) →
    out.getD i 0 = bytes.getD i 0

def Ready (f : IndependentElementSet) (a : Array) (old : Option (List (BitVec 8))) : Prop :=
  ∀ bytes, old = some bytes → bytes.length = a.size ∧ a ∉ f.wholeObjects

theorem stitch_spec (hnew : new.length = a.size) (hold : Ready f a (retMap a))
    (hrange : ∀ p ∈ f.elements, p.2 < p.1.size) : ∃ out,
    stitch f retMap (a, new) = some (Function.update retMap a (some out)) ∧
      Stitched f (retMap a) a new out := by
  unfold stitch
  cases hm : retMap a with
  | none => exact ⟨new, rfl, hnew, fun _ _ _ => rfl, fun _ h => by cases h⟩
  | some bytes =>
    obtain ⟨hlen, hwhole⟩ := hold bytes hm
    have hmem (i : Nat) : i ∈ (f.elements.filter fun p => decide (p.1 = a)).map (·.2) ↔
        (a, i) ∈ f.elements := by
      simp
    have hindices : ∀ i ∈ (f.elements.filter fun p => decide (p.1 = a)).map (·.2),
        i < bytes.length := by
      intro i hi
      rw [hlen]
      exact hrange _ ((hmem i).mp hi)
    obtain ⟨out, hout, hlen', hget⟩ := overlay_spec new hindices
    rw [hlen] at hget
    refine ⟨out, ?_, hlen'.trans hlen, fun i hi hhas => ?_, fun old ho i hi hhas => ?_⟩
    · simp only [hlen, hnew, if_pos, hout, Option.map_some]
    · rw [hget i hi, if_pos ((hmem i).mpr (hhas.resolve_left hwhole))]
    · cases ho
      rw [hget i hi, if_neg fun h => hhas (.inr ((hmem i).mp h))]

/-- All arrays of the factor. -/
theorem foldlM_stitch_spec (hrange : ∀ p ∈ f.elements, p.2 < p.1.size)
    {l : List (Array × List (BitVec 8))} (hnodup : (l.map (·.1)).Nodup)
    (hl : ∀ r ∈ l, r.2.length = r.1.size ∧ Ready f r.1 (retMap r.1)) : ∃ retMap',
      l.foldlM (stitch f) retMap = some retMap' ∧
      (∀ a ∉ l.map (·.1), retMap' a = retMap a) ∧
      ∀ r ∈ l, ∃ out, retMap' r.1 = some out ∧ Stitched f (retMap r.1) r.1 r.2 out := by
  induction l generalizing retMap with
  | nil => exact ⟨retMap, rfl, fun _ _ => rfl, fun _ hr => by cases hr⟩
  | cons r l ih =>
    obtain ⟨⟨hlen, hready⟩, hrest⟩ := List.forall_mem_cons.mp hl
    obtain ⟨hr, hnodup'⟩ := List.nodup_cons.mp hnodup
    obtain ⟨out, hstitch, hout⟩ := stitch_spec hlen hready hrange
    -- the other arrays do not see this one
    have hother (a : Array) (ha : a ≠ r.1) : Function.update retMap r.1 (some out) a = retMap a :=
      Function.update_of_ne ha _ _
    have hne (r' : Array × List (BitVec 8)) (hr' : r' ∈ l) : r'.1 ≠ r.1 := by
      intro h
      exact hr (List.mem_map.mpr ⟨r', hr', h⟩)
    have hrest' : ∀ r' ∈ l, r'.2.length = r'.1.size ∧
        Ready f r'.1 (Function.update retMap r.1 (some out) r'.1) := by
      intro r' hr'
      rw [hother _ (hne r' hr')]
      exact hrest r' hr'
    obtain ⟨retMap', hfold, hkeep, hdone⟩ := ih hnodup' hrest'
    refine ⟨retMap', ?_, fun a ha => ?_, fun r' hr' => ?_⟩
    · rw [List.foldlM_cons, hstitch]
      exact hfold
    · rw [List.map_cons, List.mem_cons, not_or] at ha
      rw [hkeep a ha.2, hother a ha.1]
    · rcases List.mem_cons.mp hr' with rfl | hr'
      · exact ⟨out, by rw [hkeep _ hr, Function.update_self], hout⟩
      · obtain ⟨out', hout', hst⟩ := hdone r' hr'
        rw [hother _ (hne r' hr')] at hst
        exact ⟨out', hout', hst⟩

end Stitch

section Run

variable {solver : SolverImpl} {f : IndependentElementSet} {done factors : List IndependentElementSet}
  {retMap : RetMap} {σ : Assignment}

/-- `retMap` gives the arrays of the factor the bytes of `σ` that the factor covers. -/
def Fits (retMap : RetMap) (f : IndependentElementSet) (σ : Assignment) : Prop :=
  ∀ a ∈ f.arrays, ∃ bytes, retMap a = some bytes ∧
    (a.isSymbolicArray = true → ∀ i < a.size, f.Has (a, i) → bytes.getD i 0 = σ a i)

/-- What holds after some of the factors: their solutions are in `retMap`, and `retMap` has
no other arrays. -/
structure Solved (done : List IndependentElementSet) (retMap : RetMap) : Prop where
  fits : ∀ f ∈ done, f.arrays ≠ [] → ∃ σ, Satisfies σ f.exprs ∧ Fits retMap f σ
  length : ∀ a bytes, retMap a = some bytes → bytes.length = a.size
  known : ∀ a bytes, retMap a = some bytes → ∃ f ∈ done, a ∈ f.arrays

theorem Solved.nil : Solved [] fun _ => none where
  fits _ h := by cases h
  length _ _ h := by cases h
  known _ _ h := by cases h

/-- A factor without arrays changes nothing. -/
theorem Solved.skip (h : Solved done retMap) (hf : f.arrays = []) : Solved (f :: done) retMap where
  fits g hg hne := by
    rcases List.mem_cons.mp hg with rfl | hg
    · exact absurd hf hne
    · exact h.fits g hg hne
  length := h.length
  known a bytes hm := by
    obtain ⟨g, hg, ha⟩ := h.known a bytes hm
    exact ⟨g, List.mem_cons_of_mem f hg, ha⟩

/-- A processed array that the next factor has too is not a whole object of it. -/
theorem Solved.ready (h : Solved done retMap) (hdisj : ∀ g ∈ done, g.Disjoint f) (a : Array) :
    Ready f a (retMap a) := by
  intro bytes hm
  refine ⟨h.length a bytes hm, fun hwhole => ?_⟩
  obtain ⟨g, hg, ha⟩ := h.known a bytes hm
  obtain ⟨i, hi⟩ := mem_arrays.mp ha
  exact hdisj g hg (a, i) hi (.inl hwhole)

/-- One factor: its solution is stitched in, the bytes of the others stay. -/
theorem Solved.step (h : Solved done retMap) (hdisj : ∀ g ∈ done, g.Disjoint f)
    (hrange : ∀ p ∈ f.elements, p.2 < p.1.size) {values : List (List (BitVec 8))}
    (hσ : Satisfies σ f.exprs) (hvalues : ValuesOf σ f.arrays values) : ∃ retMap',
      (f.arrays.zip values).foldlM (stitch f) retMap = some retMap' ∧
      Solved (f :: done) retMap' := by
  have hfst : (f.arrays.zip values).map (·.1) = f.arrays :=
    List.map_fst_zip hvalues.length_eq.le
  have hl : ∀ r ∈ f.arrays.zip values, r.2.length = r.1.size ∧ Ready f r.1 (retMap r.1) :=
    fun r hr => ⟨((List.forall₂_iff_zip.mp hvalues).2 hr).1, h.ready hdisj r.1⟩
  have hnodup : ((f.arrays.zip values).map (·.1)).Nodup := by
    rw [hfst]
    exact List.nodup_dedup _
  obtain ⟨retMap', hfold, hkeep, hdone⟩ := foldlM_stitch_spec hrange hnodup hl
  rw [hfst] at hkeep
  have hnew (a : Array) (ha : a ∈ f.arrays) : ∃ new out, (a, new) ∈ f.arrays.zip values ∧
      retMap' a = some out ∧ Stitched f (retMap a) a new out := by
    rw [← hfst] at ha
    obtain ⟨r, hr, rfl⟩ := List.mem_map.mp ha
    obtain ⟨out, hout, hst⟩ := hdone r hr
    exact ⟨r.2, out, hr, hout, hst⟩
  refine ⟨retMap', hfold, fun g hg hne => ?_, fun a bytes hm => ?_, fun a bytes hm => ?_⟩
  · rcases List.mem_cons.mp hg with rfl | hg
    · refine ⟨σ, hσ, fun a ha => ?_⟩
      obtain ⟨new, out, hr, hout, hst⟩ := hnew a ha
      refine ⟨out, hout, fun hsym i hi hhas => ?_⟩
      rw [hst.own i hi hhas]
      exact ((List.forall₂_iff_zip.mp hvalues).2 hr).2 hsym i hi
    · obtain ⟨τ, hτ, hfits⟩ := h.fits g hg hne
      refine ⟨τ, hτ, fun a ha => ?_⟩
      obtain ⟨bytes, hbytes, hval⟩ := hfits a ha
      by_cases haf : a ∈ f.arrays
      · obtain ⟨new, out, -, hout, hst⟩ := hnew a haf
        refine ⟨out, hout, fun hsym i hi hhas => ?_⟩
        rw [hst.others bytes hbytes i hi (hdisj g hg (a, i) hhas)]
        exact hval hsym i hi hhas
      · exact ⟨bytes, by rw [hkeep a haf, hbytes], hval⟩
  · by_cases haf : a ∈ f.arrays
    · obtain ⟨new, out, -, hout, hst⟩ := hnew a haf
      cases hout.symm.trans hm
      exact hst.length
    · exact h.length a bytes (by rw [← hkeep a haf, hm])
  · by_cases haf : a ∈ f.arrays
    · exact ⟨f, List.mem_cons_self, haf⟩
    · obtain ⟨g, hg, ha⟩ := h.known a bytes (by rw [← hkeep a haf, hm])
      exact ⟨g, List.mem_cons_of_mem f hg, ha⟩

def factorQuery (f : IndependentElementSet) : Query := ⟨f.exprs, .constant (.alloc 0 1)⟩

theorem factorQuery_solves : (factorQuery f).Solves σ ↔ Satisfies σ f.exprs :=
  Query.withFalse_solves (q := factorQuery f)

/-- The whole loop: either all factors with arrays are solved in one map, or one of them has
no solution. -/
theorem solveFactors_spec (hsolver : ∀ f ∈ factors, f.arrays ≠ [] →
      solver.InitialValuesCorrect (factorQuery f) f.arrays)
    (hfactors : ∀ f ∈ factors, f.exprs ≠ [] ∧ ∀ p ∈ f.elements, p.2 < p.1.size)
    (hpair : factors.Pairwise Disjoint) (hdisj : ∀ f ∈ factors, ∀ g ∈ done, g.Disjoint f)
    (h : Solved done retMap) :
    (∃ retMap', solveFactors solver factors retMap = some (some retMap') ∧
      Solved (factors.reverse ++ done) retMap') ∨
    (solveFactors solver factors retMap = some none ∧
      ∃ f ∈ factors, f.arrays ≠ [] ∧ ∀ σ, ¬ Satisfies σ f.exprs) := by
  induction factors generalizing done retMap with
  | nil => exact .inl ⟨retMap, rfl, h⟩
  | cons f factors ih =>
    obtain ⟨hsf, hsrest⟩ := List.forall_mem_cons.mp hsolver
    obtain ⟨⟨hne, hrange⟩, hfrest⟩ := List.forall_mem_cons.mp hfactors
    obtain ⟨hpf, hprest⟩ := List.pairwise_cons.mp hpair
    obtain ⟨hdf, hdrest⟩ := List.forall_mem_cons.mp hdisj
    have hdisj' : ∀ f' ∈ factors, ∀ g ∈ f :: done, g.Disjoint f' := fun f' hf' =>
      List.forall_mem_cons.mpr ⟨hpf f' hf', hdrest f' hf'⟩
    -- what the rest of the loop gives, once this factor is done
    have hrest (retMap' : RetMap) (h' : Solved (f :: done) retMap') :
        (∃ retMap'', solveFactors solver factors retMap' = some (some retMap'') ∧
          Solved ((f :: factors).reverse ++ done) retMap'') ∨
        (solveFactors solver factors retMap' = some none ∧
          ∃ f' ∈ f :: factors, f'.arrays ≠ [] ∧ ∀ σ, ¬ Satisfies σ f'.exprs) := by
      rw [List.reverse_cons, List.append_assoc, List.singleton_append]
      exact (ih hsrest hfrest hprest hdisj' h').imp_right fun ⟨hnone, f', hf', hun⟩ =>
        ⟨hnone, f', List.mem_cons_of_mem f hf', hun⟩
    rw [solveFactors, if_neg hne]
    by_cases harr : f.arrays = []
    · rw [if_pos harr]
      exact hrest retMap (h.skip harr)
    · rw [if_neg harr]
      have hanswer := hsf harr
      unfold SolverImpl.InitialValuesCorrect at hanswer
      cases hc : solver.computeInitialValues (factorQuery f) f.arrays with
      | none =>
        rw [hc] at hanswer
        exact hanswer.elim
      | some r =>
        rw [hc] at hanswer
        rw [factorQuery] at hc
        cases r with
        | none =>
          refine .inr ⟨by simp only [hc], f, List.mem_cons_self, harr, fun σ hσ => ?_⟩
          exact hanswer σ (factorQuery_solves.mpr hσ)
        | some values =>
          obtain ⟨σ, hσ, hvalues⟩ := hanswer
          obtain ⟨retMap', hfold, h'⟩ :=
            h.step hdf hrange (factorQuery_solves.mp hσ) hvalues
          simp only [hc, hvalues.length_eq, if_pos, hfold]
          exact hrest retMap' h'

end Run

section Answer

variable {solver : SolverImpl} {query : Query} {objects : List Array} {retMap : RetMap}
  {σ : Assignment}

/-- The bytes for a requested object; without any in `retMap` they are zero. -/
def objectBytes (retMap : RetMap) (a : Array) : List (BitVec 8) :=
  (retMap a).getD (List.replicate a.size 0)

theorem lookup_zip_map (objects : List Array) (F : Array → List (BitVec 8)) (a : Array) :
    (objects.zip (objects.map F)).lookup a = if a ∈ objects then some (F a) else none := by
  induction objects with
  | nil => rfl
  | cons b objects ih =>
    rw [List.map_cons, List.zip_cons_cons, List.lookup_cons, ih]
    by_cases hab : a = b
    · subst hab
      simp
    · rw [beq_eq_false_iff_ne.mpr hab]
      simp [hab]

/-- Both parts of the point agree with `retMap`. -/
theorem createdPoint_eq (objects : List Array) (free : Assignment) {a : Array}
    {bytes : List (BitVec 8)} (h : retMap a = some bytes) (i : Nat) :
    createdPoint objects (objects.map (objectBytes retMap)) retMap free a i = bytes.getD i 0 := by
  have hbytes : objectBytes retMap a = bytes := by rw [objectBytes, h, Option.getD_some]
  unfold createdPoint
  rw [lookup_zip_map]
  by_cases ha : a ∈ objects
  · rw [if_pos ha, hbytes]
  · rw [if_neg ha, h]

/-- The vectors are the bytes of the point. -/
theorem valuesOf_createdPoint (free : Assignment)
    (hlen : ∀ a bytes, retMap a = some bytes → bytes.length = a.size) :
    ValuesOf (createdPoint objects (objects.map (objectBytes retMap)) retMap free) objects
      (objects.map (objectBytes retMap)) := by
  unfold ValuesOf
  rw [List.forall₂_map_right_iff, List.forall₂_same]
  intro a ha
  refine ⟨?_, fun _ i _ => ?_⟩
  · unfold objectBytes
    cases hm : retMap a with
    | none => exact List.length_replicate
    | some bytes => exact hlen a bytes hm
  · unfold createdPoint
    rw [lookup_zip_map, if_pos ha]

/-- The point satisfies every factor that has arrays. -/
theorem Solved.satisfies_createdPoint {done : List IndependentElementSet}
    (h : Solved done retMap) (objects : List Array) (free : Assignment)
    {f : IndependentElementSet} (hf : f ∈ done) (hfactor : f.IsFactor) (hne : f.arrays ≠ []) :
    Satisfies (createdPoint objects (objects.map (objectBytes retMap)) retMap free) f.exprs := by
  obtain ⟨σ, hσ, hfits⟩ := h.fits f hf hne
  have hag : f.Agree (createdPoint objects (objects.map (objectBytes retMap)) retMap free) σ := by
    refine agree_of_symbolic fun p hp hsym hlt => ?_
    obtain ⟨bytes, hbytes, hval⟩ := hfits p.1 (mem_arrays.mpr ⟨p.2, hp⟩)
    rw [createdPoint_eq objects free hbytes]
    exact hval hsym p.2 hlt hp
  exact fun e he => ((hfactor.covers e he).holds_iff hag).mpr (hσ e he)

def readingGoals (query : Query) : List Expr :=
  query.goals.filter fun e => decide ((ofExpr e).arrays ≠ [])

/-- The factors hold the constraints and the negated query once each, and share no byte. -/
def FactorsPartition (query : Query) : Prop :=
  ∃ factors, getAllIndependentConstraintsSets query = some factors ∧
    (factors.flatMap (·.exprs)).Perm query.goals ∧ factors.Pairwise Disjoint

/-- There is a solution if and only if the call reports one, and then the vectors are the
bytes of a solution. -/
def Answers (solver : SolverImpl) (query : Query) (objects : List Array) : Prop :=
  ∃ r, computeInitialValues solver query objects = some r ∧
    (r.isSome = true ↔ ∃ σ, query.Solves σ) ∧
    ∀ values retMap, r = some (values, retMap) → ∀ free,
      query.Solves (createdPoint objects values retMap free) ∧
      ValuesOf (createdPoint objects values retMap free) objects values

def SolvesFactors (solver : SolverImpl) (query : Query) : Prop :=
  ∀ factors, getAllIndependentConstraintsSets query = some factors → ∀ f ∈ factors,
    f.arrays ≠ [] → solver.InitialValuesCorrect (factorQuery f) f.arrays

def SkipsOnlyTrue (query : Query) : Prop :=
  (∀ e ∈ query.goals, (ofExpr e).arrays = [] → ∀ σ, e.Holds σ) ∨
    ∀ σ, ¬ Satisfies σ (readingGoals query)

theorem factorsPartition (hans : query.Answerable) : FactorsPartition query := by
  obtain ⟨-, hperm, hpair⟩ := factors_spec query
  exact ⟨_, getAllIndependentConstraintsSets_eq hans, hperm, hpair⟩

/-- What the call computes: a point that satisfies every goal that reads a byte, or nothing
if there is none. The other goals are not looked at. -/
theorem computeInitialValues_spec (objects : List Array) (hans : query.Answerable)
    (hrange : query.InRange) (hsolver : SolvesFactors solver query) :
    (∃ values retMap, computeInitialValues solver query objects = some (some (values, retMap)) ∧
      ∀ free, Satisfies (createdPoint objects values retMap free) (readingGoals query) ∧
        ValuesOf (createdPoint objects values retMap free) objects values) ∨
    (computeInitialValues solver query objects = some none ∧
      ∀ σ, ¬ Satisfies σ (readingGoals query)) := by
  have hfac := getAllIndependentConstraintsSets_eq hans
  obtain ⟨hfactor, hperm, hpair⟩ := factors_spec query
  have hmem (e : Expr) : (∃ f ∈ mergeFactors (query.goals.map ofExpr), e ∈ f.exprs) ↔
      e ∈ query.goals := by
    rw [← hperm.mem_iff, List.mem_flatMap]
  have hloop : ∀ f ∈ mergeFactors (query.goals.map ofExpr),
      f.exprs ≠ [] ∧ ∀ p ∈ f.elements, p.2 < p.1.size := by
    intro f hf
    refine ⟨(hfactor f hf).nonempty, fun p hp => ?_⟩
    obtain ⟨e, he, hpe⟩ := (hfactor f hf).elements p hp
    exact hrange.elements e ((hmem e).mp ⟨f, hf, he⟩) p hpe
  unfold computeInitialValues
  rw [hfac]
  rcases solveFactors_spec (hsolver _ hfac) hloop hpair (fun _ _ _ hg => by cases hg) Solved.nil with
    ⟨retMap, hrun, hsolved⟩ | ⟨hrun, f, hf, hne, hun⟩
  · refine .inl ⟨objects.map (objectBytes retMap), retMap, by simp only [hrun]; rfl, fun free => ?_⟩
    refine ⟨fun e he => ?_, valuesOf_createdPoint free hsolved.length⟩
    obtain ⟨hgoal, hreads⟩ := List.mem_filter.mp he
    obtain ⟨f, hf, hef⟩ := (hmem e).mpr hgoal
    have hne : f.arrays ≠ [] := fun h =>
      of_decide_eq_true hreads (((hfactor f hf).arrays_eq_nil_iff hef).mpr h)
    have hdone : f ∈ (mergeFactors (query.goals.map ofExpr)).reverse ++ [] := by simpa using hf
    exact hsolved.satisfies_createdPoint objects free hdone (hfactor f hf) hne e hef
  · refine .inr ⟨by simp only [hrun], fun σ hσ => hun σ fun e he => hσ e ?_⟩
    refine List.mem_filter.mpr ⟨(hmem e).mp ⟨f, hf, he⟩, decide_eq_true fun h => ?_⟩
    exact hne (((hfactor f hf).arrays_eq_nil_iff he).mp h)

theorem satisfies_goals_iff : Satisfies σ query.goals ↔ Satisfies σ (readingGoals query) ∧
    ∀ e ∈ query.goals, (ofExpr e).arrays = [] → e.Holds σ := by
  constructor
  · intro h
    exact ⟨fun e he => h e (List.mem_of_mem_filter he), fun e he _ => h e he⟩
  · rintro ⟨hreads, hrest⟩ e he
    by_cases hnil : (ofExpr e).arrays = []
    · exact hrest e he hnil
    · exact hreads e (List.mem_filter.mpr ⟨he, decide_eq_true hnil⟩)

/-- A goal that reads nothing has one value. -/
theorem holds_iff_of_arrays_eq_nil {e : Expr} (h : (ofExpr e).arrays = []) (σ τ : Assignment) :
    e.Holds σ ↔ e.Holds τ := by
  have hag : (ofExpr e).Agree σ τ := by
    intro p hp
    exact absurd ⟨p, hp⟩ (arrays_eq_nil_iff.mp h)
  rw [Expr.Holds, Expr.Holds, eval_congr_of_agree hag]

theorem answers_of_skipsOnlyTrue (hquery : query.WellTyped) (hans : query.Answerable)
    (hrange : query.InRange) (hsolver : SolvesFactors solver query) (h : SkipsOnlyTrue query) :
    Answers solver query objects := by
  have hunsat (hun : ∀ σ, ¬ Satisfies σ (readingGoals query)) (σ : Assignment) :
      ¬ query.Solves σ := fun hσ =>
    hun σ (satisfies_goals_iff.mp ((Query.solves_iff_goals hquery hans).mp hσ)).1
  rcases computeInitialValues_spec objects hans hrange hsolver with
    ⟨values, retMap, hrun, hpoint⟩ | ⟨hrun, hun⟩
  · have htrue := h.resolve_right fun hun => hun _ (hpoint fun _ _ => 0).1
    have hsolves (free : Assignment) : query.Solves (createdPoint objects values retMap free) :=
      (Query.solves_iff_goals hquery hans).mpr
        (satisfies_goals_iff.mpr ⟨(hpoint free).1, fun e he hnil => htrue e he hnil _⟩)
    refine ⟨_, hrun, ⟨fun _ => ⟨_, hsolves fun _ _ => 0⟩, fun _ => rfl⟩, ?_⟩
    rintro _ _ ⟨⟩ free
    exact ⟨hsolves free, (hpoint free).2⟩
  · refine ⟨none, hrun, ?_, fun _ _ hnone => by cases hnone⟩
    simp [hunsat hun]

theorem skipsOnlyTrue_of_answers (hquery : query.WellTyped) (hans : query.Answerable)
    (hrange : query.InRange) (hsolver : SolvesFactors solver query)
    (h : Answers solver query objects) : SkipsOnlyTrue query := by
  rcases computeInitialValues_spec objects hans hrange hsolver with
    ⟨values, retMap, hrun, hpoint⟩ | ⟨-, hun⟩
  · obtain ⟨r, hr, -, hsolves⟩ := h
    cases hrun.symm.trans hr
    have hpoint := (hsolves values retMap rfl fun _ _ => 0).1
    rw [Query.solves_iff_goals hquery hans, satisfies_goals_iff] at hpoint
    exact .inl fun e he hnil σ => (holds_iff_of_arrays_eq_nil hnil _ σ).mp (hpoint.2 e he hnil)
  · exact .inr hun

theorem solvesFactors_ideal (query : Query) : SolvesFactors .ideal query :=
  fun _ _ f _ _ => SolverImpl.initialValuesCorrect_ideal _ f.arrays

section ByteTest

variable (a : Array) (v : BitVec 8) (i : BitVec 32)

theorem findReads_byteTest :
    findReads (.eq (.constant ⟨8, v⟩) (.read a .null (.constant ⟨32, i⟩))) true =
      [⟨⟨a, .null⟩, .constant ⟨32, i⟩⟩] := by
  simp [findReads, findReadsLoop, Expr.isConstant, visitExpr, nextExprs, nextUpdates, asRead,
    Expr.kids, UpdateNode.exprs]

theorem allReads_byteTest (h : i.toNat < a.size) :
    (Expr.eq (.constant ⟨8, v⟩) (.read a .null (.constant ⟨32, i⟩))).AllReads
      fun re => (∃ c, re.index = .constant c) ∧ re.InRange := by
  refine ⟨trivial, ⟨⟨_, rfl⟩, fun c hc => ?_⟩, trivial, trivial⟩
  cases hc
  rwa [BitVec.setWidth_eq]

theorem inRange_byteTest (h : i.toNat < a.size) :
    (Expr.eq (.constant ⟨8, v⟩) (.read a .null (.constant ⟨32, i⟩))).AllReads ReadExpr.InRange :=
  (allReads_byteTest a v i h).mono fun _ hr => hr.2

end ByteTest

def constantByte : Array := { CreateCall.oneByte with id := 1 }

/-- `5 == const_arr0[0]`, which is false and has no elements. -/
def falseGoal : Expr := .eq (.constant ⟨8, 5⟩) (.read constantByte .null (.constant ⟨32, 0⟩))

theorem arrays_falseGoal : (ofExpr falseGoal).arrays = [] := by
  rw [ofExpr, falseGoal, findReads_byteTest]
  decide

end Answer

end IndependentSolver

end Klee
