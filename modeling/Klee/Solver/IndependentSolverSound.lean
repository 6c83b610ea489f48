import Klee.Solver.IndependentSolver

/-! Constraints that share no byte with a query can be solved apart from it: solutions are
glued together byte by byte. -/
namespace Klee

namespace IndependentElementSet

variable {ies a b : IndependentElementSet} {e : Expr} {σ τ : Assignment}

/-- The bytes of `σ` where the set covers them, those of `τ` elsewhere. -/
def glue (ies : IndependentElementSet) (σ τ : Assignment) : Assignment := fun a i =>
  if ies.Has (a, i) then σ a i else τ a i

theorem agree_of_symbolic (h : ∀ p : Array × Nat, ies.Has p → p.1.isSymbolicArray = true →
    p.2 < p.1.size → σ p.1 p.2 = τ p.1 p.2) : ies.Agree σ τ := by
  intro p hp
  rw [Array.initial, Array.initial]
  by_cases hc : p.1.isConstantArray = true
  · rw [if_pos hc, if_pos hc]
  · rw [if_neg hc, if_neg hc]
    by_cases hi : p.2 < p.1.size
    · rw [if_pos hi, if_pos hi]
      exact h p hp (by simpa [Array.isConstantArray] using hc) hi
    · rw [if_neg hi, if_neg hi]

theorem Agree.mono (h : b.Agree σ τ) (hab : ∀ p, a.Has p → b.Has p) : a.Agree σ τ :=
  fun p hp => h p (hab p hp)

theorem glue_agree (ies : IndependentElementSet) (σ τ : Assignment) :
    ies.Agree (ies.glue σ τ) σ :=
  agree_of_symbolic fun _ hp _ _ => if_pos hp

def Covers (ies : IndependentElementSet) (e : Expr) : Prop := ∀ p, (ofExpr e).Has p → ies.Has p

def Misses (ies : IndependentElementSet) (e : Expr) : Prop :=
  ∀ p, (ofExpr e).Has p → ¬ ies.Has p

theorem Covers.holds_iff (h : ies.Covers e) (hag : ies.Agree σ τ) :
    e.Holds σ ↔ e.Holds τ := by
  rw [Expr.Holds, Expr.Holds, eval_congr_of_agree (hag.mono h)]

theorem Misses.holds_glue_iff (h : ies.Misses e) : e.Holds (ies.glue σ τ) ↔ e.Holds τ := by
  have hag : (ofExpr e).Agree (ies.glue σ τ) τ :=
    agree_of_symbolic fun p hp _ _ => if_neg (h p hp)
  rw [Expr.Holds, Expr.Holds, eval_congr_of_agree hag]

end IndependentElementSet

open IndependentElementSet

section Closure

variable {K : IndependentElementSet} {worklist result : List Expr}

theorem mem_closeRound (c : Expr) : c ∈ worklist ↔
    c ∈ (closeRound K worklist).2.1 ∨ c ∈ (closeRound K worklist).2.2.1 := by
  induction worklist generalizing K with
  | nil => simp [closeRound]
  | cons c' worklist ih =>
    unfold closeRound
    split
    · rw [List.mem_cons, ih, List.mem_cons, or_assoc]
    · rw [List.mem_cons, ih, List.mem_cons]
      tauto

/-- The closure grows, and covers the constraints that became required. -/
theorem has_closeRound (K : IndependentElementSet) (worklist : List Expr) :
    (∀ p, K.Has p → (closeRound K worklist).1.Has p) ∧
      ∀ c ∈ (closeRound K worklist).2.1, (closeRound K worklist).1.Covers c := by
  induction worklist generalizing K with
  | nil => exact ⟨fun _ hp => hp, fun _ hc => by cases hc⟩
  | cons c' worklist ih =>
    unfold closeRound
    split
    · obtain ⟨hgrow, hcov⟩ := ih (K.add (ofExpr c')).1
      refine ⟨fun p hp => hgrow p (has_add.mpr (.inl hp)), fun c hc => ?_⟩
      rcases List.mem_cons.mp hc with rfl | hc
      · exact fun p hp => hgrow p (has_add.mpr (.inr hp))
      · exact hcov c hc
    · exact ih K

/-- A round without growth leaves the constraints that share nothing with the closure. -/
theorem closeRound_done (h : (closeRound K worklist).2.2.2 = false) :
    (∀ p, (closeRound K worklist).1.Has p → K.Has p) ∧
      ∀ c ∈ (closeRound K worklist).2.2.1, K.Misses c := by
  induction worklist generalizing K with
  | nil => exact ⟨fun _ hp => hp, fun _ hc => by cases hc⟩
  | cons c' worklist ih =>
    unfold closeRound at h ⊢
    split at h
    case isTrue hint =>
      rw [if_pos hint]
      obtain ⟨hadd, hrest⟩ := Bool.or_eq_false_iff.mp h
      have hsame := add_unmodified hadd
      obtain ⟨hclosure, hleft⟩ := ih hrest
      simp only [hsame] at hclosure hleft ⊢
      exact ⟨hclosure, hleft⟩
    case isFalse hint =>
      rw [if_neg hint]
      obtain ⟨hclosure, hleft⟩ := ih h
      refine ⟨hclosure, fun c hc => ?_⟩
      rcases List.mem_cons.mp hc with rfl | hc
      · exact fun p hp => intersects_eq_false (by simpa using hint) hp
      · exact hleft c hc

/-- What the loop ends with: a closure that covers the required constraints and misses all
others. -/
theorem closeLoop_spec (K : IndependentElementSet) (worklist result : List Expr) :
    ∃ K' : IndependentElementSet, (∀ p, K.Has p → K'.Has p) ∧
    (∀ c ∈ closeLoop K worklist result, c ∈ result ∨ (c ∈ worklist ∧ K'.Covers c)) ∧
    (∀ c ∈ result, c ∈ closeLoop K worklist result) ∧
    ∀ c ∈ worklist, c ∈ closeLoop K worklist result ∨ K'.Misses c := by
  induction K, worklist, result using closeLoop.induct with
  | case1 K worklist result r hr ih =>
    rw [closeLoop, if_pos hr]
    obtain ⟨K', hgrow, hreq, hres, hleft⟩ := ih
    obtain ⟨hround, hcov⟩ := has_closeRound K worklist
    refine ⟨K', fun p hp => hgrow p (hround p hp), fun c hc => ?_,
      fun c hc => hres c (List.mem_append_left _ hc), fun c hc => ?_⟩
    · rcases hreq c hc with hc | ⟨hc, hcov'⟩
      · rcases List.mem_append.mp hc with hc | hc
        · exact .inl hc
        · exact .inr ⟨(mem_closeRound c).mpr (.inl hc), fun p hp => hgrow p (hcov c hc p hp)⟩
      · exact .inr ⟨(mem_closeRound c).mpr (.inr hc), hcov'⟩
    · rcases (mem_closeRound (K := K) c).mp hc with hc | hc
      · exact .inl (hres c (List.mem_append_right _ hc))
      · exact hleft c hc
  | case2 K worklist result r hr =>
    rw [closeLoop, if_neg hr]
    obtain ⟨hround, hcov⟩ := has_closeRound K worklist
    obtain ⟨hsame, hleft⟩ := closeRound_done (by simpa using hr)
    refine ⟨r.1, hround, fun c hc => ?_, fun c hc => List.mem_append_left _ hc, fun c hc => ?_⟩
    · rcases List.mem_append.mp hc with hc | hc
      · exact .inl hc
      · exact .inr ⟨(mem_closeRound c).mpr (.inl hc), hcov c hc⟩
    · rcases (mem_closeRound (K := K) c).mp hc with hc | hc
      · exact .inl (List.mem_append_right _ hc)
      · exact .inr fun p hp hp' => hleft c hc p hp (hsame p hp')

/-- The required constraints are constraints, and the rest of them shares no byte with the
closure of the query and the required ones. -/
theorem getIndependentConstraints_spec (query : Query) : ∃ K : IndependentElementSet,
    K.Covers query.expr ∧
    (∀ c ∈ getIndependentConstraints query, c ∈ query.constraints ∧ K.Covers c) ∧
    ∀ c ∈ query.constraints, c ∈ getIndependentConstraints query ∨ K.Misses c := by
  obtain ⟨K, hgrow, hreq, -, hleft⟩ :=
    closeLoop_spec (ofExpr query.expr) query.constraints []
  exact ⟨K, hgrow, fun c hc => (hreq c hc).resolve_left (by simp), hleft⟩

end Closure

namespace IndependentSolver

variable {query : Query}

def required (query : Query) : Query := ⟨getIndependentConstraints query, query.expr⟩

/-- A value that the query has under the required constraints it also has under all, if
these can be satisfied. -/
theorem exists_satisfies_required (hsat : ∃ σ, Satisfies σ query.constraints) (P : Prop → Prop) :
    (∃ σ, Satisfies σ (required query).constraints ∧ P (query.expr.Holds σ)) ↔
      ∃ σ, Satisfies σ query.constraints ∧ P (query.expr.Holds σ) := by
  obtain ⟨K, hquery, hreq, hleft⟩ := getIndependentConstraints_spec query
  constructor
  · rintro ⟨σ, hσ, hP⟩
    obtain ⟨τ, hτ⟩ := hsat
    have hag := K.glue_agree σ τ
    refine ⟨K.glue σ τ, fun c hc => ?_, ?_⟩
    · by_cases hcr : c ∈ getIndependentConstraints query
      · exact ((hreq c hcr).2.holds_iff hag).mpr (hσ c hcr)
      · exact ((hleft c hc).resolve_left hcr).holds_glue_iff.mpr (hτ c hc)
    · rw [propext (hquery.holds_iff hag)]
      exact hP
  · rintro ⟨σ, hσ, hP⟩
    exact ⟨σ, fun c hc => hσ c (hreq c hc).1, hP⟩

theorem valid_required_iff (hsat : ∃ σ, Satisfies σ query.constraints) :
    (required query).Valid ↔ query.Valid := by
  rw [← not_iff_not, Query.not_valid_iff, Query.not_valid_iff]
  exact exists_satisfies_required hsat Not

theorem refuted_required_iff (hsat : ∃ σ, Satisfies σ query.constraints) :
    (required query).Refuted ↔ query.Refuted := by
  rw [← not_iff_not, Query.not_refuted_iff, Query.not_refuted_iff]
  exact exists_satisfies_required hsat id

theorem wellTyped_required (h : query.WellTyped) : (required query).WellTyped := by
  obtain ⟨K, -, hreq, -⟩ := getIndependentConstraints_spec query
  exact ⟨fun c hc => h.1 c (hreq c hc).1, h.2⟩

/-- With a correct solver below, dropping the constraints that are not connected to the
query changes neither answer. -/
theorem truth_and_validity_eq {solver : SolverImpl}
    (htruth : ∀ q : Query, q.WellTyped → solver.TruthCorrect q)
    (hvalidity : ∀ q : Query, q.WellTyped → solver.ValidityCorrect q)
    (hquery : query.WellTyped) (hsat : ∃ σ, Satisfies σ query.constraints) :
    computeTruth solver query = solver.computeTruth query ∧
      computeValidity solver query = solver.computeValidity query := by
  have hreq := wellTyped_required hquery
  have hvalid := valid_required_iff hsat
  constructor
  · exact (htruth _ hreq).eq (htruth query hquery) hvalid
  · exact (hvalidity _ hreq).eq (hvalidity query hquery) hvalid (refuted_required_iff hsat)

theorem truth_and_validity_eq_byteIs :
    computeTruth .ideal ⟨[byteIs 5 0], byteIs 7 1⟩ =
        SolverImpl.ideal.computeTruth ⟨[byteIs 5 0], byteIs 7 1⟩ ∧
      computeValidity .ideal ⟨[byteIs 5 0], byteIs 7 1⟩ =
        SolverImpl.ideal.computeValidity ⟨[byteIs 5 0], byteIs 7 1⟩ := by
  refine truth_and_validity_eq (fun q _ => SolverImpl.truthCorrect_ideal q)
    (fun q _ => SolverImpl.validityCorrect_ideal q) ⟨fun c hc => ?_, isBool_byteIs 7 1⟩
    ⟨fun _ _ => 5, ?_⟩
  · rw [List.mem_singleton.mp hc]
    exact isBool_byteIs 5 0
  · rw [satisfies_singleton]
    decide

end IndependentSolver

end Klee
