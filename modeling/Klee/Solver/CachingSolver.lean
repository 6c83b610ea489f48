import Klee.Solver.TimingSolver
import Klee.Lib.Hoare

/-! `CachingSolver`: a cache of the validity of queries, as far as it is known. A query and its
negation share one entry. -/
namespace Klee

open Hoare

deriving instance DecidableEq for Query

inductive PartialValidity where
  | mustBeTrue
  | mustBeFalse
  | mayBeTrue
  | mayBeFalse
  | trueOrFalse
  | none
deriving DecidableEq, Repr

namespace CachingSolver

inductive CachingFault where
  /-- "invalid partial validity" -/
  | invalidPartialValidity
  /-- "unreachable" -/
  | unreachable
  /-- `cachedResult == IncompleteSolver::MayBeTrue` -/
  | notMayBeTrue
deriving DecidableEq, Repr

abbrev Cache := List (Query × PartialValidity)

abbrev CacheM := StateT Cache (Except CachingFault)

def negatePartialValidity : PartialValidity → CacheM PartialValidity
  | .none => throw .invalidPartialValidity
  | .mustBeTrue => pure .mustBeFalse
  | .mustBeFalse => pure .mustBeTrue
  | .mayBeTrue => pure .mayBeFalse
  | .mayBeFalse => pure .mayBeTrue
  | .trueOrFalse => pure .trueOrFalse

-- `less e e'` is `e.compare(e') < 0`, which depends on hashes and addresses.
variable (less : Expr → Expr → Bool)

def canonicalizeQuery (originalQuery : Expr) : Expr × Bool :=
  let negatedQuery := originalQuery.createIsZero
  if less originalQuery negatedQuery then (originalQuery, false) else (negatedQuery, true)

def restoreNegation (negationUsed : Bool) (pv : PartialValidity) : CacheM PartialValidity :=
  if negationUsed then negatePartialValidity pv else pure pv

def cacheLookup (query : Query) : CacheM (Option PartialValidity) := do
  let cache ← get
  let canonical := canonicalizeQuery less query.expr
  match cache.lookup (query.withExpr canonical.1) with
  | some pv => some <$> restoreNegation canonical.2 pv
  | none => pure none

def cacheInsert (query : Query) (result : PartialValidity) : CacheM Unit := do
  let canonical := canonicalizeQuery less query.expr
  let cachedResult ← restoreNegation canonical.2 result
  modify fun cache =>
    if (cache.lookup (query.withExpr canonical.1)).isSome then cache
    else (query.withExpr canonical.1, cachedResult) :: cache

variable (solver : SolverImpl)

def ofValidity : Validity → PartialValidity
  | .true => .mustBeTrue
  | .false => .mustBeFalse
  | .unknown => .trueOrFalse

/-- `computeValidity` after the lookup. -/
def validityFrom (query : Query) : Option PartialValidity → CacheM (Option Validity)
  | some .mustBeTrue => pure (some .true)
  | some .mustBeFalse => pure (some .false)
  | some .trueOrFalse => pure (some .unknown)
  | some .mayBeTrue =>
    match solver.computeTruth query with
    | none => pure none
    | some true => do
      cacheInsert less query .mustBeTrue
      pure (some .true)
    | some false => do
      cacheInsert less query .trueOrFalse
      pure (some .unknown)
  | some .mayBeFalse =>
    match solver.computeTruth query.negateExpr with
    | none => pure none
    | some true => do
      cacheInsert less query .mustBeFalse
      pure (some .false)
    | some false => do
      cacheInsert less query .trueOrFalse
      pure (some .unknown)
  | some .none => throw .unreachable
  | none =>
    match solver.computeValidity query with
    | none => pure none
    | some result => do
      cacheInsert less query (ofValidity result)
      pure (some result)

def computeValidity (query : Query) : CacheM (Option Validity) := do
  let cached ← cacheLookup less query
  validityFrom less solver query cached

def truthResult (cached : Option PartialValidity) : Bool → CacheM PartialValidity
  | true => pure .mustBeTrue
  | false =>
    match cached with
    | some .mayBeTrue => pure .trueOrFalse
    | some _ => throw .notMayBeTrue
    | none => pure .mayBeFalse

/-- `computeTruth` after the lookup. -/
def truthFrom (query : Query) (cached : Option PartialValidity) : CacheM (Option Bool) :=
  if cached ≠ none ∧ cached ≠ some .mayBeTrue then pure (some (cached == some .mustBeTrue))
  else
    match solver.computeTruth query with
    | none => pure none
    | some isValid => do
      let result ← truthResult cached isValid
      cacheInsert less query result
      pure (some isValid)

def computeTruth (query : Query) : CacheM (Option Bool) := do
  let cached ← cacheLookup less query
  truthFrom less solver query cached

end CachingSolver

/-- The validity of the query is `v`. -/
def Validity.IsOf (q : Query) : Validity → Prop
  | .true => q.Valid
  | .false => ¬ q.Valid ∧ q.Refuted
  | .unknown => ¬ q.Valid ∧ ¬ q.Refuted

def PartialValidity.Bounds (q : Query) : PartialValidity → Prop
  | .mustBeTrue => q.Valid
  | .mustBeFalse => q.Refuted
  | .mayBeTrue => ¬ q.Refuted
  | .mayBeFalse => ¬ q.Valid
  | .trueOrFalse => ¬ q.Valid ∧ ¬ q.Refuted
  | .none => False

structure SolverImpl.Sound (s : SolverImpl) : Prop where
  truth : ∀ q : Query, q.WellTyped → ∀ b, s.computeTruth q = some b → (b = true ↔ q.Valid)
  validity : ∀ q : Query, q.WellTyped → ∀ v, s.computeValidity q = some v → v.IsOf q

namespace Query

variable {q : Query}

theorem wellTyped_negateExpr (hq : q.WellTyped) : q.negateExpr.WellTyped :=
  ⟨hq.1, TimingSolver.isBool_createIsZero hq.2⟩

theorem valid_negateExpr (hq : q.WellTyped) : q.negateExpr.Valid ↔ q.Refuted :=
  forall_congr' fun _ => imp_congr_right fun _ => TimingSolver.holds_createIsZero hq.2

theorem refuted_negateExpr (hq : q.WellTyped) : q.negateExpr.Refuted ↔ q.Valid :=
  forall_congr' fun _ => imp_congr_right fun _ =>
    (not_congr (TimingSolver.holds_createIsZero hq.2)).trans not_not

/-- With satisfiable constraints no query is valid and refuted. -/
theorem not_valid_of_refuted (hsat : ∃ σ, Satisfies σ q.constraints) (hr : q.Refuted) :
    ¬ q.Valid := by
  obtain ⟨σ, hσ⟩ := hsat
  exact fun hv => hr σ hσ (hv σ hσ)

theorem valid_of_unsat (hunsat : ¬ ∃ σ, Satisfies σ q.constraints) : q.Valid :=
  fun σ hσ => absurd ⟨σ, hσ⟩ hunsat

end Query

namespace CachingSolver

variable {less : Expr → Expr → Bool} {solver : SolverImpl} {cache cache' : Cache} {q : Query}
variable {pv : PartialValidity} {E : CachingFault → Prop}

def Right (cache : Cache) : Prop := ∀ entry ∈ cache, entry.2.Bounds entry.1

/-- The negated bound is one for the negated query, and back. -/
theorem wp_restoreNegation {negationUsed : Bool} {r : Query} {Q : PartialValidity → Cache → Prop}
    (hpv : pv.Bounds r) (hnot : negationUsed = false → r = q)
    (hneg : negationUsed = true → (r.Valid ↔ q.Refuted) ∧ (r.Refuted ↔ q.Valid))
    (hQ : ∀ pv', pv'.Bounds q → Q pv' cache) :
    wp (restoreNegation negationUsed pv) Q E cache := by
  unfold restoreNegation
  cases negationUsed with
  | false =>
    obtain rfl := hnot rfl
    exact hQ pv hpv
  | true =>
    obtain ⟨hvalid, hrefuted⟩ := hneg rfl
    cases pv with
    | mustBeTrue => exact hQ .mustBeFalse (hvalid.mp hpv)
    | mustBeFalse => exact hQ .mustBeTrue (hrefuted.mp hpv)
    | mayBeTrue => exact hQ .mayBeFalse fun hv => hpv (hrefuted.mpr hv)
    | mayBeFalse => exact hQ .mayBeTrue fun hr => hpv (hvalid.mpr hr)
    | trueOrFalse =>
      exact hQ .trueOrFalse ⟨fun hv => hpv.2 (hrefuted.mpr hv), fun hr => hpv.1 (hvalid.mpr hr)⟩
    | none => exact hpv.elim

/-- The canonical query is the query or its negation. -/
theorem canonical_cases (less : Expr → Expr → Bool) (q : Query) :
    (canonicalizeQuery less q.expr).2 = false ∧
        q.withExpr (canonicalizeQuery less q.expr).1 = q ∨
      (canonicalizeQuery less q.expr).2 = true ∧
        q.withExpr (canonicalizeQuery less q.expr).1 = q.negateExpr := by
  unfold canonicalizeQuery
  dsimp only
  by_cases hless : less q.expr q.expr.createIsZero = true
  · rw [if_pos hless]
    exact .inl ⟨rfl, rfl⟩
  · rw [if_neg hless]
    exact .inr ⟨rfl, rfl⟩

theorem wp_cacheLookup (hcache : Right cache) (hq : q.WellTyped)
    {Q : Option PartialValidity → Cache → Prop} (hnone : Q none cache)
    (hsome : ∀ pv, pv.Bounds q → Q (some pv) cache) :
    wp (cacheLookup less q) Q E cache := by
  unfold cacheLookup
  rw [wp_bind, wp_get]
  dsimp only
  cases hfound : cache.lookup (q.withExpr (canonicalizeQuery less q.expr).1) with
  | none => exact hnone
  | some pv =>
    obtain ⟨before, after, hsplit, -⟩ := List.lookup_eq_some_iff.mp hfound
    have hmem : (q.withExpr (canonicalizeQuery less q.expr).1, pv) ∈ cache := by
      rw [hsplit]
      exact List.mem_append_right _ List.mem_cons_self
    dsimp only
    rw [wp_map]
    refine wp_restoreNegation (hcache _ hmem) (fun hfalse => ?_) (fun htrue => ?_) hsome
    · cases canonical_cases less q with
      | inl h => exact h.2
      | inr h => exact absurd (hfalse.symm.trans h.1) Bool.false_ne_true
    · cases canonical_cases less q with
      | inl h => exact absurd (h.1.symm.trans htrue) Bool.false_ne_true
      | inr h =>
        dsimp only
        rw [h.2]
        exact ⟨Query.valid_negateExpr hq, Query.refuted_negateExpr hq⟩

theorem wp_cacheInsert (hcache : Right cache) (hq : q.WellTyped) (hpv : pv.Bounds q)
    {Q : Unit → Cache → Prop} (hQ : ∀ cache', Right cache' → Q () cache') :
    wp (cacheInsert less q pv) Q E cache := by
  unfold cacheInsert
  rw [wp_bind]
  have hins (pv' : PartialValidity) (r : Query) (hpv' : pv'.Bounds r) :
      Right (if (cache.lookup r).isSome then cache else (r, pv') :: cache) := by
    by_cases hfound : (cache.lookup r).isSome
    · rwa [if_pos hfound]
    · rw [if_neg hfound]
      exact List.forall_mem_cons.mpr ⟨hpv', hcache⟩
  cases canonical_cases less q with
  | inl h =>
    refine wp_restoreNegation hpv (fun _ => h.2.symm) (fun htrue => ?_) fun pv' hpv' =>
      wp_modify.mpr (hQ _ (hins pv' _ hpv'))
    exact absurd (h.1.symm.trans htrue) Bool.false_ne_true
  | inr h =>
    refine wp_restoreNegation (q := q.negateExpr) hpv (fun hfalse => ?_) (fun _ => ?_)
      fun pv' hpv' => wp_modify.mpr (hQ _ (hins pv' _ (h.2 ▸ hpv')))
    · exact absurd (hfalse.symm.trans h.1) Bool.false_ne_true
    · exact ⟨(Query.refuted_negateExpr hq).symm, (Query.valid_negateExpr hq).symm⟩

theorem exists_cacheLookup (less : Expr → Expr → Bool) (hcache : Right cache) (hq : q.WellTyped) :
    ∃ r, cacheLookup less q cache = .ok (r, cache) ∧ ∀ pv, r = some pv → pv.Bounds q := by
  have hwp : wp (cacheLookup less q) (fun r c => c = cache ∧ ∀ pv, r = some pv → pv.Bounds q)
      (fun _ => False) cache := by
    refine wp_cacheLookup hcache hq ⟨rfl, fun pv h => by cases h⟩ fun pv hpv => ⟨rfl, ?_⟩
    intro pv' heq
    obtain rfl := Option.some.inj heq
    exact hpv
  obtain ⟨r, c, hr, rfl, hbounds⟩ := exists_ok_of_wp hwp
  exact ⟨r, hr, hbounds⟩

section Truth

/-- An answer that says whether the query is valid, or a failure of the solver. -/
def TruthAnswer (solver : SolverImpl) (q : Query) (r : Option Bool) : Prop :=
  (∀ b, r = some b → (b = true ↔ q.Valid)) ∧ (r = none → solver.computeTruth q = none)

theorem truthAnswer_some {b : Bool} (hb : b = true ↔ q.Valid) : TruthAnswer solver q (some b) := by
  refine ⟨fun b' heq => ?_, fun h => by cases h⟩
  obtain rfl := Option.some.inj heq
  exact hb

theorem truthAnswer_none (h : solver.computeTruth q = none) : TruthAnswer solver q none :=
  ⟨fun _ heq => (nomatch heq), fun _ => h⟩

/-- The result of the solver is stored, and with it what was known before. -/
theorem wp_truthResult {r : Option PartialValidity} {b : Bool}
    (hr : r = none ∨ r = some .mayBeTrue) (hbounds : ∀ pv, r = some pv → pv.Bounds q)
    (hb : b = true ↔ q.Valid) {Q : PartialValidity → Cache → Prop}
    (hQ : ∀ pv, pv.Bounds q → Q pv cache) : wp (truthResult r b) Q E cache := by
  cases b with
  | true => exact hQ .mustBeTrue (hb.mp rfl)
  | false =>
    have hnot : ¬ q.Valid := fun hv => Bool.false_ne_true (hb.mpr hv)
    cases hr with
    | inl hnone =>
      subst hnone
      exact hQ .mayBeFalse hnot
    | inr hmay =>
      subst hmay
      exact hQ .trueOrFalse ⟨hnot, hbounds .mayBeTrue rfl⟩

theorem wp_truthFrom {r : Option PartialValidity} (hs : solver.Sound) (hcache : Right cache)
    (hq : q.WellTyped) (hbounds : ∀ pv, r = some pv → pv.Bounds q) (hne : r ≠ some .mustBeFalse) :
    wp (truthFrom less solver q r) (fun b cache' => Right cache' ∧ TruthAnswer solver q b) E
      cache := by
  unfold truthFrom
  by_cases hknown : r ≠ none ∧ r ≠ some .mayBeTrue
  · rw [if_pos hknown]
    refine wp_pure.mpr ⟨hcache, truthAnswer_some ?_⟩
    cases r with
    | none => exact absurd rfl hknown.1
    | some pv =>
      have hpv := hbounds pv rfl
      cases pv with
      | mustBeTrue => exact iff_of_true rfl hpv
      | mustBeFalse => exact absurd rfl hne
      | mayBeTrue => exact absurd rfl hknown.2
      | mayBeFalse => exact iff_of_false Bool.false_ne_true hpv
      | trueOrFalse => exact iff_of_false Bool.false_ne_true hpv.1
      | none => exact hpv.elim
  · rw [if_neg hknown]
    have hr : r = none ∨ r = some .mayBeTrue := by
      by_cases hnone : r = none
      · exact .inl hnone
      · exact .inr (by_contra fun hmay => hknown ⟨hnone, hmay⟩)
    cases hsolver : solver.computeTruth q with
    | none => exact wp_pure.mpr ⟨hcache, truthAnswer_none hsolver⟩
    | some b =>
      have hb := hs.truth q hq b hsolver
      dsimp only
      rw [wp_bind]
      refine wp_truthResult hr hbounds hb fun pv hpv => ?_
      rw [wp_bind]
      exact wp_cacheInsert hcache hq hpv fun cache' hcache' => ⟨hcache', truthAnswer_some hb⟩

/-- What `computeTruth` gives back for an entry that refutes the query. -/
theorem truthFrom_mustBeFalse :
    truthFrom less solver q (some .mustBeFalse) cache = .ok (some false, cache) := rfl

end Truth

section Validity

/-- An answer that is the validity of the query, or a failure of the solver. -/
def ValidityAnswer (solver : SolverImpl) (q : Query) (r : Option Validity) : Prop :=
  (∀ v, r = some v → v.IsOf q) ∧ (r = none → solver.computeValidity q = none ∨
    solver.computeTruth q = none ∨ solver.computeTruth q.negateExpr = none)

theorem validityAnswer_some {v : Validity} (hv : v.IsOf q) :
    ValidityAnswer solver q (some v) := by
  refine ⟨fun v' heq => ?_, fun h => by cases h⟩
  obtain rfl := Option.some.inj heq
  exact hv

theorem validityAnswer_none (h : solver.computeValidity q = none ∨
    solver.computeTruth q = none ∨ solver.computeTruth q.negateExpr = none) :
    ValidityAnswer solver q none :=
  ⟨fun _ heq => (nomatch heq), fun _ => h⟩

/-- An answer is stored and given back. -/
theorem wp_insertValidity {v : Validity} (hcache : Right cache) (hq : q.WellTyped)
    (hpv : pv.Bounds q) (hv : v.IsOf q) :
    wp (do cacheInsert less q pv; pure (some v))
      (fun v cache' => Right cache' ∧ ValidityAnswer solver q v) E cache := by
  rw [wp_bind]
  exact wp_cacheInsert hcache hq hpv fun cache' hcache' => ⟨hcache', validityAnswer_some hv⟩

theorem bounds_ofValidity {v : Validity} (hv : v.IsOf q) : (ofValidity v).Bounds q := by
  cases v with
  | true => exact hv
  | false => exact hv.2
  | unknown => exact hv

theorem wp_validityFrom {r : Option PartialValidity} (hs : solver.Sound) (hcache : Right cache)
    (hq : q.WellTyped) (hbounds : ∀ pv, r = some pv → pv.Bounds q) (hne : r ≠ some .mustBeFalse) :
    wp (validityFrom less solver q r) (fun v cache' => Right cache' ∧ ValidityAnswer solver q v) E
      cache := by
  cases r with
  | none =>
    unfold validityFrom
    cases hsolver : solver.computeValidity q with
    | none => exact wp_pure.mpr ⟨hcache, validityAnswer_none (.inl hsolver)⟩
    | some v =>
      have hv := hs.validity q hq v hsolver
      exact wp_insertValidity hcache hq (bounds_ofValidity hv) hv
  | some pv =>
    have hpv := hbounds pv rfl
    cases pv with
    | mustBeTrue => exact wp_pure.mpr ⟨hcache, validityAnswer_some hpv⟩
    | mustBeFalse => exact absurd rfl hne
    | trueOrFalse => exact wp_pure.mpr ⟨hcache, validityAnswer_some hpv⟩
    | none => exact hpv.elim
    | mayBeTrue =>
      unfold validityFrom
      cases hsolver : solver.computeTruth q with
      | none => exact wp_pure.mpr ⟨hcache, validityAnswer_none (.inr (.inl hsolver))⟩
      | some b =>
        have hb := hs.truth q hq b hsolver
        cases b with
        | true =>
          have hv : q.Valid := hb.mp rfl
          exact wp_insertValidity hcache hq hv hv
        | false =>
          have hv : ¬ q.Valid := fun hv => Bool.false_ne_true (hb.mpr hv)
          exact wp_insertValidity hcache hq ⟨hv, hpv⟩ ⟨hv, hpv⟩
    | mayBeFalse =>
      unfold validityFrom
      cases hsolver : solver.computeTruth q.negateExpr with
      | none => exact wp_pure.mpr ⟨hcache, validityAnswer_none (.inr (.inr hsolver))⟩
      | some b =>
        have hb := hs.truth q.negateExpr (Query.wellTyped_negateExpr hq) b hsolver
        rw [Query.valid_negateExpr hq] at hb
        cases b with
        | true =>
          have hr : q.Refuted := hb.mp rfl
          exact wp_insertValidity hcache hq hr ⟨hpv, hr⟩
        | false =>
          have hr : ¬ q.Refuted := fun hr => Bool.false_ne_true (hb.mpr hr)
          exact wp_insertValidity hcache hq ⟨hpv, hr⟩ ⟨hpv, hr⟩

end Validity

section Run

variable (less)

/-- The caches that queries leave behind, each with a solver that may fail but does not lie. -/
inductive Run : Cache → Prop
  | empty : Run []
  | truth {cache cache' : Cache} {solver : SolverImpl} {q : Query} {r : Option Bool}
      (h : Run cache) (hs : solver.Sound) (hq : q.WellTyped)
      (hrun : computeTruth less solver q cache = .ok (r, cache')) : Run cache'
  | validity {cache cache' : Cache} {solver : SolverImpl} {q : Query} {r : Option Validity}
      (h : Run cache) (hs : solver.Sound) (hq : q.WellTyped)
      (hrun : computeValidity less solver q cache = .ok (r, cache')) : Run cache'

variable {less}

theorem wp_computeTruth (hs : solver.Sound) (hcache : Right cache) (hq : q.WellTyped) :
    wp (computeTruth less solver q) (fun _ cache' => Right cache') E cache := by
  obtain ⟨r, hr, hbounds⟩ := exists_cacheLookup less hcache hq
  refine wp_bind.mpr ((wp_iff_of_ok hr).mpr ?_)
  by_cases hne : r = some .mustBeFalse
  · subst hne
    exact (wp_iff_of_ok truthFrom_mustBeFalse).mpr hcache
  · exact wp_post (wp_truthFrom hs hcache hq hbounds hne) fun _ _ h => h.1

theorem wp_computeValidity (hs : solver.Sound) (hcache : Right cache) (hq : q.WellTyped) :
    wp (computeValidity less solver q) (fun _ cache' => Right cache') E cache := by
  obtain ⟨r, hr, hbounds⟩ := exists_cacheLookup less hcache hq
  refine wp_bind.mpr ((wp_iff_of_ok hr).mpr ?_)
  by_cases hne : r = some .mustBeFalse
  · subst hne
    exact wp_pure.mpr hcache
  · exact wp_post (wp_validityFrom hs hcache hq hbounds hne) fun _ _ h => h.1

theorem Run.right (h : Run less cache) : Right cache := by
  induction h with
  | empty => exact fun _ h => absurd h List.not_mem_nil
  | truth _ hs hq hrun ih => exact wp_ok (E := fun _ => True) (wp_computeTruth hs ih hq) hrun
  | validity _ hs hq hrun ih => exact wp_ok (E := fun _ => True) (wp_computeValidity hs ih hq) hrun

/-- The constraints are satisfiable, or the cache does not refute the query. -/
def Consistent (less : Expr → Expr → Bool) (cache : Cache) (q : Query) : Prop :=
  (∃ σ, Satisfies σ q.constraints) ∨
    cacheLookup less q cache ≠ .ok (some .mustBeFalse, cache)

/-- In every cache reached every entry bounds the validity of its query, and the answers to the
next query are right exactly when it is consistent with the cache. -/
theorem caching_correct_iff_consistent (hrun : Run less cache) (hs : solver.Sound)
    (hq : q.WellTyped) : Right cache ∧
      (wp (computeTruth less solver q) (fun r _ => TruthAnswer solver q r) (fun _ => False) cache ↔
        Consistent less cache q) ∧
      (wp (computeValidity less solver q) (fun r _ => ValidityAnswer solver q r) (fun _ => False)
        cache ↔ Consistent less cache q) := by
  have hcache := hrun.right
  obtain ⟨r, hr, hbounds⟩ := exists_cacheLookup less hcache hq
  refine ⟨hcache, ?_⟩
  have htruth := wp_bind.trans (wp_iff_of_ok hr (Q := fun r => wp (truthFrom less solver q r)
    (fun r _ => TruthAnswer solver q r) fun _ => False) (E := fun _ => False))
  have hvalidity := wp_bind.trans (wp_iff_of_ok hr (Q := fun r => wp (validityFrom less solver q r)
    (fun r _ => ValidityAnswer solver q r) fun _ => False) (E := fun _ => False))
  have hcons : Consistent less cache q ↔
      (∃ σ, Satisfies σ q.constraints) ∨ r ≠ some .mustBeFalse := by
    rw [Consistent, hr]
    refine or_congr_right (not_congr ⟨fun h => ?_, fun h => by rw [h]⟩)
    exact congrArg Prod.fst (Except.ok.inj h)
  by_cases hne : r = some .mustBeFalse
  · subst hne
    have hrefuted : q.Refuted := hbounds .mustBeFalse rfl
    -- the answers are `false`
    have hiff : ¬ q.Valid ↔ Consistent less cache q := by
      rw [hcons]
      constructor
      · intro hv
        exact .inl (by_contra fun hunsat => hv (Query.valid_of_unsat hunsat))
      · intro hc
        exact Query.not_valid_of_refuted (hc.resolve_right fun h => h rfl) hrefuted
    constructor
    · refine htruth.trans ((wp_iff_of_ok truthFrom_mustBeFalse).trans (Iff.trans ?_ hiff))
      constructor
      · exact fun h hv => Bool.false_ne_true ((h.1 false rfl).mpr hv)
      · exact fun hv => truthAnswer_some (iff_of_false Bool.false_ne_true hv)
    · refine hvalidity.trans (wp_pure.trans (Iff.trans ?_ hiff))
      constructor
      · exact fun h => (h.1 .false rfl).1
      · exact fun hv => validityAnswer_some ⟨hv, hrefuted⟩
  · have hcons' : Consistent less cache q := hcons.mpr (.inr hne)
    refine ⟨iff_of_true (htruth.mpr ?_) hcons', iff_of_true (hvalidity.mpr ?_) hcons'⟩
    · exact wp_post (wp_truthFrom hs hcache hq hbounds hne) fun _ _ h => h.2
    · exact wp_post (wp_validityFrom hs hcache hq hbounds hne) fun _ _ h => h.2

end Run

section Inconsistent

/-- `x[0] == 7` under constraints that contradict each other. -/
def contradicted : Query := ⟨[byteIs 5 0, byteIs 6 0], byteIs 7 0⟩

theorem wellTyped_contradicted : contradicted.WellTyped := by
  refine ⟨fun c hc => ?_, isBool_byteIs 7 0⟩
  have hc : c = byteIs 5 0 ∨ c = byteIs 6 0 := by simpa [contradicted] using hc
  cases hc with
  | inl h => exact h ▸ isBool_byteIs 5 0
  | inr h => exact h ▸ isBool_byteIs 6 0

theorem holds_byteIs {σ : Assignment} {v : BitVec 8} :
    (byteIs v 0).Holds σ ↔ v = σ twoBytes 0 := by
  unfold byteIs
  have hinitial : twoBytes.initial σ 0 = σ twoBytes 0 := rfl
  rw [Expr.holds_eq_iff]
  simp [Expr.eval, Expr.width, UpdateNode.eval, hinitial]

theorem not_satisfies_contradicted : ¬ ∃ σ, Satisfies σ contradicted.constraints := by
  rintro ⟨σ, hσ⟩
  have h5 := holds_byteIs.mp (hσ (byteIs 5 0) List.mem_cons_self)
  have h6 := holds_byteIs.mp (hσ (byteIs 6 0) (List.mem_cons_of_mem _ List.mem_cons_self))
  exact absurd (h5.trans h6.symm) (by decide)

def only (q : Query) : SolverImpl where
  computeTruth q' := if q' = q then some true else none
  computeValidity _ := none
  computeInitialValues _ _ := none

theorem sound_only (hq : q.Valid) : (only q).Sound where
  truth q' _ b hb := by
    have hb : (if q' = q then some true else none) = some b := hb
    by_cases heq : q' = q
    · rw [if_pos heq] at hb
      obtain rfl := Option.some.inj hb
      exact iff_of_true rfl (heq ▸ hq)
    · rw [if_neg heq] at hb
      cases hb
  validity _ _ _ hv := nomatch hv

/-- The order takes `x[0] == 7` for its negation. -/
def sevenFirst (e _ : Expr) : Bool := e = byteIs 7 0

/-- The cache after the query. -/
theorem run_contradicted : Run sevenFirst [(contradicted, .mustBeTrue)] := by
  have hvalid := Query.valid_of_unsat not_satisfies_contradicted
  exact Run.truth (r := some true) .empty (sound_only hvalid) wellTyped_contradicted rfl

theorem caching_correct_iff_consistent_contradicted : Right [(contradicted, .mustBeTrue)] ∧
    (wp (computeTruth sevenFirst (only contradicted) contradicted)
      (fun r _ => TruthAnswer (only contradicted) contradicted r) (fun _ => False)
        [(contradicted, .mustBeTrue)] ↔
      Consistent sevenFirst [(contradicted, .mustBeTrue)] contradicted) ∧
    (wp (computeValidity sevenFirst (only contradicted) contradicted)
      (fun r _ => ValidityAnswer (only contradicted) contradicted r) (fun _ => False)
        [(contradicted, .mustBeTrue)] ↔
      Consistent sevenFirst [(contradicted, .mustBeTrue)] contradicted) :=
  caching_correct_iff_consistent run_contradicted
    (sound_only (Query.valid_of_unsat not_satisfies_contradicted)) wellTyped_contradicted

/-- The query and then its negation: both are valid, and the second is answered with false. -/
theorem not_caching_correct : ¬ ∀ (less : Expr → Expr → Bool) (cache : Cache)
    (solver : SolverImpl) (q : Query), Run less cache → solver.Sound → q.WellTyped →
      wp (computeTruth less solver q) (fun r _ => TruthAnswer solver q r) (fun _ => False)
        cache := by
  intro hall
  have hvalid := Query.valid_of_unsat not_satisfies_contradicted
  have hanswer := hall sevenFirst _ (only contradicted) contradicted.negateExpr run_contradicted
    (sound_only hvalid) (Query.wellTyped_negateExpr wellTyped_contradicted)
  have hfalse : computeTruth sevenFirst (only contradicted) contradicted.negateExpr
      [(contradicted, .mustBeTrue)] = .ok (some false, [(contradicted, .mustBeTrue)]) := by
    rfl
  have htruth := ((wp_iff_of_ok hfalse).mp hanswer).1 false rfl
  have hneg : contradicted.negateExpr.Valid := Query.valid_of_unsat not_satisfies_contradicted
  exact Bool.false_ne_true (htruth.mpr hneg)

end Inconsistent

end CachingSolver

end Klee
