import Klee.Expr.CompareMemo
import Klee.Solver.CanonicalQuery

/-! What `CachingSolver` asks again. An entry is written once: a call that refines a partial
entry learns the validity of the query and does not store it. -/
namespace Klee.CachingSolver

open Hoare

section Calls

variable (less : Expr → Expr → Bool) (solver : SolverImpl)

inductive Call where
  | truth (q : Query)
  | validity (q : Query)

def Call.query : Call → Query
  | .truth q => q
  | .validity q => q

def Call.perform : Call → CacheM (Option (Bool ⊕ Validity))
  | .truth q => Option.map .inl <$> computeTruth less solver q
  | .validity q => Option.map .inr <$> computeValidity less solver q

/-- The call has an answer that does not depend on the solver, which may as well fail. -/
def Call.FromCache (cache : Cache) (call : Call) : Prop :=
  ∃ a, ∀ solver, call.perform less solver cache = .ok (some a, cache)

def Call.Refines (cache : Cache) : Call → Prop
  | .truth q => cacheLookup less q cache = .ok (some .mayBeTrue, cache)
  | .validity q => cacheLookup less q cache = .ok (some .mayBeTrue, cache) ∨
      cacheLookup less q cache = .ok (some .mayBeFalse, cache)

/-- After the call the validity of the query is known: a validity, or the truth of a query with
an entry that it refines. -/
def Call.Decides (cache : Cache) : Call → Prop
  | .truth q => (Call.truth q).Refines less cache
  | .validity _ => True

end Calls

section Entries

variable {less : Expr → Expr → Bool} {solver : SolverImpl} {cache cache' : Cache} {q : Query}
variable {pv : PartialValidity} {call : Call} {a : Bool ⊕ Validity}

def key (less : Expr → Expr → Bool) (q : Query) : Query :=
  q.withExpr (canonicalizeQuery less q.expr).1

def Complete (pv : PartialValidity) : Prop :=
  pv = .mustBeTrue ∨ pv = .mustBeFalse ∨ pv = .trueOrFalse

def Incomplete (pv : PartialValidity) : Prop := pv = .mayBeTrue ∨ pv = .mayBeFalse

def Proper (cache : Cache) : Prop :=
  ∀ k pv, cache.lookup k = some pv → Complete pv ∨ Incomplete pv

theorem restoreNegation_complete (negationUsed : Bool) (h : Complete pv) :
    ∃ pv', Complete pv' ∧ ∀ cache, restoreNegation negationUsed pv cache = .ok (pv', cache) := by
  cases negationUsed with
  | false => exact ⟨pv, h, fun _ => rfl⟩
  | true =>
    obtain rfl | rfl | rfl := h
    · exact ⟨.mustBeFalse, .inr (.inl rfl), fun _ => rfl⟩
    · exact ⟨.mustBeTrue, .inl rfl, fun _ => rfl⟩
    · exact ⟨.trueOrFalse, .inr (.inr rfl), fun _ => rfl⟩

theorem restoreNegation_incomplete (negationUsed : Bool) (h : Incomplete pv) :
    ∃ pv', Incomplete pv' ∧ ∀ cache, restoreNegation negationUsed pv cache = .ok (pv', cache) := by
  cases negationUsed with
  | false => exact ⟨pv, h, fun _ => rfl⟩
  | true =>
    obtain rfl | rfl := h
    · exact ⟨.mayBeFalse, .inr rfl, fun _ => rfl⟩
    · exact ⟨.mayBeTrue, .inl rfl, fun _ => rfl⟩

theorem cacheLookup_none (h : cache.lookup (key less q) = none) :
    cacheLookup less q cache = .ok (none, cache) := by
  unfold cacheLookup
  refine (run_bind_of_ok rfl).trans ?_
  rw [key] at h
  rw [h]
  rfl

theorem cacheLookup_some {pv' : PartialValidity} (h : cache.lookup (key less q) = some pv)
    (hpv : restoreNegation (canonicalizeQuery less q.expr).2 pv cache = .ok (pv', cache)) :
    cacheLookup less q cache = .ok (some pv', cache) := by
  unfold cacheLookup
  refine (run_bind_of_ok rfl).trans ?_
  rw [key] at h
  rw [h]
  exact run_map_of_ok hpv

/-- Inserting stores what the canonical query has, unless there is an entry. -/
theorem cacheInsert_run {pv' : PartialValidity}
    (hpv : restoreNegation (canonicalizeQuery less q.expr).2 pv cache = .ok (pv', cache)) :
    cacheInsert less q pv cache = .ok ((),
      if (cache.lookup (key less q)).isSome then cache else (key less q, pv') :: cache) := by
  unfold cacheInsert
  exact (run_bind_of_ok hpv).trans rfl

theorem cacheInsert_found (hpv : pv ≠ .none) (h : (cache.lookup (key less q)).isSome) :
    cacheInsert less q pv cache = .ok ((), cache) := by
  have hrestore : ∃ pv', restoreNegation (canonicalizeQuery less q.expr).2 pv cache =
      .ok (pv', cache) := by
    unfold restoreNegation
    cases (canonicalizeQuery less q.expr).2 with
    | false => exact ⟨pv, rfl⟩
    | true => cases pv with
      | none => exact absurd rfl hpv
      | _ => exact ⟨_, rfl⟩
  obtain ⟨pv', hpv'⟩ := hrestore
  rw [cacheInsert_run hpv', if_pos h]

theorem perform_truth {r : Option PartialValidity} (h : cacheLookup less q cache = .ok (r, cache)) :
    (Call.truth q).perform less solver cache =
      (Option.map .inl <$> truthFrom less solver q r : CacheM (Option (Bool ⊕ Validity))) cache := by
  change (Option.map _ <$> computeTruth less solver q : CacheM _) cache = _
  unfold computeTruth
  rw [map_bind]
  exact run_bind_of_ok h

theorem perform_validity {r : Option PartialValidity}
    (h : cacheLookup less q cache = .ok (r, cache)) :
    (Call.validity q).perform less solver cache =
      (Option.map .inr <$> validityFrom less solver q r : CacheM (Option (Bool ⊕ Validity)))
        cache := by
  change (Option.map _ <$> computeValidity less solver q : CacheM _) cache = _
  unfold computeValidity
  rw [map_bind]
  exact run_bind_of_ok h

/-- A complete entry answers both calls. -/
theorem fromCache_of_complete (h : cache.lookup (key less q) = some pv) (hpv : Complete pv) :
    (Call.truth q).FromCache less cache ∧ (Call.validity q).FromCache less cache := by
  obtain ⟨pv', hpv', hrestore⟩ :=
    restoreNegation_complete (canonicalizeQuery less q.expr).2 hpv
  have hlookup := cacheLookup_some h (hrestore cache)
  constructor
  · refine ⟨.inl (pv' == .mustBeTrue), fun solver => ?_⟩
    rw [perform_truth hlookup]
    obtain rfl | rfl | rfl := hpv' <;> rfl
  · obtain rfl | rfl | rfl := hpv'
    · exact ⟨.inr .true, fun solver => by rw [perform_validity hlookup]; rfl⟩
    · exact ⟨.inr .false, fun solver => by rw [perform_validity hlookup]; rfl⟩
    · exact ⟨.inr .unknown, fun solver => by rw [perform_validity hlookup]; rfl⟩

/-- With an incomplete entry the validity has to be asked for. -/
theorem not_fromCache_of_incomplete (h : cache.lookup (key less q) = some pv)
    (hpv : Incomplete pv) : ¬ (Call.validity q).FromCache less cache := by
  rintro ⟨a, ha⟩
  obtain ⟨pv', hpv', hrestore⟩ :=
    restoreNegation_incomplete (canonicalizeQuery less q.expr).2 hpv
  have hlookup := cacheLookup_some h (hrestore cache)
  have hfail := ha ⟨fun _ => none, fun _ => none, fun _ _ => none⟩
  rw [perform_validity hlookup] at hfail
  obtain rfl | rfl := hpv' <;> cases hfail

theorem Call.Refines.incomplete (h : call.Refines less cache) (hcache : Proper cache) :
    ∃ pv, Incomplete pv ∧ cache.lookup (key less call.query) = some pv := by
  have hfound : ∃ pv', Incomplete pv' ∧
      cacheLookup less call.query cache = .ok (some pv', cache) := by
    cases call with
    | truth q => exact ⟨.mayBeTrue, .inl rfl, h⟩
    | validity q => exact h.elim (fun h => ⟨_, .inl rfl, h⟩) fun h => ⟨_, .inr rfl, h⟩
  obtain ⟨pv', hpv', hlookup⟩ := hfound
  cases hentry : cache.lookup (key less call.query) with
  | none =>
    rw [cacheLookup_none hentry] at hlookup
    cases hlookup
  | some pv =>
    refine ⟨pv, (hcache _ pv hentry).resolve_left fun hpv => ?_, rfl⟩
    -- the negation of a complete entry is complete
    obtain ⟨pv₁, hpv₁, hrestore⟩ :=
      restoreNegation_complete (canonicalizeQuery less call.query.expr).2 hpv
    rw [cacheLookup_some hentry (hrestore cache)] at hlookup
    cases hlookup
    obtain rfl | rfl := hpv' <;> obtain h | h | h := hpv₁ <;> cases h

theorem Call.Decides.refines (h : call.Decides less cache)
    (hentry : cache.lookup (key less call.query) = some pv) (hpv : Incomplete pv) :
    call.Refines less cache := by
  cases call with
  | truth q => exact h
  | validity q =>
    obtain ⟨pv', hpv', hrestore⟩ :=
      restoreNegation_incomplete (canonicalizeQuery less q.expr).2 hpv
    have hlookup := cacheLookup_some hentry (hrestore cache)
    obtain rfl | rfl := hpv'
    · exact .inl hlookup
    · exact .inr hlookup

theorem exists_cacheInsert (hpv : Complete pv ∨ Incomplete pv)
    (hentry : cache.lookup (key less q) = none) :
    ∃ pv', (Complete pv' ∨ Incomplete pv') ∧ (Complete pv → Complete pv') ∧
      cacheInsert less q pv cache = .ok ((), (key less q, pv') :: cache) := by
  have hmissing : ¬ (cache.lookup (key less q)).isSome := by
    rw [hentry]
    exact Bool.false_ne_true
  cases hpv with
  | inl hpv =>
    obtain ⟨pv', hpv', hrestore⟩ :=
      restoreNegation_complete (canonicalizeQuery less q.expr).2 hpv
    refine ⟨pv', .inl hpv', fun _ => hpv', ?_⟩
    rw [cacheInsert_run (hrestore cache), if_neg hmissing]
  | inr hpv =>
    obtain ⟨pv', hpv', hrestore⟩ :=
      restoreNegation_incomplete (canonicalizeQuery less q.expr).2 hpv
    refine ⟨pv', .inr hpv', fun h => ?_, ?_⟩
    · obtain rfl | rfl := hpv <;> obtain h | h | h := h <;> cases h
    · rw [cacheInsert_run (hrestore cache), if_neg hmissing]

theorem complete_ofValidity (v : Validity) : Complete (ofValidity v) := by
  cases v with
  | true => exact .inl rfl
  | false => exact .inr (.inl rfl)
  | unknown => exact .inr (.inr rfl)

/-- An answer of a call is one of the solver or of the cache. -/
theorem exists_of_map {α β : Type} {f : α → β} {x : CacheM (Option α)} {b : β}
    (h : (Option.map f <$> x) cache = .ok (some b, cache')) :
    ∃ a, x cache = .ok (some a, cache') := by
  cases hx : x cache with
  | error e =>
    rw [run_map_of_error hx] at h
    cases h
  | ok r =>
    obtain ⟨o, cache₁⟩ := r
    rw [run_map_of_ok hx] at h
    cases o with
    | none => cases h
    | some a =>
      cases h
      exact ⟨a, rfl⟩

theorem truthFrom_missing {b : Bool} (hentry : cache.lookup (key less q) = none)
    (hrun : truthFrom less solver q none cache = .ok (some b, cache')) :
    ∃ pv, cache' = (key less q, pv) :: cache ∧ (Complete pv ∨ Incomplete pv) := by
  unfold truthFrom at hrun
  rw [if_neg (by simp)] at hrun
  cases hsolver : solver.computeTruth q with
  | none =>
    rw [hsolver] at hrun
    cases hrun
  | some b =>
    rw [hsolver] at hrun
    have hinserted : Complete (if b then .mustBeTrue else .mayBeFalse) ∨
        Incomplete (if b then .mustBeTrue else .mayBeFalse) := by
      cases b with
      | true => exact .inl (.inl rfl)
      | false => exact .inr (.inr rfl)
    obtain ⟨pv, hpv, -, hinsert⟩ := exists_cacheInsert hinserted hentry
    refine ⟨pv, ?_, hpv⟩
    have hanswer := run_bind_of_ok (f := fun _ => (pure (some b) : CacheM (Option Bool))) hinsert
    cases b with
    | true =>
      cases hanswer.symm.trans hrun
      rfl
    | false =>
      cases hanswer.symm.trans hrun
      rfl

theorem validityFrom_missing {v : Validity} (hentry : cache.lookup (key less q) = none)
    (hrun : validityFrom less solver q none cache = .ok (some v, cache')) :
    ∃ pv, cache' = (key less q, pv) :: cache ∧ Complete pv := by
  unfold validityFrom at hrun
  cases hsolver : solver.computeValidity q with
  | none =>
    rw [hsolver] at hrun
    cases hrun
  | some v =>
    rw [hsolver] at hrun
    obtain ⟨pv, -, hpv, hinsert⟩ := exists_cacheInsert (.inl (complete_ofValidity v)) hentry
    cases (run_bind_of_ok hinsert).symm.trans hrun
    exact ⟨pv, rfl, hpv (complete_ofValidity v)⟩

/-- What a call leaves in the cache when there was no entry. -/
theorem perform_missing (hentry : cache.lookup (key less call.query) = none)
    (hrun : call.perform less solver cache = .ok (some a, cache')) :
    ∃ pv, cache' = (key less call.query, pv) :: cache ∧ (Complete pv ∨ Incomplete pv) ∧
      (call.Decides less cache → Complete pv) := by
  cases call with
  | truth q =>
    have hlookup : cacheLookup less q cache = .ok (none, cache) := cacheLookup_none hentry
    rw [perform_truth hlookup] at hrun
    obtain ⟨b, hb⟩ := exists_of_map hrun
    obtain ⟨pv, hcache', hpv⟩ := truthFrom_missing hentry hb
    refine ⟨pv, hcache', hpv, fun h => ?_⟩
    cases hlookup.symm.trans h
  | validity q =>
    have hlookup : cacheLookup less q cache = .ok (none, cache) := cacheLookup_none hentry
    rw [perform_validity hlookup] at hrun
    obtain ⟨v, hv⟩ := exists_of_map hrun
    obtain ⟨pv, hcache', hpv⟩ := validityFrom_missing hentry hv
    exact ⟨pv, hcache', .inl hpv, fun _ => hpv⟩

theorem truthFrom_found {b : Bool} {pv' : PartialValidity} (hpv : Incomplete pv')
    (hentry : (cache.lookup (key less q)).isSome)
    (hrun : truthFrom less solver q (some pv') cache = .ok (some b, cache')) : cache' = cache := by
  have hinsert (pv₁ : PartialValidity) (hne : pv₁ ≠ .none) (b' : Bool)
      (h : (do cacheInsert less q pv₁; pure (some b') : CacheM (Option Bool)) cache =
        .ok (some b, cache')) : cache' = cache := by
    cases (run_bind_of_ok (cacheInsert_found hne hentry)).symm.trans h
    rfl
  obtain rfl | rfl := hpv
  · unfold truthFrom at hrun
    rw [if_neg (by simp)] at hrun
    cases hsolver : solver.computeTruth q with
    | none =>
      rw [hsolver] at hrun
      cases hrun
    | some b' =>
      rw [hsolver] at hrun
      cases b' with
      | true => exact hinsert .mustBeTrue nofun true hrun
      | false => exact hinsert .trueOrFalse nofun false hrun
  · cases hrun
    rfl

theorem validityFrom_found {v : Validity} {pv' : PartialValidity} (hpv : Incomplete pv')
    (hentry : (cache.lookup (key less q)).isSome)
    (hrun : validityFrom less solver q (some pv') cache = .ok (some v, cache')) :
    cache' = cache := by
  have hinsert (pv₁ : PartialValidity) (hne : pv₁ ≠ .none) (v' : Validity)
      (h : (do cacheInsert less q pv₁; pure (some v') : CacheM (Option Validity)) cache =
        .ok (some v, cache')) : cache' = cache := by
    cases (run_bind_of_ok (cacheInsert_found hne hentry)).symm.trans h
    rfl
  obtain rfl | rfl := hpv
  · unfold validityFrom at hrun
    cases hsolver : solver.computeTruth q with
    | none =>
      rw [hsolver] at hrun
      cases hrun
    | some b =>
      rw [hsolver] at hrun
      cases b with
      | true => exact hinsert .mustBeTrue nofun .true hrun
      | false => exact hinsert .trueOrFalse nofun .unknown hrun
  · unfold validityFrom at hrun
    cases hsolver : solver.computeTruth q.negateExpr with
    | none =>
      rw [hsolver] at hrun
      cases hrun
    | some b =>
      rw [hsolver] at hrun
      cases b with
      | true => exact hinsert .mustBeFalse nofun .false hrun
      | false => exact hinsert .trueOrFalse nofun .unknown hrun

/-- An entry stays as it is, whatever the call learns. -/
theorem perform_found (hcache : Proper cache)
    (hentry : cache.lookup (key less call.query) = some pv)
    (hrun : call.perform less solver cache = .ok (some a, cache')) : cache' = cache := by
  have hsome {q : Query} (h : cache.lookup (key less q) = some pv) :
      (cache.lookup (key less q)).isSome := by
    rw [h]
    rfl
  cases call with
  | truth q => cases hcache _ pv hentry with
    | inl hpv =>
      obtain ⟨a', ha'⟩ := (fromCache_of_complete hentry hpv).1
      cases (ha' solver).symm.trans hrun
      rfl
    | inr hpv =>
      obtain ⟨pv', hpv', hrestore⟩ :=
        restoreNegation_incomplete (canonicalizeQuery less q.expr).2 hpv
      rw [perform_truth (cacheLookup_some (q := q) hentry (hrestore cache))] at hrun
      obtain ⟨b, hb⟩ := exists_of_map hrun
      exact truthFrom_found hpv' (hsome hentry) hb
  | validity q => cases hcache _ pv hentry with
    | inl hpv =>
      obtain ⟨a', ha'⟩ := (fromCache_of_complete hentry hpv).2
      cases (ha' solver).symm.trans hrun
      rfl
    | inr hpv =>
      obtain ⟨pv', hpv', hrestore⟩ :=
        restoreNegation_incomplete (canonicalizeQuery less q.expr).2 hpv
      rw [perform_validity (cacheLookup_some (q := q) hentry (hrestore cache))] at hrun
      obtain ⟨v, hv⟩ := exists_of_map hrun
      exact validityFrom_found hpv' (hsome hentry) hv

/-- One call adds at most an entry for a query that had none. -/
theorem perform_cases (hcache : Proper cache)
    (hrun : call.perform less solver cache = .ok (some a, cache')) :
    cache' = cache ∨ ∃ pv, cache.lookup (key less call.query) = none ∧
      cache' = (key less call.query, pv) :: cache ∧ (Complete pv ∨ Incomplete pv) := by
  cases hentry : cache.lookup (key less call.query) with
  | some pv => exact .inl (perform_found hcache hentry hrun)
  | none =>
    obtain ⟨pv, hcache', hpv, -⟩ := perform_missing hentry hrun
    exact .inr ⟨pv, rfl, hcache', hpv⟩

theorem perform_kept (hcache : Proper cache)
    (hrun : call.perform less solver cache = .ok (some a, cache')) {k : Query}
    (hk : cache.lookup k = some pv) : cache'.lookup k = some pv := by
  obtain rfl | ⟨pv', hnone, rfl, -⟩ := perform_cases hcache hrun
  · exact hk
  · have hne : k ≠ key less call.query := by
      rintro rfl
      cases hnone.symm.trans hk
    rw [List.lookup_cons, beq_false_of_ne hne]
    exact hk

theorem perform_proper (hcache : Proper cache)
    (hrun : call.perform less solver cache = .ok (some a, cache')) : Proper cache' := by
  obtain rfl | ⟨pv', -, rfl, hpv'⟩ := perform_cases hcache hrun
  · exact hcache
  · intro k pv hk
    by_cases heq : k = key less call.query
    · rw [heq, List.lookup_cons_self] at hk
      exact Option.some.inj hk ▸ hpv'
    · rw [List.lookup_cons, beq_false_of_ne heq] at hk
      exact hcache k pv hk

end Entries

section Run

variable {less : Expr → Expr → Bool} {cache : Cache} {trace : List (Cache × Call)}
variable {s : Cache × Call}

variable (less) in
/-- The calls made so far, each with the cache that it found, the last one first. No call
fails; the solver may differ from call to call. -/
inductive CallRun : List (Cache × Call) → Cache → Prop
  | empty : CallRun [] []
  | step {trace : List (Cache × Call)} {cache cache' : Cache} {solver : SolverImpl}
      {call : Call} {a : Bool ⊕ Validity} (h : CallRun trace cache)
      (hrun : call.perform less solver cache = .ok (some a, cache')) :
      CallRun ((cache, call) :: trace) cache'

theorem CallRun.proper (h : CallRun less trace cache) : Proper cache := by
  induction h with
  | empty => exact fun k pv hk => by cases hk
  | step h hrun ih => exact perform_proper ih hrun

/-- Entries stay. -/
theorem CallRun.kept (h : CallRun less trace cache) (hs : s ∈ trace) {k : Query}
    {pv : PartialValidity} (hentry : s.1.lookup k = some pv) : cache.lookup k = some pv := by
  induction h with
  | empty => cases hs
  | step h hrun ih => cases List.mem_cons.mp hs with
    | inl heq =>
      subst heq
      exact perform_kept h.proper hrun hentry
    | inr hs => exact perform_kept h.proper hrun (ih hs)

theorem CallRun.proper_of_mem (h : CallRun less trace cache) (hs : s ∈ trace) : Proper s.1 := by
  induction h with
  | empty => cases hs
  | step h hrun ih => cases List.mem_cons.mp hs with
    | inl heq =>
      subst heq
      exact h.proper
    | inr hs => exact ih hs

/-- A call that decides a query without refining an entry leaves a complete one. -/
theorem CallRun.complete (h : CallRun less trace cache) (hs : s ∈ trace)
    (hdecides : s.2.Decides less s.1) (hrefines : ¬ s.2.Refines less s.1) :
    ∃ pv, Complete pv ∧ cache.lookup (key less s.2.query) = some pv := by
  induction h with
  | empty => cases hs
  | step h hrun ih => cases List.mem_cons.mp hs with
    | inr hs =>
      obtain ⟨pv, hpv, hentry⟩ := ih hs
      exact ⟨pv, hpv, perform_kept h.proper hrun hentry⟩
    | inl heq =>
      subst heq
      rename_i cache cache' solver call a
      cases hentry : cache.lookup (key less call.query) with
      | none =>
        obtain ⟨pv, hcache', -, hpv⟩ := perform_missing hentry hrun
        refine ⟨pv, hpv hdecides, ?_⟩
        rw [hcache', List.lookup_cons_self]
      | some pv =>
        refine ⟨pv, (h.proper _ pv hentry).resolve_right fun hpv => ?_,
          perform_kept h.proper hrun hentry⟩
        exact hrefines (hdecides.refines hentry hpv)

end Run

section Reuse

variable [APIntHash] {cache : Cache} {trace : List (Cache × Call)} {q q' : Query}

inductive SameQuery : Query → Query → Prop
  | refl (q : Query) : SameQuery q q
  | negation {q : Query} (hq : q.expr.IsBool) (hcreated : q.expr.AsCreated) :
      SameQuery q q.negateExpr
  | negated {q : Query} (hq : q.expr.IsBool) (hcreated : q.expr.AsCreated) :
      SameQuery q.negateExpr q

theorem key_negateExpr (hq : q.expr.IsBool) (hcreated : q.expr.AsCreated) :
    key exprLess q.negateExpr = key exprLess q :=
  congrArg q.withExpr (canonicalizeQuery_createIsZero hq hcreated)

theorem SameQuery.key_eq (h : SameQuery q q') : key exprLess q' = key exprLess q := by
  cases h with
  | refl => rfl
  | negation hq hcreated => exact key_negateExpr hq hcreated
  | negated hq hcreated => exact (key_negateExpr hq hcreated).symm

/-- Once a query has been decided, calls on it or its negation need no solver. -/
def NeverAsksAgain (trace : List (Cache × Call)) (cache : Cache) : Prop :=
  ∀ s ∈ trace, s.2.Decides exprLess s.1 → ∀ q', SameQuery s.2.query q' →
    (Call.truth q').FromCache exprLess cache ∧ (Call.validity q').FromCache exprLess cache

def NothingRefined (trace : List (Cache × Call)) : Prop :=
  ∀ s ∈ trace, ¬ s.2.Refines exprLess s.1

theorem CallRun.asks_again (h : CallRun exprLess trace cache) {s : Cache × Call} (hs : s ∈ trace)
    (hrefines : s.2.Refines exprLess s.1) :
    s.2.Decides exprLess s.1 ∧ ¬ (Call.validity s.2.query).FromCache exprLess cache := by
  obtain ⟨pv, hpv, hentry⟩ := hrefines.incomplete (h.proper_of_mem hs)
  refine ⟨?_, not_fromCache_of_incomplete (h.kept hs hentry) hpv⟩
  obtain ⟨cache₁, call⟩ := s
  cases call with
  | truth q => exact hrefines
  | validity q => trivial

/-- In every run without failures, what was decided is never asked again exactly when no call
had to refine an entry. -/
theorem neverAsksAgain_iff (h : CallRun exprLess trace cache) :
    NeverAsksAgain trace cache ↔ NothingRefined trace := by
  constructor
  · intro hnever s hs hrefines
    obtain ⟨hdecides, hasks⟩ := h.asks_again hs hrefines
    exact hasks (hnever s hs hdecides s.2.query (.refl _)).2
  · intro hnothing s hs hdecides q' hsame
    obtain ⟨pv, hpv, hentry⟩ := h.complete hs hdecides (hnothing s hs)
    rw [← hsame.key_eq] at hentry
    exact fromCache_of_complete hentry hpv

end Reuse

section Refined

/-- `5 < x[0]` -/
def fiveBelow : Query :=
  ⟨[], .cmp .ult (.constant ⟨8, 5#8⟩) (.read twoBytes .null (.constant ⟨32, 0#32⟩))⟩

def undecided : SolverImpl where
  computeTruth _ := some false
  computeValidity _ := some .unknown
  computeInitialValues _ _ := none

/-- `Eq` comes before `Ult`, so the entry is for the negation. -/
def partialCache : Cache := [(fiveBelow.negateExpr, .mayBeTrue)]

def refiningTrace : List (Cache × Call) :=
  [(partialCache, .validity fiveBelow), ([], .truth fiveBelow)]

theorem callRun_truth :
    CallRun (@exprLess lowBits) [([], .truth fiveBelow)] partialCache :=
  @CallRun.step _ [] [] _ undecided _ (.inl false) .empty rfl

theorem callRun_refining : CallRun (@exprLess lowBits) refiningTrace partialCache :=
  @CallRun.step _ _ _ _ undecided _ (.inr .unknown) callRun_truth rfl

theorem neverAsksAgain_iff_refining :
    @NeverAsksAgain lowBits refiningTrace partialCache ↔ @NothingRefined lowBits refiningTrace :=
  @neverAsksAgain_iff lowBits partialCache refiningTrace callRun_refining

/-- The validity was computed, and the next call asks for it again. -/
theorem not_neverAsksAgain : ¬ ∀ (hash : APIntHash) (trace : List (Cache × Call)) (cache : Cache),
    CallRun (@exprLess hash) trace cache → @NeverAsksAgain hash trace cache := by
  intro hall
  have hnever := hall lowBits refiningTrace partialCache callRun_refining
  have hmem : (partialCache, Call.validity fiveBelow) ∈ refiningTrace := List.mem_cons_self
  have hrefines : (Call.validity fiveBelow).Refines (@exprLess lowBits) partialCache := .inr rfl
  obtain ⟨hdecides, hasks⟩ := @CallRun.asks_again lowBits _ _ callRun_refining _ hmem hrefines
  exact hasks (hnever _ hmem hdecides fiveBelow (.refl _)).2

end Refined

end Klee.CachingSolver
