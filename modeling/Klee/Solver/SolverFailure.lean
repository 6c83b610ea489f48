import Klee.Solver.SolverChain
import Klee.Solver.CexCachingSound

/-! Failed queries to the core solver: which layers report them. -/
namespace Klee

open Hoare

def Reply.IsSet {α : Type} (r : Reply α) : Prop := ∃ a, r.result = some a

def InitialValues.IsSet (r : InitialValues) : Prop :=
  r.hasSolution = some false ∨ r.hasSolution = some true ∧ ∃ values, r.values = some values

namespace CachingSolver

variable {σ α : Type} {w : SolverState σ}

theorem wp_onCache {x : CacheM α} {Q : α → SolverState σ → Prop}
    (h : ∀ a cache, x w.branch = .ok (a, cache) → Q a { w with branch := cache }) :
    wp (onCache x) Q (· ≠ .unset) w := by
  unfold onCache
  rw [wp_bind, wp_get]
  cases hx : x w.branch with
  | ok r => exact h r.1 r.2 hx
  | error f =>
    dsimp only
    rw [wp_throw]
    simp

/-- The negation of a partial validity does not depend on the cache. -/
theorem restoreNegation_cases (negationUsed : Bool) (pv : PartialValidity) :
    (∃ stored, ∀ cache, restoreNegation negationUsed pv cache = .ok (stored, cache)) ∨
      ∀ cache, ∃ f, restoreNegation negationUsed pv cache = .error f := by
  cases negationUsed with
  | false => exact Or.inl ⟨pv, fun _ => rfl⟩
  | true =>
    cases pv with
    | none => exact Or.inr fun _ => ⟨_, rfl⟩
    | mustBeTrue => exact Or.inl ⟨.mustBeFalse, fun _ => rfl⟩
    | mustBeFalse => exact Or.inl ⟨.mustBeTrue, fun _ => rfl⟩
    | mayBeTrue => exact Or.inl ⟨.mayBeFalse, fun _ => rfl⟩
    | mayBeFalse => exact Or.inl ⟨.mayBeTrue, fun _ => rfl⟩
    | trueOrFalse => exact Or.inl ⟨.trueOrFalse, fun _ => rfl⟩

theorem keeps_restoreNegation (negationUsed : Bool) (pv : PartialValidity) :
    Keeps (restoreNegation negationUsed pv) := by
  cases negationUsed with
  | false => exact keeps_pure pv
  | true =>
    cases pv with
    | none => exact keeps_throw _
    | _ => exact keeps_pure _

theorem keeps_cacheLookup (less : Expr → Expr → Bool) (q : Query) : Keeps (cacheLookup less q) := by
  intro cache
  unfold cacheLookup
  rw [wp_bind, wp_get]
  dsimp only
  cases cache.lookup (q.withExpr (canonicalizeQuery less q.expr).1) with
  | none => exact rfl
  | some pv =>
    dsimp only
    rw [wp_map]
    exact keeps_restoreNegation _ pv cache

end CachingSolver

section Derived

variable [LinearOrder Expr] (less : Expr → Expr → Bool) (answers : List Answer)

def CexCachingSolver.queryKey (query : Query) : KeyType :=
  match query.expr.createIsZero with
  | .constant _ => keyOf query.constraints
  | neg => insertKey (keyOf query.constraints) neg

/-- The entries that successful replies for the initial values of queries make. -/
inductive CexCachingSolver.Derived : KeyType → Option ArrayAssignment → Prop
  | unsat {q : Query} {objects : List Array} {r : InitialValues}
      (h : .initialValues q objects r ∈ answers) (hsuccess : r.success = true)
      (hunsat : r.hasSolution = some false) : Derived (queryKey q) none
  | sat {q : Query} {objects : List Array} {r : InitialValues} {values : Values}
      (h : .initialValues q objects r ∈ answers) (hsuccess : r.success = true)
      (hsat : r.hasSolution = some true) (hvalues : r.values = some values) :
      Derived (queryKey q) (some (.ofObjects objects values false))

inductive CachingSolver.Learned (q : Query) : PartialValidity → Prop
  | validity {r : Reply Validity} {v : Validity} (h : .validity q r ∈ answers)
      (hsuccess : r.success = true) (hresult : r.result = some v) : Learned q (ofValidity v)
  | true {r : Reply Bool} (h : .truth q r ∈ answers) (hsuccess : r.success = true)
      (hresult : r.result = some true) : Learned q .mustBeTrue
  | false {r : Reply Bool} {pv : PartialValidity} (h : .truth q r ∈ answers)
      (hsuccess : r.success = true) (hresult : r.result = some false)
      (hpv : pv = .mayBeFalse ∨ pv = .trueOrFalse) : Learned q pv
  | negated {r : Reply Bool} {b : Bool} (h : .truth q.negateExpr r ∈ answers)
      (hsuccess : r.success = true) (hresult : r.result = some b) :
      Learned q (if b then .mustBeFalse else .trueOrFalse)

inductive CachingSolver.Derived : Query × PartialValidity → Prop
  | entry {q : Query} {pv stored : PartialValidity} (h : Learned answers q pv)
      (hstored : ∀ cache, restoreNegation (canonicalizeQuery less q.expr).2 pv cache =
        .ok (stored, cache)) :
      Derived (q.withExpr (canonicalizeQuery less q.expr).1, stored)

end Derived

theorem CachingSolver.Learned.mono {answers : List Answer} {q : Query} {pv : PartialValidity}
    (h : Learned answers q pv) (a : Answer) : Learned (a :: answers) q pv := by
  cases h with
  | validity hmem hsuccess hresult => exact .validity (List.mem_cons_of_mem a hmem) hsuccess hresult
  | true hmem hsuccess hresult => exact .true (List.mem_cons_of_mem a hmem) hsuccess hresult
  | false hmem hsuccess hresult hpv =>
    exact .false (List.mem_cons_of_mem a hmem) hsuccess hresult hpv
  | negated hmem hsuccess hresult => exact .negated (List.mem_cons_of_mem a hmem) hsuccess hresult

theorem CachingSolver.Derived.mono {less : Expr → Expr → Bool} {answers : List Answer}
    {entry : Query × PartialValidity} (h : Derived less answers entry) (a : Answer) :
    Derived less (a :: answers) entry := by
  cases h with
  | entry hlearned hstored => exact .entry (hlearned.mono a) hstored

section Clean

variable {σ α β : Type} [LinearOrder Expr] (less : Expr → Expr → Bool)

structure Clean (w : SolverState σ) : Prop where
  entries : ∀ set r, w.cex.cache.Has set r → CexCachingSolver.Derived w.cexAnswers set r
  table : ∀ a ∈ w.cex.assignmentsTable, ∃ set, CexCachingSolver.Derived w.cexAnswers set (some a)
  branch : ∀ entry ∈ w.branch, CachingSolver.Derived less w.branchAnswers entry

/-- From `w`: the caches stay clean; and a call that succeeds has set what it returns, and no
core query has failed in it. -/
structure Outcome (w : SolverState σ) (success : Bool) (set : Prop) (w' : SolverState σ) : Prop where
  clean : Clean less w'
  failures_le : w.failures ≤ w'.failures
  of_success : success = true → w'.failures = w.failures ∧ set

/-- No run of `x` reads an unset parameter, and each has an outcome. -/
def Reports (x : SolverM σ α) (success : α → Bool) (set : α → Prop) : Prop :=
  ∀ w, Clean less w → wp x (fun a w' => Outcome less w (success a) (set a) w') (· ≠ .unset) w

structure SolverLayer.Honest (s : SolverLayer σ) : Prop where
  truth : ∀ q, Reports less (s.computeTruth q) (·.success) (·.IsSet)
  validity : ∀ q, Reports less (s.computeValidity q) (·.success) (·.IsSet)
  value : ∀ q, Reports less (s.computeValue q) (·.success) (·.IsSet)
  initialValues : ∀ q objects values,
    Reports less (s.computeInitialValues q objects values) (·.success) (·.IsSet)

variable {less} {x : SolverM σ α} {f : α → SolverM σ β} {success : α → Bool} {set : α → Prop}
  {success' : β → Bool} {set' : β → Prop} {w w' w'' : SolverState σ}

theorem reports_pure {a : α} (h : success a = true → set a) :
    Reports less (pure a : SolverM σ α) success set :=
  fun _ hw => ⟨hw, le_rfl, fun hs => ⟨rfl, h hs⟩⟩

theorem reports_throw {e : SolverFault} (h : e ≠ .unset) :
    Reports less (throw e : SolverM σ α) success set := fun _ _ => h

/-- After a failed call comes a failure, after a successful one what reports failures. -/
theorem Reports.bind (hx : Reports less x success set)
    (hsuccess : ∀ a, success a = true → set a → Reports less (f a) success' set')
    (hfail : ∀ a, success a = false →
      Reports less (f a) (fun _ => true) fun b => success' b = false) :
    Reports less (x >>= f) success' set' := by
  intro w hw
  rw [wp_bind]
  refine wp_post (hx w hw) fun a w' ha => ?_
  cases hs : success a with
  | true =>
    obtain ⟨hfailures, hset⟩ := ha.of_success hs
    refine wp_post (hsuccess a hs hset w' ha.clean) fun b w'' hb => ?_
    refine ⟨hb.clean, hfailures ▸ hb.failures_le, fun hs' => ?_⟩
    rw [← hfailures]
    exact hb.of_success hs'
  | false =>
    refine wp_post (hfail a hs w' ha.clean) fun b w'' hb => ?_
    refine ⟨hb.clean, ha.failures_le.trans hb.failures_le, fun hs' => ?_⟩
    have hfalse := (hb.of_success rfl).2
    exact absurd (hfalse.symm.trans hs') Bool.false_ne_true

theorem reports_get_bind {f : SolverState σ → SolverM σ β}
    (h : ∀ w, Reports less (f w) success' set') : Reports less (get >>= f) success' set' := by
  intro w hw
  rw [wp_bind, wp_get]
  exact h w w hw

theorem reports_ite {c : Prop} [Decidable c] {y : SolverM σ α} (hx : Reports less x success set)
    (hy : Reports less y success set) : Reports less (if c then x else y) success set := by
  intro w hw
  exact wp_ite.mpr ⟨fun _ => hx w hw, fun _ => hy w hw⟩

theorem Reports.map {g : α → β} (hx : Reports less x success set)
    (hsuccess : ∀ a, success' (g a) = true → success a = true)
    (hset : ∀ a, success a = true → set a → set' (g a)) :
    Reports less (g <$> x) success' set' := by
  intro w hw
  rw [wp_map]
  refine wp_post (hx w hw) fun a w' ha => ⟨ha.clean, ha.failures_le, fun hs => ?_⟩
  obtain ⟨hfailures, ha⟩ := ha.of_success (hsuccess a hs)
  exact ⟨hfailures, hset a (hsuccess a hs) ha⟩

theorem Reports.assertThat {b : Bool} {message : String} {f : Unit → SolverM σ β}
    (hf : Reports less (f ()) success' set') :
    Reports less (assertThat b message >>= f) success' set' := by
  intro w hw
  rw [wp_bind]
  exact wp_assertThat (by simp) fun _ => hf w hw

section Layers

variable {s oracle : SolverLayer σ}

theorem CoreSolver.reports_ask {query : σ → Option α × σ} {g : Option α → β}
    (hnone : success' (g none) = false) (hsome : ∀ a, set' (g (some a))) :
    Reports less (do let r ← ask query; pure (g r)) success' set' := by
  intro w hw
  simp only [wp_bind, CoreSolver.wp_ask, wp_pure]
  have hclean : Clean less (asked query w) := ⟨hw.entries, hw.table, hw.branch⟩
  cases hr : (query w.core).1 with
  | none =>
    refine ⟨hclean, by simp [asked, hr], fun hs => ?_⟩
    exact absurd (hnone.symm.trans hs) Bool.false_ne_true
  | some a => exact ⟨hclean, by simp [asked, hr], fun _ => ⟨by simp [asked, hr], hsome a⟩⟩

theorem CoreSolver.honest (c : CoreSolver σ) : c.layer.Honest less where
  truth q := reports_ask rfl fun b => ⟨b, rfl⟩
  validity q := reports_ask rfl fun v => ⟨v, rfl⟩
  value q := reports_ask rfl fun e => ⟨e, rfl⟩
  initialValues q objects values := by
    refine reports_ask (g := CoreSolver.initialValues values) rfl fun found => ?_
    cases found with
    | none => exact Or.inl rfl
    | some bytes => exact Or.inr ⟨rfl, _, rfl⟩

theorem reports_write (entry : LogEntry) {a : α} (h : success a = true → set a) :
    Reports less (do modify (QueryLoggingSolver.write entry); pure a : SolverM σ α) success set :=
  fun _ hw => ⟨⟨hw.entries, hw.table, hw.branch⟩, le_rfl, fun hs => ⟨rfl, h hs⟩⟩

theorem reports_printed {r : Reply α} (entry : Option α → LogEntry)
    (hset : r.success = true → r.IsSet) :
    Reports less (do
      let a ← QueryLoggingSolver.printed r
      modify (QueryLoggingSolver.write (entry a))
      pure r : SolverM σ (Reply α)) (·.success) (·.IsSet) := by
  unfold QueryLoggingSolver.printed
  cases hs : r.success with
  | false => exact reports_write _ hset
  | true =>
    obtain ⟨a, ha⟩ := hset hs
    rw [ha]
    exact reports_write _ hset

/-- A failed reply is printed without a value. -/
theorem reports_printed_failed {r : Reply α} (entry : Option α → LogEntry)
    (hs : r.success = false) :
    Reports less (do
      let a ← QueryLoggingSolver.printed r
      modify (QueryLoggingSolver.write (entry a))
      pure r : SolverM σ (Reply α)) (fun _ => true) (fun r => r.success = false) := by
  unfold QueryLoggingSolver.printed
  rw [hs]
  exact reports_write _ fun _ => hs

theorem QueryLoggingSolver.honest (hs : s.Honest less) :
    (QueryLoggingSolver.layer s).Honest less where
  truth q := (hs.truth q).bind (fun _ _ hset => reports_printed _ fun _ => hset)
    fun _ => reports_printed_failed _
  validity q := (hs.validity q).bind (fun _ _ hset => reports_printed _ fun _ => hset)
    fun _ => reports_printed_failed _
  value q := (hs.value q).bind (fun _ _ hset => reports_printed _ fun _ => hset)
    fun _ => reports_printed_failed _
  initialValues q objects values := by
    refine (hs.initialValues q objects values).bind (fun r hsuccess hset => ?_) fun r hfail => ?_
    · unfold QueryLoggingSolver.printedValues
      rw [hsuccess]
      cases hset with
      | inl hunsat =>
        rw [hunsat]
        exact reports_write _ fun _ => Or.inl hunsat
      | inr hsat =>
        obtain ⟨found, hfound⟩ := hsat.2
        rw [hsat.1, hfound]
        exact reports_write _ fun _ => Or.inr hsat
    · unfold QueryLoggingSolver.printedValues
      rw [hfail]
      exact reports_write _ fun _ => hfail

section Staged

variable {primary : IncompleteSolver}

theorem StagedSolverImpl.reports_validityOf {x : SolverM σ (Reply Bool)} {v : Validity}
    (hx : Reports less x (·.success) (·.IsSet)) :
    Reports less (do let r ← x; validityOf v r) (·.success) (·.IsSet) := by
  refine hx.bind (fun r hs hset => ?_) fun r hs => ?_
  · obtain ⟨b, hb⟩ := hset
    unfold validityOf
    rw [hs, hb]
    exact reports_pure fun _ => ⟨_, rfl⟩
  · unfold validityOf
    rw [hs]
    exact reports_pure fun _ => rfl

theorem StagedSolverImpl.honest (hs : s.Honest less) :
    (StagedSolverImpl.layer primary s).Honest less where
  truth q := by
    simp only [layer, computeTruth]
    cases primary.computeTruth q with
    | none => exact hs.truth q
    | _ => exact reports_pure fun _ => ⟨_, rfl⟩
  validity q := by
    simp only [layer, computeValidity]
    cases primary.computeValidity q with
    | none => exact hs.validity q
    | mayBeTrue => exact reports_validityOf (hs.truth q)
    | mayBeFalse => exact reports_validityOf (hs.truth q.negateExpr)
    | _ => exact reports_pure fun _ => ⟨_, rfl⟩
  value q := by
    simp only [layer, computeValue]
    cases primary.computeValue q with
    | none => exact hs.value q
    | some e => exact reports_pure fun _ => ⟨e, rfl⟩
  initialValues q objects values := by
    simp only [layer, computeInitialValues]
    cases primary.computeInitialValues q objects values with
    | ok found =>
      cases found with
      | none => exact reports_pure fun _ => Or.inl rfl
      | some bytes => exact reports_pure fun _ => Or.inr ⟨rfl, _, rfl⟩
    | error left =>
      obtain ⟨hasSolution, pushed⟩ := left
      refine (hs.initialValues q objects _).bind (fun r _ hset => reports_pure fun _ => ?_)
        fun r hfail => reports_pure fun _ => hfail
      cases hset with
      | inl hunsat => exact Or.inl (by rw [hunsat]; rfl)
      | inr hsat =>
        obtain ⟨found, hfound⟩ := hsat.2
        exact Or.inr ⟨by rw [hsat.1]; rfl, found, by rw [hfound]; rfl⟩

end Staged

section CexCaching

variable {o : CexCachingSolver.Options} {q : Query}

namespace CexCachingSolver

theorem Derived.mono {answers : List Answer} {key : KeyType} {r : Option ArrayAssignment}
    (h : Derived answers key r) (a : Answer) : Derived (a :: answers) key r := by
  cases h with
  | unsat hmem hsuccess hunsat => exact .unsat (List.mem_cons_of_mem a hmem) hsuccess hunsat
  | sat hmem hsuccess hsat hvalues =>
    exact .sat (List.mem_cons_of_mem a hmem) hsuccess hsat hvalues

theorem lookupAssignment_fst (cex : CexCache) : (lookupAssignment o cex q).1 = queryKey q := by
  unfold lookupAssignment queryKey
  cases q.expr.createIsZero with
  | constant CE =>
    dsimp only
    split
    · rfl
    · rfl
  | _ => rfl

theorem clean_remember {key : KeyType} {r : Option ArrayAssignment} (hw : Clean less w)
    (hr : Derived w.cexAnswers key r) : Clean less (remember key r w) := by
  refine ⟨fun set r' h => ?_, hw.table, hw.branch⟩
  cases MapOfSets.has_insert _ _ _ h with
  | inl hnew =>
    rw [hnew.1, hnew.2]
    exact hr
  | inr hold => exact hw.entries set r' hold

theorem clean_memoize {key : KeyType} {binding : ArrayAssignment} (hw : Clean less w)
    (hb : Derived w.cexAnswers key (some binding)) : Clean less (memoize binding w) := by
  refine ⟨hw.entries, fun a ha => ?_, hw.branch⟩
  cases mem_insertAssignment ha with
  | inl hnew => exact ⟨key, hnew ▸ hb⟩
  | inr hold => exact hw.table a hold

theorem clean_recordCex (hw : Clean less w) (a : Answer) : Clean less (recordCex a w) where
  entries set r h := (hw.entries set r h).mono a
  table b hb := (hw.table b hb).imp fun _ h => h.mono a
  branch := hw.branch

theorem Derived.allowFreeValues {answers : List Answer} {key : KeyType} {a : ArrayAssignment}
    (h : Derived answers key (some a)) : a.allowFreeValues = false := by
  cases h with
  | sat => rfl

theorem shared_eq (hw : Clean less w) (objects : List Array) (values : Values) :
    shared (.ofObjects objects values false) w = .ofObjects objects values false :=
  insertAssignment_fst rfl fun a ha => (hw.table a ha).elim fun _ h => h.allowFreeValues

theorem reports_getAssignment (hs : s.Honest less) (q : Query) :
    Reports less (getAssignment o (s.observed recordCex) q) (·.isSome) fun _ => True := by
  intro w hw
  apply wp_getAssignment
  · intro r _
    exact ⟨hw, le_rfl, fun _ => ⟨rfl, trivial⟩⟩
  · intro _
    rw [lookupAssignment_fst]
    simp only [SolverLayer.observed, wp_bind]
    refine wp_post (hs.initialValues q _ [] w hw) fun r w' hr => ?_
    have hclean := clean_recordCex hr.clean
      (.initialValues q (findSymbolicObjects (queryKey q)) r)
    have hmem : .initialValues q (findSymbolicObjects (queryKey q)) r ∈
        (recordCex (.initialValues q (findSymbolicObjects (queryKey q)) r) w').cexAnswers :=
      List.mem_cons_self
    apply wp_storeAnswer
    · simp
    · intro hsuccess
      exact (hr.of_success hsuccess).2
    · intro _
      exact ⟨hclean, hr.failures_le, fun h => by cases h⟩
    · intro hsuccess hunsat
      have hderived := Derived.unsat hmem hsuccess hunsat
      exact ⟨clean_remember hclean hderived, hr.failures_le,
        fun _ => ⟨(hr.of_success hsuccess).1, trivial⟩⟩
    · intro values hsuccess hsat hvalues
      have hderived := Derived.sat hmem hsuccess hsat hvalues
      rw [shared_eq hclean]
      exact ⟨clean_remember (clean_memoize hclean hderived) hderived, hr.failures_le,
        fun _ => ⟨(hr.of_success hsuccess).1, trivial⟩⟩

theorem reports_validityOf (hs : s.Honest less) (q : Query) (v : Validity) :
    Reports less (validityOf v <$> getAssignment o (s.observed recordCex) q) (·.success)
      (·.IsSet) := by
  refine (reports_getAssignment hs q).map (fun r h => ?_) fun r h _ => ?_
  · cases r with
    | none => cases h
    | some a => rfl
  · cases r with
    | none => cases h
    | some a =>
      cases a with
      | none => exact ⟨v, rfl⟩
      | some a => exact ⟨.unknown, rfl⟩

theorem reports_computeTruth (hs : s.Honest less) (q : Query) :
    Reports less (computeTruth o (s.observed recordCex) q) (·.success) (·.IsSet) := by
  apply reports_get_bind
  intro w₀
  apply reports_ite
  · exact reports_pure fun h => by cases h
  · refine (reports_getAssignment hs q).bind (fun r h _ => ?_) fun r h => ?_
    · cases r with
      | none => cases h
      | some a => exact reports_pure fun _ => ⟨_, rfl⟩
    · cases r with
      | none => exact reports_pure fun _ => rfl
      | some a => cases h

theorem reports_computeValidity (hs : s.Honest less) (q : Query) :
    Reports less (computeValidity o (s.observed recordCex) q) (·.success) (·.IsSet) := by
  refine (reports_getAssignment hs q.withFalse).bind (fun r h _ => ?_) fun r h => ?_
  · cases r with
    | none => cases h
    | some a =>
      cases a with
      | none => exact reports_throw (by simp)
      | some a =>
        dsimp only
        cases a.evaluate q.expr with
        | constant v =>
          dsimp only
          apply reports_ite
          · exact reports_validityOf hs q .true
          · exact reports_validityOf hs q.negateExpr .false
        | _ => exact reports_throw (by simp)
  · cases r with
    | none => exact reports_pure fun _ => rfl
    | some a => cases h

theorem reports_computeValue (hs : s.Honest less) (q : Query) :
    Reports less (computeValue o (s.observed recordCex) q) (·.success) (·.IsSet) := by
  refine (reports_getAssignment hs q.withFalse).bind (fun r h _ => ?_) fun r h => ?_
  · cases r with
    | none => cases h
    | some a =>
      cases a with
      | none => exact reports_throw (by simp)
      | some a =>
        dsimp only
        cases a.evaluate q.expr with
        | constant v => exact reports_pure fun _ => ⟨_, rfl⟩
        | _ => exact reports_throw (by simp)
  · cases r with
    | none => exact reports_pure fun _ => rfl
    | some a => cases h

theorem reports_computeInitialValues (hs : s.Honest less) (q : Query) (objects : List Array) :
    Reports less (computeInitialValues o (s.observed recordCex) q objects) (·.success)
      (·.IsSet) := by
  refine (reports_getAssignment hs q).bind (fun r h _ => ?_) fun r h => ?_
  · cases r with
    | none => cases h
    | some a =>
      cases a with
      | none => exact reports_pure fun _ => Or.inl rfl
      | some a => exact reports_pure fun _ => Or.inr ⟨rfl, _, rfl⟩
  · cases r with
    | none => exact reports_pure fun _ => rfl
    | some a => cases h

theorem honest (hs : s.Honest less) : (layer o (s.observed recordCex)).Honest less where
  truth := reports_computeTruth hs
  validity := reports_computeValidity hs
  value := reports_computeValue hs
  initialValues q objects _ := reports_computeInitialValues hs q objects

end CexCachingSolver

end CexCaching

section Caching

variable {q : Query} {pv : PartialValidity}

namespace CachingSolver

theorem clean_recordBranch (hw : Clean less w) (a : Answer) : Clean less (recordBranch a w) where
  entries := hw.entries
  table := hw.table
  branch entry h := (hw.branch entry h).mono a

theorem reports_cacheLookup (q : Query) :
    Reports less (onCache (cacheLookup less q) : SolverM σ _) (fun _ => true) fun _ => True := by
  intro w hw
  apply wp_onCache
  intro r cache hrun
  have hcache : cache = w.branch := wp_ok (keeps_cacheLookup less q w.branch) hrun
  rw [hcache]
  exact ⟨hw, le_rfl, fun _ => ⟨rfl, trivial⟩⟩

/-- What has been learned may be stored. -/
theorem wp_insertLearned (hw : Clean less w) (h : Learned w.branchAnswers q pv) :
    wp (onCache (cacheInsert less q pv)) (fun _ w' => Clean less w' ∧ w'.failures = w.failures)
      (· ≠ .unset) w := by
  apply wp_onCache
  intro _ cache hrun
  suffices hwp : wp (cacheInsert less q pv)
      (fun _ cache => ∀ entry ∈ cache, Derived less w.branchAnswers entry) (fun _ => True)
      w.branch from ⟨⟨hw.entries, hw.table, wp_ok hwp hrun⟩, rfl⟩
  unfold cacheInsert
  rw [wp_bind]
  cases restoreNegation_cases (canonicalizeQuery less q.expr).2 pv with
  | inl hstored =>
    obtain ⟨stored, hstored⟩ := hstored
    rw [wp_iff_of_ok (hstored w.branch)]
    apply wp_modify.mpr
    split
    · exact hw.branch
    · exact List.forall_mem_cons.mpr ⟨.entry h hstored, hw.branch⟩
  | inr herror =>
    obtain ⟨f, hf⟩ := herror w.branch
    simp [wp, hf]

theorem outcome_of_insert {success : Bool} {set : Prop} (hset : set)
    (h : Clean less w' ∧ w'.failures = w.failures) : Outcome less w success set w' :=
  ⟨h.1, h.2.ge, fun _ => ⟨h.2, hset⟩⟩

/-- A call of the layer below whose reply goes to the history. -/
theorem Reports.record (hx : Reports less x success set) (answer : α → Answer)
    (hsuccess : ∀ a w, success a = true → set a → Clean less w → answer a ∈ w.branchAnswers →
      wp (f a) (fun b w' => Outcome less w (success' b) (set' b) w') (· ≠ .unset) w)
    (hfail : ∀ a, success a = false →
      Reports less (f a) (fun _ => true) fun b => success' b = false) :
    Reports less (do
      let a ← (do
        let a ← x
        modify (recordBranch (answer a))
        pure a)
      f a) success' set' := by
  intro w hw
  simp only [wp_bind]
  refine wp_post (hx w hw) fun a w' ha => ?_
  have hclean := clean_recordBranch ha.clean (answer a)
  change wp (f a) _ _ (recordBranch (answer a) w')
  cases hs : success a with
  | true =>
    obtain ⟨hfailures, hset⟩ := ha.of_success hs
    refine wp_post (hsuccess a (recordBranch (answer a) w') hs hset hclean List.mem_cons_self)
      fun b w'' hb => ?_
    refine ⟨hb.clean, hfailures ▸ hb.failures_le, fun hs' => ?_⟩
    rw [← hfailures]
    exact hb.of_success hs'
  | false =>
    refine wp_post (hfail a hs (recordBranch (answer a) w') hclean) fun b w'' hb => ?_
    refine ⟨hb.clean, ha.failures_le.trans hb.failures_le, fun hs' => ?_⟩
    have hfalse := (hb.of_success rfl).2
    exact absurd (hfalse.symm.trans hs') Bool.false_ne_true

/-- Without an entry to store. -/
theorem Reports.observed (hx : Reports less x success set) (answer : α → Answer) :
    Reports less (do
      let a ← x
      modify (recordBranch (answer a))
      pure a) success set := by
  have hbind : Reports less ((do
      let a ← x
      modify (recordBranch (answer a))
      pure a) >>= pure) success set :=
    Reports.record hx answer (fun a w _ hset hw _ => ⟨hw, le_rfl, fun _ => ⟨rfl, hset⟩⟩)
      fun a hs => reports_pure fun _ => hs
  rwa [bind_pure] at hbind

theorem reports_storeTruth (hs : s.Honest less) {q' : Query} {yes : Validity}
    (hlearned : ∀ r b w, r.success = true → r.result = some b →
      Answer.truth q' r ∈ w.branchAnswers →
        Learned (w : SolverState σ).branchAnswers q (ofValidity (if b then yes else .unknown))) :
    Reports less (do
      let r ← (s.observed recordBranch).computeTruth q'
      storeTruth less q yes r) (·.success) (·.IsSet) := by
  refine Reports.record (hs.truth q') (.truth q') (fun r w hsuccess hset hw hmem => ?_)
    fun r hfail => ?_
  · obtain ⟨b, hb⟩ := hset
    unfold storeTruth
    rw [hsuccess, hb]
    simp only [if_true, wp_bind, wp_readOutput_some]
    exact wp_post (wp_insertLearned hw (hlearned r b w hsuccess hb hmem)) fun _ w' h =>
      outcome_of_insert ⟨_, rfl⟩ h
  · unfold storeTruth
    rw [hfail]
    exact reports_pure fun _ => rfl

theorem reports_layerValidity (hs : s.Honest less) (q : Query) :
    Reports less (layerValidity less (s.observed recordBranch) q) (·.success) (·.IsSet) := by
  refine (reports_cacheLookup q).bind (fun cached _ _ => ?_) fun _ h => by cases h
  cases cached with
  | none =>
    refine Reports.record (hs.validity q) (.validity q) (fun r w hsuccess hset hw hmem => ?_)
      fun r hfail => ?_
    · obtain ⟨v, hv⟩ := hset
      unfold storeValidity
      rw [hsuccess, hv]
      simp only [if_true, wp_bind, wp_readOutput_some]
      exact wp_post (wp_insertLearned hw (.validity hmem hsuccess hv)) fun _ w' h =>
        outcome_of_insert ⟨v, hv⟩ h
    · unfold storeValidity
      rw [hfail]
      exact reports_pure fun _ => hfail
  | some pv =>
    cases pv with
    | mayBeTrue =>
      refine reports_storeTruth hs fun r b w hsuccess hb hmem => ?_
      cases b with
      | true => exact .true hmem hsuccess hb
      | false => exact .false hmem hsuccess hb (Or.inr rfl)
    | mayBeFalse =>
      refine reports_storeTruth hs fun r b w hsuccess hb hmem => ?_
      have h := Learned.negated hmem hsuccess hb
      cases b with
      | true => exact h
      | false => exact h
    | none => exact reports_throw (by simp)
    | _ => exact reports_pure fun _ => ⟨_, rfl⟩

theorem reports_layerTruth (hs : s.Honest less) (q : Query) :
    Reports less (layerTruth less (s.observed recordBranch) q) (·.success) (·.IsSet) := by
  refine (reports_cacheLookup q).bind (fun cached _ _ => ?_) fun _ h => by cases h
  apply reports_ite
  · exact reports_pure fun _ => ⟨_, rfl⟩
  refine Reports.record (hs.truth q) (.truth q) (fun r w hsuccess hset hw hmem => ?_)
    fun r hfail => ?_
  · obtain ⟨b, hb⟩ := hset
    unfold storeIsValid
    rw [hsuccess, hb]
    simp only [if_true, wp_bind, wp_readOutput_some]
    apply wp_onCache
    intro pv cache hrun
    have hpv : cache = w.branch ∧ Learned w.branchAnswers q pv := by
      cases b with
      | true =>
        cases hrun
        exact ⟨rfl, .true hmem hsuccess hb⟩
      | false =>
        cases cached with
        | none =>
          cases hrun
          exact ⟨rfl, .false hmem hsuccess hb (Or.inl rfl)⟩
        | some pv' =>
          cases pv' with
          | mayBeTrue =>
            cases hrun
            exact ⟨rfl, .false hmem hsuccess hb (Or.inr rfl)⟩
          | _ => cases hrun
    rw [hpv.1]
    exact wp_bind.mpr (wp_post (wp_insertLearned hw hpv.2) fun _ w' h =>
      outcome_of_insert ⟨b, hb⟩ h)
  · unfold storeIsValid
    rw [hfail]
    exact reports_pure fun _ => hfail

theorem honest (hs : s.Honest less) : (layer less (s.observed recordBranch)).Honest less where
  truth := reports_layerTruth hs
  validity := reports_layerValidity hs
  value q := Reports.observed (hs.value q) (.value q)
  initialValues q objects values :=
    Reports.observed (hs.initialValues q objects values) (.initialValues q objects)

end CachingSolver

end Caching

section Independent

variable {query : Query}

namespace IndependentSolver

theorem reports_stitchAll (factor : IndependentElementSet) (retMap : RetMap) (values : Values)
    {f : RetMap → SolverM σ β} (hf : ∀ retMap, Reports less (f retMap) success' set') :
    Reports less (stitchAll factor retMap values >>= f) success' set' := by
  unfold stitchAll
  rw [bind_assoc]
  apply Reports.assertThat
  cases (factor.arrays.zip values).foldlM (stitch factor) retMap with
  | none => exact reports_throw (by simp)
  | some retMap => exact hf retMap

def endSuccess : Except InitialValues RetMap → Bool
  | .ok _ => true
  | .error r => r.success

def EndSet : Except InitialValues RetMap → Prop
  | .ok _ => True
  | .error r => r.IsSet

theorem reports_layerFactors (hs : s.Honest less) (factors : List IndependentElementSet)
    (retMap : RetMap) : Reports less (layerFactors s factors retMap) endSuccess EndSet := by
  induction factors generalizing retMap with
  | nil => exact reports_pure fun _ => trivial
  | cons factor factors ih =>
    rw [layerFactors]
    apply Reports.assertThat
    apply reports_ite
    · exact ih retMap
    · refine (hs.initialValues _ factor.arrays []).bind (fun r hsuccess hset => ?_) fun r hfail => ?_
      · rw [hsuccess]
        cases hset with
        | inl hunsat =>
          rw [hunsat]
          exact reports_pure fun _ => Or.inl rfl
        | inr hsat =>
          obtain ⟨values, hvalues⟩ := hsat.2
          rw [hsat.1, hvalues]
          exact reports_stitchAll factor retMap values ih
      · rw [hfail]
        exact reports_pure fun _ => rfl

theorem reports_pointSatisfies (assign : ArrayAssignment) (constraints : List Expr)
    {f : Bool → SolverM σ β} (hf : ∀ b, Reports less (f b) success' set') :
    Reports less (pointSatisfies assign constraints >>= f) success' set' := by
  induction constraints with
  | nil => exact hf true
  | cons constraint constraints ih =>
    rw [pointSatisfies]
    cases assign.evaluate constraint with
    | constant evaluated =>
      dsimp only
      split
      · exact hf false
      · exact ih
    | _ => exact reports_throw (by simp)

theorem reports_assertCreatedPoint (assign : ArrayAssignment) (query : Query)
    {f : Bool → SolverM σ β} (hf : ∀ b, Reports less (f b) success' set') :
    Reports less (assertCreatedPointEvaluatesToTrue assign query >>= f) success' set' := by
  unfold assertCreatedPointEvaluatesToTrue
  rw [bind_assoc]
  apply reports_pointSatisfies
  intro satisfied
  cases satisfied with
  | false => exact hf false
  | true =>
    simp only [if_true]
    cases assign.evaluate query.expr.createIsZero with
    | constant q => exact hf q.isTrue
    | _ => exact reports_throw (by simp)

theorem reports_layerInitialValues (hs : s.Honest less) (query : Query) (objects : List Array)
    (values : Values) :
    Reports less (layerInitialValues s query objects values) (·.success) (·.IsSet) := by
  unfold layerInitialValues
  cases getAllIndependentConstraintsSets query with
  | none => exact reports_throw (by simp)
  | some factors =>
    refine (reports_layerFactors hs factors _).bind (fun r hsuccess hset => ?_) fun r hfail => ?_
    · cases r with
      | error r => exact reports_pure fun _ => hset
      | ok retMap =>
        apply reports_assertCreatedPoint
        intro satisfied
        apply Reports.assertThat
        exact reports_pure fun _ => Or.inr ⟨rfl, _, rfl⟩
    · cases r with
      | error r => exact reports_pure fun _ => hfail
      | ok retMap => cases hfail

theorem honest (hs : s.Honest less) : (layer s).Honest less where
  truth _ := hs.truth _
  validity _ := hs.validity _
  value _ := hs.value _
  initialValues := reports_layerInitialValues hs

end IndependentSolver

end Independent

section Validating

namespace ValidatingSolver

theorem reports_compare [DecidableEq α] {x y : SolverM σ (Reply α)}
    (hx : Reports less x (·.success) (·.IsSet)) (hy : Reports less y (·.success) (·.IsSet))
    (message : String) :
    Reports less (do let r ← x; compare message r y) (·.success) (·.IsSet) := by
  refine hx.bind (fun r hs hset => ?_) fun r hs => ?_
  · simp only [compare, hs, if_true]
    refine hy.bind (fun answer hsuccess hanswer => ?_) fun answer hfail => ?_
    · obtain ⟨a, ha⟩ := hset
      obtain ⟨b, hb⟩ := hanswer
      simp only [hsuccess, ha, hb, if_true, readOutput_some_bind]
      apply Reports.assertThat
      exact reports_pure fun _ => ⟨a, ha⟩
    · simp only [hfail, Bool.false_eq_true, if_false]
      exact reports_pure fun _ => rfl
  · simp only [compare, hs, Bool.false_eq_true, if_false]
    exact reports_pure fun _ => hs

theorem reports_checkTruth (ho : oracle.Honest less) (message : String) (expected : Bool)
    (q : Query) : Reports less (checkTruth oracle message expected q) id fun _ => True := by
  refine (ho.truth q).bind (fun answer hsuccess hset => ?_) fun answer hfail => ?_
  · obtain ⟨b, hb⟩ := hset
    simp only [hsuccess, hb, if_true, readOutput_some_bind]
    apply Reports.assertThat
    exact reports_pure fun _ => trivial
  · simp only [hfail, Bool.false_eq_true, if_false]
    exact reports_pure fun _ => rfl

theorem reports_checkValue (hs : s.Honest less) (ho : oracle.Honest less) (q : Query) :
    Reports less (do let r ← s.computeValue q; checkValue oracle q r) (·.success) (·.IsSet) := by
  refine (hs.value q).bind (fun r hsuccess hset => ?_) fun r hfail => ?_
  · obtain ⟨e, he⟩ := hset
    simp only [checkValue, hsuccess, he, if_true, readOutput_some_bind]
    exact (reports_checkTruth ho _ _ _).bind (fun ok _ _ => reports_pure fun _ => ⟨e, rfl⟩)
      fun ok hok => reports_pure fun _ => hok
  · unfold checkValue
    rw [hfail]
    exact reports_pure fun _ => hfail

theorem reports_checkInitialValues (hs : s.Honest less) (ho : oracle.Honest less) (q : Query)
    (objects : List Array) (values : Values) :
    Reports less (do
      let r ← s.computeInitialValues q objects values
      checkInitialValues oracle q objects r) (·.success) (·.IsSet) := by
  refine (hs.initialValues q objects values).bind (fun r hsuccess hset => ?_) fun r hfail => ?_
  · have hrest (message : String) (expected : Bool) (q : Query) :
        Reports less (do
          let ok ← checkTruth oracle message expected q
          pure { r with success := ok }) (·.success) (·.IsSet) :=
      (reports_checkTruth ho message expected q).bind (fun ok _ _ => reports_pure fun _ => hset)
        fun ok hok => reports_pure fun _ => hok
    obtain ⟨success, found, hasSolution⟩ := r
    simp only [checkInitialValues, show success = true from hsuccess, if_true]
    cases hset with
    | inl hunsat =>
      obtain rfl : hasSolution = some false := hunsat
      exact hrest _ _ q
    | inr hsat =>
      obtain rfl : hasSolution = some true := hsat.1
      obtain ⟨bytes, hbytes⟩ := hsat.2
      obtain rfl : found = some bytes := hbytes
      exact hrest _ _ _
  · unfold checkInitialValues
    rw [hfail]
    exact reports_pure fun _ => hfail

theorem honest (hs : s.Honest less) (ho : oracle.Honest less) : (layer s oracle).Honest less where
  truth q := reports_compare (hs.truth q) (ho.truth q) _
  validity q := reports_compare (hs.validity q) (ho.validity q) _
  value := reports_checkValue hs ho
  initialValues := reports_checkInitialValues hs ho

end ValidatingSolver

end Validating

end Layers

section Chain

variable {s : SolverLayer σ} {fastCex : IncompleteSolver} {o : ChainOptions}

theorem SolverLayer.Honest.addIf {layer : SolverLayer σ → SolverLayer σ}
    (hlayer : ∀ {s : SolverLayer σ}, s.Honest less → (layer s).Honest less) (option : Bool)
    (hs : s.Honest less) : (s.addIf option layer).Honest less := by
  cases option with
  | false => exact hs
  | true => exact hlayer hs

/-- Without the layer that validates assignments, the chain reports every failure. -/
theorem honest_constructSolverChain (h : o.useAssignmentValidatingSolver = false)
    (coreSolver oracleSolver : CoreSolver σ) :
    (constructSolverChain less fastCex o coreSolver oracleSolver).Honest less := by
  unfold constructSolverChain
  rw [h]
  refine SolverLayer.Honest.addIf (fun hs => ValidatingSolver.honest hs oracleSolver.honest) _ ?_
  refine SolverLayer.Honest.addIf QueryLoggingSolver.honest _ ?_
  refine SolverLayer.Honest.addIf QueryLoggingSolver.honest _ ?_
  refine SolverLayer.Honest.addIf (fun hs => ValidatingSolver.honest hs coreSolver.honest) _ ?_
  refine SolverLayer.Honest.addIf IndependentSolver.honest _ ?_
  refine SolverLayer.Honest.addIf CachingSolver.honest _ ?_
  refine SolverLayer.Honest.addIf CexCachingSolver.honest _ ?_
  refine SolverLayer.Honest.addIf StagedSolverImpl.honest _ ?_
  refine SolverLayer.Honest.addIf QueryLoggingSolver.honest _ ?_
  refine SolverLayer.Honest.addIf QueryLoggingSolver.honest _ ?_
  exact coreSolver.honest

end Chain

end Clean

end Klee
