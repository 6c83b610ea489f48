import Klee.Lib.Pointwise
import Klee.Solver.BuilderConstructSpec
import Klee.Solver.CexCachingSound

/-! `Z3SolverImpl`: a query is asserted to Z3 with the values of its constant arrays, and a model
is read back. -/
namespace Klee

open Smt Smt.Term Growing.Setting SolverBuilder

namespace ConstantArrayFinder

def insert (results : List Array) (root : Array) : List Array :=
  if root.isConstantArray && !results.contains root then results ++ [root] else results

mutual

def visit : Expr → List Array → List Array
  | .constant _, results => results
  | .read root head index, results => visit index (insert (visitUpdates head results) root)
  | .notOptimized e, results => visit e results
  | .select c t f, results => visit f (visit t (visit c results))
  | .concat l r, results => visit r (visit l results)
  | .extract e _ _, results => visit e results
  | .cast _ e _, results => visit e results
  | .not e, results => visit e results
  | .arith _ l r, results => visit r (visit l results)
  | .cmp _ l r, results => visit r (visit l results)

def visitUpdates : UpdateNode → List Array → List Array
  | .null, results => results
  | .node next index value, results => visitUpdates next (visit value (visit index results))

end

end ConstantArrayFinder

/-- What `Z3_solver_check` says, with the model or the reason that it gives. -/
inductive SolverCheck where
  | sat (model : Cell → (w : Nat) → BitVec w)
  | unsat
  | undefined (reason : String)

/-- The solver: `-debug-z3-validate-models`, and Z3 itself. -/
structure Z3SolverImpl where
  validateModels : Bool
  solverCheck : List (Term Cell) → SolverCheck

namespace Z3SolverImpl

section Model

variable [BuilderOptions]

def arrayIndexValueExpr (a : ArrayAssertion) : Term Cell :=
  .eq (.select a.array.term (bvConst32 32 a.index.toNat)) (bvConst32 8 a.value.toNat)

/-- The assertions of `internalRunSolver`. -/
def assertQuery (query : Query) : BuildM Z3Builder (List (Term Cell)) := do
  let constraints ← query.constraints.mapM constructExpr
  let z3QueryExpr ← constructExpr query.expr
  let constant_arrays_in_query :=
    (query.constraints ++ [query.expr]).foldl (fun r e => ConstantArrayFinder.visit e r) []
  let array_assertions ← constant_arrays_in_query.mapM fun array => do
    ofOption ((← get).arrays.constantArrayAssertions.lookup array)
  return constraints ++ array_assertions.flatten.map arrayIndexValueExpr ++ [.not z3QueryExpr]

def numeralByte : Option Value → Option (BitVec 8)
  | some (.bitVec w x) => if w = 8 then some (x.setWidth 8) else none
  | _ => none

def isTrueValue : Option Value → Bool
  | some (.bool true) => true
  | _ => false

def readObject (model : Cell → (w : Nat) → BitVec w) (array : Array) :
    BuildM Z3Builder (List (BitVec 8)) :=
  (List.range array.size).mapM fun offset => do
    let initial_read ← getInitialRead array offset
    ofOption (numeralByte (initial_read.eval model))

/-- `none` is a failed run; without objects nothing is read. An unexpected reason aborts. -/
def handleSolverResponse (s : Z3SolverImpl) (assertions : List (Term Cell))
    (objects : Option (List Array)) : BuildM Z3Builder (Option (Option Values)) :=
  match s.solverCheck assertions with
  | .sat model =>
    match objects with
    | none => return some (some [])
    | some objects => do
      let values ← objects.mapM (readObject model)
      require (s.validateModels → ∀ t ∈ assertions, isTrueValue (t.eval model))
      return some (some values)
  | .unsat => return some none
  | .undefined reason => do
    require (reason ∈ ["timeout", "canceled", "(resource limits reached)", "unknown"])
    return none

def internalRunSolver (s : Z3SolverImpl) (query : Query) (objects : Option (List Array)) :
    BuildM Z3Builder (Option (Option Values)) := do
  let assertions ← assertQuery query
  let r ← s.handleSolverResponse assertions objects
  modify clearConstructCache
  return r

/-- `hasSolution` is still false after a failed run. -/
def computeTruth (s : Z3SolverImpl) (query : Query) : BuildM Z3Builder (Reply Bool) := do
  let r ← s.internalRunSolver query none
  return ⟨r.isSome, some r.join.isNone⟩

def computeValidity (s : Z3SolverImpl) (query : Query) :
    BuildM Z3Builder (Reply Validity) := do
  let isTrue ← s.computeTruth query
  if isTrue.success then
    if isTrue.result = some true then return ⟨true, some .true⟩
    else
      let isFalse ← s.computeTruth query.negateExpr
      if isFalse.success then
        return ⟨true, some (if isFalse.result = some true then .false else .unknown)⟩
      else return ⟨false, none⟩
  else return ⟨false, none⟩

def computeInitialValues (s : Z3SolverImpl) (query : Query) (objects : List Array) :
    BuildM Z3Builder InitialValues := do
  let r ← s.internalRunSolver query (some objects)
  return CoreSolver.initialValues [] r

def computeValue (s : Z3SolverImpl) (query : Query) : BuildM Z3Builder (Reply Expr) := do
  let objects := findSymbolicObjects [query.expr]
  let r ← s.internalRunSolver query.withFalse (some objects)
  match r with
  | none => return ⟨false, none⟩
  | some hasSolution =>
    let values ← ofOption hasSolution
    return ⟨true, some ((ArrayAssignment.ofObjects objects values false).evaluate query.expr)⟩

def answer (s : Z3SolverImpl) : Request → BuildM Z3Builder Answer
  | .truth query => .truth query <$> s.computeTruth query
  | .validity query => .validity query <$> s.computeValidity query
  | .value query => .value query <$> s.computeValue query
  | .initialValues query objects =>
    .initialValues query objects <$> s.computeInitialValues query objects

def run (s : Z3SolverImpl) (requests : List Request) : BuildM Z3Builder (List Answer) :=
  requests.mapM s.answer

end Model

end Z3SolverImpl

namespace ConstantArrayFinder

def Reads (root : Array) (e : Expr) : Prop := ¬ e.AllReads fun re => re.updates.root ≠ root

def ReadsUpdates (root : Array) (un : UpdateNode) : Prop :=
  ¬ un.AllReads fun re => re.updates.root ≠ root

variable {root : Array} {results : List Array}

theorem mem_insert {array : Array} :
    root ∈ insert results array ↔
      root ∈ results ∨ (root.isConstantArray = true ∧ array = root) := by
  unfold insert
  by_cases hconst : array.isConstantArray = true
  · by_cases hmem : array ∈ results
    · rw [if_neg (by simp [hmem])]
      refine (or_iff_left_of_imp ?_).symm
      rintro ⟨-, rfl⟩
      exact hmem
    · rw [if_pos (by simp [hconst, hmem]), List.mem_append, List.mem_singleton]
      refine or_congr_right ⟨?_, fun h => h.2.symm⟩
      rintro rfl
      exact ⟨hconst, rfl⟩
  · rw [if_neg (by simp [hconst])]
    refine (or_iff_left_of_imp ?_).symm
    rintro ⟨h, rfl⟩
    exact absurd h hconst

mutual

/-- The constant arrays among those that are read join the results. -/
theorem mem_visit : ∀ (e : Expr) (results : List Array), root ∈ visit e results ↔
    root ∈ results ∨ (root.isConstantArray = true ∧ Reads root e)
  | .constant _, results => by simp [visit, Reads, Expr.AllReads]
  | .read _ head index, results => by
    rw [visit, mem_visit index, mem_insert, mem_visitUpdates head]
    simp only [Reads, ReadsUpdates, Expr.AllReads]
    tauto
  | .notOptimized e, results => by
    rw [visit, mem_visit e]
    rfl
  | .select c t f, results => by
    rw [visit, mem_visit f, mem_visit t, mem_visit c]
    simp only [Reads, Expr.AllReads]
    tauto
  | .concat l r, results => by
    rw [visit, mem_visit r, mem_visit l]
    simp only [Reads, Expr.AllReads]
    tauto
  | .extract e _ _, results => by
    rw [visit, mem_visit e]
    rfl
  | .cast _ e _, results => by
    rw [visit, mem_visit e]
    rfl
  | .not e, results => by
    rw [visit, mem_visit e]
    rfl
  | .arith _ l r, results => by
    rw [visit, mem_visit r, mem_visit l]
    simp only [Reads, Expr.AllReads]
    tauto
  | .cmp _ l r, results => by
    rw [visit, mem_visit r, mem_visit l]
    simp only [Reads, Expr.AllReads]
    tauto

theorem mem_visitUpdates : ∀ (un : UpdateNode) (results : List Array),
    root ∈ visitUpdates un results ↔
      root ∈ results ∨ (root.isConstantArray = true ∧ ReadsUpdates root un)
  | .null, results => by simp [visitUpdates, ReadsUpdates, UpdateNode.AllReads]
  | .node next index value, results => by
    rw [visitUpdates, mem_visitUpdates next, mem_visit value, mem_visit index]
    simp only [Reads, ReadsUpdates, UpdateNode.AllReads]
    tauto

end

theorem mem_foldl_visit (es : List Expr) : root ∈ es.foldl (fun r e => visit e r) results ↔
    root ∈ results ∨ (root.isConstantArray = true ∧ ∃ e ∈ es, Reads root e) := by
  induction es generalizing results with
  | nil => simp
  | cons e es ih =>
    rw [List.foldl_cons, ih, mem_visit]
    simp only [List.exists_mem_cons_iff]
    tauto

end ConstantArrayFinder

/-- Each constraint, and then the expression, is within bounds where those before it hold. -/
def GuardedBy (σ : Assignment) (goal : Expr) : List Expr → Prop
  | [] => goal.WithinBounds (fun _ => True) σ
  | c :: cs => c.WithinBounds (fun _ => True) σ ∧ (c.Holds σ → GuardedBy σ goal cs)

/-- A query that Z3's builder is made for: reads and shifts are guarded by the constraints. -/
structure Query.Suitable (q : Query) : Prop where
  wellTyped : q.WellTyped
  constraints : ∀ c ∈ q.constraints, c.Constructible .z3
  expr : q.expr.Constructible .z3
  guarded : ∀ σ, GuardedBy σ q.expr q.constraints

namespace Z3SolverImpl

/-- The documented behaviour of `Z3_solver_check` on Boolean terms. -/
structure Z3Right (s : Z3SolverImpl) : Prop where
  sat : ∀ ts model, (∀ t ∈ ts, t.sort = some .bool) → s.solverCheck ts = .sat model →
    ∀ t ∈ ts, IsBool model t true
  unsat : ∀ ts, (∀ t ∈ ts, t.sort = some .bool) → s.solverCheck ts = .unsat →
    ∀ env, ¬ ∀ t ∈ ts, IsBool env t true
  undefined : ∀ ts reason, (∀ t ∈ ts, t.sort = some .bool) → s.solverCheck ts = .undefined reason →
    reason ∈ ["timeout", "canceled", "(resource limits reached)", "unknown"]

section Assertions

variable {b : Builder Z3Builder} {env : Cell → (w : Nat) → BitVec w}
  {σ : Assignment} {e : Expr} {t : Term Cell} {q : Query}

theorem sort_of_hasWidth (h : HasWidth t 1) : t.sort = some .bool := by
  obtain ⟨x, hx⟩ := h fun _ _ => 0
  rw [← map_sort_eval (fun _ _ => 0) t, hx.bool rfl]
  rfl

/-- A Boolean term says whether its expression holds. -/
theorem isBool_of_gives {i : Interpretation} (h : i.Gives t e) (he : e.width = 1)
    (hin : e.WithinBounds i.known i.σ) : IsBool i.env t (decide (e.Holds i.σ)) := by
  refine ((h.at hin he).bool rfl).congr ?_
  rw [Bool.eq_iff_iff, decide_eq_true_iff, Expr.Holds, one_iff_getLsbD]

theorem isBool_unique {x y : Bool} (hx : IsBool env t x) (hy : IsBool env t y) : x = y := by
  have h := hx.symm.trans hy
  cases h
  rfl

mutual

/-- Bounds in terms of the arrays that an expression reads. -/
theorem withinBounds_known {known : Array → Prop} : ∀ e : Expr,
    e.WithinBounds (fun _ => True) σ → (e.AllReads fun re => known re.updates.root) →
      e.WithinBounds known σ
  | .constant _, _, _ => trivial
  | .notOptimized e, h, hr => withinBounds_known e h hr
  | .read _ head index, h, hr =>
    ⟨hr.1, updates_withinBounds_known head h.2.1 hr.2.1, withinBounds_known index h.2.2.1 hr.2.2,
      h.2.2.2⟩
  | .select c t f, h, hr =>
    ⟨withinBounds_known c h.1 hr.1, withinBounds_known t h.2.1 hr.2.1,
      withinBounds_known f h.2.2 hr.2.2⟩
  | .concat l r, h, hr => ⟨withinBounds_known l h.1 hr.1, withinBounds_known r h.2 hr.2⟩
  | .extract e _ _, h, hr => withinBounds_known e h hr
  | .cast _ e _, h, hr => withinBounds_known e h hr
  | .not e, h, hr => withinBounds_known e h hr
  | .arith _ l r, h, hr =>
    ⟨withinBounds_known l h.1 hr.1, withinBounds_known r h.2.1 hr.2, h.2.2⟩
  | .cmp _ l r, h, hr => ⟨withinBounds_known l h.1 hr.1, withinBounds_known r h.2 hr.2⟩

theorem updates_withinBounds_known {known : Array → Prop} : ∀ un : UpdateNode,
    un.WithinBounds (fun _ => True) σ → (un.AllReads fun re => known re.updates.root) →
      un.WithinBounds known σ
  | .null, _, _ => trivial
  | .node next index value, h, hr =>
    ⟨updates_withinBounds_known next h.1 hr.1, withinBounds_known index h.2.1 hr.2.1,
      withinBounds_known value h.2.2 hr.2.2⟩

end

def Known (arrays : List Array) (root : Array) : Prop :=
  root.isConstantArray = true → root ∈ arrays

/-- The environment of the solver gives the arrays of the builder the bytes of `σ`. -/
def Reflects (env : Cell → (w : Nat) → BitVec w) (σ : Assignment) (b : Builder Z3Builder) : Prop :=
  ∀ root e, b.arrays.arrHash.lookup root = some e → root.isSymbolicArray = true →
    ∀ i : BitVec 32, i.toNat < root.size → env (e.base, i) 8 = σ root i.toNat

/-- The value of an assertion for a constant array. -/
theorem isBool_arrayIndexValueExpr {name : List Char} {i : BitVec 32} {v : BitVec 8} :
    IsBool env (arrayIndexValueExpr ⟨.symbol name, i, v⟩) (env (name, i) 8 == v) := by
  have hi : IsBits env (bvConst32 32 i.toNat) 32 i :=
    (isBits_bvConst32 32 _).congr (by rw [BitVec.ofNat_toNat, BitVec.setWidth_eq])
  have hv : IsBits env (bvConst32 8 v.toNat) 8 v :=
    (isBits_bvConst32 8 _).congr (by rw [BitVec.ofNat_toNat, BitVec.setWidth_eq])
  exact (IsArray.select (isArray_array _) hi).eq hv

theorem sort_of_isBool (env : Cell → (w : Nat) → BitVec w) {p : Bool} (h : IsBool env t p) :
    t.sort = some .bool := by
  rw [← map_sort_eval env t, h]
  rfl

/-- What follows from the constraints in their order. -/
theorem guarded_of_holds {goal : Expr} {cs : List Expr} (h : GuardedBy σ goal cs)
    (hholds : ∀ c ∈ cs, c.WithinBounds (fun _ => True) σ → c.Holds σ) :
    (∀ c ∈ cs, c.WithinBounds (fun _ => True) σ ∧ c.Holds σ) ∧
      goal.WithinBounds (fun _ => True) σ := by
  induction cs with
  | nil => exact ⟨fun _ hc => absurd hc List.not_mem_nil, h⟩
  | cons c cs ih =>
    have hc := hholds c List.mem_cons_self h.1
    obtain ⟨hrest, hgoal⟩ := ih (h.2 hc) fun c' hc' => hholds c' (List.mem_cons_of_mem c hc')
    exact ⟨List.forall_mem_cons.mpr ⟨⟨h.1, hc⟩, hrest⟩, hgoal⟩

/-- The table of assertions is asked for each array. -/
theorem mapM_lookup (arrays : List Array)
    (h : ∀ root ∈ arrays, b.arrays.constantArrayAssertions.lookup root ≠ none) :
    (arrays.mapM fun array => do
      ofOption ((← get).arrays.constantArrayAssertions.lookup array) :
      BuildM Z3Builder (List (List ArrayAssertion))) b =
      some (arrays.map fun root => (b.arrays.constantArrayAssertions.lookup root).getD [], b) := by
  induction arrays with
  | nil => rfl
  | cons root arrays ih =>
    obtain ⟨l, hl⟩ := Option.ne_none_iff_exists'.mp (h root List.mem_cons_self)
    have hfirst : ((do ofOption ((← get).arrays.constantArrayAssertions.lookup root) :
        BuildM Z3Builder (List ArrayAssertion)) b) = some (l, b) := by
      change (b.arrays.constantArrayAssertions.lookup root).map (·, b) = _
      rw [hl]
      rfl
    rw [List.mapM_cons, run_bind hfirst,
      run_bind (ih fun root' hr => h root' (List.mem_cons_of_mem root hr)), List.map_cons, hl]
    rfl

/-- The arrays that are read decide about all reads. -/
theorem allReads_of_reads {P : Array → Prop} (e : Expr)
    (h : ∀ root, ConstantArrayFinder.Reads root e → P root) :
    e.AllReads fun re => P re.updates.root := by
  induction hn : sizeOf e using Nat.strong_induction_on generalizing e with
  | _ n ih =>
    subst hn
    rw [e.allReads_iff]
    refine ⟨fun re hre => h _ fun hall => ?_, fun k hk => ?_⟩
    · exact (e.allReads_iff.mp hall).1 re hre rfl
    · exact ih _ (sizeOf_operands_lt hk) k
        (fun root hroot => h root fun hall => hroot ((e.allReads_iff.mp hall).2 k hk)) rfl

end Assertions

section Query

variable {b : Builder Z3Builder} {q : Query} {env : Cell → (w : Nat) → BitVec w}
  {σ : Assignment} {arrays : List Array} {es : List Expr}

/-- The arrays of a query, and what the builder knows of them when the query is constructed. -/
structure ArraysReady (arrays : List Array) (es : List Expr) (b : Builder Z3Builder) : Prop where
  known : ∀ e ∈ es, e.AllReads fun re => Known arrays re.updates.root
  asserted : ∀ root ∈ arrays, root.isConstantArray = true ∧ ∃ name,
    b.arrays.arrHash.lookup root = some (.symbol name) ∧
      b.arrays.constantArrayAssertions.lookup root =
        some (root.indexedValues.map fun v => ArrayAssertion.mk (.symbol name) v.1 v.2)

theorem arraysReady (hb : Inv b)
    (hmissing : ∀ root, Fits (.missing root) b →
      ∀ e ∈ es, e.AllReads fun re => re.updates.root ≠ root) :
    ArraysReady (es.foldl (fun r e => ConstantArrayFinder.visit e r) []) es b := by
  have hmem (root : Array) : root ∈ es.foldl (fun r e => ConstantArrayFinder.visit e r) [] ↔
      root.isConstantArray = true ∧ ∃ e ∈ es, ConstantArrayFinder.Reads root e :=
    (ConstantArrayFinder.mem_foldl_visit es).trans (or_iff_right List.not_mem_nil)
  constructor
  · intro e he
    exact allReads_of_reads e fun root hroot hconst => (hmem root).mpr ⟨hconst, e, he, hroot⟩
  · intro root hroot
    obtain ⟨hconst, e, he, hreads⟩ := (hmem root).mp hroot
    refine ⟨hconst, ?_⟩
    cases hlookup : b.arrays.arrHash.lookup root with
    | none => exact absurd (hmissing root hlookup e he) hreads
    | some array =>
      obtain ⟨name, rfl⟩ := hb.arrays.symbol root array hlookup
      exact ⟨name, rfl, hb.arrays.asserted root _ hlookup hconst⟩

def arrayTerms (arrays : List Array) (b : Builder Z3Builder) : List (Term Cell) :=
  (arrays.map fun root =>
    (b.arrays.constantArrayAssertions.lookup root).getD []).flatten.map arrayIndexValueExpr

theorem mem_arrayTerms (h : ArraysReady arrays es b) {t : Term Cell} :
    t ∈ arrayTerms arrays b ↔ ∃ root ∈ arrays, ∃ name,
      b.arrays.arrHash.lookup root = some (.symbol name) ∧ ∃ i < root.size,
        t = arrayIndexValueExpr
          ⟨.symbol name, BitVec.ofNat 32 i, root.constantValues.getD i 0⟩ := by
  simp only [arrayTerms, List.mem_map, List.mem_flatten, exists_exists_and_eq_and]
  constructor
  · rintro ⟨a, ⟨root, hroot, ha⟩, rfl⟩
    obtain ⟨-, name, hlookup, hassert⟩ := h.asserted root hroot
    rw [hassert, Option.getD_some] at ha
    obtain ⟨v, hv, rfl⟩ := List.mem_map.mp ha
    obtain ⟨i, hi, rfl⟩ := List.mem_map.mp hv
    exact ⟨root, hroot, name, hlookup, i, List.mem_range.mp hi, rfl⟩
  · rintro ⟨root, hroot, name, hlookup, i, hi, rfl⟩
    obtain ⟨-, name', hlookup', hassert⟩ := h.asserted root hroot
    obtain rfl : name' = name := by
      rw [hlookup] at hlookup'
      exact (SolverArray.symbol.inj (Option.some.inj hlookup')).symm
    refine ⟨_, ⟨root, hroot, ?_⟩, rfl⟩
    rw [hassert, Option.getD_some]
    exact List.mem_map.mpr ⟨_, List.mem_map.mpr ⟨i, List.mem_range.mpr hi, rfl⟩, rfl⟩

/-- An environment that meets the assertions gives the arrays of the query their bytes. -/
theorem fits_of_arrayTerms (hb : Inv b) (h : ArraysReady arrays es b)
    (hterms : ∀ t ∈ arrayTerms arrays b, IsBool env t true) (hreflects : Reflects env σ b) :
    Fits (.values ⟨env, σ, Known arrays⟩) b := by
  intro root e hknown hlookup
  refine LawfulArrayBuilder.explains b.arrays root e env σ hb.arrays hlookup fun j hj => ?_
  by_cases hconst : root.isConstantArray = true
  · obtain ⟨name, rfl⟩ := hb.arrays.symbol root e hlookup
    have hterm := hterms _ ((mem_arrayTerms h).mpr
      ⟨root, hknown hconst, name, hlookup, j.toNat, hj, rfl⟩)
    have hbyte := isBool_unique isBool_arrayIndexValueExpr hterm
    rw [BitVec.ofNat_toNat, BitVec.setWidth_eq] at hbyte
    rw [Array.initial, if_pos hconst]
    exact beq_iff_eq.mp hbyte
  · have hsym : root.isSymbolicArray = true := by simpa [Array.isConstantArray] using hconst
    rw [Array.initial, if_neg hconst, if_pos hj]
    exact hreflects root e hlookup hsym j hj

/-- And back. -/
theorem arrayTerms_of_fits (h : ArraysReady arrays es b)
    (hfits : Fits (.values ⟨env, σ, fun _ => True⟩) b) {t : Term Cell}
    (ht : t ∈ arrayTerms arrays b) : IsBool env t true := by
  obtain ⟨root, hroot, name, hlookup, i, hi, rfl⟩ := (mem_arrayTerms h).mp ht
  have hbytes := isArrayOf_symbol.mp (hfits root _ trivial hlookup)
  have hi32 : (BitVec.ofNat 32 i).toNat = i := by
    rw [BitVec.toNat_ofNat, Nat.mod_eq_of_lt (hi.trans root.size_lt)]
  have hvalue : env (name, BitVec.ofNat 32 i) 8 = root.constantValues.getD i 0 := by
    have hbyte := hbytes (BitVec.ofNat 32 i) (hi32.symm ▸ hi)
    rwa [hi32, Array.initial, if_pos (h.asserted root hroot).1] at hbyte
  exact isBool_arrayIndexValueExpr.congr (beq_iff_eq.mpr hvalue)

variable [BuilderOptions]

structure Asserts (q : Query) (ts : List (Term Cell)) (b : Builder Z3Builder) : Prop where
  sorts : ∀ t ∈ ts, t.sort = some .bool
  sound : ∀ env σ, (∀ t ∈ ts, IsBool env t true) → Reflects env σ b → q.Solves σ
  complete : SymbolsApart b.arrays.arrHash → ∀ σ, q.Solves σ →
    ∃ env, ∀ t ∈ ts, IsBool env t true

theorem assertQuery_spec (hq : q.Suitable) (hb : Inv b) :
    ∃ ts b', assertQuery q b = some (ts, b') ∧ Inv b' ∧ (∀ i, Fits i b' → Fits i b) ∧
      Asserts q ts b' := by
  have hconstraints := runs_mapM (S := tables Z3Builder) (f := constructExpr)
    fun c hc => constructExpr_runs (hq.wellTyped.1 c hc).1 (hq.constraints c hc)
  obtain ⟨cs, b₁, hrun₁, hb₁, hfits₁, hwidth, hsays⟩ := hconstraints b hb
  obtain ⟨t, b₂, hrun₂, hb₂, hfits₂, hwidth₂, hsays₂⟩ :=
    constructExpr_runs (B := Z3Builder) hq.wellTyped.2.1 hq.expr b₁ hb₁
  have hready : ArraysReady _ (q.constraints ++ [q.expr]) b₂ := arraysReady hb₂ fun root hroot => by
    have hcs := hsays (.missing root) (hfits₂ _ hroot)
    have ht := hsays₂ (.missing root) hroot
    refine List.forall_mem_append.mpr ⟨fun c hc => ?_, List.forall_mem_singleton.mpr ht⟩
    obtain ⟨c', -, hc'⟩ := Pointwise.forall₂_mem_left hcs hc
    exact hc'
  obtain ⟨arrays, harrays⟩ : ∃ arrays, arrays =
    (q.constraints ++ [q.expr]).foldl (fun r e => ConstantArrayFinder.visit e r) [] := ⟨_, rfl⟩
  rw [← harrays] at hready
  refine ⟨cs ++ arrayTerms arrays b₂ ++ [.not t], b₂, ?_, hb₂,
    fun i hi => hfits₁ i (hfits₂ i hi), ?_, fun env σ hterms hreflects => ?_,
    fun hapart σ hσ => ?_⟩
  · have hlookups := mapM_lookup (b := b₂) arrays fun root hroot => by
      obtain ⟨-, name, -, hassert⟩ := hready.asserted root hroot
      rw [hassert]
      exact Option.some_ne_none _
    unfold assertQuery
    rw [run_bind hrun₁, run_bind hrun₂, ← harrays]
    exact run_bind hlookups
  · intro t' ht'
    obtain (ht' | ht') | ht' := (List.mem_append.mp ht').imp_left List.mem_append.mp
    · obtain ⟨c, hc, hw⟩ := Pointwise.forall₂_mem_right hwidth ht'
      exact sort_of_hasWidth ((hq.wellTyped.1 c hc).2 ▸ hw)
    · obtain ⟨root, -, name, -, i, -, rfl⟩ := (mem_arrayTerms hready).mp ht'
      exact sort_of_isBool (fun _ _ => 0) isBool_arrayIndexValueExpr
    · obtain rfl := List.mem_singleton.mp ht'
      obtain ⟨x, hx⟩ := hwidth₂ fun _ _ => 0
      exact sort_of_isBool _ (hx.bool hq.wellTyped.2.2).not
  · -- a model satisfies the constraints one after the other
    have hfits := fits_of_arrayTerms hb₂ hready (fun t' ht' => hterms t' (by simp [ht'])) hreflects
    have hcs := hsays (.values ⟨env, σ, Known arrays⟩) (hfits₂ _ hfits)
    obtain ⟨hall, hgoal⟩ := guarded_of_holds (hq.guarded σ) fun c hc hin => by
      obtain ⟨c', hc', hgives⟩ := Pointwise.forall₂_mem_left hcs hc
      have hknown := withinBounds_known c hin
        (hready.known c (List.mem_append_left _ hc))
      have hbool := isBool_of_gives hgives (hq.wellTyped.1 c hc).2 hknown
      exact of_decide_eq_true (isBool_unique hbool (hterms c' (by simp [hc'])))
    refine ⟨fun c hc => (hall c hc).2, fun hholds => ?_⟩
    have hknown := withinBounds_known q.expr hgoal (hready.known _ (by simp))
    have hbool := isBool_of_gives (hsays₂ (.values _) hfits) hq.wellTyped.2.2 hknown
    have hnot := isBool_unique hbool.not (hterms (.not t) (by simp))
    rw [decide_eq_true hholds] at hnot
    cases hnot
  · obtain ⟨env, hfits⟩ := exists_fits hb₂ hapart σ fun _ => True
    obtain ⟨hall, hgoal⟩ := guarded_of_holds (hq.guarded σ) fun c hc _ => hσ.1 c hc
    have hcs := hsays (.values ⟨env, σ, fun _ => True⟩) (hfits₂ _ hfits)
    have ht : Interpretation.Gives ⟨env, σ, fun _ => True⟩ t q.expr :=
      hsays₂ (.values _) hfits
    refine ⟨env, fun t' ht' => ?_⟩
    obtain (ht' | ht') | ht' := (List.mem_append.mp ht').imp_left List.mem_append.mp
    · obtain ⟨c, hc, hgives⟩ := Pointwise.forall₂_mem_right hcs ht'
      refine (isBool_of_gives hgives (hq.wellTyped.1 c hc).2 (hall c hc).1).congr ?_
      exact decide_eq_true (hall c hc).2
    · exact arrayTerms_of_fits hready hfits ht'
    · obtain rfl := List.mem_singleton.mp ht'
      refine (isBool_of_gives ht hq.wellTyped.2.2 hgoal).not.congr ?_
      simpa using hσ.2

end Query

section Answers

variable {b : Builder Z3Builder} {q : Query} {model : Cell → (w : Nat) → BitVec w}
  {σ : Assignment} {s : Z3SolverImpl}

/-- The bytes are those of the array, as a reader of its symbol sees them. -/
def ReadBy (model : Cell → (w : Nat) → BitVec w) (i : Reader) (array : Array)
    (bytes : List (BitVec 8)) : Prop :=
  match i with
  | .values i => i.env = model → i.known array →
      ∀ j < array.size, bytes.getD j 0 = array.initial i.σ j
  | _ => True

/-- One byte of the loop. -/
theorem readByte_runs (array : Array) (offset : Nat) :
    (tables Z3Builder).Runs (do
      let initial_read ← getInitialRead array offset
      ofOption (numeralByte (initial_read.eval model))) (fun _ => True) fun i byte =>
      match i with
      | .values i => i.env = model → i.known array → offset < array.size →
          byte = array.initial i.σ offset
      | _ => True := by
  unfold getInitialRead
  rw [bind_assoc]
  refine Runs.bind (getInitialArray_constructs array) fun t ht => ?_
  obtain ⟨f, hf⟩ := ht model
  have hread := hf.select (isBits_bvConst32 32 offset)
  have hbyte : numeralByte ((Term.select t (bvConst32 32 offset)).eval model) =
      some (f (BitVec.ofNat 32 offset)) := by
    rw [hread, numeralByte, if_pos rfl, BitVec.setWidth_eq]
  rw [pure_bind]
  refine (runs_ofOption (S := tables Z3Builder) (P := fun x => x = f (BitVec.ofNat 32 offset))
    (Q := fun _ _ => True) hbyte rfl fun _ => trivial).weaken (fun _ _ => trivial) ?_
  rintro i byte rfl - hsays
  cases i with
  | values i =>
    rintro rfl hknown hlt
    obtain ⟨g, hg, hvalue⟩ := hsays hknown trivial
    have hoffset : (BitVec.ofNat 32 offset).toNat = offset := by
      rw [BitVec.toNat_ofNat, Nat.mod_eq_of_lt (hlt.trans array.size_lt)]
    have hinit := hvalue (BitVec.ofNat 32 offset) (by rw [hoffset]; exact hlt)
    have hnull : UpdateNode.eval i.σ array .null (BitVec.ofNat 32 offset) =
        array.initial i.σ offset := by rw [UpdateNode.eval, hoffset]
    rw [hf.unique hg]
    exact hinit.trans hnull
  | missing root => exact trivial
  | apart => exact trivial

theorem readObject_runs (array : Array) :
    (tables Z3Builder).Runs (readObject model array) (fun bytes => bytes.length = array.size)
      fun i bytes => ReadBy model i array bytes := by
  refine (runs_mapM fun offset _ => readByte_runs array offset).weaken
    (fun bytes h => ?_) fun i bytes h hread => ?_
  · rw [← h.length_eq, List.length_range]
  · cases i with
    | values i =>
      intro henv hknown j hj
      have hj' : j < (List.range array.size).length := by rwa [List.length_range]
      have hbytes : j < bytes.length := hread.length_eq ▸ hj'
      have hbyte := hread.get hj' hbytes henv hknown
      simp only [List.get_eq_getElem, List.getElem_range] at hbyte
      rw [List.getD_eq_getElem _ _ hbytes]
      exact hbyte hj
    | missing root => exact trivial
    | apart => exact trivial

theorem readObjects_runs (model : Cell → (w : Nat) → BitVec w) (objects : List Array) :
    (tables Z3Builder).Runs (objects.mapM (readObject model))
      (List.Forall₂ (fun array bytes => bytes.length = array.size) objects) fun i =>
        List.Forall₂ (ReadBy model i) objects :=
  runs_mapM fun array _ => readObject_runs array

def modelAssignment (model : Cell → (w : Nat) → BitVec w) (b : Builder Z3Builder) : Assignment :=
  fun root i =>
    match b.arrays.arrHash.lookup root with
    | some e => model (e.base, BitVec.ofNat 32 i) 8
    | none => 0

theorem reflects_modelAssignment (model : Cell → (w : Nat) → BitVec w) (b : Builder Z3Builder) :
    Reflects model (modelAssignment model b) b := by
  intro root e he _ i _
  simp only [modelAssignment, he, BitVec.ofNat_toNat, BitVec.setWidth_eq]

theorem reflects_iff_fits (hb : Inv b) :
    Reflects model σ b ↔ Fits (.values ⟨model, σ, fun root => root.isSymbolicArray = true⟩) b := by
  have hinit {root : Array} (hsym : root.isSymbolicArray = true) {j : BitVec 32}
      (hj : j.toNat < root.size) : root.initial σ j.toNat = σ root j.toNat := by
    rw [Array.initial, if_neg (by simp [Array.isConstantArray, hsym]), if_pos hj]
  constructor
  · intro h root e hsym he
    refine LawfulArrayBuilder.explains b.arrays root e model σ hb.arrays he fun j hj => ?_
    rw [hinit hsym hj]
    exact h root e he hsym j hj
  · intro h root e he hsym j hj
    obtain ⟨name, rfl⟩ := hb.arrays.symbol root e he
    exact (isArrayOf_symbol.mp (h root _ hsym he) j hj).trans (hinit hsym hj)

def SatRight (q : Query) (objects : Option (List Array)) (r : Option (Option Values)) : Prop :=
  ∀ values, r = some (some values) →
    ∃ τ, q.Solves τ ∧ ∀ os, objects = some os → ValuesOf τ os values

def UnsatRight (q : Query) (r : Option (Option Values)) : Prop :=
  r = some none → ∀ τ, ¬ q.Solves τ

theorem handleSolverResponse_spec (hs : s.Z3Right) {ts : List (Term Cell)} (hb : Inv b)
    (h : Asserts q ts b) (objects : Option (List Array)) :
    ∃ r b', s.handleSolverResponse ts objects b = some (r, b') ∧ Inv b' ∧
      (∀ i, Fits i b' → Fits i b) ∧ SatRight q objects r ∧
      (SymbolsApart b.arrays.arrHash → UnsatRight q r) := by
  have hunsat (r : Option (Option Values)) (hr : r ≠ some none) :
      SymbolsApart b.arrays.arrHash → UnsatRight q r := fun _ heq => absurd heq hr
  unfold handleSolverResponse
  cases hcheck : s.solverCheck ts with
  | unsat =>
    refine ⟨some none, b, rfl, hb, fun _ hi => hi, fun values hr => (by cases hr), ?_⟩
    intro hapart _ τ hτ
    obtain ⟨env, henv⟩ := h.complete hapart τ hτ
    exact hs.unsat ts h.sorts hcheck env henv
  | undefined reason =>
    have hreason := hs.undefined ts reason h.sorts hcheck
    refine ⟨none, b, ?_, hb, fun _ hi => hi, fun values hr => (by cases hr), hunsat none (by simp)⟩
    exact (run_bind (x := require _) (by rw [require, if_pos hreason]; rfl)).trans rfl
  | sat model =>
    have hmodel := hs.sat ts model h.sorts hcheck
    cases objects with
    | none =>
      refine ⟨some (some []), b, rfl, hb, fun _ hi => hi, fun values _ => ?_, hunsat _ (by simp)⟩
      exact ⟨_, h.sound model _ hmodel (reflects_modelAssignment model b),
        fun _ hos => (by cases hos)⟩
    | some os =>
      obtain ⟨values, b', hrun, hb', hfits, hlength, hread⟩ :=
        readObjects_runs model os b hb
      refine ⟨some (some values), b', ?_, hb', hfits, fun values' hr => ?_, hunsat _ (by simp)⟩
      · have hvalid : s.validateModels → ∀ t ∈ ts, isTrueValue (t.eval model) := fun _ t ht => by
          rw [hmodel t ht]
          rfl
        dsimp only
        rw [run_bind hrun]
        exact (run_bind (x := require _) (by rw [require, if_pos hvalid]; rfl)).trans rfl
      · obtain rfl := Option.some.inj (Option.some.inj hr)
        have hreflects := reflects_modelAssignment model b'
        have hfit' := (reflects_iff_fits hb').mp hreflects
        have hreflects' := (reflects_iff_fits hb).mpr (hfits (.values _) hfit')
        refine ⟨_, h.sound model _ hmodel hreflects', fun os' hos => ?_⟩
        obtain rfl := Option.some.inj hos
        have hbytes := hread (.values _) hfit'
        refine List.forall₂_iff_zip.mpr ⟨hlength.length_eq, fun {array bytes} hmem => ⟨?_, ?_⟩⟩
        · exact (List.forall₂_iff_zip.mp hlength).2 hmem
        · intro hsym i hi
          have hbyte := (List.forall₂_iff_zip.mp hbytes).2 hmem rfl hsym i hi
          rw [hbyte, Array.initial, if_neg (by simp [Array.isConstantArray, hsym]), if_pos hi]

variable [BuilderOptions]

/-- No solution is right for a builder whose arrays are apart, a solution for every one. -/
theorem internalRunSolver_runs (hs : s.Z3Right) (hq : q.Suitable)
    (objects : Option (List Array)) :
    (tables Z3Builder).Runs (s.internalRunSolver q objects) (SatRight q objects)
      fun i r => i = .apart → UnsatRight q r := by
  intro b hb
  obtain ⟨ts, b₁, hrun₁, hb₁, hfits₁, hasserts⟩ := assertQuery_spec hq hb
  obtain ⟨r, b₂, hrun₂, hb₂, hfits₂, hsat, hunsat⟩ :=
    handleSolverResponse_spec hs hb₁ hasserts objects
  obtain ⟨u, b₃, hrun₃, hb₃, hfits₃, -, -⟩ := runs_clearConstructCache (B := Z3Builder) b₂ hb₂
  refine ⟨r, b₃, ?_, hb₃, fun i hi => hfits₁ i (hfits₂ i (hfits₃ i hi)), hsat, fun i hi => ?_⟩
  · unfold internalRunSolver
    rw [run_bind hrun₁, run_bind hrun₂, run_bind hrun₃]
    rfl
  · rintro rfl
    exact hunsat (hfits₂ .apart (hfits₃ .apart hi))

/-- A truth value that is computed, and right for a builder whose arrays are apart. -/
def TruthRight (q : Query) (r : Reply Bool) : Prop :=
  r.success = true → ∃ b, r.result = some b ∧ (b = true ↔ q.Valid)

theorem computeTruth_runs (hs : s.Z3Right) (hq : q.Suitable) :
    (tables Z3Builder).Runs (s.computeTruth q) (fun _ => True)
      fun i r => i = .apart → TruthRight q r := by
  refine Runs.bind (internalRunSolver_runs hs hq none) fun r hsat => ?_
  refine runs_pure trivial fun i hunsat hi hsuccess => ⟨_, rfl, ?_⟩
  cases r with
  | none => cases hsuccess
  | some r =>
    cases r with
    | none =>
      refine iff_of_true rfl ?_
      by_contra hnot
      obtain ⟨τ, hτ⟩ := Query.not_valid_iff.mp hnot
      exact hunsat hi rfl τ hτ
    | some values =>
      obtain ⟨τ, hτ, -⟩ := hsat values rfl
      exact iff_of_false Bool.false_ne_true (Query.not_valid_iff.mpr ⟨τ, hτ⟩)

theorem computeValidity_runs (hs : s.Z3Right) (hq : q.Suitable)
    (hneg : q.negateExpr.Suitable) :
    (tables Z3Builder).Runs (s.computeValidity q) (fun _ => True)
      fun i r => i = .apart → (Answer.validity q r).Right := by
  have hfail : (Answer.validity q ⟨false, none⟩).Right := fun h => by cases h
  refine Runs.bind (computeTruth_runs hs hq) fun t _ => ?_
  refine runs_ite (fun hsuccess => runs_ite (fun htrue => ?_) fun hfalse => ?_) fun _ =>
    runs_pure trivial fun _ _ _ => hfail
  · refine runs_pure trivial fun i h hi _ => ⟨_, rfl, ?_⟩
    obtain ⟨b, hb, hvalid⟩ := h hi hsuccess
    rw [htrue] at hb
    exact hvalid.mp (Option.some.inj hb).symm
  · refine Runs.bind (computeTruth_runs hs hneg) fun f _ => ?_
    refine runs_ite (fun hsuccess' => ?_) fun _ => runs_pure trivial fun _ _ _ _ => hfail
    refine runs_pure trivial fun i hf ht hi _ => ⟨_, rfl, ?_⟩
    obtain ⟨b, hb, hvalid⟩ := ht hi hsuccess
    obtain ⟨b', hb', hrefuted⟩ := hf hi hsuccess'
    rw [Query.valid_negateExpr hq.wellTyped] at hrefuted
    have hnot : ¬ q.Valid := fun h => hfalse (hb.trans (congrArg some (hvalid.mpr h)))
    split
    case isTrue htrue' =>
      rw [htrue'] at hb'
      exact ⟨hnot, hrefuted.mp (Option.some.inj hb').symm⟩
    case isFalse hfalse' =>
      exact ⟨hnot, fun h => hfalse' (hb'.trans (congrArg some (hrefuted.mpr h)))⟩

theorem computeInitialValues_runs (hs : s.Z3Right) (hq : q.Suitable) (objects : List Array) :
    (tables Z3Builder).Runs (s.computeInitialValues q objects) (fun _ => True)
      fun i r => i = .apart → (Answer.initialValues q objects r).Right := by
  refine Runs.bind (internalRunSolver_runs hs hq (some objects)) fun r hsat => ?_
  refine runs_pure trivial fun i hunsat hi hsuccess => ?_
  cases r with
  | none => cases hsuccess
  | some r =>
    cases r with
    | none => exact ⟨false, rfl, fun _ => hunsat hi rfl, fun h => (by cases h)⟩
    | some values =>
      obtain ⟨τ, hτ, hvalues⟩ := hsat values rfl
      exact ⟨true, rfl, fun h => (by cases h), fun _ => ⟨values, τ, rfl, hτ, hvalues _ rfl⟩⟩

/-- Where a solution exists and the arrays are apart, the assertion about it holds, and a constant
result is the value in a solution. -/
theorem computeValue_spec (hs : s.Z3Right) (hq : q.withFalse.Suitable)
    (he : q.expr.WellSorted) (hsat : ∃ τ, Satisfies τ q.constraints) (hb : Inv b) :
    ∃ r b', s.internalRunSolver q.withFalse (some (findSymbolicObjects [q.expr])) b =
        some (r, b') ∧ Inv b' ∧
      (SymbolsApart b'.arrays.arrHash → ∃ reply, s.computeValue q b = some (reply, b') ∧
        (reply.success = true → ∃ e τ, reply.result = some e ∧ Satisfies τ q.constraints ∧
          ∀ v, e = .constant v → v = ⟨q.expr.width, q.expr.eval τ q.expr.width⟩)) := by
  obtain ⟨r, b', hrun, hb', hfits, hr, hunsat⟩ :=
    internalRunSolver_runs hs hq (some (findSymbolicObjects [q.expr])) b hb
  refine ⟨r, b', hrun, hb', fun hapart => ?_⟩
  have hrest : s.computeValue q b = _ := run_bind hrun
  cases r with
  | none => exact ⟨_, hrest.trans rfl, fun h => (by cases h)⟩
  | some r =>
    cases r with
    | none =>
      obtain ⟨τ, hτ⟩ := hsat
      exact absurd (Query.withFalse_solves.mpr hτ) (hunsat .apart hapart rfl rfl τ)
    | some values =>
      obtain ⟨τ, hτ, hvalues⟩ := hr values rfl
      have hvalues := hvalues _ rfl
      have heval := eval_congr_findSymbolicObjects (List.mem_singleton_self q.expr)
        (fun array hmem hsym i hi => ArrayAssignment.toAssignment_ofObjects hvalues hmem hsym hi)
        q.expr.width
      refine ⟨_, hrest.trans rfl, fun _ => ⟨_, τ, rfl, Query.withFalse_solves.mp hτ, ?_⟩⟩
      intro v hv
      rw [← heval]
      exact CexCachingSolver.evaluate_eq_constant (ArrayAssignment.proper_ofObjects hvalues) he hv

end Answers

section Run

variable [BuilderOptions] {s : Z3SolverImpl}

/-- The requests whose answers do not rest on an assertion; for a value there is
`computeValue_spec`. -/
def SuitableRequest : Request → Prop
  | .truth q => q.Suitable
  | .validity q => q.Suitable ∧ q.negateExpr.Suitable
  | .value _ => False
  | .initialValues q _ => q.Suitable

theorem answer_runs (hs : s.Z3Right) {request : Request} (h : SuitableRequest request) :
    (tables Z3Builder).Runs (s.answer request) (fun _ => True)
      fun i a => i = .apart → a.request = request ∧ a.Right := by
  cases request with
  | truth q =>
    exact (computeTruth_runs hs h).map (fun _ _ => trivial) fun i r _ hr hi => ⟨rfl, hr hi⟩
  | validity q =>
    exact (computeValidity_runs hs h.1 h.2).map (fun _ _ => trivial)
      fun i r _ hr hi => ⟨rfl, hr hi⟩
  | value q => exact h.elim
  | initialValues q objects =>
    exact (computeInitialValues_runs hs h objects).map (fun _ _ => trivial)
      fun i r _ hr hi => ⟨rfl, hr hi⟩

end Run

section ZeroFirst

/-- The assertion for a query of `true`. -/
def isRefutation : Term Cell → Bool
  | .not (.bool true) => true
  | _ => false

/-- A Z3 that tries zero bytes, sees the negation of `true`, and else gives up. -/
def zeroFirst : Z3SolverImpl where
  validateModels := true
  solverCheck ts :=
    if ∀ t ∈ ts, isTrueValue (t.eval fun _ _ => 0) then .sat fun _ _ => 0
    else if ∃ t ∈ ts, isRefutation t then .unsat
    else .undefined "unknown"

theorem isBool_of_isTrueValue {env : Cell → (w : Nat) → BitVec w} {t : Term Cell}
    (h : isTrueValue (t.eval env) = true) : IsBool env t true := by
  unfold isTrueValue at h
  split at h
  case h_1 heq => exact heq
  case h_2 => cases h

theorem not_isBool_of_isRefutation {env : Cell → (w : Nat) → BitVec w} {t : Term Cell}
    (h : isRefutation t = true) : ¬ IsBool env t true := by
  unfold isRefutation at h
  split at h
  case h_1 =>
    intro htrue
    cases htrue.symm.trans (isBool_bool true).not
  case h_2 => cases h

theorem zeroFirst_right : zeroFirst.Z3Right := by
  constructor
  · intro ts model _ hcheck t ht
    simp only [zeroFirst] at hcheck
    split at hcheck
    case isTrue h =>
      cases hcheck
      exact isBool_of_isTrueValue (h t ht)
    case isFalse =>
      split at hcheck <;> cases hcheck
  · intro ts _ hcheck env hall
    simp only [zeroFirst] at hcheck
    split at hcheck
    case isTrue => cases hcheck
    case isFalse =>
      split at hcheck
      case isTrue h =>
        obtain ⟨t, ht, hrefuted⟩ := h
        exact not_isBool_of_isRefutation hrefuted (hall t ht)
      case isFalse => cases hcheck
  · intro ts reason _ hcheck
    simp only [zeroFirst] at hcheck
    split at hcheck
    case isTrue => cases hcheck
    case isFalse =>
      split at hcheck
      case isTrue => cases hcheck
      case isFalse =>
        cases hcheck
        decide

/-- Whether `x[1] < 3` when `x[0] = 0`, its negation, bytes of `x` for both, and whether `true`. -/
def boundedByte : List Request :=
  let x : Array := .symbolic 0 "x" 4
  let byte (i : Nat) : Expr := .read x .null (.constant ⟨32, BitVec.ofNat 32 i⟩)
  let zero : Expr := .cmp .eq (.constant ⟨8, 0⟩) (byte 0)
  let small : Expr := .cmp .ult (byte 1) (.constant ⟨8, 3⟩)
  [.truth ⟨[zero], small⟩, .initialValues ⟨[zero, small], .constant ⟨1, 0⟩⟩ [x],
    .truth ⟨[zero], .constant ⟨1, 1⟩⟩]

end ZeroFirst

end Z3SolverImpl

end Klee
