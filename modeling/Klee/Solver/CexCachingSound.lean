import Klee.Solver.CexCachingSolver
import Mathlib.Order.RelClasses
import Mathlib.SetTheory.Cardinal.Order

/-! `CexCachingSolver` above a correct solver: every entry of the cache is right, and so is every
answer. -/
namespace Klee

open Hoare

namespace ExprEvaluator

variable {getInitialValue getInitialValue' : Array → Nat → Expr}

mutual

/-- Initial values inside of constant arrays do not matter. -/
theorem visit_congr (h : ∀ root i, ¬ (root.isConstantArray = true ∧ i < root.size) →
    getInitialValue root i = getInitialValue' root i) :
    ∀ e, visit getInitialValue e = visit getInitialValue' e
  | .constant _ => rfl
  | .read root head index => by
    rw [visit, visit, visit_congr h index]
    cases visit getInitialValue' index with
    | constant c => exact evalRead_congr h root _ head
    | _ => rfl
  | .notOptimized e => by rw [visit, visit, visit_congr h e]
  | .select c t f => by
    rw [visit, visit, visit_congr h c, visit_congr h t, visit_congr h f]
  | .concat l r => by rw [visit, visit, visit_congr h l, visit_congr h r]
  | .extract e _ _ => by rw [visit, visit, visit_congr h e]
  | .cast _ e _ => by rw [visit, visit, visit_congr h e]
  | .not e => by rw [visit, visit, visit_congr h e]
  | .arith _ l r => by rw [visit, visit, visit_congr h l, visit_congr h r]
  | .cmp _ l r => by rw [visit, visit, visit_congr h l, visit_congr h r]

theorem evalRead_congr (h : ∀ root i, ¬ (root.isConstantArray = true ∧ i < root.size) →
    getInitialValue root i = getInitialValue' root i) (root : Array) (index : Nat) :
    ∀ un, evalRead getInitialValue root index un = evalRead getInitialValue' root index un
  | .null => by
    rw [evalRead, evalRead]
    by_cases hin : root.isConstantArray = true ∧ index < root.size
    · rw [if_pos hin, if_pos hin]
    · rw [if_neg hin, if_neg hin, h root index hin]
  | .node next i v => by
    rw [evalRead, evalRead, visit_congr h i, visit_congr h v, evalRead_congr h root index next]

end

end ExprEvaluator

namespace ArrayAssignment

structure Proper (a : ArrayAssignment) : Prop where
  notFree : a.allowFreeValues = false
  sized : ∀ p ∈ a.bindings, p.2.length = p.1.size

variable {a : ArrayAssignment}

theorem mem_of_lookup {l : List (Array × List (BitVec 8))} {array : Array}
    {bytes : List (BitVec 8)} (h : l.lookup array = some bytes) : (array, bytes) ∈ l := by
  obtain ⟨before, after, hsplit, -⟩ := List.lookup_eq_some_iff.mp h
  rw [hsplit]
  exact List.mem_append_right _ List.mem_cons_self

/-- The initial value at an index is the byte of `toAssignment`, or zero past the end. -/
theorem evaluateAt_eq (ha : a.Proper) (array : Array) (i : Nat) :
    a.evaluateAt array i =
      .constant ⟨8, if i < array.size then a.toAssignment array i else 0⟩ := by
  have hfree : a.free array i = .constant ⟨8, 0⟩ := by
    simp only [free, ha.notFree, Bool.false_eq_true, if_false]
    rfl
  simp only [evaluateAt, toAssignment]
  cases hlookup : a.bindings.lookup array with
  | none =>
    rw [hfree]
    simp
  | some bytes =>
    have hlen := ha.sized _ (mem_of_lookup hlookup)
    by_cases hi : i < array.size
    · have hget : bytes[i]? = some (bytes.getD i 0) := by
        simp [List.getD, hlen, hi]
      simp only [hget, hi, if_true]
      rfl
    · have hget : bytes[i]? = none := List.getElem?_eq_none (by simpa [hlen] using hi)
      simp only [hget, hi, if_false]
      exact hfree

/-- The evaluation under the assignment. Constant arrays are read before it is asked. -/
theorem evaluate_denotes (ha : a.Proper) {e : Expr} {w : Nat} {x : BitVec w}
    (h : Denotes (some a.toAssignment) e w x) :
    Denotes (some a.toAssignment) (a.evaluate e) w x := by
  let initial : Array → Nat → Expr := fun root i => .constant ⟨8, root.initial a.toAssignment i⟩
  have hcongr : a.evaluate e = ExprEvaluator.visit (fun root i =>
      if root.isConstantArray = true ∧ i < root.size then initial root i
      else a.evaluateAt root i) e := by
    apply ExprEvaluator.visit_congr
    intro root i hin
    rw [if_neg hin]
  rw [hcongr]
  refine ExprEvaluator.visit_denotes (fun root i _ => ?_) e h
  refine ⟨root.initial a.toAssignment i, ?_, fun τ hτ => by cases hτ; rfl⟩
  have hinitial : Denotes (some a.toAssignment) (initial root i) 8
      (root.initial a.toAssignment i) := Denotes.constant (w := 8) (by decide)
  by_cases hin : root.isConstantArray = true ∧ i < root.size
  · simp only [if_pos hin]
    exact hinitial
  · simp only [if_neg hin]
    rw [evaluateAt_eq ha]
    have hbyte : (if i < root.size then a.toAssignment root i else 0) =
        root.initial a.toAssignment i := by
      by_cases hconst : root.isConstantArray = true
      · have hsize : ¬ i < root.size := fun hi => hin ⟨hconst, hi⟩
        have hlen := Array.length_constantValues hconst
        simp [Array.initial, hconst, hsize, List.getD, hlen]
      · simp [Array.initial, hconst]
    rw [hbyte]
    exact hinitial

/-- What evaluates to true holds. -/
theorem holds_of_isTrue (ha : a.Proper) {e : Expr} (he : e.IsBool)
    (h : (a.evaluate e).isTrue = true) : e.Holds a.toAssignment := by
  have hden := evaluate_denotes ha (he.denotes a.toAssignment)
  have hbool := hden.isBool
  have hholds := hden.holds_iff
  cases hv : a.evaluate e with
  | constant c =>
    rw [hv] at h hbool hholds
    exact hholds.mp ((Expr.holds_constant_iff hbool).mpr h)
  | _ => rw [hv] at h; cases h

theorem satisfies_sound (ha : a.Proper) {es : List Expr} (hes : ∀ e ∈ es, e.IsBool)
    (h : a.satisfies es = true) : Satisfies a.toAssignment es := by
  intro e he
  exact holds_of_isTrue ha (hes e he) (List.all_eq_true.mp h e he)

section OfObjects

variable {objects : List Array} {values : Values} {τ : Assignment}

theorem mem_bind {p q : Array × List (BitVec 8)} {l : List (Array × List (BitVec 8))}
    (h : q ∈ bind p l) : q = p ∨ q ∈ l := by
  induction l with
  | nil => exact Or.inl (List.mem_singleton.mp h)
  | cons r l ih =>
    rw [bind] at h
    split at h
    · exact Or.inr h
    · split at h
      · exact List.mem_cons.mp h
      · cases List.mem_cons.mp h with
        | inl heq => exact Or.inr (heq ▸ List.mem_cons_self)
        | inr hmem => exact (ih hmem).imp_right (List.mem_cons_of_mem r)

theorem keys_bind (p : Array × List (BitVec 8)) (l : List (Array × List (BitVec 8))) :
    p.1 ∈ (bind p l).map (·.1) ∧ ∀ q ∈ l, q ∈ bind p l := by
  induction l with
  | nil => exact ⟨by simp [bind], fun q hq => by cases hq⟩
  | cons r l ih =>
    rw [bind]
    split
    case isTrue heq => exact ⟨by simp [heq], fun q hq => hq⟩
    case isFalse =>
      split
      · exact ⟨by simp, fun q hq => List.mem_cons_of_mem p hq⟩
      · refine ⟨List.mem_cons_of_mem _ ih.1, fun q hq => ?_⟩
        cases List.mem_cons.mp hq with
        | inl heq => exact heq ▸ List.mem_cons_self
        | inr hmem => exact List.mem_cons_of_mem r (ih.2 q hmem)

theorem foldl_bind_spec (ps l : List (Array × List (BitVec 8))) :
    (∀ q ∈ ps.foldl (fun bindings p => bind p bindings) l, q ∈ ps ∨ q ∈ l) ∧
      (∀ q ∈ l, q ∈ ps.foldl (fun bindings p => bind p bindings) l) ∧
      ∀ p ∈ ps, p.1 ∈ (ps.foldl (fun bindings p => bind p bindings) l).map (·.1) := by
  induction ps generalizing l with
  | nil => exact ⟨fun q hq => Or.inr hq, fun q hq => hq, fun p hp => by cases hp⟩
  | cons r ps ih =>
    obtain ⟨hfrom, hkeep, hkeys⟩ := ih (bind r l)
    refine ⟨fun q hq => ?_, fun q hq => hkeep q ((keys_bind r l).2 q hq), fun p hp => ?_⟩
    · cases hfrom q hq with
      | inl hmem => exact Or.inl (List.mem_cons_of_mem r hmem)
      | inr hmem =>
        cases mem_bind hmem with
        | inl heq => exact Or.inl (heq ▸ List.mem_cons_self)
        | inr hold => exact Or.inr hold
    · cases List.mem_cons.mp hp with
      | inl heq =>
        obtain ⟨q, hq, hkey⟩ := List.mem_map.mp (keys_bind r l).1
        exact List.mem_map.mpr ⟨q, hkeep q hq, heq ▸ hkey⟩
      | inr hmem => exact hkeys p hmem

theorem exists_lookup {l : List (Array × List (BitVec 8))} {array : Array}
    (h : array ∈ l.map (·.1)) : ∃ bytes, l.lookup array = some bytes := by
  obtain ⟨p, hp, rfl⟩ := List.mem_map.mp h
  exact Option.isSome_iff_exists.mp (List.lookup_isSome_iff.mpr ⟨p, hp, by simp⟩)

theorem mem_zip_of_mem_ofObjects {p : Array × List (BitVec 8)} {allow : Bool}
    (h : p ∈ (ofObjects objects values allow).bindings) : p ∈ objects.zip values :=
  ((foldl_bind_spec (objects.zip values) []).1 p h).resolve_right List.not_mem_nil

theorem proper_ofObjects (h : ValuesOf τ objects values) :
    (ofObjects objects values false).Proper :=
  ⟨rfl, fun _ hp => ((List.forall₂_iff_zip.mp h).2 (mem_zip_of_mem_ofObjects hp)).1⟩

/-- The binding gives an object the bytes of the solution. -/
theorem toAssignment_ofObjects (h : ValuesOf τ objects values) {array : Array}
    (hmem : array ∈ objects) (hsym : array.isSymbolicArray = true) {i : Nat}
    (hi : i < array.size) : (ofObjects objects values false).toAssignment array i = τ array i := by
  obtain ⟨hlen, hzip⟩ := List.forall₂_iff_zip.mp h
  have hkeys := (foldl_bind_spec (objects.zip values) []).2.2
  obtain ⟨p, hp, hkey⟩ : ∃ p ∈ objects.zip values, p.1 = array := by
    have hmap : (objects.zip values).map (·.1) = objects := List.map_fst_zip hlen.le
    rw [← hmap] at hmem
    exact List.mem_map.mp hmem
  obtain ⟨bytes, hbytes⟩ := exists_lookup (hkey ▸ hkeys p hp)
  have hlookup : (ofObjects objects values false).bindings.lookup array = some bytes := hbytes
  simp only [toAssignment, hlookup]
  exact (hzip (mem_zip_of_mem_ofObjects (mem_of_lookup hlookup))).2 hsym i hi

/-- The binding for the objects of some expressions satisfies what the solution satisfies. -/
theorem satisfies_ofObjects {es : List Expr} (h : ValuesOf τ (findSymbolicObjects es) values)
    (hsat : Satisfies τ es) :
    Satisfies (ofObjects (findSymbolicObjects es) values false).toAssignment es := by
  intro e he
  have heval := eval_congr_findSymbolicObjects he (fun array hmem hsym i hi =>
    toAssignment_ofObjects h hmem hsym hi) 1
  rw [Expr.Holds, heval]
  exact hsat e he

end OfObjects

end ArrayAssignment

/-- The answers of the core solver about initial values are right; it may fail. -/
def CoreSolver.Sound {σ : Type} (c : CoreSolver σ) : Prop :=
  ∀ (q : Query) (objects : List Array) (s : σ) (r : Option Values), q.WellTyped →
    (c.computeInitialValues q objects s).1 = some r →
      (r = none → ∀ τ, ¬ q.Solves τ) ∧
        ∀ values, r = some values → ∃ τ, q.Solves τ ∧ ValuesOf τ objects values

/-- A request of Boolean constraints, and an expression that is Boolean except for a value. -/
def Request.WellTyped : Request → Prop
  | .truth q => q.WellTyped
  | .validity q => q.WellTyped
  | .value q => (∀ e ∈ q.constraints, e.IsBool) ∧ q.expr.WellSorted
  | .initialValues q _ => q.WellTyped

namespace Answer

def request : Answer → Request
  | .truth q _ => .truth q
  | .validity q _ => .validity q
  | .value q _ => .value q
  | .initialValues q objects _ => .initialValues q objects

def Right : Answer → Prop
  | .truth q r => r.success = true → ∃ b, r.result = some b ∧ (b = true ↔ q.Valid)
  | .validity q r => r.success = true → ∃ v, r.result = some v ∧ v.IsOf q
  | .value q r => r.success = true → ∃ τ, Satisfies τ q.constraints ∧
      r.result = some (.constant ⟨q.expr.width, q.expr.eval τ q.expr.width⟩)
  | .initialValues q objects r => r.success = true → ∃ b, r.hasSolution = some b ∧
      (b = false → ∀ τ, ¬ q.Solves τ) ∧
      (b = true → ∃ values τ, r.values = some values ∧ q.Solves τ ∧ ValuesOf τ objects values)

end Answer

theorem Query.wellTyped_withFalse {q : Query} (hcs : ∀ e ∈ q.constraints, e.IsBool) :
    q.withFalse.WellTyped := by
  refine ⟨hcs, ?_, rfl⟩
  simp [withFalse, withExpr, Expr.WellSorted, ConstantExpr.alloc]

namespace CexCachingSolver

/-- Null says that nothing satisfies the expressions, an assignment satisfies them. -/
def EntryRight (P : Assignment → Prop) : Option ArrayAssignment → Prop
  | none => ∀ τ, ¬ P τ
  | some a => a.Proper ∧ P a.toAssignment

theorem EntryRight.congr {P Q : Assignment → Prop} {r : Option ArrayAssignment}
    (h : EntryRight P r) (hPQ : ∀ τ, P τ ↔ Q τ) : EntryRight Q r := by
  cases r with
  | none => exact fun τ hτ => h τ ((hPQ τ).mpr hτ)
  | some a => exact ⟨h.1, (hPQ _).mp h.2⟩

/-- A cached assignment evaluates an expression to its value. -/
theorem evaluate_eq_constant {a : ArrayAssignment} (ha : a.Proper) {e : Expr} (he : e.WellSorted)
    {v : ConstantExpr} (h : a.evaluate e = .constant v) :
    v = ⟨e.width, e.eval a.toAssignment e.width⟩ := by
  have hden := ArrayAssignment.evaluate_denotes ha (Denotes.of_wellSorted he rfl)
  rw [h] at hden
  obtain ⟨y, rfl, hy⟩ := hden.constant_inv
  rw [hy rfl]

/-- Without a counterexample the query is valid. -/
theorem valid_of_entryRight {q : Query} (h : EntryRight q.Solves none) : q.Valid := by
  by_contra hnot
  obtain ⟨τ, hτ⟩ := Query.not_valid_iff.mp hnot
  exact h τ hτ

/-- The bytes of the objects, with zeros for those that have no binding. -/
theorem valuesOf_valueOf {a : ArrayAssignment} (ha : a.Proper) (objects : List Array) :
    ValuesOf a.toAssignment objects (objects.map (valueOf a)) := by
  unfold ValuesOf
  rw [List.forall₂_map_right_iff, List.forall₂_same]
  intro array _
  unfold valueOf ArrayAssignment.toAssignment
  cases hlookup : a.bindings.lookup array with
  | none => exact ⟨by simp, fun _ i hi => by simp [hi]⟩
  | some bytes => exact ⟨ha.sized _ (ArrayAssignment.mem_of_lookup hlookup), fun _ i _ => rfl⟩

theorem mem_insertAssignment {binding a : ArrayAssignment} {table : List ArrayAssignment}
    (h : a ∈ (insertAssignment binding table).2) : a = binding ∨ a ∈ table := by
  induction table with
  | nil => exact Or.inl (List.mem_singleton.mp h)
  | cons b table ih =>
    rw [insertAssignment] at h
    split at h
    · exact Or.inr h
    · split at h
      · exact List.mem_cons.mp h
      · cases List.mem_cons.mp h with
        | inl heq => exact Or.inr (heq ▸ List.mem_cons_self)
        | inr hmem => exact (ih hmem).imp_right (List.mem_cons_of_mem b)

/-- An assignment with the same bindings is the same. -/
theorem insertAssignment_fst {binding : ArrayAssignment} (hb : binding.allowFreeValues = false)
    {table : List ArrayAssignment} (htable : ∀ a ∈ table, a.allowFreeValues = false) :
    (insertAssignment binding table).1 = binding := by
  induction table with
  | nil => rfl
  | cons a table ih =>
    obtain ⟨ha, hrest⟩ := List.forall_mem_cons.mp htable
    rw [insertAssignment]
    split
    case isTrue heq =>
      obtain ⟨free, bindings⟩ := a
      obtain ⟨free', bindings'⟩ := binding
      obtain rfl : bindings' = bindings := heq
      obtain rfl : free = false := ha
      obtain rfl : free' = false := hb
      rfl
    case isFalse =>
      split
      · rfl
      · exact ih hrest

variable {σ : Type} {cex : CexCache} {w : SolverState σ}

structure CacheRight (cex : CexCache) : Prop where
  isBool : ∀ set r, cex.cache.Has set r → ∀ e ∈ set, e.IsBool
  entries : ∀ set r, cex.cache.Has set r → EntryRight (Satisfies · set) r
  table : ∀ a ∈ cex.assignmentsTable, a.Proper

theorem CacheRight.memoize (hcex : CacheRight w.cex) {binding : ArrayAssignment}
    (hb : binding.Proper) : CacheRight (memoize binding w).cex :=
  ⟨hcex.isBool, hcex.entries, fun a ha => (mem_insertAssignment ha).elim (fun h => h ▸ hb)
    (hcex.table a)⟩

theorem cacheRight_empty {core : σ} : CacheRight (SolverState.initial core).cex where
  isBool set r h := (MapOfSets.not_has_empty set r h).elim
  entries set r h := (MapOfSets.not_has_empty set r h).elim
  table a ha := by cases ha

section Order

variable [LinearOrder Expr] {o : Options} {c : CoreSolver σ} {q : Query} {key : KeyType}

section Key

theorem mem_insertKey {e e' : Expr} : e' ∈ insertKey key e ↔ e' = e ∨ e' ∈ key := by
  unfold insertKey
  split
  case isTrue hmem =>
    constructor
    · exact Or.inr
    · intro h
      cases h with
      | inl heq => exact heq ▸ hmem
      | inr h => exact h
  case isFalse => exact List.mem_orderedInsert _

theorem mem_foldl_insertKey {e : Expr} (es : List Expr) (key : KeyType) :
    e ∈ es.foldl insertKey key ↔ e ∈ es ∨ e ∈ key := by
  induction es generalizing key with
  | nil => simp
  | cons e' es ih =>
    rw [List.foldl_cons, ih, mem_insertKey, List.mem_cons]
    tauto

theorem mem_keyOf {e : Expr} {es : List Expr} : e ∈ keyOf es ↔ e ∈ es := by
  simp [keyOf, mem_foldl_insertKey]

theorem satisfies_keyOf {τ : Assignment} {es : List Expr} :
    Satisfies τ (keyOf es) ↔ Satisfies τ es := by
  simp only [Satisfies, mem_keyOf]

theorem satisfies_insertKey {τ : Assignment} {e : Expr} :
    Satisfies τ (insertKey key e) ↔ e.Holds τ ∧ Satisfies τ key := by
  simp only [Satisfies, mem_insertKey, or_imp, forall_and, forall_eq]

end Key

/-- What the search finds is right for the key. A superset has more to satisfy, a subset less. -/
theorem CacheRight.search (hcex : CacheRight cex) (hkey : ∀ e ∈ key, e.IsBool)
    {r : Option ArrayAssignment} (h : searchForAssignment o cex key = some r) :
    EntryRight (Satisfies · key) r := by
  have hsuper {r : Option ArrayAssignment}
      (h : (if o.cexCacheSuperSet then cex.cache.findSuperset Option.isSome key else none) =
        some r) : EntryRight (Satisfies · key) r := by
    split at h
    · obtain ⟨hsome, set, hsub, hhas⟩ := MapOfSets.has_of_findSuperset _ _ h
      have hentry := hcex.entries set r hhas
      cases r with
      | none => cases hsome
      | some a => exact ⟨hentry.1, fun e he => hentry.2 e (hsub he)⟩
    · cases h
  have hnull {set : KeyType} (hsub : set ⊆ key) (hhas : cex.cache.Has set none) :
      EntryRight (Satisfies · key) none :=
    fun τ hτ => hcex.entries set none hhas τ fun e he => hτ e (hsub he)
  unfold searchForAssignment at h
  cases hlookup : cex.cache.lookup key with
  | some r' =>
    rw [hlookup] at h
    obtain rfl := Option.some.inj h
    exact hcex.entries key _ (MapOfSets.has_of_lookup _ _ hlookup)
  | none =>
    simp only [hlookup] at h
    split at h
    · split at h
      · obtain rfl := Option.some.inj h
        rename_i hfound
        cases MapOfSets.orElse_cases hfound with
        | inl hfound => exact hsuper hfound
        | inr hfound =>
          obtain ⟨hnone, set, hsub, hhas⟩ := MapOfSets.has_of_findSubset _ _ hfound
          rw [Option.isNone_iff_eq_none] at hnone
          subst hnone
          exact hnull hsub hhas
      · obtain ⟨a, hfind, rfl⟩ := Option.map_eq_some_iff.mp h
        have hproper := hcex.table a (List.mem_of_find?_eq_some hfind)
        exact ⟨hproper, ArrayAssignment.satisfies_sound hproper hkey
          (List.find?_some (p := (ArrayAssignment.satisfies · key)) hfind)⟩
    · cases MapOfSets.orElse_cases h with
      | inl hfound => exact hsuper hfound
      | inr hfound =>
        obtain ⟨hp, set, hsub, hhas⟩ := MapOfSets.has_of_findSubset _ _ hfound
        cases r with
        | none => exact hnull hsub hhas
        | some a =>
          have hproper := (hcex.entries set (some a) hhas).1
          exact ⟨hproper, ArrayAssignment.satisfies_sound hproper hkey hp⟩

/-- The key of a query stands for its constraints and the negated expression. -/
structure KeyRight (q : Query) (key : KeyType) : Prop where
  isBool : ∀ e ∈ key, e.IsBool
  satisfies : ∀ τ, Satisfies τ key ↔ q.Solves τ

theorem CacheRight.lookup (hcex : CacheRight cex) (hq : q.WellTyped) :
    (∀ r, (lookupAssignment o cex q).2 = some r → EntryRight q.Solves r) ∧
      ((lookupAssignment o cex q).2 = none → KeyRight q (lookupAssignment o cex q).1) := by
  have hbool : ∀ e ∈ keyOf q.constraints, e.IsBool := fun e he => hq.1 e (mem_keyOf.mp he)
  have hneg := TimingSolver.isBool_createIsZero hq.2
  have hholds (τ : Assignment) := TimingSolver.holds_createIsZero (σ := τ) hq.2
  have hfinish (key : KeyType) (hkey : KeyRight q key) :
      (∀ r, searchForAssignment o cex key = some r → EntryRight q.Solves r) :=
    fun r h => (hcex.search hkey.isBool h).congr hkey.satisfies
  unfold lookupAssignment
  split
  · rename_i CE heq
    rw [heq] at hneg hholds
    have hconst (τ : Assignment) : CE.isTrue = true ↔ ¬ q.expr.Holds τ :=
      (Expr.holds_constant_iff hneg).symm.trans (hholds τ)
    split
    case isTrue hfalse =>
      refine ⟨fun r h => ?_, fun h => by cases h⟩
      obtain rfl := Option.some.inj h
      intro τ hτ
      have htrue := (hconst τ).mpr hτ.2
      simp only [ConstantExpr.isTrue, ConstantExpr.isFalse, Bool.and_eq_true] at htrue hfalse
      simp_all
    case isFalse hfalse =>
      have hkey : KeyRight q (keyOf q.constraints) := by
        refine ⟨hbool, fun τ => ?_⟩
        rw [satisfies_keyOf]
        have htrue : CE.isTrue = true := by
          obtain ⟨width, value⟩ := CE
          obtain rfl : width = 1 := hneg.2
          simp_all [ConstantExpr.isTrue, ConstantExpr.isFalse]
        exact ⟨fun h => ⟨h, (hconst τ).mp htrue⟩, fun h => h.1⟩
      exact ⟨hfinish _ hkey, fun _ => hkey⟩
  · have hkey : KeyRight q (insertKey (keyOf q.constraints) q.expr.createIsZero) := by
      refine ⟨fun e he => ?_, fun τ => ?_⟩
      · cases mem_insertKey.mp he with
        | inl heq => exact heq ▸ hneg
        | inr hmem => exact hbool e hmem
      · rw [satisfies_insertKey, satisfies_keyOf, hholds]
        exact and_comm
    exact ⟨hfinish _ hkey, fun _ => hkey⟩

theorem CacheRight.remember (hcex : CacheRight w.cex) (hkey : ∀ e ∈ key, e.IsBool)
    {r : Option ArrayAssignment} (hr : EntryRight (Satisfies · key) r) :
    CacheRight (remember key r w).cex where
  isBool set r' h := by
    cases MapOfSets.has_insert _ _ _ h with
    | inl hnew => exact hnew.1 ▸ hkey
    | inr hold => exact hcex.isBool set r' hold
  entries set r' h := by
    cases MapOfSets.has_insert _ _ _ h with
    | inl hnew => rwa [hnew.1, hnew.2]
    | inr hold => exact hcex.entries set r' hold
  table := hcex.table

section Rules

variable {s : SolverLayer σ} {E : SolverFault → Prop}
  {Q : Option (Option ArrayAssignment) → SolverState σ → Prop}

/-- A failed answer leaves the cache alone; else there is a new entry. -/
theorem wp_storeAnswer {objects : List Array} {r : InitialValues} (hE : ∀ m, E (.assertion m))
    (hset : r.success = true → r.hasSolution = some false ∨
      r.hasSolution = some true ∧ ∃ values, r.values = some values)
    (hfail : r.success = false → Q none w)
    (hnone : r.success = true → r.hasSolution = some false → Q (some none) (remember key none w))
    (hsome : ∀ values, r.success = true → r.hasSolution = some true → r.values = some values →
      Q (some (some (shared (.ofObjects objects values false) w)))
        (remember key (some (shared (.ofObjects objects values false) w))
          (memoize (.ofObjects objects values false) w))) :
    wp (storeAnswer o key objects r) Q E w := by
  unfold storeAnswer
  cases hsuccess : r.success with
  | false => exact hfail hsuccess
  | true =>
    simp only [if_true]
    cases hset hsuccess with
    | inl hunsat =>
      simp only [hunsat, wp_bind, wp_readOutput_some]
      exact hnone hsuccess hunsat
    | inr hsat =>
      obtain ⟨values, hvalues⟩ := hsat.2
      simp only [hsat.1, hvalues, wp_bind, wp_readOutput_some, if_true, wp_get, wp_set]
      apply wp_assertThat (hE _)
      exact fun _ => hsome values hsuccess hsat.1 hvalues

theorem wp_getAssignment
    (hfound : ∀ r, (lookupAssignment o w.cex q).2 = some r → Q (some r) w)
    (hask : (lookupAssignment o w.cex q).2 = none →
      wp (s.computeInitialValues q (findSymbolicObjects (lookupAssignment o w.cex q).1) [])
        (fun r => wp (storeAnswer o (lookupAssignment o w.cex q).1
          (findSymbolicObjects (lookupAssignment o w.cex q).1) r) Q E) E w) :
    wp (getAssignment o s q) Q E w := by
  unfold getAssignment
  rw [wp_bind, wp_get]
  cases hlookup : lookupAssignment o w.cex q with
  | mk key found =>
    rw [hlookup] at hfound hask
    cases found with
    | some r => exact hfound r rfl
    | none => exact wp_bind.mpr (hask rfl)

end Rules

section Sound

variable {E : SolverFault → Prop}

/-- An assignment, or null, that is right for the query; or a failed call. -/
def AssignmentRight (q : Query) (r : Option (Option ArrayAssignment)) : Prop :=
  ∀ a, r = some a → EntryRight q.Solves a

theorem wp_getAssignment_right (hc : c.Sound) (hcex : CacheRight w.cex) (hq : q.WellTyped)
    (hE : ∀ m, E (.assertion m)) : wp (getAssignment o c.layer q)
      (fun r w' => CacheRight w'.cex ∧ AssignmentRight q r) E w := by
  obtain ⟨hfound, hkey⟩ := hcex.lookup (o := o) hq
  apply wp_getAssignment
  · intro r hr
    refine ⟨hcex, fun a ha => ?_⟩
    obtain rfl := Option.some.inj ha
    exact hfound r hr
  · intro hnone
    have hkey := hkey hnone
    generalize (lookupAssignment o w.cex q).1 = key at hkey
    simp only [CoreSolver.layer, wp_bind, CoreSolver.wp_ask, wp_pure]
    have hright := hc q (findSymbolicObjects key) w.core
    cases hr : (c.computeInitialValues q (findSymbolicObjects key) w.core).1 with
    | none =>
      apply wp_storeAnswer hE
      · intro h
        cases h
      · intro _
        exact ⟨hcex, fun a ha => by cases ha⟩
      · intro h
        cases h
      · intro _ h
        cases h
    | some found =>
      obtain ⟨hunsat, hsat⟩ := hright found hq hr
      cases found with
      | none =>
        have hentry : EntryRight q.Solves none := hunsat rfl
        apply wp_storeAnswer hE
        · exact fun _ => Or.inl rfl
        · intro h
          cases h
        · intro _ _
          refine ⟨CacheRight.remember (w := CoreSolver.asked _ w) hcex hkey.isBool
            (hentry.congr fun τ => (hkey.satisfies τ).symm), fun a ha => ?_⟩
          obtain rfl := Option.some.inj ha
          exact hentry
        · intro _ _ h
          cases h
      | some values =>
        obtain ⟨τ, hτ, hvalues⟩ := hsat values rfl
        have hproper := ArrayAssignment.proper_ofObjects hvalues
        have hshared : shared (.ofObjects (findSymbolicObjects key) values false)
            (CoreSolver.asked (c.computeInitialValues q (findSymbolicObjects key)) w) =
              .ofObjects (findSymbolicObjects key) values false :=
          insertAssignment_fst rfl fun a ha => (hcex.table a ha).notFree
        have hentry : EntryRight (Satisfies · key)
            (some (.ofObjects (findSymbolicObjects key) values false)) :=
          ⟨hproper, ArrayAssignment.satisfies_ofObjects hvalues ((hkey.satisfies τ).mpr hτ)⟩
        apply wp_storeAnswer hE
        · exact fun _ => Or.inr ⟨rfl, _, rfl⟩
        · intro h
          cases h
        · intro _ h
          cases h
        · intro values' _ _ hvalues'
          obtain rfl : values = values' := by simpa [CoreSolver.initialValues] using hvalues'
          rw [hshared]
          refine ⟨CacheRight.remember (CacheRight.memoize (w := CoreSolver.asked _ w) hcex hproper)
            hkey.isBool hentry, fun a ha => ?_⟩
          obtain rfl := Option.some.inj ha
          exact hentry.congr hkey.satisfies

theorem wp_computeTruth (hc : c.Sound) (hcex : CacheRight w.cex) (hq : q.WellTyped)
    (hE : ∀ m, E (.assertion m)) : wp (computeTruth o c.layer q)
      (fun r w' => CacheRight w'.cex ∧ (Answer.truth q r).Right) E w := by
  unfold computeTruth
  rw [wp_bind, wp_get, wp_ite]
  refine ⟨fun _ => ⟨hcex, fun h => by cases h⟩, fun _ => ?_⟩
  rw [wp_bind]
  refine wp_post (wp_getAssignment_right hc hcex hq hE) fun r w' hr => ?_
  cases r with
  | none => exact ⟨hr.1, fun h => by cases h⟩
  | some a =>
    refine ⟨hr.1, fun _ => ⟨a.isNone, rfl, ?_⟩⟩
    have hentry := hr.2 a rfl
    cases a with
    | none => simp [valid_of_entryRight hentry]
    | some a =>
      have hnot : ¬ q.Valid := Query.not_valid_iff.mpr ⟨_, hentry.2⟩
      simp [hnot]

/-- The second query of `computeValidity` decides what the first one has left open. -/
theorem wp_validityOf {r : Query} {v : Validity} (hc : c.Sound) (hcex : CacheRight w.cex)
    (hr : r.WellTyped) (hE : ∀ m, E (.assertion m)) (hv : r.Valid → v.IsOf q)
    (hunknown : ¬ r.Valid → ¬ q.Valid ∧ ¬ q.Refuted) :
    wp (validityOf v <$> getAssignment o c.layer r)
      (fun reply w' => CacheRight w'.cex ∧ (Answer.validity q reply).Right) E w := by
  rw [wp_map]
  refine wp_post (wp_getAssignment_right hc hcex hr hE) fun found w' hfound => ?_
  cases found with
  | none => exact ⟨hfound.1, fun h => by cases h⟩
  | some a =>
    have hentry := hfound.2 a rfl
    cases a with
    | none =>
      exact ⟨hfound.1, fun _ => ⟨v, rfl, hv (valid_of_entryRight hentry)⟩⟩
    | some a =>
      have hnot : ¬ r.Valid := Query.not_valid_iff.mpr ⟨_, hentry.2⟩
      exact ⟨hfound.1, fun _ => ⟨.unknown, rfl, hunknown hnot⟩⟩

theorem wp_computeValidity (hc : c.Sound) (hcex : CacheRight w.cex) (hq : q.WellTyped)
    (hE : ∀ m, E (.assertion m)) : wp (computeValidity o c.layer q)
      (fun r w' => CacheRight w'.cex ∧ (Answer.validity q r).Right) E w := by
  unfold computeValidity
  rw [wp_bind]
  refine wp_post (wp_getAssignment_right hc hcex (Query.wellTyped_withFalse hq.1) hE)
    fun r w' hr => ?_
  cases r with
  | none => exact ⟨hr.1, fun h => by cases h⟩
  | some a =>
    cases a with
    | none => exact hE _
    | some a =>
      obtain ⟨hproper, hsolves⟩ := hr.2 (some a) rfl
      have hsat := Query.withFalse_solves.mp hsolves
      dsimp only
      cases hv : a.evaluate q.expr with
      | constant v =>
        have hvalue := evaluate_eq_constant hproper hq.2.1 hv
        have hholds : v.isTrue = true ↔ q.expr.Holds a.toAssignment := by
          rw [hvalue, hq.2.2, Expr.Holds]
          simp [ConstantExpr.isTrue, BitVec.ne_zero_iff_eq_one]
        dsimp only
        rw [wp_ite]
        constructor
        · intro htrue
          have hnot : ¬ q.Refuted := fun h => h _ hsat (hholds.mp htrue)
          exact wp_validityOf hc hr.1 hq hE (fun h => h) fun h => ⟨h, hnot⟩
        · intro hfalse
          have hnot : ¬ q.Valid := fun h => hfalse (hholds.mpr (h _ hsat))
          have hneg := Query.valid_negateExpr hq
          exact wp_validityOf hc hr.1 (Query.wellTyped_negateExpr hq) hE
            (fun h => ⟨hnot, hneg.mp h⟩) fun h => ⟨hnot, fun hr => h (hneg.mpr hr)⟩
      | _ => exact hE _

theorem wp_computeValue (hc : c.Sound) (hcex : CacheRight w.cex)
    (hcs : ∀ e ∈ q.constraints, e.IsBool) (he : q.expr.WellSorted)
    (hE : ∀ m, E (.assertion m)) : wp (computeValue o c.layer q)
      (fun r w' => CacheRight w'.cex ∧ (Answer.value q r).Right) E w := by
  unfold computeValue
  rw [wp_bind]
  refine wp_post (wp_getAssignment_right hc hcex (Query.wellTyped_withFalse hcs) hE)
    fun r w' hr => ?_
  cases r with
  | none => exact ⟨hr.1, fun h => by cases h⟩
  | some a =>
    cases a with
    | none => exact hE _
    | some a =>
      obtain ⟨hproper, hsolves⟩ := hr.2 (some a) rfl
      dsimp only
      cases hv : a.evaluate q.expr with
      | constant v =>
        refine ⟨hr.1, fun _ => ⟨a.toAssignment, Query.withFalse_solves.mp hsolves, ?_⟩⟩
        rw [evaluate_eq_constant hproper he hv]
      | _ => exact hE _

theorem wp_computeInitialValues (hc : c.Sound) (hcex : CacheRight w.cex) (hq : q.WellTyped)
    (objects : List Array) (hE : ∀ m, E (.assertion m)) :
    wp (computeInitialValues o c.layer q objects)
      (fun r w' => CacheRight w'.cex ∧ (Answer.initialValues q objects r).Right) E w := by
  unfold computeInitialValues
  rw [wp_bind]
  refine wp_post (wp_getAssignment_right hc hcex hq hE) fun r w' hr => ?_
  cases r with
  | none => exact ⟨hr.1, fun h => by cases h⟩
  | some a =>
    have hentry := hr.2 a rfl
    cases a with
    | none => exact ⟨hr.1, fun _ => ⟨false, rfl, fun _ => hentry, fun h => by cases h⟩⟩
    | some a =>
      refine ⟨hr.1, fun _ => ⟨true, rfl, ?_, fun _ => ?_⟩⟩
      · intro h
        cases h
      · exact ⟨_, a.toAssignment, rfl, hentry.2, valuesOf_valueOf hentry.1 objects⟩

theorem wp_answer (hc : c.Sound) (hcex : CacheRight w.cex) {request : Request}
    (hrequest : request.WellTyped) (hE : ∀ m, E (.assertion m)) :
    wp ((layer o c.layer).answer request)
      (fun a w' => CacheRight w'.cex ∧ a.request = request ∧ a.Right) E w := by
  cases request with
  | truth q =>
    rw [SolverLayer.answer, wp_map]
    exact wp_post (wp_computeTruth hc hcex hrequest hE) fun r w' h => ⟨h.1, rfl, h.2⟩
  | validity q =>
    rw [SolverLayer.answer, wp_map]
    exact wp_post (wp_computeValidity hc hcex hrequest hE) fun r w' h => ⟨h.1, rfl, h.2⟩
  | value q =>
    rw [SolverLayer.answer, wp_map]
    exact wp_post (wp_computeValue hc hcex hrequest.1 hrequest.2 hE)
      fun r w' h => ⟨h.1, rfl, h.2⟩
  | initialValues q objects =>
    rw [SolverLayer.answer, wp_map]
    exact wp_post (wp_computeInitialValues hc hcex hrequest objects hE)
      fun r w' h => ⟨h.1, rfl, h.2⟩

end Sound

/-- From a right cache, every sequence of requests leaves it right and gets right answers. -/
theorem run_right (hc : c.Sound) (hcex : CacheRight w.cex) {requests : List Request}
    (hrequests : ∀ request ∈ requests, request.WellTyped) :
    wp ((layer o c.layer).run requests)
      (fun answers w' => CacheRight w'.cex ∧
        List.Forall₂ (fun request a => a.request = request ∧ a.Right) requests answers)
      (fun e => ∃ m, e = .assertion m) w := by
  induction requests generalizing w with
  | nil => exact ⟨hcex, List.Forall₂.nil⟩
  | cons request requests ih =>
    obtain ⟨hfirst, hrest⟩ := List.forall_mem_cons.mp hrequests
    rw [SolverLayer.run, wp_bind]
    refine wp_post (wp_answer hc hcex hfirst fun m => ⟨m, rfl⟩) fun a w' ha => ?_
    rw [wp_bind]
    exact wp_post (ih ha.1 hrest) fun answers w'' h => ⟨h.1, List.Forall₂.cons ha.2 h.2⟩

/-- Every sequence of requests to a new `CexCachingSolver`, with any options: every entry of the
cache says what is so of its set, and every successful answer is right. -/
theorem answers_right (o : Options) (c : CoreSolver σ) (hc : c.Sound) (core : σ)
    {requests : List Request} (hrequests : ∀ request ∈ requests, request.WellTyped) :
    wp ((layer o c.layer).run requests)
      (fun answers w' => CacheRight w'.cex ∧
        List.Forall₂ (fun request a => a.request = request ∧ a.Right) requests answers)
      (fun e => ∃ m, e = .assertion m) (.initial core) :=
  run_right hc cacheRight_empty hrequests

end Order

section Instance

/-- A core solver that knows one counterexample, to `x[0] = 1`. -/
def oneCore : CoreSolver Unit where
  computeTruth _ s := (none, s)
  computeValidity _ s := (none, s)
  computeValue _ s := (none, s)
  computeInitialValues q objects s :=
    (if q = ⟨[], byteIs 1 0⟩ ∧ objects = [twoBytes] then some (some [[0, 0]]) else none, s)

theorem sound_oneCore : oneCore.Sound := by
  intro q objects s r _ h
  have hr : (if q = ⟨[], byteIs 1 0⟩ ∧ objects = [twoBytes] then some (some [[0, 0]]) else none) =
      some r := h
  split at hr
  case isTrue hin =>
    obtain rfl := Option.some.inj hr
    rw [hin.1, hin.2]
    refine ⟨fun h => (nomatch h), fun values hvalues => ?_⟩
    obtain rfl := Option.some.inj hvalues
    refine ⟨fun _ _ => 0, ⟨by simp, by decide⟩, List.Forall₂.cons ⟨rfl, fun _ i hi => ?_⟩ .nil⟩
    have hi : i < 2 := hi
    interval_cases i <;> rfl
  case isFalse => cases hr

@[reducible] noncomputable def someOrder : LinearOrder Expr := IsWellOrder.linearOrder WellOrderingRel

theorem answers_right_one :
    letI := someOrder
    let requests : List Request := [.truth ⟨[], byteIs 1 0⟩]
    let run := (layer ⟨true, false, true, true⟩ oneCore.layer).run requests
    (∃ w', run (.initial ()) = .ok ([.truth ⟨[], byteIs 1 0⟩ ⟨true, some false⟩], w')) ∧
      wp run (fun answers w' => CacheRight w'.cex ∧
        List.Forall₂ (fun request a => a.request = request ∧ a.Right) requests answers)
      (fun e => ∃ m, e = .assertion m) (.initial ()) := by
  let _ := someOrder
  refine ⟨⟨_, rfl⟩, answers_right _ oneCore sound_oneCore () ?_⟩
  simp [Request.WellTyped, Query.WellTyped, isBool_byteIs]

end Instance

end CexCachingSolver

end Klee
