import Klee.Expr.VisitorRun

/-! `ExprEvaluator` as it runs: a division of constants by zero fails. -/
namespace Klee

namespace Expr

/-- `rebuild`, where a division of constants by zero fails. -/
def runRebuild (e : Expr) (kids : List Expr) : Option Expr :=
  if e.dividesByZero kids then none else some (e.rebuild kids)

theorem runRebuild_of_not {e : Expr} {kids : List Expr} (h : e.dividesByZero kids = false) :
    e.runRebuild kids = some (e.rebuild kids) := by
  rw [runRebuild, h]
  rfl

theorem dividesByZero_arith {k : ArithKind} {l r l' d : Expr} :
    (arith k l r).dividesByZero [l', d] = true ↔
      l'.isConstant = true ∧ ∃ c, d = constant c ∧ c.isZero = true ∧ k.isDivision = true := by
  cases l' with
  | constant a =>
    cases d with
    | constant c => simp [dividesByZero, isConstant, and_comm]
    | _ => simp [dividesByZero]
  | _ => simp [dividesByZero, isConstant]

end Expr

namespace ExprEvaluator

def runAfterKids (e : Expr) (kids : List Expr) : Option Expr :=
  (if kids = e.kids then some e else e.runRebuild kids).map fun
    | .notOptimized src => src
    | e' => e'

def runProtectedDiv (k : ArithKind) (l r l' r' : Expr) : Option Expr :=
  if l' ≠ l ∨ protectedDivisor r r' ≠ r then
    (Expr.arith k l r).runRebuild [l', protectedDivisor r r']
  else some (.arith k l r)

/-- `visitKids` -/
def runKids (e : Expr) (kids : List Expr) : Option Expr :=
  if e.kids.all Expr.isConstant then e.runRebuild e.kids
  else match e, kids with
    | .arith k l r, [l', r'] =>
      if k.isDivision then runProtectedDiv k l r l' r' else runAfterKids (.arith k l r) [l', r']
    | e, kids => runAfterKids e kids

variable (getInitialValue : Array → Nat → Expr)

mutual

/-- `visit`; `none` is a failed division. -/
def run : Expr → Option Expr
  | .constant c => some (.constant c)
  | .read root head index =>
    match run index with
    | none => none
    | some (.constant c) => runRead root c.value.toNat head
    | some v => runAfterKids (.read root head index) [v]
  | .notOptimized e => do runKids (.notOptimized e) [← run e]
  | .select c t f => do runKids (.select c t f) [← run c, ← run t, ← run f]
  | .concat l r => do runKids (.concat l r) [← run l, ← run r]
  | .extract e off w => do runKids (.extract e off w) [← run e]
  | .cast k e w => do runKids (.cast k e w) [← run e]
  | .not e => do runKids (.not e) [← run e]
  | .arith k l r => do runKids (.arith k l r) [← run l, ← run r]
  | .cmp k l r => do runKids (.cmp k l r) [← run l, ← run r]

/-- `evalRead` -/
def runRead (root : Array) (index : Nat) : UpdateNode → Option Expr
  | .null =>
    if root.isConstantArray ∧ index < root.size then
      some (.constant ⟨root.getRange, root.constantValues.getD index 0⟩)
    else some (getInitialValue root index)
  | .node next i v =>
    match run i with
    | none => none
    | some (.constant c) => if c.value.toNat = index then run v else runRead root index next
    | some _ => some (ReadExpr.create ⟨root, .node next i v⟩
        (.constant (.alloc index root.getDomain)))

end

mutual

/-- `P` holds of every expression that the evaluation comes to; the updates of a read are
evaluated from the most recent one to the one that matches. -/
def AllReached (P : Expr → Prop) : Expr → Prop
  | .constant c => P (.constant c)
  | .read root head index => P (.read root head index) ∧ AllReached P index ∧
      ∀ c, visit getInitialValue index = .constant c → AllReachedRead P c.value.toNat head
  | .notOptimized e => P (.notOptimized e) ∧ AllReached P e
  | .select c t f => P (.select c t f) ∧ AllReached P c ∧ AllReached P t ∧ AllReached P f
  | .concat l r => P (.concat l r) ∧ AllReached P l ∧ AllReached P r
  | .extract e off w => P (.extract e off w) ∧ AllReached P e
  | .cast k e w => P (.cast k e w) ∧ AllReached P e
  | .not e => P (.not e) ∧ AllReached P e
  | .arith k l r => P (.arith k l r) ∧ AllReached P l ∧ AllReached P r
  | .cmp k l r => P (.cmp k l r) ∧ AllReached P l ∧ AllReached P r

def AllReachedRead (P : Expr → Prop) (index : Nat) : UpdateNode → Prop
  | .null => True
  | .node next i v => AllReached P i ∧
      ∀ c, visit getInitialValue i = .constant c →
        if c.value.toNat = index then AllReached P v else AllReachedRead P index next

end

/-- A division by the constant zero itself is harmless only while its dividend stays open. -/
def DividendOpen : Expr → Prop
  | .arith k l (.constant c) =>
    k.isDivision = true → c.isZero = true → (visit getInitialValue l).isConstant = false
  | _ => True

/-- A run returns `value` if `ok` holds, and fails otherwise. -/
def Outcome (ok : Prop) (value : Expr) : Option Expr → Prop
  | none => ¬ ok
  | some e => ok ∧ e = value

section Outcome

variable {p q : Prop} {x y e : Expr} {o : Option Expr} {f : Expr → Option Expr}

theorem Outcome.some (h : p) : Outcome p x (some x) := ⟨h, rfl⟩

theorem Outcome.congr (h : Outcome p x o) (hpq : p ↔ q) : Outcome q x o := by
  cases o with
  | none => exact fun hq => h (hpq.mpr hq)
  | some e => exact ⟨hpq.mp h.1, h.2⟩

theorem Outcome.bind (h : Outcome p x o) (hf : Outcome q y (f x)) :
    Outcome (p ∧ q) y (o.bind f) := by
  cases o with
  | none => exact fun hpq => h hpq.1
  | some e =>
    obtain ⟨hp, rfl⟩ := h
    exact hf.congr (and_iff_right hp).symm

theorem runAfterKids_of_not {kids : List Expr} (h : e.dividesByZero kids = false) :
    runAfterKids e kids = .some (afterKids e kids) := by
  unfold runAfterKids afterKids
  rw [Expr.runRebuild_of_not h]
  split <;> rfl

theorem dividesByZero_of_not_division (k : ArithKind) (l r : Expr) (kids : List Expr)
    (h : k.isDivision = false) : (Expr.arith k l r).dividesByZero kids = false := by
  unfold Expr.dividesByZero
  split
  · rename_i heq
    cases heq
    rw [h, Bool.false_and]
  · rfl

/-- Only divisions can fail. -/
theorem outcome_runKids (e : Expr) (kids : List Expr) (h : ∀ k l r, e ≠ .arith k l r) :
    Outcome (DividendOpen getInitialValue e) (visitKids e kids) (runKids e kids) := by
  have hdiv (ks : List Expr) : e.dividesByZero ks = false := by
    cases e with
    | arith k l r => exact absurd rfl (h k l r)
    | _ => rfl
  have hopen : DividendOpen getInitialValue e := by
    cases e with
    | arith k l r => exact absurd rfl (h k l r)
    | _ => trivial
  have hrun : runKids e kids =
      if e.kids.all Expr.isConstant then e.runRebuild e.kids else runAfterKids e kids := by
    cases e with
    | arith k l r => exact absurd rfl (h k l r)
    | _ => rfl
  have hvisit : visitKids e kids =
      if e.kids.all Expr.isConstant then e.rebuild e.kids else afterKids e kids := by
    cases e with
    | arith k l r => exact absurd rfl (h k l r)
    | _ => rfl
  rw [hrun, hvisit, Expr.runRebuild_of_not (hdiv _), runAfterKids_of_not (hdiv _)]
  split
  · exact .some hopen
  · exact .some hopen

variable {k : ArithKind} {l r : Expr}

/-- The guard gives back a zero only if the divisor is that zero itself. -/
theorem protectedDivisor_zero {c : ConstantExpr} (hc : c.isZero = true)
    (h : protectedDivisor r (visit getInitialValue r) = .constant c) : r = .constant c := by
  unfold protectedDivisor at h
  split at h
  · rename_i d hd
    split at h
    case isTrue => exact h
    case isFalse hz =>
      cases h
      exact absurd hc hz
  · rename_i hne
    exact absurd h (hne c)

theorem protectedDivisor_self (c : ConstantExpr) :
    protectedDivisor (.constant c) (.constant c) = .constant c := by
  unfold protectedDivisor
  dsimp only
  split <;> rfl

/-- A guarded division is rebuilt by zero exactly if it is by the constant zero itself and its
dividend evaluates to a constant. -/
theorem dividendOpen_arith : DividendOpen getInitialValue (.arith k l r) ↔
    (Expr.arith k l r).dividesByZero
      [visit getInitialValue l, protectedDivisor r (visit getInitialValue r)] = false := by
  rw [← Bool.not_eq_true, Expr.dividesByZero_arith]
  constructor
  · rintro hopen ⟨hl, c, hd, hc, hk⟩
    obtain rfl := protectedDivisor_zero getInitialValue hc hd
    exact Bool.false_ne_true ((hopen hk hc).symm.trans hl)
  · intro h
    cases r with
    | constant c =>
      intro hk hc
      rw [← Bool.not_eq_true]
      exact fun hl => h ⟨hl, c, protectedDivisor_self c, hc, hk⟩
    | _ => trivial

theorem outcome_runProtectedDiv (hkids : ¬ ([l, r].all Expr.isConstant) = true) :
    Outcome (DividendOpen getInitialValue (.arith k l r))
      (protectedDivOperation k l r (visit getInitialValue l) (visit getInitialValue r))
      (runProtectedDiv k l r (visit getInitialValue l) (visit getInitialValue r)) := by
  have hopen := dividendOpen_arith getInitialValue (k := k) (l := l) (r := r)
  unfold runProtectedDiv protectedDivOperation
  split
  · unfold Expr.runRebuild
    split
    case isTrue hz => exact fun h => Bool.false_ne_true ((hopen.mp h).symm.trans hz)
    case isFalse hz => exact .some (hopen.mpr (Bool.not_eq_true _ ▸ hz))
  · rename_i hsame
    obtain ⟨hl, hr⟩ := not_or.mp hsame
    refine .some (hopen.mpr ?_)
    rw [not_not.mp hl, not_not.mp hr, ← Bool.not_eq_true, Expr.dividesByZero_arith]
    rintro ⟨hlc, c, rfl, -, -⟩
    exact hkids (by simp [hlc])

theorem outcome_runKids_arith (k : ArithKind) (l r : Expr) :
    Outcome (DividendOpen getInitialValue (.arith k l r)) (visit getInitialValue (.arith k l r))
      (runKids (.arith k l r) [visit getInitialValue l, visit getInitialValue r]) := by
  have hopen := dividendOpen_arith getInitialValue (k := k) (l := l) (r := r)
  rw [visit]
  unfold runKids visitKids
  split
  case isTrue hconst =>
    simp only [Expr.kids, List.all_cons, List.all_nil, Bool.and_true, Bool.and_eq_true,
      Expr.isConstant_iff] at hconst
    obtain ⟨⟨a, rfl⟩, c, rfl⟩ := hconst
    rw [visit_constant, visit_constant, protectedDivisor_self] at hopen
    unfold Expr.runRebuild
    split
    case isTrue hz => exact fun h => Bool.false_ne_true ((hopen.mp h).symm.trans hz)
    case isFalse hz => exact .some (hopen.mpr (Bool.not_eq_true _ ▸ hz))
  case isFalse hkids =>
    dsimp only
    split
    case isTrue => exact outcome_runProtectedDiv getInitialValue hkids
    case isFalse hk =>
      rw [Bool.not_eq_true] at hk
      rw [runAfterKids_of_not (dividesByZero_of_not_division k l r _ hk)]
      exact .some (hopen.mpr (dividesByZero_of_not_division k l r _ hk))

end Outcome

section Run

variable {getInitialValue}

mutual

/-- A run evaluates the expression unless it comes to a division by the constant zero itself
whose dividend evaluates to a constant. -/
theorem outcome_run : ∀ e : Expr,
    Outcome (AllReached getInitialValue (DividendOpen getInitialValue) e)
      (visit getInitialValue e) (run getInitialValue e)
  | .constant c => .some trivial
  | .read root head index => by
    have hindex := outcome_run index
    rw [visit, run, AllReached]
    cases hrun : run getInitialValue index with
    | none =>
      rw [hrun] at hindex
      exact fun h => hindex h.2.1
    | some v =>
      rw [hrun] at hindex
      obtain ⟨hall, rfl⟩ := hindex
      cases hv : visit getInitialValue index with
      | constant c =>
        refine (outcome_runRead root c.value.toNat head).congr ?_
        simp [DividendOpen, hall]
      | _ =>
        dsimp only
        rw [runAfterKids_of_not rfl]
        exact .some ⟨trivial, hall, fun c hc => by cases hc⟩
  | .notOptimized e => by
    rw [visit, run, AllReached]
    exact ((outcome_run e).bind (outcome_runKids getInitialValue _ _ (by simp))).congr and_comm
  | .select c t f => by
    rw [visit, run, AllReached]
    refine ((outcome_run c).bind ((outcome_run t).bind ((outcome_run f).bind
      (outcome_runKids getInitialValue _ _ (by simp))))).congr ?_
    tauto
  | .concat l r => by
    rw [visit, run, AllReached]
    refine ((outcome_run l).bind ((outcome_run r).bind
      (outcome_runKids getInitialValue _ _ (by simp)))).congr ?_
    tauto
  | .extract e off w => by
    rw [visit, run, AllReached]
    exact ((outcome_run e).bind (outcome_runKids getInitialValue _ _ (by simp))).congr and_comm
  | .cast k e w => by
    rw [visit, run, AllReached]
    exact ((outcome_run e).bind (outcome_runKids getInitialValue _ _ (by simp))).congr and_comm
  | .not e => by
    rw [visit, run, AllReached]
    exact ((outcome_run e).bind (outcome_runKids getInitialValue _ _ (by simp))).congr and_comm
  | .arith k l r => by
    rw [run, AllReached]
    refine ((outcome_run l).bind ((outcome_run r).bind
      (outcome_runKids_arith getInitialValue k l r))).congr ?_
    tauto
  | .cmp k l r => by
    rw [visit, run, AllReached]
    refine ((outcome_run l).bind ((outcome_run r).bind
      (outcome_runKids getInitialValue _ _ (by simp)))).congr ?_
    tauto

theorem outcome_runRead (root : Array) (index : Nat) : ∀ un : UpdateNode,
    Outcome (AllReachedRead getInitialValue (DividendOpen getInitialValue) index un)
      (evalRead getInitialValue root index un) (runRead getInitialValue root index un)
  | .null => by
    rw [evalRead, runRead, AllReachedRead]
    split
    · exact .some trivial
    · exact .some trivial
  | .node next i v => by
    have hi := outcome_run i
    rw [evalRead, runRead, AllReachedRead]
    cases hrun : run getInitialValue i with
    | none =>
      rw [hrun] at hi
      exact fun h => hi h.1
    | some i' =>
      rw [hrun] at hi
      obtain ⟨hall, rfl⟩ := hi
      cases hv : visit getInitialValue i with
      | constant c =>
        dsimp only
        split
        case isTrue heq =>
          refine (outcome_run v).congr ?_
          simp [hall, heq]
        case isFalse hne =>
          refine (outcome_runRead root index next).congr ?_
          simp [hall, hne]
      | _ => exact .some ⟨hall, fun c hc => by cases hc⟩

end

/-- What a run that succeeds returns. -/
theorem run_eq_visit {e e' : Expr} (h : run getInitialValue e = some e') :
    e' = visit getInitialValue e := by
  have hrun := @outcome_run getInitialValue e
  rw [h] at hrun
  exact hrun.2

end Run

/-- The evaluation folds no division by zero exactly if every division that it comes to, and
that has the constant zero itself as divisor, has a dividend that stays open. -/
theorem run_isSome_iff (getInitialValue : Array → Nat → Expr) (e : Expr) :
    (run getInitialValue e).isSome = true ↔
      AllReached getInitialValue (DividendOpen getInitialValue) e := by
  have hrun := @outcome_run getInitialValue e
  cases h : run getInitialValue e with
  | none =>
    rw [h] at hrun
    exact ⟨fun hn => (Bool.false_ne_true hn).elim, fun hall => absurd hall hrun⟩
  | some e' =>
    rw [h] at hrun
    exact ⟨fun _ => hrun.1, fun _ => rfl⟩

/-- `x[0] / 0`, which is symbolic until `x` gets its bytes. -/
def byteByZero : Expr :=
  UDivExpr.create (.read CreateCall.symbolicByte .null (.constant ⟨32, 0⟩)) (.constant ⟨8, 0⟩)

theorem not_run_isSome : ¬ ∀ (a : ArrayAssignment) (e : Expr), e.WellSorted →
    (run a.evaluateAt e).isSome = true := by
  intro h
  have hsome := h ⟨false, [(CreateCall.symbolicByte, [7])]⟩ byteByZero
    (by simp [byteByZero, UDivExpr.create, bcreate, divExprCreate, Expr.WellSorted,
      UpdateNode.WellSorted, Expr.width, Array.getRange])
  have hnone : run (ArrayAssignment.evaluateAt ⟨false, [(CreateCall.symbolicByte, [7])]⟩)
      byteByZero = none := by decide +kernel
  rw [hnone] at hsome
  cases hsome

end ExprEvaluator

end Klee
