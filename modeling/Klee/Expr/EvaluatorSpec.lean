import Klee.Expr.EvaluatorRun

/-! `Assignment::evaluate` computes the value of an expression, for any initial bytes of the
arrays. -/
namespace Klee

mutual

/-- The value of an expression read at width `w`, where the arrays start as `initial`. -/
def Expr.evalFrom (initial : Array → Nat → BitVec 8) : Expr → (w : Nat) → BitVec w
  | .constant c, w => c.value.setWidth w
  | .notOptimized e, w => e.evalFrom initial w
  | .read root head index, w =>
      (head.evalFrom initial root (index.evalFrom initial 32)).setWidth w
  | .select c t f, w =>
      if c.evalFrom initial 1 = 1#1 then t.evalFrom initial w else f.evalFrom initial w
  | .concat l r, w => (l.evalFrom initial l.width ++ r.evalFrom initial r.width).setWidth w
  | .extract e off _, w => (e.evalFrom initial e.width).extractLsb' off w
  | .cast k e _, w => k.denote (e.evalFrom initial e.width) w
  | .not e, w => ~~~ e.evalFrom initial w
  | .arith k l r, w => k.denote (l.evalFrom initial w) (r.evalFrom initial w)
  | .cmp k l r, w =>
      (BitVec.ofBool (k.denote (l.evalFrom initial l.width)
        (r.evalFrom initial l.width))).setWidth w

/-- The byte at index `i`: the newest write whose index matches, else the initial byte. -/
def UpdateNode.evalFrom (initial : Array → Nat → BitVec 8) (root : Array) :
    UpdateNode → BitVec 32 → BitVec 8
  | .null, i => initial root i.toNat
  | .node next index value, i =>
      if index.evalFrom initial 32 = i then value.evalFrom initial 8
      else next.evalFrom initial root i

end

section Eval

variable (σ : Assignment)

mutual

/-- `eval` starts from the contents that the assignment gives to the arrays. -/
theorem Expr.eval_eq_evalFrom : ∀ (e : Expr) (w : Nat),
    e.eval σ w = e.evalFrom (fun a i => a.initial σ i) w
  | .constant _, _ => rfl
  | .notOptimized e, w => Expr.eval_eq_evalFrom e w
  | .read root head index, w => by
    rw [Expr.eval, Expr.evalFrom, Expr.eval_eq_evalFrom index,
      UpdateNode.eval_eq_evalFrom root head]
  | .select c t f, w => by
    rw [Expr.eval, Expr.evalFrom, Expr.eval_eq_evalFrom c, Expr.eval_eq_evalFrom t, Expr.eval_eq_evalFrom f]
  | .concat l r, w => by
    rw [Expr.eval, Expr.evalFrom, Expr.eval_eq_evalFrom l, Expr.eval_eq_evalFrom r]
  | .extract e _ _, w => by rw [Expr.eval, Expr.evalFrom, Expr.eval_eq_evalFrom e]
  | .cast _ e _, w => by rw [Expr.eval, Expr.evalFrom, Expr.eval_eq_evalFrom e]
  | .not e, w => by rw [Expr.eval, Expr.evalFrom, Expr.eval_eq_evalFrom e]
  | .arith _ l r, w => by
    rw [Expr.eval, Expr.evalFrom, Expr.eval_eq_evalFrom l, Expr.eval_eq_evalFrom r]
  | .cmp _ l r, w => by
    rw [Expr.eval, Expr.evalFrom, Expr.eval_eq_evalFrom l, Expr.eval_eq_evalFrom r]

theorem UpdateNode.eval_eq_evalFrom (root : Array) : ∀ (un : UpdateNode) (i : BitVec 32),
    un.eval σ root i = un.evalFrom (fun a i => a.initial σ i) root i
  | .null, _ => rfl
  | .node next index value, i => by
    rw [UpdateNode.eval, UpdateNode.evalFrom, Expr.eval_eq_evalFrom index,
      Expr.eval_eq_evalFrom value, UpdateNode.eval_eq_evalFrom root next]

end

end Eval

mutual

/-- `P` holds of the expression and of all its subexpressions, the updates of reads
included. -/
def Expr.All (P : Expr → Prop) : Expr → Prop
  | .constant c => P (.constant c)
  | .notOptimized e => P (.notOptimized e) ∧ e.All P
  | .read root head index => P (.read root head index) ∧ head.All P ∧ index.All P
  | .select c t f => P (.select c t f) ∧ c.All P ∧ t.All P ∧ f.All P
  | .concat l r => P (.concat l r) ∧ l.All P ∧ r.All P
  | .extract e off w => P (.extract e off w) ∧ e.All P
  | .cast k e w => P (.cast k e w) ∧ e.All P
  | .not e => P (.not e) ∧ e.All P
  | .arith k l r => P (.arith k l r) ∧ l.All P ∧ r.All P
  | .cmp k l r => P (.cmp k l r) ∧ l.All P ∧ r.All P

def UpdateNode.All (P : Expr → Prop) : UpdateNode → Prop
  | .null => True
  | .node next index value => next.All P ∧ index.All P ∧ value.All P

end

namespace Expr

variable (initial : Array → Nat → BitVec 8)

def valueFrom (e : Expr) : ConstantExpr := ⟨e.width, e.evalFrom initial e.width⟩

/-- A divisor is not zero, and a `NotOptimizedExpr` is not directly over a constant. -/
def Regular : Expr → Prop
  | arith k _ r => k.isDivision = true → r.evalFrom initial r.width ≠ 0
  | notOptimized e => e.isConstant = false
  | _ => True

variable {initial} {e : Expr} {w : Nat} {x : BitVec w} {s : Option Assignment}

theorem valueFrom_of_isConstant (h : e.isConstant = true) :
    constant (e.valueFrom initial) = e := by
  obtain ⟨c, rfl⟩ := (isConstant_iff e).mp h
  rw [valueFrom, evalFrom, width, BitVec.setWidth_eq]

theorem isZero_valueFrom :
    (e.valueFrom initial).isZero = true ↔ e.evalFrom initial e.width = 0 := by
  unfold ConstantExpr.isZero
  exact beq_iff_eq (a := e.evalFrom initial e.width)

theorem denotes_valueFrom (he : e.WellSorted) (hw : e.width = w) :
    Denotes s (constant (e.valueFrom initial)) w (e.evalFrom initial w) := by
  subst hw
  exact Denotes.constant (e.width_pos he)

theorem eq_constant_of_denotes (h : Denotes (some fun _ _ => 0) e w x)
    (hc : e.isConstant = true) : e = constant ⟨w, x⟩ := by
  obtain ⟨c, rfl⟩ := (isConstant_iff e).mp hc
  obtain ⟨y, rfl, hy⟩ := h.constant_inv
  rw [hy rfl]

section Folds

variable (a b c : ConstantExpr)

theorem isConstant_arithCreate (k : ArithKind) :
    (k.create (constant a) (constant b)).isConstant = true := by
  cases k
  case add =>
    change (AddExpr.create (constant a) (constant b)).isConstant = true
    rw [AddExpr.create.eq_def]
    rfl
  case sub =>
    change (SubExpr.create (constant a) (constant b)).isConstant = true
    rw [SubExpr.create.eq_def]
    rfl
  all_goals rfl

theorem isConstant_cmpCreate (k : CmpKind) :
    (k.create (constant a) (constant b)).isConstant = true := by
  cases k <;> rfl

theorem isConstant_selectCreate :
    (SelectExpr.create (constant a) (constant b) (constant c)).isConstant = true := by
  unfold SelectExpr.create
  dsimp only
  split <;> rfl

theorem isConstant_extractCreate (off w : Nat) :
    (ExtractExpr.create (constant a) off w).isConstant = true := by
  rw [ExtractExpr.create_eq]
  split <;> rfl

theorem isConstant_castCreate (k : CastKind) (w : Nat) :
    (k.create (constant a) w).isConstant = true := by
  have hcast (op : ConstantExpr → Nat → ConstantExpr) :
      (castCreate k op (constant a) w).isConstant = true := by
    unfold castCreate
    split_ifs
    · rfl
    · exact isConstant_extractCreate a 0 w
    · rfl
  cases k
  case zext => exact hcast _
  case sext => exact hcast _

end Folds

/-- Rebuilding an expression from the values of its kids gives its value. -/
theorem rebuild_values (he : e.WellSorted) (hread : ∀ root head index, e ≠ read root head index)
    (hno : ∀ src, e ≠ notOptimized src) :
    e.rebuild (e.kids.map fun k => constant (k.valueFrom initial)) =
      constant (e.valueFrom initial) := by
  have hw := e.width_pos he
  cases e with
  | constant c => exact (valueFrom_of_isConstant (e := constant c) rfl).symm
  | notOptimized src => exact (hno src rfl).elim
  | read root head index => exact (hread root head index rfl).elim
  | select c t f =>
    obtain ⟨⟨hc, hc1⟩, ht, hf, hwidth⟩ := he
    exact eq_constant_of_denotes (SelectExpr.create_denotes (denotes_valueFrom hc hc1)
      (denotes_valueFrom ht rfl) (denotes_valueFrom hf hwidth)) (isConstant_selectCreate _ _ _)
  | concat l r =>
    obtain ⟨hl, hr⟩ := he
    refine (eq_constant_of_denotes (ConcatExpr.create_denotes (denotes_valueFrom hl rfl)
      (denotes_valueFrom hr rfl)) rfl).trans ?_
    rw [valueFrom, evalFrom, width, BitVec.setWidth_eq]
  | extract e off w =>
    obtain ⟨he, hpos, hle⟩ := he
    exact eq_constant_of_denotes (ExtractExpr.create_denotes (denotes_valueFrom he rfl) hpos hle)
      (isConstant_extractCreate _ off w)
  | cast k e w =>
    obtain ⟨he, hle⟩ := he
    exact eq_constant_of_denotes (CastKind.create_denotes k (denotes_valueFrom he rfl) hw)
      (isConstant_castCreate _ k w)
  | not e =>
    have he : e.WellSorted := he
    exact eq_constant_of_denotes (NotExpr.create_denotes (denotes_valueFrom (e := e) he rfl)) rfl
  | arith k l r =>
    obtain ⟨hl, hr, hwidth⟩ := he
    exact eq_constant_of_denotes (ArithKind.create_denotes k (denotes_valueFrom hl rfl)
      (denotes_valueFrom hr hwidth)) (isConstant_arithCreate _ _ k)
  | cmp k l r =>
    obtain ⟨hl, hr, hwidth⟩ := he
    refine (eq_constant_of_denotes (CmpKind.create_denotes k (denotes_valueFrom hl rfl)
      (denotes_valueFrom hr hwidth)) (isConstant_cmpCreate _ _ k)).trans ?_
    rw [valueFrom, evalFrom, width, BitVec.setWidth_eq]

end Expr

namespace ExprEvaluator

open Klee.Expr (valueFrom Regular)

variable {initial : Array → Nat → BitVec 8} {e : Expr}

/-- The kids of an expression over constants are their values already. -/
theorem map_value_eq (h : e.kids.all Expr.isConstant = true) :
    (e.kids.map fun k => Expr.constant (k.valueFrom initial)) = e.kids := by
  rw [List.all_eq_true] at h
  exact List.map_congr_left (fun k hk => Expr.valueFrom_of_isConstant (h k hk)) |>.trans
    (List.map_id _)

/-- Values are not the kids of an expression that is not over constants. -/
theorem map_value_ne (h : ¬ e.kids.all Expr.isConstant = true) :
    (e.kids.map fun k => Expr.constant (k.valueFrom initial)) ≠ e.kids := by
  intro heq
  refine h ?_
  rw [← heq, List.all_map, List.all_eq_true]
  exact fun _ _ => rfl

/-- The values of the kids make no division by zero. -/
theorem not_dividesByZero_values (hreg : e.Regular initial) :
    e.dividesByZero (e.kids.map fun k => Expr.constant (k.valueFrom initial)) = false := by
  cases e with
  | arith k l r =>
    rw [← Bool.not_eq_true]
    intro hz
    obtain ⟨-, c, hc, hzero, hk⟩ := Expr.dividesByZero_arith.mp hz
    cases hc
    exact hreg hk (Expr.isZero_valueFrom.mp hzero)
  | _ => rfl

/-- An expression that is rebuilt from the values of its kids. -/
theorem runAfterKids_values (he : e.WellSorted) (hreg : e.Regular initial)
    (hread : ∀ root head index, e ≠ .read root head index)
    (hkids : ¬ e.kids.all Expr.isConstant = true) :
    runAfterKids e (e.kids.map fun k => .constant (k.valueFrom initial)) =
      some (.constant (e.valueFrom initial)) := by
  rw [runAfterKids_of_not (not_dividesByZero_values hreg), afterKids, if_neg (map_value_ne hkids)]
  by_cases hno : ∃ src, e = .notOptimized src
  · obtain ⟨src, rfl⟩ := hno
    rfl
  · rw [Expr.rebuild_values he hread fun src hsrc => hno ⟨src, hsrc⟩]

/-- A division by the value of its divisor. -/
theorem runProtectedDiv_values {k : ArithKind} {l r : Expr} (he : (Expr.arith k l r).WellSorted)
    (hreg : (Expr.arith k l r).Regular initial) (hk : k.isDivision = true)
    (hkids : ¬ (Expr.arith k l r).kids.all Expr.isConstant = true) :
    runProtectedDiv k l r (.constant (l.valueFrom initial)) (.constant (r.valueFrom initial)) =
      some (.constant ((Expr.arith k l r).valueFrom initial)) := by
  have hdivisor : protectedDivisor r (.constant (r.valueFrom initial)) =
      .constant (r.valueFrom initial) :=
    if_neg fun hz => hreg hk (Expr.isZero_valueFrom.mp hz)
  have hne := @map_value_ne initial _ hkids
  simp only [Expr.kids, List.map_cons, List.map_nil, ne_eq, List.cons.injEq, and_true,
    not_and_or] at hne
  rw [runProtectedDiv, hdivisor, if_pos hne]
  have hdz := not_dividesByZero_values hreg
  have hval := @Expr.rebuild_values initial _ he (by simp) (by simp)
  exact (Expr.runRebuild_of_not hdz).trans (congrArg some hval)

/-- An expression other than a read, with the values of its kids. -/
theorem runKids_values (he : e.WellSorted) (hreg : e.Regular initial)
    (hread : ∀ root head index, e ≠ .read root head index) :
    runKids e (e.kids.map fun k => .constant (k.valueFrom initial)) =
      some (.constant (e.valueFrom initial)) := by
  by_cases hkids : e.kids.all Expr.isConstant = true
  · have hno (src : Expr) : e ≠ .notOptimized src := by
      rintro rfl
      have hsrc : src.isConstant = false := hreg
      simp [Expr.kids, hsrc] at hkids
    have hdz := not_dividesByZero_values hreg
    have hval := @Expr.rebuild_values initial _ he hread hno
    rw [map_value_eq hkids] at hdz hval
    unfold runKids
    rw [if_pos hkids, Expr.runRebuild_of_not hdz, hval]
  · have hafter := runAfterKids_values he hreg hread hkids
    unfold runKids
    rw [if_neg hkids]
    cases e with
    | arith k l r =>
      by_cases hk : k.isDivision = true
      · exact (if_pos hk).trans (runProtectedDiv_values he hreg hk hkids)
      · exact (if_neg hk).trans hafter
    | _ => exact hafter

end ExprEvaluator

namespace ArrayAssignment

/-- The initial bytes under a total assignment: a constant array has its contents, and a read
past the end of the bytes of an array yields 0. -/
def initial (a : ArrayAssignment) (root : Array) (i : Nat) : BitVec 8 :=
  if root.isConstantArray ∧ i < root.size then root.constantValues.getD i 0
  else ((a.bindings.lookup root).getD []).getD i 0

def runEvaluate (a : ArrayAssignment) (e : Expr) : Option Expr :=
  ExprEvaluator.run a.evaluateAt e

variable {a : ArrayAssignment}

theorem evaluateAt_eq_constant (ha : a.allowFreeValues = false) (root : Array) (i : Nat) :
    a.evaluateAt root i = .constant ⟨8, ((a.bindings.lookup root).getD []).getD i 0⟩ := by
  have hfree : a.free root i = .constant ⟨8, 0⟩ := by
    rw [free, ha]
    rfl
  unfold evaluateAt
  split
  · rename_i bytes hlookup
    rw [hlookup]
    split
    · rename_i byte hbyte
      simp [List.getD, hbyte, Array.getRange]
    · rename_i hbyte
      simp [List.getD, hbyte, hfree]
  · rename_i hlookup
    rw [hlookup, hfree]
    rfl

section Total

variable (ha : a.allowFreeValues = false)
include ha

mutual

theorem run_eq_value : ∀ e : Expr, e.WellSorted → e.All (Expr.Regular a.initial) →
    ExprEvaluator.run a.evaluateAt e = some (.constant (e.valueFrom a.initial))
  | .constant c, _, _ => by
    rw [ExprEvaluator.run, Expr.valueFrom_of_isConstant rfl]
  | .read root head index, he, hall => by
    have hw : index.width = 32 := he.2.2
    have hread := runRead_eq_value root (index.evalFrom a.initial 32) head he.1 hall.2.1
    have hvalue : index.valueFrom a.initial = ⟨32, index.evalFrom a.initial 32⟩ := by
      rw [Expr.valueFrom, hw]
    rw [ExprEvaluator.run, run_eq_value index he.2.1 hall.2.2, hvalue]
    refine hread.trans ?_
    rw [Expr.valueFrom, Expr.evalFrom]
    exact congrArg (fun v => some (Expr.constant ⟨8, v⟩)) (BitVec.setWidth_eq _).symm
  | .notOptimized e, he, hall => by
    have hkids := ExprEvaluator.runKids_values he hall.1 (by simp)
    rw [ExprEvaluator.run, run_eq_value e he hall.2]
    exact hkids
  | .select c t f, he, hall => by
    have hkids := ExprEvaluator.runKids_values he hall.1 (by simp)
    rw [ExprEvaluator.run, run_eq_value c he.1.1 hall.2.1, run_eq_value t he.2.1 hall.2.2.1,
      run_eq_value f he.2.2.1 hall.2.2.2]
    exact hkids
  | .concat l r, he, hall => by
    have hkids := ExprEvaluator.runKids_values he hall.1 (by simp)
    rw [ExprEvaluator.run, run_eq_value l he.1 hall.2.1, run_eq_value r he.2 hall.2.2]
    exact hkids
  | .extract e off w, he, hall => by
    have hkids := ExprEvaluator.runKids_values he hall.1 (by simp)
    rw [ExprEvaluator.run, run_eq_value e he.1 hall.2]
    exact hkids
  | .cast k e w, he, hall => by
    have hkids := ExprEvaluator.runKids_values he hall.1 (by simp)
    rw [ExprEvaluator.run, run_eq_value e he.1 hall.2]
    exact hkids
  | .not e, he, hall => by
    have hkids := ExprEvaluator.runKids_values he hall.1 (by simp)
    rw [ExprEvaluator.run, run_eq_value e he hall.2]
    exact hkids
  | .arith k l r, he, hall => by
    have hkids := ExprEvaluator.runKids_values he hall.1 (by simp)
    rw [ExprEvaluator.run, run_eq_value l he.1 hall.2.1, run_eq_value r he.2.1 hall.2.2]
    exact hkids
  | .cmp k l r, he, hall => by
    have hkids := ExprEvaluator.runKids_values he hall.1 (by simp)
    rw [ExprEvaluator.run, run_eq_value l he.1 hall.2.1, run_eq_value r he.2.1 hall.2.2]
    exact hkids

theorem runRead_eq_value (root : Array) (i : BitVec 32) : ∀ un : UpdateNode, un.WellSorted →
    un.All (Expr.Regular a.initial) → ExprEvaluator.runRead a.evaluateAt root i.toNat un =
      some (.constant ⟨8, un.evalFrom a.initial root i⟩)
  | .null, _, _ => by
    rw [ExprEvaluator.runRead, UpdateNode.evalFrom, initial]
    split
    case isTrue => rfl
    case isFalse => rw [evaluateAt_eq_constant ha]
  | .node next index value, h, hall => by
    obtain ⟨hnext, ⟨hindex, hw⟩, hvalue, hv8⟩ := h
    have hivalue : index.valueFrom a.initial = ⟨32, index.evalFrom a.initial 32⟩ := by
      rw [Expr.valueFrom, hw]
    have hvvalue : value.valueFrom a.initial = ⟨8, value.evalFrom a.initial 8⟩ := by
      rw [Expr.valueFrom, hv8]
    rw [ExprEvaluator.runRead, run_eq_value index hindex hall.2.1, hivalue, UpdateNode.evalFrom]
    by_cases heq : index.evalFrom a.initial 32 = i
    · rw [if_pos heq, ← hvvalue, ← run_eq_value value hvalue hall.2.2]
      exact if_pos (congrArg BitVec.toNat heq)
    · rw [if_neg heq, ← runRead_eq_value root i next hnext hall.1]
      exact if_neg fun h => heq (BitVec.toNat_inj.mp h)

end

end Total

/-- Under a total assignment, and where no divisor is zero and no `NotOptimizedExpr` is directly
over a constant, an expression evaluates to the constant that it denotes. -/
theorem runEvaluate_eq_denotation (a : ArrayAssignment) (ha : a.allowFreeValues = false)
    (e : Expr) (he : e.WellSorted) (hreg : e.All (Expr.Regular a.initial)) :
    a.runEvaluate e = some (.constant ⟨e.width, e.evalFrom a.initial e.width⟩) :=
  run_eq_value ha e he hreg

/-- `x[1] / (x[0] with x[0] := 2)` where `x` has the single byte 7. -/
theorem runEvaluate_eq_denotation_pastEnd : runEvaluate ⟨false, [(CreateCall.symbolicByte, [7])]⟩
    (.arith .udiv (.read CreateCall.symbolicByte .null (.constant ⟨32, 1⟩))
      (.read CreateCall.symbolicByte (.node .null (.constant ⟨32, 0⟩) (.constant ⟨8, 2⟩))
        (.constant ⟨32, 0⟩))) = some (.constant ⟨8, 0⟩) :=
  runEvaluate_eq_denotation _ rfl _
    (by simp [Expr.WellSorted, UpdateNode.WellSorted, Expr.width, Array.getRange])
    (by simp [Expr.All, UpdateNode.All, Expr.Regular, Expr.evalFrom, UpdateNode.evalFrom,
      Expr.width, Array.getRange])

end ArrayAssignment

end Klee
