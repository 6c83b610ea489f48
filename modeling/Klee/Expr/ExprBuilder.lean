import Klee.Expr.Create

/-! The expression builders of `ExprBuilder.cpp`. The builders call each other; a builder that
calls itself is given a number of calls that it may make. -/
namespace Klee

/-- The methods of `ExprBuilder`; those for one class of operators have the operator as an
argument. -/
structure ExprBuilder where
  constant : ConstantExpr → Option Expr
  notOptimized : Expr → Option Expr
  read : UpdateList → Expr → Option Expr
  select : Expr → Expr → Expr → Option Expr
  concat : Expr → Expr → Option Expr
  extract : Expr → Nat → Nat → Option Expr
  cast : CastKind → Expr → Nat → Option Expr
  not : Expr → Option Expr
  arith : ArithKind → Expr → Expr → Option Expr
  cmp : CmpKind → Expr → Expr → Option Expr

namespace ExprBuilder

abbrev add (b : ExprBuilder) := b.arith .add
abbrev sub (b : ExprBuilder) := b.arith .sub
abbrev and (b : ExprBuilder) := b.arith .and
abbrev eq (b : ExprBuilder) := b.cmp .eq

def stopped : ExprBuilder where
  constant _ := none
  notOptimized _ := none
  read _ _ := none
  select _ _ _ := none
  concat _ _ := none
  extract _ _ _ := none
  cast _ _ _ := none
  not _ := none
  arith _ _ _ := none
  cmp _ _ _ := none

def build (b : ExprBuilder) : Expr → Option Expr
  | .constant c => b.constant c
  | .notOptimized e => b.notOptimized e
  | .read root head index => b.read ⟨root, head⟩ index
  | .select c t f => b.select c t f
  | .concat l r => b.concat l r
  | .extract e off w => b.extract e off w
  | .cast k e w => b.cast k e w
  | .not e => b.not e
  | .arith k l r => b.arith k l r
  | .cmp k l r => b.cmp k l r

end ExprBuilder

def DefaultExprBuilder : ExprBuilder where
  constant c := some (.constant c)
  notOptimized e := some (.notOptimized e)
  read ul index := some (.read ul.root ul.head index)
  select c t f := some (.select c t f)
  concat l r := some (.concat l r)
  extract e off w := some (.extract e off w)
  cast k e w := some (.cast k e w)
  not e := some (.not e)
  arith k l r := some (.arith k l r)
  cmp k l r := some (.cmp k l r)

def Expr.dynConstant : Expr → Option ConstantExpr
  | .constant c => some c
  | _ => none

def Expr.isFalse (e : Expr) : Bool := e.dynConstant.any (·.isFalse)

def ConstantExpr.neg (c : ConstantExpr) : ConstantExpr := ⟨c.width, -c.value⟩

/-- The helper class of `ConstantSpecializedExprBuilder`, with an overload for a constant on
the left (`CN`), on the right (`NC`) or on neither side (`NN`). -/
structure SpecializedBuilder where
  constant : ConstantExpr → Option Expr
  notOptimized : Expr → Option Expr
  read : UpdateList → Expr → Option Expr
  select : Expr → Expr → Expr → Option Expr
  concatCN : ConstantExpr → Expr → Option Expr
  concatNC : Expr → ConstantExpr → Option Expr
  concatNN : Expr → Expr → Option Expr
  extract : Expr → Nat → Nat → Option Expr
  cast : CastKind → Expr → Nat → Option Expr
  not : Expr → Option Expr
  arithCN : ArithKind → ConstantExpr → Expr → Option Expr
  arithNC : ArithKind → Expr → ConstantExpr → Option Expr
  arithNN : ArithKind → Expr → Expr → Option Expr
  cmpCN : CmpKind → ConstantExpr → Expr → Option Expr
  cmpNC : CmpKind → Expr → ConstantExpr → Option Expr
  cmpNN : CmpKind → Expr → Expr → Option Expr

section ConstantSpecialized

/-- The shape of `Concat` and of `Add` to `Sge`. -/
def specialize (fold : ConstantExpr → ConstantExpr → ConstantExpr)
    (cn : ConstantExpr → Expr → Option Expr) (nc : Expr → ConstantExpr → Option Expr)
    (nn : Expr → Expr → Option Expr) (l r : Expr) : Option Expr :=
  match l.dynConstant with
  | some cl =>
    match r.dynConstant with
    | some cr => some (.constant (fold cl cr))
    | none => cn cl r
  | none =>
    match r.dynConstant with
    | some cr => nc l cr
    | none => nn l r

/-- The loop of `Read` -/
def rollBack (eq : Expr → Expr → Option Expr) (index : Expr) : UpdateNode → Option UpdateNode
  | .null => some .null
  | .node next i value =>
    (eq index i).bind fun e =>
      if e.isFalse then rollBack eq index next else some (.node next i value)

def CastKind.fold : CastKind → ConstantExpr → Nat → ConstantExpr
  | .zext => .zext
  | .sext => .sext

def ConstantSpecializedExprBuilder (b : SpecializedBuilder) : ExprBuilder where
  constant := b.constant
  notOptimized := b.notOptimized
  read ul index :=
    let eq := specialize (ConstantExpr.cmp (CmpKind.denote .eq)) (b.cmpCN .eq) (b.cmpNC .eq)
      (b.cmpNN .eq)
    (rollBack eq index ul.head).bind fun un => b.read ⟨ul.root, un⟩ index
  select c t f :=
    match c.dynConstant with
    | some ce => some (if ce.isTrue then t else f)
    | none => b.select c t f
  concat := specialize .concat b.concatCN b.concatNC b.concatNN
  extract e off w :=
    match e.dynConstant with
    | some ce => some (.constant (ce.extract off w))
    | none => b.extract e off w
  cast k e w :=
    match e.dynConstant with
    | some ce => some (.constant (k.fold ce w))
    | none => b.cast k e w
  not
    | .not e => some e
    | .constant ce => some (.constant ce.not)
    | e => b.not e
  arith k := specialize (ConstantExpr.arith k.denote) (b.arithCN k) (b.arithNC k) (b.arithNN k)
  cmp k := specialize (ConstantExpr.cmp k.denote) (b.cmpCN k) (b.cmpNC k) (b.cmpNN k)

end ConstantSpecialized

def ChainedBuilder (base : ExprBuilder) : SpecializedBuilder where
  constant := base.constant
  notOptimized := base.notOptimized
  read := base.read
  select := base.select
  concatCN l r := base.concat (.constant l) r
  concatNC l r := base.concat l (.constant r)
  concatNN := base.concat
  extract := base.extract
  cast := base.cast
  not := base.not
  arithCN k l r := base.arith k (.constant l) r
  arithNC k l r := base.arith k l (.constant r)
  arithNN := base.arith
  cmpCN k l r := base.cmp k (.constant l) r
  cmpNC k l r := base.cmp k l (.constant r)
  cmpNN := base.cmp

namespace ConstantFoldingBuilder

/-- The two `dyn_cast`s of the operands of a sum or difference, with the other operand. -/
def constantOperand (x y : Expr) (left right : ConstantExpr → Expr → Option Expr)
    (other : Option Expr) : Option Expr :=
  match x.dynConstant with
  | some c => left c y
  | none =>
    match y.dynConstant with
    | some c => right c x
    | none => other

variable (builder base : ExprBuilder)

def addCN (l : ConstantExpr) (r : Expr) : Option Expr :=
  if l.isZero then some r
  else
    match r with
    | .add x y => constantOperand x y
        (fun c y => builder.add (.constant (l.add c)) y)
        (fun c x => builder.add (.constant (l.add c)) x)
        (base.add (.constant l) (.add x y))
    | .sub x y => constantOperand x y
        (fun c y => builder.sub (.constant (l.add c)) y)
        (fun c x => builder.add (.constant (l.sub c)) x)
        (base.add (.constant l) (.sub x y))
    | r => base.add (.constant l) r

def addNC (l : Expr) (r : ConstantExpr) : Option Expr := addCN builder base r l

/-- The second `switch` of `addNN` -/
def addSwitchRight (l : Expr) : Expr → Option Expr
  | .add x y => constantOperand x y
      (fun c y => (builder.add l y).bind (builder.add (.constant c)))
      (fun c x => (builder.add l x).bind (builder.add (.constant c)))
      (base.add l (.add x y))
  | .sub x y => constantOperand x y
      (fun c y => (builder.sub l y).bind (builder.add (.constant c)))
      (fun c x => (builder.add l x).bind (builder.add (.constant c.neg)))
      (base.add l (.sub x y))
  | r => base.add l r

def addNN (l r : Expr) : Option Expr :=
  match l with
  | .add x y => (builder.add y r).bind (builder.add x)
  | .sub x y => (builder.sub r y).bind (builder.add x)
  | l => addSwitchRight builder base l r

def subCN (l : ConstantExpr) (r : Expr) : Option Expr :=
  match r with
  | .add x y => constantOperand x y
      (fun c y => builder.sub (.constant (l.sub c)) y)
      (fun c x => builder.sub (.constant (l.sub c)) x)
      (base.sub (.constant l) (.add x y))
  | .sub x y => constantOperand x y
      (fun c y => builder.add (.constant (l.sub c)) y)
      (fun c x => builder.sub (.constant (l.add c)) x)
      (base.sub (.constant l) (.sub x y))
  | r => base.sub (.constant l) r

def subNC (l : Expr) (r : ConstantExpr) : Option Expr := addCN builder base r.neg l

/-- The second `switch` of `subNN` -/
def subSwitchRight (l : Expr) : Expr → Option Expr
  | .add x y => constantOperand x y
      (fun c y => (builder.sub l y).bind (builder.add (.constant c.neg)))
      (fun c x => (builder.sub l x).bind (builder.add (.constant c.neg)))
      (base.sub l (.add x y))
  | .sub x y => constantOperand x y
      (fun c y => (builder.add l y).bind (builder.add (.constant c.neg)))
      (fun c x => (builder.sub l x).bind (builder.add (.constant c)))
      (base.sub l (.sub x y))
  | r => base.sub l r

def subNN (l r : Expr) : Option Expr :=
  match l with
  | .add x y => (builder.sub y r).bind (builder.add x)
  | .sub x y => (builder.add y r).bind (builder.sub x)
  | l => subSwitchRight builder base l r

def mulCN (l : ConstantExpr) (r : Expr) : Option Expr :=
  if l.isZero then some (.constant l)
  else if l.isOne then some r
  else base.arith .mul (.constant l) r

def andCN (l : ConstantExpr) (r : Expr) : Option Expr :=
  if l.isZero then some (.constant l)
  else if l.isAllOnes then some r
  else base.and (.constant l) r

def orCN (l : ConstantExpr) (r : Expr) : Option Expr :=
  if l.isZero then some r
  else if l.isAllOnes then some (.constant l)
  else base.arith .or (.constant l) r

def xorCN (l : ConstantExpr) (r : Expr) : Option Expr :=
  if l.isZero then some r else base.arith .xor (.constant l) r

def eqCN (l : ConstantExpr) (r : Expr) : Option Expr :=
  if l.width = 1 then
    if l.isTrue then some r else base.not r
  else base.eq (.constant l) r

end ConstantFoldingBuilder

open ConstantFoldingBuilder in
def ConstantFoldingBuilder (builder base : ExprBuilder) : SpecializedBuilder :=
  { ChainedBuilder base with
    arithCN
      | .add => addCN builder base
      | .sub => subCN builder base
      | .mul => mulCN base
      | .and => andCN base
      | .or => orCN base
      | .xor => xorCN base
      | k => (ChainedBuilder base).arithCN k
    arithNC
      | .add => addNC builder base
      | .sub => subNC builder base
      | .mul => fun l r => mulCN base r l
      | .and => fun l r => andCN base r l
      | .or => fun l r => orCN base r l
      | .xor => fun l r => xorCN base r l
      | k => (ChainedBuilder base).arithNC k
    arithNN
      | .add => addNN builder base
      | .sub => subNN builder base
      | k => (ChainedBuilder base).arithNN k
    cmpCN
      | .eq => eqCN base
      | k => (ChainedBuilder base).cmpCN k
    cmpNC
      | .eq => fun l r => eqCN base r l
      | k => (ChainedBuilder base).cmpNC k }

def ConstantFoldingExprBuilder (base : ExprBuilder) : Nat → ExprBuilder
  | 0 => .stopped
  | n + 1 => ConstantSpecializedExprBuilder
      (ConstantFoldingBuilder (ConstantFoldingExprBuilder base n) base)

namespace SimplifyingBuilder

variable (builder base : ExprBuilder)

/-- The comparison that is built in place of another one, with the operands exchanged. -/
def exchanged : CmpKind → Option CmpKind
  | .ugt => some .ult
  | .uge => some .ule
  | .sgt => some .slt
  | .sge => some .sle
  | _ => none

def ne (l r : Expr) : Option Expr := (builder.eq l r).bind builder.not

/-- `Ne`, `Ugt`, `Uge`, `Sgt` and `Sge`, with the other comparisons of the base -/
def cmp (k : CmpKind) (l r : Expr) : Option Expr :=
  if k = .ne then ne builder l r
  else
    match exchanged k with
    | some k => builder.cmp k r l
    | none => base.cmp k l r

def eqCN (l : ConstantExpr) (r : Expr) : Option Expr :=
  if l.width = 1 then
    if l.isTrue then some r else base.not r
  else base.eq (.constant l) r

def eqNN (l r : Expr) : Option Expr :=
  if l = r then some (.constant (.alloc 1 1)) else base.eq l r

def not : Expr → Option Expr
  | .or x y => (builder.not x).bind fun x => (builder.not y).bind fun y => builder.and x y
  | e => base.not e

end SimplifyingBuilder

open SimplifyingBuilder in
def SimplifyingBuilder (builder base : ExprBuilder) : SpecializedBuilder :=
  { ChainedBuilder base with
    not := SimplifyingBuilder.not builder base
    cmpCN
      | .eq => eqCN base
      | k => fun l r => cmp builder base k (.constant l) r
    cmpNC
      | .eq => fun l r => eqCN base r l
      | k => fun l r => cmp builder base k l (.constant r)
    cmpNN
      | .eq => eqNN base
      | k => cmp builder base k }

def SimplifyingExprBuilder (base : Nat → ExprBuilder) : Nat → ExprBuilder
  | 0 => .stopped
  | n + 1 => ConstantSpecializedExprBuilder
      (SimplifyingBuilder (SimplifyingExprBuilder base n) (base n))

inductive BuilderStack
  | default
  | constantFolding
  | simplifying

def BuilderStack.builder : BuilderStack → Nat → ExprBuilder
  | default => fun _ => DefaultExprBuilder
  | constantFolding => ConstantFoldingExprBuilder DefaultExprBuilder
  | simplifying => SimplifyingExprBuilder (ConstantFoldingExprBuilder DefaultExprBuilder)

end Klee
