import Klee.Expr.Constant
import Mathlib.Tactic

/-! The smart constructors `XExpr::create` of `Expr.cpp`. A static function `XExpr_create`
of the source is `xExprCreate` here; the assertions on operand widths are left to the
well-sortedness of the operands. -/
namespace Klee

section Macros

/-- `BCREATE_R` and `CMPCREATE_T` -/
def bcreateR (op : ConstantExpr → ConstantExpr → ConstantExpr)
    (partialL : Expr → ConstantExpr → Expr) (partialR : ConstantExpr → Expr → Expr)
    (create : Expr → Expr → Expr) : Expr → Expr → Expr
  | .constant cl, .constant cr => .constant (op cl cr)
  | .constant cl, r => partialR cl r
  | l, .constant cr => partialL l cr
  | l, r => create l r

/-- `BCREATE` and `CMPCREATE` -/
def bcreate (op : ConstantExpr → ConstantExpr → ConstantExpr)
    (create : Expr → Expr → Expr) : Expr → Expr → Expr
  | .constant cl, .constant cr => .constant (op cl cr)
  | l, r => create l r

end Macros

def NotOptimizedExpr.create (src : Expr) : Expr := .notOptimized src

def NotExpr.create : Expr → Expr
  | .constant c => .constant c.not
  | e => .not e

section AndOr

def andExprCreatePartial (l : Expr) (cr : ConstantExpr) : Expr :=
  if cr.isAllOnes then l else if cr.isZero then .constant cr else .and l (.constant cr)

def andExprCreatePartialR (cl : ConstantExpr) (r : Expr) : Expr := andExprCreatePartial r cl

def AndExpr.create : Expr → Expr → Expr :=
  bcreateR .and andExprCreatePartial andExprCreatePartialR .and

def orExprCreatePartial (l : Expr) (cr : ConstantExpr) : Expr :=
  if cr.isAllOnes then .constant cr else if cr.isZero then l else .or l (.constant cr)

def orExprCreatePartialR (cl : ConstantExpr) (r : Expr) : Expr := orExprCreatePartial r cl

def OrExpr.create : Expr → Expr → Expr :=
  bcreateR .or orExprCreatePartial orExprCreatePartialR .or

end AndOr

variable [ExprOptions]

section Eq

def eqExprCreate (l r : Expr) : Expr :=
  if l = r then .constant (.alloc 1 1) else .eq l r

/-- The positions at which the constant array `root` holds `cl`. -/
def constArrayMatches (cl : ConstantExpr) (root : Array) : List Nat :=
  (List.range root.size).filter fun i =>
    decide (cl = ⟨root.getRange, root.constantValues.getD i 0⟩)

/-- `EqExpr_createPartialR`. The calls `EqExpr::create(x, c)` on an operand `x` of `r` and a
constant `c` are unfolded (a constant `x` folds, any other goes through the partial
constructor); `eqExprCreatePartialR_eq` states the body with them. -/
def eqExprCreatePartialR (cl : ConstantExpr) (r : Expr) : Expr :=
  if cl.width = 1 then
    if cl.isTrue then r
    else match r with
      | .eq (.constant c) right => if c.isFalse then right else eqExprCreate (.constant cl) r
      | .or a b =>
          AndExpr.create
            (match a with
              | .constant c => .constant (c.eq (.alloc 0 c.width))
              | a => eqExprCreatePartialR (.alloc 0 a.width) a)
            (match b with
              | .constant c => .constant (c.eq (.alloc 0 c.width))
              | b => eqExprCreatePartialR (.alloc 0 b.width) b)
      | r => eqExprCreate (.constant cl) r
  else match r with
    | .sext src _ =>
        let trunc := cl.zext src.width
        if cl = trunc.sext cl.width then
          match src with
          | .constant c => .constant (c.eq trunc)
          | src => eqExprCreatePartialR trunc src
        else .constant (.alloc 0 1)
    | .zext src _ =>
        let trunc := cl.zext src.width
        if cl = trunc.zext cl.width then
          match src with
          | .constant c => .constant (c.eq trunc)
          | src => eqExprCreatePartialR trunc src
        else .constant (.alloc 0 1)
    | .add (.constant k) right => eqExprCreatePartialR (cl.sub k) right
    | .sub (.constant k) right => eqExprCreatePartialR (k.sub cl) right
    | .read root head index =>
        -- `TryConstArrayOpt`, when the switch is on
        if constArrayOpt && root.isConstantArray && head == .null then
          let found := constArrayMatches cl root
          if found.length > 100 then eqExprCreate (.constant cl) r
          else found.foldl (fun res i => OrExpr.create res
              (match index with
                | .constant c => .constant (c.eq (.alloc i index.width))
                | index => eqExprCreatePartialR (.alloc i index.width) index))
            (.constant (.alloc 0 1))
        else eqExprCreate (.constant cl) r
    | r => eqExprCreate (.constant cl) r

def eqExprCreatePartial (l : Expr) (cr : ConstantExpr) : Expr := eqExprCreatePartialR cr l

def EqExpr.create : Expr → Expr → Expr :=
  bcreateR .eq eqExprCreatePartial eqExprCreatePartialR eqExprCreate

def Expr.createIsZero (e : Expr) : Expr := EqExpr.create e (.constant (.alloc 0 e.width))

end Eq

section Xor

def xorExprCreatePartialR (cl : ConstantExpr) (r : Expr) : Expr :=
  if cl.isZero then r
  else if cl.width = 1 then eqExprCreatePartial r (.alloc 0 1)
  else .xor (.constant cl) r

def xorExprCreatePartial (l : Expr) (cr : ConstantExpr) : Expr := xorExprCreatePartialR cr l

def XorExpr.create : Expr → Expr → Expr :=
  bcreateR .xor xorExprCreatePartial xorExprCreatePartialR .xor

end Xor

section AddSub

mutual

/-- `AddExpr_createPartialR`. As in `eqExprCreatePartialR`, the calls on an operand of `r`
are unfolded: two constants fold, a constant and a non-constant go to the partial
constructor. -/
def addExprCreatePartialR (cl : ConstantExpr) (r : Expr) : Expr :=
  if cl.width = 1 then xorExprCreatePartialR cl r
  else if cl.isZero then r
  else match r with
    | .add (.constant k) b =>
        match b with
        | .constant c => .constant ((cl.add k).add c)
        | b => addExprCreatePartialR (cl.add k) b
    | .sub (.constant k) b =>
        match b with
        | .constant c => .constant ((cl.add k).sub c)
        | b => subExprCreatePartialR (cl.add k) b
    | r => .add (.constant cl) r

def subExprCreatePartialR (cl : ConstantExpr) (r : Expr) : Expr :=
  if cl.width = 1 then xorExprCreatePartialR cl r
  else match r with
    | .add (.constant k) b =>
        match b with
        | .constant c => .constant ((cl.sub k).sub c)
        | b => subExprCreatePartialR (cl.sub k) b
    | .sub (.constant k) b =>
        match b with
        | .constant c => .constant ((cl.sub k).add c)
        | b => addExprCreatePartialR (cl.sub k) b
    | r => .sub (.constant cl) r

end

def addExprCreatePartial (l : Expr) (cr : ConstantExpr) : Expr := addExprCreatePartialR cr l

/-- `l - c => l + (-c)` -/
def subExprCreatePartial (l : Expr) (cr : ConstantExpr) : Expr :=
  addExprCreatePartial l ((ConstantExpr.alloc 0 cr.width).sub cr)

/-- `AddExpr::create` when the first operand is a constant. -/
def constAdd (k : ConstantExpr) : Expr → Expr
  | .constant c => .constant (k.add c)
  | e => addExprCreatePartialR k e

/-- `SubExpr::create` when the first operand is a constant. -/
def constSub (k : ConstantExpr) : Expr → Expr
  | .constant c => .constant (k.sub c)
  | e => subExprCreatePartialR k e

/-- `SubExpr::create` when the second operand is a constant. -/
def subConst (e : Expr) (k : ConstantExpr) : Expr :=
  match e with
  | .constant c => .constant (c.sub k)
  | e => subExprCreatePartial e k

mutual

/-- `AddExpr_create`, with `BCREATE_R(AddExpr, ..)` around it. The outer call of each
rewriting has a constant operand and leaves the recursion. -/
def AddExpr.create (l r : Expr) : Expr :=
  match l, r with
  | .constant cl, .constant cr => .constant (cl.add cr)
  | .constant cl, r => addExprCreatePartialR cl r
  | l, .constant cr => addExprCreatePartial l cr
  | l, r =>
    if l.width = 1 then XorExpr.create l r
    else match l, r with
      | .add (.constant k) a, r => constAdd k (AddExpr.create a r)
      | .sub (.constant k) a, r => constAdd k (SubExpr.create r a)
      | l, .add (.constant k) b => constAdd k (AddExpr.create l b)
      | l, .sub (.constant k) b => constAdd k (SubExpr.create l b)
      | l, r => .add l r
termination_by sizeOf l + sizeOf r

def SubExpr.create (l r : Expr) : Expr :=
  match l, r with
  | .constant cl, .constant cr => .constant (cl.sub cr)
  | .constant cl, r => subExprCreatePartialR cl r
  | l, .constant cr => subExprCreatePartial l cr
  | l, r =>
    if l.width = 1 then XorExpr.create l r
    else if l = r then .constant (.alloc 0 l.width)
    else match l, r with
      | .add (.constant k) a, r => constAdd k (SubExpr.create a r)
      | .sub (.constant k) a, r => constSub k (AddExpr.create a r)
      | l, .add (.constant k) b => subConst (SubExpr.create l b) k
      | l, .sub (.constant k) b => subConst (AddExpr.create l b) k
      | l, r => .sub l r
termination_by sizeOf l + sizeOf r

end

end AddSub

section Mul

def mulExprCreatePartialR (cl : ConstantExpr) (r : Expr) : Expr :=
  if cl.width = 1 then andExprCreatePartialR cl r
  else if cl.isOne then r
  else if cl.isZero then .constant cl
  else .mul (.constant cl) r

def mulExprCreatePartial (l : Expr) (cr : ConstantExpr) : Expr := mulExprCreatePartialR cr l

def mulExprCreate (l r : Expr) : Expr := if l.width = 1 then .and l r else .mul l r

def MulExpr.create : Expr → Expr → Expr :=
  bcreateR .mul mulExprCreatePartial mulExprCreatePartialR mulExprCreate

end Mul

section DivShift

/-- `UDivExpr_create` and `SDivExpr_create`: on Booleans the divisor must be 1. -/
def divExprCreate (k : ArithKind) (l r : Expr) : Expr :=
  if l.width = 1 then l else .arith k l r

def remExprCreate (k : ArithKind) (l r : Expr) : Expr :=
  if l.width = 1 then .constant (.alloc 0 1) else .arith k l r

/-- `ShlExpr_create` and `LShrExpr_create`: on Booleans `l & !r` -/
def shiftExprCreate (k : ArithKind) (l r : Expr) : Expr :=
  if l.width = 1 then AndExpr.create l r.createIsZero else .arith k l r

def aShrExprCreate (l r : Expr) : Expr :=
  if l.width = 1 then l else .arith .ashr l r

def UDivExpr.create := bcreate .udiv (divExprCreate .udiv)
def SDivExpr.create := bcreate .sdiv (divExprCreate .sdiv)
def URemExpr.create := bcreate .urem (remExprCreate .urem)
def SRemExpr.create := bcreate .srem (remExprCreate .srem)
def ShlExpr.create := bcreate .shl (shiftExprCreate .shl)
def LShrExpr.create := bcreate .lshr (shiftExprCreate .lshr)
def AShrExpr.create := bcreate .ashr aShrExprCreate

end DivShift

section Compare

def ultExprCreate (l r : Expr) : Expr :=
  if l.width = 1 then AndExpr.create l.createIsZero r else .cmp .ult l r

def uleExprCreate (l r : Expr) : Expr :=
  if l.width = 1 then OrExpr.create l.createIsZero r else .cmp .ule l r

def sltExprCreate (l r : Expr) : Expr :=
  if l.width = 1 then AndExpr.create l r.createIsZero else .cmp .slt l r

def sleExprCreate (l r : Expr) : Expr :=
  if l.width = 1 then OrExpr.create l r.createIsZero else .cmp .sle l r

def UltExpr.create := bcreate .ult ultExprCreate
def UleExpr.create := bcreate .ule uleExprCreate
def SltExpr.create := bcreate .slt sltExprCreate
def SleExpr.create := bcreate .sle sleExprCreate

def NeExpr.create (l r : Expr) : Expr :=
  EqExpr.create (.constant (.alloc 0 1)) (EqExpr.create l r)

def UgtExpr.create (l r : Expr) : Expr := UltExpr.create r l
def UgeExpr.create (l r : Expr) : Expr := UleExpr.create r l
def SgtExpr.create (l r : Expr) : Expr := SltExpr.create r l
def SgeExpr.create (l r : Expr) : Expr := SleExpr.create r l

end Compare

section Select

/-- On Booleans with a constant arm, `c ? t : f  <=>  (c and t) or (not c and f)`. -/
def SelectExpr.create (c t f : Expr) : Expr :=
  match c with
  | .constant ce => if ce.isTrue then t else f
  | c =>
    if t = f then t
    else if t.width = 1 then
      match t, f with
      | .constant ce, f =>
          if ce.isTrue then OrExpr.create c f else AndExpr.create c.createIsZero f
      | t, .constant ce =>
          if ce.isTrue then OrExpr.create c.createIsZero t else AndExpr.create c t
      | t, f => .select c t f
    else .select c t f

end Select

section ConcatExtract

/-- Concatenations reached through concatenations and extracts: what
`ExtractExpr::create` can still descend into. -/
def Expr.concats : Expr → Nat
  | .concat l r => l.concats + r.concats + 1
  | .extract e _ _ => e.concats
  | _ => 0

/-- `ExtractExpr::create`, with the bound on its result that makes the call through
`ConcatExpr::create` (the last case) well founded. -/
def extractCreate (expr : Expr) (off : Nat) (w : Nat) :
    { r : Expr // r.concats ≤ expr.concats } :=
  if w = expr.width then ⟨expr, le_rfl⟩
  else match expr with
    | .constant c => ⟨.constant (c.extract off w), le_rfl⟩
    | .concat l r =>
      -- the extract skips the right side, skips the left side, or straddles both; there
      -- `w - r.width + off` wraps around in the source and is never negative
      if off ≥ r.width then
        ⟨(extractCreate l (off - r.width) w).1, by
          have := (extractCreate l (off - r.width) w).2
          simp only [Expr.concats]; omega⟩
      else if off + w ≤ r.width then
        ⟨(extractCreate r off w).1, by
          have := (extractCreate r off w).2
          simp only [Expr.concats]; omega⟩
      else
        let el := extractCreate l 0 (w + off - r.width)
        let er := extractCreate r off (r.width - off)
        match hl : el.1, hr : er.1 with
        | .constant cl, .constant cr =>
            ⟨.constant (cl.concat cr), Nat.zero_le _⟩
        | .extract e1 o1 w1, .extract e2 o2 w2 =>
          if e1 = e2 ∧ o2 + w2 = o1 then
            have hlt : e1.concats < (Expr.concat l r).concats := by
              have h := el.2
              rw [hl] at h
              simp only [Expr.concats] at h ⊢; omega
            ⟨(extractCreate e1 o2 (w1 + w2)).1, (extractCreate e1 o2 (w1 + w2)).2.trans hlt.le⟩
          else ⟨.concat (.extract e1 o1 w1) (.extract e2 o2 w2), by
            have h := el.2; have h' := er.2
            rw [hl] at h; rw [hr] at h'
            simp only [Expr.concats] at *; omega⟩
        | a, b => ⟨.concat a b, by
            have h := el.2; have h' := er.2
            rw [hl] at h; rw [hr] at h'
            simp only [Expr.concats]; omega⟩
    | e => ⟨.extract e off w, le_rfl⟩
termination_by expr.concats
decreasing_by
  all_goals first | exact hlt | (simp only [Expr.concats]; omega)

def ExtractExpr.create (expr : Expr) (off : Nat) (w : Nat) : Expr :=
  (extractCreate expr off w).1

def ConcatExpr.create (l r : Expr) : Expr :=
  match l, r with
  | .constant cl, .constant cr => .constant (cl.concat cr)
  | .extract e1 o1 w1, .extract e2 o2 w2 =>
      -- merge contiguous extracts
      if e1 = e2 ∧ o2 + w2 = o1 then ExtractExpr.create e1 o2 (w1 + w2)
      else .concat (.extract e1 o1 w1) (.extract e2 o2 w2)
  | l, r => .concat l r

end ConcatExtract

section Cast

/-- The body that `ZExtExpr::create` and `SExtExpr::create` share. -/
def castCreate (k : CastKind) (op : ConstantExpr → Nat → ConstantExpr) (e : Expr) (w : Nat) :
    Expr :=
  if w = e.width then e
  else if w < e.width then ExtractExpr.create e 0 w
  else match e with
    | .constant c => .constant (op c w)
    | e => .cast k e w

def ZExtExpr.create : Expr → Nat → Expr := castCreate .zext .zext
def SExtExpr.create : Expr → Nat → Expr := castCreate .sext .sext

end Cast

section Read

def Array.hasIndex (root : Array) : Expr → Bool
  | .constant c => decide (c.value.toNat < root.size)
  | _ => false

/-- The loop of `ReadExpr::create` over the updates `un` still to look at, and what follows
it: skip the updates whose index provably differs, return the value of the first that
provably matches, stop at the first that is undecided. -/
def readRollback (root : Array) (head : UpdateNode) (index : Expr) : UpdateNode → Expr
  | .null =>
    match index with
    | .constant c =>
      if c.value.toNat < root.size then
        -- no update with a symbolic index was met
        if root.isConstantArray then
          .constant ⟨root.getRange, root.constantValues.getD c.value.toNat 0⟩
        else .read root .null index
      else .read root head index
    | index => .read root head index
  | .node next i v =>
    match EqExpr.create index i with
    | .constant ce => if ce.isTrue then v else readRollback root head index next
    | _ => if root.hasIndex index then .read root (.node next i v) index
        else .read root head index

def ReadExpr.create (ul : UpdateList) (index : Expr) : Expr :=
  readRollback ul.root ul.head index ul.head

end Read

section CreateFromKind

def ArithKind.create : ArithKind → Expr → Expr → Expr
  | add => AddExpr.create
  | sub => SubExpr.create
  | mul => MulExpr.create
  | udiv => UDivExpr.create
  | sdiv => SDivExpr.create
  | urem => URemExpr.create
  | srem => SRemExpr.create
  | and => AndExpr.create
  | or => OrExpr.create
  | xor => XorExpr.create
  | shl => ShlExpr.create
  | lshr => LShrExpr.create
  | ashr => AShrExpr.create

def CmpKind.create : CmpKind → Expr → Expr → Expr
  | eq => EqExpr.create
  | ne => NeExpr.create
  | ult => UltExpr.create
  | ule => UleExpr.create
  | ugt => UgtExpr.create
  | uge => UgeExpr.create
  | slt => SltExpr.create
  | sle => SleExpr.create
  | sgt => SgtExpr.create
  | sge => SgeExpr.create

def CastKind.create : CastKind → Expr → Nat → Expr
  | zext => ZExtExpr.create
  | sext => SExtExpr.create

end CreateFromKind

end Klee
