import Klee.Expr.Basic

/-! `Expr::compare` and the hashes it looks at. Expressions are shared in memory: `ExprRef`
keeps the address of every part, which the comparison uses as a shortcut and in its set of
pairs known to be equal. -/
namespace Klee

/-- `llvm::hash_value` of an `APInt`. -/
class APIntHash where
  hash_value : ConstantExpr → BitVec 32

export APIntHash (hash_value)

section Kinds

/-! The enumerators of `Expr::Kind`. -/

def CastKind.getKind : CastKind → Nat
  | .zext => 7
  | .sext => 8

def ArithKind.getKind : ArithKind → Nat
  | .add => 10
  | .sub => 11
  | .mul => 12
  | .udiv => 13
  | .sdiv => 14
  | .urem => 15
  | .srem => 16
  | .and => 17
  | .or => 18
  | .xor => 19
  | .shl => 20
  | .lshr => 21
  | .ashr => 22

def CmpKind.getKind : CmpKind → Nat
  | .eq => 23
  | .ne => 24
  | .ult => 25
  | .ule => 26
  | .ugt => 27
  | .uge => 28
  | .slt => 29
  | .sle => 30
  | .sgt => 31
  | .sge => 32

def Expr.getKind : Expr → Nat
  | .constant _ => 0
  | .notOptimized _ => 1
  | .read _ _ _ => 3
  | .select _ _ _ => 4
  | .concat _ _ => 5
  | .extract _ _ _ => 6
  | .cast k _ _ => k.getKind
  | .not _ => 9
  | .arith k _ _ => k.getKind
  | .cmp k _ _ => k.getKind

end Kinds

mutual

/-- An expression in memory: `addr` is its address. -/
inductive ExprRef where
  | constant (addr : Nat) (c : ConstantExpr)
  | notOptimized (addr : Nat) (src : ExprRef)
  | read (addr : Nat) (root : Array) (head : UpdateRef) (index : ExprRef)
  | select (addr : Nat) (cond trueExpr falseExpr : ExprRef)
  | concat (addr : Nat) (left right : ExprRef)
  | extract (addr : Nat) (expr : ExprRef) (offset : Nat) (width : Nat)
  | cast (addr : Nat) (kind : CastKind) (src : ExprRef) (width : Nat)
  | not (addr : Nat) (expr : ExprRef)
  | arith (addr : Nat) (kind : ArithKind) (left right : ExprRef)
  | cmp (addr : Nat) (kind : CmpKind) (left right : ExprRef)

inductive UpdateRef where
  | null
  | node (addr : Nat) (next : UpdateRef) (index value : ExprRef)

end

mutual

def ExprRef.erase : ExprRef → Expr
  | .constant _ c => .constant c
  | .notOptimized _ src => .notOptimized src.erase
  | .read _ root head index => .read root head.erase index.erase
  | .select _ c t f => .select c.erase t.erase f.erase
  | .concat _ l r => .concat l.erase r.erase
  | .extract _ e offset width => .extract e.erase offset width
  | .cast _ k src width => .cast k src.erase width
  | .not _ e => .not e.erase
  | .arith _ k l r => .arith k l.erase r.erase
  | .cmp _ k l r => .cmp k l.erase r.erase

def UpdateRef.erase : UpdateRef → UpdateNode
  | .null => .null
  | .node _ next index value => .node next.erase index.erase value.erase

end

namespace ExprRef

def addr : ExprRef → Nat
  | .constant p _ => p
  | .notOptimized p _ => p
  | .read p _ _ _ => p
  | .select p _ _ _ => p
  | .concat p _ _ => p
  | .extract p _ _ _ => p
  | .cast p _ _ _ => p
  | .not p _ => p
  | .arith p _ _ _ => p
  | .cmp p _ _ _ => p

def getKind (e : ExprRef) : Nat := e.erase.getKind

def width (e : ExprRef) : Nat := e.erase.width

end ExprRef

def UpdateRef.getSize : UpdateRef → Nat
  | .null => 0
  | .node _ next _ _ => 1 + next.getSize

section Hash

def MAGIC_HASH_CONSTANT : BitVec 32 := 39#32

def hashKids (kind : Nat) (kids : List (BitVec 32)) : BitVec 32 :=
  kids.foldl (fun res kid => (res <<< 1) ^^^ (kid * MAGIC_HASH_CONSTANT))
    (BitVec.ofNat 32 kind * MAGIC_HASH_CONSTANT)

/-- `ConstantExpr::computeHash`. A value of at most 64 bits is cut off to the type of the
hash. -/
def hashConstant [APIntHash] (c : ConstantExpr) : BitVec 32 :=
  if c.width ≤ 64 then c.value.setWidth 32 ^^^ (BitVec.ofNat 32 c.width * MAGIC_HASH_CONSTANT)
  else hash_value c ^^^ (BitVec.ofNat 32 c.width * MAGIC_HASH_CONSTANT)

/-- `CastExpr::computeHash` -/
def hashCast (width : Nat) (src : BitVec 32) : BitVec 32 :=
  (BitVec.ofNat 32 width * MAGIC_HASH_CONSTANT) ^^^ (src * MAGIC_HASH_CONSTANT)

/-- `ExtractExpr::computeHash` -/
def hashExtract (offset width : Nat) (expr : BitVec 32) : BitVec 32 :=
  (BitVec.ofNat 32 offset * MAGIC_HASH_CONSTANT) ^^^
    (BitVec.ofNat 32 width * MAGIC_HASH_CONSTANT) ^^^ (expr * MAGIC_HASH_CONSTANT)

/-- `NotExpr::computeHash` -/
def hashNot (expr : BitVec 32) : BitVec 32 := expr * MAGIC_HASH_CONSTANT * 9#32

/-- The name in `UpdateList::hash`. The characters are signed. -/
def hashName (name : String) : BitVec 32 :=
  name.toUTF8.toList.foldl
    (fun res ch => res * MAGIC_HASH_CONSTANT + ch.toBitVec.signExtend 32) 0#32

/-- `ReadExpr::computeHash`: the hash of the nodes is missing when there is none, which is the
same as a zero. -/
def hashRead (root : Array) (head index : BitVec 32) : BitVec 32 :=
  (index * MAGIC_HASH_CONSTANT) ^^^ (hashName root.name ^^^ head)

variable [APIntHash]

mutual

/-- `hashValue`, which each constructor computes from the hashes of the kids. -/
def ExprRef.hash : ExprRef → BitVec 32
  | .constant _ c => hashConstant c
  | .notOptimized _ src => hashKids 1 [src.hash]
  | .read _ root head index => hashRead root head.hash index.hash
  | .select _ c t f => hashKids 4 [c.hash, t.hash, f.hash]
  | .concat _ l r => hashKids 5 [l.hash, r.hash]
  | .extract _ e offset width => hashExtract offset width e.hash
  | .cast _ _ src width => hashCast width src.hash
  | .not _ e => hashNot e.hash
  | .arith _ k l r => hashKids k.getKind [l.hash, r.hash]
  | .cmp _ k l r => hashKids k.getKind [l.hash, r.hash]

/-- `UpdateNode::computeHash` -/
def UpdateRef.hash : UpdateRef → BitVec 32
  | .null => 0#32
  | .node _ next index value => index.hash ^^^ value.hash ^^^ next.hash

end

mutual

def Expr.hash : Expr → BitVec 32
  | .constant c => hashConstant c
  | .notOptimized src => hashKids 1 [src.hash]
  | .read root head index => hashRead root head.hash index.hash
  | .select c t f => hashKids 4 [c.hash, t.hash, f.hash]
  | .concat l r => hashKids 5 [l.hash, r.hash]
  | .extract e offset width => hashExtract offset width e.hash
  | .cast _ src width => hashCast width src.hash
  | .not e => hashNot e.hash
  | .arith k l r => hashKids k.getKind [l.hash, r.hash]
  | .cmp k l r => hashKids k.getKind [l.hash, r.hash]

def UpdateNode.hash : UpdateNode → BitVec 32
  | .null => 0#32
  | .node next index value => index.hash ^^^ value.hash ^^^ next.hash

end

end Hash

section Compare

/-- `ConstantExpr::compareContents` -/
def compareConstants (c d : ConstantExpr) : Ordering :=
  (compare c.width d.width).then (compare c.value.toNat d.value.toNat)

/-- `UpdateList::compare` up to the nodes: the names, then the addresses in case separate
objects have the same name, then the sizes. -/
def compareRoots (root root' : Array) (size size' : Nat) : Ordering :=
  (compare root.name root'.name).then <|
    (compare root.id root'.id).then (compare size size')

/-- `ExtractExpr::compareContents` -/
def compareExtracts (offset width offset' width' : Nat) : Ordering :=
  (compare offset offset').then (compare width width')

abbrev ExprEquivSet := List (Nat × Nat)

abbrev EquivM := StateM ExprEquivSet

def orElse (first rest : EquivM Ordering) : EquivM Ordering := do
  match ← first with
  | .eq => rest
  | res => pure res

def insertEquiv (p q : Nat) : EquivM Ordering := do
  modify fun equivs => (if p < q then (p, q) else (q, p)) :: equivs
  pure .eq

/-- What `Expr::compare` does around the comparison of the contents and the kids. -/
def withEquivs (p q : Nat) (kinds hashes : Ordering) (parts : EquivM Ordering) :
    EquivM Ordering := do
  if p = q then pure .eq
  else if (if p < q then (p, q) else (q, p)) ∈ (← get) then pure .eq
  else orElse (pure (kinds.then hashes)) (orElse parts (insertEquiv p q))

/-- `Expr::compare` without a set: it empties the static one. -/
def clearing (compareEquivs : EquivM Ordering) : EquivM Ordering := do
  let r ← compareEquivs
  set ([] : ExprEquivSet)
  pure r

variable [APIntHash]

mutual

/-- `Expr::compare` with the set of equal pairs. -/
def ExprRef.compareEquivs (a b : ExprRef) : EquivM Ordering :=
  withEquivs a.addr b.addr (compare a.getKind b.getKind) (compare a.hash.toNat b.hash.toNat)
    (match a, b with
    | .constant _ c, .constant _ d => pure (compareConstants c d)
    | .notOptimized _ e, .notOptimized _ f => e.compareEquivs f
    | .read _ root head index, .read _ root' head' index' =>
      orElse (orElse (pure (compareRoots root root' head.getSize head'.getSize))
        (head.compareNodes head')) (index.compareEquivs index')
    | .select _ c t f, .select _ c' t' f' =>
      orElse (c.compareEquivs c') (orElse (t.compareEquivs t') (f.compareEquivs f'))
    | .concat _ l r, .concat _ l' r' =>
      orElse (pure (compare (l.width + r.width) (l'.width + r'.width)))
        (orElse (l.compareEquivs l') (r.compareEquivs r'))
    | .extract _ e offset width, .extract _ e' offset' width' =>
      orElse (pure (compareExtracts offset width offset' width')) (e.compareEquivs e')
    | .cast _ _ e width, .cast _ _ e' width' =>
      orElse (pure (compare width width')) (e.compareEquivs e')
    | .not _ e, .not _ e' => e.compareEquivs e'
    | .arith _ _ l r, .arith _ _ l' r' => orElse (l.compareEquivs l') (r.compareEquivs r')
    | .cmp _ _ l r, .cmp _ _ l' r' => orElse (l.compareEquivs l') (r.compareEquivs r')
    | _, _ => pure .eq)

/-- The loop of `UpdateList::compare`. The lists have the same size here. Index and value are
compared as references, that is without the set of the outer comparison. -/
def UpdateRef.compareNodes (a b : UpdateRef) : EquivM Ordering :=
  match a, b with
  | .node p next index value, .node q next' index' value' =>
    -- exploit shared list structure
    if p = q then pure .eq
    else orElse (orElse (clearing (index.compareEquivs index'))
      (clearing (value.compareEquivs value'))) (next.compareNodes next')
  | _, _ => pure .eq

end

def ExprRef.compare (a b : ExprRef) : EquivM Ordering := clearing (a.compareEquivs b)

mutual

/-- The comparison of two expressions that shares nothing and remembers nothing. -/
def Expr.compare (a b : Expr) : Ordering :=
  (Ord.compare a.getKind b.getKind).then <| (Ord.compare a.hash.toNat b.hash.toNat).then
    (match a, b with
    | .constant c, .constant d => compareConstants c d
    | .notOptimized e, .notOptimized f => e.compare f
    | .read root head index, .read root' head' index' =>
      ((compareRoots root root' head.size head'.size).then (head.compare head')).then
        (index.compare index')
    | .select c t f, .select c' t' f' =>
      (c.compare c').then ((t.compare t').then (f.compare f'))
    | .concat l r, .concat l' r' =>
      (Ord.compare (l.width + r.width) (l'.width + r'.width)).then
        ((l.compare l').then (r.compare r'))
    | .extract e offset width, .extract e' offset' width' =>
      (compareExtracts offset width offset' width').then (e.compare e')
    | .cast _ e width, .cast _ e' width' => (Ord.compare width width').then (e.compare e')
    | .not e, .not e' => e.compare e'
    | .arith _ l r, .arith _ l' r' => (l.compare l').then (r.compare r')
    | .cmp _ l r, .cmp _ l' r' => (l.compare l').then (r.compare r')
    | _, _ => .eq)

def UpdateNode.compare (a b : UpdateNode) : Ordering :=
  match a, b with
  | .node next index value, .node next' index' value' =>
    ((index.compare index').then (value.compare value')).then (next.compare next')
  | _, _ => .eq

end

end Compare

end Klee
