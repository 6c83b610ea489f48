import Mathlib.Data.BitVec
import Mathlib.Logic.Function.Basic

/-! Terms of the SMT-LIB theory of fixed-size bit vectors, with their values. A term that
breaks the sorts of its operators has no value. -/
namespace Smt

inductive Value where
  | bool (b : Bool)
  | bitVec (w : Nat) (x : BitVec w)
  | array (m n : Nat) (f : BitVec m → BitVec n)

inductive Srt where
  | bool
  | bitVec (w : Nat)
  | array (m n : Nat)
deriving DecidableEq

def Value.sort : Value → Srt
  | bool _ => .bool
  | bitVec w _ => .bitVec w
  | array m n _ => .array m n

def Srt.length : Srt → Nat
  | bool => 0
  | bitVec w => w
  | array _ n => n

inductive BvOp where
  | bvadd | bvsub | bvmul | bvudiv | bvsdiv | bvurem | bvsrem | bvand | bvor | bvxor
deriving DecidableEq

inductive BvCmp where
  | ult | ule | slt | sle
deriving DecidableEq

def BvOp.denote {w : Nat} : BvOp → BitVec w → BitVec w → BitVec w
  | bvadd, x, y => x + y
  | bvsub, x, y => x - y
  | bvmul, x, y => x * y
  | bvudiv, x, y => x.smtUDiv y
  | bvsdiv, x, y => x.smtSDiv y
  | bvurem, x, y => x % y
  | bvsrem, x, y => x.srem y
  | bvand, x, y => x &&& y
  | bvor, x, y => x ||| y
  | bvxor, x, y => x ^^^ y

def BvCmp.denote {w : Nat} : BvCmp → BitVec w → BitVec w → Bool
  | ult, x, y => x.ult y
  | ule, x, y => x.ule y
  | slt, x, y => x.slt y
  | sle, x, y => x.sle y

/-- Terms over variables `V`; a numeral is taken modulo its width, and an array is given by a
variable for each of its elements. -/
inductive Term (V : Type) where
  | var (v : V) (w : Nat)
  | numeral (w : Nat) (n : Int)
  | array (m n : Nat) (cell : BitVec m → V)
  | bool (b : Bool)
  | not (a : Term V)
  | and (a b : Term V)
  | or (a b : Term V)
  | eq (a b : Term V)
  | ite (c a b : Term V)
  | concat (a b : Term V)
  | extract (top bottom : Nat) (a : Term V)
  | signExtend (w : Nat) (a : Term V)
  | bvnot (a : Term V)
  | bvneg (a : Term V)
  | bvop (op : BvOp) (a b : Term V)
  | bvcmp (cmp : BvCmp) (a b : Term V)
  | select (a i : Term V)
  | store (a i x : Term V)

namespace Term

variable {V : Type}

@[match_pattern] abbrev bvult (a b : Term V) : Term V := bvcmp .ult a b

def length : Term V → Nat
  | var _ w => w
  | numeral w _ => w
  | array _ n _ => n
  | bool _ => 0
  | not _ => 0
  | and _ _ => 0
  | or _ _ => 0
  | eq _ _ => 0
  | ite _ a _ => a.length
  | concat a b => a.length + b.length
  | extract top bottom _ => top + 1 - bottom
  | signExtend w _ => w
  | bvnot a => a.length
  | bvneg a => a.length
  | bvop _ a _ => a.length
  | bvcmp _ _ _ => 0
  | select a _ => a.length
  | store a _ _ => a.length

/-- The sort of a term, if all its operators have operands of the sorts that they need. -/
def sort : Term V → Option Srt
  | var _ w => some (.bitVec w)
  | numeral w _ => some (.bitVec w)
  | array m n _ => some (.array m n)
  | bool _ => some .bool
  | not a =>
    match a.sort with
    | some .bool => some .bool
    | _ => none
  | and a b =>
    match a.sort, b.sort with
    | some .bool, some .bool => some .bool
    | _, _ => none
  | or a b =>
    match a.sort, b.sort with
    | some .bool, some .bool => some .bool
    | _, _ => none
  | eq a b =>
    match a.sort, b.sort with
    | some .bool, some .bool => some .bool
    | some (.bitVec m), some (.bitVec n) => if m = n then some .bool else none
    | _, _ => none
  | ite c a b =>
    match c.sort, a.sort, b.sort with
    | some .bool, some .bool, some .bool => some .bool
    | some .bool, some (.bitVec m), some (.bitVec n) =>
      if m = n then some (.bitVec m) else none
    | _, _, _ => none
  | concat a b =>
    match a.sort, b.sort with
    | some (.bitVec m), some (.bitVec n) => some (.bitVec (m + n))
    | _, _ => none
  | extract top bottom a =>
    match a.sort with
    | some (.bitVec m) =>
      if bottom ≤ top ∧ top < m then some (.bitVec (top + 1 - bottom)) else none
    | _ => none
  | signExtend w a =>
    match a.sort with
    | some (.bitVec m) => if m ≤ w then some (.bitVec w) else none
    | _ => none
  | bvnot a =>
    match a.sort with
    | some (.bitVec m) => some (.bitVec m)
    | _ => none
  | bvneg a =>
    match a.sort with
    | some (.bitVec m) => some (.bitVec m)
    | _ => none
  | bvop _ a b =>
    match a.sort, b.sort with
    | some (.bitVec m), some (.bitVec n) => if m = n then some (.bitVec m) else none
    | _, _ => none
  | bvcmp _ a b =>
    match a.sort, b.sort with
    | some (.bitVec m), some (.bitVec n) => if m = n then some .bool else none
    | _, _ => none
  | select a i =>
    match a.sort, i.sort with
    | some (.array m n), some (.bitVec m') => if m' = m then some (.bitVec n) else none
    | _, _ => none
  | store a i x =>
    match a.sort, i.sort, x.sort with
    | some (.array m n), some (.bitVec m'), some (.bitVec n') =>
      if m' = m ∧ n' = n then some (.array m n) else none
    | _, _, _ => none

/-- The value of a term where the variables have the values `env`. -/
def eval (env : V → (w : Nat) → BitVec w) : Term V → Option Value
  | var v w => some (.bitVec w (env v w))
  | numeral w n => some (.bitVec w (BitVec.ofInt w n))
  | array m n cell => some (.array m n fun i => env (cell i) n)
  | bool b => some (.bool b)
  | not a =>
    match a.eval env with
    | some (.bool x) => some (.bool (!x))
    | _ => none
  | and a b =>
    match a.eval env, b.eval env with
    | some (.bool x), some (.bool y) => some (.bool (x && y))
    | _, _ => none
  | or a b =>
    match a.eval env, b.eval env with
    | some (.bool x), some (.bool y) => some (.bool (x || y))
    | _, _ => none
  | eq a b =>
    match a.eval env, b.eval env with
    | some (.bool x), some (.bool y) => some (.bool (x == y))
    | some (.bitVec m x), some (.bitVec n y) =>
      if m = n then some (.bool (x == y.setWidth m)) else none
    | _, _ => none
  | ite c a b =>
    match c.eval env, a.eval env, b.eval env with
    | some (.bool x), some (.bool y), some (.bool z) => some (.bool (if x then y else z))
    | some (.bool x), some (.bitVec m y), some (.bitVec n z) =>
      if m = n then some (.bitVec m (if x then y else z.setWidth m)) else none
    | _, _, _ => none
  | concat a b =>
    match a.eval env, b.eval env with
    | some (.bitVec m x), some (.bitVec n y) => some (.bitVec (m + n) (x ++ y))
    | _, _ => none
  | extract top bottom a =>
    match a.eval env with
    | some (.bitVec m x) =>
      if bottom ≤ top ∧ top < m then
        some (.bitVec (top + 1 - bottom) (x.extractLsb' bottom (top + 1 - bottom)))
      else none
    | _ => none
  | signExtend w a =>
    match a.eval env with
    | some (.bitVec m x) => if m ≤ w then some (.bitVec w (x.signExtend w)) else none
    | _ => none
  | bvnot a =>
    match a.eval env with
    | some (.bitVec m x) => some (.bitVec m (~~~ x))
    | _ => none
  | bvneg a =>
    match a.eval env with
    | some (.bitVec m x) => some (.bitVec m (-x))
    | _ => none
  | bvop op a b =>
    match a.eval env, b.eval env with
    | some (.bitVec m x), some (.bitVec n y) =>
      if m = n then some (.bitVec m (op.denote x (y.setWidth m))) else none
    | _, _ => none
  | bvcmp cmp a b =>
    match a.eval env, b.eval env with
    | some (.bitVec m x), some (.bitVec n y) =>
      if m = n then some (.bool (cmp.denote x (y.setWidth m))) else none
    | _, _ => none
  | select a i =>
    match a.eval env, i.eval env with
    | some (.array m n f), some (.bitVec m' i) =>
      if m' = m then some (.bitVec n (f (i.setWidth m))) else none
    | _, _ => none
  | store a i x =>
    match a.eval env, i.eval env, x.eval env with
    | some (.array m n f), some (.bitVec m' i), some (.bitVec n' x) =>
      if m' = m ∧ n' = n then
        some (.array m n fun j => if j = i.setWidth m then x.setWidth n else f j)
      else none
    | _, _, _ => none

attribute [local simp] sort eval

variable {env : V → (w : Nat) → BitVec w} {a b c : Term V} {m n w : Nat}

/-- The term is a bit vector with the value `x`. -/
def IsBits (env : V → (w : Nat) → BitVec w) (a : Term V) (w : Nat) (x : BitVec w) : Prop :=
  a.eval env = some (.bitVec w x)

/-- The term is a Boolean with the value `p`. -/
def IsBool (env : V → (w : Nat) → BitVec w) (a : Term V) (p : Bool) : Prop :=
  a.eval env = some (.bool p)

theorem IsBits.unique {x y : BitVec w} (hx : IsBits env a w x) (hy : IsBits env a w y) :
    x = y := by
  have h := hx.symm.trans hy
  cases h
  rfl

/-- Having a value is a matter of the sorts alone. -/
theorem map_sort_eval (env : V → (w : Nat) → BitVec w) (a : Term V) :
    (a.eval env).map Value.sort = a.sort := by
  induction a with
  | var v w => rfl
  | numeral w n => rfl
  | array m n cell => rfl
  | bool b => rfl
  | not a iha | bvnot a iha | bvneg a iha =>
    rw [eval, sort, ← iha]
    rcases a.eval env with _ | _ | _ | _ <;> rfl
  | and a b iha ihb | or a b iha ihb | concat a b iha ihb =>
    rw [eval, sort, ← iha, ← ihb]
    rcases a.eval env with _ | _ | _ | _ <;> rcases b.eval env with _ | _ | _ | _ <;> rfl
  | eq a b iha ihb | bvop op a b iha ihb | bvcmp cmp a b iha ihb =>
    rw [eval, sort, ← iha, ← ihb]
    rcases a.eval env with _ | _ | _ | _ <;> rcases b.eval env with _ | _ | _ | _ <;>
      simp only [Option.map_some, Option.map_none, Value.sort]
    split <;> rfl
  | ite c a b ihc iha ihb =>
    rw [eval, sort, ← ihc, ← iha, ← ihb]
    rcases c.eval env with _ | _ | _ | _ <;> rcases a.eval env with _ | _ | _ | _ <;>
      rcases b.eval env with _ | _ | _ | _ <;>
      simp only [Option.map_some, Option.map_none, Value.sort]
    split <;> rfl
  | extract top bottom a iha =>
    rw [eval, sort, ← iha]
    rcases a.eval env with _ | _ | _ | _ <;>
      simp only [Option.map_some, Option.map_none, Value.sort]
    split <;> rfl
  | signExtend w a iha =>
    rw [eval, sort, ← iha]
    rcases a.eval env with _ | _ | _ | _ <;>
      simp only [Option.map_some, Option.map_none, Value.sort]
    split <;> rfl
  | select a i iha ihi =>
    rw [eval, sort, ← iha, ← ihi]
    rcases a.eval env with _ | _ | _ | _ <;> rcases i.eval env with _ | _ | _ | _ <;>
      simp only [Option.map_some, Option.map_none, Value.sort]
    split <;> rfl
  | store a i x iha ihi ihx =>
    rw [eval, sort, ← iha, ← ihi, ← ihx]
    rcases a.eval env with _ | _ | _ | _ <;> rcases i.eval env with _ | _ | _ | _ <;>
      rcases x.eval env with _ | _ | _ | _ <;>
      simp only [Option.map_some, Option.map_none, Value.sort]
    split <;> rfl

theorem sort_length {s : Srt} (h : a.sort = some s) : a.length = s.length := by
  induction a generalizing s with
  | var v w | numeral w n | array m n cell | bool b => cases h; rfl
  | not a iha =>
    rw [sort] at h
    split at h <;> cases h
    rfl
  | bvnot a iha | bvneg a iha =>
    rw [sort] at h
    split at h <;> cases h
    exact iha ‹_›
  | and a b iha ihb | or a b iha ihb =>
    rw [sort] at h
    split at h <;> cases h
    rfl
  | concat a b iha ihb =>
    rw [sort] at h
    split at h <;> cases h
    rename_i ha hb
    exact congrArg₂ (· + ·) (iha ha) (ihb hb)
  | eq a b iha ihb =>
    rw [sort] at h
    split at h
    · cases h; rfl
    · split at h <;> cases h
      rfl
    · cases h
  | bvop op a b iha ihb =>
    rw [sort] at h
    split at h
    · split at h <;> cases h
      exact iha ‹_›
    · cases h
  | bvcmp cmp a b iha ihb =>
    rw [sort] at h
    split at h
    · split at h <;> cases h
      rfl
    · cases h
  | ite c a b ihc iha ihb =>
    rw [sort] at h
    split at h
    · cases h
      exact iha ‹_›
    · split at h <;> cases h
      exact iha ‹_›
    · cases h
  | extract top bottom a iha | signExtend w a iha =>
    rw [sort] at h
    split at h
    · split at h <;> cases h
      rfl
    · cases h
  | select a i iha ihi =>
    rw [sort] at h
    split at h
    · rename_i ha _
      split at h <;> cases h
      exact (iha ha).trans rfl
    · cases h
  | store a i x iha ihi ihx =>
    rw [sort] at h
    split at h
    · split at h <;> cases h
      exact iha ‹_›
    · cases h

theorem isBits_length {x : BitVec w} (h : IsBits env a w x) : a.length = w := by
  refine sort_length (s := .bitVec w) ?_
  rw [← map_sort_eval env, h]
  rfl

/-! Introduction: one lemma for each operator. -/

theorem isBits_numeral (w : Nat) (i : Int) :
    IsBits env (numeral w i) w (BitVec.ofInt w i) := rfl

theorem IsBits.eq {x y : BitVec w} (ha : IsBits env a w x) (hb : IsBits env b w y) :
    IsBool env (.eq a b) (x == y) := by
  unfold IsBool eval
  rw [ha, hb]
  simp

theorem IsBits.bvcmp {x y : BitVec w} (cmp : BvCmp) (ha : IsBits env a w x)
    (hb : IsBits env b w y) : IsBool env (.bvcmp cmp a b) (cmp.denote x y) := by
  unfold IsBool eval
  rw [ha, hb]
  simp

theorem IsBits.bvult {x y : BitVec w} (ha : IsBits env a w x) (hb : IsBits env b w y) :
    IsBool env (.bvult a b) (x.ult y) :=
  ha.bvcmp .ult hb

theorem IsBits.bvop {x y : BitVec w} (op : BvOp) (ha : IsBits env a w x)
    (hb : IsBits env b w y) : IsBits env (.bvop op a b) w (op.denote x y) := by
  unfold IsBits eval
  rw [ha, hb]
  simp

theorem IsBits.bvneg {x : BitVec w} (ha : IsBits env a w x) : IsBits env (.bvneg a) w (-x) := by
  unfold IsBits eval
  rw [ha]

theorem IsBits.ite {p : Bool} {x y : BitVec w} (hc : IsBool env c p) (ha : IsBits env a w x)
    (hb : IsBits env b w y) : IsBits env (.ite c a b) w (if p then x else y) := by
  unfold IsBits eval
  rw [hc, ha, hb]
  simp

theorem IsBits.concat {x : BitVec m} {y : BitVec n} (ha : IsBits env a m x)
    (hb : IsBits env b n y) : IsBits env (.concat a b) (m + n) (x ++ y) := by
  unfold IsBits eval
  rw [ha, hb]

theorem IsBits.extract {x : BitVec m} {top bottom : Nat} (ha : IsBits env a m x)
    (hle : bottom ≤ top) (hlt : top < m) : IsBits env (.extract top bottom a)
      (top + 1 - bottom) (x.extractLsb' bottom (top + 1 - bottom)) := by
  unfold IsBits eval
  rw [ha]
  simp [hle, hlt]

theorem IsBits.signExtend {x : BitVec m} (ha : IsBits env a m x) (hle : m ≤ w) :
    IsBits env (.signExtend w a) w (x.signExtend w) := by
  unfold IsBits eval
  rw [ha]
  simp [hle]

theorem IsBits.bvnot {x : BitVec w} (ha : IsBits env a w x) : IsBits env (.bvnot a) w (~~~ x) := by
  unfold IsBits eval
  rw [ha]

theorem isBool_bool (p : Bool) : IsBool env (bool p) p := rfl

theorem IsBool.not {p : Bool} (ha : IsBool env a p) : IsBool env (.not a) (!p) := by
  unfold IsBool eval
  rw [ha]

theorem IsBool.and {p q : Bool} (ha : IsBool env a p) (hb : IsBool env b q) :
    IsBool env (.and a b) (p && q) := by
  unfold IsBool eval
  rw [ha, hb]

theorem IsBool.or {p q : Bool} (ha : IsBool env a p) (hb : IsBool env b q) :
    IsBool env (.or a b) (p || q) := by
  unfold IsBool eval
  rw [ha, hb]

theorem IsBool.eq {p q : Bool} (ha : IsBool env a p) (hb : IsBool env b q) :
    IsBool env (.eq a b) (p == q) := by
  unfold IsBool eval
  rw [ha, hb]

theorem IsBool.ite {p q r : Bool} (hc : IsBool env c p) (ha : IsBool env a q)
    (hb : IsBool env b r) : IsBool env (.ite c a b) (if p then q else r) := by
  unfold IsBool eval
  rw [hc, ha, hb]

theorem IsBool.congr {p q : Bool} (ha : IsBool env a p) (hpq : p = q) : IsBool env a q :=
  hpq ▸ ha

/-- The term is an array with the contents `f`. -/
def IsArray (env : V → (w : Nat) → BitVec w) (a : Term V) (m n : Nat)
    (f : BitVec m → BitVec n) : Prop :=
  a.eval env = some (.array m n f)

theorem isArray_array (cell : BitVec m → V) :
    IsArray env (array m n cell) m n fun i => env (cell i) n := rfl

theorem IsArray.unique {f g : BitVec m → BitVec n} (hf : IsArray env a m n f)
    (hg : IsArray env a m n g) : f = g := by
  simpa using hf.symm.trans hg

theorem IsArray.select {f : BitVec m → BitVec n} {i : BitVec m} (ha : IsArray env a m n f)
    (hb : IsBits env b m i) : IsBits env (.select a b) n (f i) := by
  unfold IsBits eval
  rw [ha, hb]
  simp

theorem IsArray.store {f : BitVec m → BitVec n} {i : BitVec m} {x : BitVec n}
    (ha : IsArray env a m n f) (hb : IsBits env b m i) (hc : IsBits env c n x) :
    IsArray env (.store a b c) m n (Function.update f i x) := by
  unfold IsArray eval
  rw [ha, hb, hc]
  simp only [and_self, if_true, BitVec.setWidth_eq, Option.some.injEq, Value.array.injEq,
    heq_eq_eq, true_and]
  funext j
  by_cases hj : j = i
  · rw [hj, if_pos rfl, Function.update_self]
  · rw [if_neg hj, Function.update_of_ne hj]

/-- The same value at a width that is known to be equal. -/
theorem IsBits.cast {x : BitVec m} (ha : IsBits env a m x) (hw : m = w) :
    IsBits env a w (x.setWidth w) := by
  subst hw
  rwa [BitVec.setWidth_eq]

theorem IsBits.congr {x y : BitVec w} (ha : IsBits env a w x) (hxy : x = y) :
    IsBits env a w y := hxy ▸ ha

end Term

end Smt
