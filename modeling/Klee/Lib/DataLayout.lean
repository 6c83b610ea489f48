import Mathlib.Data.Nat.Basic
import Mathlib.Tactic

/-! Sizes and offsets of LLVM types in memory, over the alignments of a target. -/
namespace LLVM

section Alignment

/-- The least multiple of `alignment` from `value` on. -/
def alignTo (value alignment : Nat) : Nat := (value + alignment - 1) / alignment * alignment

variable {value alignment : Nat}

theorem dvd_alignTo : alignment ∣ alignTo value alignment := Dvd.intro_left _ rfl

theorem le_alignTo (h : 0 < alignment) : value ≤ alignTo value alignment := by
  have hdiv := Nat.div_add_mod' (value + alignment - 1) alignment
  have hmod := Nat.mod_lt (value + alignment - 1) h
  unfold alignTo
  omega

theorem alignTo_of_dvd (h : 0 < alignment) (hdvd : alignment ∣ value) :
    alignTo value alignment = value := by
  obtain ⟨k, rfl⟩ := hdvd
  have hquotient : (alignment * k + alignment - 1) / alignment = k := by
    rw [Nat.add_sub_assoc h, Nat.mul_add_div h, Nat.div_eq_of_lt (Nat.sub_lt h Nat.one_pos),
      Nat.add_zero]
  rw [alignTo, hquotient, Nat.mul_comm]

end Alignment

inductive FloatKind where
  | half
  | float
  | double
  | x86_fp80
  | fp128
deriving DecidableEq, Repr

def FloatKind.width : FloatKind → Nat
  | half => 16
  | float => 32
  | double => 64
  | x86_fp80 => 80
  | fp128 => 128

/-- The sized types. What a pointer points to does not matter for its layout. -/
inductive LLVMType where
  | integer (width : Nat)
  | floating (kind : FloatKind)
  | pointer
  | array (n : Nat) (element : LLVMType)
  | vector (n : Nat) (element : LLVMType)
  | struct (packed : Bool) (fields : List LLVMType)
deriving Repr

/-- The data layout of a target: the width of its pointers and the alignments of the types. -/
structure DataLayout where
  pointerWidth : Nat
  abiAlignment : LLVMType → Nat
  abiAlignment_pos : ∀ t, 0 < abiAlignment t

namespace DataLayout

variable (dl : DataLayout)

def bytesOf (bits : Nat) : Nat := (bits + 7) / 8

def fieldAlignment (packed : Bool) (t : LLVMType) : Nat := if packed then 1 else dl.abiAlignment t

def structAlignment (packed : Bool) (fields : List LLVMType) : Nat :=
  (fields.map (dl.fieldAlignment packed)).foldl max 1

mutual

def sizeInBits : LLVMType → Nat
  | .integer width => width
  | .floating kind => kind.width
  | .pointer => dl.pointerWidth
  | .array n element =>
    n * (alignTo (bytesOf (sizeInBits element)) (dl.abiAlignment element) * 8)
  | .vector n element => n * sizeInBits element
  | .struct packed fields =>
    alignTo (fieldsEnd packed 0 fields) (dl.structAlignment packed fields) * 8

def fieldsEnd (packed : Bool) : Nat → List LLVMType → Nat
  | offset, [] => offset
  | offset, t :: ts => fieldsEnd packed (alignTo offset (dl.fieldAlignment packed t) +
      alignTo (bytesOf (sizeInBits t)) (dl.abiAlignment t)) ts

end

def storeSize (t : LLVMType) : Nat := bytesOf (dl.sizeInBits t)

def allocSize (t : LLVMType) : Nat := alignTo (dl.storeSize t) (dl.abiAlignment t)

/-- The offset of a field of a struct whose fields are laid out from an offset on. -/
def elementOffset (packed : Bool) : Nat → List LLVMType → Nat → Nat
  | offset, [], _ => offset
  | offset, t :: _, 0 => alignTo offset (dl.fieldAlignment packed t)
  | offset, t :: ts, i + 1 => elementOffset packed
      (alignTo offset (dl.fieldAlignment packed t) + dl.allocSize t) ts i

def tailPadding (t : LLVMType) : Nat := dl.allocSize t - dl.storeSize t

variable {dl}

theorem fieldAlignment_pos (packed : Bool) (t : LLVMType) : 0 < dl.fieldAlignment packed t := by
  unfold fieldAlignment
  split
  · exact Nat.one_pos
  · exact dl.abiAlignment_pos t

theorem structAlignment_pos (packed : Bool) (fields : List LLVMType) :
    0 < dl.structAlignment packed fields := by
  have hle (l : List Nat) (n : Nat) : n ≤ l.foldl max n := by
    induction l generalizing n with
    | nil => exact le_rfl
    | cons a l ih => exact (le_max_left n a).trans (ih (max n a))
  exact hle _ 1

theorem storeSize_le_allocSize (t : LLVMType) : dl.storeSize t ≤ dl.allocSize t :=
  le_alignTo (dl.abiAlignment_pos t)

theorem sizeInBits_le_storeSize (t : LLVMType) : dl.sizeInBits t ≤ dl.storeSize t * 8 := by
  unfold storeSize bytesOf
  omega

theorem elementOffset_zero (packed : Bool) (fields : List LLVMType) :
    dl.elementOffset packed 0 fields 0 = 0 := by
  cases fields with
  | nil => rfl
  | cons t ts => exact alignTo_of_dvd (fieldAlignment_pos packed t) (dvd_zero _)

section Targets

/-- The least power of two from `n` on. -/
def naturalAlignment (n : Nat) : Nat :=
  2 ^ ((List.range n).find? fun k => decide (n ≤ 2 ^ k)).getD n

theorem naturalAlignment_pos (n : Nat) : 0 < naturalAlignment n := Nat.two_pow_pos _

def x86Alignment : LLVMType → Nat
  | .integer width => if width ≤ 64 then naturalAlignment (bytesOf width) else 8
  | .floating kind => naturalAlignment (bytesOf kind.width)
  | .pointer => 8
  | .array _ element => x86Alignment element
  | .vector n element =>
    match element with
    | .integer width => naturalAlignment (n * naturalAlignment (bytesOf width))
    | .floating kind => naturalAlignment (n * naturalAlignment (bytesOf kind.width))
    | _ => naturalAlignment (n * 8)
  | .struct true _ => 1
  | .struct false fields => fieldsAlignment fields
where
  /-- The largest alignment of the fields. -/
  fieldsAlignment : List LLVMType → Nat
    | [] => 1
    | t :: ts => max (x86Alignment t) (fieldsAlignment ts)

theorem x86Alignment_pos : ∀ t, 0 < x86Alignment t
  | .integer width => by
    unfold x86Alignment
    split
    · exact naturalAlignment_pos _
    · decide
  | .floating _ => naturalAlignment_pos _
  | .pointer => by decide
  | .array _ element => x86Alignment_pos element
  | .vector _ element => by
    unfold x86Alignment
    split <;> exact naturalAlignment_pos _
  | .struct true _ => Nat.one_pos
  | .struct false fields => fieldsAlignment_pos fields
where
  fieldsAlignment_pos : ∀ ts, 0 < x86Alignment.fieldsAlignment ts
    | [] => Nat.one_pos
    | t :: _ => lt_max_of_lt_left (x86Alignment_pos t)

def x86_64 : DataLayout := ⟨64, x86Alignment, x86Alignment_pos⟩

example : x86_64.allocSize (.floating .x86_fp80) = 16 := by decide

example : x86_64.elementOffset false 0 [.integer 8, .integer 32] 1 = 4 := by decide

end Targets

end DataLayout

end LLVM
