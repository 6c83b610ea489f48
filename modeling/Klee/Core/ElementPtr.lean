import Klee.Expr.Truth
import Klee.Lib.DataLayout

/-! `getelementptr`: the offsets that are computed when the module is loaded, the instruction, and
the constant expression. -/
namespace Klee

open LLVM

/-- An operand of an instruction: a constant with its value, or the number of a register. -/
inductive Operand where
  | constant (c : ConstantExpr)
  | register (index : Nat)

def Operand.eval (locals : Nat → Expr) : Operand → Expr
  | .constant c => .constant c
  | .register r => locals r

def Operand.valueUnder (locals : Nat → Expr) (σ : Assignment) : Operand → ConstantExpr
  | .constant c => c
  | .register r => ⟨(locals r).width, (locals r).eval σ (locals r).width⟩

@[simp] theorem Operand.valueUnder_constant (locals : Nat → Expr) (σ : Assignment)
    (c : ConstantExpr) : (Operand.constant c).valueUnder locals σ = c := rfl

/-- What the casts of a type iterator find: a struct, or a type all of whose elements have one
type (a pointer, an array or a vector). -/
inductive CurTy where
  | struct (packed : Bool) (fields : List LLVMType)
  | sequential (element : LLVMType)
  | scalar

namespace CurTy

def ofType : LLVMType → CurTy
  | .array _ element => .sequential element
  | .vector _ element => .sequential element
  | .struct packed fields => .struct packed fields
  | _ => .scalar

/-- `operator++` -/
def next : CurTy → Nat → Option CurTy
  | .struct _ fields, index => (fields[index]?).map ofType
  | .sequential element, _ => some (ofType element)
  | .scalar, _ => none

end CurTy

/-- `indices` has the positions of the operands that are not constant, with the sizes of their
elements. -/
structure KGEPInstruction where
  indices : List (Nat × Nat)
  offset : Nat
deriving DecidableEq, Repr

namespace Executor

variable (dl : DataLayout)

/-- The loop of `computeOffsets`, with `constantOffset`; `none` where a cast or an assertion
fails. -/
def computeOffsets : CurTy → Nat → List Operand → List (Nat × Nat) → ConstantExpr →
    Option KGEPInstruction
  | _, _, [], indices, constantOffset => some ⟨indices, constantOffset.value.toNat⟩
  | .struct packed fields, index, .constant ci :: operands, indices, constantOffset => do
    let next ← CurTy.next (.struct packed fields) ci.value.toNat
    let addend := dl.elementOffset packed 0 fields ci.value.toNat
    computeOffsets next (index + 1) operands indices
      (constantOffset.add (.alloc addend dl.pointerWidth))
  | .struct _ _, _, .register _ :: _, _, _ => none
  | .sequential element, index, .constant c :: operands, indices, constantOffset =>
    let addend := (c.sext dl.pointerWidth).mul (.alloc (dl.storeSize element) dl.pointerWidth)
    computeOffsets (.ofType element) (index + 1) operands indices (constantOffset.add addend)
  | .sequential element, index, .register _ :: operands, indices, constantOffset =>
    computeOffsets (.ofType element) (index + 1) operands
      (indices ++ [(index, dl.storeSize element)]) constantOffset
  | .scalar, _, _ :: _, _, _ => none

section Instruction

variable (locals : Nat → Expr)

/-- The loop over `indices`. -/
def addIndices (operands : List Operand) : List (Nat × Nat) → Expr → Expr
  | [], base => base
  | (index, elementSize) :: rest, base =>
    let index := ((operands[index]?).map (Operand.eval locals)).getD (.constant (.alloc 0 1))
    addIndices operands rest (AddExpr.create base (MulExpr.create
      (SExtExpr.create index dl.pointerWidth) (.constant (.alloc elementSize dl.pointerWidth))))

/-- `executeInstruction` for `getelementptr`; the first operand is the base. -/
def executeGetElementPtr (base : Operand) (operands : List Operand) (kgepi : KGEPInstruction) :
    Expr :=
  let base' := addIndices dl locals (base :: operands) kgepi.indices (Operand.eval locals base)
  if kgepi.offset ≠ 0 then
    AddExpr.create base' (.constant (.alloc kgepi.offset dl.pointerWidth))
  else base'

end Instruction

/-- The loop of `evalConstantExpr` for `getelementptr`. -/
def evalConstantGEP : CurTy → List ConstantExpr → ConstantExpr → Option ConstantExpr
  | _, [], base => some base
  | cur, indexOp :: rest, base => do
    let next ← cur.next indexOp.value.toNat
    if indexOp.isZero then evalConstantGEP next rest base
    else
      match cur with
      | .struct packed fields =>
        evalConstantGEP next rest (base.add
          (.alloc (dl.elementOffset packed 0 fields indexOp.value.toNat) dl.pointerWidth))
      | .sequential element =>
        evalConstantGEP next rest (base.add ((indexOp.sext dl.pointerWidth).mul
          (.alloc (dl.allocSize element) dl.pointerWidth)))
      | .scalar => none

end Executor

namespace ElementPtr

variable (dl : DataLayout)

/-- The offset of an element, where the elements of a type are a size apart. -/
def offsetBy (size : LLVMType → Nat) : CurTy → List ConstantExpr → Option Int
  | _, [] => some 0
  | .struct packed fields, c :: cs => do
    let t ← fields[c.value.toNat]?
    let rest ← offsetBy size (.ofType t) cs
    pure (dl.elementOffset packed 0 fields c.value.toNat + rest)
  | .sequential element, c :: cs => do
    let rest ← offsetBy size (.ofType element) cs
    pure (c.value.toInt * size element + rest)
  | .scalar, _ :: _ => none

def skippedPadding : CurTy → List ConstantExpr → Int
  | _, [] => 0
  | .struct _ fields, c :: cs => ((fields[c.value.toNat]?).map fun t =>
      skippedPadding (.ofType t) cs).getD 0
  | .sequential element, c :: cs =>
    c.value.toInt * dl.tailPadding element + skippedPadding (.ofType element) cs
  | .scalar, _ :: _ => 0

/-- The operands are indices into a type: those of structs are constants that name a field. -/
def Indexes : CurTy → List Operand → Prop
  | _, [] => True
  | .struct _ fields, operand :: rest => ∃ c t, operand = .constant c ∧
      fields[c.value.toNat]? = some t ∧ Indexes (.ofType t) rest
  | .sequential element, _ :: rest => Indexes (.ofType element) rest
  | .scalar, _ :: _ => False

end ElementPtr

end Klee

/-! The address of an element. -/
namespace Klee

open LLVM Executor

namespace ElementPtr

variable {dl : DataLayout} {locals : Nat → Expr} {σ : Assignment} {cur : CurTy}
  {operands : List Operand}

section Offsets

theorem add_alloc {w : Nat} (x : BitVec w) (n : Nat) :
    (⟨w, x⟩ : ConstantExpr).add (.alloc n w) = ⟨w, x + BitVec.ofNat w n⟩ := by
  simp [ConstantExpr.add, ConstantExpr.arith, ConstantExpr.alloc, ArithKind.denote,
    ArithKind.operator]

theorem add_sext_mul {w : Nat} (x : BitVec w) (c : ConstantExpr) (n : Nat) :
    (⟨w, x⟩ : ConstantExpr).add ((c.sext w).mul (.alloc n w)) =
      ⟨w, x + c.value.signExtend w * BitVec.ofNat w n⟩ := by
  simp [ConstantExpr.add, ConstantExpr.mul, ConstantExpr.sext, ConstantExpr.arith,
    ConstantExpr.alloc, ArithKind.denote, ArithKind.operator]

def scaled {w : Nat} (value : Nat → BitVec w) (indices : List (Nat × Nat)) : BitVec w :=
  (indices.map fun p => value p.1 * BitVec.ofNat w p.2).sum

theorem scaled_cons {w : Nat} (value : Nat → BitVec w) (index size : Nat)
    (rest : List (Nat × Nat)) :
    scaled value ((index, size) :: rest) = value index * BitVec.ofNat w size + scaled value rest :=
  rfl

theorem ofInt_mul_natCast {m w : Nat} (c : BitVec m) (n : Nat) :
    BitVec.ofInt w (c.toInt * n) = c.signExtend w * BitVec.ofNat w n := by
  rw [BitVec.ofInt_mul, BitVec.ofInt_natCast]
  rfl

theorem offsetBy_struct {size : LLVMType → Nat} {packed : Bool} {fields : List LLVMType}
    {c : ConstantExpr} {cs : List ConstantExpr} {t : LLVMType} {off : Int}
    (ht : fields[c.value.toNat]? = some t) (hoff : offsetBy dl size (.ofType t) cs = some off) :
    offsetBy dl size (.struct packed fields) (c :: cs) =
      some (dl.elementOffset packed 0 fields c.value.toNat + off) := by
  rw [offsetBy, ht, Option.bind_eq_bind, Option.bind_some, hoff]
  rfl

theorem offsetBy_sequential {size : LLVMType → Nat} {element : LLVMType} {c : ConstantExpr}
    {cs : List ConstantExpr} {off : Int}
    (hoff : offsetBy dl size (.ofType element) cs = some off) :
    offsetBy dl size (.sequential element) (c :: cs) =
      some (c.value.toInt * size element + off) := by
  rw [offsetBy, hoff]
  rfl

variable (dl locals σ) in
/-- The padding is what the two rules for offsets differ by. -/
theorem offsetBy_allocSize (h : Indexes cur operands) :
    ∃ off, offsetBy dl dl.storeSize cur (operands.map (Operand.valueUnder locals σ)) = some off ∧
      offsetBy dl dl.allocSize cur (operands.map (Operand.valueUnder locals σ)) =
        some (off + skippedPadding dl cur (operands.map (Operand.valueUnder locals σ))) := by
  induction operands generalizing cur with
  | nil => exact ⟨0, rfl, rfl⟩
  | cons operand rest ih =>
    cases cur with
    | struct packed fields =>
      obtain ⟨c, t, rfl, ht, hrest⟩ := h
      obtain ⟨off, hstore, halloc⟩ := ih hrest
      refine ⟨_, offsetBy_struct ht hstore, (offsetBy_struct ht halloc).trans ?_⟩
      rw [List.map_cons, Operand.valueUnder_constant, skippedPadding, ht, add_assoc]
      rfl
    | sequential element =>
      obtain ⟨off, hstore, halloc⟩ := ih h
      refine ⟨_, offsetBy_sequential hstore, (offsetBy_sequential halloc).trans ?_⟩
      rw [List.map_cons, skippedPadding, DataLayout.tailPadding,
        Nat.cast_sub (DataLayout.storeSize_le_allocSize element)]
      exact congrArg some (by ring)
    | scalar => exact h.elim

variable (dl locals σ) in
/-- What a run of `computeOffsets` leaves to the instruction: the indices that it keeps, scaled,
and its offset make up the offset by store sizes. -/
theorem exists_computeOffsets (h : Indexes cur operands) (index : Nat)
    (indices : List (Nat × Nat)) (x : BitVec dl.pointerWidth) :
    ∃ kgepi kept off,
      computeOffsets dl cur index operands indices ⟨dl.pointerWidth, x⟩ = some kgepi ∧
      kgepi.offset < 2 ^ dl.pointerWidth ∧
      kgepi.indices = indices ++ kept ∧
      (∀ p ∈ kept, ∃ k r, operands[k]? = some (.register r) ∧ p.1 = index + k) ∧
      offsetBy dl dl.storeSize cur (operands.map (Operand.valueUnder locals σ)) = some off ∧
      ∀ value : Nat → BitVec dl.pointerWidth,
        (∀ k operand, operands[k]? = some operand → value (index + k) =
          (operand.valueUnder locals σ).value.signExtend dl.pointerWidth) →
        scaled value kept + BitVec.ofNat dl.pointerWidth kgepi.offset =
          x + BitVec.ofInt dl.pointerWidth off := by
  induction operands generalizing cur index indices x with
  | nil =>
    exact ⟨_, [], 0, rfl, x.isLt, (List.append_nil _).symm, by simp, rfl, by simp [scaled]⟩
  | cons operand rest ih =>
    have hposition {kept : List (Nat × Nat)}
        (hkept : ∀ p ∈ kept, ∃ k r, rest[k]? = some (.register r) ∧ p.1 = index + 1 + k) :
        ∀ p ∈ kept, ∃ k r, (operand :: rest)[k]? = some (.register r) ∧ p.1 = index + k := by
      intro p hp
      obtain ⟨k, r, hk, hindex⟩ := hkept p hp
      exact ⟨k + 1, r, hk, by omega⟩
    have hvalues {value : Nat → BitVec dl.pointerWidth}
        (hvalue : ∀ k o, (operand :: rest)[k]? = some o → value (index + k) =
          (o.valueUnder locals σ).value.signExtend dl.pointerWidth) :
        ∀ k o, rest[k]? = some o → value (index + 1 + k) =
          (o.valueUnder locals σ).value.signExtend dl.pointerWidth := by
      intro k o ho
      rw [Nat.add_assoc, Nat.add_comm 1 k]
      exact hvalue (k + 1) o ho
    cases cur with
    | struct packed fields =>
      obtain ⟨c, t, rfl, ht, hrest⟩ := h
      obtain ⟨kgepi, kept, off, hrun, hlt, hindices, hkept, hoff, hsum⟩ := ih hrest (index + 1) indices
        (x + BitVec.ofNat _ (dl.elementOffset packed 0 fields c.value.toNat))
      refine ⟨kgepi, kept, _, ?_, hlt, hindices, hposition hkept,
        offsetBy_struct (c := c) ht hoff,
        fun value hvalue => ?_⟩
      · rw [computeOffsets, CurTy.next, ht, ← hrun]
        simp only [add_alloc, Option.map_some, Option.bind_eq_bind, Option.bind_some]
      · rw [hsum value (hvalues hvalue), BitVec.ofInt_add, BitVec.ofInt_natCast, add_assoc]
    | sequential element =>
      cases operand with
      | constant c =>
        obtain ⟨kgepi, kept, off, hrun, hlt, hindices, hkept, hoff, hsum⟩ := ih h (index + 1) indices
          (x + c.value.signExtend _ * BitVec.ofNat _ (dl.storeSize element))
        refine ⟨kgepi, kept, _, ?_, hlt, hindices, hposition hkept,
          offsetBy_sequential (c := c) hoff, fun value hvalue => ?_⟩
        · rw [computeOffsets, ← hrun]
          rw [add_sext_mul]
        · rw [hsum value (hvalues hvalue), BitVec.ofInt_add, ofInt_mul_natCast, add_assoc]
      | register r =>
        obtain ⟨kgepi, kept, off, hrun, hlt, hindices, hkept, hoff, hsum⟩ := ih h (index + 1)
          (indices ++ [(index, dl.storeSize element)]) x
        refine ⟨kgepi, (index, dl.storeSize element) :: kept, _, hrun, hlt, ?_, ?_,
          offsetBy_sequential hoff, fun value hvalue => ?_⟩
        · rw [hindices, List.append_assoc, List.singleton_append]
        · intro p hp
          rcases List.mem_cons.mp hp with rfl | hp
          · exact ⟨0, r, rfl, rfl⟩
          · exact hposition hkept p hp
        · have hvalue₀ := hvalue 0 _ rfl
          have hrest := hsum value (hvalues hvalue)
          rw [Nat.add_zero] at hvalue₀
          rw [BitVec.ofInt_add, ofInt_mul_natCast, ← hvalue₀, add_left_comm, ← hrest, scaled_cons,
            add_assoc]
    | scalar => exact h.elim

end Offsets

section Constant

variable (dl locals σ) in
/-- The constant expression is at the offset by allocation sizes. -/
theorem evalConstantGEP_eq (h : Indexes cur operands) (x : BitVec dl.pointerWidth) :
    ∃ off, offsetBy dl dl.allocSize cur (operands.map (Operand.valueUnder locals σ)) = some off ∧
      evalConstantGEP dl cur (operands.map (Operand.valueUnder locals σ)) ⟨dl.pointerWidth, x⟩ =
        some ⟨dl.pointerWidth, x + BitVec.ofInt dl.pointerWidth off⟩ := by
  induction operands generalizing cur x with
  | nil => exact ⟨0, rfl, by simp [evalConstantGEP]⟩
  | cons operand rest ih =>
    cases cur with
    | struct packed fields =>
      obtain ⟨c, t, rfl, ht, hrest⟩ := h
      obtain ⟨off, hoff, heval⟩ := ih hrest
        (x + BitVec.ofNat _ (dl.elementOffset packed 0 fields c.value.toNat))
      refine ⟨_, offsetBy_struct (c := c) ht hoff, ?_⟩
      rw [BitVec.ofInt_add, BitVec.ofInt_natCast, ← add_assoc, ← heval, List.map_cons,
        Operand.valueUnder_constant, evalConstantGEP, CurTy.next, ht, Option.map_some,
        Option.bind_eq_bind, Option.bind_some]
      split
      case isTrue hzero =>
        -- the first field is at the offset 0
        have hvalue : c.value = 0 := beq_iff_eq.mp hzero
        simp [hvalue, DataLayout.elementOffset_zero]
      case isFalse =>
        simp only [add_alloc]
    | sequential element =>
      obtain ⟨off, hoff, heval⟩ := ih h (x + (operand.valueUnder locals σ).value.signExtend _ *
        BitVec.ofNat _ (dl.allocSize element))
      refine ⟨_, offsetBy_sequential hoff, ?_⟩
      rw [BitVec.ofInt_add, ofInt_mul_natCast, ← add_assoc, ← heval, List.map_cons,
        evalConstantGEP, CurTy.next, Option.bind_eq_bind, Option.bind_some]
      split
      case isTrue hzero =>
        have hextend : (operand.valueUnder locals σ).value.signExtend dl.pointerWidth = 0 := by
          rw [beq_iff_eq.mp hzero]
          exact congrArg (BitVec.ofInt _) BitVec.toInt_zero
        rw [hextend, zero_mul, add_zero]
      case isFalse =>
        dsimp only
        rw [add_sext_mul]
    | scalar => exact h.elim

end Constant

section Instruction

/-- The operands of a list by their positions, sign-extended to the width of a pointer. -/
def indexValue (dl : DataLayout) (locals : Nat → Expr) (σ : Assignment) (operands : List Operand)
    (index : Nat) : BitVec dl.pointerWidth :=
  ((operands[index]?).map fun operand =>
    (operand.valueUnder locals σ).value.signExtend dl.pointerWidth).getD 0

theorem indexValue_succ (base : Operand) {operand : Operand} {k : Nat}
    (h : operands[k]? = some operand) :
    indexValue dl locals σ (base :: operands) (1 + k) =
      (operand.valueUnder locals σ).value.signExtend dl.pointerWidth := by
  rw [indexValue, Nat.add_comm, List.getElem?_cons_succ, h]
  rfl

theorem eval_denotes {operand : Operand} (h : (operand.eval locals).WellSorted) :
    Denotes (some σ) (operand.eval locals) (operand.valueUnder locals σ).width
      (operand.valueUnder locals σ).value := by
  cases operand with
  | constant c => exact Denotes.constant h
  | register r => exact Denotes.of_wellSorted h rfl

theorem addIndices_denotes (hoperands : ∀ operand ∈ operands, (operand.eval locals).WellSorted)
    {indices : List (Nat × Nat)} (hindices : ∀ p ∈ indices, p.1 < operands.length) {base : Expr}
    {x : BitVec dl.pointerWidth} (hbase : Denotes (some σ) base dl.pointerWidth x) :
    Denotes (some σ) (addIndices dl locals operands indices base) dl.pointerWidth
      (x + scaled (indexValue dl locals σ operands) indices) := by
  induction indices generalizing base x with
  | nil => exact hbase.congr fun _ => (add_zero x).symm
  | cons p rest ih =>
    obtain ⟨index, elementSize⟩ := p
    have hlt : index < operands.length := hindices _ List.mem_cons_self
    have hoperand := eval_denotes (σ := σ) (hoperands _ (List.getElem_mem hlt))
    have hextend := CastKind.create_denotes .sext hoperand hbase.width_pos
    have hsize := Denotes.constant (s := some σ)
      (v := BitVec.ofNat dl.pointerWidth elementSize) hbase.width_pos
    have hnext := AddExpr.create_denotes hbase (MulExpr.create_denotes hextend hsize)
    have hrest := ih (fun q hq => hindices q (List.mem_cons_of_mem _ hq)) hnext
    rw [addIndices, List.getElem?_eq_getElem hlt, Option.map_some, Option.getD_some]
    refine hrest.congr fun _ => ?_
    have hvalue : indexValue dl locals σ operands index =
        (operands[index].valueUnder locals σ).value.signExtend dl.pointerWidth := by
      simp only [indexValue, List.getElem?_eq_getElem hlt, Option.map_some, Option.getD_some]
    rw [scaled_cons, ← add_assoc, hvalue]
    rfl

variable (dl locals σ) in
/-- The instruction is at the offset by store sizes. -/
theorem executeGetElementPtr_denotes (base : Operand) {source : LLVMType}
    (h : Indexes (.sequential source) operands)
    (hsorted : ∀ operand ∈ base :: operands, (operand.eval locals).WellSorted)
    (hbase : (base.valueUnder locals σ).width = dl.pointerWidth) :
    ∃ kgepi off,
      computeOffsets dl (.sequential source) 1 operands [] (.alloc 0 dl.pointerWidth) =
        some kgepi ∧
      offsetBy dl dl.storeSize (.sequential source)
        (operands.map (Operand.valueUnder locals σ)) = some off ∧
      Denotes (some σ) (executeGetElementPtr dl locals base operands kgepi) dl.pointerWidth
        ((base.valueUnder locals σ).value.setWidth dl.pointerWidth +
          BitVec.ofInt dl.pointerWidth off) := by
  obtain ⟨kgepi, kept, off, hrun, -, hindices, hkept, hoff, hsum⟩ :=
    exists_computeOffsets dl locals σ h 1 [] 0
  have hstart := (eval_denotes (σ := σ) (hsorted base List.mem_cons_self)).setWidth hbase
  have hpositions : ∀ p ∈ kgepi.indices, p.1 < (base :: operands).length := by
    intro p hp
    rw [hindices, List.nil_append] at hp
    obtain ⟨k, r, hk, hp⟩ := hkept p hp
    have hk := (List.getElem?_eq_some_iff.mp hk).1
    rw [hp, List.length_cons]
    omega
  have hadded := addIndices_denotes hsorted hpositions hstart
  have hscaled := hsum (indexValue dl locals σ (base :: operands)) fun k operand hk =>
    indexValue_succ base hk
  rw [zero_add] at hscaled
  rw [List.nil_append] at hindices
  refine ⟨kgepi, off, hrun, hoff, ?_⟩
  unfold executeGetElementPtr
  rw [← hscaled, ← add_assoc, ← hindices]
  split
  case isTrue => exact AddExpr.create_denotes hadded (Denotes.constant hstart.width_pos)
  case isFalse hzero =>
    refine hadded.congr fun _ => ?_
    rw [not_not.mp hzero]
    exact (add_zero _).symm

end Instruction

/-- The instruction and the constant expression are at the address that the layout gives to the
operands, with elements that are their allocation size apart. -/
def AddressRight (dl : DataLayout) (locals : Nat → Expr) (σ : Assignment) (base : Operand)
    (source : LLVMType) (operands : List Operand) : Prop :=
  ∃ kgepi offset,
    computeOffsets dl (.sequential source) 1 operands [] (.alloc 0 dl.pointerWidth) = some kgepi ∧
    offsetBy dl dl.allocSize (.sequential source) (operands.map (Operand.valueUnder locals σ)) =
      some offset ∧
    (executeGetElementPtr dl locals base operands kgepi).eval σ dl.pointerWidth =
      (base.valueUnder locals σ).value.setWidth dl.pointerWidth +
        BitVec.ofInt dl.pointerWidth offset ∧
    evalConstantGEP dl (.sequential source) (operands.map (Operand.valueUnder locals σ))
      ((base.valueUnder locals σ).zext dl.pointerWidth) =
        some ⟨dl.pointerWidth, (base.valueUnder locals σ).value.setWidth dl.pointerWidth +
          BitVec.ofInt dl.pointerWidth offset⟩

theorem ofInt_eq_iff {w : Nat} {i j : Int} :
    BitVec.ofInt w i = BitVec.ofInt w j ↔ (2 ^ w : Int) ∣ j - i := by
  have hpos : (2 ^ w : Int) ≠ 0 := by positivity
  rw [← BitVec.toNat_inj, BitVec.toNat_ofInt, BitVec.toNat_ofInt, ← Int.modEq_iff_dvd,
    ← Int.ofNat_inj, Int.toNat_of_nonneg, Int.toNat_of_nonneg]
  · exact_mod_cast Iff.rfl
  · exact Int.emod_nonneg j (by exact_mod_cast hpos)
  · exact Int.emod_nonneg i (by exact_mod_cast hpos)

/-- The addresses are right if and only if the padding that the indices step over is nothing at
the width of a pointer. -/
theorem addressRight_iff (dl : DataLayout) (locals : Nat → Expr) (σ : Assignment) (base : Operand)
    (source : LLVMType) (operands : List Operand) (h : Indexes (.sequential source) operands)
    (hsorted : ∀ operand ∈ base :: operands, (operand.eval locals).WellSorted)
    (hbase : (base.valueUnder locals σ).width = dl.pointerWidth) :
    AddressRight dl locals σ base source operands ↔ (2 ^ dl.pointerWidth : Int) ∣
      skippedPadding dl (.sequential source) (operands.map (Operand.valueUnder locals σ)) := by
  obtain ⟨kgepi, off, hrun, hoff, hdenotes⟩ :=
    executeGetElementPtr_denotes dl locals σ base h hsorted hbase
  obtain ⟨off₁, hoff₁, hconstant⟩ := evalConstantGEP_eq dl locals σ h
    ((base.valueUnder locals σ).value.setWidth dl.pointerWidth)
  obtain ⟨off₂, hstore, halloc⟩ := offsetBy_allocSize dl locals σ h
  obtain rfl : off = off₂ := Option.some.inj (hoff.symm.trans hstore)
  have hdiff := Option.some.inj (hoff₁.symm.trans halloc)
  have hiff : BitVec.ofInt dl.pointerWidth off = BitVec.ofInt dl.pointerWidth off₁ ↔
      (2 ^ dl.pointerWidth : Int) ∣ skippedPadding dl (.sequential source)
        (operands.map (Operand.valueUnder locals σ)) := by
    rw [ofInt_eq_iff, hdiff, add_sub_cancel_left]
  rw [← hiff]
  constructor
  · rintro ⟨kgepi', offset, hrun', hoffset, hinstruction, -⟩
    obtain rfl := Option.some.inj (hrun.symm.trans hrun')
    obtain rfl := Option.some.inj (hoff₁.symm.trans hoffset)
    exact add_left_cancel (hdenotes.eval.symm.trans hinstruction)
  · intro heq
    exact ⟨kgepi, off₁, hrun, hoff₁, by rw [hdenotes.eval, heq], hconstant⟩

section Padding

/-- `getelementptr { i8, i32 }, { i8, i32 }* %0, i64 %1, i32 1` -/
theorem addressRight_field : AddressRight .x86_64
    (fun r => .constant (.alloc (if r = 0 then 4096 else 3) 64)) (fun _ _ => 0) (.register 0)
    (.struct false [.integer 8, .integer 32]) [.register 1, .constant (.alloc 1 32)] := by
  refine (addressRight_iff .x86_64 _ _ (.register 0) _ _ ?_ ?_ rfl).mpr ?_
  · exact ⟨.alloc 1 32, .integer 32, rfl, rfl, trivial⟩
  · simp [Operand.eval, Expr.WellSorted]
  · decide

/-- `getelementptr x86_fp80, x86_fp80* 4096, i64 1`: an element has 10 bytes of the 16 to the
next one. -/
theorem not_addressRight_fp80 :
    Indexes (.sequential (.floating .x86_fp80)) [.constant (.alloc 1 64)] ∧
    ¬ AddressRight .x86_64 (fun r => .constant (.alloc r 64)) (fun _ _ => 0)
      (.constant (.alloc 4096 64)) (.floating .x86_fp80) [.constant (.alloc 1 64)] := by
  refine ⟨trivial, ?_⟩
  rintro ⟨kgepi, offset, hrun, hoffset, hinstruction, -⟩
  have hindexes : Indexes (.sequential (.floating .x86_fp80)) [.constant (.alloc 1 64)] := trivial
  obtain ⟨kgepi', off, hrun', hstore, hdenotes⟩ := executeGetElementPtr_denotes .x86_64
    (fun r => .constant (.alloc r 64)) (fun _ _ => 0) (.constant (.alloc 4096 64)) hindexes
    (by simp [Operand.eval, Expr.WellSorted]) rfl
  obtain rfl := Option.some.inj (hrun.symm.trans hrun')
  obtain rfl : (10 : Int) = off := Option.some.inj hstore
  obtain rfl : (16 : Int) = offset := Option.some.inj hoffset
  exact absurd (hdenotes.eval.symm.trans hinstruction) (by decide)

end Padding

end ElementPtr

end Klee
