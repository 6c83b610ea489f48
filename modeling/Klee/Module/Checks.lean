import Mathlib.Data.BitVec
import Mathlib.Tactic
import Klee.Lib.Pointwise

/-! `DivCheckPass` and `OvershiftCheckPass`, with the functions of the runtime that they call. -/
namespace Klee.Checks

inductive Opcode where
  | sdiv
  | udiv
  | srem
  | urem
  | shl
  | lshr
  | ashr
deriving DecidableEq, Repr

namespace Opcode

def isDivision : Opcode → Bool
  | sdiv | udiv | srem | urem => true
  | shl | lshr | ashr => false

end Opcode

/-- The second operand. A `constantExpr` is a constant that is no literal, with what it evaluates
to: a constant expression, or `undef`, which evaluates to zero. -/
inductive Operand (width : Nat) where
  | constantInt (value : BitVec width)
  | constantExpr (value : BitVec width)
  | register (r : Nat)
deriving DecidableEq

structure BinaryOperator where
  opcode : Opcode
  width : Nat
  operand : Operand width
  width_pos : 0 < width
  width_lt : width < 2 ^ 24
deriving DecidableEq

/-- The annotations `klee.check.div` and `klee.check.shift` are with the operator. The arguments of
a check are casts of an operand to 64 bits. -/
inductive Instruction where
  | binaryOperator (op : BinaryOperator) (checkDiv checkShift : Bool)
  | divZeroCheck {width : Nat} (denominator : Operand width)
  | overshiftCheck (bitWidth : BitVec 64) {width : Nat} (shift : Operand width)
  | other (k : Nat)

abbrev Module := List (List Instruction)

namespace DivCheckPass

def skips (op : BinaryOperator) : Bool :=
  match op.operand with
  | .constantInt value => value ≠ 0
  | .constantExpr _ => true
  | .register _ => false

def runOnInstruction : Instruction → List Instruction
  | .binaryOperator op checkDiv checkShift =>
    if op.opcode.isDivision && !skips op && !checkDiv then
      [.divZeroCheck op.operand, .binaryOperator op true checkShift]
    else [.binaryOperator op checkDiv checkShift]
  | i => [i]

def runOnModule (m : Module) : Module := m.map (·.flatMap runOnInstruction)

end DivCheckPass

namespace OvershiftCheckPass

/-- `getZExtValue`, with the assertion that the value has at most 64 bits. -/
def getZExtValue {width : Nat} (value : BitVec width) : Option Nat :=
  if value.toNat < 2 ^ 64 then some value.toNat else none

def skips (op : BinaryOperator) : Option Bool :=
  match op.operand with
  | .constantInt value =>
    if value.msb then some false else (getZExtValue value).map fun shift => shift < op.width
  | .constantExpr _ => some false
  | .register _ => some false

def runOnInstruction : Instruction → Option (List Instruction)
  | .binaryOperator op checkDiv checkShift =>
    if op.opcode.isDivision then some [.binaryOperator op checkDiv checkShift]
    else (skips op).map fun skip =>
      if !skip && !checkShift then
        [.overshiftCheck (BitVec.ofNat 64 op.width) op.operand, .binaryOperator op checkDiv true]
      else [.binaryOperator op checkDiv checkShift]
  | i => some [i]

def runOnBlock : List Instruction → Option (List Instruction)
  | [] => some []
  | i :: is => (runOnInstruction i).bind fun l => (runOnBlock is).map (l ++ ·)

def runOnModule (m : Module) : Option Module := m.mapM runOnBlock

end OvershiftCheckPass

def instrument (m : Module) : Option Module :=
  OvershiftCheckPass.runOnModule (DivCheckPass.runOnModule m)

section Execution

inductive Event where
  | ran (op : BinaryOperator)
  | ranOther (k : Nat)
  | divideByZero
  | overshift

abbrev Env := Nat → Nat

def Operand.eval {width : Nat} (env : Env) : Operand width → BitVec width
  | constantInt value => value
  | constantExpr value => value
  | register r => BitVec.ofNat width (env r)

/-- What the instructions of the program do to the registers, and the block that follows a block. -/
structure Effects where
  op : BinaryOperator → Env → Env
  other : Nat → Env → Env
  next : Nat → Env → Option Nat

def klee_div_zero_check (z : BitVec 64) : Bool := z = 0

def klee_overshift_check (bitWidth shift : BitVec 64) : Bool := bitWidth ≤ shift

/-- A block of an instrumented module, with what comes after it. A report ends the state. -/
def run (effects : Effects) (after : Env → List Event) : List Instruction → Env → List Event
  | [], env => after env
  | .binaryOperator op _ _ :: is, env => .ran op :: run effects after is (effects.op op env)
  | .divZeroCheck denominator :: is, env =>
    if klee_div_zero_check ((denominator.eval env).setWidth 64) then [.divideByZero]
    else run effects after is env
  | .overshiftCheck bitWidth shift :: is, env =>
    if klee_overshift_check bitWidth ((shift.eval env).setWidth 64) then [.overshift]
    else run effects after is env
  | .other k :: is, env => .ranOther k :: run effects after is (effects.other k env)

/-- A number of blocks of an instrumented module, from block `k` on -/
def execute (effects : Effects) (m : Module) : Nat → Nat → Env → List Event
  | 0, _, _ => []
  | blocks + 1, k, env =>
    run effects (fun env => match effects.next k env with
      | some k' => execute effects m blocks k' env
      | none => []) (m.getD k []) env

end Execution

end Klee.Checks

/-! When the checks are exact. -/
namespace Klee.Checks

open Pointwise

variable {op : BinaryOperator} {env : Env} {effects : Effects}

section Meaning

def BinaryOperator.fault (op : BinaryOperator) (env : Env) : Option Event :=
  if op.opcode.isDivision then
    if op.operand.eval env = 0 then some .divideByZero else none
  else if op.width ≤ (op.operand.eval env).toNat then some .overshift else none

/-- A block of the program, stopped at the first operation that should be. -/
def ideal (effects : Effects) (after : Env → List Event) : List Instruction → Env → List Event
  | [], env => after env
  | .binaryOperator op _ _ :: is, env =>
    match op.fault env with
    | some event => [event]
    | none => .ran op :: ideal effects after is (effects.op op env)
  | .other k :: is, env => .ranOther k :: ideal effects after is (effects.other k env)
  | _ :: is, env => ideal effects after is env

def idealExecute (effects : Effects) (m : Module) : Nat → Nat → Env → List Event
  | 0, _, _ => []
  | blocks + 1, k, env =>
    ideal effects (fun env => match effects.next k env with
      | some k' => idealExecute effects m blocks k' env
      | none => []) (m.getD k []) env

/-- No constant divisor but a literal is zero. No other divisor but zero has its lowest 64 bits
zero, and the lowest 64 bits of a shift amount are as good as all of them. -/
def BinaryOperator.Exact (op : BinaryOperator) (env : Env) : Prop :=
  if op.opcode.isDivision then
    match op.operand with
    | .constantInt _ => True
    | .constantExpr value => value ≠ 0
    | .register r => BitVec.ofNat op.width (env r) = 0 ∨
        (BitVec.ofNat op.width (env r)).toNat % 2 ^ 64 ≠ 0
  else op.width ≤ (op.operand.eval env).toNat % 2 ^ 64 ↔ op.width ≤ (op.operand.eval env).toNat

/-- The operations that the block gets to are exact, and so is what comes after it. -/
def ExactRun (effects : Effects) (after : Env → Prop) : List Instruction → Env → Prop
  | [], env => after env
  | .binaryOperator op _ _ :: is, env =>
    op.Exact env ∧ (op.fault env = none → ExactRun effects after is (effects.op op env))
  | .other k :: is, env => ExactRun effects after is (effects.other k env)
  | _ :: is, env => ExactRun effects after is env

def ExactExecution (effects : Effects) (m : Module) : Nat → Nat → Env → Prop
  | 0, _, _ => True
  | blocks + 1, k, env =>
    ExactRun effects (fun env => ∀ k' ∈ effects.next k env, ExactExecution effects m blocks k' env)
      (m.getD k []) env

def BinaryOperator.HasZExtValue (op : BinaryOperator) : Prop :=
  op.opcode.isDivision = false → ∀ value, op.operand = .constantInt value →
    value.msb = true ∨ value.toNat < 2 ^ 64

def Instruction.Fresh : Instruction → Prop
  | .binaryOperator _ checkDiv checkShift => checkDiv = false ∧ checkShift = false
  | .other _ => True
  | _ => False

def Instruction.HasZExtValue : Instruction → Prop
  | .binaryOperator op _ _ => op.HasZExtValue
  | _ => True

end Meaning

section Instrument

variable {i : Instruction} {is : List Instruction}

def instrumentBlock (is : List Instruction) : Option (List Instruction) :=
  OvershiftCheckPass.runOnBlock (is.flatMap DivCheckPass.runOnInstruction)

theorem runOnBlock_append (is js : List Instruction) : OvershiftCheckPass.runOnBlock (is ++ js) =
    (OvershiftCheckPass.runOnBlock is).bind fun l =>
      (OvershiftCheckPass.runOnBlock js).map (l ++ ·) := by
  induction is with
  | nil => simp [OvershiftCheckPass.runOnBlock]
  | cons i is ih =>
    rw [List.cons_append, OvershiftCheckPass.runOnBlock, OvershiftCheckPass.runOnBlock, ih]
    cases OvershiftCheckPass.runOnInstruction i with
    | none => rfl
    | some l =>
      cases OvershiftCheckPass.runOnBlock is with
      | none => rfl
      | some ls =>
        cases OvershiftCheckPass.runOnBlock js with
        | none => rfl
        | some ls' => simp

theorem instrumentBlock_append (is js : List Instruction) : instrumentBlock (is ++ js) =
    (instrumentBlock is).bind fun l => (instrumentBlock js).map (l ++ ·) := by
  rw [instrumentBlock, List.flatMap_append, runOnBlock_append]
  rfl

def BinaryOperator.fires (op : BinaryOperator) (env : Env) : Bool :=
  if op.opcode.isDivision then
    !DivCheckPass.skips op && klee_div_zero_check ((op.operand.eval env).setWidth 64)
  else OvershiftCheckPass.skips op = some false &&
    klee_overshift_check (BitVec.ofNat 64 op.width) ((op.operand.eval env).setWidth 64)

structure Instrumented (op : BinaryOperator) (l : List Instruction) : Prop where
  again : instrumentBlock l = some l
  run_append : ∀ effects after env js, run effects after (l ++ js) env =
    if op.fires env then [if op.opcode.isDivision then .divideByZero else .overshift]
    else .ran op :: run effects after js (effects.op op env)

/-- A literal that is skipped, or one whose value is not to be had. -/
theorem overshift_skips (op : BinaryOperator) :
    (OvershiftCheckPass.skips op = none ↔ ∃ value, op.operand = .constantInt value ∧
      value.msb = false ∧ 2 ^ 64 ≤ value.toNat) ∧
    (OvershiftCheckPass.skips op = some true → ∃ value, op.operand = .constantInt value ∧
      value.toNat < op.width) := by
  obtain ⟨opcode, width, operand, _, _⟩ := op
  cases operand with
  | constantInt value =>
    unfold OvershiftCheckPass.skips OvershiftCheckPass.getZExtValue
    cases hmsb : value.msb with
    | true => simp [hmsb]
    | false => simp [hmsb]
  | constantExpr value => simp [OvershiftCheckPass.skips]
  | register r => simp [OvershiftCheckPass.skips]

theorem hasZExtValue_iff (hshift : op.opcode.isDivision = false) :
    op.HasZExtValue ↔ OvershiftCheckPass.skips op ≠ none := by
  rw [Ne, (overshift_skips op).1]
  constructor
  · rintro h ⟨value, hop, hmsb, hle⟩
    rcases h hshift value hop with h | h
    · simp [hmsb] at h
    · exact absurd h (not_lt.mpr hle)
  · intro h _ value hop
    by_contra hnot
    obtain ⟨hmsb, hle⟩ := not_or.mp hnot
    exact h ⟨value, hop, by simpa using hmsb, not_lt.mp hle⟩

theorem instrumented_division (hdiv : op.opcode.isDivision = true) :
    ∃ l, instrumentBlock [.binaryOperator op false false] = some l ∧ Instrumented op l := by
  by_cases hskips : DivCheckPass.skips op = true
  · have hdone : instrumentBlock [.binaryOperator op false false] =
        some [.binaryOperator op false false] := by
      simp [instrumentBlock, DivCheckPass.runOnInstruction, OvershiftCheckPass.runOnBlock,
        OvershiftCheckPass.runOnInstruction, hdiv, hskips]
    refine ⟨_, hdone, hdone, fun effects after env js => ?_⟩
    simp [run, BinaryOperator.fires, hdiv, hskips]
  · refine ⟨[.divZeroCheck op.operand, .binaryOperator op true false], ?_, ?_,
      fun effects after env js => ?_⟩
    · simp [instrumentBlock, DivCheckPass.runOnInstruction, OvershiftCheckPass.runOnBlock,
        OvershiftCheckPass.runOnInstruction, hdiv, hskips]
    · simp [instrumentBlock, DivCheckPass.runOnInstruction, OvershiftCheckPass.runOnBlock,
        OvershiftCheckPass.runOnInstruction, hdiv]
    · simp [run, BinaryOperator.fires, hdiv, hskips]

theorem instrumented_shift (hshift : op.opcode.isDivision = false) (hvalue : op.HasZExtValue) :
    ∃ l, instrumentBlock [.binaryOperator op false false] = some l ∧ Instrumented op l := by
  cases hskips : OvershiftCheckPass.skips op with
  | none => exact absurd hskips ((hasZExtValue_iff hshift).mp hvalue)
  | some skips =>
    cases skips with
    | true =>
      have hdone : instrumentBlock [.binaryOperator op false false] =
          some [.binaryOperator op false false] := by
        simp [instrumentBlock, DivCheckPass.runOnInstruction, OvershiftCheckPass.runOnBlock,
          OvershiftCheckPass.runOnInstruction, hshift, hskips]
      refine ⟨_, hdone, hdone, fun effects after env js => ?_⟩
      simp [run, BinaryOperator.fires, hshift, hskips]
    | false =>
      refine ⟨[.overshiftCheck (BitVec.ofNat 64 op.width) op.operand,
        .binaryOperator op false true], ?_, ?_, fun effects after env js => ?_⟩
      · simp [instrumentBlock, DivCheckPass.runOnInstruction, OvershiftCheckPass.runOnBlock,
          OvershiftCheckPass.runOnInstruction, hshift, hskips]
      · simp [instrumentBlock, DivCheckPass.runOnInstruction, OvershiftCheckPass.runOnBlock,
          OvershiftCheckPass.runOnInstruction, hshift, hskips]
      · simp [run, BinaryOperator.fires, hshift, hskips]

theorem instrumentBlock_op (op : BinaryOperator) :
    (op.HasZExtValue → ∃ l, instrumentBlock [.binaryOperator op false false] = some l ∧
      Instrumented op l) ∧
    (¬ op.HasZExtValue → instrumentBlock [.binaryOperator op false false] = none) := by
  cases hdiv : op.opcode.isDivision with
  | true =>
    refine ⟨fun _ => instrumented_division hdiv, fun h => (h fun hshift => ?_).elim⟩
    rw [hdiv] at hshift
    cases hshift
  | false =>
    refine ⟨instrumented_shift hdiv, fun h => ?_⟩
    have hskips : OvershiftCheckPass.skips op = none := by
      by_contra hne
      exact h ((hasZExtValue_iff hdiv).mpr hne)
    simp [instrumentBlock, DivCheckPass.runOnInstruction, OvershiftCheckPass.runOnBlock,
      OvershiftCheckPass.runOnInstruction, hdiv, hskips]

theorem div_zero_check_iff {width : Nat} (value : BitVec width) :
    klee_div_zero_check (value.setWidth 64) = true ↔ value.toNat % 2 ^ 64 = 0 := by
  simp [klee_div_zero_check, ← BitVec.toNat_inj]

theorem overshift_check_iff {width : Nat} (hwidth : width < 2 ^ 24) (shift : BitVec width) :
    klee_overshift_check (BitVec.ofNat 64 width) (shift.setWidth 64) = true ↔
      width ≤ shift.toNat % 2 ^ 64 := by
  have hmod : width % 2 ^ 64 = width := Nat.mod_eq_of_lt (by omega)
  simp only [klee_overshift_check, BitVec.le_def, BitVec.toNat_setWidth, BitVec.toNat_ofNat, hmod,
    decide_eq_true_eq]

theorem fault_division (hdiv : op.opcode.isDivision = true) :
    (op.fault env).isSome = true ↔ op.operand.eval env = 0 := by
  simp only [BinaryOperator.fault, hdiv, if_true]
  by_cases h : op.operand.eval env = 0
  · rw [if_pos h]
    exact iff_of_true rfl h
  · rw [if_neg h]
    exact iff_of_false Bool.false_ne_true h

theorem fault_shift (hshift : op.opcode.isDivision = false) :
    (op.fault env).isSome = true ↔ op.width ≤ (op.operand.eval env).toNat := by
  simp only [BinaryOperator.fault, hshift, Bool.false_eq_true, if_false]
  split_ifs with h <;> simp [h]

theorem exact_iff_division (hdiv : op.opcode.isDivision = true) :
    op.Exact env ↔ (op.fires env = true ↔ (op.fault env).isSome = true) := by
  rw [fault_division hdiv, BinaryOperator.Exact, BinaryOperator.fires, if_pos hdiv, if_pos hdiv,
    Bool.and_eq_true, div_zero_check_iff]
  obtain ⟨opcode, width, operand, _, _⟩ := op
  have hzero : ∀ value : BitVec width, value = 0 → value.toNat % 2 ^ 64 = 0 := by
    rintro _ rfl
    simp
  cases operand with
  | constantInt value =>
    have hvalue := hzero value
    simp only [DivCheckPass.skips, Operand.eval, true_iff]
    simp only [ne_eq, decide_not, Bool.not_not, decide_eq_true_eq]
    tauto
  | constantExpr value =>
    simp only [DivCheckPass.skips, Operand.eval, Bool.not_true, Bool.false_eq_true, false_and,
      false_iff, ne_eq]
  | register r =>
    have hvalue := hzero (BitVec.ofNat width (env r))
    simp only [DivCheckPass.skips, Operand.eval, Bool.not_false, true_and]
    tauto

theorem exact_iff_shift (hshift : op.opcode.isDivision = false) (hvalue : op.HasZExtValue) :
    op.Exact env ↔ (op.fires env = true ↔ (op.fault env).isSome = true) := by
  have hfires : op.fires env = true ↔ op.width ≤ (op.operand.eval env).toNat % 2 ^ 64 := by
    rw [BinaryOperator.fires, hshift, if_neg Bool.false_ne_true, Bool.and_eq_true,
      overshift_check_iff op.width_lt, decide_eq_true_eq]
    refine and_iff_right_of_imp fun hle => ?_
    cases hskips : OvershiftCheckPass.skips op with
    | none => exact absurd hskips ((hasZExtValue_iff hshift).mp hvalue)
    | some skips =>
      cases skips with
      | false => rfl
      | true =>
        -- a literal below the width, so nothing of it is cut off
        obtain ⟨value, hoperand, hlt⟩ := (overshift_skips op).2 hskips
        rw [hoperand] at hle
        exact absurd (hle.trans (Nat.mod_le _ _)) (not_le.mpr hlt)
  rw [hfires, fault_shift hshift, BinaryOperator.Exact, hshift, if_neg Bool.false_ne_true]

/-- The check is there when it should be and passes when it should. -/
theorem exact_iff (hvalue : op.HasZExtValue) :
    op.Exact env ↔ (op.fires env = true ↔ (op.fault env).isSome = true) := by
  cases hdiv : op.opcode.isDivision with
  | true => exact exact_iff_division hdiv
  | false => exact exact_iff_shift hdiv hvalue

variable {after idealAfter : Env → List Event} {exactAfter : Env → Prop}

theorem run_eq_ideal_op {l js is : List Instruction} (hl : Instrumented op l)
    (hvalue : op.HasZExtValue) (htail : ∀ env,
      run effects after js env = ideal effects idealAfter is env ↔
        ExactRun effects exactAfter is env) :
    run effects after (l ++ js) env =
        ideal effects idealAfter (.binaryOperator op false false :: is) env ↔
      ExactRun effects exactAfter (.binaryOperator op false false :: is) env := by
  rw [hl.run_append, ExactRun, ideal, exact_iff hvalue]
  have hne : (if op.opcode.isDivision then .divideByZero else .overshift) ≠ Event.ran op := by
    split_ifs <;> exact Event.noConfusion
  cases hfault : op.fault env with
  | none =>
    cases hfires : op.fires env with
    | true => simp [hne]
    | false => simp [htail]
  | some event =>
    have hevent : event = if op.opcode.isDivision then .divideByZero else .overshift := by
      unfold BinaryOperator.fault at hfault
      split_ifs at hfault with hdiv hzero hle
      · rw [if_pos hdiv, Option.some.inj hfault]
      · rw [if_neg hdiv, Option.some.inj hfault]
    cases hfires : op.fires env with
    | true => simp [hevent]
    | false => simp [hevent, hne.symm]

def Faithful (b b' : List Instruction) : Prop :=
  ∀ (effects : Effects) (after idealAfter : Env → List Event) (exactAfter : Env → Prop),
    (∀ env, after env = idealAfter env ↔ exactAfter env) → ∀ env,
      run effects after b' env = ideal effects idealAfter b env ↔
        ExactRun effects exactAfter b env

theorem faithful_nil : Faithful [] [] := fun _ _ _ _ hafter => hafter

/-- The passes on a block, by the instruction at its head -/
theorem instrumentBlock_fresh {b : List Instruction} (hfresh : ∀ i ∈ b, i.Fresh) :
    ((∀ i ∈ b, i.HasZExtValue) → ∃ b', instrumentBlock b = some b' ∧
      instrumentBlock b' = some b' ∧ Faithful b b') ∧
    ((instrumentBlock b).isSome = true → ∀ i ∈ b, i.HasZExtValue) := by
  induction b with
  | nil => exact ⟨fun _ => ⟨[], rfl, rfl, faithful_nil⟩, by simp⟩
  | cons i is ih =>
    have hhead := hfresh i List.mem_cons_self
    obtain ⟨ihSome, ihValue⟩ := ih fun i hi => hfresh i (List.mem_cons_of_mem _ hi)
    have hsplit : instrumentBlock (i :: is) =
        (instrumentBlock [i]).bind fun l => (instrumentBlock is).map (l ++ ·) :=
      instrumentBlock_append [i] is
    rw [hsplit]
    cases i with
    | binaryOperator op checkDiv checkShift =>
      obtain ⟨rfl, rfl⟩ := hhead
      constructor
      · intro hvalues
        have hvalue : op.HasZExtValue := hvalues _ List.mem_cons_self
        obtain ⟨l, hl, hinstrumented⟩ := (instrumentBlock_op op).1 hvalue
        obtain ⟨js, hjs, hagain, htail⟩ := ihSome fun i hi => hvalues i (List.mem_cons_of_mem _ hi)
        refine ⟨l ++ js, by rw [hl, hjs]; rfl, ?_, fun effects _ _ _ hafter _ =>
          run_eq_ideal_op hinstrumented hvalue (htail effects _ _ _ hafter)⟩
        rw [instrumentBlock_append, hinstrumented.again, hagain]
        rfl
      · intro hsome
        by_cases hvalue : op.HasZExtValue
        · refine List.forall_mem_cons.mpr ⟨hvalue, ihValue ?_⟩
          obtain ⟨l, hl, -⟩ := (instrumentBlock_op op).1 hvalue
          simpa [hl] using hsome
        · simp [(instrumentBlock_op op).2 hvalue] at hsome
    | other k =>
      have hother : instrumentBlock [.other k] = some [.other k] := rfl
      constructor
      · intro hvalues
        obtain ⟨js, hjs, hagain, htail⟩ := ihSome fun i hi => hvalues i (List.mem_cons_of_mem _ hi)
        refine ⟨.other k :: js, by rw [hother, hjs]; rfl, ?_, ?_⟩
        · rw [show Instruction.other k :: js = [.other k] ++ js from rfl, instrumentBlock_append,
            hother, hagain]
          rfl
        · intro effects after idealAfter exactAfter hafter env
          simp only [run, ideal, ExactRun, List.cons.injEq, true_and, htail effects _ _ _ hafter]
      · intro hsome
        refine List.forall_mem_cons.mpr ⟨trivial, ihValue ?_⟩
        simpa [hother] using hsome
    | divZeroCheck denominator => exact hhead.elim
    | overshiftCheck bitWidth shift => exact hhead.elim

end Instrument

section Module

variable {m m' : Module}

theorem instrument_eq (m : Module) : instrument m = m.mapM instrumentBlock := by
  rw [instrument, OvershiftCheckPass.runOnModule, DivCheckPass.runOnModule, List.mapM_map]
  rfl

/-- Block after block -/
theorem execute_eq_ideal (h : List.Forall₂ Faithful m m') (effects : Effects) (blocks : Nat) :
    ∀ k env, execute effects m' blocks k env = idealExecute effects m blocks k env ↔
      ExactExecution effects m blocks k env := by
  induction blocks with
  | zero => exact fun _ _ => iff_of_true rfl trivial
  | succ blocks ih =>
    intro k env
    have hblock : Faithful (m.getD k []) (m'.getD k []) :=
      forall₂_getD h faithful_nil k
    refine hblock effects _ _ _ (fun env => ?_) env
    cases effects.next k env with
    | none => simp
    | some k' => simpa using ih k' env

theorem exists_instrument (hfresh : ∀ b ∈ m, ∀ i ∈ b, i.Fresh)
    (hvalues : ∀ b ∈ m, ∀ i ∈ b, i.HasZExtValue) :
    ∃ m', instrument m = some m' ∧ instrument m' = some m' ∧ ∀ effects blocks k env,
      execute effects m' blocks k env = idealExecute effects m blocks k env ↔
        ExactExecution effects m blocks k env := by
  obtain ⟨m', hm', hblocks⟩ := exists_mapM m fun b hb =>
    (instrumentBlock_fresh (hfresh b hb)).1 (hvalues b hb)
  have hagain : List.Forall₂ (fun b b' => instrumentBlock b = some b') m' m' :=
    List.forall₂_same.mpr fun b' hb' =>
      let ⟨_, _, h, _⟩ := forall₂_mem_right hblocks hb'
      h
  refine ⟨m', (instrument_eq m).trans hm', (instrument_eq m').trans (mapM_eq_some_iff.mpr hagain),
    fun effects => execute_eq_ideal (hblocks.imp fun _ _ h => h.2) effects⟩

/-- Every module before the passes, every execution of it -/
theorem instrument_exact_iff (m : Module) (hfresh : ∀ b ∈ m, ∀ i ∈ b, i.Fresh) (effects : Effects)
    (blocks k : Nat) (env : Env) :
    (∃ m', instrument m = some m' ∧ instrument m' = some m' ∧
      execute effects m' blocks k env = idealExecute effects m blocks k env) ↔
    (∀ b ∈ m, ∀ i ∈ b, i.HasZExtValue) ∧ ExactExecution effects m blocks k env := by
  constructor
  · rintro ⟨m', hm', -, hrun⟩
    have hblocks := mapM_eq_some_iff.mp ((instrument_eq m).symm.trans hm')
    have hvalues : ∀ b ∈ m, ∀ i ∈ b, i.HasZExtValue := by
      intro b hb
      obtain ⟨k, hk, rfl⟩ := List.getElem_of_mem hb
      have hb' := hblocks.get hk (by rwa [← hblocks.length_eq])
      exact (instrumentBlock_fresh (hfresh _ hb)).2 (Option.isSome_of_eq_some hb')
    obtain ⟨m'', hm'', -, hexact⟩ := exists_instrument hfresh hvalues
    obtain rfl : m'' = m' := Option.some.inj (hm''.symm.trans hm')
    exact ⟨hvalues, (hexact effects blocks k env).mp hrun⟩
  · rintro ⟨hvalues, hexecution⟩
    obtain ⟨m', hm', hagain, hexact⟩ := exists_instrument hfresh hvalues
    exact ⟨m', hm', hagain, (hexact effects blocks k env).mpr hexecution⟩

theorem instrument_exact_iff_udiv :
    ∃ m', instrument
        [[.binaryOperator ⟨.udiv, 32, .register 0, by decide, by decide⟩ false false]] = some m' ∧
      instrument m' = some m' ∧
      execute ⟨fun _ env => env, fun _ env => env, fun k _ => some k⟩ m' 2 0 (fun _ => 3) =
        idealExecute ⟨fun _ env => env, fun _ env => env, fun k _ => some k⟩
          [[.binaryOperator ⟨.udiv, 32, .register 0, by decide, by decide⟩ false false]] 2 0
          (fun _ => 3) :=
  (instrument_exact_iff _ (by simp [Instruction.Fresh]) _ 2 0 _).mpr
    ⟨by simp [Instruction.HasZExtValue, BinaryOperator.HasZExtValue, Opcode.isDivision],
      by simp [ExactExecution, ExactRun, BinaryOperator.Exact, Opcode.isDivision]⟩

/-- A division of 128 bits by `2 ^ 64` is reported. -/
theorem udiv_i128_reported :
    ∃ m', instrument
        [[.binaryOperator ⟨.udiv, 128, .register 0, by decide, by decide⟩ false false]] = some m' ∧
      execute ⟨fun _ env => env, fun _ env => env, fun _ _ => none⟩ m' 1 0 (fun _ => 2 ^ 64) =
        [.divideByZero] ∧
      (Operand.register 0 : Operand 128).eval (fun _ => 2 ^ 64) ≠ 0 := by
  refine ⟨_, rfl, ?_, by decide⟩
  simp [execute, run, klee_div_zero_check, Operand.eval]

end Module

end Klee.Checks
