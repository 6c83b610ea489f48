import Mathlib.Tactic

/-! `getDirectCallTarget` and `functionEscapes`. -/
namespace Klee.CallTarget

inductive Opcode where
  | bitCast
  | addrSpaceCast
  | getElementPtr (allZeroIndices : Bool)
  | intToPtr
  | ptrToInt
  | select
  | other (k : Nat)
deriving DecidableEq, Repr

/-- The opcodes that `stripPointerCasts` walks through -/
def Opcode.isPointerCast : Opcode → Bool
  | bitCast | addrSpaceCast | getElementPtr true => true
  | _ => false

/-- A constant, with the numbers of the constants that it refers to. The attached constants of a
function are its personality, prefix and prologue data. -/
inductive Constant where
  | function (attached : List Nat)
  | globalAlias (aliasee : Nat) (interposable : Bool)
  | globalVariable (initializer : Option Nat)
  | constantExpr (opcode : Opcode) (operand : Nat) (operands : List Nat)
  | constantAggregate (elements : List Nat)
  | blockAddress (f : Nat)
  | constantInt (value : Nat)
  | null
deriving DecidableEq, Repr

namespace Constant

def operands : Constant → List Nat
  | function attached => attached
  | globalAlias aliasee _ => [aliasee]
  | globalVariable initializer => initializer.toList
  | constantExpr _ operand operands => operand :: operands
  | constantAggregate elements => elements
  | blockAddress f => [f]
  | constantInt _ => []
  | null => []

def parts : Constant → List Nat
  | globalAlias aliasee _ => [aliasee]
  | constantExpr _ operand operands => operand :: operands
  | constantAggregate elements => elements
  | _ => []

def isFunction : Constant → Bool
  | function _ => true
  | _ => false

def isPointer : Constant → Bool
  | constantAggregate _ | constantInt _ => false
  | _ => true

end Constant

inductive Value where
  | constant (c : Nat)
  | register (r : Nat)
  | inlineAsm
deriving DecidableEq, Repr

inductive Instruction where
  /-- A call or an invoke -/
  | call (calledValue : Value) (args : List Value)
  | other (operands : List Value)
deriving DecidableEq, Repr

namespace Instruction

def operands : Instruction → List Value
  | call calledValue args => calledValue :: args
  | other operands => operands

def dataOperands : Instruction → List Value
  | call _ args => args
  | other operands => operands

end Instruction

/-- The constants of a module and the instructions of all functions. No constant is made of itself,
so the aliases are acyclic, and what is called is a pointer. -/
structure Module where
  constants : List Constant
  instructions : List Instruction
  acyclic : ∃ rank : Nat → Nat, ∀ c, ∀ part ∈ (constants.getD c .null).parts, rank part < rank c
  aliasee_isPointer : ∀ c aliasee interposable,
    constants.getD c .null = .globalAlias aliasee interposable →
      (constants.getD aliasee .null).isPointer = true
  called_isPointer : ∀ c args, .call (.constant c) args ∈ instructions →
    (constants.getD c .null).isPointer = true

namespace Module

variable (m : Module)

def constant (c : Nat) : Constant := m.constants.getD c .null

def isFunction (c : Nat) : Bool := (m.constant c).isFunction

end Module

section DirectCallTarget

variable (stripPointerCasts : Nat → Nat) (m : Module) (moduleIsFullyLinked : Bool)

/-- Behind the loop: the assertion and `NULL`. -/
def unresolved (viaConstantExpr : Bool) : Except Unit (Option Nat) :=
  if viaConstantExpr then .error () else .ok none

/-- Walk through aliases and casts, for a number of steps. An error is the failed assertion. -/
def walk : Nat → Value → Bool → Option (Except Unit (Option Nat))
  | 0, _, _ => none
  | fuel + 1, .constant c, viaConstantExpr =>
    match m.constant c with
    | .function _ => some (.ok (some c))
    | .globalAlias aliasee interposable =>
      if moduleIsFullyLinked || !interposable then walk fuel (.constant aliasee) viaConstantExpr
      else some (unresolved viaConstantExpr)
    | .constantExpr _ operand _ => walk fuel (.constant (stripPointerCasts operand)) true
    | _ => some (unresolved viaConstantExpr)
  | _ + 1, _, viaConstantExpr => some (unresolved viaConstantExpr)

def getDirectCallTarget (fuel : Nat) (calledValue : Value) : Option (Except Unit (Option Nat)) :=
  walk stripPointerCasts m moduleIsFullyLinked fuel calledValue false

end DirectCallTarget

section Escapes

inductive User where
  | instruction (i : Instruction)
  | constant (c : Nat)

variable (m : Module)

def users (v : Nat) : List User :=
  (m.instructions.filter fun i => .constant v ∈ i.operands).map .instruction ++
    ((List.range m.constants.length).filter fun c => v ∈ (m.constant c).operands).map .constant

def userOnlyCalls (onlyCalled : Nat → Option Bool) (v : Nat) : User → Option Bool
  | .instruction (.call _ args) => some (.constant v ∉ args)
  | .instruction (.other _) => some false
  | .constant c =>
    match m.constant c with
    | .constantExpr .bitCast _ _ => onlyCalled c
    | .globalAlias aliasee _ => if v = aliasee then onlyCalled c else some true
    | .blockAddress _ => some true
    | _ => some false

def allUsers (check : User → Option Bool) : List User → Option Bool
  | [] => some true
  | user :: users =>
    match check user with
    | none => none
    | some false => some false
    | some true => allUsers check users

def valueIsOnlyCalled : Nat → Nat → Option Bool
  | 0, _ => none
  | fuel + 1, v => allUsers (userOnlyCalls m (valueIsOnlyCalled fuel) v) (users m v)

def functionEscapes (fuel : Nat) (f : Nat) : Option Bool := (valueIsOnlyCalled m fuel f).map not

end Escapes

end Klee.CallTarget
