import Mathlib.Tactic

/-! `FunctionAliasPass`. -/
namespace Klee.FunctionAlias

structure FunctionType (Ty : Type) where
  returnType : Ty
  isVarArg : Bool
  params : List Ty

/-- What an alias points to: a global value, a cast of one, or something else. -/
inductive Aliasee where
  | globalValue (v : Nat)
  | cast (v : Nat)
  | other

inductive Kind where
  | function
  | globalAlias (aliasee : Aliasee)
  | globalVariable

/-- A global value without a name has the empty one. The type is that of the function. -/
structure GlobalValue (Ty : Type) where
  name : String
  type : FunctionType Ty
  kind : Kind

/-- The global values, numbered. A new alias that gets the name and the uses of a value gets its
number. -/
abbrev Module (Ty : Type) := List (GlobalValue Ty)

/-- What `klee_error` is called with. -/
inductive Error where
  | noReplacement
  | emptyPattern
  | emptyReplacement
  | itself (pattern : String)
  | notFound (replacement : String)
  | noMatch (pattern : String)
  | invalidRegex (pattern error : String)
deriving DecidableEq, Repr

def Error.message : Error → String
  | noReplacement => "function-alias: no replacement given"
  | emptyPattern => "function-alias: name or pattern cannot be empty"
  | emptyReplacement => "function-alias: replacement cannot be empty"
  | itself pattern => "function-alias: @" ++ pattern ++ " cannot replace itself"
  | notFound replacement =>
    "function-alias: replacement function @" ++ replacement ++ " could not be found"
  | noMatch pattern => "function-alias: no (replacable) match for '" ++ pattern ++ "' found"
  | invalidRegex pattern error =>
    "function-alias: '" ++ pattern ++ "' is not a valid regex: " ++ error

/-- The regular expressions of LLVM: the error of an invalid one, and whether a name is matched as a
whole. -/
structure Regex where
  error : String → Option String
  matchesWhole : String → String → Bool

variable {Ty : Type}

namespace Module

variable (m : Module Ty)

def getNamedValue (name : String) : Option Nat := m.findIdx? fun gv => gv.name = name

def next (v : Nat) : Option Nat :=
  match (m[v]?).map GlobalValue.kind with
  | some (.globalAlias (.globalValue w)) => some w
  | some (.globalAlias (.cast w)) => some w
  | _ => none

end Module

def isFunctionOrGlobalFunctionAlias (m : Module Ty) : Nat → Option Nat → Option Bool
  | 0, _ => none
  | _ + 1, none => some false
  | fuel + 1, some v =>
    match (m[v]?).map GlobalValue.kind with
    | some .function => some true
    | some (.globalAlias (.globalValue w)) => isFunctionOrGlobalFunctionAlias m fuel (some w)
    | some (.globalAlias (.cast w)) => isFunctionOrGlobalFunctionAlias m fuel (some w)
    | _ => some false

variable [DecidableEq Ty]

def checkType (MFT RFT : FunctionType Ty) : Bool :=
  if MFT.returnType ≠ RFT.returnType then false
  else if MFT.isVarArg ≠ RFT.isVarArg then false
  else if MFT.params.length ≠ RFT.params.length then false
  else (List.range MFT.params.length).all fun i => MFT.params[i]? = RFT.params[i]?

def tryToReplace (m : Module Ty) (value replacement : Nat) : Option (Module Ty) :=
  match m[value]?, m[replacement]? with
  | some gv, some rv =>
    if checkType gv.type rv.type then
      some (m.set value { gv with kind := .globalAlias (.globalValue replacement) })
    else none
  | _, _ => none

section Pass

variable (regex : Regex) (globalValues : Module Ty → List Nat)

/-- The matches of a regular expression. The replacement is not one of them. -/
def findMatches (fuel : Nat) (m : Module Ty) (pattern replacement : String) :
    List Nat → Option (List Nat)
  | [] => some []
  | v :: vs =>
    let name := ((m[v]?).map GlobalValue.name).getD ""
    if name = "" then findMatches fuel m pattern replacement vs
    else
      (isFunctionOrGlobalFunctionAlias m fuel (some v)).bind fun isFunction =>
        if isFunction && regex.matchesWhole pattern name && name ≠ replacement then
          (findMatches fuel m pattern replacement vs).map (v :: ·)
        else findMatches fuel m pattern replacement vs

def replaceMatches (replacement : Nat) : Module Ty → List Nat → Module Ty × List Nat
  | m, [] => (m, [])
  | m, v :: vs =>
    match tryToReplace m v replacement with
    | some m =>
      let r := replaceMatches replacement m vs
      (r.1, v :: r.2)
    | none => replaceMatches replacement m vs

/-- `pair.rfind(':')` and the two parts. -/
def splitAtLastColon (pair : String) : Option (String × String) :=
  let behind := pair.toList.reverse.takeWhile (· ≠ ':')
  if behind.length = pair.toList.length then none
  else
    some (String.ofList (pair.toList.take (pair.toList.length - behind.length - 1)),
      String.ofList behind.reverse)

/-- A pass that goes on: the module, the values that are replaced and their replacement. -/
abbrev Replaced (Ty : Type) := Module Ty × List Nat × Nat

def replaceByName (m : Module Ty) (pattern : String) (v replacementValue : Nat)
    (isFunction : Bool) : Except Error (Replaced Ty) :=
  match isFunction, tryToReplace m v replacementValue with
  | true, some m => .ok (m, [v], replacementValue)
  | _, _ => .error (.noMatch pattern)

def replaceByRegex (fuel : Nat) (m : Module Ty) (pattern replacement : String)
    (replacementValue : Nat) : Option (Except Error (Replaced Ty)) :=
  match regex.error pattern with
  | some error => some (.error (.invalidRegex pattern error))
  | none =>
    (findMatches regex fuel m pattern replacement (globalValues m)).map fun vs =>
      let r := replaceMatches replacementValue m vs
      if r.2 = [] then .error (.noMatch pattern) else .ok (r.1, r.2, replacementValue)

def applyOption (fuel : Nat) (m : Module Ty) (pair : String) :
    Option (Except Error (Replaced Ty)) :=
  match splitAtLastColon pair with
  | none => some (.error .noReplacement)
  | some (pattern, replacement) =>
    if pattern = "" then some (.error .emptyPattern)
    else if replacement = "" then some (.error .emptyReplacement)
    else if pattern = replacement then some (.error (.itself pattern))
    else
      (isFunctionOrGlobalFunctionAlias m fuel (m.getNamedValue replacement)).bind fun found =>
        match found, m.getNamedValue replacement with
        | true, some replacementValue =>
          match m.getNamedValue pattern with
          | none => replaceByRegex regex globalValues fuel m pattern replacement replacementValue
          | some v =>
            (isFunctionOrGlobalFunctionAlias m fuel (some v)).map
              (replaceByName m pattern v replacementValue)
        | _, _ => some (.error (.notFound replacement))

/-- `runOnModule`, with the messages of what is replaced. -/
def runOnModule (fuel : Nat) :
    Module Ty → List String → Option (Except Error (Module Ty × List (List Nat × Nat)))
  | m, [] => some (.ok (m, []))
  | m, pair :: options =>
    (applyOption regex globalValues fuel m pair).bind fun r =>
      match r with
      | .error e => some (.error e)
      | .ok (m, replaced) =>
        (runOnModule fuel m options).map fun r => r.map fun s => (s.1, replaced :: s.2)

end Pass

end Klee.FunctionAlias
