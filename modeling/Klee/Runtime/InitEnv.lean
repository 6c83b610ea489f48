import Mathlib.Tactic

/-! `klee_init_env`, which sets up the arguments of the program. -/
namespace Klee.InitEnv

/-- Why `klee_init_env` does not return: it reports an error of the user, `malloc` returned `NULL`
and it is used, or a byte outside a buffer is written. -/
inductive Stop where
  | userError (msg : String)
  | nullPointer
  | outOfBounds
deriving DecidableEq

/-- A symbolic string: its name, the size of its buffer and where its terminating 0 is. -/
structure SymStr where
  name : List Char
  size : Nat
  zeroAt : Nat
deriving DecidableEq

inductive Arg where
  | copied (s : String)
  | symbolic (s : SymStr)
deriving DecidableEq

/-- The local variables. `newArgv` has `new_argc` entries, and `nArgs` are the symbolic numbers
`n_args` so far. -/
structure State where
  newArgv : List Arg
  symArgNum : Nat
  nArgs : List Int
  symFiles : BitVec 32
  symFileLen : BitVec 32
  symStdinLen : BitVec 32
  symStdoutFlag : Bool
  saveAllWritesFlag : Bool
  fdFail : BitVec 32

def State.init : State := ⟨[], 0, [], 0, 0, 0, false, false, 0⟩

structure Choices where
  value : Nat → Int → Int → Int
  inRange : ∀ k start stop, start < stop →
    start ≤ value k start stop ∧ value k start stop < stop

/-- The size of `new_argv` -/
def argcMax : Nat := 1024

def strToIntFrom (errorMsg : String) : BitVec 64 → List Char → Except Stop (BitVec 64)
  | res, [] => .ok res
  | res, c :: s =>
    if '0' ≤ c ∧ c ≤ '9' then
      strToIntFrom errorMsg (res * 10 + BitVec.ofNat 64 (c.toNat - '0'.toNat)) s
    else .error (.userError errorMsg)

/-- `__str_to_int`, and what is kept of the number in an `unsigned`. -/
def strToInt (s : String) (errorMsg : String) : Except Stop (BitVec 32) :=
  if s.toList = [] then .error (.userError errorMsg)
  else (strToIntFrom errorMsg 0 s.toList).map (BitVec.setWidth 32)

/-- `__get_sym_str`; no object is larger than `PTRDIFF_MAX`. -/
def getSymStr (numChars : BitVec 32) (name : List Char) : Except Stop SymStr :=
  let size := ((numChars + 1).signExtend 64).toNat
  if 2 ^ 63 ≤ size then .error .nullPointer
  else if 0 ≤ numChars.toInt ∧ numChars.toInt < size then .ok ⟨name, size, numChars.toNat⟩
  else .error .outOfBounds

def addArg (st : State) (arg : Arg) : Except Stop State :=
  if st.newArgv.length = argcMax then
    .error (.userError "too many arguments for klee_init_env")
  else .ok { st with newArgv := st.newArgv ++ [arg] }

def symArgName (symArgNum : Nat) : List Char :=
  ['a', 'r', 'g', Char.ofNat ('0'.toNat + symArgNum / 10), Char.ofNat ('0'.toNat + symArgNum % 10)]

/-- `klee_range`; a symbolic integer is the `k`-th one. -/
def kleeRange (choices : Choices) (k : Nat) (start stop : Int) : Except Stop Int :=
  if stop ≤ start then .error (.userError "invalid range")
  else if start + 1 = stop then .ok start
  else .ok (choices.value k start stop)

def addSymStr (maxLen : BitVec 32) (st : State) : Except Stop State :=
  (getSymStr maxLen (symArgName st.symArgNum)).bind fun s =>
    addArg { st with symArgNum := st.symArgNum + 1 } (.symbolic s)

def addSymStrs (maxLen : BitVec 32) : Nat → State → Except Stop State
  | 0, st => .ok st
  | n + 1, st => (addSymStr maxLen st).bind (addSymStrs maxLen n)

def tooManyMsg : String := "No more than 100 symbolic arguments allowed."

def symArgMsg : String := "--sym-arg expects an integer argument <max-len>"

def symArg (st : State) (n : String) : Except Stop State :=
  (strToInt n symArgMsg).bind fun maxLen =>
    if 99 < st.symArgNum then .error (.userError tooManyMsg) else addSymStr maxLen st

def symArgsMsg : String :=
  "--sym-args expects three integer arguments <min-argvs> <max-argvs> <max-len>"

def symArgs (choices : Choices) (st : State) (min max n : String) : Except Stop State :=
  (strToInt min symArgsMsg).bind fun minArgvs =>
    (strToInt max symArgsMsg).bind fun maxArgvs =>
      (strToInt n symArgsMsg).bind fun maxLen =>
        if maxArgvs < minArgvs ∨ minArgvs = 0 ∧ maxArgvs = 0 then
          .error (.userError "Invalid range to --sym-args")
        else
          (kleeRange choices st.nArgs.length minArgvs.toInt (maxArgvs + 1).toInt).bind fun nArgs =>
            if 99 < (BitVec.ofNat 32 st.symArgNum + maxArgvs).toNat then
              .error (.userError tooManyMsg)
            else addSymStrs maxLen nArgs.toNat { st with nArgs := st.nArgs ++ [nArgs] }

def symFilesMsg : String :=
  "--sym-files expects two integer arguments <no-sym-files> <sym-file-len>"

def symFiles (st : State) (num n : String) : Except Stop State :=
  if st.symFiles ≠ 0 then .error (.userError "Multiple --sym-files are not allowed.\n")
  else
    (strToInt num symFilesMsg).bind fun symFiles =>
      (strToInt n symFilesMsg).bind fun symFileLen =>
        if symFiles = 0 then
          .error (.userError
            "The first argument to --sym-files (number of files) cannot be 0\n")
        else if symFileLen = 0 then
          .error (.userError "The second argument to --sym-files (file size) cannot be 0\n")
        else .ok { st with symFiles := symFiles, symFileLen := symFileLen }

def symStdinMsg : String := "--sym-stdin expects one integer argument <sym-stdin-len>"

def symStdin (st : State) (n : String) : Except Stop State :=
  (strToInt n symStdinMsg).map fun symStdinLen => { st with symStdinLen := symStdinLen }

def maxFailMsg : String := "--max-fail expects an integer argument <max-failures>"

def maxFail (st : State) (n : String) : Except Stop State :=
  (strToInt n maxFailMsg).map fun fdFail => { st with fdFail := fdFail }

def isOption (arg : String) (long short : String) : Bool := arg = long || arg = short

def loop (choices : Choices) : State → List String → Except Stop State
  | st, [] => .ok st
  | st, arg :: args =>
    if isOption arg "--sym-arg" "-sym-arg" then
      match args with
      | [] => .error (.userError symArgMsg)
      | n :: args => (symArg st n).bind fun st => loop choices st args
    else if isOption arg "--sym-args" "-sym-args" then
      match args with
      | min :: max :: n :: args => (symArgs choices st min max n).bind fun st => loop choices st args
      | _ => .error (.userError symArgsMsg)
    else if isOption arg "--sym-files" "-sym-files" then
      match args with
      | num :: n :: args => (symFiles st num n).bind fun st => loop choices st args
      | _ => .error (.userError symFilesMsg)
    else if isOption arg "--sym-stdin" "-sym-stdin" then
      match args with
      | [] => .error (.userError symStdinMsg)
      | n :: args => (symStdin st n).bind fun st => loop choices st args
    else if isOption arg "--sym-stdout" "-sym-stdout" then
      loop choices { st with symStdoutFlag := true } args
    else if isOption arg "--save-all-writes" "-save-all-writes" then
      loop choices { st with saveAllWritesFlag := true } args
    else if isOption arg "--fd-fail" "-fd-fail" then loop choices { st with fdFail := 1 } args
    else if isOption arg "--bout-file" "-bout-file" then
      match args with
      | [] => .ok st
      | _ :: args => loop choices st args
    else if isOption arg "--max-fail" "-max-fail" then
      match args with
      | [] => .error (.userError maxFailMsg)
      | n :: args => (maxFail st n).bind fun st => loop choices st args
    else (addArg st (.copied arg)).bind fun st => loop choices st args

def usage : String :=
  "klee_init_env\n\nusage: (klee_init_env) [options] [program arguments]\n" ++
  "  -sym-arg <N>              - Replace by a symbolic argument with length N\n" ++
  "  -sym-args <MIN> <MAX> <N> - Replace by at least MIN arguments and at most\n" ++
  "                              MAX arguments, each with maximum length N\n" ++
  "  -sym-files <NUM> <N>      - Make NUM symbolic files ('A', 'B', 'C', etc.),\n" ++
  "                              each with size N\n" ++
  "  -sym-stdin <N>            - Make stdin symbolic with size N.\n" ++
  "  -sym-stdout               - Make stdout symbolic.\n" ++
  "  -save-all-writes          - Allow write operations to execute as expected\n" ++
  "                              even if they exceed the file size. If set to 0, all\n" ++
  "                              writes exceeding the initial file size are discarded.\n" ++
  "                              Note: file offset is always incremented.\n" ++
  "  -max-fail <N>             - Allow up to N injected failures\n" ++
  "  -fd-fail                  - Shortcut for '-max-fail 1'\n\n"

/-- The new arguments, with the null pointer behind them, and the numbers for `klee_init_fds`. -/
def kleeInitEnv (choices : Choices) (argv : List String) :
    Except Stop (List (Option Arg) × State) :=
  if argv.length = 2 ∧ argv[1]? = some "--help" then .error (.userError usage)
  else (loop choices .init argv).map fun st => (st.newArgv.map some ++ [none], st)

end Klee.InitEnv
