import Klee.Lib.Pointwise
import Klee.Runtime.InitEnv

/-! When `klee_init_env` sets up what the options ask for. -/
namespace Klee.InitEnv

open Pointwise

variable {choices : Choices} {st st' : State} {args : List String}

section Groups

inductive Group where
  | symArg (n : String)
  | symArgs (min max n : String)
  | symFiles (num n : String)
  | symStdin (n : String)
  | symStdout
  | saveAllWrites
  | fdFail
  | boutFile
  | maxFail (n : String)
  | program (arg : String)
  /-- An option at the end that lacks an argument -/
  | incomplete (msg : String)

def groupsOf : List String → List Group
  | [] => []
  | arg :: args =>
    if isOption arg "--sym-arg" "-sym-arg" then
      match args with
      | [] => [.incomplete symArgMsg]
      | n :: args => .symArg n :: groupsOf args
    else if isOption arg "--sym-args" "-sym-args" then
      match args with
      | min :: max :: n :: args => .symArgs min max n :: groupsOf args
      | _ => [.incomplete symArgsMsg]
    else if isOption arg "--sym-files" "-sym-files" then
      match args with
      | num :: n :: args => .symFiles num n :: groupsOf args
      | _ => [.incomplete symFilesMsg]
    else if isOption arg "--sym-stdin" "-sym-stdin" then
      match args with
      | [] => [.incomplete symStdinMsg]
      | n :: args => .symStdin n :: groupsOf args
    else if isOption arg "--sym-stdout" "-sym-stdout" then .symStdout :: groupsOf args
    else if isOption arg "--save-all-writes" "-save-all-writes" then
      .saveAllWrites :: groupsOf args
    else if isOption arg "--fd-fail" "-fd-fail" then .fdFail :: groupsOf args
    else if isOption arg "--bout-file" "-bout-file" then
      match args with
      | [] => [.boutFile]
      | _ :: args => .boutFile :: groupsOf args
    else if isOption arg "--max-fail" "-max-fail" then
      match args with
      | [] => [.incomplete maxFailMsg]
      | n :: args => .maxFail n :: groupsOf args
    else .program arg :: groupsOf args

def execute (choices : Choices) (st : State) : Group → Except Stop State
  | .symArg n => symArg st n
  | .symArgs min max n => symArgs choices st min max n
  | .symFiles num n => symFiles st num n
  | .symStdin n => symStdin st n
  | .symStdout => .ok { st with symStdoutFlag := true }
  | .saveAllWrites => .ok { st with saveAllWritesFlag := true }
  | .fdFail => .ok { st with fdFail := 1 }
  | .boutFile => .ok st
  | .maxFail n => maxFail st n
  | .program arg => addArg st (.copied arg)
  | .incomplete msg => .error (.userError msg)

def executeAll (choices : Choices) : State → List Group → Except Stop State
  | st, [] => .ok st
  | st, g :: gs => (execute choices st g).bind fun st => executeAll choices st gs

theorem loop_eq (choices : Choices) (st : State) (args : List String) :
    loop choices st args = executeAll choices st (groupsOf args) := by
  fun_induction groupsOf args generalizing st with
  | case1 => rfl
  | _ =>
    rw [loop.eq_def]
    simp_all [executeAll, execute, Except.bind]

end Groups

section Meaning

def numeral (s : String) : Nat := s.toList.foldl (fun r c => r * 10 + (c.toNat - '0'.toNat)) 0

/-- What is asked for: an argument as it is, or a symbolic one of a length. -/
inductive Request where
  | copied (s : String)
  | symbolic (length : Nat)

/-- A symbolic argument has one byte more than its length, and that is the terminating 0. -/
def Arg.Is : Arg → Request → Prop
  | copied s, .copied s' => s = s'
  | symbolic s, .symbolic length => s.size = length + 1 ∧ s.zeroAt = length
  | _, _ => False

/-- What takes the place of the options, by the values of `n_args`. -/
def requested : List Group → List Int → List Request
  | [], _ => []
  | .symArg n :: gs, counts => .symbolic (numeral n) :: requested gs counts
  | .symArgs _ _ n :: gs, count :: counts =>
    List.replicate count.toNat (.symbolic (numeral n)) ++ requested gs counts
  | .program arg :: gs, counts => .copied arg :: requested gs counts
  | _ :: gs, counts => requested gs counts

/-- A number of arguments is at least `MIN` and at most `MAX`. -/
def CountsRight : List Group → List Int → Prop
  | [], _ => True
  | .symArgs min max _ :: gs, count :: counts =>
    numeral min ≤ count ∧ count ≤ numeral max ∧ CountsRight gs counts
  | _ :: gs, counts => CountsRight gs counts

def Arg.name : Arg → Option (List Char)
  | copied _ => none
  | symbolic s => some s.name

/-- What the options ask for, behind them a null pointer, and names of their own. -/
def Right (argv : List String) (finalArgv : List (Option Arg)) (counts : List Int) : Prop :=
  ∃ args : List Arg, finalArgv = args.map some ++ [none] ∧
    List.Forall₂ Arg.Is args (requested (groupsOf argv) counts) ∧
    CountsRight (groupsOf argv) counts ∧ (args.filterMap Arg.name).Nodup ∧
    (∀ name ∈ args.filterMap Arg.name, ∃ i < 100, name = symArgName i) ∧
    (args.filterMap Arg.name).length ≤ 100 ∧ args.length ≤ argcMax

/-- A length is below `INT_MAX` where there is an argument of it, and `MIN` is an `int`. -/
def FineGroup (choices : Choices) (k : Nat) : Group → Prop
  | .symArg n => numeral n < 2 ^ 31 - 1
  | .symArgs min max n => numeral min < 2 ^ 31 ∧
      ∀ nArgs, kleeRange choices k (BitVec.ofNat 32 (numeral min)).toInt
        (BitVec.ofNat 32 (numeral max) + 1).toInt = .ok nArgs →
          nArgs ≤ 0 ∨ numeral n < 2 ^ 31 - 1
  | _ => True

def Group.ranges : Group → Nat
  | symArgs _ _ _ => 1
  | _ => 0

def Fine (choices : Choices) : Nat → List Group → Prop
  | _, [] => True
  | k, g :: gs => FineGroup choices k g ∧ Fine choices (k + g.ranges) gs

end Meaning

section Numbers

theorem strToIntFrom_spec (msg : String) (s : List Char) (r : Nat) :
    strToIntFrom msg (BitVec.ofNat 64 r) s = .error (.userError msg) ∨
    strToIntFrom msg (BitVec.ofNat 64 r) s =
      .ok (BitVec.ofNat 64 (s.foldl (fun r c => r * 10 + (c.toNat - '0'.toNat)) r)) := by
  induction s generalizing r with
  | nil => exact .inr rfl
  | cons c s ih =>
    by_cases hdigit : '0' ≤ c ∧ c ≤ '9'
    · have hstep : BitVec.ofNat 64 r * 10 + BitVec.ofNat 64 (c.toNat - '0'.toNat) =
          BitVec.ofNat 64 (r * 10 + (c.toNat - '0'.toNat)) := by
        rw [BitVec.ofNat_add, BitVec.ofNat_mul]
        rfl
      rw [strToIntFrom, if_pos hdigit, hstep]
      exact ih _
    · exact .inl (by rw [strToIntFrom, if_neg hdigit])

/-- The number without the bits that an `unsigned` does not have -/
theorem strToInt_spec (s msg : String) :
    strToInt s msg = .error (.userError msg) ∨
      strToInt s msg = .ok (BitVec.ofNat 32 (numeral s)) := by
  unfold strToInt
  split_ifs with hempty
  · exact .inl rfl
  · rcases strToIntFrom_spec msg s.toList 0 with h | h
    · exact .inl (congrArg (Except.map _) h)
    · refine .inr ((congrArg (Except.map _) h).trans (congrArg Except.ok ?_))
      rw [BitVec.setWidth_ofNat_of_le (by decide)]
      rfl

theorem toNat_signExtend_succ (v : BitVec 32) :
    ((v + 1).signExtend 64).toNat =
      (v.toNat + 1) % 2 ^ 32 + if 2 ^ 31 ≤ (v.toNat + 1) % 2 ^ 32 then 2 ^ 64 - 2 ^ 32 else 0 := by
  have hnext : (v + 1).toNat = (v.toNat + 1) % 2 ^ 32 := by rw [BitVec.toNat_add]; rfl
  have hle : (v.toNat + 1) % 2 ^ 32 < 2 ^ 64 := by omega
  rw [BitVec.toNat_signExtend, BitVec.toNat_setWidth, BitVec.msb_eq_decide, hnext,
    Nat.mod_eq_of_lt hle]
  simp only [decide_eq_true_eq]

/-- From `INT_MAX` on there is no buffer, or it has no byte for the terminating 0. -/
theorem getSymStr_spec (v : BitVec 32) (name : List Char) :
    v.toNat < 2 ^ 31 - 1 ∧ getSymStr v name = .ok ⟨name, v.toNat + 1, v.toNat⟩ ∨
      2 ^ 31 - 1 ≤ v.toNat ∧ (getSymStr v name = .error .nullPointer ∨
        getSymStr v name = .error .outOfBounds) := by
  have hv := v.isLt
  have hint := v.toInt_eq_toNat_cond
  by_cases hsmall : v.toNat < 2 ^ 31 - 1
  · refine .inl ⟨hsmall, ?_⟩
    have hsize : ((v + 1).signExtend 64).toNat = v.toNat + 1 := by
      rw [toNat_signExtend_succ, if_neg (by omega)]
      omega
    rw [if_pos (by omega)] at hint
    simp only [getSymStr, hsize, hint]
    rw [if_neg (by omega), if_pos (by omega)]
  · refine .inr ⟨by omega, ?_⟩
    by_cases hlast : v.toNat = 2 ^ 32 - 1
    · have hsize : ((v + 1).signExtend 64).toNat = 0 := by
        rw [toNat_signExtend_succ, hlast]
        rfl
      simp only [getSymStr, hsize]
      rw [if_neg (by omega), if_neg (by omega)]
      exact .inr rfl
    · have hsize : 2 ^ 63 ≤ ((v + 1).signExtend 64).toNat := by
        rw [toNat_signExtend_succ, if_pos (by omega)]
        omega
      exact .inl (if_pos hsize)

end Numbers

section Buffers

/-- The arguments that `n` turns of a loop add -/
def buffers (v num n : Nat) : List Arg :=
  (List.range' num n).map fun i => .symbolic ⟨symArgName i, v + 1, v⟩

theorem buffers_succ (v num n : Nat) :
    buffers v num (n + 1) = .symbolic ⟨symArgName num, v + 1, v⟩ :: buffers v (num + 1) n := rfl

@[simp] theorem buffers_length (v num n : Nat) : (buffers v num n).length = n := by
  simp [buffers]

theorem buffers_name (v num n : Nat) :
    (buffers v num n).filterMap Arg.name = (List.range' num n).map symArgName := by
  induction n generalizing num with
  | zero => rfl
  | succ n ih =>
    rw [buffers_succ, List.range'_succ, List.map_cons, ← ih (num + 1)]
    rfl

theorem buffers_is (v num n length : Nat) :
    List.Forall₂ Arg.Is (buffers v num n) (List.replicate n (.symbolic length)) ↔
      n = 0 ∨ v = length := by
  induction n generalizing num with
  | zero => exact iff_of_true .nil (.inl rfl)
  | succ n ih =>
    rw [buffers_succ, List.replicate_succ, List.forall₂_cons, ih]
    simp only [Arg.Is]
    omega

/-- `n` symbolic arguments of a length are added, unless the user is told of an error; only from
`INT_MAX` on another error stops the loop. -/
def Adds (v n : Nat) (st : State) : Except Stop State → Prop
  | .error (.userError _) => True
  | .error _ => 0 < n ∧ 2 ^ 31 - 1 ≤ v
  | .ok st' => (0 < n → v < 2 ^ 31 - 1) ∧ (st.newArgv.length ≤ argcMax →
      st'.newArgv.length ≤ argcMax) ∧ st'.newArgv = st.newArgv ++ buffers v st.symArgNum n ∧
      st'.symArgNum = st.symArgNum + n ∧ st'.nArgs = st.nArgs

theorem addSymStr_adds (maxLen : BitVec 32) (st : State) :
    Adds maxLen.toNat 1 st (addSymStr maxLen st) := by
  unfold addSymStr
  rcases getSymStr_spec maxLen (symArgName st.symArgNum) with ⟨hsmall, hget⟩ | ⟨hlarge, hget⟩
  · rw [hget]
    simp only [Except.bind, addArg]
    split_ifs with hfull
    · trivial
    · refine ⟨fun _ => hsmall, fun hle => ?_, rfl, rfl, rfl⟩
      rw [List.length_append]
      exact lt_of_le_of_ne hle hfull
  · rcases hget with hget | hget
    all_goals
      rw [hget]
      exact ⟨Nat.one_pos, hlarge⟩

theorem addSymStrs_adds (maxLen : BitVec 32) (n : Nat) (st : State) :
    Adds maxLen.toNat n st (addSymStrs maxLen n st) := by
  induction n generalizing st with
  | zero => exact ⟨fun h => absurd h (by decide), id, (List.append_nil _).symm, rfl, rfl⟩
  | succ n ih =>
    have hfirst := addSymStr_adds maxLen st
    rw [addSymStrs]
    cases hadd : addSymStr maxLen st with
    | error stop =>
      rw [hadd] at hfirst
      cases stop with
      | userError msg => trivial
      | nullPointer => exact ⟨Nat.succ_pos n, hfirst.2⟩
      | outOfBounds => exact ⟨Nat.succ_pos n, hfirst.2⟩
    | ok st₁ =>
      rw [hadd] at hfirst
      obtain ⟨hsmall, hlength, hargv, hnum, hcounts⟩ := hfirst
      have hrest := ih st₁
      simp only [Except.bind]
      cases hadds : addSymStrs maxLen n st₁ with
      | error stop =>
        rw [hadds] at hrest
        cases stop with
        | userError msg => trivial
        | nullPointer => exact ⟨Nat.succ_pos n, hrest.2⟩
        | outOfBounds => exact ⟨Nat.succ_pos n, hrest.2⟩
      | ok st₂ =>
        rw [hadds] at hrest
        obtain ⟨-, hlength₂, hargv₂, hnum₂, hcounts₂⟩ := hrest
        refine ⟨fun _ => hsmall Nat.one_pos, hlength₂ ∘ hlength, ?_, ?_, hcounts₂.trans hcounts⟩
        · rw [hargv₂, hargv, hnum, List.append_assoc]
          rfl
        · rw [hnum₂, hnum, Nat.add_right_comm, Nat.add_assoc]

end Buffers

section Invariant

/-- The names so far are the first ones, and the arguments are in `new_argv`. -/
structure Inv (st : State) : Prop where
  names : st.newArgv.filterMap Arg.name = (List.range st.symArgNum).map symArgName
  num_le : st.symArgNum ≤ 100
  length_le : st.newArgv.length ≤ argcMax

theorem Inv.init : Inv .init := ⟨rfl, by decide, by decide⟩

theorem Inv.buffers {v n : Nat} (hinv : Inv st) (hnum : st.symArgNum + n ≤ 100)
    (hargv : st'.newArgv = st.newArgv ++ buffers v st.symArgNum n)
    (hnum' : st'.symArgNum = st.symArgNum + n) (hlength : st'.newArgv.length ≤ argcMax) :
    Inv st' := by
  refine ⟨?_, hnum' ▸ hnum, hlength⟩
  rw [hargv, hnum', List.filterMap_append, hinv.names, buffers_name, ← List.map_append,
    List.range_eq_range', List.range_eq_range', ← List.range'_append_1, Nat.zero_add]

/-- What the groups come to from a state: they ask for what they add exactly if they are fine, and
what stops the loop without an error of the user is not fine. -/
def Outcome (choices : Choices) (st : State) (gs : List Group) : Except Stop State → Prop
  | .error (.userError _) => True
  | .error _ => ¬ Fine choices st.nArgs.length gs
  | .ok st' => Inv st' ∧ ∃ out counts, st'.newArgv = st.newArgv ++ out ∧
      st'.nArgs = st.nArgs ++ counts ∧ counts.length = (gs.map Group.ranges).sum ∧
      out.length = (requested gs counts).length ∧
      (Fine choices st.nArgs.length gs ↔
        List.Forall₂ Arg.Is out (requested gs counts) ∧ CountsRight gs counts)

/-- A group that asks for nothing and leaves the arguments alone -/
theorem Outcome.quiet {g : Group} (hinv : Inv st) (hranges : g.ranges = 0)
    (hrequested : requested [g] [] = []) (hcounts : CountsRight [g] [])
    (hfine : FineGroup choices st.nArgs.length g) (hargv : st'.newArgv = st.newArgv)
    (hnum : st'.symArgNum = st.symArgNum) (hnargs : st'.nArgs = st.nArgs) :
    Outcome choices st [g] (.ok st') := by
  refine ⟨⟨?_, ?_, ?_⟩, [], [], ?_, ?_, ?_, ?_, ?_⟩
  · rw [hargv, hnum, hinv.names]
  · exact hnum ▸ hinv.num_le
  · exact hargv ▸ hinv.length_le
  · rw [hargv, List.append_nil]
  · rw [hnargs, List.append_nil]
  · simp [hranges]
  · rw [hrequested]
    rfl
  · rw [hrequested]
    exact iff_of_true ⟨hfine, trivial⟩ ⟨.nil, hcounts⟩

theorem symArg_outcome (hinv : Inv st) (n : String) :
    Outcome choices st [.symArg n] (symArg st n) := by
  unfold symArg
  rcases strToInt_spec n symArgMsg with hn | hn
  · rw [hn]
    trivial
  · rw [hn]
    simp only [Except.bind]
    split_ifs with hmany
    · trivial
    · have hadds := addSymStr_adds (BitVec.ofNat 32 (numeral n)) st
      rw [BitVec.toNat_ofNat] at hadds
      cases hadd : addSymStr (BitVec.ofNat 32 (numeral n)) st with
      | error stop =>
        rw [hadd] at hadds
        have hlarge (h : 2 ^ 31 - 1 ≤ numeral n % 2 ^ 32) :
            ¬ Fine choices st.nArgs.length [.symArg n] := fun hfine =>
          absurd (h.trans (Nat.mod_le ..)) (Nat.not_le.mpr hfine.1)
        cases stop with
        | userError msg => trivial
        | nullPointer => exact hlarge hadds.2
        | outOfBounds => exact hlarge hadds.2
      | ok st' =>
        rw [hadd] at hadds
        obtain ⟨hsmall, hlength, hargv, hnum, hcounts⟩ := hadds
        refine ⟨hinv.buffers (by omega) hargv hnum (hlength hinv.length_le), _, [], hargv,
          by rw [hcounts, List.append_nil], rfl, buffers_length .., ?_⟩
        have his := buffers_is (numeral n % 2 ^ 32) st.symArgNum 1 (numeral n)
        simp only [Fine, FineGroup, and_true, requested, CountsRight]
        rw [List.replicate_one] at his
        rw [his]
        have := hsmall Nat.one_pos
        omega

/-- A symbolic number of arguments is between the `unsigned` numbers, unless it is negative. -/
theorem kleeRange_spec {k : Nat} {start stop n : Int} (h : kleeRange choices k start stop = .ok n) :
    start ≤ n ∧ n < stop := by
  unfold kleeRange at h
  split_ifs at h with hempty hone
  · cases h
    omega
  · cases h
    exact choices.inRange k start stop (by omega)

/-- What the numbers of `-sym-args` are where none of its checks fails: with a `MIN` from
`INT_MAX + 1` on, there is no symbolic argument. -/
theorem counts_spec {min max : BitVec 32} {num : Nat} {n : Int} (hnum : num ≤ 100)
    (hle : ¬ max < min) (hmany : ¬ 99 < (BitVec.ofNat 32 num + max).toNat)
    (hlow : min.toInt ≤ n) (hhigh : n < (max + 1).toInt) :
    n < 0 ∧ 2 ^ 31 ≤ min.toNat ∨
      0 ≤ n ∧ num + n.toNat ≤ 100 ∧ (min.toNat : Int) ≤ n ∧ n ≤ max.toNat := by
  have hmin := min.isLt
  have hmax := max.isLt
  have hnext : (max + 1).toNat = (max.toNat + 1) % 2 ^ 32 := by rw [BitVec.toNat_add]; rfl
  have hsum : (BitVec.ofNat 32 num + max).toNat = (num + max.toNat) % 2 ^ 32 := by
    rw [BitVec.toNat_add, BitVec.toNat_ofNat, Nat.mod_add_mod]
  have hle' : min.toNat ≤ max.toNat := Nat.not_lt.mp hle
  rw [hsum] at hmany
  rw [BitVec.toInt_eq_toNat_cond] at hlow hhigh
  rw [hnext] at hhigh
  split_ifs at hlow hhigh <;> omega

/-- The loop of `-sym-args` for a number of arguments in the range -/
theorem addSymStrs_outcome (hinv : Inv st) {min max n : String} {nArgs : Int}
    (hrange : kleeRange choices st.nArgs.length (BitVec.ofNat 32 (numeral min)).toInt
      (BitVec.ofNat 32 (numeral max) + 1).toInt = .ok nArgs)
    (hcounts : nArgs < 0 ∧ 2 ^ 31 ≤ numeral min % 2 ^ 32 ∨ 0 ≤ nArgs ∧
      st.symArgNum + nArgs.toNat ≤ 100 ∧ ((numeral min % 2 ^ 32 : Nat) : Int) ≤ nArgs ∧
      nArgs ≤ (numeral max % 2 ^ 32 : Nat)) {r : Except Stop State}
    (hadds : Adds (numeral n % 2 ^ 32) nArgs.toNat { st with nArgs := st.nArgs ++ [nArgs] } r) :
    Outcome choices st [.symArgs min max n] r := by
  have hminMod := Nat.mod_le (numeral min) (2 ^ 32)
  have hmaxMod := Nat.mod_le (numeral max) (2 ^ 32)
  have hmod := Nat.mod_le (numeral n) (2 ^ 32)
  have hfine : Fine choices st.nArgs.length [.symArgs min max n] ↔
      numeral min < 2 ^ 31 ∧ (nArgs ≤ 0 ∨ numeral n < 2 ^ 31 - 1) := by
    simp only [Fine, FineGroup, hrange, Except.ok.injEq, forall_eq', and_true]
  have hlarge (h : 0 < nArgs.toNat ∧ 2 ^ 31 - 1 ≤ numeral n % 2 ^ 32) :
      ¬ Fine choices st.nArgs.length [.symArgs min max n] := by
    rw [hfine]
    omega
  cases r with
  | error stop =>
    cases stop with
    | userError msg => trivial
    | nullPointer => exact hlarge hadds
    | outOfBounds => exact hlarge hadds
  | ok st' =>
    obtain ⟨hsmall, hlength, hargv, hnum, hnArgs⟩ := hadds
    have hfits : st.symArgNum + nArgs.toNat ≤ 100 := by have := hinv.num_le; omega
    refine ⟨hinv.buffers hfits hargv hnum (hlength hinv.length_le), _, [nArgs], hargv, hnArgs, rfl,
      ?_, ?_⟩
    · simp [requested]
    · have his := buffers_is (numeral n % 2 ^ 32) st.symArgNum nArgs.toNat (numeral n)
      simp only [requested, List.append_nil, CountsRight, and_true]
      rw [hfine, his]
      omega

theorem symArgs_outcome (hinv : Inv st) (min max n : String) :
    Outcome choices st [.symArgs min max n] (symArgs choices st min max n) := by
  unfold symArgs
  rcases strToInt_spec min symArgsMsg with hmin | hmin <;> rw [hmin]
  · trivial
  rcases strToInt_spec max symArgsMsg with hmax | hmax <;> rw [hmax]
  · trivial
  rcases strToInt_spec n symArgsMsg with hn | hn <;> rw [hn]
  · trivial
  simp only [Except.bind]
  by_cases hinvalid : BitVec.ofNat 32 (numeral max) < BitVec.ofNat 32 (numeral min) ∨
      BitVec.ofNat 32 (numeral min) = 0 ∧ BitVec.ofNat 32 (numeral max) = 0
  · rw [if_pos hinvalid]
    trivial
  · rw [if_neg hinvalid]
    cases hrange : kleeRange choices st.nArgs.length (BitVec.ofNat 32 (numeral min)).toInt
        (BitVec.ofNat 32 (numeral max) + 1).toInt with
    | error stop =>
      unfold kleeRange at hrange
      split_ifs at hrange
      cases hrange
      trivial
    | ok nArgs =>
      obtain ⟨hlow, hhigh⟩ := kleeRange_spec hrange
      dsimp only
      split_ifs with hmany
      · trivial
      · have hcounts := counts_spec hinv.num_le (not_or.mp hinvalid).1 hmany hlow hhigh
        have hadds := addSymStrs_adds (BitVec.ofNat 32 (numeral n)) nArgs.toNat
          { st with nArgs := st.nArgs ++ [nArgs] }
        simp only [BitVec.toNat_ofNat] at hcounts hadds
        exact addSymStrs_outcome hinv hrange hcounts hadds

/-- A turn of the loop -/
theorem execute_outcome (hinv : Inv st) (g : Group) :
    Outcome choices st [g] (execute choices st g) := by
  cases g with
  | symArg n => exact symArg_outcome hinv n
  | symArgs min max n => exact symArgs_outcome hinv min max n
  | symFiles num n =>
    change Outcome choices st _ (symFiles st num n)
    unfold symFiles
    split_ifs with hfiles
    · trivial
    rcases strToInt_spec num symFilesMsg with hnum | hnum <;> rw [hnum]
    · trivial
    rcases strToInt_spec n symFilesMsg with hn | hn <;> rw [hn]
    · trivial
    simp only [Except.bind]
    split_ifs with hnum₀ hn₀
    · trivial
    · trivial
    · exact .quiet hinv rfl rfl trivial trivial rfl rfl rfl
  | symStdin n =>
    change Outcome choices st _ (symStdin st n)
    unfold symStdin
    rcases strToInt_spec n symStdinMsg with hn | hn <;> rw [hn]
    · trivial
    · exact .quiet hinv rfl rfl trivial trivial rfl rfl rfl
  | symStdout => exact .quiet hinv rfl rfl trivial trivial rfl rfl rfl
  | saveAllWrites => exact .quiet hinv rfl rfl trivial trivial rfl rfl rfl
  | fdFail => exact .quiet hinv rfl rfl trivial trivial rfl rfl rfl
  | boutFile => exact .quiet hinv rfl rfl trivial trivial rfl rfl rfl
  | maxFail n =>
    change Outcome choices st _ (maxFail st n)
    unfold maxFail
    rcases strToInt_spec n maxFailMsg with hn | hn <;> rw [hn]
    · trivial
    · exact .quiet hinv rfl rfl trivial trivial rfl rfl rfl
  | program arg =>
    change Outcome choices st _ (addArg st (.copied arg))
    unfold addArg
    split_ifs with hfull
    · trivial
    · refine ⟨⟨?_, hinv.num_le, ?_⟩, [.copied arg], [], rfl, (List.append_nil _).symm, rfl, rfl, ?_⟩
      · rw [List.filterMap_append, hinv.names]
        exact List.append_nil _
      · rw [List.length_append]
        exact lt_of_le_of_ne hinv.length_le hfull
      · exact iff_of_true ⟨trivial, trivial⟩ ⟨.cons rfl .nil, trivial⟩
  | incomplete msg => trivial

end Invariant

section Run

theorem requested_cons (g : Group) (gs : List Group) (cs cs' : List Int)
    (h : cs.length = g.ranges) :
    requested (g :: gs) (cs ++ cs') = requested [g] cs ++ requested gs cs' := by
  cases g with
  | symArgs min max n =>
    obtain ⟨c, rfl⟩ := List.length_eq_one_iff.mp h
    simp [requested]
  | _ =>
    obtain rfl := List.length_eq_zero_iff.mp h
    rfl

theorem countsRight_cons (g : Group) (gs : List Group) (cs cs' : List Int)
    (h : cs.length = g.ranges) :
    CountsRight (g :: gs) (cs ++ cs') ↔ CountsRight [g] cs ∧ CountsRight gs cs' := by
  cases g with
  | symArgs min max n =>
    obtain ⟨c, rfl⟩ := List.length_eq_one_iff.mp h
    simp [CountsRight, and_assoc]
  | _ =>
    obtain rfl := List.length_eq_zero_iff.mp h
    exact (and_iff_right trivial).symm

/-- A group and those behind it -/
theorem Outcome.cons {g : Group} {gs : List Group}
    (hfirst : Outcome choices st [g] (execute choices st g))
    (hrest : ∀ st', Inv st' → Outcome choices st' gs (executeAll choices st' gs)) :
    Outcome choices st (g :: gs) (executeAll choices st (g :: gs)) := by
  rw [executeAll]
  cases hexec : execute choices st g with
  | error stop =>
    rw [hexec] at hfirst
    cases stop with
    | userError msg => trivial
    | nullPointer => exact fun hfine => hfirst ⟨hfine.1, trivial⟩
    | outOfBounds => exact fun hfine => hfirst ⟨hfine.1, trivial⟩
  | ok st₁ =>
    rw [hexec] at hfirst
    obtain ⟨hinv, out, counts, hargv, hnArgs, hranges, hlength, hiff⟩ := hfirst
    have hcount : counts.length = g.ranges := by simpa using hranges
    have hstart : st₁.nArgs.length = st.nArgs.length + g.ranges := by
      rw [hnArgs, List.length_append, hcount]
    have hfine : Fine choices st.nArgs.length (g :: gs) ↔
        Fine choices st.nArgs.length [g] ∧ Fine choices st₁.nArgs.length gs := by
      simp only [Fine, and_true, hstart]
    have hgs := hrest st₁ hinv
    simp only [Except.bind]
    cases hall : executeAll choices st₁ gs with
    | error stop =>
      rw [hall] at hgs
      cases stop with
      | userError msg => trivial
      | nullPointer => exact fun h => hgs (hfine.mp h).2
      | outOfBounds => exact fun h => hgs (hfine.mp h).2
    | ok st₂ =>
      rw [hall] at hgs
      obtain ⟨hinv₂, out₂, counts₂, hargv₂, hnArgs₂, hranges₂, hlength₂, hiff₂⟩ := hgs
      refine ⟨hinv₂, out ++ out₂, counts ++ counts₂, ?_, ?_, ?_, ?_, ?_⟩
      · rw [hargv₂, hargv, List.append_assoc]
      · rw [hnArgs₂, hnArgs, List.append_assoc]
      · rw [List.length_append, hcount, hranges₂, List.map_cons, List.sum_cons]
      · rw [requested_cons g gs counts counts₂ hcount, List.length_append, List.length_append,
          hlength, hlength₂]
      · rw [hfine, hiff, hiff₂, requested_cons g gs counts counts₂ hcount,
          countsRight_cons g gs counts counts₂ hcount, forall₂_append hlength]
        tauto

/-- The whole loop -/
theorem executeAll_outcome (gs : List Group) (hinv : Inv st) :
    Outcome choices st gs (executeAll choices st gs) := by
  induction gs generalizing st with
  | nil =>
    exact ⟨hinv, [], [], (List.append_nil _).symm, (List.append_nil _).symm, rfl, rfl,
      iff_of_true trivial ⟨.nil, trivial⟩⟩
  | cons g gs ih => exact .cons (execute_outcome hinv g) fun _ hinv => ih hinv

theorem digit_eq {i j : Nat} (hi : i < 10) (hj : j < 10)
    (h : Char.ofNat ('0'.toNat + i) = Char.ofNat ('0'.toNat + j)) : i = j := by
  have hdigit : ∀ i < 10, (Char.ofNat ('0'.toNat + i)).toNat = '0'.toNat + i := by decide
  have hij := congrArg Char.toNat h
  rw [hdigit i hi, hdigit j hj] at hij
  exact Nat.add_left_cancel hij

/-- Two digits tell 100 names apart. -/
theorem symArgName_inj {i j : Nat} (hi : i < 100) (hj : j < 100)
    (h : symArgName i = symArgName j) : i = j := by
  simp only [symArgName, List.cons.injEq, true_and, and_true] at h
  have htens : i / 10 = j / 10 := digit_eq (by omega) (by omega) h.1
  have hones : i % 10 = j % 10 := digit_eq (by omega) (by omega) h.2
  omega

theorem Inv.names_nodup (hinv : Inv st) : (st.newArgv.filterMap Arg.name).Nodup := by
  rw [hinv.names]
  refine List.Nodup.map_on (fun i hi j hj h => ?_) List.nodup_range
  exact symArgName_inj ((List.mem_range.mp hi).trans_le hinv.num_le)
    ((List.mem_range.mp hj).trans_le hinv.num_le) h

theorem Inv.mem_names (hinv : Inv st) : ∀ name ∈ st.newArgv.filterMap Arg.name,
    ∃ i < 100, name = symArgName i := by
  rw [hinv.names]
  intro name hname
  obtain ⟨i, hi, rfl⟩ := List.mem_map.mp hname
  exact ⟨i, (List.mem_range.mp hi).trans_le hinv.num_le, rfl⟩

theorem Inv.names_length (hinv : Inv st) : (st.newArgv.filterMap Arg.name).length ≤ 100 := by
  rw [hinv.names, List.length_map, List.length_range]
  exact hinv.num_le

/-- Where no error of the user is reported, the arguments are set up as the options say exactly if
every length of a symbolic argument is below `INT_MAX` and every `MIN` is an `int`. -/
theorem kleeInitEnv_right_iff (choices : Choices) (argv : List String)
    (hreport : ∀ msg, kleeInitEnv choices argv ≠ .error (.userError msg)) :
    (∃ finalArgv st, kleeInitEnv choices argv = .ok (finalArgv, st) ∧
      Right argv finalArgv st.nArgs) ↔ Fine choices 0 (groupsOf argv) := by
  unfold kleeInitEnv at hreport ⊢
  split_ifs at hreport ⊢ with hhelp
  · exact absurd rfl (hreport usage)
  · have hrun : Outcome choices .init (groupsOf argv) (executeAll choices .init (groupsOf argv)) :=
      executeAll_outcome _ Inv.init
    rw [loop_eq] at hreport ⊢
    cases hall : executeAll choices .init (groupsOf argv) with
    | error stop =>
      rw [hall] at hrun hreport
      have hnot : ¬ Fine choices 0 (groupsOf argv) := by
        cases stop with
        | userError msg => exact absurd rfl (hreport msg)
        | nullPointer => exact hrun
        | outOfBounds => exact hrun
      refine iff_of_false ?_ hnot
      rintro ⟨finalArgv, st, h, -⟩
      cases h
    | ok st =>
      rw [hall] at hrun
      obtain ⟨hinv, out, counts, hargv, hnArgs, -, -, hiff⟩ := hrun
      obtain rfl : st.newArgv = out := hargv
      obtain rfl : st.nArgs = counts := hnArgs
      refine Iff.trans ?_ hiff.symm
      constructor
      · rintro ⟨finalArgv, st', h, args, hfinal, his, hcounts, -⟩
        cases h
        obtain rfl : st.newArgv = args :=
          List.map_injective_iff.mpr (Option.some_injective _) (List.append_cancel_right hfinal)
        exact ⟨his, hcounts⟩
      · rintro ⟨his, hcounts⟩
        exact ⟨_, st, rfl, st.newArgv, rfl, his, hcounts, hinv.names_nodup, hinv.mem_names,
          hinv.names_length, hinv.length_le⟩

end Run

section Inputs

def least : Choices where
  value _ start _ := start
  inRange _ _ _ h := ⟨le_rfl, h⟩

theorem groupsOf_symArg (n : String) :
    groupsOf ["prog", "-sym-arg", n] = [.program "prog", .symArg n] := by
  simp [groupsOf, isOption]

theorem kleeInitEnv_right_symArg :
    (∀ msg, kleeInitEnv least ["prog", "-sym-arg", "3"] ≠ .error (.userError msg)) ∧
    ∃ finalArgv st, kleeInitEnv least ["prog", "-sym-arg", "3"] = .ok (finalArgv, st) ∧
      Right ["prog", "-sym-arg", "3"] finalArgv st.nArgs := by
  have hrun : (kleeInitEnv least ["prog", "-sym-arg", "3"]).map Prod.fst =
      .ok [some (.copied "prog"), some (.symbolic ⟨"arg00".toList, 4, 3⟩), none] := rfl
  have hreport (msg : String) :
      kleeInitEnv least ["prog", "-sym-arg", "3"] ≠ .error (.userError msg) := fun h => by
    rw [h] at hrun
    cases hrun
  refine ⟨hreport, (kleeInitEnv_right_iff least _ hreport).mpr ?_⟩
  rw [groupsOf_symArg]
  exact ⟨trivial, (by decide : numeral "3" < 2 ^ 31 - 1), trivial⟩

/-- A length of `2 ^ 32` gives a buffer of one byte. -/
theorem symArg_wraps : ¬ ∀ choices argv,
    (∃ msg, kleeInitEnv choices argv = .error (.userError msg)) ∨
    ∃ finalArgv st, kleeInitEnv choices argv = .ok (finalArgv, st) ∧
      Right argv finalArgv st.nArgs := by
  intro hclaim
  have hrun : (kleeInitEnv least ["prog", "-sym-arg", "4294967296"]).map Prod.fst =
      .ok [some (.copied "prog"), some (.symbolic ⟨"arg00".toList, 1, 0⟩), none] := rfl
  rcases hclaim least ["prog", "-sym-arg", "4294967296"] with
    ⟨msg, h⟩ | ⟨finalArgv, st, h, args, hfinal, his, -⟩
  · rw [h] at hrun
    cases hrun
  · rw [h] at hrun
    have hargs : args = [.copied "prog", .symbolic ⟨"arg00".toList, 1, 0⟩] :=
      List.map_injective_iff.mpr (Option.some_injective _)
        (List.append_cancel_right (hfinal.symm.trans (Except.ok.inj hrun)))
    rw [groupsOf_symArg, hargs] at his
    rcases his with _ | ⟨-, _ | ⟨his, -⟩⟩
    exact absurd his.2 (by decide)

/-- A length of `2 ^ 32 - 1` writes before a buffer of no bytes. -/
example : (kleeInitEnv least ["prog", "-sym-arg", "4294967295"]).map Prod.fst =
    .error .outOfBounds := rfl

end Inputs

end Klee.InitEnv
