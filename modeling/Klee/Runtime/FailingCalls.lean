import Klee.Runtime.Fd

/-! The calls that fail when `klee_init_fds` is told so: `read`, `write`, `close`, `ftruncate`,
`getcwd`, `chmod` and `fchmod`, on symbolic files and on others. -/
namespace Klee.Posix

inductive FailingCall
  | read | write | close | ftruncate | getcwd | chmod | fchmod
deriving DecidableEq

/-- `__exe_env` and `__exe_fs`. `fail` are the pointers `read_fail` to `fchmod_fail`, and what they
point to; `nCalls` are the counters in the functions. -/
structure FaultEnv where
  env : Env
  fail : FailingCall → Option Int
  nCalls : FailingCall → Int
  /-- `geteuid() == st_uid` -/
  isOwner : DiskId → Bool
  /-- `getgid() == st_gid` -/
  inGroup : DiskId → Bool

inductive FaultErrno
  | EIO | ERANGE
deriving DecidableEq

/-- How a call returns: with a failure that is asked for, as in `Ret`, with what the operating
system says, or with `EPERM` -/
inductive Answer
  | injected (errno : FaultErrno)
  | ret (r : Ret)
  | system (r : Int)
  | EPERM
deriving DecidableEq

def Answer.isInjected : Answer → Bool
  | injected _ => true
  | _ => false

inductive FaultStop
  | nullPointer
  | other (s : Stop)
deriving DecidableEq

abbrev FaultResult := Except FaultStop (Answer × FaultEnv)

namespace FaultEnv

variable (s : FaultEnv)

/-- `n_calls++` -/
def count (k : FailingCall) : FaultEnv :=
  { s with nCalls := Function.update s.nCalls k (s.nCalls k + 1) }

/-- `if (__exe_fs.max_failures && *__exe_fs.k_fail == n_calls)` -/
def inject (k : FailingCall) (errno : FaultErrno) (rest : FaultResult) : FaultResult :=
  if s.env.maxFailures = 0 then rest
  else
    match s.fail k with
    | none => .error .nullPointer
    | some n =>
      if n = s.nCalls k then
        .ok (.injected errno, { s with env := { s.env with maxFailures := s.env.maxFailures - 1 } })
      else rest

/-- A part of a call that is as in `Env` -/
def inEnv : Result → FaultResult
  | .error stop => .error (.other stop)
  | .ok (r, e) => .ok (.ret r, { s with env := e })

def error (errno : Errno) : FaultResult := .ok (.ret (.error errno), s)

/-- Where the operating system reads or writes, the offset moves; a standard stream has none. -/
def advance (i : Fin maxFds) (isStream : Int → Bool) (r : Int) : FaultEnv :=
  let f := s.env.fds i
  if isStream f.fd then s
  else { s with env := s.env.setFd i { f with off := f.off + BitVec.ofInt 64 r } }

/-- `read`; `r` is what the operating system returns, if it is asked. -/
def read (fd : Int) (null : Bool) (count : BitVec 64) (r : Int) : FaultResult :=
  let s := s.count .read
  if count = 0 then .ok (.ret (.value 0 []), s)
  else if null then s.error .EFAULT
  else
    match s.env.getFile fd with
    | none => s.error .EBADF
    | some i => s.inject .read FaultErrno.EIO <|
      match (s.env.fds i).dfile with
      | none =>
        if r = -1 then .ok (.system r, s) else .ok (.system r, s.advance i (· == 0) r)
      | some d => s.inEnv (readSymbolic s.env i d count)

def write (fd : Int) (buf : Nat → Byte) (count : BitVec 64) (r : Int) : FaultResult :=
  let s := s.count .write
  match s.env.getFile fd with
  | none => s.error .EBADF
  | some i => s.inject .write FaultErrno.EIO <|
    match (s.env.fds i).dfile with
    | none =>
      if r = -1 then .ok (.system r, s)
      else if r < 0 then .error (.other .assertion)
      else .ok (.system r, s.advance i (fun fd => fd == 1 || fd == 2) r)
    | some d => s.inEnv (writeSymbolic s.env i d buf count)

def close (fd : Int) : FaultResult :=
  let s := s.count .close
  match s.env.getFile fd with
  | none => s.error .EBADF
  | some i => s.inject .close FaultErrno.EIO (s.inEnv (.ok (.value 0 [], s.env.setFd i .zero)))

/-- `__fd_ftruncate` -/
def ftruncate (fd : Int) (r : Int) : FaultResult :=
  let s := s.count .ftruncate
  match s.env.getFile fd with
  | none => s.error .EBADF
  | some i => s.inject .ftruncate FaultErrno.EIO <|
    match (s.env.fds i).dfile with
    | none => .ok (.system r, s)
    | some _ => s.error Errno.EIO

def getcwd (r : Int) : FaultResult :=
  let s := s.count .getcwd
  s.inject .getcwd .ERANGE (.ok (.system r, s))

def S_ISGID : BitVec 32 := 0x400

def dfChmod (d : DiskId) (mode : BitVec 32) : FaultResult :=
  if s.isOwner d then
    let mode := if s.inGroup d then mode else mode &&& ~~~S_ISGID
    let df := s.env.disk d
    s.inEnv (.ok (.value 0 [], s.env.setDisk d
      { df with st_mode := (df.st_mode &&& ~~~0xfff) ||| (mode &&& 0xfff) }))
  else .ok (.EPERM, s)

def chmod (path : CString) (mode : BitVec 32) (r : Int) : FaultResult :=
  let dfile := s.env.getSymFile path
  let s := s.count .chmod
  s.inject .chmod FaultErrno.EIO <|
    match dfile with
    | some d => s.dfChmod d mode
    | none => .ok (.system r, s)

def fchmod (fd : Int) (mode : BitVec 32) (r : Int) : FaultResult :=
  match s.env.getFile fd with
  | none => s.error .EBADF
  | some i =>
    let s := s.count .fchmod
    s.inject .fchmod FaultErrno.EIO <|
      match (s.env.fds i).dfile with
      | some d => s.dfChmod d mode
      | none => .ok (.system r, s)

end FaultEnv

inductive FaultCall
  | read (fd : Int) (null : Bool) (count : BitVec 64) (r : Int)
  | write (fd : Int) (buf : Nat → Byte) (count : BitVec 64) (r : Int)
  | close (fd : Int)
  | ftruncate (fd : Int) (r : Int)
  | getcwd (r : Int)
  | chmod (path : CString) (mode : BitVec 32) (r : Int)
  | fchmod (fd : Int) (mode : BitVec 32) (r : Int)

namespace FaultEnv

def step (s : FaultEnv) : FaultCall → FaultResult
  | .read fd null count r => s.read fd null count r
  | .write fd buf count r => s.write fd buf count r
  | .close fd => s.close fd
  | .ftruncate fd r => s.ftruncate fd r
  | .getcwd r => s.getcwd r
  | .chmod path mode r => s.chmod path mode r
  | .fchmod fd mode r => s.fchmod fd mode r

structure Transition where
  before : FaultEnv
  answer : Answer
  after : FaultEnv

def run : FaultEnv → List FaultCall → List Transition × Option FaultStop
  | _, [] => ([], none)
  | s, c :: cs =>
    match s.step c with
    | .error stop => ([], some stop)
    | .ok (answer, s') =>
      let (ts, stop) := run s' cs
      (⟨s, answer, s'⟩ :: ts, stop)

end FaultEnv

/-- The arguments of `klee_init_fds`, with the values that are made symbolic -/
structure FaultArgs extends InitArgs where
  ftruncateFail : Int
  getcwdFail : Int
  isOwner : DiskId → Bool
  inGroup : DiskId → Bool

/-- The pointers that `klee_init_fds` sets; the others stay as they are in a global variable. -/
def FaultArgs.fail (a : FaultArgs) : FailingCall → Option Int
  | .read => if a.maxFailures = 0 then none else some a.readFail
  | .write => if a.maxFailures = 0 then none else some a.writeFail
  | .close => if a.maxFailures = 0 then none else some a.closeFail
  | .ftruncate => if a.maxFailures = 0 then none else some a.ftruncateFail
  | .getcwd => if a.maxFailures = 0 then none else some a.getcwdFail
  | .chmod => none
  | .fchmod => none

def FaultArgs.init (a : FaultArgs) : FaultEnv :=
  ⟨a.toInitArgs.init, a.fail, fun _ => 0, a.isOwner, a.inGroup⟩

end Klee.Posix

/-! The failures that are asked for: which pointers are followed, how many calls fail, and what is
left behind. -/
namespace Klee.Posix

namespace FaultEnv

variable {s s' : FaultEnv} {c : FaultCall}

section Parts

/-- A part of a call that has nothing to do with the failures that are asked for -/
structure Plain (s : FaultEnv) (r : FaultResult) : Prop where
  pointer : r ≠ .error .nullPointer
  answer : ∀ a s', r = .ok (a, s') →
    a.isInjected = false ∧ s'.env.maxFailures = s.env.maxFailures ∧ s'.fail = s.fail

theorem plain_ok {a : Answer} (ha : a.isInjected = false)
    (hmax : s'.env.maxFailures = s.env.maxFailures) (hfail : s'.fail = s.fail) :
    Plain s (.ok (a, s')) := by
  refine ⟨nofun, fun a' t h => ?_⟩
  cases h
  exact ⟨ha, hmax, hfail⟩

theorem plain_stop (stop : Stop) : Plain s (.error (.other stop)) := by
  refine ⟨fun h => ?_, fun a t h => ?_⟩ <;> cases h

theorem plain_inEnv {r : Result} (h : ∀ x e, r = .ok (x, e) → e.maxFailures = s.env.maxFailures) :
    Plain s (s.inEnv r) := by
  cases r with
  | error stop => exact plain_stop stop
  | ok p => exact plain_ok rfl (h p.1 p.2 rfl) rfl

theorem maxFailures_readSymbolic {e e' : Env} {i : Fin maxFds} {d : DiskId} {count : BitVec 64}
    {r : Ret} (h : readSymbolic e i d count = .ok (r, e')) : e'.maxFailures = e.maxFailures := by
  unfold readSymbolic at h
  dsimp only at h
  split_ifs at h
  · cases h
    rfl
  all_goals
    split at h <;> cases h
    rfl

theorem maxFailures_countStdout {e : Env} {d : DiskId} {count : BitVec 64} :
    (e.countStdout d count).maxFailures = e.maxFailures := by
  unfold Env.countStdout
  split_ifs <;> rfl

theorem maxFailures_writeSymbolic {e e' : Env} {i : Fin maxFds} {d : DiskId} {buf : Nat → Byte}
    {count : BitVec 64} {r : Ret} (h : writeSymbolic e i d buf count = .ok (r, e')) :
    e'.maxFailures = e.maxFailures := by
  unfold writeSymbolic at h
  dsimp only at h
  split_ifs at h
  all_goals
    split at h <;> cases h
    exact maxFailures_countStdout

theorem plain_dfChmod {d : DiskId} {mode : BitVec 32} : Plain s (s.dfChmod d mode) := by
  unfold dfChmod
  by_cases howner : s.isOwner d
  · rw [if_pos howner]
    refine plain_inEnv fun x e h => ?_
    cases h
    rfl
  · rw [if_neg howner]
    exact plain_ok rfl rfl rfl

@[simp] theorem env_count (k : FailingCall) : (s.count k).env = s.env := rfl

@[simp] theorem fail_count (k : FailingCall) : (s.count k).fail = s.fail := rfl

/-- A counter is nothing that a part keeps. -/
theorem plain_count {k : FailingCall} {r : FaultResult} (h : Plain (s.count k) r) : Plain s r :=
  ⟨h.pointer, h.answer⟩

theorem plain_advance {i : Fin maxFds} {isStream : Int → Bool} {r : Int} :
    Plain s (.ok (.system r, s.advance i isStream r)) := by
  unfold advance
  dsimp only
  split_ifs <;> exact plain_ok rfl rfl rfl

end Parts

section Steps

def checks (s : FaultEnv) : FaultCall → Option FailingCall
  | .read fd null count _ =>
    if count ≠ 0 ∧ null = false ∧ (s.env.getFile fd).isSome then some .read else none
  | .write fd _ _ _ => if (s.env.getFile fd).isSome then some .write else none
  | .close fd => if (s.env.getFile fd).isSome then some .close else none
  | .ftruncate fd _ => if (s.env.getFile fd).isSome then some .ftruncate else none
  | .getcwd _ => some .getcwd
  | .chmod _ _ _ => some .chmod
  | .fchmod fd _ _ => if (s.env.getFile fd).isSome then some .fchmod else none

/-- What a call can do: it comes to no check, or to its own, with its counter counted. -/
theorem step_cases (s : FaultEnv) (c : FaultCall) :
    (s.checks c = none ∧ Plain s (s.step c)) ∨
      ∃ k errno rest, s.checks c = some k ∧ Plain s rest ∧
        s.step c = (s.count k).inject k errno rest := by
  cases c with
  | read fd null count r =>
    simp only [checks, step, read]
    by_cases hcount : count = 0
    · exact .inl ⟨by simp [hcount], by rw [if_pos hcount]; exact plain_ok rfl rfl rfl⟩
    rw [if_neg hcount]
    cases null with
    | true => exact .inl ⟨by simp, plain_ok rfl rfl rfl⟩
    | false =>
      rw [if_neg Bool.false_ne_true]
      cases hfile : s.env.getFile fd with
      | none => exact .inl ⟨by simp, by rw [env_count, hfile]; exact plain_ok rfl rfl rfl⟩
      | some i =>
        refine .inr ⟨.read, _, _, if_pos ⟨hcount, rfl, rfl⟩, plain_count (k := .read) ?_,
          by rw [env_count, hfile]⟩
        cases (s.env.fds i).dfile with
        | none =>
          dsimp only
          split_ifs
          · exact plain_ok rfl rfl rfl
          · exact plain_advance
        | some d => exact plain_inEnv fun _ _ => maxFailures_readSymbolic
  | write fd buf count r =>
    simp only [checks, step, write]
    cases hfile : s.env.getFile fd with
    | none => exact .inl ⟨by simp, by rw [env_count, hfile]; exact plain_ok rfl rfl rfl⟩
    | some i =>
      refine .inr ⟨.write, _, _, by simp, plain_count (k := .write) ?_, by rw [env_count, hfile]⟩
      cases (s.env.fds i).dfile with
      | none =>
        dsimp only
        split_ifs
        · exact plain_ok rfl rfl rfl
        · exact plain_stop .assertion
        · exact plain_advance
      | some d => exact plain_inEnv fun _ _ => maxFailures_writeSymbolic
  | close fd =>
    simp only [checks, step, close]
    cases hfile : s.env.getFile fd with
    | none => exact .inl ⟨by simp, by rw [env_count, hfile]; exact plain_ok rfl rfl rfl⟩
    | some i =>
      refine .inr ⟨.close, _, _, by simp, ?_, by rw [env_count, hfile]⟩
      exact plain_ok rfl rfl rfl
  | ftruncate fd r =>
    simp only [checks, step, ftruncate]
    cases hfile : s.env.getFile fd with
    | none => exact .inl ⟨by simp, by rw [env_count, hfile]; exact plain_ok rfl rfl rfl⟩
    | some i =>
      refine .inr ⟨.ftruncate, _, _, by simp, ?_, by rw [env_count, hfile]⟩
      cases (s.env.fds i).dfile with
      | none => exact plain_ok rfl rfl rfl
      | some d => exact plain_ok rfl rfl rfl
  | getcwd r =>
    refine .inr ⟨.getcwd, .ERANGE, .ok (.system r, s.count .getcwd), rfl, ?_, rfl⟩
    exact plain_ok rfl rfl rfl
  | chmod path mode r =>
    refine .inr ⟨.chmod, _, _, rfl, ?_, rfl⟩
    cases s.env.getSymFile path with
    | none => exact plain_ok rfl rfl rfl
    | some d => exact plain_count plain_dfChmod
  | fchmod fd mode r =>
    simp only [checks, step, fchmod]
    cases hfile : s.env.getFile fd with
    | none => exact .inl ⟨by simp, plain_ok rfl rfl rfl⟩
    | some i =>
      refine .inr ⟨.fchmod, _, _, by simp, ?_, rfl⟩
      cases ((s.count .fchmod).env.fds i).dfile with
      | none => exact plain_ok rfl rfl rfl
      | some d => exact plain_count plain_dfChmod

def failed (s : FaultEnv) : FaultEnv :=
  { s with env := { s.env with maxFailures := s.env.maxFailures - 1 } }

theorem inject_of_none {k : FailingCall} {errno : FaultErrno} {rest : FaultResult}
    (hmax : s.env.maxFailures ≠ 0) (hfail : s.fail k = none) :
    s.inject k errno rest = .error .nullPointer := by
  rw [inject, if_neg hmax, hfail]

theorem inject_of_some {k : FailingCall} (errno : FaultErrno) (rest : FaultResult) {n : Int}
    (hfail : s.fail k = some n) : s.inject k errno rest = rest ∨
      s.env.maxFailures ≠ 0 ∧ s.inject k errno rest = .ok (.injected errno, s.failed) := by
  unfold inject
  by_cases hmax : s.env.maxFailures = 0
  · exact .inl (if_pos hmax)
  · rw [if_neg hmax, hfail]
    dsimp only
    by_cases hn : n = s.nCalls k
    · exact .inr ⟨hmax, if_pos hn⟩
    · exact .inl (if_neg hn)

/-- A pointer that is not set is followed exactly by a call that comes to its check while some
failures are left. -/
theorem step_eq_nullPointer : s.step c = .error .nullPointer ↔
    s.env.maxFailures ≠ 0 ∧ ∃ k, s.checks c = some k ∧ s.fail k = none := by
  rcases s.step_cases c with ⟨hchecks, hplain⟩ | ⟨k, errno, rest, hchecks, hplain, hstep⟩
  · refine iff_of_false hplain.pointer ?_
    rintro ⟨-, k, hk, -⟩
    cases hchecks.symm.trans hk
  · have hk : (∃ k, s.checks c = some k ∧ s.fail k = none) ↔ s.fail k = none := by
      rw [hchecks]
      simp
    rw [hk, hstep]
    constructor
    · intro h
      by_cases hmax : s.env.maxFailures = 0
      · rw [inject, env_count, if_pos hmax] at h
        exact absurd h hplain.pointer
      · refine ⟨hmax, ?_⟩
        cases hfail : s.fail k with
        | none => rfl
        | some n =>
          rcases inject_of_some errno rest (s := s.count k) hfail with hrest | ⟨-, hfailed⟩
          · exact absurd (hrest.symm.trans h) hplain.pointer
          · cases hfailed.symm.trans h
    · rintro ⟨hmax, hfail⟩
      exact inject_of_none hmax hfail

/-- What a call that returns does to the failures that are left, and what it leaves if it was made
to fail -/
structure Returned (s : FaultEnv) (a : Answer) (s' : FaultEnv) : Prop where
  fail : s'.fail = s.fail
  maxFailures : s'.env.maxFailures + (if a.isInjected then 1 else 0) = s.env.maxFailures
  fds : a.isInjected → s'.env.fds = s.env.fds
  disk : a.isInjected → s'.env.disk = s.env.disk

theorem Plain.returned {r : FaultResult} {a : Answer} (h : Plain s r) (heq : r = .ok (a, s')) :
    Returned s a s' := by
  obtain ⟨ha, hmax, hfail⟩ := h.answer a s' heq
  exact ⟨hfail, by simp [ha, hmax], by simp [ha], by simp [ha]⟩

theorem step_returned {a : Answer} (h : s.step c = .ok (a, s')) : Returned s a s' := by
  rcases s.step_cases c with ⟨-, hplain⟩ | ⟨k, errno, rest, -, hplain, hstep⟩
  · exact hplain.returned h
  · rw [hstep] at h
    cases hfail : s.fail k with
    | none =>
      by_cases hmax : s.env.maxFailures = 0
      · rw [inject, env_count, if_pos hmax] at h
        exact hplain.returned h
      · rw [inject_of_none (s := s.count k) hmax hfail] at h
        cases h
    | some n =>
      rcases inject_of_some errno rest (s := s.count k) hfail with hrest | ⟨hmax, hfailed⟩
      · exact hplain.returned (hrest.symm.trans h)
      · cases hfailed.symm.trans h
        exact ⟨rfl, Nat.succ_pred_eq_of_ne_zero hmax, fun _ => rfl, fun _ => rfl⟩

end Steps

section Runs

/-- `chmod`, and `fchmod` of an open descriptor -/
def ChangesMode (s : FaultEnv) : FaultCall → Prop
  | .chmod _ _ _ => True
  | .fchmod fd _ _ => (s.env.getFile fd).isSome
  | _ => False

def Avoids : FaultEnv → List FaultCall → Prop
  | _, [] => True
  | s, c :: cs => ¬ (s.env.maxFailures ≠ 0 ∧ s.ChangesMode c) ∧
      ∀ a s', s.step c = .ok (a, s') → Avoids s' cs

def PointersSet (s : FaultEnv) : Prop :=
  s.env.maxFailures ≠ 0 → ∀ k, s.fail k = none ↔ k = .chmod ∨ k = .fchmod

theorem checks_mode_iff :
    (∃ k, s.checks c = some k ∧ (k = .chmod ∨ k = .fchmod)) ↔ s.ChangesMode c := by
  cases c <;> simp [checks, ChangesMode]

theorem Returned.pointersSet {a : Answer} (h : Returned s a s') (hset : PointersSet s) :
    PointersSet s' := by
  intro hmax k
  rw [h.fail]
  have hle := h.maxFailures
  exact hset (by omega) k

theorem step_eq_nullPointer_iff (hset : PointersSet s) : s.step c = .error .nullPointer ↔
    s.env.maxFailures ≠ 0 ∧ s.ChangesMode c := by
  rw [step_eq_nullPointer]
  refine and_congr_right fun hmax => ?_
  simp only [hset hmax]
  exact checks_mode_iff

theorem run_nullPointer_iff (hset : PointersSet s) (cs : List FaultCall) :
    (run s cs).2 ≠ some .nullPointer ↔ Avoids s cs := by
  induction cs generalizing s with
  | nil => exact iff_of_true nofun trivial
  | cons c cs ih =>
    rw [Avoids, ← step_eq_nullPointer_iff hset, run]
    cases hstep : s.step c with
    | error stop => simp
    | ok p =>
      obtain ⟨a, s'⟩ := p
      have hrest := ih ((step_returned hstep).pointersSet hset)
      simp only [reduceCtorEq, not_false_eq_true, true_and, Except.ok.injEq, Prod.mk.injEq]
      rw [hrest]
      constructor
      · rintro h _ _ ⟨rfl, rfl⟩
        exact h
      · exact fun h => h a s' ⟨rfl, rfl⟩

/-- Each failure takes one from what is left, and leaves the files and descriptors. -/
theorem run_injected (s : FaultEnv) (cs : List FaultCall) :
    (run s cs).1.countP (·.answer.isInjected) ≤ s.env.maxFailures ∧
      ∀ t ∈ (run s cs).1, t.answer.isInjected →
        t.after.env.fds = t.before.env.fds ∧ t.after.env.disk = t.before.env.disk := by
  induction cs generalizing s with
  | nil =>
    rw [run]
    simp
  | cons c cs ih =>
    rw [run]
    cases hstep : s.step c with
    | error stop => simp
    | ok p =>
      obtain ⟨a, s'⟩ := p
      obtain ⟨-, hmax, hfds, hdisk⟩ := step_returned hstep
      obtain ⟨hcount, hall⟩ := ih s'
      dsimp only
      refine ⟨?_, fun t ht => ?_⟩
      · rw [List.countP_cons]
        dsimp only
        omega
      · rcases List.mem_cons.mp ht with rfl | ht
        · exact fun ha => ⟨hfds ha, hdisk ha⟩
        · exact hall t ht

end Runs

end FaultEnv

namespace FaultArgs

/-- What `klee_init_fds` promises for its `max_failures` -/
structure FailuresRight (a : FaultArgs) (cs : List FaultCall) : Prop where
  pointers : (FaultEnv.run a.init cs).2 ≠ some .nullPointer
  atMost : (FaultEnv.run a.init cs).1.countP (·.answer.isInjected) ≤ a.maxFailures
  unchanged : ∀ t ∈ (FaultEnv.run a.init cs).1, t.answer.isInjected →
    t.after.env.fds = t.before.env.fds ∧ t.after.env.disk = t.before.env.disk

theorem pointersSet_init (a : FaultArgs) : a.init.PointersSet := by
  intro hmax k
  have hmax : a.maxFailures ≠ 0 := hmax
  cases k <;> simp [init, fail, hmax]

/-- One failure is asked for, and there is nothing but `chmod`. -/
def oneFailure : FaultArgs :=
  ⟨⟨0, false, false, false, 1, 1, 1, 1, fun _ => ⟨[], by decide, 0, 0⟩⟩, 1, 1, fun _ => true,
    fun _ => true⟩

theorem not_failuresRight_chmod :
    ¬ FailuresRight oneFailure [.chmod (some [0x41]) 0x180 0] := fun h => h.pointers rfl

/-- `chmod_fail` and `fchmod_fail` are set by nobody, and that is all that goes wrong. -/
theorem failuresRight_iff (a : FaultArgs) (cs : List FaultCall) :
    FailuresRight a cs ↔ a.init.Avoids cs := by
  rw [← FaultEnv.run_nullPointer_iff a.pointersSet_init]
  obtain ⟨hcount, hall⟩ := a.init.run_injected cs
  exact ⟨fun h => h.pointers, fun h => ⟨h, hcount, hall⟩⟩

end FaultArgs

end Klee.Posix
