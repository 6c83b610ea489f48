import Klee.Runtime.FdSpec

/-! Sequences of calls against the reference of the file model. -/
namespace Klee.Posix

instance (flags own mode : BitVec 32) : Decidable (TestRight flags own mode) :=
  inferInstanceAs (Decidable ((_ → _) ∧ (_ → _) ∧ (_ → _)))

section Conditions

variable (own : DiskId → BitVec 32)

instance (e : Env) (pathname : CString) (flags : BitVec 32) :
    Decidable (OpenFine own e pathname flags) :=
  decidable_of_iff
    (e.freeFd.isSome → ∀ d ∈ e.getSymFile pathname, flags &&& O_EXCL = 0 →
      TestRight flags (own d) (e.disk d).st_mode)
    ⟨fun h d hfree hd => h hfree d hd, fun h hfree d hd => h d hfree hd⟩

instance (e : Env) (basefd : Int) : Decidable (BaseFine e basefd) :=
  inferInstanceAs (Decidable (_ ∨ ∃ _, _ ∧ _))

instance (e : Env) (fd : Int) (null : Bool) (count : BitVec 64) :
    Decidable (ReadFine e fd null count) :=
  decidable_of_iff
    (null = false → ∀ i ∈ e.getFile fd, ∀ d ∈ (e.fds i).dfile,
      (e.fds i).off.toNat ≤ (e.disk d).contents.length →
        (e.fds i).off.toNat + count.toNat < 2 ^ 64)
    ⟨fun h hnull i d hi hd => h hnull i hi d hd, fun h hnull i hi d hd => h hnull i d hi hd⟩

instance (e : Env) (fd : Int) (count : BitVec 64) : Decidable (WriteFine e fd count) :=
  decidable_of_iff
    (∀ i ∈ e.getFile fd, ∀ d ∈ (e.fds i).dfile, (e.fds i).off.toNat + count.toNat < 2 ^ 63)
    ⟨fun h i d hi hd => h i hi d hd, fun h i hi d hd => h i d hi hd⟩

instance (e : Env) (oldfd newfd : Int) : Decidable (Dup2Fine e oldfd newfd) :=
  inferInstanceAs (Decidable (_ → _))

instance (e : Env) : (c : Call) → Decidable (Fine own e c)
  | .open pathname flags _ => inferInstanceAs (Decidable (OpenFine own e pathname flags))
  | .openat basefd pathname flags _ =>
    inferInstanceAs (Decidable (BaseFine e basefd → OpenFine own e pathname flags))
  | .read fd null count => inferInstanceAs (Decidable (ReadFine e fd null count))
  | .write fd _ count => inferInstanceAs (Decidable (WriteFine e fd count))
  | .dup2 oldfd newfd => inferInstanceAs (Decidable (Dup2Fine e oldfd newfd))
  | .close _ | .lseek _ _ _ | .dup _ => isTrue trivial

def FineRun : Env → List Call → Prop
  | _, [] => True
  | e, c :: cs => Fine own e c ∧ match step e c with
    | .ok (_, e) => FineRun e cs
    | .error _ => True

instance : (e : Env) → (cs : List Call) → Decidable (FineRun own e cs)
  | _, [] => isTrue trivial
  | e, c :: cs => by
    have hrec (x : Result) : Decidable (match x with
        | .ok (_, e) => FineRun own e cs
        | .error _ => True) :=
      match x with
      | .ok (_, e) => instDecidableFineRun e cs
      | .error _ => isTrue trivial
    exact @instDecidableAnd _ _ _ (hrec (step e c))

end Conditions

theorem InitArgs.inv_init (a : InitArgs) (hmax : a.maxFailures = 0)
    (hsave : a.saveAllWrites = false) : Inv a.init where
  maxFailures := hmax
  saveAllWrites := hsave
  off_lt := by
    intro i _
    have hoff : (a.init.fds i).off = 0 := by
      simp only [InitArgs.init, initialFds]
      split_ifs <;> rfl
    rw [hoff]
    decide

/-- The calls of a run agree with the reference one by one. -/
theorem run_agrees {own : DiskId → BitVec 32} {e : Env} {cs : List Call} (h : Inv e)
    (hfine : FineRun own e cs) :
    (run e cs).results = ((e.abs own).run cs).results ∧
      (run e cs).state.abs own = ((e.abs own).run cs).state ∧
      (run e cs).stop = ((e.abs own).run cs).stop := by
  induction cs generalizing e with
  | nil => exact ⟨rfl, rfl, rfl⟩
  | cons c cs ih =>
    have hc := (step_agrees_iff h c).mpr hfine.1
    have hrest := hfine.2
    simp only [run, FileSystem.run]
    cases hstep : step e c with
    | error s =>
      rw [hstep] at hc
      cases s with
      | system =>
        cases href : (e.abs own).step c with
        | none => exact ⟨rfl, rfl, rfl⟩
        | some p => rw [href] at hc; exact hc.elim
      | outOfBounds => exact hc.elim
      | assertion => exact hc.elim
    | ok p =>
      obtain ⟨r, e'⟩ := p
      rw [hstep] at hc hrest
      cases href : (e.abs own).step c with
      | none => rw [href] at hc; exact hc.elim
      | some p =>
        obtain ⟨r', s⟩ := p
        rw [href] at hc
        obtain ⟨rfl, rfl, hinv⟩ := agrees_ok.mp hc
        have hih := ih hinv hrest
        exact ⟨congrArg (r :: ·) hih.1, hih.2.1, hih.2.2⟩

/-- The reference never leaves an array and has nothing to assert. -/
theorem FileSystem.run_stop (s : FileSystem) (cs : List Call) :
    (s.run cs).stop = none ∨ (s.run cs).stop = some .system := by
  induction cs generalizing s with
  | nil => exact .inl rfl
  | cons c cs ih =>
    simp only [FileSystem.run]
    cases s.step c with
    | none => exact .inr rfl
    | some p => exact ih p.2

/-- The permission bits that the files are made with. -/
def InitArgs.own (a : InitArgs) (d : DiskId) : BitVec 32 := (a.init.disk d).st_mode

/-- A sequence of calls whose steps all meet the condition has the results of files of a fixed
size with an offset for each descriptor, and their contents; no access leaves a file. -/
theorem files_refine (a : InitArgs) (hmax : a.maxFailures = 0) (hsave : a.saveAllWrites = false)
    (cs : List Call) (hfine : FineRun a.own a.init cs) :
    (run a.init cs).results = ((a.init.abs a.own).run cs).results ∧
      (run a.init cs).state.abs a.own = ((a.init.abs a.own).run cs).state ∧
      (run a.init cs).stop = ((a.init.abs a.own).run cs).stop ∧
      (run a.init cs).stop ≠ some .outOfBounds ∧ (run a.init cs).stop ≠ some .assertion := by
  obtain ⟨hresults, hstate, hstop⟩ := run_agrees (a.inv_init hmax hsave) hfine
  have hsys := (a.init.abs a.own).run_stop cs
  rw [hstop]
  refine ⟨hresults, hstate, rfl, ?_, ?_⟩ <;>
  · cases hsys with
    | inl h => rw [h]; decide
    | inr h => rw [h]; decide

/-- One file `A` of three bytes with the mode 0644 -/
def oneFile : InitArgs where
  nFiles := 1
  symStdin := false
  symStdout := false
  saveAllWrites := false
  maxFailures := 0
  readFail := 0
  writeFail := 0
  closeFail := 0
  disk _ := ⟨[1, 2, 3], by decide, 0x1a4, 1⟩

/-- `A` is written over its end and the descriptor is duplicated, moved and closed. -/
def someCalls : List Call :=
  [.open (some [65]) (O_WRONLY ||| O_CREAT) 0x1a4, .lseek 3 2 SEEK_SET, .write 3 (fun _ => 9) 2,
    .dup 3, .dup2 4 7, .lseek 7 (-3) SEEK_CUR, .read 7 false 9, .close 3]

theorem files_refine_someCalls : FineRun oneFile.own oneFile.init someCalls ∧
    (run oneFile.init someCalls).results = ((oneFile.init.abs oneFile.own).run someCalls).results ∧
    (run oneFile.init someCalls).state.abs oneFile.own = ((oneFile.init.abs oneFile.own).run someCalls).state ∧
    (run oneFile.init someCalls).stop = ((oneFile.init.abs oneFile.own).run someCalls).stop ∧
    (run oneFile.init someCalls).stop ≠ some .outOfBounds ∧
    (run oneFile.init someCalls).stop ≠ some .assertion :=
  have hfine : FineRun oneFile.own oneFile.init someCalls := by decide +kernel
  ⟨hfine, files_refine oneFile rfl rfl someCalls hfine⟩

/-- A readable and writeable file is not opened for both, the first open takes its permission bits
away, a read of very many bytes at offset 1 leaves the contents, and `dup2` of a descriptor on
itself closes it. -/
theorem files_differ :
    (run oneFile.init [.open (some [65]) O_RDWR 0]).results = [.error .EACCES] ∧
      ((oneFile.init.abs oneFile.own).run [.open (some [65]) O_RDWR 0]).results = [.value 3 []] ∧
      (run oneFile.init [.open (some [65]) O_WRONLY 0, .open (some [65]) O_WRONLY 0]).results =
        [.value 3 [], .error .EACCES] ∧
      ((oneFile.init.abs oneFile.own).run
        [.open (some [65]) O_WRONLY 0, .open (some [65]) O_WRONLY 0]).results =
          [.value 3 [], .value 4 []] ∧
      (run oneFile.init [.open (some [65]) O_RDONLY 0, .lseek 3 1 SEEK_SET,
        .read 3 false (-1)]).stop = some .outOfBounds ∧
      (run oneFile.init [.dup2 1 1, .close 1]).results = [.value 1 [], .error .EBADF] ∧
      ((oneFile.init.abs oneFile.own).run [.dup2 1 1, .close 1]).results = [.value 1 [], .value 0 []] := by
  decide +kernel

end Klee.Posix
