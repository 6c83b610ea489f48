import Klee.Runtime.FileSystem

/-! The file model against its reference. -/
namespace Klee.Posix

def ExeFile.abs (f : ExeFile) : Option Descr :=
  if f.IsOpen then some ⟨f.dfile, f.off.toNat⟩ else none

/-- The reference's view of a state, where the files have the permission bits `own`. -/
def Env.abs (own : DiskId → BitVec 32) (e : Env) : FileSystem where
  fds i := (e.fds i).abs
  disk d := { e.disk d with st_mode := own d }
  symFile := e.getSymFile

/-- No call is to fail, writes behind the end of a file are dropped, and the offset of an
open file is not negative. -/
structure Inv (e : Env) : Prop where
  maxFailures : e.maxFailures = 0
  saveAllWrites : e.saveAllWrites = false
  off_lt : ∀ i, (e.fds i).IsOpen → (e.fds i).off.toNat < 2 ^ 63

/-- A call of the runtime answers like the reference and leaves the state that the reference
leaves. -/
def Agrees (own : DiskId → BitVec 32) : Result → Effect → Prop
  | .ok (r, e), some (r', s) => r = r' ∧ e.abs own = s ∧ Inv e
  | .error .system, none => True
  | _, _ => False

section Tables

variable {own : DiskId → BitVec 32} {e : Env} {i : Fin maxFds} {f : ExeFile} {d : DiskId} {df : DiskFile} {fd : Int}

theorem zero_not_open : ¬ ExeFile.zero.IsOpen := by decide

theorem abs_zero : ExeFile.zero.abs = none := if_neg zero_not_open

theorem abs_of_open (h : f.IsOpen) : f.abs = some ⟨f.dfile, f.off.toNat⟩ := if_pos h

theorem abs_eq_none : f.abs = none ↔ ¬ f.IsOpen := by simp [ExeFile.abs]

@[simp] theorem abs_fds : (e.abs own).fds i = (e.fds i).abs := rfl

@[simp] theorem abs_disk : (e.abs own).disk d = { e.disk d with st_mode := own d } := rfl

@[simp] theorem abs_symFile : (e.abs own).symFile = e.getSymFile := rfl

theorem abs_setFd : (e.setFd i f).abs own = (e.abs own).setFd i f.abs := by
  have hfds : (fun j => (Function.update e.fds i f j).abs) =
      Function.update (fun j => (e.fds j).abs) i f.abs := by
    funext j
    by_cases h : j = i
    · subst h; simp
    · simp [h]
  simp only [Env.abs, Env.setFd, FileSystem.setFd, hfds]
  rfl

theorem getSymFile_setDisk (h : df.st_ino = (e.disk d).st_ino) :
    (e.setDisk d df).getSymFile = e.getSymFile := by
  have hino : ∀ i, ((e.setDisk d df).disk (.file i)).st_ino = (e.disk (.file i)).st_ino := by
    intro i
    by_cases hi : DiskId.file i = d
    · subst hi; simp [Env.setDisk, h]
    · simp [Env.setDisk, hi]
  funext p
  simp only [Env.getSymFile, hino]
  rfl

theorem abs_setDisk (h : df.st_ino = (e.disk d).st_ino) :
    (e.setDisk d df).abs own = (e.abs own).setDisk d { df with st_mode := own d } := by
  have hdisk : (fun x => { (e.setDisk d df).disk x with st_mode := own x }) =
      Function.update (fun x => { e.disk x with st_mode := own x }) d
        { df with st_mode := own d } := by
    funext x
    by_cases hx : x = d
    · subst hx
      simp [Env.setDisk]
    · simp [Env.setDisk, hx]
  simp only [Env.abs, FileSystem.setDisk, getSymFile_setDisk h, hdisk]
  rfl

/-- The bits that an open sets are not those of the reference. -/
theorem abs_setMode {st_mode : BitVec 32} :
    (e.setDisk d { e.disk d with st_mode := st_mode }).abs own = e.abs own := by
  have hdisk := @abs_setDisk own e d { e.disk d with st_mode := st_mode } rfl
  rw [hdisk, FileSystem.setDisk]
  exact congrArg (fun disk => { e.abs own with disk := disk }) (Function.update_eq_self d _)

theorem getFile_eq_some :
    e.getFile fd = some i ↔ fdIndex fd = some i ∧ (e.fds i).IsOpen := by
  simp only [Env.getFile]
  cases fdIndex fd with
  | none => simp
  | some j =>
    by_cases hj : (e.fds j).IsOpen
    · simp only [hj, if_true, Option.some.injEq]
      constructor
      · intro h; subst h; exact ⟨rfl, hj⟩
      · exact fun h => h.1
    · simp only [hj, if_false, Option.some.injEq, reduceCtorEq, false_iff]
      rintro ⟨rfl, h⟩
      exact hj h

theorem descr_abs : (e.abs own).descr fd =
    (e.getFile fd).map fun i => (i, ⟨(e.fds i).dfile, (e.fds i).off.toNat⟩) := by
  simp only [FileSystem.descr, Env.getFile]
  cases fdIndex fd with
  | none => rfl
  | some j => by_cases hj : (e.fds j).IsOpen <;> simp [hj, ExeFile.abs]

theorem lowestFree_abs : (e.abs own).lowestFree = e.freeFd := by
  simp only [FileSystem.lowestFree, Env.freeFd, abs_fds, abs_eq_none]

theorem not_open_of_freeFd (h : e.freeFd = some i) : ¬ (e.fds i).IsOpen := by
  simpa using List.find?_some h

/-- The entry of a descriptor that is not open does not matter. -/
theorem abs_setFd_closed (h : ¬ (e.fds i).IsOpen) (hf : ¬ f.IsOpen) :
    (e.setFd i f).abs own = e.abs own := by
  rw [abs_setFd, abs_eq_none.mpr hf, FileSystem.setFd, ← abs_eq_none.mpr h, ← abs_fds,
    Function.update_eq_self]

/-! The counters of calls are no part of the file system. -/

@[simp] theorem abs_countClose : e.countClose.abs own = e.abs own := rfl

@[simp] theorem abs_countRead : e.countRead.abs own = e.abs own := rfl

@[simp] theorem abs_countWrite : e.countWrite.abs own = e.abs own := rfl

theorem abs_countStdout {n : BitVec 64} : (e.countStdout d n).abs own = e.abs own := by
  rw [Env.countStdout]
  split_ifs <;> rfl

@[simp] theorem fds_countRead : e.countRead.fds = e.fds := rfl

@[simp] theorem fds_countWrite : e.countWrite.fds = e.fds := rfl

@[simp] theorem disk_countRead : e.countRead.disk = e.disk := rfl

@[simp] theorem disk_countWrite : e.countWrite.disk = e.disk := rfl

@[simp] theorem getFile_countClose : e.countClose.getFile = e.getFile := rfl

@[simp] theorem getFile_countRead : e.countRead.getFile = e.getFile := rfl

@[simp] theorem getFile_countWrite : e.countWrite.getFile = e.getFile := rfl

@[simp] theorem maxFailures_countClose : e.countClose.maxFailures = e.maxFailures := rfl

@[simp] theorem maxFailures_countRead : e.countRead.maxFailures = e.maxFailures := rfl

@[simp] theorem maxFailures_countWrite : e.countWrite.maxFailures = e.maxFailures := rfl

end Tables

namespace Inv

variable {e : Env} {i : Fin maxFds} {f : ExeFile} {d : DiskId} {df : DiskFile}

theorem setFd (h : Inv e) (hf : f.IsOpen → f.off.toNat < 2 ^ 63) : Inv (e.setFd i f) where
  maxFailures := h.maxFailures
  saveAllWrites := h.saveAllWrites
  off_lt := by
    intro j hj
    by_cases hji : j = i
    · subst hji
      simp only [Env.setFd, Function.update_self] at hj ⊢
      exact hf hj
    · simp only [Env.setFd, Function.update_of_ne hji] at hj ⊢
      exact h.off_lt j hj

theorem countClose (h : Inv e) : Inv e.countClose := ⟨h.maxFailures, h.saveAllWrites, h.off_lt⟩

theorem countRead (h : Inv e) : Inv e.countRead := ⟨h.maxFailures, h.saveAllWrites, h.off_lt⟩

theorem countWrite (h : Inv e) : Inv e.countWrite := ⟨h.maxFailures, h.saveAllWrites, h.off_lt⟩

theorem countStdout {n : BitVec 64} (h : Inv e) : Inv (e.countStdout d n) := by
  rw [Env.countStdout]
  split_ifs
  · exact ⟨h.maxFailures, h.saveAllWrites, h.off_lt⟩
  · exact h

theorem setFd_closed (h : Inv e) (hf : ¬ f.IsOpen) : Inv (e.setFd i f) :=
  h.setFd fun hf' => absurd hf' hf

theorem setDisk (h : Inv e) : Inv (e.setDisk d df) :=
  ⟨h.maxFailures, h.saveAllWrites, h.off_lt⟩

end Inv

/-! Words whose top bit is not set compare alike with and without a sign. -/

theorem toInt_of_lt {x : BitVec 64} (hx : x.toNat < 2 ^ 63) : x.toInt = x.toNat :=
  BitVec.toInt_eq_toNat_of_lt (by omega)

theorem slt_of_lt {x y : BitVec 64} (hx : x.toNat < 2 ^ 63) (hy : y.toNat < 2 ^ 63) :
    x.slt y = decide (x.toNat < y.toNat) := by
  simp [BitVec.slt_eq_decide, toInt_of_lt hx, toInt_of_lt hy]

theorem slt_zero_of_lt {x : BitVec 64} (hx : x.toNat < 2 ^ 63) : x.slt 0 = false := by
  rw [slt_of_lt hx (by decide)]
  simp

theorem toNat_size (df : DiskFile) :
    (df.size.setWidth 64).toNat = df.contents.length := by
  have h := df.size_lt
  simp only [DiskFile.size, BitVec.toNat_setWidth, BitVec.toNat_ofNat]
  omega

theorem toNat_size_lt (df : DiskFile) : (df.size.setWidth 64).toNat < 2 ^ 63 := by
  have h := df.size_lt
  rw [toNat_size]
  omega

/-! Permissions -/

theorem and_accmode (flags : BitVec 32) :
    flags &&& O_ACCMODE = (flags &&& O_WRONLY) ||| (flags &&& O_RDWR) := by
  rw [← BitVec.and_or_distrib_left]
  rfl

theorem read_bits (mode : BitVec 32) :
    (mode &&& S_IRUSR) ||| (mode &&& S_IRGRP) ||| (mode &&& S_IROTH) = mode &&& 0x124 := by
  rw [← BitVec.and_or_distrib_left, ← BitVec.and_or_distrib_left]
  rfl

theorem write_bits (mode : BitVec 32) :
    (mode &&& S_IWUSR) ||| (mode &&& S_IWGRP) ||| (mode &&& S_IWOTH) = mode &&& 0x92 := by
  rw [← BitVec.and_or_distrib_left, ← BitVec.and_or_distrib_left]
  rfl

theorem and_wronly (flags : BitVec 32) :
    flags &&& O_WRONLY = if flags.getLsbD 0 then 1 else 0 := BitVec.and_twoPow flags 0

theorem and_rdwr (flags : BitVec 32) :
    flags &&& O_RDWR = if flags.getLsbD 1 then 2 else 0 := BitVec.and_twoPow flags 1

/-- On such flags the test of `has_permission` of the bits `mode` decides as the bits `own` do. -/
def TestRight (flags own mode : BitVec 32) : Prop :=
  (flags &&& O_ACCMODE = O_RDONLY → own &&& 0x124 ≠ 0) ∧
    (flags &&& O_ACCMODE = O_WRONLY → (mode &&& 0x92 = 0 ↔ own &&& 0x92 = 0)) ∧
    (flags &&& O_RDWR ≠ 0 →
      (mode &&& 0x124 = 0 ∧ mode &&& 0x92 ≠ 0 ↔ own &&& 0x124 ≠ 0 ∧ own &&& 0x92 ≠ 0))

/-- `O_RDONLY` is 0, so the test never sees it; and where it sees a read access it denies what
the bits allow. -/
theorem hasPermission_iff_denied (flags own mode : BitVec 32) :
    (hasPermission flags mode = true ↔ ¬ Denied flags own) ↔ TestRight flags own mode := by
  simp only [hasPermission, read_bits, write_bits, TestRight, Denied, Reads, Writes, and_accmode,
    and_wronly, and_rdwr]
  rw [show flags &&& O_RDONLY = 0 from BitVec.and_zero]
  cases flags.getLsbD 0 <;> cases flags.getLsbD 1 <;> simp [O_RDONLY, O_WRONLY, not_iff_not]

/-! What one call does -/

section Calls

variable {own : DiskId → BitVec 32} {e : Env} {i : Fin maxFds} {d : DiskId} {fd : Int}

theorem agrees_ok {r r' : Ret} {s : FileSystem} :
    Agrees own (.ok (r, e)) (some (r', s)) ↔ r = r' ∧ e.abs own = s ∧ Inv e := Iff.rfl

/-- An open that comes to the permission test, which sees the bits that earlier opens have left. -/
def OpenFine (own : DiskId → BitVec 32) (e : Env) (pathname : CString) (flags : BitVec 32) : Prop :=
  ∀ d, e.freeFd.isSome → e.getSymFile pathname = some d → flags &&& O_EXCL = 0 →
    TestRight flags (own d) (e.disk d).st_mode

/-- A failed open only touches an entry that is not in use. -/
theorem agrees_failed_open (h : Inv e) (hi : ¬ (e.fds i).IsOpen) (errno : Errno) :
    Agrees own (.ok (.error errno, (e.setFd i .zero).setFd i { ExeFile.zero with dfile := some d }))
      (some (.error errno, e.abs own)) := by
  have hd : ¬ ExeFile.IsOpen { ExeFile.zero with dfile := some d } := zero_not_open
  have hset : (e.setFd i .zero).setFd i { ExeFile.zero with dfile := some d } =
      e.setFd i { ExeFile.zero with dfile := some d } := by simp [Env.setFd]
  rw [agrees_ok, hset, abs_setFd_closed hi hd]
  exact ⟨rfl, rfl, h.setFd_closed hd⟩

theorem openFlags_isOpen (fd : Int) (flags : BitVec 32) (off : BitVec 64) (df : Option DiskId) :
    ExeFile.IsOpen ⟨fd, openFlags flags, off, df⟩ := by
  have h : openFlags flags &&& eOpen ≠ 0 := by
    rw [openFlags]
    split_ifs <;> decide
  exact h

/-- The entry of a file that is opened -/
theorem agrees_opened (h : Inv e) {flags st_mode : BitVec 32} :
    let e' := (((e.setFd i .zero).setFd i { ExeFile.zero with dfile := some d }).setDisk d
      { e.disk d with st_mode := st_mode })
    Agrees own (.ok (.value i [], e'.setFd i { e'.fds i with flags := openFlags flags }))
      (some (.value i [], (e.abs own).setFd i (some ⟨some d, 0⟩))) := by
  intro e'
  have hf : e'.fds i = { ExeFile.zero with dfile := some d } := by simp [e', Env.setFd, Env.setDisk]
  have hopen := openFlags_isOpen 0 flags 0 (some d)
  have hset : e'.setFd i { e'.fds i with flags := openFlags flags } =
      (e.setDisk d { e.disk d with st_mode := st_mode }).setFd i ⟨0, openFlags flags, 0, some d⟩ := by
    rw [hf]
    simp [e', Env.setFd, Env.setDisk, ExeFile.zero]
  rw [agrees_ok, hset]
  apply And.intro rfl
  apply And.intro
  · rw [abs_setFd, abs_setMode, abs_of_open hopen]
    rfl
  · exact h.setDisk.setFd fun _ => show (0 : BitVec 64).toNat < 2 ^ 63 by decide

theorem fdOpen_agrees_iff (h : Inv e) (pathname : CString) (flags mode : BitVec 32) :
    Agrees own (fdOpen e pathname flags mode) ((e.abs own).openFile pathname flags) ↔
      OpenFine own e pathname flags := by
  simp only [fdOpen, FileSystem.openFile, lowestFree_abs, OpenFine]
  cases hfree : e.freeFd with
  | none => simpa using agrees_ok.mpr ⟨rfl, rfl, h⟩
  | some i =>
    have hi := not_open_of_freeFd hfree
    have hsym : (e.setFd i .zero).getSymFile pathname = e.getSymFile pathname := rfl
    simp only [hsym, abs_symFile, abs_disk]
    cases e.getSymFile pathname with
    | none => simp [Agrees]
    | some d =>
      have hfail := @agrees_failed_open own e i d h hi
      have htest := hasPermission_iff_denied flags (own d) (e.disk d).st_mode
      have hdisk : (((e.setFd i .zero).setFd i { ExeFile.zero with dfile := some d }).disk d) =
        e.disk d := rfl
      simp only [hdisk, Option.map_some, Option.isSome_some, Option.some.injEq, forall_eq',
        forall_const]
      by_cases hexcl : flags &&& O_EXCL = 0
      · simp only [hexcl, ne_eq, not_true, and_false, false_and, if_false, forall_const,
          show flags &&& O_RDONLY = 0 from BitVec.and_zero]
        rw [← htest]
        by_cases hp : hasPermission flags (e.disk d).st_mode = true <;>
          by_cases hd : Denied flags (own d)
        · simp [hp, hd, Agrees]
        · simp only [hp, hd, Bool.not_true, Bool.false_eq_true, if_false, not_false_iff,
            iff_true]
          exact agrees_opened h
        · simp only [hp, hd, Bool.not_false, if_true, not_true, iff_true,
            Bool.false_eq_true, iff_self]
          exact hfail _
        · simp [hp, hd, Agrees]
      · by_cases hcreat : flags &&& O_CREAT = 0
        · simp only [hexcl, hcreat, ne_eq, not_true, not_false_iff, and_true, and_false,
            if_false, if_true, iff_true, false_implies,
            show flags &&& O_RDONLY = 0 from BitVec.and_zero]
          exact hfail _
        · simp only [hexcl, hcreat, ne_eq, not_false_iff, and_self, if_true, iff_true,
            false_implies]
          exact hfail _

/-- The base of an `openat` is the working directory or a file of the operating system. -/
def BaseFine (e : Env) (basefd : Int) : Prop :=
  basefd = AT_FDCWD ∨ ∃ i, e.getFile basefd = some i ∧ (e.fds i).dfile = none

/-- Without a symbolic file the descriptor is looked for before the system is asked. -/
theorem fdOpenatFile_eq (pathname : CString) (flags mode : BitVec 32) :
    fdOpenatFile e pathname flags mode = fdOpen e pathname flags mode := by
  rw [fdOpenatFile]
  cases hsym : e.getSymFile pathname with
  | some d => rfl
  | none =>
    cases hfree : e.freeFd with
    | none => simp only [fdOpen, hfree]
    | some i =>
      have hsym' : (e.setFd i .zero).getSymFile pathname = none := hsym
      simp only [fdOpen, hfree, hsym']

theorem fdOpenat_agrees_iff (h : Inv e) (basefd : Int) (pathname : CString)
    (flags mode : BitVec 32) :
    Agrees own (fdOpenat e basefd pathname flags mode)
        ((e.abs own).openFileAt basefd pathname flags) ↔
      (BaseFine e basefd → OpenFine own e pathname flags) := by
  have hagrees := @fdOpen_agrees_iff own e h pathname flags mode
  simp only [fdOpenat, fdOpenatFile_eq, FileSystem.openFileAt, BaseFine]
  by_cases hbase : basefd = AT_FDCWD
  · simpa [hbase] using hagrees
  · simp only [hbase, ne_eq, not_false_iff, if_true, if_false, descr_abs, false_or]
    cases hget : e.getFile basefd with
    | none => simpa using agrees_ok.mpr ⟨rfl, rfl, h⟩
    | some i =>
      cases hfile : (e.fds i).dfile with
      | none => simpa [hfile] using hagrees
      | some d => simpa [hfile] using agrees_ok.mpr ⟨rfl, rfl, h⟩

theorem close_agrees (h : Inv e) (fd : Int) :
    Agrees own (close e fd) (some ((e.abs own).closeFile fd)) := by
  simp only [close, FileSystem.closeFile, descr_abs, getFile_countClose, maxFailures_countClose,
    h.maxFailures, ne_eq, not_true, false_and, if_false]
  cases hi : e.getFile fd with
  | none => exact agrees_ok.mpr ⟨rfl, rfl, h.countClose⟩
  | some i =>
    apply agrees_ok.mpr
    rw [abs_setFd, abs_zero]
    exact ⟨rfl, rfl, h.countClose.setFd_closed zero_not_open⟩

/-- The entry of an open descriptor of a symbolic file -/
theorem abs_of_getFile (hi : e.getFile fd = some i) (hd : (e.fds i).dfile = some d) :
    (e.fds i).abs = some ⟨some d, (e.fds i).off.toNat⟩ := by
  rw [abs_of_open (getFile_eq_some.mp hi).2, hd]

/-- Another offset for an open descriptor -/
theorem agrees_moved {e' : Env} {off : BitVec 64} {r : Int} {bs : List Byte} (h : Inv e')
    (hopen : (e.fds i).IsOpen) (hd : (e.fds i).dfile = some d) (hoff : off.toNat < 2 ^ 63) :
    Agrees own (.ok (.value r bs, e'.setFd i { e.fds i with off := off }))
      (some (.value r bs, (e'.abs own).setFd i (some ⟨some d, off.toNat⟩))) := by
  have hf : ExeFile.IsOpen { e.fds i with off := off } := hopen
  apply agrees_ok.mpr
  rw [abs_setFd, abs_of_open hf, hd]
  exact ⟨rfl, rfl, h.setFd fun _ => hoff⟩

/-- The entry of a descriptor tells its new offset, and that it is not negative. -/
theorem offset_of_agrees {e' : Env} {s : FileSystem} {off : BitVec 64} {r r' : Ret}
    {file : Option DiskId} {n : Nat} (hopen : (e.fds i).IsOpen)
    (h : Agrees own (.ok (r, e'.setFd i { e.fds i with off := off }))
      (some (r', s.setFd i (some ⟨file, n⟩)))) : n < 2 ^ 63 := by
  have hf : ExeFile.IsOpen { e.fds i with off := off } := hopen
  obtain ⟨-, habs, hinv⟩ := agrees_ok.mp h
  have hentry := congrArg (fun s => s.fds i) habs
  have hoff := hinv.off_lt i
  rw [abs_setFd, abs_of_open hf] at hentry
  simp only [Env.setFd, Function.update_self] at hoff
  simp only [FileSystem.setFd, Function.update_self, Option.some.injEq, Descr.mk.injEq] at hentry
  rw [← hentry.2]
  exact hoff hf

theorem forall_symbolic {P : Fin maxFds → DiskId → Prop} (hd : (e.fds i).dfile = some d) :
    (∀ i' d', some i = some i' → (e.fds i').dfile = some d' → P i' d') ↔ P i d := by
  constructor
  · exact fun h => h i d rfl hd
  · intro h i' d' hi' hd'
    obtain rfl : i = i' := Option.some.inj hi'
    obtain rfl : d = d' := Option.some.inj (hd.symm.trans hd')
    exact h

theorem forall_concrete {P : Fin maxFds → DiskId → Prop} (hd : (e.fds i).dfile = none) :
    ∀ i' d', some i = some i' → (e.fds i').dfile = some d' → P i' d' := by
  intro i' d' hi' hd'
  obtain rfl : i = i' := Option.some.inj hi'
  rw [hd] at hd'
  cases hd'

theorem setFd_self {s : FileSystem} {f : Option Descr} (h : s.fds i = f) :
    s.setFd i f = s := by
  rw [FileSystem.setFd, ← h, Function.update_eq_self]

/-! Reading -/

theorem toNat_sum {x y : BitVec 64} (h : x.toNat + y.toNat < 2 ^ 64) :
    (x + y).toNat = x.toNat + y.toNat := by
  rw [BitVec.toNat_add, Nat.mod_eq_of_lt h]

/-- Where the sum does not wrap, what is read ends with the file. -/
theorem readCount_toNat {size off count : BitVec 64} (hoff : off.toNat ≤ size.toNat)
    (hsum : off.toNat + count.toNat < 2 ^ 64) :
    (if size < off + count then size - off else count).toNat =
      min count.toNat (size.toNat - off.toNat) := by
  simp only [BitVec.lt_def, toNat_sum hsum]
  split_ifs with h
  · rw [BitVec.toNat_sub_of_le hoff]
    omega
  · omega

/-- A sum that wraps is below the offset. -/
theorem readCount_of_wrap {size off count : BitVec 64} (hoff : off.toNat ≤ size.toNat)
    (hsum : 2 ^ 64 ≤ off.toNat + count.toNat) :
    (if size < off + count then size - off else count) = count := by
  apply if_neg
  rw [BitVec.lt_def, BitVec.toNat_add]
  have := off.isLt
  have := count.isLt
  omega

/-- Where a read does not go wrong: the end of what it asks for is a word. -/
def ReadFine (e : Env) (fd : Int) (null : Bool) (count : BitVec 64) : Prop :=
  null = false → ∀ i d, e.getFile fd = some i → (e.fds i).dfile = some d →
    (e.fds i).off.toNat ≤ (e.disk d).contents.length →
    (e.fds i).off.toNat + count.toNat < 2 ^ 64

/-- A read of the bytes up to the end of the file or of what is asked for -/
theorem agrees_read (h : Inv e) (hi : e.getFile fd = some i) (hd : (e.fds i).dfile = some d)
    (count : BitVec 64) :
    Agrees own (readSymbolic e i d count)
        (some ((e.abs own).readAt i d (e.fds i).off.toNat count.toNat)) ↔
      ((e.fds i).off.toNat ≤ (e.disk d).contents.length →
        (e.fds i).off.toNat + count.toNat < 2 ^ 64) := by
  have hlt := h.off_lt i (getFile_eq_some.mp hi).2
  have hsize := toNat_size (e.disk d)
  have hsize_lt := (e.disk d).size_lt
  simp only [readSymbolic, FileSystem.readAt, slt_zero_of_lt hlt,
    slt_of_lt (toNat_size_lt (e.disk d)) hlt, hsize, Bool.false_eq_true, if_false,
    decide_eq_true_eq, abs_disk]
  by_cases hoff : (e.fds i).off.toNat ≤ (e.disk d).contents.length
  · rw [if_neg (by omega)]
    have hoff' : (e.fds i).off.toNat ≤ ((e.disk d).size.setWidth 64).toNat := hsize ▸ hoff
    by_cases hsum : (e.fds i).off.toNat + count.toNat < 2 ^ 64
    · apply iff_of_true _ fun _ => hsum
      have hcount := readCount_toNat hoff' hsum
      generalize (if (e.disk d).size.setWidth 64 < (e.fds i).off + count then
        (e.disk d).size.setWidth 64 - (e.fds i).off else count) = n at hcount
      rw [hsize] at hcount
      have hbs : ((e.disk d).contents.drop (e.fds i).off.toNat).take n.toNat =
          ((e.disk d).contents.drop (e.fds i).off.toNat).take count.toNat := by
        rw [List.take_eq_take_iff, List.length_drop]
        omega
      have hlen : n.toNat =
          (((e.disk d).contents.drop (e.fds i).off.toNat).take count.toNat).length := by
        rw [List.length_take, List.length_drop, hcount]
      have hadd : ((e.fds i).off + n).toNat = (e.fds i).off.toNat + n.toNat :=
        toNat_sum (by omega)
      rw [copyOut, if_pos (by omega)]
      simp only [hbs]
      rw [toInt_of_lt (by omega), ← hlen, ← hadd]
      exact agrees_moved h (getFile_eq_some.mp hi).2 hd (by omega)
    · apply iff_of_false _ fun h => hsum (h hoff)
      rw [readCount_of_wrap hoff' (by omega), copyOut, if_neg (by omega)]
      exact id
  · rw [if_pos (by omega)]
    apply iff_of_true _ fun h => absurd h hoff
    apply agrees_ok.mpr
    rw [List.drop_eq_nil_of_le (by omega), List.take_nil]
    exact ⟨rfl, (setFd_self (abs_of_getFile hi hd)).symm, h⟩

theorem read_agrees_iff (h : Inv e) (fd : Int) (null : Bool) (count : BitVec 64) :
    Agrees own (read e fd null count) ((e.abs own).readFile fd null count.toNat) ↔
      ReadFine e fd null count := by
  have h' := h.countRead
  simp only [read, FileSystem.readFile, ReadFine, descr_abs, getFile_countRead,
    maxFailures_countRead, h.maxFailures, ne_eq, not_true, false_and, if_false]
  by_cases hcount : count = 0
  · subst hcount
    simp only [BitVec.ofNat_eq_ofNat, BitVec.toNat_ofNat, Nat.zero_mod, if_true]
    apply iff_of_true (agrees_ok.mpr ⟨rfl, rfl, h'⟩)
    intro _ i d hi _ _
    have := h.off_lt i (getFile_eq_some.mp hi).2
    omega
  have hcount' : count.toNat ≠ 0 := fun h0 => hcount (BitVec.eq_of_toNat_eq h0)
  simp only [hcount, hcount', if_false]
  cases null with
  | true => simpa using agrees_ok.mpr ⟨rfl, rfl, h'⟩
  | false =>
    simp only [Bool.false_eq_true, if_false, forall_const]
    cases hi : e.getFile fd with
    | none => simpa using agrees_ok.mpr ⟨rfl, rfl, h'⟩
    | some i =>
      cases hd : (e.fds i).dfile with
      | none =>
        apply iff_of_true _ (forall_concrete hd)
        simp [hd, Agrees]
      | some d =>
        rw [forall_symbolic hd]
        simp only [fds_countRead, Option.map_some, hd]
        exact agrees_read h' hi hd count

/-! Writing -/

theorem DiskFile.ext_contents {df df' : DiskFile} (hc : df.contents = df'.contents)
    (hm : df.st_mode = df'.st_mode) (hi : df.st_ino = df'.st_ino) : df = df' := by
  cases df
  cases df'
  simp only at hc hm hi
  subst hc hm hi
  rfl

theorem overwrite_of_none {df : DiskFile} {off count : Nat} {buf : Nat → Byte}
    (h : min count (df.contents.length - off) = 0) : df.overwrite off count buf = df := by
  refine DiskFile.ext_contents ?_ rfl rfl
  apply List.ext_getElem (FileSystem.length_overwrite df off count buf)
  intro k hk hk'
  simp only [DiskFile.overwrite, List.getElem_mapIdx]
  exact if_neg (by omega)

theorem patch_eq_overwrite {contents : List Byte} {off count n : Nat} (buf : Nat → Byte)
    (hn : n = min count (contents.length - off)) (hoff : off + n ≤ contents.length) :
    contents.take off ++ (List.range n).map buf ++ contents.drop (off + n) =
      contents.mapIdx fun k b => if off ≤ k ∧ k < off + count then buf (k - off) else b := by
  have hlen := size_patch buf hoff
  apply List.ext_getElem (by rw [hlen, List.length_mapIdx])
  intro k hk hk'
  rw [hlen] at hk
  have htake : (contents.take off).length = off := by rw [List.length_take]; omega
  simp only [List.getElem_mapIdx, List.getElem_append, List.length_append, htake, List.length_map,
    List.length_range, List.getElem_take, List.getElem_map, List.getElem_range, List.getElem_drop]
  by_cases h1 : k < off
  · simp only [h1, show k < off + n by omega, dif_pos]
    rw [if_neg (by omega)]
  · by_cases h2 : k < off + n
    · simp only [h1, h2, dif_pos, dif_neg, not_false_iff]
      rw [if_pos (by omega)]
    · simp only [h2, dif_neg, not_false_iff]
      rw [if_neg (by omega)]
      congr 1
      omega

theorem copyIn_eq_overwrite {df : DiskFile} {off n : BitVec 64} {count : Nat} (buf : Nat → Byte)
    (hn : n.toNat = min count (df.contents.length - off.toNat)) :
    copyIn df off buf n = .ok (df.overwrite off.toNat count buf) := by
  rw [copyIn]
  by_cases h0 : n = 0
  · rw [if_pos h0, overwrite_of_none (by rw [← hn, h0]; rfl)]
  · have hpos : n.toNat ≠ 0 := fun h => h0 (BitVec.eq_of_toNat_eq h)
    have hfit : off.toNat + n.toNat ≤ df.contents.length := by omega
    rw [if_neg h0, dif_pos hfit]
    apply congrArg
    exact DiskFile.ext_contents (patch_eq_overwrite buf hn hfit) rfl rfl

/-- What a write stores ends with the file. -/
theorem writeCount_toNat {size off count : BitVec 64} (hsize : size.toNat < 2 ^ 63)
    (hoff : off.toNat < 2 ^ 63) (hsum : off.toNat + count.toNat < 2 ^ 64) :
    (if off + count ≤ size then count else if off.slt size then size - off else 0).toNat =
      min count.toNat (size.toNat - off.toNat) := by
  rw [slt_of_lt hoff hsize]
  simp only [BitVec.le_def, toNat_sum hsum, decide_eq_true_eq]
  split_ifs with h h'
  · omega
  · rw [BitVec.toNat_sub_of_le (BitVec.le_def.mpr h'.le)]
    omega
  · show 0 = _
    omega

def WriteFine (e : Env) (fd : Int) (count : BitVec 64) : Prop :=
  ∀ i d, e.getFile fd = some i → (e.fds i).dfile = some d →
    (e.fds i).off.toNat + count.toNat < 2 ^ 63

theorem agrees_write (h : Inv e) (hi : e.getFile fd = some i) (hd : (e.fds i).dfile = some d)
    (buf : Nat → Byte) (count : BitVec 64) :
    Agrees own (writeSymbolic e i d buf count)
        (some ((e.abs own).writeAt i d (e.fds i).off.toNat buf count.toNat)) ↔
      (e.fds i).off.toNat + count.toNat < 2 ^ 63 := by
  have hopen := (getFile_eq_some.mp hi).2
  have hlt := h.off_lt i hopen
  have hsize := toNat_size (e.disk d)
  simp only [writeSymbolic, FileSystem.writeAt, h.saveAllWrites, Bool.false_eq_true, and_false,
    if_false, abs_disk]
  constructor
  · intro hagrees
    cases hcopy : copyIn (e.disk d) (e.fds i).off buf
      (if (e.fds i).off + count ≤ (e.disk d).size.setWidth 64 then count
        else if (e.fds i).off.slt ((e.disk d).size.setWidth 64) then
          (e.disk d).size.setWidth 64 - (e.fds i).off else 0) with
    | error s =>
      rw [hcopy] at hagrees
      cases s <;> exact hagrees.elim
    | ok df =>
      rw [hcopy] at hagrees
      exact offset_of_agrees hopen hagrees
  · intro hsum
    have hsum' : (e.fds i).off.toNat + count.toNat < 2 ^ 64 := by omega
    have hcount := writeCount_toNat (toNat_size_lt (e.disk d)) hlt hsum'
    rw [hsize] at hcount
    rw [copyIn_eq_overwrite buf hcount]
    have hcount' : count.toInt = count.toNat := toInt_of_lt (by omega)
    have hdisk : (e.setDisk d ((e.disk d).overwrite (e.fds i).off.toNat count.toNat buf)).abs own =
        _ := abs_setDisk rfl
    have hover : DiskFile.overwrite { e.disk d with st_mode := own d } (e.fds i).off.toNat
        count.toNat buf = { (e.disk d).overwrite (e.fds i).off.toNat count.toNat buf with
          st_mode := own d } := rfl
    rw [hover, ← hdisk, ← toNat_sum hsum']
    simp only [hcount']
    rw [← abs_countStdout (d := d)]
    exact agrees_moved h.setDisk.countStdout hopen hd (by rw [toNat_sum hsum']; exact hsum)

theorem write_agrees_iff (h : Inv e) (fd : Int) (buf : Nat → Byte) (count : BitVec 64) :
    Agrees own (write e fd buf count) ((e.abs own).writeFile fd buf count.toNat) ↔
      WriteFine e fd count := by
  have h' := h.countWrite
  simp only [write, FileSystem.writeFile, WriteFine, descr_abs, getFile_countWrite,
    maxFailures_countWrite, h.maxFailures, ne_eq, not_true, false_and, if_false]
  cases hi : e.getFile fd with
  | none => simpa using agrees_ok.mpr ⟨rfl, rfl, h'⟩
  | some i =>
    cases hd : (e.fds i).dfile with
    | none =>
      apply iff_of_true _ (forall_concrete hd)
      simp [hd, Agrees]
    | some d =>
      rw [forall_symbolic hd]
      simp only [fds_countWrite, Option.map_some, hd]
      exact agrees_write h' hi hd buf count

/-! Seeking -/

/-- A sum that is no offset is a negative word. -/
theorem toInt_seek {x : BitVec 64} (hx : x.toNat < 2 ^ 63) (y : BitVec 64) :
    (x + y).toInt = if (x.toNat : Int) + y.toInt < 2 ^ 63 then (x.toNat : Int) + y.toInt
      else (x.toNat : Int) + y.toInt - 2 ^ 64 := by
  have hlow := BitVec.le_toInt y
  have hhigh := BitVec.toInt_lt (x := y)
  rw [BitVec.toInt_add, toInt_of_lt hx, Int.bmod_def]
  split_ifs <;> omega

/-- An offset that is set to the sum of a base that is not negative and a word -/
theorem agrees_seek (h : Inv e) (hopen : (e.fds i).IsOpen) (hd : (e.fds i).dfile = some d)
    {x : BitVec 64} (hx : x.toNat < 2 ^ 63) (y : BitVec 64) :
    Agrees own (if (x + y).slt 0 then .ok (.error .EINVAL, e)
        else .ok (.value (x + y).toInt [], e.setFd i { e.fds i with off := x + y }))
      (some (if 0 ≤ (x.toNat : Int) + y.toInt ∧ (x.toNat : Int) + y.toInt < 2 ^ 63 then
        (.value (x.toNat + y.toInt) [],
          (e.abs own).setFd i (some ⟨some d, ((x.toNat : Int) + y.toInt).toNat⟩))
        else (.error .EINVAL, e.abs own))) := by
  have hsum := toInt_seek hx y
  have hlow := BitVec.le_toInt y
  have hhigh := BitVec.toInt_lt (x := y)
  have hslt : (x + y).slt 0 = decide ((x + y).toInt < 0) := rfl
  rw [hslt]
  by_cases hin : 0 ≤ (x.toNat : Int) + y.toInt ∧ (x.toNat : Int) + y.toInt < 2 ^ 63
  · rw [if_pos hin.2] at hsum
    have htop : (x + y).toNat < 2 ^ 63 := by
      have hmsb := BitVec.toInt_eq_toNat_cond (x + y)
      have := (x + y).isLt
      split_ifs at hmsb <;> omega
    have htoNat : ((x.toNat : Int) + y.toInt).toNat = (x + y).toNat := by
      rw [← hsum, toInt_of_lt htop, Int.toNat_natCast]
    rw [if_pos hin, htoNat, ← hsum, if_neg (by rw [decide_eq_true_eq]; omega)]
    exact agrees_moved h hopen hd htop
  · have hneg : (x + y).toInt < 0 := by
      split_ifs at hsum <;> omega
    rw [if_neg hin, if_pos (by rw [decide_eq_true_eq]; exact hneg)]
    exact agrees_ok.mpr ⟨rfl, rfl, h⟩

theorem agrees_lseek (h : Inv e) (hi : e.getFile fd = some i) (hd : (e.fds i).dfile = some d)
    (offset : BitVec 64) (whence : Int) :
    Agrees own (lseekSymbolic e i d offset whence)
      (some ((e.abs own).seekAt i d (e.fds i).off.toNat offset.toInt whence)) := by
  have hopen := (getFile_eq_some.mp hi).2
  simp only [lseekSymbolic, FileSystem.seekAt, FileSystem.seekBase, abs_disk]
  by_cases hset : whence = SEEK_SET
  · have hzero := @agrees_seek own e i d h hopen hd 0 (by decide) offset
    simpa [hset] using hzero
  by_cases hcur : whence = SEEK_CUR
  · have hne : SEEK_CUR ≠ SEEK_SET := by decide
    simp only [hcur, hne, if_true, if_false]
    exact agrees_seek h hopen hd (h.off_lt i hopen) offset
  by_cases hend : whence = SEEK_END
  · have hne : SEEK_END ≠ SEEK_SET ∧ SEEK_END ≠ SEEK_CUR := by decide
    simp only [hend, hne.1, hne.2, if_true, if_false, ← toNat_size (e.disk d)]
    exact agrees_seek h hopen hd (toNat_size_lt (e.disk d)) offset
  · simp only [hset, hcur, hend, if_false]
    exact agrees_ok.mpr ⟨rfl, rfl, h⟩

theorem lseek_agrees (h : Inv e) (fd : Int) (offset : BitVec 64) (whence : Int) :
    Agrees own (lseek e fd offset whence) ((e.abs own).seekFile fd offset.toInt whence) := by
  simp only [lseek, FileSystem.seekFile, descr_abs]
  cases hi : e.getFile fd with
  | none => simpa using agrees_ok.mpr ⟨rfl, rfl, h⟩
  | some i =>
    cases hd : (e.fds i).dfile with
    | none => simp [hd, Agrees]
    | some d =>
      simp only [Option.map_some, hd]
      exact agrees_lseek h hi hd offset whence

/-! Duplicating -/

/-- Where a `dup2` does not go wrong: it is not of an open descriptor on itself. -/
def Dup2Fine (e : Env) (oldfd newfd : Int) : Prop := (e.getFile oldfd).isSome → oldfd ≠ newfd

theorem fdIndex_eq_some {fd : Int} : fdIndex fd = some i ↔ fd = i := by
  have hi := i.isLt
  rw [fdIndex]
  split_ifs with h
  · rw [Option.some.injEq, Fin.ext_iff]
    show fd.toNat = i.val ↔ _
    omega
  · rw [iff_false_left (by simp)]
    omega

/-- `FD_CLOEXEC` is not copied, all else is. -/
theorem abs_clearCloseOnExec {f : ExeFile} (h : f.IsOpen) :
    ExeFile.abs { f with flags := f.flags &&& ~~~eCloseOnExec } = some ⟨f.dfile, f.off.toNat⟩ := by
  apply abs_of_open
  have hbit : (f.flags &&& ~~~eCloseOnExec) &&& eOpen = f.flags &&& eOpen := by
    rw [BitVec.and_assoc]
    rfl
  rw [ExeFile.IsOpen, hbit]
  exact h

/-- What `dup2` leaves of the descriptor that it makes -/
def Env.cleared (e : Env) (j : Fin maxFds) : Env :=
  if (e.fds j).IsOpen then e.countClose.setFd j .zero else e

theorem dup2_eq (h : Inv e) {oldfd newfd : Int} {j : Fin maxFds} (hi : e.getFile oldfd = some i)
    (hj : fdIndex newfd = some j) :
    dup2 e oldfd newfd = .ok (.value newfd [], (e.cleared j).setFd j
      { (e.cleared j).fds i with flags := ((e.cleared j).fds i).flags &&& ~~~eCloseOnExec }) := by
  simp only [dup2, hi, hj, Env.cleared]
  by_cases hopen : (e.fds j).IsOpen
  · have hget : e.getFile newfd = some j := getFile_eq_some.mpr ⟨hj, hopen⟩
    simp only [hopen, if_true, close, getFile_countClose, hget, maxFailures_countClose,
      h.maxFailures, ne_eq, not_true, false_and, if_false]
  · simp only [hopen, if_false]

theorem Inv.cleared (h : Inv e) (j : Fin maxFds) : Inv (e.cleared j) := by
  rw [Env.cleared]
  split_ifs
  · exact h.countClose.setFd_closed zero_not_open
  · exact h

theorem setFd_cleared {s : Option Descr} {j : Fin maxFds} :
    ((e.cleared j).abs own).setFd j s = (e.abs own).setFd j s := by
  rw [Env.cleared]
  split_ifs
  · rw [abs_setFd]
    simp [FileSystem.setFd]
  · rfl

theorem dup2_agrees_iff (h : Inv e) (oldfd newfd : Int) :
    Agrees own (dup2 e oldfd newfd) (some ((e.abs own).duplicate oldfd newfd)) ↔
      Dup2Fine e oldfd newfd := by
  simp only [Dup2Fine]
  cases hi : e.getFile oldfd with
  | none =>
    simp only [dup2, FileSystem.duplicate, descr_abs, hi]
    simpa using agrees_ok.mpr ⟨rfl, rfl, h⟩
  | some i =>
    have hopen := (getFile_eq_some.mp hi).2
    have hold := fdIndex_eq_some.mp (getFile_eq_some.mp hi).1
    cases hj : fdIndex newfd with
    | none =>
      have hne : oldfd ≠ newfd := by
        intro heq
        rw [← heq, (getFile_eq_some.mp hi).1] at hj
        cases hj
      simp only [dup2, FileSystem.duplicate, descr_abs, hi, hj]
      simpa [hne] using agrees_ok.mpr ⟨rfl, rfl, h⟩
    | some j =>
      have hnew := fdIndex_eq_some.mp hj
      rw [dup2_eq h hi hj]
      simp only [FileSystem.duplicate, descr_abs, hi, hj, Option.map_some, Option.isSome_some,
        forall_const]
      by_cases hij : i = j
      · subst hij
        have hzero : (e.cleared i).fds i = .zero := by
          simp [Env.cleared, hopen, Env.setFd]
        apply iff_of_false
        · intro hagrees
          have hentry := congrArg (fun s => s.fds i) (agrees_ok.mp hagrees).2.1
          rw [abs_setFd, hzero] at hentry
          simp only [FileSystem.setFd, Function.update_self] at hentry
          rw [abs_eq_none.mpr (by decide)] at hentry
          cases hentry
        · exact not_not_intro (hold.trans hnew.symm)
      · have hentry : (e.cleared j).fds i = e.fds i := by
          rw [Env.cleared]
          split_ifs
          · exact Function.update_of_ne hij _ _
          · rfl
        apply iff_of_true
        · rw [hentry, agrees_ok, abs_setFd, abs_clearCloseOnExec hopen, setFd_cleared]
          exact ⟨rfl, rfl, (h.cleared j).setFd fun _ => h.off_lt i hopen⟩
        · intro heq
          apply hij
          rw [hold, hnew] at heq
          exact Fin.ext (by omega)

theorem dup_agrees (h : Inv e) (oldfd : Int) :
    Agrees own (dup e oldfd) (some ((e.abs own).duplicateLowest oldfd)) := by
  simp only [dup, FileSystem.duplicateLowest, descr_abs, lowestFree_abs]
  cases hi : e.getFile oldfd with
  | none => exact agrees_ok.mpr ⟨rfl, rfl, h⟩
  | some i =>
    cases hfree : e.freeFd with
    | none => exact agrees_ok.mpr ⟨rfl, rfl, h⟩
    | some j =>
      have hfine : Dup2Fine e oldfd j := by
        intro _ heq
        have hget := getFile_eq_some.mp hi
        rw [heq, fdIndex_eq_some] at hget
        have hij : i = j := Fin.ext (by omega)
        exact not_open_of_freeFd hfree (hij ▸ hget.2)
      have hagrees := (@dup2_agrees_iff own e h oldfd j).mpr hfine
      simpa only [FileSystem.duplicate, descr_abs, hi, fdIndex_eq_some.mpr rfl, Option.map_some]
        using hagrees

end Calls

/-! Any sequence of calls -/

/-- The condition on one call, in the state before it: a permission test that is right, no
`dup2` of a descriptor on itself, and sums of offsets and counts that do not wrap. -/
def Fine (own : DiskId → BitVec 32) (e : Env) : Call → Prop
  | .open pathname flags _ => OpenFine own e pathname flags
  | .openat basefd pathname flags _ => BaseFine e basefd → OpenFine own e pathname flags
  | .read fd null count => ReadFine e fd null count
  | .write fd _ count => WriteFine e fd count
  | .dup2 oldfd newfd => Dup2Fine e oldfd newfd
  | .close _ | .lseek _ _ _ | .dup _ => True

theorem step_agrees_iff {own : DiskId → BitVec 32} {e : Env} (h : Inv e) (c : Call) :
    Agrees own (step e c) ((e.abs own).step c) ↔ Fine own e c := by
  cases c with
  | «open» pathname flags mode => exact fdOpen_agrees_iff h pathname flags _
  | openat basefd pathname flags mode => exact fdOpenat_agrees_iff h basefd pathname flags _
  | close fd => exact iff_of_true (close_agrees h fd) trivial
  | read fd null count => exact read_agrees_iff h fd null count
  | write fd buf count => exact write_agrees_iff h fd buf count
  | lseek fd offset whence => exact iff_of_true (lseek_agrees h fd offset whence) trivial
  | dup2 oldfd newfd => exact dup2_agrees_iff h oldfd newfd
  | dup oldfd => exact iff_of_true (dup_agrees h oldfd) trivial

end Klee.Posix
