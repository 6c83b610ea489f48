import Klee.Runtime.Fd

/-! The reference of the file model: files of a fixed size and, for every descriptor, a file
and an offset that is a number. -/
namespace Klee.Posix

/-- An open file; without a `file` it is one of the operating system. -/
structure Descr where
  file : Option DiskId
  off : Nat
deriving DecidableEq

structure FileSystem where
  fds : Fin maxFds → Option Descr
  disk : DiskId → DiskFile
  symFile : CString → Option DiskId

/-- The outcome of a call; `none` when it is up to the operating system. -/
abbrev Effect := Option (Ret × FileSystem)

abbrev Reads (flags : BitVec 32) : Prop := flags &&& O_ACCMODE ≠ O_WRONLY

abbrev Writes (flags : BitVec 32) : Prop := flags &&& O_ACCMODE ≠ O_RDONLY

abbrev Denied (flags mode : BitVec 32) : Prop :=
  Reads flags ∧ mode &&& 0x124 = 0 ∨ Writes flags ∧ mode &&& 0x92 = 0

def DiskFile.overwrite (df : DiskFile) (off count : Nat) (buf : Nat → Byte) : DiskFile :=
  { df with
    contents := df.contents.mapIdx fun k b => if off ≤ k ∧ k < off + count then buf (k - off) else b
    size_lt := by rw [List.length_mapIdx]; exact df.size_lt }

namespace FileSystem

variable (s : FileSystem)

def setFd (i : Fin maxFds) (f : Option Descr) : FileSystem :=
  { s with fds := Function.update s.fds i f }

def setDisk (d : DiskId) (df : DiskFile) : FileSystem :=
  { s with disk := Function.update s.disk d df }

def descr (fd : Int) : Option (Fin maxFds × Descr) :=
  (fdIndex fd).bind fun i => (s.fds i).map (i, ·)

def lowestFree : Option (Fin maxFds) := (List.finRange maxFds).find? fun i => s.fds i = none

/-- A symbolic file is there before it is opened and keeps its permission bits. To open exclusively
what is not made has no meaning and is refused. -/
def openFile (pathname : CString) (flags : BitVec 32) : Effect :=
  match s.lowestFree with
  | none => some (.error .EMFILE, s)
  | some i =>
    (s.symFile pathname).map fun d =>
      if flags &&& O_EXCL ≠ 0 then
        (.error (if flags &&& O_CREAT ≠ 0 then .EEXIST else .EACCES), s)
      else if Denied flags (s.disk d).st_mode then (.error .EACCES, s)
      else (.value i [], s.setFd i (some ⟨some d, 0⟩))

def openFileAt (basefd : Int) (pathname : CString) (flags : BitVec 32) : Effect :=
  if basefd = AT_FDCWD then s.openFile pathname flags
  else
    match s.descr basefd with
    | none => some (.error .EBADF, s)
    | some (_, ⟨some _, _⟩) => some (.error .ENOENT, s)
    | some (_, ⟨none, _⟩) => s.openFile pathname flags

def closeFile (fd : Int) : Ret × FileSystem :=
  match s.descr fd with
  | none => (.error .EBADF, s)
  | some (i, _) => (.value 0 [], s.setFd i none)

def readAt (i : Fin maxFds) (d : DiskId) (off count : Nat) : Ret × FileSystem :=
  let bs := ((s.disk d).contents.drop off).take count
  (.value bs.length bs, s.setFd i (some ⟨some d, off + bs.length⟩))

def readFile (fd : Int) (null : Bool) (count : Nat) : Effect :=
  if count = 0 then some (.value 0 [], s)
  else if null then some (.error .EFAULT, s)
  else
    match s.descr fd with
    | none => some (.error .EBADF, s)
    | some (i, ⟨file, off⟩) => file.map fun d => s.readAt i d off count

def writeAt (i : Fin maxFds) (d : DiskId) (off : Nat) (buf : Nat → Byte) (count : Nat) :
    Ret × FileSystem :=
  (.value count [],
    (s.setDisk d ((s.disk d).overwrite off count buf)).setFd i (some ⟨some d, off + count⟩))

def writeFile (fd : Int) (buf : Nat → Byte) (count : Nat) : Effect :=
  match s.descr fd with
  | none => some (.error .EBADF, s)
  | some (i, ⟨file, off⟩) => file.map fun d => s.writeAt i d off buf count

/-- What `whence` says the offset is added to -/
def seekBase (d : DiskId) (off : Nat) (whence : Int) : Option Int :=
  if whence = SEEK_SET then some 0
  else if whence = SEEK_CUR then some off
  else if whence = SEEK_END then some (s.disk d).contents.length
  else none

/-- An offset is at least 0 and fits an `off64_t`. -/
def seekAt (i : Fin maxFds) (d : DiskId) (off : Nat) (offset : Int) (whence : Int) :
    Ret × FileSystem :=
  match s.seekBase d off whence with
  | none => (.error .EINVAL, s)
  | some base =>
    if 0 ≤ base + offset ∧ base + offset < 2 ^ 63 then
      (.value (base + offset) [], s.setFd i (some ⟨some d, (base + offset).toNat⟩))
    else (.error .EINVAL, s)

def seekFile (fd : Int) (offset : Int) (whence : Int) : Effect :=
  match s.descr fd with
  | none => some (.error .EBADF, s)
  | some (i, ⟨file, off⟩) => file.map fun d => s.seekAt i d off offset whence

def duplicate (oldfd newfd : Int) : Ret × FileSystem :=
  match s.descr oldfd, fdIndex newfd with
  | some (_, f), some j => (.value newfd [], s.setFd j (some f))
  | _, _ => (.error .EBADF, s)

def duplicateLowest (oldfd : Int) : Ret × FileSystem :=
  match s.descr oldfd with
  | none => (.error .EBADF, s)
  | some (_, f) =>
    match s.lowestFree with
    | none => (.error .EMFILE, s)
    | some j => (.value j [], s.setFd j (some f))

def step : Call → Effect
  | .open pathname flags _ => s.openFile pathname flags
  | .openat basefd pathname flags _ => s.openFileAt basefd pathname flags
  | .close fd => some (s.closeFile fd)
  | .read fd null count => s.readFile fd null count.toNat
  | .write fd buf count => s.writeFile fd buf count.toNat
  | .lseek fd offset whence => s.seekFile fd offset.toInt whence
  | .dup2 oldfd newfd => some (s.duplicate oldfd newfd)
  | .dup oldfd => some (s.duplicateLowest oldfd)

def run : FileSystem → List Call → Outcome FileSystem
  | s, [] => ⟨[], s, none⟩
  | s, c :: cs =>
    match s.step c with
    | none => ⟨[], s, some .system⟩
    | some (r, s) => (run s cs).cons r

variable {s}

/-- `lowestFree` is the first descriptor that is not open. -/
theorem lowestFree_eq_some_iff {i : Fin maxFds} :
    s.lowestFree = some i ↔ s.fds i = none ∧ ∀ j < i, s.fds j ≠ none := by
  simp only [lowestFree, List.find?_eq_some_iff_getElem, decide_eq_true_eq, List.getElem_finRange]
  constructor
  · intro h
    obtain ⟨hi, k, hk, hki, hmin⟩ := h
    subst hki
    refine ⟨hi, fun j hj => ?_⟩
    simpa using hmin j.val (by simpa [Fin.lt_def] using hj)
  · intro h
    refine ⟨h.1, i.val, by simp, by simp, fun j hj => ?_⟩
    simpa using h.2 ⟨j, lt_trans hj i.isLt⟩ (by simpa [Fin.lt_def] using hj)

/-- A write keeps the size of every file. -/
theorem length_overwrite (df : DiskFile) (off count : Nat) (buf : Nat → Byte) :
    (df.overwrite off count buf).contents.length = df.contents.length := List.length_mapIdx

theorem descr_eq_some {fd : Int} {i : Fin maxFds} {f : Descr} :
    s.descr fd = some (i, f) ↔ fdIndex fd = some i ∧ s.fds i = some f := by
  simp only [descr, Option.bind_eq_some_iff, Option.map_eq_some_iff, Prod.mk.injEq]
  constructor
  · intro h
    obtain ⟨j, hj, g, hg, rfl, rfl⟩ := h
    exact ⟨hj, hg⟩
  · intro h
    exact ⟨i, h.1, f, h.2, rfl, rfl⟩

/-- The second descriptor of `dup2` on one descriptor is the first. -/
theorem duplicate_self {fd : Int} {i : Fin maxFds} {f : Descr} (h : s.descr fd = some (i, f)) :
    s.duplicate fd fd = (.value fd [], s) := by
  have hd := descr_eq_some.mp h
  simp only [duplicate, h, hd.1]
  rw [setFd, ← hd.2, Function.update_eq_self]

end FileSystem

end Klee.Posix
