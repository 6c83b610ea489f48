import Mathlib.Tactic

/-! The file model of the POSIX runtime: the descriptor table, the symbolic files and the
calls `open`, `openat`, `close`, `read`, `write`, `lseek`, `dup2` and `dup`. What is done on a
file that is not symbolic is done by the operating system. -/
namespace Klee.Posix

abbrev Byte := BitVec 8

/-- A string without its terminating 0, or `NULL` -/
abbrev CString := Option (List Byte)

/-- Where an `exe_disk_file_t*` points -/
inductive DiskId
  | stdin
  | stdout
  | file (i : Nat)
deriving DecidableEq

/-- `exe_disk_file_t`; of the `stat` the mode and the inode number. -/
structure DiskFile where
  contents : List Byte
  /-- `size` is an `unsigned`. -/
  size_lt : contents.length < 2 ^ 32
  st_mode : BitVec 32
  st_ino : BitVec 64
deriving DecidableEq

def DiskFile.size (df : DiskFile) : BitVec 32 := BitVec.ofNat 32 df.contents.length

def eOpen : BitVec 32 := 1
def eCloseOnExec : BitVec 32 := 2
def eReadable : BitVec 32 := 4
def eWriteable : BitVec 32 := 8

/-- `exe_file_t`; `off` is signed. -/
structure ExeFile where
  fd : Int
  flags : BitVec 32
  off : BitVec 64
  dfile : Option DiskId
deriving DecidableEq

/-- What `memset` leaves. -/
def ExeFile.zero : ExeFile := ⟨0, 0, 0, none⟩

def ExeFile.IsOpen (f : ExeFile) : Prop := f.flags &&& eOpen ≠ 0

instance (f : ExeFile) : Decidable f.IsOpen := inferInstanceAs (Decidable (_ ≠ _))

def maxFds : Nat := 32

/-- `__exe_env` and `__exe_fs`, with the counters of calls. -/
structure Env where
  fds : Fin maxFds → ExeFile
  umask : BitVec 32
  saveAllWrites : Bool
  nSymFiles : Nat
  disk : DiskId → DiskFile
  stdoutWrites : BitVec 32
  maxFailures : Nat
  readFail : Int
  writeFail : Int
  closeFail : Int
  readCalls : Int
  writeCalls : Int
  closeCalls : Int

inductive Stop
  /-- `memcpy` is given bytes behind a contents array. -/
  | outOfBounds
  | assertion
  /-- The rest is up to the operating system. -/
  | system
deriving DecidableEq

inductive Errno
  | EBADF | EEXIST | EACCES | EMFILE | ENOENT | EFAULT | EINVAL | EIO
deriving DecidableEq

/-- What a call returns, with the bytes that it puts in the caller's buffer. -/
inductive Ret
  | value (r : Int) (stored : List Byte)
  | error (e : Errno)
deriving DecidableEq

abbrev Result := Except Stop (Ret × Env)

def O_ACCMODE : BitVec 32 := 3
def O_RDONLY : BitVec 32 := 0
def O_WRONLY : BitVec 32 := 1
def O_RDWR : BitVec 32 := 2
def O_CREAT : BitVec 32 := 0x40
def O_EXCL : BitVec 32 := 0x80
def O_TRUNC : BitVec 32 := 0x200
def S_IRUSR : BitVec 32 := 0x100
def S_IRGRP : BitVec 32 := 0x20
def S_IROTH : BitVec 32 := 0x4
def S_IWUSR : BitVec 32 := 0x80
def S_IWGRP : BitVec 32 := 0x10
def S_IWOTH : BitVec 32 := 0x2
def AT_FDCWD : Int := -100
def SEEK_SET : Int := 0
def SEEK_CUR : Int := 1
def SEEK_END : Int := 2

/-- `c == 'A' + (char) i`, where a `char` is signed. -/
def namesFile (c : Byte) (i : Nat) : Bool := c.toInt == 65 + (BitVec.ofNat 8 i).toInt

def fdIndex (fd : Int) : Option (Fin maxFds) :=
  if h : 0 ≤ fd ∧ fd < maxFds then
    some ⟨fd.toNat, by obtain ⟨_, _⟩ := h; omega⟩
  else none

namespace Env

variable (e : Env)

def setFd (i : Fin maxFds) (f : ExeFile) : Env := { e with fds := Function.update e.fds i f }

/-! Every call of `close`, `read` and `write` is counted in `n_calls`. -/

def countClose : Env := { e with closeCalls := e.closeCalls + 1 }

def countRead : Env := { e with readCalls := e.readCalls + 1 }

def countWrite : Env := { e with writeCalls := e.writeCalls + 1 }

def setDisk (d : DiskId) (df : DiskFile) : Env := { e with disk := Function.update e.disk d df }

def countStdout (d : DiskId) (count : BitVec 64) : Env :=
  if d = .stdout then { e with stdoutWrites := e.stdoutWrites + count.setWidth 32 } else e

def getSymFile (pathname : CString) : Option DiskId :=
  match pathname with
  | some [c] =>
    if c = 0 then none
    else
      match (List.range e.nSymFiles).find? (namesFile c) with
      | some i => if (e.disk (.file i)).st_ino = 0 then none else some (.file i)
      | none => none
  | _ => none

def getFile (fd : Int) : Option (Fin maxFds) :=
  match fdIndex fd with
  | some i => if (e.fds i).IsOpen then some i else none
  | none => none

def freeFd : Option (Fin maxFds) := (List.finRange maxFds).find? fun i => ¬ (e.fds i).IsOpen

end Env

def hasPermission (flags mode : BitVec 32) : Bool :=
  let read_access := flags &&& O_RDONLY ≠ 0 ∨ flags &&& O_RDWR ≠ 0
  let write_access := flags &&& O_WRONLY ≠ 0 ∨ flags &&& O_RDWR ≠ 0
  if read_access ∧ (mode &&& S_IRUSR) ||| (mode &&& S_IRGRP) ||| (mode &&& S_IROTH) ≠ 0 then
    false
  else if write_access ∧
      (mode &&& S_IWUSR) ||| (mode &&& S_IWGRP) ||| (mode &&& S_IWOTH) = 0 then false
  else true

/-- The `exe_file_flag_t` values of a file that is opened. -/
def openFlags (flags : BitVec 32) : BitVec 32 :=
  if flags &&& O_ACCMODE = O_RDONLY then eOpen ||| eReadable
  else if flags &&& O_ACCMODE = O_WRONLY then eOpen ||| eWriteable
  else eOpen ||| (eReadable ||| eWriteable)

def openMode (st_mode mode umask : BitVec 32) : BitVec 32 :=
  (st_mode &&& ~~~0x1ff) ||| (mode &&& ~~~umask)

variable (e : Env)

def fdOpen (pathname : CString) (flags mode : BitVec 32) : Result :=
  match e.freeFd with
  | none => .ok (.error .EMFILE, e)
  | some fd =>
    let e := e.setFd fd .zero
    match e.getSymFile pathname with
    | none => .error .system
    | some df =>
      let e := e.setFd fd { ExeFile.zero with dfile := some df }
      if flags &&& O_CREAT ≠ 0 ∧ flags &&& O_EXCL ≠ 0 then .ok (.error .EEXIST, e)
      else if flags &&& O_TRUNC ≠ 0 ∧ flags &&& O_RDONLY ≠ 0 then .ok (.error .EACCES, e)
      else if flags &&& O_EXCL ≠ 0 ∧ flags &&& O_CREAT = 0 then .ok (.error .EACCES, e)
      else if !hasPermission flags (e.disk df).st_mode then .ok (.error .EACCES, e)
      else
        let e := e.setDisk df
          { e.disk df with st_mode := openMode (e.disk df).st_mode mode e.umask }
        .ok (.value fd [], e.setFd fd { e.fds fd with flags := openFlags flags })

/-- `__fd_openat` behind the look at `basefd` -/
def fdOpenatFile (pathname : CString) (flags mode : BitVec 32) : Result :=
  match e.getSymFile pathname with
  | some _ => fdOpen e pathname flags mode
  | none =>
    match e.freeFd with
    | none => .ok (.error .EMFILE, e)
    | some _ => .error .system

def fdOpenat (basefd : Int) (pathname : CString) (flags mode : BitVec 32) : Result :=
  if basefd ≠ AT_FDCWD then
    match e.getFile basefd with
    | none => .ok (.error .EBADF, e)
    | some bf =>
      if (e.fds bf).dfile.isSome then .ok (.error .ENOENT, e)
      else fdOpenatFile e pathname flags mode
  else fdOpenatFile e pathname flags mode

/-- The `mode` that `open` and `openat` pass on; it is an argument only under `O_CREAT`. -/
def creationMode (flags mode : BitVec 32) : BitVec 32 := if flags &&& O_CREAT ≠ 0 then mode else 0

def openCall (pathname : CString) (flags mode : BitVec 32) : Result :=
  fdOpen e pathname flags (creationMode flags mode)

def openatCall (basefd : Int) (pathname : CString) (flags mode : BitVec 32) : Result :=
  fdOpenat e basefd pathname flags (creationMode flags mode)

def close (fd : Int) : Result :=
  let e := e.countClose
  match e.getFile fd with
  | none => .ok (.error .EBADF, e)
  | some i =>
    if e.maxFailures ≠ 0 ∧ e.closeFail = e.closeCalls then
      .ok (.error Errno.EIO, { e with maxFailures := e.maxFailures - 1 })
    else .ok (.value 0 [], e.setFd i .zero)

/-- `memcpy` from a contents array: the bytes, where all of them are there. -/
def copyOut (contents : List Byte) (off count : BitVec 64) : Except Stop (List Byte) :=
  if off.toNat + count.toNat ≤ contents.length then
    .ok ((contents.drop off.toNat).take count.toNat)
  else .error .outOfBounds

theorem size_patch {contents : List Byte} {off count : Nat} (buf : Nat → Byte)
    (h : off + count ≤ contents.length) :
    (contents.take off ++ (List.range count).map buf ++
      contents.drop (off + count)).length = contents.length := by
  simp only [List.length_append, List.length_take, List.length_map, List.length_range,
    List.length_drop]
  omega

/-- `memcpy` to a contents array; no bytes are not copied. -/
def copyIn (df : DiskFile) (off : BitVec 64) (buf : Nat → Byte) (count : BitVec 64) :
    Except Stop DiskFile :=
  if count = 0 then .ok df
  else if h : off.toNat + count.toNat ≤ df.contents.length then
    .ok { df with
      contents := df.contents.take off.toNat ++ (List.range count.toNat).map buf ++
        df.contents.drop (off.toNat + count.toNat)
      size_lt := by rw [size_patch buf h]; exact df.size_lt }
  else .error .outOfBounds

/-- `read` from the symbolic file `d` -/
def readSymbolic (i : Fin maxFds) (d : DiskId) (count : BitVec 64) : Result :=
  let f := e.fds i
  let size : BitVec 64 := (e.disk d).size.setWidth 64
  if f.off.slt 0 then .error .assertion
  else if size.slt f.off then .ok (.value 0 [], e)
  else
    -- The sum is one of unsigned words.
    let count := if size < f.off + count then size - f.off else count
    match copyOut (e.disk d).contents f.off count with
    | .error s => .error s
    | .ok bs => .ok (.value count.toInt bs, e.setFd i { f with off := f.off + count })

/-- `read`; `null` says that `buf` is `NULL`. -/
def read (fd : Int) (null : Bool) (count : BitVec 64) : Result :=
  let e := e.countRead
  if count = 0 then .ok (.value 0 [], e)
  else if null then .ok (.error .EFAULT, e)
  else
    match e.getFile fd with
    | none => .ok (.error .EBADF, e)
    | some i =>
      if e.maxFailures ≠ 0 ∧ e.readFail = e.readCalls then
        .ok (.error Errno.EIO, { e with maxFailures := e.maxFailures - 1 })
      else
        match (e.fds i).dfile with
        | none => .error .system
        | some d => readSymbolic e i d count

/-- `write` to the symbolic file `d` -/
def writeSymbolic (i : Fin maxFds) (d : DiskId) (buf : Nat → Byte) (count : BitVec 64) : Result :=
  let f := e.fds i
  let size : BitVec 64 := (e.disk d).size.setWidth 64
  if ¬ f.off + count ≤ size ∧ e.saveAllWrites then .error .assertion
  else
    let actual_count :=
      if f.off + count ≤ size then count
      else if f.off.slt size then size - f.off else 0
    match copyIn (e.disk d) f.off buf actual_count with
    | .error s => .error s
    | .ok df =>
      let e := (e.setDisk d df).countStdout d actual_count
      .ok (.value count.toInt [], e.setFd i { f with off := f.off + count })

/-- `write`; `buf` are the bytes from the given address on. -/
def write (fd : Int) (buf : Nat → Byte) (count : BitVec 64) : Result :=
  let e := e.countWrite
  match e.getFile fd with
  | none => .ok (.error .EBADF, e)
  | some i =>
    if e.maxFailures ≠ 0 ∧ e.writeFail = e.writeCalls then
      .ok (.error Errno.EIO, { e with maxFailures := e.maxFailures - 1 })
    else
      match (e.fds i).dfile with
      | none => .error .system
      | some d => writeSymbolic e i d buf count

/-- `__fd_lseek` on the symbolic file `d` -/
def lseekSymbolic (i : Fin maxFds) (d : DiskId) (offset : BitVec 64) (whence : Int) : Result :=
  let f := e.fds i
  let new_off : Option (BitVec 64) :=
    if whence = SEEK_SET then some offset
    else if whence = SEEK_CUR then some (f.off + offset)
    else if whence = SEEK_END then some ((e.disk d).size.setWidth 64 + offset)
    else none
  match new_off with
  | none => .ok (.error .EINVAL, e)
  | some new_off =>
    if new_off.slt 0 then .ok (.error .EINVAL, e)
    else .ok (.value new_off.toInt [], e.setFd i { f with off := new_off })

/-- `__fd_lseek` -/
def lseek (fd : Int) (offset : BitVec 64) (whence : Int) : Result :=
  match e.getFile fd with
  | none => .ok (.error .EBADF, e)
  | some i =>
    match (e.fds i).dfile with
    | none => .error .system
    | some d => lseekSymbolic e i d offset whence

def dup2 (oldfd newfd : Int) : Result :=
  match e.getFile oldfd, fdIndex newfd with
  | some i, some j =>
    let closed : Result := if (e.fds j).IsOpen then close e newfd else .ok (.value 0 [], e)
    match closed with
    | .error s => .error s
    | .ok (_, e) =>
      let f := e.fds i
      .ok (.value newfd [], e.setFd j { f with flags := f.flags &&& ~~~eCloseOnExec })
  | _, _ => .ok (.error .EBADF, e)

def dup (oldfd : Int) : Result :=
  match e.getFile oldfd with
  | none => .ok (.error .EBADF, e)
  | some _ =>
    match e.freeFd with
    | none => .ok (.error .EMFILE, e)
    | some fd => dup2 e oldfd fd

inductive Call
  | open (pathname : CString) (flags mode : BitVec 32)
  | openat (basefd : Int) (pathname : CString) (flags mode : BitVec 32)
  | close (fd : Int)
  | read (fd : Int) (null : Bool) (count : BitVec 64)
  | write (fd : Int) (buf : Nat → Byte) (count : BitVec 64)
  | lseek (fd : Int) (offset : BitVec 64) (whence : Int)
  | dup2 (oldfd newfd : Int)
  | dup (oldfd : Int)

def step : Call → Result
  | .open pathname flags mode => openCall e pathname flags mode
  | .openat basefd pathname flags mode => openatCall e basefd pathname flags mode
  | .close fd => close e fd
  | .read fd null count => read e fd null count
  | .write fd buf count => write e fd buf count
  | .lseek fd offset whence => lseek e fd offset whence
  | .dup2 oldfd newfd => dup2 e oldfd newfd
  | .dup oldfd => dup e oldfd

/-- The results of a sequence of calls, the state behind the last of them, and why the next
one did not return. -/
structure Outcome (σ : Type) where
  results : List Ret
  state : σ
  stop : Option Stop

def Outcome.cons {σ : Type} (r : Ret) (o : Outcome σ) : Outcome σ :=
  { o with results := r :: o.results }

def run : Env → List Call → Outcome Env
  | e, [] => ⟨[], e, none⟩
  | e, c :: cs =>
    match step e c with
    | .error s => ⟨[], e, some s⟩
    | .ok (r, e) => (run e cs).cons r

/-- The table before `klee_init_fds` -/
def initialFds (i : Fin maxFds) : ExeFile :=
  if i.val = 0 then ⟨0, eOpen ||| eReadable, 0, none⟩
  else if i.val = 1 then ⟨1, eOpen ||| eWriteable, 0, none⟩
  else if i.val = 2 then ⟨2, eOpen ||| eWriteable, 0, none⟩
  else .zero

/-- The arguments of `klee_init_fds`, with the symbolic values: the files that are made and
the calls that fail. -/
structure InitArgs where
  nFiles : Nat
  symStdin : Bool
  symStdout : Bool
  saveAllWrites : Bool
  maxFailures : Nat
  readFail : Int
  writeFail : Int
  closeFail : Int
  disk : DiskId → DiskFile

/-- `klee_init_fds` -/
def InitArgs.init (a : InitArgs) : Env where
  fds i :=
    if i.val = 0 ∧ a.symStdin then { initialFds i with dfile := some .stdin }
    else if i.val = 1 ∧ a.symStdout then { initialFds i with dfile := some .stdout }
    else initialFds i
  umask := 0x12
  saveAllWrites := a.saveAllWrites
  nSymFiles := a.nFiles
  disk := a.disk
  stdoutWrites := 0
  maxFailures := a.maxFailures
  readFail := a.readFail
  writeFail := a.writeFail
  closeFail := a.closeFail
  readCalls := 0
  writeCalls := 0
  closeCalls := 0

end Klee.Posix
