import Klee.Runtime.Fd
import Klee.Lib.Pointwise
import Klee.Runtime.FdSpec

/-! `__fd_getdents`, with the operating system as a parameter. -/
namespace Klee.Posix

/-- `struct dirent64`; of `d_name` the bytes that are stored. -/
structure Dirent where
  d_ino : BitVec 64
  d_off : BitVec 64
  d_reclen : BitVec 16
  d_type : BitVec 8
  d_name : List Byte
deriving DecidableEq

def sizeofDirent : Nat := 280

def DT_UNKNOWN : BitVec 8 := 0

def IFTODT (mode : BitVec 32) : BitVec 8 := ((mode &&& 0xF000) >>> 12).setWidth 8

/-- An offset in the caller's buffer, and a number of bytes that are stored there -/
abbrev Store := Nat × Nat

namespace Dirent

def stores (pos : Nat) (dp : Dirent) : List Store :=
  [(pos, 8), (pos + 16, 2), (pos + 18, 1), (pos + 19, dp.d_name.length), (pos + 8, 8)]

/-- The record of symbolic file `i`: its name is a letter. -/
def ofFile (e : Env) (i : Nat) : Dirent where
  d_ino := (e.disk (.file i)).st_ino
  d_off := BitVec.ofNat 64 ((i + 1) * sizeofDirent)
  d_reclen := BitVec.ofNat 16 sizeofDirent
  d_type := IFTODT (e.disk (.file i)).st_mode
  d_name := [BitVec.ofNat 8 (65 + i), 0]

def deleted (pad bytes : Nat) : Dirent where
  d_ino := 0
  d_off := 4096
  d_reclen := BitVec.ofInt 16 (pad - bytes)
  d_type := DT_UNKNOWN
  d_name := [0]

end Dirent

/-- `++dirp` goes on by the size of the type. -/
def layout : Nat → List Dirent → List Store
  | _, [] => []
  | pos, dp :: dps => dp.stores pos ++ layout (pos + sizeofDirent) dps

/-- The calls of the operating system; `-1` is all ones. `getdents64` returns a number of bytes and
the records that it puts there. -/
structure System (σ : Type) where
  lseek : σ → Int → BitVec 64 → Int → σ × BitVec 64
  getdents64 : σ → Int → BitVec 32 → σ × Int × List Dirent

inductive Source
  | runtime
  | system
deriving DecidableEq

structure Dirents where
  source : Source
  stores : List Store
  records : List Dirent
  ret : Int
  errno : Option Errno

def Dirents.failed (errno : Errno) : Dirents := ⟨.runtime, [], [], -1, some errno⟩

def patchOffsets (res : Int) : Nat → List Dirent → List Dirent × List Store
  | _, [] => ([], [])
  | pos, dp :: dps =>
    if pos < res then
      let r := patchOffsets res (pos + dp.d_reclen.toNat) dps
      ({ dp with d_off := dp.d_off + 4096 } :: r.1, (pos + 8, 8) :: r.2)
    else (dp :: dps, [])

variable {σ : Type} (sys : System σ)

/-- The records of the symbolic files from file `i` on. The number of bytes is an `int`. -/
def ownDirents (e : Env) (i : Nat) (count : BitVec 32) : Dirents :=
  let files := (List.range' i (e.nSymFiles - i)).map (Dirent.ofFile e)
  let bytes := files.length * sizeofDirent
  let pad := if 4096 ≤ count.toNat then 4096 else count.toNat
  let last := Dirent.deleted pad bytes
  ⟨.runtime, layout 0 (files ++ [last]), files ++ [last],
    (BitVec.ofNat 32 (bytes + last.d_reclen.toNat)).toInt, none⟩

def fdGetdents (e : Env) (s : σ) (fd : Int) (count : BitVec 32) :
    Except Stop (Dirents × Env × σ) :=
  match e.getFile fd with
  | none => .ok (.failed .EBADF, e, s)
  | some k =>
    let f := e.fds k
    match f.dfile with
    | some _ => .ok (.failed .EINVAL, e, s)
    | none =>
      if f.off.toNat < 4096 then
        let i := f.off.toNat / sizeofDirent
        if i * sizeofDirent ≠ f.off.toNat ∨ e.nSymFiles < i then .ok (.failed .EINVAL, e, s)
        else
          let pad := if 4096 ≤ count.toNat then 4096 else count.toNat
          .ok (ownDirents e i count, e.setFd k { f with off := BitVec.ofNat 64 pad }, s)
      else
        let sought := sys.lseek s f.fd (f.off - 4096) SEEK_SET
        if sought.2 = -1 then .error .assertion
        else
          let (s, res, records) := sys.getdents64 sought.1 f.fd count
          if -1 < res then
            let now := sys.lseek s f.fd 0 SEEK_CUR
            if now.2 = -1 then .error .assertion
            else
              let patched := patchOffsets res 0 records
              .ok (⟨.system, (0, count.toNat) :: (0, res.toNat) :: patched.2, patched.1, res, none⟩,
                e.setFd k { f with off := now.2 + 4096 }, now.1)
          else .ok (⟨.system, [(0, count.toNat)], [], res, none⟩, e, s)

def getdentsRun (fd : Int) : Env → σ → List (BitVec 32) → Except Stop (List Dirents)
  | _, _, [] => .ok []
  | e, s, count :: counts =>
    match fdGetdents sys e s fd count with
    | .error stop => .error stop
    | .ok (o, e, s) => (getdentsRun fd e s counts).map (o :: ·)

end Klee.Posix

/-! When `__fd_getdents` lists a directory as it should. -/
namespace Klee.Posix

variable {σ : Type} {sys : System σ} {e : Env} {s : σ} {fd : Int} {k : Fin maxFds}
  {count : BitVec 32}

section Meaning

/-- What is relied on for a directory of the operating system: it is positioned at its start and at
the positions it reports, and `getdents64` returns whole records. -/
structure Directory (sys : System σ) (fd : Int) (Position : BitVec 64 → Prop) : Prop where
  start : Position 0
  seek : ∀ s pos, Position pos → (sys.lseek s fd pos SEEK_SET).2 ≠ -1
  report : ∀ s, Position (sys.lseek s fd 0 SEEK_CUR).2
  nonneg : ∀ pos, Position pos → pos.toNat < 2 ^ 63
  fits : ∀ s count, -1 < (sys.getdents64 s fd count).2.1 →
    (sys.getdents64 s fd count).2.1 ≤ count.toNat
  whole : ∀ s count, -1 < (sys.getdents64 s fd count).2.1 →
    (sys.getdents64 s fd count).2.1 =
      (((sys.getdents64 s fd count).2.2.map (·.d_reclen.toNat)).sum : Nat)
  holdsName : ∀ s count, ∀ dp ∈ (sys.getdents64 s fd count).2.2, 19 < dp.d_reclen.toNat

/-- A call stores inside its buffer, and returns the sum of the lengths of its records or what the
operating system fails with. -/
def Dirents.Right (count : BitVec 32) (o : Dirents) : Prop :=
  (∀ store ∈ o.stores, store.1 + store.2 ≤ count.toNat) ∧
    (o.source = .system ∧ o.ret < 0 ∨
      (∀ dp ∈ o.records, 0 < dp.d_reclen.toNat) ∧
        o.ret = ((o.records.map (·.d_reclen.toNat)).sum : Nat))

def Dirents.listed (o : Dirents) : List Dirent := o.records.filter (·.d_ino ≠ 0)

/-- Every symbolic file is listed once, and then come the records of the operating system. -/
def ListsFiles (e : Env) (os : List Dirents) : Prop :=
  ∃ own system, os = own ++ system ∧ (∀ o ∈ own, o.source = .runtime) ∧
    (∀ o ∈ system, o.source = .system) ∧
    own.flatMap Dirents.listed <+: (List.range e.nSymFiles).map (Dirent.ofFile e) ∧
    (system ≠ [] → own.flatMap Dirents.listed = (List.range e.nSymFiles).map (Dirent.ofFile e))

def padding (nSymFiles : Nat) (count : BitVec 32) : Nat :=
  (((min count.toNat 4096 : Nat) - (nSymFiles * sizeofDirent : Nat) : Int) % 2 ^ 16).toNat

/-- The buffer of the first call holds all fields that are stored, the deleted record has a length
and the sum is an `int`. If there is another call, the first one has a page. -/
def FineCounts (nSymFiles : Nat) : List (BitVec 32) → Prop
  | [] => True
  | count :: counts =>
    nSymFiles * sizeofDirent + 20 ≤ count.toNat ∧ 0 < padding nSymFiles count ∧
      nSymFiles * sizeofDirent + padding nSymFiles count < 2 ^ 31 ∧
      (counts = [] ∨ 4096 ≤ count.toNat)

end Meaning

section Layout

theorem layout_append (pos : Nat) (dps dps' : List Dirent) : layout pos (dps ++ dps') =
    layout pos dps ++ layout (pos + dps.length * sizeofDirent) dps' := by
  induction dps generalizing pos with
  | nil => simp [layout]
  | cons dp dps ih =>
    have hpos : pos + sizeofDirent + dps.length * sizeofDirent =
        pos + (dps.length + 1) * sizeofDirent := by ring
    rw [List.cons_append, layout, layout, ih, List.append_assoc, List.length_cons, hpos]

theorem stores_inside_iff (pos bound : Nat) (dp : Dirent) :
    (∀ store ∈ dp.stores pos, store.1 + store.2 ≤ bound) ↔
      pos + 19 + dp.d_name.length ≤ bound := by
  simp only [Dirent.stores, List.mem_cons, List.not_mem_nil, or_false, forall_eq_or_imp, forall_eq]
  omega

/-- Records with names of one letter end before the next record begins. -/
theorem layout_inside {pos bound : Nat} {dps : List Dirent}
    (hname : ∀ dp ∈ dps, dp.d_name.length = 2) (hbound : pos + dps.length * sizeofDirent ≤ bound) :
    ∀ store ∈ layout pos dps, store.1 + store.2 ≤ bound := by
  induction dps generalizing pos with
  | nil => simp [layout]
  | cons dp dps ih =>
    rw [List.forall_mem_cons] at hname
    rw [List.length_cons, Nat.succ_mul] at hbound
    rw [layout, List.forall_mem_append]
    refine ⟨(stores_inside_iff pos bound dp).mpr ?_, ih hname.2 (by omega)⟩
    rw [hname.1]
    simp only [sizeofDirent] at hbound
    omega

end Layout

section Start

theorem length_files (e : Env) :
    ((List.range' 0 (e.nSymFiles - 0)).map (Dirent.ofFile e)).length = e.nSymFiles := by
  simp

theorem deleted_reclen (e : Env) (count : BitVec 32) :
    (Dirent.deleted (if 4096 ≤ count.toNat then 4096 else count.toNat)
      (e.nSymFiles * sizeofDirent)).d_reclen.toNat = padding e.nSymFiles count := by
  have hpad : (if 4096 ≤ count.toNat then 4096 else count.toNat) = min count.toNat 4096 := by
    split_ifs <;> omega
  rw [hpad, Dirent.deleted, BitVec.toNat_ofInt, padding]
  norm_cast

theorem toInt_ofNat_iff (n : Nat) : (BitVec.ofNat 32 n).toInt = n ↔ n < 2 ^ 31 := by
  rw [BitVec.toInt_ofNat', Int.bmod_def]
  omega

theorem reclen_ofFile (e : Env) (i : Nat) :
    (Dirent.ofFile e i).d_reclen.toNat = sizeofDirent := rfl

theorem sum_files (e : Env) (is : List Nat) :
    ((is.map (Dirent.ofFile e)).map (·.d_reclen.toNat)).sum = is.length * sizeofDirent := by
  rw [List.map_map, Function.comp_def]
  simp only [reclen_ofFile, List.map_const', List.sum_replicate, smul_eq_mul]

/-- The call at offset 0 -/
theorem ownDirents_right_iff (e : Env) (count : BitVec 32) :
    (ownDirents e 0 count).Right count ↔
      e.nSymFiles * sizeofDirent + 20 ≤ count.toNat ∧ 0 < padding e.nSymFiles count ∧
        e.nSymFiles * sizeofDirent + padding e.nSymFiles count < 2 ^ 31 := by
  have hstores : (∀ store ∈ (ownDirents e 0 count).stores, store.1 + store.2 ≤ count.toNat) ↔
      e.nSymFiles * sizeofDirent + 20 ≤ count.toNat := by
    simp only [ownDirents, layout_append, List.forall_mem_append, layout, List.append_nil,
      stores_inside_iff, length_files]
    simp only [Dirent.deleted, List.length_cons, List.length_nil, Nat.zero_add]
    refine ⟨fun h => h.2, fun h => ⟨layout_inside ?_ (by rw [length_files]; omega), h⟩⟩
    intro dp hdp
    obtain ⟨i, -, rfl⟩ := List.mem_map.mp hdp
    rfl
  have hpositive : (∀ dp ∈ (ownDirents e 0 count).records, 0 < dp.d_reclen.toNat) ↔
      0 < padding e.nSymFiles count := by
    rw [ownDirents, List.forall_mem_append, List.forall_mem_singleton, length_files,
      deleted_reclen]
    refine and_iff_right fun dp hdp => ?_
    obtain ⟨i, -, rfl⟩ := List.mem_map.mp hdp
    rw [reclen_ofFile]
    decide
  have hret : (ownDirents e 0 count).ret =
      (BitVec.ofNat 32 (e.nSymFiles * sizeofDirent + padding e.nSymFiles count)).toInt := by
    rw [ownDirents, length_files, deleted_reclen]
  have hsum : ((ownDirents e 0 count).records.map (·.d_reclen.toNat)).sum =
      e.nSymFiles * sizeofDirent + padding e.nSymFiles count := by
    rw [ownDirents, List.map_append, List.sum_append, sum_files, length_files, List.length_range',
      List.map_cons, List.map_nil, List.sum_singleton, deleted_reclen, Nat.sub_zero]
  rw [Dirents.Right, hstores, hpositive, hret, hsum, toInt_ofNat_iff]
  simp only [ownDirents, reduceCtorEq, false_and, false_or]

theorem listed_ownDirents (hino : ∀ i < e.nSymFiles, (e.disk (.file i)).st_ino ≠ 0)
    (count : BitVec 32) :
    (ownDirents e 0 count).listed = (List.range e.nSymFiles).map (Dirent.ofFile e) := by
  have hfiles : ((List.range e.nSymFiles).map (Dirent.ofFile e)).filter (·.d_ino ≠ 0) =
      (List.range e.nSymFiles).map (Dirent.ofFile e) := by
    refine List.filter_eq_self.mpr fun dp hdp => ?_
    obtain ⟨i, hi, rfl⟩ := List.mem_map.mp hdp
    exact decide_eq_true (hino i (List.mem_range.mp hi))
  rw [Dirents.listed, ownDirents, Nat.sub_zero, ← List.range_eq_range', List.filter_append, hfiles]
  simp [Dirent.deleted]

end Start

section Calls

structure AtDirectory (e : Env) (fd : Int) (k : Fin maxFds) : Prop where
  file : e.getFile fd = some k
  concrete : (e.fds k).dfile = none

theorem AtDirectory.move (h : AtDirectory e fd k) (off : BitVec 64) :
    AtDirectory (e.setFd k { e.fds k with off := off }) fd k where
  file := by
    obtain ⟨hindex, hopen⟩ := getFile_eq_some.mp h.file
    refine getFile_eq_some.mpr ⟨hindex, ?_⟩
    simpa [Env.setFd, ExeFile.IsOpen] using hopen
  concrete := by
    simp [Env.setFd, h.concrete]

theorem off_move (off : BitVec 64) :
    ((e.setFd k { e.fds k with off := off }).fds k).off = off := by
  simp [Env.setFd]

theorem fd_move (off : BitVec 64) :
    ((e.setFd k { e.fds k with off := off }).fds k).fd = (e.fds k).fd := by
  simp [Env.setFd]

theorem fdGetdents_start (sys : System σ) (h : AtDirectory e fd k) (hoff : (e.fds k).off = 0)
    (s : σ) (count : BitVec 32) : fdGetdents sys e s fd count = .ok (ownDirents e 0 count,
      e.setFd k { e.fds k with off := BitVec.ofNat 64 (min count.toNat 4096) }, s) := by
  have hpad : (if 4096 ≤ count.toNat then 4096 else count.toNat) = min count.toNat 4096 := by
    split_ifs <;> omega
  simp [fdGetdents, h.file, h.concrete, hoff, hpad]

/-- Behind a first call with less than a page there is no record. -/
theorem fdGetdents_between (sys : System σ) (h : AtDirectory e fd k) {bytes : Nat}
    (hoff : (e.fds k).off = BitVec.ofNat 64 bytes)
    (hbytes : e.nSymFiles * sizeofDirent + 20 ≤ bytes) (hpage : bytes < 4096) (s : σ)
    (count : BitVec 32) : fdGetdents sys e s fd count = .ok (.failed .EINVAL, e, s) := by
  have hnat : (e.fds k).off.toNat = bytes := by
    rw [hoff, BitVec.toNat_ofNat]
    omega
  have hbad : bytes / sizeofDirent * sizeofDirent ≠ bytes ∨ e.nSymFiles < bytes / sizeofDirent := by
    simp only [sizeofDirent] at hbytes ⊢
    omega
  simp only [fdGetdents, h.file, h.concrete, hnat, if_pos hpage, if_pos hbad]

theorem failed_not_right (errno : Errno) : ¬ (Dirents.failed errno).Right count := by
  rintro ⟨-, ⟨hsource, -⟩ | ⟨-, hret⟩⟩
  · cases hsource
  · simp [Dirents.failed] at hret

end Calls

section System

variable {Position : BitVec 64 → Prop} {pos : BitVec 64}

theorem patchOffsets_spec (res : Int) (start : Nat) {dps : List Dirent}
    (hname : ∀ dp ∈ dps, 19 < dp.d_reclen.toNat) :
    (patchOffsets res start dps).1.map (·.d_reclen.toNat) = dps.map (·.d_reclen.toNat) ∧
      ∀ store ∈ (patchOffsets res start dps).2,
        store.1 + store.2 ≤ start + (dps.map (·.d_reclen.toNat)).sum := by
  induction dps generalizing start with
  | nil => simp [patchOffsets]
  | cons dp dps ih =>
    rw [List.forall_mem_cons] at hname
    obtain ⟨hlens, hstores⟩ := ih (start + dp.d_reclen.toNat) hname.2
    rw [patchOffsets]
    split_ifs with hpos
    · refine ⟨congrArg (dp.d_reclen.toNat :: ·) hlens,
        List.forall_mem_cons.mpr ⟨?_, fun store hstore => ?_⟩⟩
      · have hhead := hname.1
        simp only [List.map_cons, List.sum_cons]
        omega
      · have hrest := hstores store hstore
        simp only [List.map_cons, List.sum_cons]
        omega
    · exact ⟨rfl, by simp⟩

/-- A call behind the first page -/
theorem fdGetdents_system (hdir : Directory sys (e.fds k).fd Position) (h : AtDirectory e fd k)
    (hpos : Position pos) (hoff : (e.fds k).off = pos + 4096) (s : σ) (count : BitVec 32) :
    ∃ o pos' s', o.source = .system ∧ o.Right count ∧ Position pos' ∧
      fdGetdents sys e s fd count =
        .ok (o, e.setFd k { e.fds k with off := pos' + 4096 }, s') := by
  have hsmall := hdir.nonneg pos hpos
  have hfar : ¬ (e.fds k).off.toNat < 4096 := by
    have hoffset : (4096 : BitVec 64).toNat = 4096 := rfl
    rw [hoff, BitVec.toNat_add, hoffset]
    omega
  have hback : (e.fds k).off - 4096 = pos := by
    rw [hoff, BitVec.add_sub_cancel]
  have hsame : e.setFd k { e.fds k with off := pos + 4096 } = e := by
    rw [← hoff]
    exact congrArg (fun fds => { e with fds := fds }) (Function.update_eq_self k e.fds)
  have hseek := hdir.seek s pos hpos
  have hfits := hdir.fits (sys.lseek s (e.fds k).fd pos SEEK_SET).1 count
  have hwhole := hdir.whole (sys.lseek s (e.fds k).fd pos SEEK_SET).1 count
  have hname := hdir.holdsName (sys.lseek s (e.fds k).fd pos SEEK_SET).1 count
  obtain ⟨⟨s₁, res, records⟩, hcall⟩ : ∃ r, sys.getdents64
      (sys.lseek s (e.fds k).fd pos SEEK_SET).1 (e.fds k).fd count = r := ⟨_, rfl⟩
  rw [hcall] at hfits hwhole hname
  dsimp only at hfits hwhole hname
  simp only [fdGetdents, h.file, h.concrete, if_neg hfar, hback, if_neg hseek, hcall]
  by_cases hres : -1 < res
  · have hreport := hdir.report s₁
    have hvalid : (sys.lseek s₁ (e.fds k).fd 0 SEEK_CUR).2 ≠ -1 := by
      intro hfail
      have hnonneg := hdir.nonneg _ hreport
      rw [hfail] at hnonneg
      exact absurd hnonneg (by decide)
    obtain ⟨hlens, hstores⟩ := patchOffsets_spec res 0 hname
    simp only [if_pos hres, if_neg hvalid]
    have hbytes : res = ((records.map (·.d_reclen.toNat)).sum : Nat) := hwhole hres
    have hcount : res ≤ count.toNat := hfits hres
    refine ⟨⟨.system, (0, count.toNat) :: (0, res.toNat) :: (patchOffsets res 0 records).2,
      (patchOffsets res 0 records).1, res, none⟩, (sys.lseek s₁ (e.fds k).fd 0 SEEK_CUR).2,
      (sys.lseek s₁ (e.fds k).fd 0 SEEK_CUR).1, rfl, ⟨?_, .inr ⟨?_, ?_⟩⟩, hreport, rfl⟩
    · refine List.forall_mem_cons.mpr ⟨by simp, List.forall_mem_cons.mpr ⟨?_, ?_⟩⟩
      · omega
      · intro store hstore
        have hinside := hstores store hstore
        omega
    · intro dp hdp
      have hlen : dp.d_reclen.toNat ∈ records.map (·.d_reclen.toNat) :=
        hlens ▸ List.mem_map_of_mem hdp
      obtain ⟨dp', hdp', heq⟩ := List.mem_map.mp hlen
      exact heq ▸ (Nat.zero_lt_of_lt (hname dp' hdp'))
    · rw [hlens, hbytes]
  · simp only [if_neg hres]
    refine ⟨⟨.system, [(0, count.toNat)], [], res, none⟩, pos, s₁, rfl, ⟨by simp, .inl ⟨rfl, ?_⟩⟩,
      hpos, ?_⟩
    · simp only
      omega
    · simp only [h.concrete] at hsame
      rw [hsame]

theorem getdentsRun_system (counts : List (BitVec 32)) :
    ∀ {e : Env} {pos : BitVec 64} {s : σ}, Directory sys (e.fds k).fd Position →
      AtDirectory e fd k → Position pos → (e.fds k).off = pos + 4096 →
      ∃ os, getdentsRun sys fd e s counts = .ok os ∧ List.Forall₂ Dirents.Right counts os ∧
        ∀ o ∈ os, o.source = .system := by
  induction counts with
  | nil => exact fun _ _ _ _ => ⟨[], rfl, .nil, by simp⟩
  | cons count counts ih =>
    intro e pos s hdir h hpos hoff
    obtain ⟨o, pos', s', hsource, hright, hpos', hcall⟩ :=
      fdGetdents_system hdir h hpos hoff s count
    obtain ⟨os, hos, hrights, hsources⟩ := ih (s := s') (by rwa [fd_move]) (h.move (pos' + 4096))
      hpos' (off_move _)
    refine ⟨o :: os, ?_, .cons hright hrights, List.forall_mem_cons.mpr ⟨hsource, hsources⟩⟩
    rw [getdentsRun, hcall]
    simp only [hos]
    rfl

end System

theorem map_ok {α β : Type} {f : α → β} {x : Except Stop α} {b : β} (h : x.map f = .ok b) :
    ∃ a, x = .ok a ∧ f a = b := by
  cases x with
  | error stop => cases h
  | ok a => exact ⟨a, rfl, Except.ok.inj h⟩

/-- Every number of symbolic files, every sequence of calls that starts at offset 0 -/
theorem getdents_right_iff {Position : BitVec 64 → Prop}
    (hdir : Directory sys (e.fds k).fd Position) (h : AtDirectory e fd k)
    (hoff : (e.fds k).off = 0) (hino : ∀ i < e.nSymFiles, (e.disk (.file i)).st_ino ≠ 0) (s : σ)
    (counts : List (BitVec 32)) :
    (∃ os, getdentsRun sys fd e s counts = .ok os ∧ List.Forall₂ Dirents.Right counts os ∧
      ListsFiles e os) ↔ FineCounts e.nSymFiles counts := by
  cases counts with
  | nil =>
    refine iff_of_true ⟨[], rfl, .nil, [], [], rfl, by simp, by simp, ?_, by simp⟩ trivial
    exact List.nil_prefix
  | cons count counts =>
    have hright := ownDirents_right_iff e count
    have hmoved := h.move (BitVec.ofNat 64 (min count.toNat 4096))
    have hcall := fdGetdents_start sys h hoff s count
    constructor
    · rintro ⟨os, hos, hrights, -⟩
      rw [getdentsRun, hcall] at hos
      obtain ⟨os', hos', rfl⟩ := map_ok hos
      obtain ⟨hfirst, hrest⟩ := List.forall₂_cons.mp hrights
      obtain ⟨hfits, hpad, hint⟩ := hright.mp hfirst
      refine ⟨hfits, hpad, hint, or_iff_not_imp_right.mpr fun hpage => ?_⟩
      cases counts with
      | nil => rfl
      | cons count' counts =>
        -- the second call is refused
        have hbetween := fdGetdents_between sys hmoved (off_move _)
          (by simp only [Env.setFd]; omega) (by omega) s count'
        rw [getdentsRun, hbetween] at hos'
        obtain ⟨os'', -, rfl⟩ := map_ok hos'
        exact absurd (List.forall₂_cons.mp hrest).1 (failed_not_right _)
    · rintro ⟨hfits, hpad, hint, hpage⟩
      have hlisted := listed_ownDirents hino count
      have hown : ∀ o ∈ [ownDirents e 0 count], o.source = .runtime := by simp [ownDirents]
      have hall : [ownDirents e 0 count].flatMap Dirents.listed =
          (List.range e.nSymFiles).map (Dirent.ofFile e) := by
        rw [List.flatMap_singleton, hlisted]
      rcases hpage with rfl | hpage
      · refine ⟨[ownDirents e 0 count], ?_, .cons (hright.mpr ⟨hfits, hpad, hint⟩) .nil,
          [ownDirents e 0 count], [], rfl, hown, by simp, hall ▸ List.prefix_rfl, fun _ => hall⟩
        rw [getdentsRun, hcall]
        rfl
      · obtain ⟨os, hos, hrights, hsystem⟩ := getdentsRun_system (s := s) counts
          (by rwa [fd_move]) hmoved hdir.start (by rw [off_move, min_eq_right hpage]; rfl)
        refine ⟨ownDirents e 0 count :: os, ?_, .cons (hright.mpr ⟨hfits, hpad, hint⟩) hrights,
          [ownDirents e 0 count], os, rfl, hown, hsystem, hall ▸ List.prefix_rfl, fun _ => hall⟩
        rw [getdentsRun, hcall]
        simp only [hos]
        rfl

def emptyDirectory : System Unit where
  lseek _ _ _ _ := ((), 0)
  getdents64 _ _ _ := ((), 0, [])

theorem directory_empty (fd : Int) : Directory emptyDirectory fd (· = 0) where
  start := rfl
  seek := by simp [emptyDirectory]
  report := fun _ => rfl
  nonneg := by simp
  fits := fun _ count _ => Int.natCast_nonneg count.toNat
  whole := fun _ _ _ => rfl
  holdsName := by simp [emptyDirectory]

theorem threeBytes_lt : ([1, 2, 3] : List (BitVec 8)).length < 2 ^ 32 := by decide

def openDirectory : Env :=
  InitArgs.init
    { nFiles := 1, symStdin := false, symStdout := false, saveAllWrites := false, maxFailures := 0,
      readFail := 0, writeFail := 0, closeFail := 0,
      disk := fun _ => ⟨[1, 2, 3], threeBytes_lt, 0x81a4, 1⟩ }
    |>.setFd ⟨3, by decide⟩ ⟨5, eOpen ||| eReadable, 0, none⟩

theorem getdents_right_openDirectory :
    ∃ os, getdentsRun emptyDirectory 3 openDirectory () [8192, 300, 300] = .ok os ∧
      List.Forall₂ Dirents.Right [8192, 300, 300] os ∧ ListsFiles openDirectory os :=
  (getdents_right_iff (directory_empty 5) (k := ⟨3, by decide⟩) ⟨rfl, rfl⟩ rfl (by decide) ()
    [8192, 300, 300]).mpr ⟨by decide, by decide, by decide, .inr (by decide)⟩

/-- The record of the file fits, and the deleted record is put behind the buffer. After a call with
a smaller buffer than a page the next call is refused. -/
theorem getdents_overflow :
    getdentsRun emptyDirectory 3 openDirectory () [280] = .ok [ownDirents openDirectory 0 280] ∧
    (∃ store ∈ (ownDirents openDirectory 0 280).stores, 280 < store.1 + store.2) ∧
    getdentsRun emptyDirectory 3 openDirectory () [1024, 1024] =
      .ok [ownDirents openDirectory 0 1024, .failed .EINVAL] :=
  ⟨rfl, ⟨(280, 8), by decide, by decide⟩, rfl⟩

end Klee.Posix
