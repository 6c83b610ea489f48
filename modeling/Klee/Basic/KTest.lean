import Mathlib.Data.List.TakeWhile
import Klee.Lib.Reading

/-! `KTest.cpp`: test files. Memory can always be had; as with the C library that KLEE is built
with, an allocation of no bytes succeeds too. -/
namespace Klee

open Reading

abbrev Byte := BitVec 8

abbrev Unsigned := BitVec 32

/-- `char *`, without the byte that ends it. -/
structure CString where
  chars : List Byte
  not_mem : 0 ∉ chars

def CString.ofBuffer (b : List Byte) : CString where
  chars := b.takeWhile (· ≠ 0)
  not_mem h := by simpa using List.mem_takeWhile_imp h

/-- `numBytes` is the length of `bytes`. -/
structure KTestObject where
  name : CString
  bytes : List Byte
  numBytes_lt : bytes.length < 2 ^ 32

/-- `numArgs` and `numObjects` are the lengths of `args` and `objects`. -/
structure KTest where
  version : Unsigned
  args : List CString
  numArgs_lt : args.length < 2 ^ 32
  symArgvs : Unsigned
  symArgvLen : Unsigned
  objects : List KTestObject
  numObjects_lt : objects.length < 2 ^ 32

namespace KTest

/-- The ways to fail: a null pointer is returned, or bytes are written past the end of a buffer. -/
inductive Failure where
  | rejected
  | overrun
deriving DecidableEq

section Write

/-- `fwrite(data, size, 1, f) == 1`: what is written. No item is written of size 0. -/
def fwrite (data : List Byte) (size : Nat) : Option (List Byte) :=
  if size = 0 then none else some (data.take size)

def write_uint32 (value : Unsigned) : List Byte :=
  [(value >>> 24).setWidth 8, (value >>> 16).setWidth 8, (value >>> 8).setWidth 8,
    (value >>> 0).setWidth 8]

def write_string (value : CString) : Option (List Byte) := do
  let len : Unsigned := BitVec.ofNat 32 value.chars.length
  let chars ← fwrite value.chars len.toNat
  return write_uint32 len ++ chars

def KTEST_MAGIC : List Byte := [0x4B, 0x54, 0x45, 0x53, 0x54]

def KTEST_VERSION : Unsigned := 3

def write_object (o : KTestObject) : Option (List Byte) := do
  let name ← write_string o.name
  let bytes ← fwrite o.bytes o.bytes.length
  return name ++ write_uint32 (BitVec.ofNat 32 o.bytes.length) ++ bytes

def write_all {α : Type} (write : α → Option (List Byte)) : List α → Option (List Byte)
  | [] => some []
  | a :: l => do
    let first ← write a
    let rest ← write_all write l
    return first ++ rest

/-- The contents of the file; `none` is the return value 0. -/
def kTest_toFile (bo : KTest) : Option (List Byte) := do
  let args ← write_all write_string bo.args
  let objects ← write_all write_object bo.objects
  return KTEST_MAGIC ++ write_uint32 KTEST_VERSION ++ write_uint32 (BitVec.ofNat 32 bo.args.length) ++
    args ++ write_uint32 bo.symArgvs ++ write_uint32 bo.symArgvLen ++
    write_uint32 (BitVec.ofNat 32 bo.objects.length) ++ objects

end Write

section Read

abbrev FileReader := Reader Byte Failure

/-- `fread(data, size, 1, f) == 1`, where `data` has room for `capacity` bytes. -/
def fread (capacity size : Nat) : FileReader { l : List Byte // l.length = size } := fun f =>
  if capacity < min size f.length then .error .overrun else Reading.take .rejected size f

def read_uint32 : FileReader Unsigned := do
  let data ← fread 4 4
  let ⟨[d₀, d₁, d₂, d₃], _⟩ := data
  return (((((d₀.setWidth 32 <<< 8) + d₁.setWidth 32) <<< 8) + d₂.setWidth 32) <<< 8) +
    d₃.setWidth 32

def read_string : FileReader CString := do
  let len ← read_uint32
  let value ← fread (len + 1).toNat len.toNat
  return .ofBuffer value.1

def BOUT_MAGIC : List Byte := [0x42, 0x4F, 0x55, 0x54, 0x0A]

def kTest_checkHeader : FileReader Unit := do
  let header ← fread 5 5
  if header.1 ≠ KTEST_MAGIC ∧ header.1 ≠ BOUT_MAGIC then throw .rejected

def read_object : FileReader KTestObject := do
  let name ← read_string
  let numBytes ← read_uint32
  let bytes ← fread numBytes.toNat numBytes.toNat
  return { name, bytes := bytes.1, numBytes_lt := by rw [bytes.2]; exact numBytes.isLt }

/-- `symArgvs` and `symArgvLen`, which are 0 in an older file. -/
def read_symArgvs (version : Unsigned) : FileReader (Unsigned × Unsigned) :=
  if version ≥ 2 then do
    let symArgvs ← read_uint32
    let symArgvLen ← read_uint32
    return (symArgvs, symArgvLen)
  else return (0, 0)

def read_file : FileReader KTest := do
  kTest_checkHeader
  let version ← read_uint32
  (if version > KTEST_VERSION then throw .rejected else pure ())
  let numArgs ← read_uint32
  let args ← many read_string numArgs.toNat
  let symArgv ← read_symArgvs version
  let numObjects ← read_uint32
  let objects ← many read_object numObjects.toNat
  return { version, args := args.1, numArgs_lt := by rw [args.2]; exact numArgs.isLt
           symArgvs := symArgv.1, symArgvLen := symArgv.2
           objects := objects.1, numObjects_lt := by rw [objects.2]; exact numObjects.isLt }

def kTest_fromFile (file : List Byte) : Except Failure KTest := do
  let (res, _) ← read_file.run file
  return res

end Read

end KTest

end Klee

/-! A test is read back from its file unless it has something empty in it, or a string too long for
its length field. -/
namespace Klee

namespace KTest

open Reading

/-- A string whose length, with the byte that ends it, is an `unsigned` other than 0. -/
structure Storable (s : CString) : Prop where
  ne_nil : s.chars ≠ []
  length_lt : s.chars.length + 1 < 2 ^ 32

structure StorableObject (o : KTestObject) : Prop where
  name : Storable o.name
  bytes : o.bytes ≠ []

structure StorableTest (t : KTest) : Prop where
  args : ∀ s ∈ t.args, Storable s
  objects : ∀ o ∈ t.objects, StorableObject o

def ValidFile (file : List Byte) : Prop := ∃ t, read_file.run file = .ok (t, [])

def RoundTrips (t : KTest) : Prop :=
  ∃ file, kTest_toFile t = some file ∧ ValidFile file ∧
    kTest_fromFile file = .ok { t with version := KTEST_VERSION }

def RejectsPrefixes (file : List Byte) : Prop :=
  ∀ p, p <+: file → p ≠ file → kTest_fromFile p = .error .rejected

section Local

theorem fread_of_le {capacity size : Nat} {f : List Byte} (h : min size f.length ≤ capacity) :
    (fread capacity size).run f = (take .rejected size).run f :=
  if_neg (not_lt.mpr h)

theorem fread_of_lt {capacity size : Nat} {f : List Byte} (h : capacity < min size f.length) :
    (fread capacity size).run f = .error .overrun :=
  if_pos h

theorem local_fread (capacity size : Nat) : Local .rejected (fread capacity size) where
  ok {xs a rest} h ys := by
    rcases le_or_gt (min size xs.length) capacity with hc | hc
    · rw [fread_of_le hc] at h
      have hs : size ≤ xs.length := by
        by_contra hlt
        rw [take_of_lt (Or.inr (not_le.mp hlt))] at h
        cases h
      rw [fread_of_le (by rw [List.length_append]; omega)]
      exact (local_take size).ok h ys
    · rw [fread_of_lt hc] at h
      cases h
  error {xs e} h hne ys := by
    rcases le_or_gt (min size xs.length) capacity with hc | hc
    · rw [fread_of_le hc] at h
      by_cases hs : size = 0 ∨ xs.length < size
      · rw [take_of_lt hs] at h
        cases h
        exact absurd rfl hne
      · rw [not_or, not_lt] at hs
        rw [take_of_le hs.1 hs.2] at h
        cases h
    · rw [fread_of_lt hc] at h
      cases h
      exact fread_of_lt (by rw [List.length_append]; omega)

theorem local_read_uint32 : Local .rejected read_uint32 :=
  (local_fread 4 4).bind fun ⟨[_, _, _, _], _⟩ => local_pure _

theorem local_read_string : Local .rejected read_string :=
  local_read_uint32.bind fun _ => (local_fread _ _).bind fun _ => local_pure _

theorem local_read_object : Local .rejected read_object :=
  local_read_string.bind fun _ => local_read_uint32.bind fun _ =>
    (local_fread _ _).bind fun _ => local_pure _

theorem local_kTest_checkHeader : Local .rejected kTest_checkHeader :=
  (local_fread 5 5).bind fun header => by
    split
    · exact local_throw _
    · exact local_pure _

theorem local_read_symArgvs (version : Unsigned) : Local .rejected (read_symArgvs version) := by
  rw [read_symArgvs]
  split
  · exact local_read_uint32.bind fun _ => local_read_uint32.bind fun _ => local_pure _
  · exact local_pure _

theorem local_read_file : Local .rejected read_file := by
  refine local_kTest_checkHeader.bind fun _ => local_read_uint32.bind fun version =>
    Local.bind ?_ fun _ => local_read_uint32.bind fun _ =>
    (local_many local_read_string _).bind fun _ => (local_read_symArgvs version).bind fun _ =>
    local_read_uint32.bind fun _ => (local_many local_read_object _).bind fun _ => local_pure _
  split
  · exact local_throw _
  · exact local_pure _

theorem kTest_fromFile_of_run {file rest : List Byte} {t : KTest}
    (h : read_file.run file = .ok (t, rest)) : kTest_fromFile file = .ok t := by
  rw [kTest_fromFile, h]
  rfl

theorem kTest_fromFile_of_error {file : List Byte} {e : Failure}
    (h : read_file.run file = .error e) : kTest_fromFile file = .error e := by
  rw [kTest_fromFile, h]
  rfl

theorem exists_run_of_kTest_fromFile {file : List Byte} {t : KTest}
    (h : kTest_fromFile file = .ok t) : ∃ rest, read_file.run file = .ok (t, rest) := by
  cases hrun : read_file.run file with
  | error e =>
    rw [kTest_fromFile_of_error hrun] at h
    cases h
  | ok p =>
    rw [kTest_fromFile_of_run hrun] at h
    cases h
    exact ⟨p.2, rfl⟩

theorem rejectsPrefixes {file : List Byte} (h : ValidFile file) : RejectsPrefixes file :=
  fun _ hp hne => by
    obtain ⟨t, hrun⟩ := h
    exact kTest_fromFile_of_error (local_read_file.error_of_prefix hrun hp hne)

end Local

section ReadBack

theorem reads_fread {capacity : Nat} {data : List Byte} (hne : data ≠ [])
    (h : data.length ≤ capacity) {size : Nat} (hs : data.length = size) :
    Reads (fread capacity size) data ⟨data, hs⟩ := fun rest => by
  rw [fread_of_le (by rw [← hs]; exact (min_le_left _ _).trans h)]
  exact reads_take hne hs rest

theorem uint32_of_bytes (value : Unsigned) :
    (((((((value >>> 24).setWidth 8).setWidth 32 <<< 8) + ((value >>> 16).setWidth 8).setWidth 32)
      <<< 8) + ((value >>> 8).setWidth 8).setWidth 32) <<< 8) + ((value >>> 0).setWidth 8).setWidth 32
      = value := by
  apply BitVec.eq_of_toNat_eq
  simp only [BitVec.toNat_add, BitVec.toNat_shiftLeft, BitVec.toNat_setWidth,
    BitVec.toNat_ushiftRight, Nat.shiftLeft_eq, Nat.shiftRight_eq_div_pow]
  have := value.isLt
  omega

theorem reads_read_uint32 (value : Unsigned) : Reads read_uint32 (write_uint32 value) value := by
  have hne : write_uint32 value ≠ [] := List.cons_ne_nil _ _
  have hread : Reads (fread 4 4) (write_uint32 value) ⟨_, rfl⟩ := reads_fread hne (Nat.le_refl 4) rfl
  exact hread.bind_pure (congrArg pure (uint32_of_bytes value))

theorem fwrite_eq_some {data bytes : List Byte} {size : Nat} (h : fwrite data size = some bytes) :
    size ≠ 0 ∧ bytes = data.take size := by
  rw [fwrite] at h
  split at h
  · cases h
  · next hs => exact ⟨hs, (Option.some.inj h).symm⟩

/-- The `len` of `write_string`. -/
def lengthField (value : CString) : Unsigned := BitVec.ofNat 32 value.chars.length

theorem write_string_eq_some {value : CString} {bytes : List Byte}
    (h : write_string value = some bytes) :
    (lengthField value).toNat ≠ 0 ∧
      bytes = write_uint32 (lengthField value) ++ value.chars.take (lengthField value).toNat := by
  obtain ⟨chars, hchars, hbytes⟩ := Option.bind_eq_some_iff.mp h
  obtain ⟨hne, rfl⟩ := fwrite_eq_some hchars
  exact ⟨hne, (Option.some.inj hbytes).symm⟩

theorem lengthField_toNat_le (value : CString) :
    (lengthField value).toNat ≤ value.chars.length := by
  rw [lengthField, BitVec.toNat_ofNat]
  exact Nat.mod_le _ _

theorem ofBuffer_chars {b : List Byte} (h : 0 ∉ b) : (CString.ofBuffer b).chars = b :=
  List.takeWhile_eq_self_iff.mpr fun _ hc => decide_eq_true fun h0 => h (h0 ▸ hc)

theorem ofBuffer_eq (value : CString) : CString.ofBuffer value.chars = value := by
  obtain ⟨chars, h⟩ := value
  rw [CString.mk.injEq]
  exact ofBuffer_chars h

theorem Storable.lengthField_toNat {value : CString} (h : Storable value) :
    (lengthField value).toNat = value.chars.length := by
  rw [lengthField, BitVec.toNat_ofNat]
  exact Nat.mod_eq_of_lt (by have := h.length_lt; omega)

theorem Storable.write_string {value : CString} (h : Storable value) :
    write_string value = some (write_uint32 (lengthField value) ++ value.chars) := by
  have hl := h.lengthField_toNat
  have hw : fwrite value.chars (lengthField value).toNat = some value.chars := by
    rw [fwrite, if_neg, hl, List.take_length]
    rw [hl]
    exact mt List.length_eq_zero_iff.mp h.ne_nil
  exact Option.bind_eq_some_iff.mpr ⟨_, hw, rfl⟩

/-- The room for a string of length `len`. -/
theorem toNat_add_one (len : Unsigned) : (len + 1).toNat = (len.toNat + 1) % 2 ^ 32 :=
  BitVec.toNat_add len 1

theorem Storable.reads {value : CString} (h : Storable value) :
    Reads read_string (write_uint32 (lengthField value) ++ value.chars) value := by
  have hl := h.lengthField_toNat
  have hlt := h.length_lt
  have hcap : value.chars.length ≤ (lengthField value + 1).toNat := by
    rw [toNat_add_one, hl, Nat.mod_eq_of_lt hlt]
    exact Nat.le_succ _
  exact (reads_read_uint32 _).bind ((reads_fread h.ne_nil hcap hl.symm).bind_pure
    (congrArg pure (ofBuffer_eq value)))

/-- A string that is read back as it was written. -/
theorem yields_read_string {value : CString} {bytes : List Byte}
    (h : KTest.write_string value = some bytes) :
    Yields read_string bytes fun s => s = value → Storable value := by
  obtain ⟨hne, rfl⟩ := write_string_eq_some h
  have hlt := (lengthField value).isLt
  have hlen : (value.chars.take (lengthField value).toNat).length = (lengthField value).toNat :=
    List.length_take_of_le (lengthField_toNat_le value)
  refine (reads_read_uint32 _).yields.bind fun len hlen' => ?_
  subst hlen'
  by_cases hmax : (lengthField value).toNat + 1 = 2 ^ 32
  · -- The buffer is overrun.
    intro rest a rest' hrun
    have hover : (lengthField value + 1).toNat < min (lengthField value).toNat
        (value.chars.take (lengthField value).toNat ++ rest).length := by
      rw [toNat_add_one, hmax, List.length_append, hlen]
      omega
    rw [bind_run, fread_of_lt hover] at hrun
    cases hrun
  · have hcap : (value.chars.take (lengthField value).toNat).length ≤
        (lengthField value + 1).toNat := by
      rw [toNat_add_one, hlen]
      omega
    have hread := reads_fread (List.length_pos_iff.mp (by rw [hlen]; omega)) hcap hlen
    refine (hread.yields.bind_pure fun _ => rfl).mono fun s hs heq => ?_
    obtain ⟨b, rfl, rfl⟩ := hs
    have hchars := congrArg CString.chars heq
    rw [ofBuffer_chars fun h0 => value.not_mem (List.mem_of_mem_take h0)] at hchars
    rw [hchars] at hlen
    exact ⟨fun hnil => hne (by rw [← hlen, hnil]; rfl), by omega⟩

theorem StorableObject.write_object {o : KTestObject} (h : StorableObject o) :
    ∃ bytes, write_object o = some bytes ∧ Reads read_object bytes o := by
  have hsize : (BitVec.ofNat 32 o.bytes.length).toNat = o.bytes.length :=
    Nat.mod_eq_of_lt o.numBytes_lt
  have hw : fwrite o.bytes o.bytes.length = some o.bytes := by
    rw [fwrite, if_neg (mt List.length_eq_zero_iff.mp h.bytes), List.take_length]
  refine ⟨_, Option.bind_eq_some_iff.mpr ⟨_, h.name.write_string,
    Option.bind_eq_some_iff.mpr ⟨_, hw, rfl⟩⟩, ?_⟩
  rw [List.append_assoc]
  exact h.name.reads.bind ((reads_read_uint32 _).bind
    ((reads_fread h.bytes hsize.ge hsize.symm).bind_pure rfl))

theorem yields_read_object {o : KTestObject} {bytes : List Byte}
    (h : KTest.write_object o = some bytes) :
    Yields read_object bytes fun o' => o' = o → StorableObject o := by
  obtain ⟨name, hname, h⟩ := Option.bind_eq_some_iff.mp h
  obtain ⟨data, hdata, h⟩ := Option.bind_eq_some_iff.mp h
  obtain ⟨hne, rfl⟩ := fwrite_eq_some hdata
  have hsize : o.bytes.length = (BitVec.ofNat 32 o.bytes.length).toNat :=
    (Nat.mod_eq_of_lt o.numBytes_lt).symm
  have hnil : o.bytes ≠ [] := mt List.length_eq_zero_iff.mpr hne
  rw [List.take_length] at h
  obtain rfl := Option.some.inj h
  rw [List.append_assoc]
  refine (yields_read_string hname).bind fun s hs => (reads_read_uint32 _).yields.bind
    fun numBytes hnum => ?_
  subst hnum
  refine ((reads_fread hnil hsize.le hsize).yields.bind_pure fun _ => rfl).mono fun o' ho' heq => ?_
  obtain ⟨b, -, rfl⟩ := ho'
  exact ⟨hs (congrArg KTestObject.name heq), hnil⟩

section All

variable {α : Type} {write : α → Option (List Byte)} {r : FileReader α}

theorem write_all_cons_eq_some {a : α} {l : List α} {bytes : List Byte}
    (h : write_all write (a :: l) = some bytes) :
    ∃ first rest, write a = some first ∧ write_all write l = some rest ∧ first ++ rest = bytes := by
  obtain ⟨first, hfirst, h⟩ := Option.bind_eq_some_iff.mp h
  obtain ⟨rest, hrest, h⟩ := Option.bind_eq_some_iff.mp h
  exact ⟨first, rest, hfirst, hrest, Option.some.inj h⟩

theorem reads_many {l : List α} (h : ∀ a ∈ l, ∃ bytes, write a = some bytes ∧ Reads r bytes a)
    {n : Nat} (hn : l.length = n) :
    ∃ bytes, write_all write l = some bytes ∧ Reads (many r n) bytes ⟨l, hn⟩ := by
  subst hn
  induction l with
  | nil => exact ⟨[], rfl, reads_pure _⟩
  | cons a l ih =>
    obtain ⟨first, hfirst, hr⟩ := h a List.mem_cons_self
    obtain ⟨rest, hrest, hrs⟩ := ih fun b hb => h b (List.mem_cons_of_mem a hb)
    refine ⟨first ++ rest, ?_, hr.bind (hrs.bind_pure rfl)⟩
    exact Option.bind_eq_some_iff.mpr ⟨_, hfirst, Option.bind_eq_some_iff.mpr ⟨_, hrest, rfl⟩⟩

theorem yields_many {P : α → Prop}
    (h : ∀ a bytes, write a = some bytes → Yields r bytes fun b => b = a → P a) {l : List α}
    {bytes : List Byte} (hl : write_all write l = some bytes) {n : Nat} (hn : l.length = n) :
    Yields (many r n) bytes fun l' => l'.1 = l → ∀ a ∈ l, P a := by
  subst hn
  induction l generalizing bytes with
  | nil =>
    obtain rfl := Option.some.inj hl
    exact (reads_pure _).yields.mono fun _ _ _ a ha => absurd ha List.not_mem_nil
  | cons a l ih =>
    obtain ⟨first, rest, hfirst, hrest, rfl⟩ := write_all_cons_eq_some hl
    refine (h a first hfirst).bind fun b hb => ((ih hrest).bind_pure fun _ => rfl).mono
      fun l' hl' heq => ?_
    obtain ⟨l'', hall, rfl⟩ := hl'
    obtain ⟨hba, hll⟩ := List.cons.inj heq
    exact List.forall_mem_cons.mpr ⟨hb hba, hall hll⟩

end All

end ReadBack

theorem reads_kTest_checkHeader : Reads kTest_checkHeader KTEST_MAGIC () := by
  have hne : KTEST_MAGIC ≠ [] := List.cons_ne_nil _ _
  have hread : Reads (fread 5 5) KTEST_MAGIC ⟨_, rfl⟩ := reads_fread hne (Nat.le_refl 5) rfl
  exact hread.bind_pure rfl

theorem reads_read_symArgvs (symArgvs symArgvLen : Unsigned) :
    Reads (read_symArgvs KTEST_VERSION) (write_uint32 symArgvs ++ write_uint32 symArgvLen)
      (symArgvs, symArgvLen) :=
  (reads_read_uint32 _).bind ((reads_read_uint32 _).bind_pure rfl)

theorem kTest_toFile_eq_some {t : KTest} {file : List Byte} (h : kTest_toFile t = some file) :
    ∃ args objects, write_all write_string t.args = some args ∧
      write_all write_object t.objects = some objects ∧
      file = KTEST_MAGIC ++ (write_uint32 KTEST_VERSION ++
        (write_uint32 (BitVec.ofNat 32 t.args.length) ++ (args ++
        ((write_uint32 t.symArgvs ++ write_uint32 t.symArgvLen) ++
        (write_uint32 (BitVec.ofNat 32 t.objects.length) ++ objects))))) := by
  obtain ⟨args, hargs, h⟩ := Option.bind_eq_some_iff.mp h
  obtain ⟨objects, hobjects, h⟩ := Option.bind_eq_some_iff.mp h
  refine ⟨args, objects, hargs, hobjects, ?_⟩
  rw [← Option.some.inj h]
  simp only [List.append_assoc]

theorem exists_reads_read_file {t : KTest} (h : StorableTest t) :
    ∃ file, kTest_toFile t = some file ∧
      Reads read_file file { t with version := KTEST_VERSION } := by
  obtain ⟨args, hwargs, hrargs⟩ := reads_many (r := read_string)
    (fun s hs => ⟨_, (h.args s hs).write_string, (h.args s hs).reads⟩)
    (Nat.mod_eq_of_lt t.numArgs_lt).symm
  obtain ⟨objects, hwobjects, hrobjects⟩ := reads_many (r := read_object)
    (fun o ho => (h.objects o ho).write_object) (Nat.mod_eq_of_lt t.numObjects_lt).symm
  have hw : ∃ file, kTest_toFile t = some file :=
    ⟨_, Option.bind_eq_some_iff.mpr ⟨_, hwargs, Option.bind_eq_some_iff.mpr ⟨_, hwobjects, rfl⟩⟩⟩
  obtain ⟨file, hfile⟩ := hw
  refine ⟨file, hfile, ?_⟩
  obtain ⟨args', objects', hargs', hobjects', rfl⟩ := kTest_toFile_eq_some hfile
  cases hargs'.symm.trans hwargs
  cases hobjects'.symm.trans hwobjects
  exact reads_kTest_checkHeader.bind <| (reads_read_uint32 _).bind <| (reads_pure ()).nil_bind <|
    (reads_read_uint32 _).bind <| hrargs.bind <| (reads_read_symArgvs _ _).bind <|
    (reads_read_uint32 _).bind <| hrobjects.bind_pure rfl

/-- A file of a test that has been read back. -/
theorem yields_read_file {t : KTest} {file : List Byte} (h : kTest_toFile t = some file) :
    Yields read_file file fun t' => t' = { t with version := KTEST_VERSION } → StorableTest t := by
  obtain ⟨args, objects, hargs, hobjects, rfl⟩ := kTest_toFile_eq_some h
  refine reads_kTest_checkHeader.yields.bind fun _ _ =>
    (reads_read_uint32 _).yields.bind fun version hversion => ?_
  subst hversion
  refine (reads_pure ()).yields.nil_bind fun _ _ => (reads_read_uint32 _).yields.bind
    fun numArgs hnum => ?_
  subst hnum
  refine (yields_many (fun s bytes hs => yields_read_string hs) hargs
    (Nat.mod_eq_of_lt t.numArgs_lt).symm).bind fun args' hargs' =>
    (reads_read_symArgvs _ _).yields.bind fun symArgv hsym => ?_
  refine (reads_read_uint32 _).yields.bind fun numObjects hnum => ?_
  subst hnum
  refine ((yields_many (fun o bytes ho => yields_read_object ho) hobjects
    (Nat.mod_eq_of_lt t.numObjects_lt).symm).bind_pure fun _ => rfl).mono fun t' ht' heq => ?_
  obtain ⟨objects', hobjects', rfl⟩ := ht'
  exact ⟨hargs' (congrArg KTest.args heq), hobjects' (congrArg KTest.objects heq)⟩

theorem roundTrips_iff_storable (t : KTest) : RoundTrips t ↔ StorableTest t := by
  constructor
  · rintro ⟨file, hfile, -, hread⟩
    obtain ⟨rest, hrun⟩ := exists_run_of_kTest_fromFile hread
    rw [← List.append_nil file] at hrun
    exact (yields_read_file hfile _ _ _ hrun).1 rfl
  · intro h
    obtain ⟨file, hfile, hread⟩ := exists_reads_read_file h
    have hrun := hread []
    rw [List.append_nil] at hrun
    exact ⟨file, hfile, ⟨_, hrun⟩, kTest_fromFile_of_run hrun⟩

/-- Exactly the tests with nothing empty, and no string too long, come back from their file, and
no file can be cut short. -/
theorem roundTrips_iff_and_rejectsPrefixes (t : KTest) :
    (RoundTrips t ↔ StorableTest t) ∧ ∀ file, ValidFile file → RejectsPrefixes file :=
  ⟨roundTrips_iff_storable t, fun _ => rejectsPrefixes⟩

/-- A program with one argument, the empty string: its test is not written. -/
theorem not_roundTrips_empty_argument :
    ¬ RoundTrips { version := 3, args := [⟨[], List.not_mem_nil⟩], numArgs_lt := by decide
                   symArgvs := 0, symArgvLen := 0, objects := [], numObjects_lt := by decide } :=
  fun ⟨_, hfile, _⟩ => nomatch hfile

end KTest

end Klee
