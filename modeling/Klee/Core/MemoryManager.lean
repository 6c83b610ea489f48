import Klee.Core.MemoryMap

/-! `MemoryManager` under `-allocate-determ`: objects are allocated one behind the other in an
arena. Addresses and sizes are words of 64 bits, the size of an object is one of 32 bits. -/
namespace Klee

/-- `-redzone-size` and `-return-null-on-zero-malloc` -/
structure AllocOptions where
  redzoneSize : BitVec 32
  nullOnZeroMalloc : Bool

structure MemoryManager where
  deterministicSpace : BitVec 64
  spaceSize : BitVec 64
  nextFreeSlot : BitVec 64
  objects : List MemoryObject
deriving DecidableEq

namespace MemoryManager

/-- The constructor; `newSpace` is where the arena was mapped. The size is a product of
`unsigned` numbers. -/
def create (determSize : BitVec 32) (newSpace : BitVec 64) : MemoryManager where
  deterministicSpace := newSpace
  spaceSize := (determSize * 1024 * 1024).setWidth 64
  nextFreeSlot := newSpace
  objects := []

/-- `llvm::isPowerOf2_64` -/
def isPowerOf2 (value : BitVec 64) : Bool := value != 0 && (value &&& (value - 1)) == 0

def alignTo (value align : BitVec 64) : BitVec 64 := (value + align - 1) / align * align

variable (o : AllocOptions) (m : MemoryManager) (size alignment : BitVec 64)

def slot : BitVec 64 := alignTo (m.nextFreeSlot + alignment - 1) alignment

def allocSize : BitVec 64 := if size < 1 then 1 else size

/-- The object that is made; its size is an `unsigned`. -/
def newObject (address : BitVec 64) : MemoryObject :=
  ⟨address, (size.setWidth 32).toNat, false⟩

def allocate : Option MemoryObject × MemoryManager :=
  if o.nullOnZeroMalloc && size == 0 then (none, m)
  else if !isPowerOf2 alignment then (none, m)
  else
    let address := m.slot alignment
    if address + allocSize size < m.deterministicSpace + m.spaceSize then
      let m := { m with
        nextFreeSlot := address + allocSize size + o.redzoneSize.setWidth 64 }
      if address = 0 then (none, m)
      else
        let res := newObject size address
        (some res, { m with objects := res :: m.objects })
    else (none, m)

def markFreed (mo : MemoryObject) : MemoryManager := { m with objects := m.objects.erase mo }

/-- Where `mmap` puts an arena: in the user half of the address space. -/
structure Mapped (newSpace : BitVec 64) (spaceSize : BitVec 64) : Prop where
  pos : 0 < newSpace.toNat
  le : newSpace.toNat + spaceSize.toNat ≤ 2 ^ 56

/-- The request is served, and the arena has room for it in the arithmetic of the code. -/
def Fits : Prop :=
  (o.nullOnZeroMalloc && size == 0) = false ∧ isPowerOf2 alignment = true ∧
    m.slot alignment + allocSize size < m.deterministicSpace + m.spaceSize

def Wraps : Prop :=
  2 ^ 64 ≤ m.nextFreeSlot.toNat + (alignment.toNat - 1) + (alignment.toNat - 1) ∨
    2 ^ 64 ≤ (m.slot alignment).toNat + (allocSize size).toNat

/-- Where the check succeeds, nothing has wrapped around; or the address has become zero and the
next slot is the old one. -/
def Bounded : Prop :=
  m.Fits o size alignment → ¬ m.Wraps size alignment ∨
    (m.slot alignment = 0 ∧
      allocSize size + o.redzoneSize.setWidth 64 = m.nextFreeSlot)

inductive Run : MemoryManager → List MemoryObject → Prop
  | create (determSize : BitVec 32) (newSpace : BitVec 64)
      (h : Mapped newSpace (create determSize newSpace).spaceSize) :
      Run (create determSize newSpace) []
  | allocate {m : MemoryManager} {all : List MemoryObject} (size alignment : BitVec 64)
      (h : Run m all) (hbounded : m.Bounded o size alignment) :
      Run (m.allocate o size alignment).2 ((m.allocate o size alignment).1.toList ++ all)
  | markFreed {m : MemoryManager} {all : List MemoryObject} (mo : MemoryObject) (h : Run m all) :
      Run (m.markFreed mo) all

def Apart (p q : MemoryObject) : Prop :=
  p.address.toNat + p.size + o.redzoneSize.toNat ≤ q.address.toNat ∨
    q.address.toNat + q.size + o.redzoneSize.toNat ≤ p.address.toNat

def Inside (mo : MemoryObject) : Prop :=
  m.deterministicSpace.toNat ≤ mo.address.toNat ∧
    mo.address.toNat + mo.size ≤ m.deterministicSpace.toNat + m.spaceSize.toNat

/-- An object as it was asked for, apart from all others, or null and no change. -/
inductive Allocates (all : List MemoryObject) : Prop
  | object (mo : MemoryObject) (h : (m.allocate o size alignment).1 = some mo)
      (hsize : mo.size = size.toNat) (haligned : alignment.toNat ∣ mo.address.toNat)
      (hinside : m.Inside mo) (hapart : ∀ p ∈ all, Apart o mo p)
  | null (h : m.allocate o size alignment = (none, m))

section Arithmetic

variable {o m size alignment}

theorem exists_pow_of_isPowerOf2 (h : isPowerOf2 alignment = true) :
    ∃ k < 64, alignment.toNat = 2 ^ k := by
  have h : alignment ≠ 0 ∧ alignment &&& (alignment - 1) = 0 := by simpa [isPowerOf2] using h
  obtain ⟨hne, hand⟩ := h
  have hne' : alignment.toNat ≠ 0 := fun h0 => hne (BitVec.eq_of_toNat_eq h0)
  have hsub : (alignment - 1).toNat = alignment.toNat - 1 := by
    bv_omega
  have hand' : alignment.toNat &&& (alignment.toNat - 1) = 0 := by
    rw [← hsub, ← BitVec.toNat_and, hand]
    rfl
  obtain ⟨k, hk⟩ := Nat.ne_zero_and_sub_one_eq_zero_iff_isPowerOfTwo.mp ⟨hne', hand'⟩
  refine ⟨k, ?_, hk⟩
  have hlt := alignment.isLt
  rw [hk] at hlt
  exact (Nat.pow_lt_pow_iff_right (by decide)).mp hlt

/-- The multiple that `alignTo` gives, with the sum modulo `2^64`. -/
theorem toNat_slot : (m.slot alignment).toNat =
    (m.nextFreeSlot + alignment - 1 + alignment - 1).toNat / alignment.toNat *
      alignment.toNat := by
  unfold slot alignTo
  rw [BitVec.toNat_mul, BitVec.toNat_udiv]
  exact Nat.mod_eq_of_lt (lt_of_le_of_lt (Nat.div_mul_le_self _ _) (BitVec.isLt _))

theorem toNat_slot_of_lt (hpos : 0 < alignment.toNat)
    (hlt : m.nextFreeSlot.toNat + (alignment.toNat - 1) + (alignment.toNat - 1) < 2 ^ 64) :
    (m.slot alignment).toNat =
      (m.nextFreeSlot.toNat + (alignment.toNat - 1) + (alignment.toNat - 1)) / alignment.toNat *
        alignment.toNat := by
  have hsum : (m.nextFreeSlot + alignment - 1 + alignment - 1).toNat =
      m.nextFreeSlot.toNat + (alignment.toNat - 1) + (alignment.toNat - 1) := by
    bv_omega
  rw [toNat_slot, hsum]

theorem dvd_slot : alignment.toNat ∣ (m.slot alignment).toNat := by
  rw [toNat_slot]
  exact Nat.dvd_mul_left _ _

theorem le_slot (hpos : 0 < alignment.toNat)
    (hlt : m.nextFreeSlot.toNat + (alignment.toNat - 1) + (alignment.toNat - 1) < 2 ^ 64) :
    m.nextFreeSlot.toNat ≤ (m.slot alignment).toNat := by
  rw [toNat_slot_of_lt hpos hlt]
  have hdiv := Nat.lt_div_mul_add hpos
    (a := m.nextFreeSlot.toNat + (alignment.toNat - 1) + (alignment.toNat - 1))
  omega

theorem toNat_allocSize (size : BitVec 64) : (allocSize size).toNat = max size.toNat 1 := by
  unfold allocSize
  by_cases h : size < 1
  · rw [if_pos h]
    bv_omega
  · rw [if_neg h]
    bv_omega

end Arithmetic

section Steps

variable {o m size alignment} {all : List MemoryObject}

theorem allocate_of_not_fits (h : ¬ m.Fits o size alignment) :
    m.allocate o size alignment = (none, m) := by
  unfold allocate
  by_cases hnull : (o.nullOnZeroMalloc && size == 0) = true
  · rw [if_pos hnull]
  rw [if_neg hnull]
  by_cases hpow : isPowerOf2 alignment = true
  · have hlt : ¬ m.slot alignment + allocSize size < m.deterministicSpace + m.spaceSize :=
      fun hlt => h ⟨Bool.eq_false_of_not_eq_true hnull, hpow, hlt⟩
    simp only [hpow, Bool.not_true, Bool.false_eq_true, if_false]
    rw [if_neg hlt]
  · simp only [hpow]
    rfl

def nextSlot (o : AllocOptions) (m : MemoryManager) (size alignment : BitVec 64) : BitVec 64 :=
  m.slot alignment + allocSize size + o.redzoneSize.setWidth 64

theorem allocate_of_fits (h : m.Fits o size alignment) : m.allocate o size alignment =
    if m.slot alignment = 0 then (none, { m with nextFreeSlot := nextSlot o m size alignment })
    else (some (newObject size (m.slot alignment)), { m with
      nextFreeSlot := nextSlot o m size alignment
      objects := newObject size (m.slot alignment) :: m.objects }) := by
  obtain ⟨hnull, hpow, hlt⟩ := h
  unfold allocate
  rw [if_neg (by rw [hnull]; exact Bool.false_ne_true)]
  simp only [hpow, Bool.not_true, Bool.false_eq_true, if_false]
  rw [if_pos hlt]
  rfl

end Steps

section Invariant

structure Inv (o : AllocOptions) (m : MemoryManager) (all : List MemoryObject) : Prop where
  pos : 0 < m.deterministicSpace.toNat
  space_lt : m.spaceSize.toNat < 2 ^ 32
  end_le : m.deterministicSpace.toNat + m.spaceSize.toNat ≤ 2 ^ 56
  le_next : m.deterministicSpace.toNat ≤ m.nextFreeSlot.toNat
  next_le : m.nextFreeSlot.toNat ≤ m.deterministicSpace.toNat + m.spaceSize.toNat + 2 ^ 32
  inside : ∀ p ∈ all, m.Inside p
  before : ∀ p ∈ all, p.address.toNat + p.size + o.redzoneSize.toNat ≤ m.nextFreeSlot.toNat
  apart : all.Pairwise (Apart o)

variable {o : AllocOptions} {m : MemoryManager} {size alignment : BitVec 64}
  {all : List MemoryObject}

theorem Inv.create {determSize : BitVec 32} {newSpace : BitVec 64}
    (h : Mapped newSpace (MemoryManager.create determSize newSpace).spaceSize) :
    Inv o (MemoryManager.create determSize newSpace) [] where
  pos := h.pos
  space_lt := by
    have hlt := (determSize * 1024 * 1024).isLt
    simp only [MemoryManager.create, BitVec.toNat_setWidth]
    omega
  end_le := h.le
  le_next := Nat.le_refl _
  next_le := by
    simp only [MemoryManager.create]
    omega
  inside := by simp
  before := by simp
  apart := List.Pairwise.nil

theorem Inv.markFreed (inv : Inv o m all) (mo : MemoryObject) : Inv o (m.markFreed mo) all :=
  ⟨inv.pos, inv.space_lt, inv.end_le, inv.le_next, inv.next_le, inv.inside, inv.before, inv.apart⟩

/-- What a request does that fits without a wrap: the numbers are those of the integers. -/
structure Served (o : AllocOptions) (m : MemoryManager) (size alignment : BitVec 64) : Prop where
  slot_ne : m.slot alignment ≠ 0
  size_eq : (newObject size (m.slot alignment)).size = size.toNat
  le_slot : m.nextFreeSlot.toNat ≤ (m.slot alignment).toNat
  end_lt : (m.slot alignment).toNat + max size.toNat 1 <
    m.deterministicSpace.toNat + m.spaceSize.toNat
  next_eq : (nextSlot o m size alignment).toNat =
    (m.slot alignment).toNat + max size.toNat 1 + o.redzoneSize.toNat

theorem Inv.served (inv : Inv o m all) (hfits : m.Fits o size alignment)
    (hwraps : ¬ m.Wraps size alignment) : Served o m size alignment := by
  obtain ⟨-, hpow, hlt⟩ := hfits
  obtain ⟨k, -, hk⟩ := exists_pow_of_isPowerOf2 hpow
  have hpos : 0 < alignment.toNat := by
    rw [hk]
    exact Nat.two_pow_pos k
  have hmul : m.nextFreeSlot.toNat + (alignment.toNat - 1) + (alignment.toNat - 1) < 2 ^ 64 :=
    Nat.lt_of_not_le fun h => hwraps (Or.inl h)
  have hsum : (m.slot alignment).toNat + (allocSize size).toNat < 2 ^ 64 :=
    Nat.lt_of_not_le fun h => hwraps (Or.inr h)
  have hle := le_slot hpos hmul
  have hsize := toNat_allocSize size
  have hred := o.redzoneSize.isLt
  obtain ⟨hbase, hspace, hend, hnext, -, -, -, -⟩ := inv
  have hlt : (m.slot alignment).toNat + max size.toNat 1 <
      m.deterministicSpace.toNat + m.spaceSize.toNat := by
    rw [BitVec.lt_def, BitVec.toNat_add, BitVec.toNat_add, Nat.mod_eq_of_lt hsum,
      Nat.mod_eq_of_lt (by omega)] at hlt
    omega
  refine ⟨fun h0 => ?_, ?_, hle, hlt, ?_⟩
  · have h0' : (m.slot alignment).toNat = 0 := by rw [h0]; rfl
    omega
  · simp only [newObject, BitVec.toNat_setWidth]
    exact Nat.mod_eq_of_lt (by omega)
  · unfold nextSlot
    rw [BitVec.toNat_add, BitVec.toNat_add, Nat.mod_eq_of_lt hsum, BitVec.toNat_setWidth,
      Nat.mod_eq_of_lt (by omega), Nat.mod_eq_of_lt (by omega), hsize]

def withObject (o : AllocOptions) (m : MemoryManager) (size alignment : BitVec 64) :
    MemoryManager :=
  { m with
    nextFreeSlot := nextSlot o m size alignment
    objects := newObject size (m.slot alignment) :: m.objects }

theorem Served.allocate (h : Served o m size alignment) (hfits : m.Fits o size alignment) :
    m.allocate o size alignment =
      (some (newObject size (m.slot alignment)), withObject o m size alignment) := by
  rw [allocate_of_fits hfits, if_neg h.slot_ne]
  rfl

theorem Served.inside (h : Served o m size alignment) (inv : Inv o m all) :
    m.Inside (newObject size (m.slot alignment)) := by
  have hsize := h.size_eq
  have hle := h.le_slot
  have hlt := h.end_lt
  have hnext := inv.le_next
  refine ⟨le_trans hnext hle, ?_⟩
  change (m.slot alignment).toNat + (newObject size (m.slot alignment)).size ≤ _
  omega

theorem Served.apart (h : Served o m size alignment) (inv : Inv o m all) :
    ∀ p ∈ all, Apart o (newObject size (m.slot alignment)) p := by
  intro p hp
  exact Or.inr (le_trans (inv.before p hp) h.le_slot)

theorem Inv.withObject (inv : Inv o m all) (h : Served o m size alignment) :
    Inv o (m.withObject o size alignment) (newObject size (m.slot alignment) :: all) := by
  have hsize := h.size_eq
  have hle := h.le_slot
  have hlt := h.end_lt
  have heq := h.next_eq
  have hred := o.redzoneSize.isLt
  have hnext := inv.le_next
  refine ⟨inv.pos, inv.space_lt, inv.end_le, ?_, ?_, ?_, ?_,
    List.pairwise_cons.mpr ⟨h.apart inv, inv.apart⟩⟩
  · change m.deterministicSpace.toNat ≤ (nextSlot o m size alignment).toNat
    omega
  · change (nextSlot o m size alignment).toNat ≤ _
    simp only [MemoryManager.withObject]
    omega
  · intro p hp
    cases List.mem_cons.mp hp with
    | inl hnew => exact hnew ▸ h.inside inv
    | inr hold => exact inv.inside p hold
  · intro p hp
    change _ ≤ (nextSlot o m size alignment).toNat
    cases List.mem_cons.mp hp with
    | inl hnew =>
      subst hnew
      change (m.slot alignment).toNat + (newObject size (m.slot alignment)).size + _ ≤ _
      omega
    | inr hold =>
      have hbefore := inv.before p hold
      omega

/-- The address has become zero, but the next slot is the one it was. -/
theorem allocate_of_slot_eq_zero (hfits : m.Fits o size alignment) (h0 : m.slot alignment = 0) :
    m.allocate o size alignment =
      (none, { m with nextFreeSlot := allocSize size + o.redzoneSize.setWidth 64 }) := by
  have hnext : nextSlot o m size alignment = allocSize size + o.redzoneSize.setWidth 64 := by
    unfold nextSlot
    rw [h0]
    exact congrArg (· + _) (BitVec.zero_add _)
  rw [allocate_of_fits hfits, if_pos h0, hnext]

/-- The three things that a bounded request can do. -/
theorem Inv.allocate_cases (inv : Inv o m all) (h : m.Bounded o size alignment) :
    m.allocate o size alignment = (none, m) ∨
      (Served o m size alignment ∧ m.allocate o size alignment =
        (some (newObject size (m.slot alignment)), m.withObject o size alignment)) := by
  by_cases hfits : m.Fits o size alignment
  · cases h hfits with
    | inl hwraps =>
      have hserved := inv.served hfits hwraps
      exact Or.inr ⟨hserved, hserved.allocate hfits⟩
    | inr hzero =>
      left
      rw [allocate_of_slot_eq_zero hfits hzero.1, hzero.2]
  · exact Or.inl (allocate_of_not_fits hfits)

theorem Run.inv (h : Run o m all) : Inv o m all := by
  induction h with
  | create determSize newSpace h => exact Inv.create h
  | @allocate m all size alignment _ hbounded ih =>
    cases ih.allocate_cases hbounded with
    | inl hnull =>
      rw [hnull]
      exact ih
    | inr hobject =>
      rw [hobject.2]
      exact ih.withObject hobject.1
  | markFreed mo _ ih => exact ih.markFreed mo

theorem Inv.allocates (inv : Inv o m all) (h : m.Bounded o size alignment) :
    Allocates o m size alignment all := by
  cases inv.allocate_cases h with
  | inl hnull => exact Allocates.null hnull
  | inr hobject =>
    exact Allocates.object _ (congrArg Prod.fst hobject.2) hobject.1.size_eq dvd_slot
      (hobject.1.inside inv) (hobject.1.apart inv)

/-- At the greatest alignment a wrapped sum gives the address zero. -/
theorem slot_toNat_of_two_pow_63 (hnext : m.nextFreeSlot.toNat < 2 ^ 63)
    (halign : alignment.toNat = 2 ^ 63) (hslot : (m.slot alignment).toNat ≠ 0) :
    m.nextFreeSlot.toNat + (alignment.toNat - 1) + (alignment.toNat - 1) < 2 ^ 64 ∧
      (m.slot alignment).toNat = 2 ^ 63 := by
  have hmul : alignment.toNat ∣ (m.slot alignment).toNat := dvd_slot
  have hlt := (m.slot alignment).isLt
  rw [halign] at hmul
  refine ⟨Nat.lt_of_not_le fun hwrap => hslot ?_, by omega⟩
  have hsum : (m.nextFreeSlot + alignment - 1 + alignment - 1).toNat =
      m.nextFreeSlot.toNat - 2 := by
    bv_omega
  rw [toNat_slot, hsum, halign, Nat.div_eq_of_lt (by omega), Nat.zero_mul]

/-- Nothing of the rounding wraps around below the greatest alignment, where the address is zero
if it does; and an object of 32 bits then ends below 64 bits. -/
theorem Inv.not_wraps (inv : Inv o m all) (hpow : isPowerOf2 alignment = true)
    (hslot : m.slot alignment ≠ 0) (hsize : size.toNat < 2 ^ 32) :
    ¬ m.Wraps size alignment := by
  obtain ⟨k, hk64, hk⟩ := exists_pow_of_isPowerOf2 hpow
  have hpos : 0 < alignment.toNat := by
    rw [hk]
    exact Nat.two_pow_pos k
  have hnext : m.nextFreeSlot.toNat ≤ 2 ^ 56 + 2 ^ 32 :=
    le_trans inv.next_le (Nat.add_le_add_right inv.end_le _)
  have hslot' : (m.slot alignment).toNat ≠ 0 := fun h0 => hslot (BitVec.eq_of_toNat_eq h0)
  have halloc := toNat_allocSize size
  unfold Wraps
  by_cases hk63 : k = 63
  · rw [hk63] at hk
    have hgreatest := slot_toNat_of_two_pow_63 (by omega) hk hslot'
    omega
  · have hle : alignment.toNat ≤ 2 ^ 62 := by
      rw [hk]
      exact Nat.pow_le_pow_right (by decide) (by omega)
    have hmul : m.nextFreeSlot.toNat + (alignment.toNat - 1) + (alignment.toNat - 1) < 2 ^ 64 := by
      omega
    have hslot_le := Nat.div_mul_le_self
      (m.nextFreeSlot.toNat + (alignment.toNat - 1) + (alignment.toNat - 1)) alignment.toNat
    rw [← toNat_slot_of_lt hpos hmul] at hslot_le
    omega

/-- Every run whose requests are bounded keeps its objects in the arena and apart, and its next
request does what it should just when that is bounded too. A request that fits by the arithmetic
of the code may have wrapped: the object is then cut to 32 bits, or the next slot moves back. -/
theorem Run.allocates_iff_bounded (h : Run o m all) :
    ((∀ p ∈ all, m.Inside p) ∧ all.Pairwise (Apart o)) ∧
      ∀ size alignment, Allocates o m size alignment all ↔ m.Bounded o size alignment := by
  have inv := h.inv
  refine ⟨⟨inv.inside, inv.apart⟩, fun size alignment => ⟨?_, inv.allocates⟩⟩
  intro hallocates hfits
  by_cases h0 : m.slot alignment = 0
  · have hrun := allocate_of_slot_eq_zero hfits h0
    cases hallocates with
    | object mo h => rw [hrun] at h; cases h
    | null h =>
      rw [hrun] at h
      exact Or.inr ⟨h0, congrArg (fun r => r.2.nextFreeSlot) h⟩
  · have hrun := allocate_of_fits hfits
    rw [if_neg h0] at hrun
    cases hallocates with
    | object mo h hsize =>
      rw [hrun] at h
      have hmo : newObject size (m.slot alignment) = mo := Option.some.inj h
      have hlt : size.toNat < 2 ^ 32 := by
        rw [← hsize, ← hmo]
        exact (size.setWidth 32).isLt
      exact Or.inl (inv.not_wraps hfits.2.1 h0 hlt)
    | null h =>
      rw [hrun] at h
      cases congrArg Prod.fst h

end Invariant

section Instances

def defaultOptions : AllocOptions := ⟨10, false⟩

def defaultArena : MemoryManager := create 100 0x7ff30000000

theorem run_defaultArena : Run defaultOptions defaultArena [] :=
  Run.create 100 0x7ff30000000 ⟨by decide, by decide⟩

theorem bounded_sixteen : defaultArena.Bounded defaultOptions 16 8 := by
  intro _
  left
  unfold Wraps
  decide

theorem allocates_iff_bounded_sixteen :
    (defaultArena.allocate defaultOptions 16 8).1 = some ⟨0x7ff30000008, 16, false⟩ ∧
      ∀ size alignment,
        Allocates defaultOptions (defaultArena.allocate defaultOptions 16 8).2 size alignment
            ((defaultArena.allocate defaultOptions 16 8).1.toList ++ []) ↔
          (defaultArena.allocate defaultOptions 16 8).2.Bounded defaultOptions size alignment :=
  ⟨by decide, (Run.allocates_iff_bounded (Run.allocate 16 8 run_defaultArena bounded_sixteen)).2⟩

/-- `malloc((size_t)-1)` succeeds: the end of the object wraps around to one byte before its
address, and its size is cut to 32 bits. -/
theorem not_allocates_max : Run defaultOptions defaultArena [] ∧
    (defaultArena.allocate defaultOptions (-1) 8).1 =
      some ⟨0x7ff30000008, 0xffffffff, false⟩ ∧
    ¬ Allocates defaultOptions defaultArena (-1) 8 [] := by
  have hrun : (defaultArena.allocate defaultOptions (-1) 8).1 =
      some ⟨0x7ff30000008, 0xffffffff, false⟩ := by decide
  refine ⟨run_defaultArena, hrun, fun h => ?_⟩
  cases h with
  | object mo h hsize =>
    rw [hrun] at h
    cases h
    revert hsize
    decide
  | null h =>
    rw [h] at hrun
    cases hrun

end Instances

end MemoryManager

end Klee
