import Klee.Lib.DataLayout

/-! Parts of aggregates: the type that a path of indices leads to, and where it lies. -/
namespace LLVM

def partType : LLVMType → List Nat → Option LLVMType
  | t, [] => some t
  | .struct _ fields, i :: path => (fields[i]?).bind fun t => partType t path
  | .array n element, i :: path => if i < n then partType element path else none
  | _, _ :: _ => none

namespace DataLayout

variable (dl : DataLayout)

/-- The offset of a part, where the elements of an array are a size apart. -/
def partOffset (size : LLVMType → Nat) : LLVMType → List Nat → Nat
  | .struct packed fields, i :: path =>
    dl.elementOffset packed 0 fields i + ((fields[i]?).map fun t => partOffset size t path).getD 0
  | .array _ element, i :: path => i * size element + partOffset size element path
  | _, _ => 0

def Unpadded : LLVMType → List Nat → Prop
  | .struct _ fields, i :: path => ∀ t ∈ fields[i]?, Unpadded t path
  | .array _ element, i :: path => (i = 0 ∨ dl.tailPadding element = 0) ∧ Unpadded element path
  | _, _ => True

variable {dl}

section Fields

variable {packed : Bool} {fields : List LLVMType} {offset i j : Nat} {t : LLVMType}

theorem le_fieldsEnd : offset ≤ dl.fieldsEnd packed offset fields := by
  induction fields generalizing offset with
  | nil => exact Nat.le_refl offset
  | cons t ts ih =>
    have halign : offset ≤ alignTo offset (dl.fieldAlignment packed t) :=
      le_alignTo (fieldAlignment_pos packed t)
    exact le_trans (le_trans halign (Nat.le_add_right _ _)) ih

theorem le_elementOffset : offset ≤ dl.elementOffset packed offset fields i := by
  induction fields generalizing offset i with
  | nil => rw [elementOffset]
  | cons t ts ih =>
    have halign : offset ≤ alignTo offset (dl.fieldAlignment packed t) :=
      le_alignTo (fieldAlignment_pos packed t)
    cases i with
    | zero => exact halign
    | succ i => exact le_trans (le_trans halign (Nat.le_add_right _ _)) ih

/-- A field ends before the end of the struct. -/
theorem elementOffset_add_le (h : fields[i]? = some t) :
    dl.elementOffset packed offset fields i + dl.allocSize t ≤
      dl.fieldsEnd packed offset fields := by
  induction fields generalizing offset i with
  | nil => cases h
  | cons t' ts ih =>
    cases i with
    | zero =>
      obtain rfl := Option.some.inj h
      exact le_fieldsEnd
    | succ i => exact ih h

/-- A field ends before the next ones begin. -/
theorem elementOffset_add_le_elementOffset (h : fields[i]? = some t) (hij : i < j) :
    dl.elementOffset packed offset fields i + dl.allocSize t ≤
      dl.elementOffset packed offset fields j := by
  induction fields generalizing offset i j with
  | nil => cases h
  | cons t' ts ih =>
    obtain ⟨j, rfl⟩ := Nat.exists_eq_add_one_of_ne_zero (Nat.ne_zero_of_lt hij)
    cases i with
    | zero =>
      obtain rfl := Option.some.inj h
      exact le_elementOffset
    | succ i => exact ih h (Nat.lt_of_succ_lt_succ hij)

theorem fieldsEnd_le_sizeInBits :
    8 * dl.fieldsEnd packed 0 fields ≤ dl.sizeInBits (.struct packed fields) := by
  have halign : dl.fieldsEnd packed 0 fields ≤
      alignTo (dl.fieldsEnd packed 0 fields) (dl.structAlignment packed fields) :=
    le_alignTo (structAlignment_pos packed fields)
  rw [sizeInBits]
  omega

variable (dl) in
theorem sizeInBits_array (n : Nat) (element : LLVMType) :
    dl.sizeInBits (.array n element) = n * (dl.allocSize element * 8) := by
  rw [sizeInBits]
  rfl

end Fields

section Parts

variable {size : LLVMType → Nat} {t u v : LLVMType} {p q : List Nat}

def Between (dl : DataLayout) (size : LLVMType → Nat) : Prop :=
  ∀ t, dl.storeSize t ≤ size t ∧ size t ≤ dl.allocSize t

theorem between_storeSize : dl.Between dl.storeSize :=
  fun t => ⟨le_rfl, storeSize_le_allocSize t⟩

theorem between_allocSize : dl.Between dl.allocSize :=
  fun t => ⟨storeSize_le_allocSize t, le_rfl⟩

variable (dl) in
/-- A part lies in the aggregate. -/
theorem partOffset_add_le (hsize : dl.Between size) (h : partType t p = some u) :
    8 * dl.partOffset size t p + dl.sizeInBits u ≤ dl.sizeInBits t := by
  induction p generalizing t with
  | nil =>
    obtain rfl := Option.some.inj h
    cases t <;> simp [partOffset]
  | cons i p ih =>
    cases t with
    | struct packed fields =>
      obtain ⟨t, ht, hp⟩ := Option.bind_eq_some_iff.mp h
      have hrest := ih hp
      have hfield : dl.elementOffset packed 0 fields i + dl.allocSize t ≤ _ :=
        elementOffset_add_le ht
      have hend : 8 * dl.fieldsEnd packed 0 fields ≤ dl.sizeInBits (.struct packed fields) :=
        fieldsEnd_le_sizeInBits
      have hbits : dl.sizeInBits t ≤ dl.storeSize t * 8 := sizeInBits_le_storeSize t
      have halloc : dl.storeSize t ≤ dl.allocSize t := storeSize_le_allocSize t
      rw [partOffset, ht, Option.map_some, Option.getD_some]
      omega
    | array n element =>
      obtain ⟨hi, hp⟩ := (ite_eq_iff.mp h).resolve_right fun hnone => by cases hnone.2
      have hrest := ih hp
      have hbits : dl.sizeInBits element ≤ dl.storeSize element * 8 :=
        sizeInBits_le_storeSize element
      have hmul : (i + 1) * dl.allocSize element ≤ n * dl.allocSize element :=
        Nat.mul_le_mul_right _ hi
      have hsize' : i * size element ≤ i * dl.allocSize element :=
        Nat.mul_le_mul_left i (hsize element).2
      have halloc : dl.storeSize element ≤ dl.allocSize element := storeSize_le_allocSize element
      rw [Nat.add_mul, Nat.one_mul] at hmul
      rw [partOffset, sizeInBits_array, ← Nat.mul_assoc]
      omega
    | _ => cases h

variable (dl) in
/-- Parts at paths of which none leads through the other do not overlap. -/
theorem part_disjoint (hsize : dl.Between size) (hp : partType t p = some u)
    (hq : partType t q = some v) (hpq : ¬ p <+: q) (hqp : ¬ q <+: p) :
    8 * dl.partOffset size t p + dl.sizeInBits u ≤ 8 * dl.partOffset size t q ∨
      8 * dl.partOffset size t q + dl.sizeInBits v ≤ 8 * dl.partOffset size t p := by
  induction p generalizing t q with
  | nil => exact absurd List.nil_prefix hpq
  | cons i p ih =>
    cases q with
    | nil => exact absurd List.nil_prefix hqp
    | cons j q =>
      have hnext (heq : i = j) : ¬ p <+: q ∧ ¬ q <+: p := by
        subst heq
        exact ⟨fun h => hpq ((List.prefix_cons_inj i).mpr h),
          fun h => hqp ((List.prefix_cons_inj i).mpr h)⟩
      cases t with
      | struct packed fields =>
        obtain ⟨t, ht, hp'⟩ := Option.bind_eq_some_iff.mp hp
        obtain ⟨t', ht', hq'⟩ := Option.bind_eq_some_iff.mp hq
        have hle := partOffset_add_le dl hsize hp'
        have hle' := partOffset_add_le dl hsize hq'
        have hbits (t : LLVMType) : dl.sizeInBits t ≤ dl.allocSize t * 8 :=
          (sizeInBits_le_storeSize t).trans (Nat.mul_le_mul_right 8 (storeSize_le_allocSize t))
        have hbitst := hbits t
        have hbitst' := hbits t'
        simp only [partOffset, ht, ht', Option.map_some, Option.getD_some]
        rcases Nat.lt_trichotomy i j with hij | rfl | hji
        · have hfields : dl.elementOffset packed 0 fields i + dl.allocSize t ≤
              dl.elementOffset packed 0 fields j := elementOffset_add_le_elementOffset ht hij
          omega
        · obtain rfl := Option.some.inj (ht.symm.trans ht')
          have := ih hp' hq' (hnext rfl).1 (hnext rfl).2
          omega
        · have hfields : dl.elementOffset packed 0 fields j + dl.allocSize t' ≤
              dl.elementOffset packed 0 fields i := elementOffset_add_le_elementOffset ht' hji
          omega
      | array n element =>
        obtain ⟨-, hp'⟩ := (ite_eq_iff.mp hp).resolve_right fun hnone => by cases hnone.2
        obtain ⟨-, hq'⟩ := (ite_eq_iff.mp hq).resolve_right fun hnone => by cases hnone.2
        have hle := partOffset_add_le dl hsize hp'
        have hle' := partOffset_add_le dl hsize hq'
        have hbits : dl.sizeInBits element ≤ size element * 8 :=
          (sizeInBits_le_storeSize element).trans (Nat.mul_le_mul_right 8 (hsize element).1)
        have hmul {a b : Nat} (hab : a < b) :
            a * size element + size element ≤ b * size element := by
          rw [← Nat.succ_mul]
          exact Nat.mul_le_mul_right _ hab
        simp only [partOffset]
        rcases Nat.lt_trichotomy i j with hij | rfl | hji
        · have := hmul hij
          omega
        · have := ih hp' hq' (hnext rfl).1 (hnext rfl).2
          omega
        · have := hmul hji
          omega
      | _ => cases hp

variable (dl) in
/-- The elements of the arrays on the path are where they would be without padding. -/
theorem partOffset_eq_iff (h : partType t p = some u) :
    dl.partOffset dl.storeSize t p ≤ dl.partOffset dl.allocSize t p ∧
      (dl.partOffset dl.storeSize t p = dl.partOffset dl.allocSize t p ↔ dl.Unpadded t p) := by
  induction p generalizing t with
  | nil => cases t <;> simp [partOffset, Unpadded]
  | cons i p ih =>
    cases t with
    | struct packed fields =>
      obtain ⟨t, ht, hp⟩ := Option.bind_eq_some_iff.mp h
      obtain ⟨hle, hiff⟩ := ih hp
      simp only [partOffset, Unpadded, ht, Option.map_some, Option.getD_some, Option.mem_some_iff,
        forall_eq']
      exact ⟨Nat.add_le_add_left hle _, Nat.add_left_cancel_iff.trans hiff⟩
    | array n element =>
      obtain ⟨-, hp⟩ := (ite_eq_iff.mp h).resolve_right fun hnone => by cases hnone.2
      obtain ⟨hle, hiff⟩ := ih hp
      have hstore : dl.storeSize element ≤ dl.allocSize element := storeSize_le_allocSize element
      have hmul : i * dl.storeSize element ≤ i * dl.allocSize element :=
        Nat.mul_le_mul_left i hstore
      have hpadding : i * dl.storeSize element = i * dl.allocSize element ↔
          i = 0 ∨ dl.tailPadding element = 0 := by
        rw [mul_eq_mul_left_iff, tailPadding]
        omega
      simp only [partOffset, Unpadded]
      rw [← hpadding, ← hiff]
      omega
    | _ => cases h

end Parts

end DataLayout

end LLVM
