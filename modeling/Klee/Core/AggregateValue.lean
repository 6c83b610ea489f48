import Klee.Core.ElementPtr
import Klee.Lib.TypePath
import Klee.Core.ByteMemory

/-! `insertvalue` and `extractvalue`. -/
namespace Klee

open LLVM

namespace Executor

variable (dl : DataLayout)

/-- The operands that the type iterators of `insertvalue` and `extractvalue` make of indices. -/
def indexOperands (path : List Nat) : List Operand := path.map fun i => .constant (.alloc i 32)

/-- `bindInstructionConstants` for an aggregate of type `t`; `none` if an assertion fails. -/
def aggregateOffset (t : LLVMType) (path : List Nat) : Option Nat :=
  match computeOffsets dl (.ofType t) 1 (indexOperands path) [] (.alloc 0 dl.pointerWidth) with
  | some ⟨[], offset⟩ => some offset
  | _ => none

/-- `executeInstruction` for `insertvalue`; the offsets are `unsigned`. -/
def executeInsertValue (agg val : Expr) (offset : Nat) : Expr :=
  let lOffset := offset * 8 % 2 ^ 32
  let rOffset := (offset * 8 + val.width) % 2 ^ 32
  let l := if 0 < lOffset then some (ExtractExpr.create agg 0 lOffset) else none
  let r := if rOffset < agg.width then
      some (ExtractExpr.create agg rOffset (agg.width - rOffset))
    else none
  match l, r with
  | some l, some r => ConcatExpr.create r (ConcatExpr.create val l)
  | some l, none => ConcatExpr.create val l
  | none, some r => ConcatExpr.create r val
  | none, none => val

/-- `executeInstruction` for `extractvalue` with a result of a width. -/
def executeExtractValue (agg : Expr) (offset width : Nat) : Expr :=
  ExtractExpr.create agg (offset * 8 % 2 ^ 32) width

end Executor

end Klee

/-! What insertions into an aggregate leave of it, and where its parts are in memory. -/
namespace Klee

open LLVM Executor

namespace AggregateValue

variable {dl : DataLayout} {t u v : LLVMType} {p q : List Nat}

section Offsets

theorem valueUnder_indexOperands (locals : Nat → Expr) (σ : Assignment) (path : List Nat) :
    (indexOperands path).map (Operand.valueUnder locals σ) = path.map fun i => .alloc i 32 := by
  rw [indexOperands, List.map_map]
  rfl

/-- The index of an element that has a size is not negative in a small array. -/
theorem toInt_mul_size {i n size : Nat} (hi : i < n) (hn : n * size < 2 ^ 31) :
    (BitVec.ofNat 32 i).toInt * size = (i * size : Nat) := by
  rcases Nat.eq_zero_or_pos size with rfl | hsize
  · simp
  · have hlt : i < 2 ^ 31 := hi.trans (lt_of_le_of_lt (Nat.le_mul_of_pos_right n hsize) hn)
    have hnat : (BitVec.ofNat 32 i).toNat = i := Nat.mod_eq_of_lt (hlt.trans (by decide))
    rw [BitVec.toInt_eq_toNat_of_lt (by rw [hnat]; omega), hnat, Nat.cast_mul]

theorem indexes_indexOperands (h : partType t p = some u) (hp : ∀ i ∈ p, i < 2 ^ 32) :
    ElementPtr.Indexes (.ofType t) (indexOperands p) := by
  induction p generalizing t with
  | nil => exact trivial
  | cons i p ih =>
    have hrest := fun j hj => hp j (List.mem_cons_of_mem _ hj)
    have hi : (BitVec.ofNat 32 i).toNat = i := Nat.mod_eq_of_lt (hp i List.mem_cons_self)
    cases t with
    | struct packed fields =>
      obtain ⟨t, ht, hp⟩ := Option.bind_eq_some_iff.mp h
      exact ⟨.alloc i 32, t, rfl, by rw [← ht]; exact congrArg (fields[·]?) hi, ih hp hrest⟩
    | array n element =>
      obtain ⟨-, hp⟩ := (ite_eq_iff.mp h).resolve_right fun hnone => by cases hnone.2
      exact ih hp hrest
    | _ => cases h

theorem offsetBy_eq (h : partType t p = some u) (hp : ∀ i ∈ p, i < 2 ^ 32)
    (ht : dl.sizeInBits t < 2 ^ 32) :
    ElementPtr.offsetBy dl dl.storeSize (.ofType t) (p.map fun i => .alloc i 32) =
      some (dl.partOffset dl.storeSize t p : Int) := by
  induction p generalizing t with
  | nil => cases t <;> rfl
  | cons i p ih =>
    have hrest := fun j hj => hp j (List.mem_cons_of_mem _ hj)
    have hi : (BitVec.ofNat 32 i).toNat = i := Nat.mod_eq_of_lt (hp i List.mem_cons_self)
    cases t with
    | struct packed fields =>
      obtain ⟨t, hfield, hp⟩ := Option.bind_eq_some_iff.mp h
      have hpart : partType (.struct packed fields) [i] = some t := by rw [partType, hfield]; rfl
      have hsize := DataLayout.partOffset_add_le dl DataLayout.between_storeSize hpart
      have hoff := ih hp hrest (by omega)
      have hfield' : fields[(ConstantExpr.alloc i 32).value.toNat]? = some t :=
        (congrArg (fields[·]?) hi).trans hfield
      rw [List.map_cons, CurTy.ofType, ElementPtr.offsetBy_struct hfield' hoff,
        DataLayout.partOffset, hfield]
      change some (((dl.elementOffset packed 0 fields (BitVec.ofNat 32 i).toNat : Nat) : Int) + _) = _
      rw [hi]
      rfl
    | array n element =>
      obtain ⟨hlt, hp⟩ := (ite_eq_iff.mp h).resolve_right fun hnone => by cases hnone.2
      have halloc : n * dl.storeSize element ≤ n * dl.allocSize element :=
        Nat.mul_le_mul_left n (DataLayout.storeSize_le_allocSize element)
      have hbits := DataLayout.sizeInBits_array dl n element
      have hbits' : dl.sizeInBits element ≤ dl.storeSize element * 8 :=
        DataLayout.sizeInBits_le_storeSize element
      have hone : 1 * dl.storeSize element ≤ n * dl.storeSize element :=
        Nat.mul_le_mul_right _ (Nat.one_le_of_lt hlt)
      rw [← Nat.mul_assoc] at hbits
      have hoff := ih hp hrest (by omega)
      rw [List.map_cons, CurTy.ofType, ElementPtr.offsetBy_sequential hoff, DataLayout.partOffset,
        Nat.cast_add, ← toInt_mul_size hlt (by omega)]
      rfl
    | _ => cases h

/-- The offset that is computed for a path, where the sizes fit the widths of expressions. -/
theorem aggregateOffset_eq (hpw : 32 ≤ dl.pointerWidth) (h : partType t p = some u)
    (hp : ∀ i ∈ p, i < 2 ^ 32) (ht : dl.sizeInBits t < 2 ^ 32) :
    aggregateOffset dl t p = some (dl.partOffset dl.storeSize t p) := by
  obtain ⟨kgepi, kept, off, hrun, hlt, hindices, hkept, hoff, hsum⟩ :=
    ElementPtr.exists_computeOffsets dl (fun _ => .constant (.alloc 0 1)) (fun _ _ => 0)
      (indexes_indexOperands h hp) 1 [] 0
  obtain rfl : kept = [] := by
    refine List.eq_nil_iff_forall_not_mem.mpr fun e he => ?_
    obtain ⟨k, r, hk, -⟩ := hkept e he
    obtain ⟨i, -, hi⟩ := List.mem_map.mp (List.mem_of_getElem? hk)
    cases hi
  rw [valueUnder_indexOperands, offsetBy_eq h hp ht] at hoff
  obtain rfl := Option.some.inj hoff
  have hvalue := hsum _ fun k operand hk => ElementPtr.indexValue_succ (.register 0) hk
  have hin := DataLayout.partOffset_add_le dl DataLayout.between_storeSize h
  have hpow : 2 ^ 32 ≤ 2 ^ dl.pointerWidth := Nat.pow_le_pow_right (by decide) hpw
  have hoffset : kgepi.offset = dl.partOffset dl.storeSize t p := by
    have hnat := congrArg BitVec.toNat hvalue
    rw [ElementPtr.scaled, List.map_nil, List.sum_nil, zero_add, zero_add, BitVec.ofInt_natCast,
      BitVec.toNat_ofNat, BitVec.toNat_ofNat, Nat.mod_eq_of_lt hlt, Nat.mod_eq_of_lt (by omega)]
      at hnat
    exact hnat
  obtain ⟨indices, offset⟩ := kgepi
  obtain rfl : indices = [] := hindices
  rw [aggregateOffset, show ConstantExpr.alloc 0 dl.pointerWidth = ⟨dl.pointerWidth, 0⟩ from rfl,
    hrun]
  exact congrArg some hoffset

end Offsets

section Slices

variable {s : Option Assignment} {agg val : Expr} {W w offset : Nat} {x z : BitVec W} {y : BitVec w}

/-- `z` is `x` with `y` in place of its bits from `lo` on. -/
def Spliced (x : BitVec W) (lo : Nat) (y : BitVec w) (z : BitVec W) : Prop :=
  ∀ i < W, z.getLsbD i = if lo ≤ i ∧ i < lo + w then y.getLsbD (i - lo) else x.getLsbD i

theorem Spliced.extract_same {lo : Nat} (h : Spliced x lo y z) (hle : lo + w ≤ W) :
    z.extractLsb' lo w = y := by
  apply BitVec.eq_of_getLsbD_eq
  intro i hi
  rw [BitVec.getLsbD_extractLsb', decide_eq_true hi, Bool.true_and, h _ (by omega),
    if_pos (by omega), Nat.add_sub_cancel_left]

theorem Spliced.extract_other {lo lo' w' : Nat} (h : Spliced x lo y z) (hle : lo' + w' ≤ W)
    (hdisjoint : lo + w ≤ lo' ∨ lo' + w' ≤ lo) : z.extractLsb' lo' w' = x.extractLsb' lo' w' := by
  apply BitVec.eq_of_getLsbD_eq
  intro i hi
  rw [BitVec.getLsbD_extractLsb', BitVec.getLsbD_extractLsb', h _ (by omega), if_neg (by omega)]

theorem getLsbD_append_high {lo m n i : Nat} (hlo : lo = m) (x : BitVec W) (z : BitVec m)
    (hi : i < m + n) :
    (x.extractLsb' lo n ++ z).getLsbD i = if i < m then z.getLsbD i else x.getLsbD i := by
  subst hlo
  rw [BitVec.getLsbD_append]
  by_cases h : i < lo
  · rw [if_pos h, if_pos h]
  · rw [if_neg h, if_neg h, BitVec.getLsbD_extractLsb', decide_eq_true (by omega), Bool.true_and,
      Nat.add_sub_cancel' (not_lt.mp h)]

theorem getLsbD_append_low {lo i : Nat} (x : BitVec W) (y : BitVec w) (hi : i < lo + w) :
    (y ++ x.extractLsb' 0 lo).getLsbD i =
      if lo ≤ i ∧ i < lo + w then y.getLsbD (i - lo) else x.getLsbD i := by
  rw [BitVec.getLsbD_append]
  by_cases h : i < lo
  · rw [if_pos h, if_neg (by omega), BitVec.getLsbD_extractLsb', decide_eq_true h, Bool.true_and,
      Nat.zero_add]
  · rw [if_neg h, if_pos ⟨not_lt.mp h, hi⟩]

/-- The four ways to put the value between what is left of the aggregate. -/
theorem executeInsertValue_denotes (hagg : Denotes s agg W x) (hval : Denotes s val w y)
    (hle : 8 * offset + w ≤ W) (hW : W < 2 ^ 32) :
    ∃ z, Denotes s (executeInsertValue agg val offset) W z ∧ Spliced x (8 * offset) y z := by
  have hl : offset * 8 % 2 ^ 32 = 8 * offset := by omega
  have hr : (offset * 8 + val.width) % 2 ^ 32 = 8 * offset + w := by
    rw [hval.width_eq]
    omega
  have hleft (hpos : 0 < 8 * offset) : Denotes s (ExtractExpr.create agg 0 (8 * offset))
      (8 * offset) (x.extractLsb' 0 (8 * offset)) :=
    ExtractExpr.create_denotes hagg hpos (by omega)
  have hright (hlt : 8 * offset + w < W) :
      Denotes s (ExtractExpr.create agg (8 * offset + w) (W - (8 * offset + w)))
        (W - (8 * offset + w)) (x.extractLsb' (8 * offset + w) (W - (8 * offset + w))) :=
    ExtractExpr.create_denotes hagg (by omega) (by omega)
  unfold executeInsertValue
  dsimp only
  rw [hl, hr, hagg.width_eq]
  by_cases hpos : 0 < 8 * offset
  · by_cases hlt : 8 * offset + w < W
    · rw [if_pos hpos, if_pos hlt]
      refine ⟨_, (ConcatExpr.create_denotes (hright hlt)
        (ConcatExpr.create_denotes hval (hleft hpos))).setWidth (w := W) (by omega),
        fun i hi => ?_⟩
      rw [BitVec.getLsbD_setWidth, decide_eq_true hi, Bool.true_and,
        getLsbD_append_high (Nat.add_comm _ _) _ _ (by omega)]
      by_cases h : i < w + 8 * offset
      · rw [if_pos h, getLsbD_append_low _ _ (by omega)]
      · rw [if_neg h, if_neg (by omega)]
    · rw [if_pos hpos, if_neg hlt]
      refine ⟨_, (ConcatExpr.create_denotes hval (hleft hpos)).setWidth (w := W) (by omega),
        fun i hi => ?_⟩
      rw [BitVec.getLsbD_setWidth, decide_eq_true hi, Bool.true_and,
        getLsbD_append_low _ _ (by omega)]
  · by_cases hlt : 8 * offset + w < W
    · rw [if_neg hpos, if_pos hlt]
      refine ⟨_, (ConcatExpr.create_denotes (hright hlt) hval).setWidth (w := W) (by omega),
        fun i hi => ?_⟩
      rw [BitVec.getLsbD_setWidth, decide_eq_true hi, Bool.true_and,
        getLsbD_append_high (by omega) _ _ (by omega)]
      by_cases h : i < w
      · rw [if_pos h, if_pos (by omega)]
        exact congrArg y.getLsbD (by omega)
      · rw [if_neg h, if_neg (by omega)]
    · rw [if_neg hpos, if_neg hlt]
      refine ⟨_, hval.setWidth (w := W) (by omega), fun i hi => ?_⟩
      rw [BitVec.getLsbD_setWidth, decide_eq_true hi, Bool.true_and, if_pos (by omega)]
      exact congrArg y.getLsbD (by omega)

end Slices

section Memory

variable {isLittleEndian : Bool}

/-- In memory the part is at the offset that the layout gives to its path. -/
structure Loadable (dl : DataLayout) (isLittleEndian : Bool) (t : LLVMType) (p : List Nat)
    (u : LLVMType) : Prop where
  validWidth : ByteMemory.ValidWidth (dl.sizeInBits u)
  little : isLittleEndian = true → dl.Unpadded t p
  big : isLittleEndian = false → dl.partOffset dl.storeSize t p + dl.partOffset dl.allocSize t p +
    ByteMemory.numBytes (dl.sizeInBits u) = dl.storeSize t

variable (dl) in
/-- The size of a type that has parts is a number of bytes. -/
theorem sizeInBits_eq (h : partType t p = some u) (hp : p ≠ []) :
    dl.sizeInBits t = 8 * dl.storeSize t := by
  obtain ⟨i, p, rfl⟩ := List.exists_cons_of_ne_nil hp
  have hdvd : 8 ∣ dl.sizeInBits t := by
    cases t with
    | struct packed fields => exact Dvd.intro_left _ rfl
    | array n element =>
      rw [DataLayout.sizeInBits_array, ← Nat.mul_assoc]
      exact Dvd.intro_left _ rfl
    | _ => cases h
  rw [DataLayout.storeSize, DataLayout.bytesOf]
  omega

/-- A slice of a value in memory is the value at an offset if and only if the first byte is the
same for both. -/
theorem extract_read_iff {W w lo off n : Nat} (hW : ByteMemory.ValidWidth W)
    (hw : ByteMemory.ValidWidth w) (hle : 8 * off + w ≤ W) (hn : ByteMemory.numBytes W = n) :
    (∀ (m : ByteMemory) (a : Nat), (m.read isLittleEndian a W).extractLsb' (8 * off) w =
        m.read isLittleEndian (a + lo) w) ↔
      ObjectState.byteIndex isLittleEndian n off =
        lo + ObjectState.byteIndex isLittleEndian (ByteMemory.numBytes w) 0 := by
  have hpos := ByteMemory.numBytes_pos hw
  subst hn
  constructor
  · intro h
    -- a memory with one bit, in the first byte of the slice
    have hbit := congrArg (BitVec.getLsbD · 0) (h (fun a =>
      if a = ObjectState.byteIndex isLittleEndian (ByteMemory.numBytes W) off then 1 else 0) 0)
    have hw0 : 0 < w := by
      rcases hw with rfl | ⟨k, rfl⟩ <;> omega
    simp only [BitVec.getLsbD_extractLsb', hw0, decide_true, Bool.true_and] at hbit
    rw [ByteMemory.getLsbD_read hW (by omega), ByteMemory.getLsbD_read hw hw0, Nat.add_zero,
      Nat.mul_div_cancel_left off (by decide), Nat.mul_mod_right, Nat.zero_div, Nat.zero_mod,
      zero_add, zero_add, if_pos rfl] at hbit
    by_contra hne
    rw [if_neg (Ne.symm hne)] at hbit
    exact absurd hbit (by decide)
  · intro h m a
    apply BitVec.eq_of_getLsbD_eq
    intro i hi
    rw [BitVec.getLsbD_extractLsb', decide_eq_true hi, Bool.true_and,
      ByteMemory.getLsbD_read hW (by omega), ByteMemory.getLsbD_read hw hi]
    have hdiv : (8 * off + i) / 8 = off + i / 8 := by omega
    have hmod : (8 * off + i) % 8 = i % 8 := by omega
    have hbyte : i / 8 < ByteMemory.numBytes w := by
      rcases hw with rfl | ⟨k, rfl⟩
      · exact Nat.lt_of_le_of_lt (Nat.div_le_self i 8) hi
      · exact ByteMemory.lt_numBytes (by omega)
    have hbytes : off + ByteMemory.numBytes w ≤ ByteMemory.numBytes W := by
      unfold ByteMemory.numBytes
      rcases hW with rfl | ⟨k, rfl⟩ <;> split_ifs <;> omega
    have hindex : ObjectState.byteIndex isLittleEndian (ByteMemory.numBytes W) (off + i / 8) =
        lo + ObjectState.byteIndex isLittleEndian (ByteMemory.numBytes w) (i / 8) := by
      unfold ObjectState.byteIndex at h ⊢
      split_ifs at h ⊢ <;> omega
    rw [hdiv, hmod, hindex, Nat.add_assoc]

/-- The condition on the first byte, for a part of an aggregate. -/
theorem byteIndex_eq_iff (h : partType t p = some u) (hp : p ≠ [])
    (hu : ByteMemory.ValidWidth (dl.sizeInBits u)) :
    ObjectState.byteIndex isLittleEndian (dl.storeSize t) (dl.partOffset dl.storeSize t p) =
        dl.partOffset dl.allocSize t p +
          ObjectState.byteIndex isLittleEndian (ByteMemory.numBytes (dl.sizeInBits u)) 0 ↔
      Loadable dl isLittleEndian t p u := by
  have hiff := (DataLayout.partOffset_eq_iff dl h).2
  have hle := DataLayout.partOffset_add_le dl DataLayout.between_storeSize h
  have hle' := DataLayout.partOffset_add_le dl DataLayout.between_allocSize h
  have hsize := sizeInBits_eq dl h hp
  have hpos := ByteMemory.numBytes_pos hu
  have hbytes : 8 * ByteMemory.numBytes (dl.sizeInBits u) < dl.sizeInBits u + 8 := by
    unfold ByteMemory.numBytes
    split <;> omega
  cases isLittleEndian with
  | true =>
    simp only [ObjectState.byteIndex, if_true, Nat.add_zero]
    exact hiff.trans ⟨fun h => ⟨hu, fun _ => h, fun h => by cases h⟩, fun h => h.little rfl⟩
  | false =>
    have hsum : dl.storeSize t - dl.partOffset dl.storeSize t p - 1 =
          dl.partOffset dl.allocSize t p +
            (ByteMemory.numBytes (dl.sizeInBits u) - 0 - 1) ↔
        dl.partOffset dl.storeSize t p + dl.partOffset dl.allocSize t p +
          ByteMemory.numBytes (dl.sizeInBits u) = dl.storeSize t := by
      omega
    exact hsum.trans ⟨fun h => ⟨hu, fun h => (by cases h), fun _ => h⟩, fun h => h.big rfl⟩

end Memory

section Laws

/-- The values of a type: the widths of expressions are `unsigned`. -/
structure IsValue (dl : DataLayout) (t : LLVMType) (e : Expr) : Prop where
  wellSorted : e.WellSorted
  width_eq : e.width = dl.sizeInBits t
  width_lt : e.width < 2 ^ 32

/-- The laws of insertion and extraction for parts `u` and `v` of an aggregate `t`, at the offsets
that are computed for their paths. -/
structure AccessLaws (dl : DataLayout) (isLittleEndian : Bool) (t u v : LLVMType) (p : List Nat)
    (offset offset' : Nat) : Prop where
  inserted : ∀ (σ : Assignment) (agg val : Expr), IsValue dl t agg → IsValue dl u val →
    (executeExtractValue (executeInsertValue agg val offset) offset (dl.sizeInBits u)).eval σ
      (dl.sizeInBits u) = val.eval σ (dl.sizeInBits u)
  unaffected : ∀ (σ : Assignment) (agg val : Expr), IsValue dl t agg → IsValue dl u val →
    (executeExtractValue (executeInsertValue agg val offset) offset' (dl.sizeInBits v)).eval σ
      (dl.sizeInBits v) =
    (executeExtractValue agg offset' (dl.sizeInBits v)).eval σ (dl.sizeInBits v)
  value : ∀ agg val : Expr, IsValue dl t agg → IsValue dl u val →
    IsValue dl t (executeInsertValue agg val offset)
  loaded : ∀ (σ : Assignment) (agg : Expr) (m : ByteMemory) (a : Nat), IsValue dl t agg →
    agg.eval σ (dl.sizeInBits t) = m.read isLittleEndian a (dl.sizeInBits t) →
    ByteMemory.ValidWidth (dl.sizeInBits u) ∧
    (executeExtractValue agg offset (dl.sizeInBits u)).eval σ (dl.sizeInBits u) =
      m.read isLittleEndian (a + dl.partOffset dl.allocSize t p) (dl.sizeInBits u)

variable {isLittleEndian : Bool} {s : Option Assignment} {agg val : Expr}

theorem IsValue.denotes (h : IsValue dl t agg) (σ : Assignment) :
    Denotes (some σ) agg (dl.sizeInBits t) (agg.eval σ (dl.sizeInBits t)) :=
  .of_wellSorted h.wellSorted h.width_eq

theorem executeExtractValue_denotes {W w offset : Nat} {x : BitVec W} (hagg : Denotes s agg W x)
    (hw : 0 < w) (hle : 8 * offset + w ≤ W) (hW : W < 2 ^ 32) :
    Denotes s (executeExtractValue agg offset w) w (x.extractLsb' (8 * offset) w) := by
  have hoffset : offset * 8 % 2 ^ 32 = 8 * offset := by omega
  rw [executeExtractValue, hoffset]
  exact ExtractExpr.create_denotes hagg hw hle

variable (dl) in
theorem validWidth_sizeInBits (h : partType t p = some u) (hp : p ≠ [])
    (hu : 0 < dl.sizeInBits u) : ByteMemory.ValidWidth (dl.sizeInBits t) ∧
      ByteMemory.numBytes (dl.sizeInBits t) = dl.storeSize t := by
  have hle := DataLayout.partOffset_add_le dl DataLayout.between_storeSize h
  have hsize := sizeInBits_eq dl h hp
  refine ⟨.inr ⟨dl.storeSize t - 1, by omega⟩, ?_⟩
  rw [ByteMemory.numBytes, if_neg (by omega)]
  omega

/-- The laws for all aggregates in memory place the part. -/
theorem AccessLaws.loadable {offset' : Nat}
    (h : AccessLaws dl isLittleEndian t u v p (dl.partOffset dl.storeSize t p) offset')
    (ht : dl.sizeInBits t < 2 ^ 32) (hp : partType t p = some u) (hne : p ≠ [])
    (hu : 0 < dl.sizeInBits u) : Loadable dl isLittleEndian t p u := by
  obtain ⟨hvalid, hbytes⟩ := validWidth_sizeInBits dl hp hne hu
  have hle := DataLayout.partOffset_add_le dl DataLayout.between_storeSize hp
  have hall (m : ByteMemory) (a : Nat) := h.loaded (fun _ _ => 0)
    (.constant ⟨_, m.read isLittleEndian a (dl.sizeInBits t)⟩) m a
    ⟨show 0 < dl.sizeInBits t by omega, rfl, ht⟩ (by simp [Expr.eval])
  have hu' := (hall (fun _ => 0) 0).1
  refine (byteIndex_eq_iff hp hne hu').mp ((extract_read_iff hvalid hu' hle hbytes).mp
    fun m a => ?_)
  rw [← (hall m a).2]
  exact ((executeExtractValue_denotes (Denotes.constant (by omega)) hu hle ht).eval).symm

/-- Insertions and extractions obey the laws if and only if loads find the part where the paths
lead: the other laws always hold. -/
theorem accessLaws_iff (dl : DataLayout) (isLittleEndian : Bool) (t u v : LLVMType)
    (p q : List Nat) (hpw : 32 ≤ dl.pointerWidth) (ht : dl.sizeInBits t < 2 ^ 32)
    (hp : partType t p = some u) (hq : partType t q = some v) (hpq : ¬ p <+: q) (hqp : ¬ q <+: p)
    (hp' : ∀ i ∈ p, i < 2 ^ 32) (hq' : ∀ i ∈ q, i < 2 ^ 32) (hu : 0 < dl.sizeInBits u) :
    ∃ offset offset', aggregateOffset dl t p = some offset ∧
      aggregateOffset dl t q = some offset' ∧
      (AccessLaws dl isLittleEndian t u v p offset offset' ↔ Loadable dl isLittleEndian t p u) := by
  refine ⟨_, _, aggregateOffset_eq hpw hp hp' ht, aggregateOffset_eq hpw hq hq' ht, ?_⟩
  have hne : p ≠ [] := fun h => hpq (h ▸ List.nil_prefix)
  have hle := DataLayout.partOffset_add_le dl DataLayout.between_storeSize hp
  have hle' := DataLayout.partOffset_add_le dl DataLayout.between_storeSize hq
  have hdisjoint := DataLayout.part_disjoint dl DataLayout.between_storeSize hp hq hpq hqp
  obtain ⟨hvalid, hbytes⟩ := validWidth_sizeInBits dl hp hne hu
  refine ⟨fun hlaws => hlaws.loadable ht hp hne hu, fun hload => ?_⟩
  refine ⟨fun σ agg val hagg hval => ?_, fun σ agg val hagg hval => ?_,
    fun agg val hagg hval => ?_, fun σ agg m a hagg hmem => ⟨hload.validWidth, ?_⟩⟩
  · obtain ⟨z, hz, hspliced⟩ :=
      executeInsertValue_denotes (hagg.denotes σ) (hval.denotes σ) hle ht
    rw [(executeExtractValue_denotes hz hu hle ht).eval, hspliced.extract_same hle]
  · obtain ⟨z, hz, hspliced⟩ :=
      executeInsertValue_denotes (hagg.denotes σ) (hval.denotes σ) hle ht
    rcases Nat.eq_zero_or_pos (dl.sizeInBits v) with hv | hv
    · rw [hv]
      exact Subsingleton.elim _ _
    · rw [(executeExtractValue_denotes hz hv hle' ht).eval,
        (executeExtractValue_denotes (hagg.denotes σ) hv hle' ht).eval,
        hspliced.extract_other hle' hdisjoint]
  · obtain ⟨z, hz, -⟩ := executeInsertValue_denotes (hagg.denotes fun _ _ => 0)
      (hval.denotes fun _ _ => 0) hle ht
    exact ⟨hz.wellSorted, hz.width_eq, hz.width_eq ▸ ht⟩
  · rw [(executeExtractValue_denotes (hagg.denotes σ) hu hle ht).eval, hmem]
    exact (extract_read_iff hvalid hload.validWidth hle hbytes).mpr
      ((byteIndex_eq_iff hp hne hload.validWidth).mpr hload) m a

/-- The fields 1 and 0 of a struct `{ i8, i32 }`. -/
theorem accessLaws_struct : ∃ offset offset',
    aggregateOffset .x86_64 (.struct false [.integer 8, .integer 32]) [1] = some offset ∧
    aggregateOffset .x86_64 (.struct false [.integer 8, .integer 32]) [0] = some offset' ∧
    (AccessLaws .x86_64 true (.struct false [.integer 8, .integer 32]) (.integer 32) (.integer 8)
      [1] offset offset' ↔
        Loadable .x86_64 true (.struct false [.integer 8, .integer 32]) [1] (.integer 32)) :=
  accessLaws_iff .x86_64 true _ _ _ [1] [0] (by decide) (by decide) rfl rfl (by decide) (by decide)
    (by decide) (by decide) (by decide)

/-- The elements 1 and 0 of an array `[2 x x86_fp80]`: the element 1 is taken from the byte 10 on,
and lies in memory from the byte 16 on. -/
theorem not_accessLaws_fp80 :
    aggregateOffset .x86_64 (.array 2 (.floating .x86_fp80)) [1] = some 10 ∧
    aggregateOffset .x86_64 (.array 2 (.floating .x86_fp80)) [0] = some 0 ∧
    ¬ AccessLaws .x86_64 true (.array 2 (.floating .x86_fp80)) (.floating .x86_fp80)
      (.floating .x86_fp80) [1] 10 0 := by
  refine ⟨rfl, rfl, fun h => ?_⟩
  have hload := AccessLaws.loadable (p := [1]) h (by decide) rfl (by decide) (by decide)
  have hpadding := (hload.little rfl).1
  exact absurd hpadding (by decide)

end Laws

end AggregateValue

end Klee
