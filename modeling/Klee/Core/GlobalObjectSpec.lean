import Klee.Core.ByteMemory
import Klee.Core.GlobalObject
import Klee.Lib.Segments
import Klee.Lib.TypePath

/-! What constants evaluate to, and what is written for them, against the layout of their types. -/
namespace Klee

open LLVM Executor Segments

namespace Constant

variable (dl : DataLayout)

section Image

def sumFields (packed : Bool) (fields : List LLVMType) : Nat → List Nat → Nat
  | _, [] => 0
  | i, x :: xs =>
    2 ^ (8 * dl.elementOffset packed 0 fields i) * x + sumFields packed fields (i + 1) xs

mutual

/-- A constant in memory, as a number: the elements of an array are an allocation size apart, those
of a vector have no space between them, and the fields of a struct are at their offsets. -/
def image : Constant → Nat
  | scalar _ value => value.value.toNat
  | zero _ => 0
  | undef _ => 0
  | array element operands =>
    glue ((images operands).map fun x => (8 * dl.allocSize element, x))
  | vector element operands => glue ((images operands).map fun x => (dl.sizeInBits element, x))
  | struct packed fields operands => sumFields dl packed fields 0 (images operands)

def images : List Constant → List Nat
  | [] => []
  | c :: cs => image c :: images cs

end

mutual

def Positive : LLVMType → Prop
  | .integer width => 0 < width
  | .floating _ => True
  | .pointer => 0 < dl.pointerWidth
  | .array n element => 0 < n ∧ Positive element
  | .vector n element => 0 < n ∧ Positive element
  | .struct _ fields => fields ≠ [] ∧ AllPositive fields

def AllPositive : List LLVMType → Prop
  | [] => True
  | t :: ts => Positive t ∧ AllPositive ts

end

/-- The values of the type have its width: no element of an array, down to the next struct, ends
before the next one begins. -/
def Exact : LLVMType → Prop
  | .array _ element => Exact element ∧ dl.sizeInBits element = 8 * dl.allocSize element
  | .vector _ element => Exact element
  | _ => True

mutual

/-- Elements after the first of an array or a vector begin where the one before them ends, in
memory and in a value. -/
def Contiguous : LLVMType → Prop
  | .array n element => Contiguous element ∧
      (n = 1 ∨ Exact dl element ∧ dl.sizeInBits element = 8 * dl.allocSize element)
  | .vector n element => Contiguous element ∧
      (n = 1 ∨ Exact dl element ∧ dl.sizeInBits element = 8 * dl.storeSize element)
  | .struct _ fields => AllContiguous fields
  | _ => True

def AllContiguous : List LLVMType → Prop
  | [] => True
  | t :: ts => Contiguous t ∧ AllContiguous ts

end

end Image

variable {dl}

section Concat

theorem toNat_concat (l r : ConstantExpr) :
    (l.concat r).value.toNat = r.value.toNat + 2 ^ r.width * l.value.toNat := by
  have happend : (l.concat r).value = l.value ++ r.value := by
    apply BitVec.eq_of_getLsbD_eq
    intro i hi
    have hi : i < l.width + r.width := hi
    unfold ConstantExpr.concat
    simp only [BitVec.getLsbD_or, BitVec.getLsbD_shiftLeft, BitVec.getLsbD_setWidth,
      BitVec.getLsbD_append]
    split_ifs <;> grind
  have hnat : (l.concat r).value.toNat = (l.value ++ r.value).toNat :=
    congrArg BitVec.toNat happend
  rw [hnat, BitVec.toNat_append, ← Nat.shiftLeft_add_eq_or_of_lt r.value.isLt,
    Nat.shiftLeft_eq]
  ring

def segment (kid : ConstantExpr) : Nat × Nat := (kid.width, kid.value.toNat)

theorem sum_segment (kids : List ConstantExpr) :
    ((kids.map segment).map (·.1)).sum = (kids.map (·.width)).sum := by
  rw [List.map_map]
  rfl

/-- The kids from the last one on. -/
theorem exists_createN {kids : List ConstantExpr} (hne : kids ≠ []) :
    ∃ r, createN kids = some r ∧ r.width = (kids.map (·.width)).sum ∧
      r.value.toNat = glue (kids.reverse.map segment) := by
  induction kids with
  | nil => exact absurd rfl hne
  | cons kid kids ih =>
    cases kids with
    | nil => exact ⟨kid, rfl, by simp, by simp [glue, segment]⟩
    | cons next kids =>
      obtain ⟨r, hr, hwidth, hvalue⟩ := ih (List.cons_ne_nil _ _)
      refine ⟨kid.concat r, congrArg (Option.map kid.concat) hr, ?_, ?_⟩
      · rw [List.map_cons, List.sum_cons, ← hwidth]
        rfl
      · have hsum : (((next :: kids).reverse.map segment).map (·.1)).sum = r.width := by
          rw [hwidth, sum_segment, List.map_reverse, List.sum_reverse]
        rw [toNat_concat, hvalue, List.reverse_cons (a := kid), List.map_append, glue_append, hsum,
          List.map_cons, List.map_nil, glue, glue, Nat.mul_zero, Nat.add_zero]
        rfl

theorem createN_eq_some {kids : List ConstantExpr} {r : ConstantExpr} (h : createN kids = some r) :
    r.width = (kids.map (·.width)).sum ∧ r.value.toNat = glue (kids.reverse.map segment) := by
  have hne : kids ≠ [] := by
    rintro rfl
    cases h
  obtain ⟨r', hr, hwidth, hvalue⟩ := exists_createN hne
  obtain rfl := Option.some.inj (hr.symm.trans h)
  exact ⟨hwidth, hvalue⟩

end Concat

section Struct

def nextOffset (dl : DataLayout) (packed : Bool) (fields : List LLVMType) (i : Nat)
    (last : Bool) : Nat :=
  if last then dl.sizeInBits (.struct packed fields)
  else dl.elementOffset packed 0 fields (i + 1) * 8

/-- With its padding a kid has the bits up to the next one. -/
theorem padKids_cons (dl : DataLayout) {packed : Bool} {fields : List LLVMType} (i : Nat)
    (kid : ConstantExpr) (kids : List ConstantExpr)
    (hle : 8 * dl.elementOffset packed 0 fields i + kid.width ≤
      nextOffset dl packed fields i kids.isEmpty) :
    (((padKids dl packed fields i (kid :: kids)).map segment).map (·.1)).sum +
        8 * dl.elementOffset packed 0 fields i =
      nextOffset dl packed fields i kids.isEmpty +
        (((padKids dl packed fields (i + 1) kids).map segment).map (·.1)).sum ∧
    glue ((padKids dl packed fields i (kid :: kids)).map segment) = kid.value.toNat +
      2 ^ (nextOffset dl packed fields i kids.isEmpty - 8 * dl.elementOffset packed 0 fields i) *
        glue ((padKids dl packed fields (i + 1) kids).map segment) := by
  have hpad : padKids dl packed fields i (kid :: kids) =
      if kid.width < nextOffset dl packed fields i kids.isEmpty -
          dl.elementOffset packed 0 fields i * 8 then
        kid :: .alloc 0 (nextOffset dl packed fields i kids.isEmpty -
          dl.elementOffset packed 0 fields i * 8 - kid.width) ::
            padKids dl packed fields (i + 1) kids
      else kid :: padKids dl packed fields (i + 1) kids := rfl
  rw [hpad]
  generalize nextOffset dl packed fields i kids.isEmpty = next at hle ⊢
  generalize dl.elementOffset packed 0 fields i = offset at hle ⊢
  split
  case isTrue hlt =>
    have hgap : next - 8 * offset = kid.width + (next - offset * 8 - kid.width) := by omega
    refine ⟨?_, ?_⟩
    · simp only [List.map_cons, List.sum_cons, segment, ConstantExpr.width_alloc]
      omega
    · rw [hgap, pow_add]
      simp only [List.map_cons, glue, segment, ConstantExpr.width_alloc]
      simp [ConstantExpr.alloc, mul_assoc]
  case isFalse hge =>
    have hgap : next - 8 * offset = kid.width := by omega
    refine ⟨?_, ?_⟩
    · simp only [List.map_cons, List.sum_cons, segment]
      omega
    · rw [hgap]
      rfl

/-- The kids of a struct from a field on fill it, each from its offset. -/
theorem padKids_spec (packed : Bool) {fields : List LLVMType} {kids : List ConstantExpr} {i : Nat}
    (hkids : List.Forall₂ (fun t kid => kid.width ≤ 8 * dl.allocSize t) (fields.drop i) kids)
    (hne : kids ≠ []) :
    (((padKids dl packed fields i kids).map segment).map (·.1)).sum +
        8 * dl.elementOffset packed 0 fields i = dl.sizeInBits (.struct packed fields) ∧
      2 ^ (8 * dl.elementOffset packed 0 fields i) *
          glue ((padKids dl packed fields i kids).map segment) =
        sumFields dl packed fields i (kids.map (·.value.toNat)) := by
  induction kids generalizing i with
  | nil => exact absurd rfl hne
  | cons kid kids ih =>
    cases hdrop : fields.drop i with
    | nil =>
      rw [hdrop] at hkids
      cases hkids
    | cons t ts =>
      rw [hdrop, List.forall₂_cons] at hkids
      obtain ⟨hkid, hrest⟩ := hkids
      have ht : fields[i]? = some t := by
        rw [← List.head?_drop, hdrop]
        rfl
      have hts : fields.drop (i + 1) = ts := by
        rw [← List.tail_drop, hdrop]
        rfl
      cases kids with
      | nil =>
        have hend : dl.elementOffset packed 0 fields i + dl.allocSize t ≤
            dl.fieldsEnd packed 0 fields := DataLayout.elementOffset_add_le ht
        have hsize : 8 * dl.fieldsEnd packed 0 fields ≤ dl.sizeInBits (.struct packed fields) :=
          DataLayout.fieldsEnd_le_sizeInBits
        obtain ⟨hwidth, hglue⟩ := padKids_cons dl i kid []
          (show _ ≤ dl.sizeInBits (.struct packed fields) by omega)
        rw [hwidth, hglue]
        exact ⟨rfl, by simp [padKids, glue, sumFields]⟩
      | cons next kids =>
        have hnext : dl.elementOffset packed 0 fields i + dl.allocSize t ≤
            dl.elementOffset packed 0 fields (i + 1) :=
          DataLayout.elementOffset_add_le_elementOffset ht (Nat.lt_succ_self i)
        obtain ⟨hwidth, hglue⟩ := padKids_cons dl i kid (next :: kids)
          (show _ ≤ dl.elementOffset packed 0 fields (i + 1) * 8 by omega)
        obtain ⟨hwidth', hglue'⟩ := ih (hts.symm ▸ hrest) (List.cons_ne_nil _ _)
        have hoffset : nextOffset dl packed fields i (next :: kids).isEmpty =
            8 * dl.elementOffset packed 0 fields (i + 1) := Nat.mul_comm _ _
        rw [hoffset] at hwidth hglue
        refine ⟨by omega, ?_⟩
        have hpow : 2 ^ (8 * dl.elementOffset packed 0 fields i) *
            2 ^ (8 * dl.elementOffset packed 0 fields (i + 1) -
              8 * dl.elementOffset packed 0 fields i) =
            2 ^ (8 * dl.elementOffset packed 0 fields (i + 1)) := by
          rw [← pow_add]
          congr 1
          omega
        rw [hglue, Nat.mul_add, ← Nat.mul_assoc, hpow, hglue']
        rfl

end Struct

section Evaluation

theorem Positive.sizeInBits_pos : ∀ {t : LLVMType}, Positive dl t → 0 < dl.sizeInBits t
  | .integer _, h => h
  | .floating kind, _ => by
    show 0 < kind.width
    cases kind <;> decide
  | .pointer, h => h
  | .array n element, h => by
    have helement := sizeInBits_pos h.2
    have hle : dl.sizeInBits element ≤ dl.storeSize element * 8 :=
      DataLayout.sizeInBits_le_storeSize element
    have halloc : dl.storeSize element ≤ dl.allocSize element :=
      DataLayout.storeSize_le_allocSize element
    rw [DataLayout.sizeInBits_array]
    exact Nat.mul_pos h.1 (by omega)
  | .vector n element, h => Nat.mul_pos h.1 (sizeInBits_pos h.2)
  | .struct packed [], h => absurd rfl h.1
  | .struct packed (t :: ts), h => by
    have ht := sizeInBits_pos h.2.1
    have hle : dl.sizeInBits t ≤ dl.storeSize t * 8 := DataLayout.sizeInBits_le_storeSize t
    have halloc : dl.storeSize t ≤ dl.allocSize t := DataLayout.storeSize_le_allocSize t
    have hfield : dl.elementOffset packed 0 (t :: ts) 0 + dl.allocSize t ≤
        dl.fieldsEnd packed 0 (t :: ts) := DataLayout.elementOffset_add_le rfl
    have hend : 8 * dl.fieldsEnd packed 0 (t :: ts) ≤ dl.sizeInBits (.struct packed (t :: ts)) :=
      DataLayout.fieldsEnd_le_sizeInBits
    omega

theorem sizeInBits_le_allocSize (t : LLVMType) : dl.sizeInBits t ≤ 8 * dl.allocSize t := by
  have hle : dl.sizeInBits t ≤ dl.storeSize t * 8 := DataLayout.sizeInBits_le_storeSize t
  have halloc : dl.storeSize t ≤ dl.allocSize t := DataLayout.storeSize_le_allocSize t
  omega

structure Evaluates (dl : DataLayout) (c : Constant) (r : ConstantExpr) : Prop where
  width_le : r.width ≤ dl.sizeInBits c.type
  exact : Exact dl c.type → r.width = dl.sizeInBits c.type
  value : Contiguous dl c.type → r.value.toNat = image dl c

variable {element : LLVMType} {cs : List Constant} {rs : List ConstantExpr}

/-- The elements of an array or a vector, where the first bits of two are a stride apart. -/
theorem evaluates_elements {stride : Nat} (h : List.Forall₂ (Evaluates dl) cs rs)
    (htypes : ∀ t ∈ cs.map type, t = element) (hstride : dl.sizeInBits element ≤ stride) :
    (rs.map (·.width)).sum ≤ cs.length * stride ∧
      (Exact dl element → dl.sizeInBits element = stride →
        (rs.map (·.width)).sum = cs.length * stride ∧ (Contiguous dl element →
          glue (rs.map segment) = glue ((images dl cs).map fun x => (stride, x)))) := by
  induction h with
  | nil => simp [images]
  | @cons c r cs rs hc hrest ih =>
    rw [List.map_cons, List.forall_mem_cons] at htypes
    obtain ⟨hle, hexact⟩ := ih htypes.2
    have hwidth := hc.width_le
    rw [htypes.1] at hwidth
    simp only [List.map_cons, List.sum_cons, List.length_cons, Nat.succ_mul]
    refine ⟨by omega, fun he heq => ?_⟩
    obtain ⟨hsum, hglue⟩ := hexact he heq
    have hr := hc.exact (htypes.1.symm ▸ he)
    rw [htypes.1, heq] at hr
    refine ⟨by omega, fun hcontiguous => ?_⟩
    have hvalue := hc.value (htypes.1.symm ▸ hcontiguous)
    simp only [images, glue, segment, hr, hvalue, List.map_cons, hglue hcontiguous]

theorem exists_elements {stride : Nat} (h : List.Forall₂ (Evaluates dl) cs rs)
    (htypes : ∀ t ∈ cs.map type, t = element) (hpos : 0 < cs.length)
    (hstride : dl.sizeInBits element ≤ stride) :
    ∃ r, createN rs.reverse = some r ∧ r.width ≤ cs.length * stride ∧
      (Exact dl element → dl.sizeInBits element = stride → r.width = cs.length * stride) ∧
      (Contiguous dl element →
        (cs.length = 1 ∨ Exact dl element ∧ dl.sizeInBits element = stride) →
        r.value.toNat = glue ((images dl cs).map fun x => (stride, x))) := by
  have hne : rs.reverse ≠ [] := by
    rw [Ne, List.reverse_eq_nil_iff]
    rintro rfl
    cases h
    exact absurd hpos (lt_irrefl 0)
  obtain ⟨r, hr, hwidth, hvalue⟩ := exists_createN hne
  rw [List.map_reverse, List.sum_reverse] at hwidth
  rw [List.reverse_reverse] at hvalue
  obtain ⟨hle, hexact⟩ := evaluates_elements h htypes hstride
  refine ⟨r, hr, hwidth.trans_le hle, fun he heq => hwidth.trans (hexact he heq).1,
    fun hcontiguous hor => ?_⟩
  rcases hor with hone | ⟨he, heq⟩
  · obtain ⟨c, rfl⟩ := List.length_eq_one_iff.mp hone
    obtain ⟨r', rs', hc, hrest, rfl⟩ := List.forall₂_cons_left_iff.mp h
    cases hrest
    have hc' := hc.value ((htypes c.type (by simp)).symm ▸ hcontiguous)
    rw [hvalue]
    simp [glue, segment, images, hc']
  · exact hvalue.trans ((hexact he heq).2 hcontiguous)

theorem map_toNat_eq_images (h : List.Forall₂ (Evaluates dl) cs rs)
    (hcontiguous : AllContiguous dl (cs.map type)) :
    rs.map (·.value.toNat) = images dl cs := by
  induction h with
  | nil => rfl
  | cons hc _ ih => exact congrArg₂ List.cons (hc.value hcontiguous.1) (ih hcontiguous.2)

/-- The value of a struct has its width and those of its fields at their offsets, whatever the
widths of these are. -/
theorem exists_struct (packed : Bool) (h : List.Forall₂ (Evaluates dl) cs rs) (hne : cs ≠ []) :
    ∃ r, createN (padKids dl packed (cs.map type) 0 rs).reverse = some r ∧
      r.width = dl.sizeInBits (.struct packed (cs.map type)) ∧
      r.value.toNat = sumFields dl packed (cs.map type) 0 (rs.map (·.value.toNat)) := by
  have hkids : List.Forall₂ (fun t kid => kid.width ≤ 8 * dl.allocSize t)
      ((cs.map type).drop 0) rs := by
    rw [List.drop_zero, List.forall₂_map_left_iff]
    exact h.imp fun c r hc => hc.width_le.trans (sizeInBits_le_allocSize c.type)
  obtain ⟨r₀, rs', rfl⟩ : ∃ r₀ rs', rs = r₀ :: rs' := by
    cases h with
    | nil => exact absurd rfl hne
    | cons => exact ⟨_, _, rfl⟩
  obtain ⟨hwidth, hglue⟩ := padKids_spec packed hkids (List.cons_ne_nil _ _)
  have hpad : (padKids dl packed (cs.map type) 0 (r₀ :: rs')).reverse ≠ [] := by
    rw [Ne, List.reverse_eq_nil_iff, padKids]
    split_ifs <;> simp
  obtain ⟨r, hr, hrwidth, hrvalue⟩ := exists_createN hpad
  have hzero : dl.elementOffset packed 0 (cs.map type) 0 = 0 :=
    DataLayout.elementOffset_zero packed _
  rw [hzero, Nat.mul_zero, Nat.pow_zero, Nat.one_mul] at hglue
  rw [hzero, sum_segment] at hwidth
  rw [List.map_reverse, List.sum_reverse] at hrwidth
  rw [List.reverse_reverse] at hrvalue
  exact ⟨r, hr, by omega, hrvalue.trans hglue⟩

theorem allPositive_of_forall {ts : List LLVMType} (h : ∀ t ∈ ts, Positive dl t) :
    AllPositive dl ts := by
  induction ts with
  | nil => trivial
  | cons t ts ih =>
    rw [List.forall_mem_cons] at h
    exact ⟨h.1, ih h.2⟩

theorem exists_createZero {t : LLVMType} (hpos : Positive dl t) :
    ∃ r, createZero (dl.sizeInBits t) = some r ∧ r.width = dl.sizeInBits t ∧
      r.value.toNat = 0 := by
  refine ⟨.alloc 0 (dl.sizeInBits t), if_neg hpos.sizeInBits_pos.ne', rfl, ?_⟩
  simp [ConstantExpr.alloc]

mutual

/-- A constant without empty parts has a value. -/
theorem exists_evalConstant : ∀ c : Constant, WellTyped dl c → Positive dl c.type →
    ∃ r, evalConstant dl c = some r ∧ Evaluates dl c r
  | .scalar t value, h, _ => ⟨value, rfl, h.2.le, fun _ => h.2, fun _ => rfl⟩
  | .zero t, _, hpos => by
    obtain ⟨r, hr, hwidth, hvalue⟩ := exists_createZero hpos
    exact ⟨r, hr, hwidth.le, fun _ => hwidth, fun _ => hvalue⟩
  | .undef t, _, hpos => by
    obtain ⟨r, hr, hwidth, hvalue⟩ := exists_createZero hpos
    exact ⟨r, hr, hwidth.le, fun _ => hwidth, fun _ => hvalue⟩
  | .array element operands, ⟨htypes, h⟩, hpos => by
    obtain ⟨rs, hrs, heval⟩ := exists_evalConstants operands h
      (allPositive_of_forall fun t ht => htypes t ht ▸ hpos.2)
    obtain ⟨r, hr, hwidth, hexact, hvalue⟩ := exists_elements heval htypes hpos.1
      (sizeInBits_le_allocSize element)
    have hsize : dl.sizeInBits (.array operands.length element) =
        operands.length * (8 * dl.allocSize element) := by
      rw [DataLayout.sizeInBits_array, Nat.mul_comm 8]
    refine ⟨r, by rw [evalConstant, hrs]; exact hr, hwidth.trans_eq hsize.symm, fun he => ?_,
      fun hcontiguous => hvalue hcontiguous.1 hcontiguous.2⟩
    exact (hexact he.1 he.2).trans hsize.symm
  | .vector element operands, ⟨htypes, h⟩, hpos => by
    obtain ⟨rs, hrs, heval⟩ := exists_evalConstants operands h
      (allPositive_of_forall fun t ht => htypes t ht ▸ hpos.2)
    obtain ⟨r, hr, hwidth, hexact, hvalue⟩ := exists_elements heval htypes hpos.1 le_rfl
    refine ⟨r, by rw [evalConstant, hrs]; exact hr, hwidth, fun he => hexact he rfl,
      fun hcontiguous => hvalue hcontiguous.1 (hcontiguous.2.imp_right fun h => ⟨h.1, rfl⟩)⟩
  | .struct packed fields operands, ⟨htypes, h⟩, hpos => by
    subst htypes
    obtain ⟨rs, hrs, heval⟩ := exists_evalConstants operands h hpos.2
    obtain ⟨r, hr, hwidth, hvalue⟩ := exists_struct packed heval
      fun hnil => hpos.1 (by rw [hnil]; rfl)
    refine ⟨r, by rw [evalConstant, hrs]; exact hr, hwidth.le, fun _ => hwidth,
      fun hcontiguous => ?_⟩
    rw [hvalue, map_toNat_eq_images heval hcontiguous]
    rfl

theorem exists_evalConstants : ∀ cs : List Constant, AllWellTyped dl cs →
    AllPositive dl (cs.map type) →
    ∃ rs, evalConstants dl cs = some rs ∧ List.Forall₂ (Evaluates dl) cs rs
  | [], _, _ => ⟨[], rfl, .nil⟩
  | c :: cs, h, hpos => by
    obtain ⟨r, hr, heval⟩ := exists_evalConstant c h.1 hpos.1
    obtain ⟨rs, hrs, hevals⟩ := exists_evalConstants cs h.2 hpos.2
    exact ⟨r :: rs, by rw [evalConstants, hr, hrs]; rfl, .cons heval hevals⟩

end

end Evaluation

section Writes

variable {ws ws' : List (Nat × ConstantExpr)} {m : ByteMemory} {offset size gap x y : Nat}

theorem applyWrites_append (ws ws' : List (Nat × ConstantExpr)) (m : ByteMemory) :
    applyWrites (ws ++ ws') m = applyWrites ws' (applyWrites ws m) := List.foldl_append

theorem applyWrites_of_notMem {a : Nat}
    (h : ∀ w ∈ ws, a < w.1 ∨ w.1 + ByteMemory.numBytes w.2.width ≤ a) :
    applyWrites ws m a = m a := by
  induction ws generalizing m with
  | nil => rfl
  | cons w ws ih =>
    have hrest := ih (m := m.write true w.1 w.2.value) fun w' hw' =>
      h w' (List.mem_cons_of_mem w hw')
    exact hrest.trans (ByteMemory.write_of_notMem _ (h w List.mem_cons_self))

/-- The writes are in a range of bytes, and put the bytes of a number there if there are none from
its start on. -/
structure Written (ws : List (Nat × ConstantExpr)) (offset size x : Nat) : Prop where
  lt : x < 2 ^ (8 * size)
  inside : ∀ w ∈ ws, offset ≤ w.1 ∧ w.1 + ByteMemory.numBytes w.2.width ≤ offset + size
  bytes : ∀ m : ByteMemory, (∀ a, offset ≤ a → m a = 0) →
    ∀ k, applyWrites ws m (offset + k) = byteAt x k

theorem Written.mono (h : Written ws offset size x) {size' : Nat} (hle : size ≤ size') :
    Written ws offset size' x := by
  have hpow : 2 ^ (8 * size) ≤ 2 ^ (8 * size') := Nat.pow_le_pow_right (by decide) (by omega)
  exact ⟨h.lt.trans_le hpow, fun w hw => ⟨(h.inside w hw).1, (h.inside w hw).2.trans (by omega)⟩,
    h.bytes⟩

theorem Written.nil : Written [] offset size 0 where
  lt := Nat.two_pow_pos _
  inside _ hw := absurd hw List.not_mem_nil
  bytes m hm k := by
    rw [byteAt_of_lt (Nat.two_pow_pos _)]
    exact hm _ (Nat.le_add_right _ _)

theorem Written.append (h : Written ws offset size x)
    {size' : Nat} (h' : Written ws' (offset + gap) size' y) (hgap : size ≤ gap) :
    Written (ws ++ ws') offset (gap + size') (x + 2 ^ (8 * gap) * y) := by
  have hx : x < 2 ^ (8 * gap) := (h.mono hgap).lt
  refine ⟨?_, fun w hw => ?_, fun m hm k => ?_⟩
  · calc x + 2 ^ (8 * gap) * y < 2 ^ (8 * gap) + 2 ^ (8 * gap) * y := Nat.add_lt_add_right hx _
      _ = 2 ^ (8 * gap) * (y + 1) := by ring
      _ ≤ 2 ^ (8 * gap) * 2 ^ (8 * size') := Nat.mul_le_mul_left _ h'.lt
      _ = 2 ^ (8 * (gap + size')) := by rw [← pow_add, Nat.mul_add]
  · rcases List.mem_append.mp hw with hw | hw
    · have hin := h.inside w hw
      omega
    · have hin := h'.inside w hw
      omega
  · have hbeyond : ∀ a, offset + gap ≤ a → applyWrites ws m a = 0 := fun a ha => by
      rw [applyWrites_of_notMem fun w hw => .inr ((h.inside w hw).2.trans (by omega))]
      exact hm a (by omega)
    rw [applyWrites_append, byteAt_add_mul hx]
    split_ifs with hk
    · rw [applyWrites_of_notMem fun w hw => .inl (lt_of_lt_of_le (by omega) (h'.inside w hw).1)]
      exact h.bytes m hm k
    · obtain ⟨d, rfl⟩ := Nat.exists_eq_add_of_le (not_lt.mp hk)
      rw [Nat.add_sub_cancel_left, ← Nat.add_assoc]
      exact h'.bytes _ hbeyond d

/-- A value of whole bytes. -/
theorem write_apply {n : Nat} (v : BitVec (n * 8)) (k : Nat) (hk : k < n) :
    m.write true offset v (offset + k) = byteAt v.toNat k := by
  have hdiv : n * 8 / 8 = n := Nat.mul_div_cancel n (by decide)
  have hindex (i : Nat) : ObjectState.byteIndex true (n * 8 / 8) i = i := rfl
  rw [ByteMemory.write, if_neg (by omega)]
  simp only [hindex]
  rw [ByteMemory.store_apply (fun _ _ _ _ => Nat.add_left_cancel) (hdiv.symm ▸ hk), byteAt,
    ← Nat.shiftRight_eq_div_pow]
  rfl

theorem Written.scalar (offset : Nat) {value : ConstantExpr} (hle : value.width ≤ 8 * size) :
    Written [(offset, value.zext (size * 8))] offset size value.value.toNat := by
  have hlt : value.value.toNat < 2 ^ (8 * size) :=
    value.value.isLt.trans_le (Nat.pow_le_pow_right (by decide) hle)
  have hbytes : ByteMemory.numBytes (size * 8) = size := by
    rw [ByteMemory.numBytes, if_neg (by omega), Nat.mul_div_cancel _ (by decide)]
  have hnat : (value.zext (size * 8)).value.toNat = value.value.toNat := by
    unfold ConstantExpr.zext
    rw [BitVec.toNat_setWidth, Nat.mod_eq_of_lt (by rwa [Nat.mul_comm])]
  refine ⟨hlt, fun w hw => ?_, fun m hm k => ?_⟩
  · rw [List.mem_singleton.mp hw]
    exact ⟨le_rfl, by rw [show (value.zext (size * 8)).width = size * 8 from rfl, hbytes]⟩
  · rcases Nat.lt_or_ge k size with hk | hk
    · exact (write_apply (value.zext (size * 8)).value k hk).trans
        (congrArg (byteAt · k) hnat)
    · have hout : applyWrites [(offset, value.zext (size * 8))] m (offset + k) = m (offset + k) :=
        applyWrites_of_notMem fun w hw => by
          rw [List.mem_singleton.mp hw]
          exact .inr (by rw [show (value.zext (size * 8)).width = size * 8 from rfl, hbytes]; omega)
      have hpow : 2 ^ (8 * size) ≤ 2 ^ (8 * k) := Nat.pow_le_pow_right (by decide) (by omega)
      rw [hout, hm _ (Nat.le_add_right _ _), byteAt_of_lt (hlt.trans_le hpow)]

theorem applyWrites_zeros (l : List Nat) {a : Nat} (h : m a = 0) :
    applyWrites (l.map fun i => (offset + i, .alloc 0 8)) m a = 0 := by
  induction l generalizing m with
  | nil => exact h
  | cons i l ih =>
    refine ih (m := m.write true (offset + i) (0 : BitVec 8)) ?_
    rw [ByteMemory.write_byte, Function.update_apply]
    split_ifs
    · rfl
    · exact h

theorem Written.zeros (offset size : Nat) :
    Written ((List.range size).map fun i => (offset + i, .alloc 0 8)) offset size 0 := by
  refine ⟨Nat.two_pow_pos _, fun w hw => ?_, fun m hm k => ?_⟩
  · obtain ⟨i, hi, rfl⟩ := List.mem_map.mp hw
    have hlt := List.mem_range.mp hi
    have hbyte : ByteMemory.numBytes (ConstantExpr.alloc 0 8).width = 1 := rfl
    rw [hbyte]
    omega
  · rw [byteAt_of_lt (Nat.two_pow_pos _)]
    exact applyWrites_zeros _ (hm _ (Nat.le_add_right _ _))

/-- The elements of an array or a vector, one store size apart. -/
theorem written_elements {element : LLVMType} {cs : List Constant} (stride : Nat)
    (h : ∀ c ∈ cs, ∀ offset, Written (initializeGlobalObject dl c offset) offset
      (dl.storeSize element) (image dl c))
    (hstride : cs.length = 1 ∨ 8 * dl.storeSize element = stride) (offset : Nat) :
    Written (initializeElements dl (dl.storeSize element) cs offset) offset
      (cs.length * dl.storeSize element) (glue ((images dl cs).map fun x => (stride, x))) := by
  induction cs generalizing offset with
  | nil => exact .nil
  | cons c cs ih =>
    rw [List.forall_mem_cons] at h
    rcases hstride with hone | rfl
    · obtain rfl : cs = [] := List.eq_nil_of_length_eq_zero (Nat.succ.inj hone)
      have hc := h.1 offset
      simpa [initializeElements, images, glue] using hc
    · have happend := (h.1 offset).append (ih h.2 (.inr rfl) (offset + dl.storeSize element)) le_rfl
      rw [List.length_cons, Nat.succ_mul, Nat.add_comm (cs.length * _)]
      exact happend

/-- The fields of a struct from one on, each at its offset. -/
theorem written_fields (packed : Bool) {fields : List LLVMType} {cs : List Constant} {i : Nat}
    (h : List.Forall₂ (fun t c => ∀ offset, Written (initializeGlobalObject dl c offset) offset
      (dl.storeSize t) (image dl c)) (fields.drop i) cs) (hne : cs ≠ []) (offset : Nat) :
    ∃ x, sumFields dl packed fields i (images dl cs) =
        2 ^ (8 * dl.elementOffset packed 0 fields i) * x ∧
      Written (initializeFields dl packed fields i cs offset)
        (offset + dl.elementOffset packed 0 fields i)
        (dl.fieldsEnd packed 0 fields - dl.elementOffset packed 0 fields i) x := by
  induction cs generalizing i with
  | nil => exact absurd rfl hne
  | cons c cs ih =>
    cases hdrop : fields.drop i with
    | nil =>
      rw [hdrop] at h
      cases h
    | cons t ts =>
      rw [hdrop, List.forall₂_cons] at h
      obtain ⟨hc, hrest⟩ := h
      have ht : fields[i]? = some t := by
        rw [← List.head?_drop, hdrop]
        rfl
      have hts : fields.drop (i + 1) = ts := by
        rw [← List.tail_drop, hdrop]
        rfl
      have hfield := hc (offset + dl.elementOffset packed 0 fields i)
      have hstore : dl.storeSize t ≤ dl.allocSize t := DataLayout.storeSize_le_allocSize t
      cases cs with
      | nil =>
        have hend : dl.elementOffset packed 0 fields i + dl.allocSize t ≤
            dl.fieldsEnd packed 0 fields := DataLayout.elementOffset_add_le ht
        refine ⟨image dl c, Nat.add_zero _, ?_⟩
        rw [initializeFields, initializeFields, List.append_nil]
        exact hfield.mono (by omega)
      | cons next cs =>
        have hnext : dl.elementOffset packed 0 fields i + dl.allocSize t ≤
            dl.elementOffset packed 0 fields (i + 1) :=
          DataLayout.elementOffset_add_le_elementOffset ht (Nat.lt_succ_self i)
        have hend : dl.elementOffset packed 0 fields (i + 1) ≤ dl.fieldsEnd packed 0 fields := by
          obtain ⟨u, us, hu⟩ : ∃ u us, fields.drop (i + 1) = u :: us := by
            rw [hts]
            cases hrest
            exact ⟨_, _, rfl⟩
          have hget : fields[i + 1]? = some u := by
            rw [← List.head?_drop, hu]
            rfl
          exact (Nat.le_add_right _ _).trans (DataLayout.elementOffset_add_le hget)
        obtain ⟨x, hx, hwritten⟩ := ih (hts.symm ▸ hrest) (List.cons_ne_nil _ _)
        obtain ⟨gap, hgap⟩ := Nat.exists_eq_add_of_le ((Nat.le_add_right _ _).trans hnext)
        rw [hgap, ← Nat.add_assoc] at hwritten
        refine ⟨image dl c + 2 ^ (8 * gap) * x, ?_, ?_⟩
        · rw [images, sumFields, hx, hgap, Nat.mul_add 8, pow_add]
          ring
        · refine (hfield.append hwritten (by omega)).mono (by omega)

theorem allContiguous_of_forall {ts : List LLVMType} (h : ∀ t ∈ ts, Contiguous dl t) :
    AllContiguous dl ts := by
  induction ts with
  | nil => trivial
  | cons t ts ih =>
    rw [List.forall_mem_cons] at h
    exact ⟨h.1, ih h.2⟩

mutual

/-- What is written for a constant is in its bytes, and is its image. -/
theorem written : ∀ (c : Constant) (_ : WellTyped dl c) (_ : Contiguous dl c.type) (offset : Nat),
    Written (initializeGlobalObject dl c offset) offset (dl.storeSize c.type) (image dl c)
  | .scalar t value, h, _, offset => by
    have hle : dl.sizeInBits t ≤ dl.storeSize t * 8 := DataLayout.sizeInBits_le_storeSize t
    exact .scalar offset (by rw [h.2]; omega)
  | .zero t, _, _, offset => .zeros offset (dl.storeSize t)
  | .undef _, _, _, _ => .nil
  | .array element operands, ⟨htypes, h⟩, hcontiguous, offset => by
    have hall := written_all operands h
      (allContiguous_of_forall fun t ht => htypes t ht ▸ hcontiguous.1)
    have hstore : dl.storeSize element ≤ dl.allocSize element :=
      DataLayout.storeSize_le_allocSize element
    have hsize : dl.storeSize (.array operands.length element) =
        operands.length * dl.allocSize element := by
      rw [DataLayout.storeSize, DataLayout.sizeInBits_array, DataLayout.bytesOf,
        ← Nat.mul_assoc]
      omega
    have helements := written_elements (8 * dl.allocSize element)
      (fun c hc offset => htypes c.type (List.mem_map_of_mem hc) ▸ hall c hc offset)
      (hcontiguous.2.imp_right fun hor => ?_) offset
    · exact helements.mono (hsize ▸ Nat.mul_le_mul_left _ hstore)
    · have hwide : dl.sizeInBits element ≤ dl.storeSize element * 8 :=
        DataLayout.sizeInBits_le_storeSize element
      omega
  | .vector element operands, ⟨htypes, h⟩, hcontiguous, offset => by
    have hall := written_all operands h
      (allContiguous_of_forall fun t ht => htypes t ht ▸ hcontiguous.1)
    have hsize : operands.length * dl.storeSize element =
        dl.storeSize (.vector operands.length element) := by
      show _ = (operands.length * dl.sizeInBits element + 7) / 8
      rcases hcontiguous.2 with hone | ⟨_, heq⟩
      · rw [hone, Nat.one_mul, Nat.one_mul]
        rfl
      · rw [heq, Nat.mul_left_comm]
        omega
    have helements := written_elements (dl.sizeInBits element)
      (fun c hc offset => htypes c.type (List.mem_map_of_mem hc) ▸ hall c hc offset)
      (hcontiguous.2.imp_right fun hor => hor.2.symm) offset
    exact helements.mono hsize.le
  | .struct packed fields operands, ⟨htypes, h⟩, hcontiguous, offset => by
    subst htypes
    have hall := written_all operands h hcontiguous
    have hfields : List.Forall₂ (fun t c => ∀ offset, Written (initializeGlobalObject dl c offset)
        offset (dl.storeSize t) (image dl c)) ((operands.map type).drop 0) operands := by
      rw [List.drop_zero, List.forall₂_map_left_iff, List.forall₂_same]
      exact hall
    by_cases hne : operands = []
    · subst hne
      exact .nil
    · obtain ⟨x, hx, hwritten⟩ := written_fields packed hfields hne offset
      have hzero : dl.elementOffset packed 0 (operands.map type) 0 = 0 :=
        DataLayout.elementOffset_zero packed _
      rw [hzero, Nat.mul_zero, Nat.pow_zero, Nat.one_mul] at hx
      rw [hzero, Nat.add_zero, Nat.sub_zero, ← hx] at hwritten
      have hend : 8 * dl.fieldsEnd packed 0 (operands.map type) ≤
          dl.sizeInBits (.struct packed (operands.map type)) := DataLayout.fieldsEnd_le_sizeInBits
      have hwide : dl.sizeInBits (.struct packed (operands.map type)) ≤
          dl.storeSize (.struct packed (operands.map type)) * 8 :=
        DataLayout.sizeInBits_le_storeSize _
      exact hwritten.mono (by show _ ≤ dl.storeSize (.struct packed (operands.map type)); omega)

theorem written_all : ∀ (cs : List Constant) (_ : AllWellTyped dl cs)
    (_ : AllContiguous dl (cs.map type)), ∀ c ∈ cs, ∀ offset,
    Written (initializeGlobalObject dl c offset) offset (dl.storeSize c.type) (image dl c)
  | [], _, _ => List.forall_mem_nil _
  | c :: cs, h, hcontiguous => List.forall_mem_cons.mpr
    ⟨written c h.1 hcontiguous.1, written_all cs h.2 hcontiguous.2⟩

end

end Writes

end Constant

end Klee
