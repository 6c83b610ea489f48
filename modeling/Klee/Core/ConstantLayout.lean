import Klee.Core.GlobalObjectSpec

/-! The types whose constants have one layout, in `evalConstant` and in `initializeGlobalObject`. -/
namespace Klee.Constant

open LLVM Executor Segments

variable (dl : DataLayout)

def zeroed : ByteMemory := fun _ => 0

/-- The constant has a value of the width of its type. What is written for it is inside an object
of the type's store size, is what a store of the value writes there, and has the elements at their
offsets. -/
def Agrees (c : Constant) : Prop :=
  ∃ r, evalConstant dl c = some r ∧ r.width = dl.sizeInBits c.type ∧
    (∀ w ∈ initializeGlobalObject dl c 0,
      w.1 + ByteMemory.numBytes w.2.width ≤ dl.storeSize c.type) ∧
    applyWrites (initializeGlobalObject dl c 0) zeroed =
      ByteMemory.write zeroed true 0 (r.zext (dl.storeSize c.type * 8)).value ∧
    r.value.toNat = image dl c

def LaidOut (t : LLVMType) : Prop :=
  ∀ c : Constant, WellTyped dl c → c.type = t → Agrees dl c

def Placed (t : LLVMType) : Prop :=
  ∀ c : Constant, WellTyped dl c → c.type = t →
    ∃ r, evalConstant dl c = some r ∧ r.value.toNat = image dl c ∧
      ∀ k, applyWrites (initializeGlobalObject dl c 0) zeroed k = byteAt (image dl c) k

variable {dl} {t element : LLVMType} {c d : Constant} {r : ConstantExpr} {n : Nat}

theorem write_zext {size : Nat} (hle : r.width ≤ 8 * size) (k : Nat) :
    ByteMemory.write zeroed true 0 (r.zext (size * 8)).value k = byteAt r.value.toNat k := by
  have hwritten := (Written.scalar 0 hle).bytes zeroed (fun _ _ => rfl) k
  rw [Nat.zero_add] at hwritten
  exact hwritten

theorem laidOut_of_contiguous (hpos : Positive dl t) (hexact : Exact dl t)
    (hcontiguous : Contiguous dl t) : LaidOut dl t := by
  rintro c h rfl
  obtain ⟨r, hr, heval⟩ := exists_evalConstant c h hpos
  have hwidth := heval.exact hexact
  have hvalue := heval.value hcontiguous
  have hwritten := written c h hcontiguous 0
  have hwide : dl.sizeInBits c.type ≤ dl.storeSize c.type * 8 :=
    DataLayout.sizeInBits_le_storeSize c.type
  refine ⟨r, hr, hwidth, fun w hw => ?_, funext fun k => ?_, hvalue⟩
  · have hinside := hwritten.inside w hw
    omega
  · rw [write_zext (by omega), hvalue, ← hwritten.bytes zeroed (fun _ _ => rfl) k, Nat.zero_add]

theorem LaidOut.placed (h : LaidOut dl t) : Placed dl t := by
  rintro c hc rfl
  obtain ⟨r, hr, hwidth, -, hbytes, hvalue⟩ := h c hc rfl
  have hwide : dl.sizeInBits c.type ≤ dl.storeSize c.type * 8 :=
    DataLayout.sizeInBits_le_storeSize c.type
  refine ⟨r, hr, hvalue, fun k => ?_⟩
  rw [hbytes, write_zext (by omega), hvalue]

section Operands

variable {cs : List Constant}

theorem allWellTyped_iff : AllWellTyped dl cs ↔ ∀ c ∈ cs, WellTyped dl c := by
  induction cs with
  | nil => exact ⟨fun _ => List.forall_mem_nil _, fun _ => trivial⟩
  | cons c cs ih => rw [AllWellTyped, ih, List.forall_mem_cons]

theorem evalConstants_eq_some {rs : List ConstantExpr} :
    evalConstants dl cs = some rs ↔
      List.Forall₂ (fun c r => evalConstant dl c = some r) cs rs := by
  induction cs generalizing rs with
  | nil => simp [evalConstants, eq_comm]
  | cons c cs ih =>
    rw [evalConstants, List.forall₂_cons_left_iff]
    simp only [Option.bind_eq_some_iff, Option.map_eq_some_iff, ih]
    constructor
    · rintro ⟨r, hr, rs, hrs, rfl⟩
      exact ⟨r, rs, hr, hrs, rfl⟩
    · rintro ⟨r, rs, hr, hrs, rfl⟩
      exact ⟨r, hr, rs, hrs, rfl⟩

def firstElements (cs : List Constant) (n : Nat) (element : LLVMType) : List Constant :=
  cs ++ List.replicate n (undef element)

theorem type_firstElements (h : ∀ c ∈ cs, c.type = element) :
    ∀ t ∈ (firstElements cs n element).map type, t = element := by
  intro t ht
  obtain ⟨c, hc, rfl⟩ := List.mem_map.mp ht
  rcases List.mem_append.mp hc with hc | hc
  · exact h c hc
  · rw [List.eq_of_mem_replicate hc]
    rfl

theorem allWellTyped_firstElements (h : ∀ c ∈ cs, WellTyped dl c) :
    AllWellTyped dl (firstElements cs n element) := by
  refine allWellTyped_iff.mpr fun c hc => ?_
  rcases List.mem_append.mp hc with hc | hc
  · exact h c hc
  · rw [List.eq_of_mem_replicate hc]
    trivial

theorem glue_zeros {l : List (Nat × Nat)} (h : ∀ p ∈ l, p.2 = 0) : glue l = 0 := by
  induction l with
  | nil => rfl
  | cons p l ih =>
    rw [List.forall_mem_cons] at h
    rw [glue, h.1, ih h.2, Nat.mul_zero]

theorem images_append (cs cs' : List Constant) :
    images dl (cs ++ cs') = images dl cs ++ images dl cs' := by
  induction cs with
  | nil => rfl
  | cons c cs ih => rw [List.cons_append, images, ih, images, List.cons_append]

theorem images_undef (ts : List LLVMType) :
    images dl (ts.map undef) = List.replicate ts.length 0 := by
  induction ts with
  | nil => rfl
  | cons t ts ih =>
    rw [List.map_cons, images, ih]
    rfl

theorem glue_firstElements (stride : Nat) :
    glue ((images dl (firstElements cs n element)).map fun x => (stride, x)) =
      glue ((images dl cs).map fun x => (stride, x)) := by
  have hundef : List.replicate n (undef element) = (List.replicate n element).map undef :=
    List.map_replicate.symm
  rw [firstElements, images_append, hundef, images_undef, List.map_append, glue_append,
    glue_zeros (l := List.map _ (List.replicate _ 0)), Nat.mul_zero, Nat.add_zero]
  intro p hp
  obtain ⟨x, hx, rfl⟩ := List.mem_map.mp hp
  exact List.eq_of_mem_replicate hx

theorem value_undef (h : evalConstant dl (undef t) = some r) : r.value.toNat = 0 := by
  rw [evalConstant, createZero] at h
  split_ifs at h
  rw [← Option.some.inj h]
  simp [ConstantExpr.alloc]

theorem value_undefs {rs : List ConstantExpr}
    (h : List.Forall₂ (fun c r => evalConstant dl c = some r) (List.replicate n (undef t)) rs) :
    ∀ r ∈ rs, r.value.toNat = 0 := by
  induction n generalizing rs with
  | zero =>
    cases h
    exact List.forall_mem_nil _
  | succ n ih =>
    obtain ⟨r, rs, hr, hrs, rfl⟩ := List.forall₂_cons_left_iff.mp h
    exact List.forall_mem_cons.mpr ⟨value_undef hr, ih hrs⟩

theorem value_firstElements {kids : List ConstantExpr}
    (hkids : evalConstants dl (firstElements cs n element) = some kids)
    (hr : createN kids.reverse = some r) :
    ∃ rs, List.Forall₂ (fun c r => evalConstant dl c = some r) cs rs ∧
      r.value.toNat = glue (rs.map segment) := by
  have hforall := evalConstants_eq_some.mp hkids
  obtain ⟨-, hvalue⟩ := createN_eq_some hr
  rw [List.reverse_reverse] at hvalue
  refine ⟨kids.take cs.length, ?_, ?_⟩
  · have htake := List.forall₂_take cs.length hforall
    rwa [firstElements, List.take_left] at htake
  · rw [hvalue, ← List.take_append_drop cs.length kids, List.map_append, glue_append,
      glue_zeros (l := List.map _ (List.drop _ _)), Nat.mul_zero, Nat.add_zero,
      List.take_append_drop]
    have hdrop := List.forall₂_drop cs.length hforall
    rw [firstElements, List.drop_left] at hdrop
    intro p hp
    obtain ⟨kid, hkid, rfl⟩ := List.mem_map.mp hp
    exact value_undefs hdrop kid hkid

theorem initializeElements_firstElements (size offset : Nat) :
    initializeElements dl size (firstElements cs n element) offset =
      initializeElements dl size cs offset := by
  induction cs generalizing offset with
  | nil =>
    induction n generalizing offset with
    | zero => rfl
    | succ n ih => exact ih (offset + size)
  | cons c cs ih => exact congrArg (_ ++ ·) (ih (offset + size))

end Operands

section Fields

variable {packed : Bool} {fields pre post : List LLVMType}

def onlyField (pre : List LLVMType) (c : Constant) (post : List LLVMType) : List Constant :=
  pre.map undef ++ c :: post.map undef

theorem type_onlyField : (onlyField pre c post).map type = pre ++ c.type :: post := by
  have hundef (ts : List LLVMType) : (ts.map undef).map type = ts := by
    rw [List.map_map]
    exact List.map_id ts
  rw [onlyField, List.map_append, List.map_cons, hundef, hundef]

theorem allWellTyped_onlyField (h : WellTyped dl c) :
    AllWellTyped dl (onlyField pre c post) := by
  have hundef (ts : List LLVMType) : ∀ c ∈ ts.map undef, WellTyped dl c := by
    intro c hc
    obtain ⟨t, -, rfl⟩ := List.mem_map.mp hc
    trivial
  rw [allWellTyped_iff, onlyField, List.forall_mem_append, List.forall_mem_cons]
  exact ⟨hundef pre, h, hundef post⟩

theorem sumFields_zeros (i m : Nat) :
    sumFields dl packed fields i (List.replicate m 0) = 0 := by
  induction m generalizing i with
  | zero => rfl
  | succ m ih => rw [List.replicate_succ, sumFields, ih, Nat.mul_zero]

theorem sumFields_onlyField (i m m' x : Nat) :
    sumFields dl packed fields i (List.replicate m 0 ++ x :: List.replicate m' 0) =
      2 ^ (8 * dl.elementOffset packed 0 fields (i + m)) * x := by
  induction m generalizing i with
  | zero =>
    rw [List.replicate_zero, List.nil_append, sumFields, sumFields_zeros]
    rfl
  | succ m ih =>
    rw [List.replicate_succ, List.cons_append, sumFields, ih, Nat.mul_zero, Nat.zero_add,
      Nat.add_assoc, Nat.add_comm 1 m]

theorem images_onlyField : images dl (onlyField pre c post) =
    List.replicate pre.length 0 ++ image dl c :: List.replicate post.length 0 := by
  rw [onlyField, images_append, images_undef, images, images_undef]

theorem initializeFields_onlyField (i offset : Nat) :
    initializeFields dl packed fields i (onlyField pre c post) offset =
      initializeGlobalObject dl c
        (offset + dl.elementOffset packed 0 fields (i + pre.length)) := by
  have hnil (ts : List LLVMType) (i : Nat) :
      initializeFields dl packed fields i (ts.map undef) offset = [] := by
    induction ts generalizing i with
    | nil => rfl
    | cons t ts ih => exact ih (i + 1)
  induction pre generalizing i with
  | nil => exact (congrArg (_ ++ ·) (hnil post (i + 1))).trans (List.append_nil _)
  | cons t pre ih =>
    rw [List.length_cons, Nat.add_comm pre.length, ← Nat.add_assoc]
    exact ih (i + 1)

end Fields

section Shift

variable {m : ByteMemory}

theorem write_add {w : Nat} (v : BitVec w) (offset distance : Nat) :
    (fun a => m.write true (offset + distance) v (a + distance)) =
      ByteMemory.write (fun a => m (a + distance)) true offset v := by
  have hupdate (m : ByteMemory) (b : Nat) (v : BitVec 8) :
      (fun a => Function.update m (b + distance) v (a + distance)) =
        Function.update (fun a => m (a + distance)) b v := by
    funext a
    simp only [Function.update_apply, Nat.add_right_cancel_iff]
  have hstore (address : Nat → Nat) (bytes : Nat → BitVec 8) (n : Nat) :
      (fun a => m.store (fun i => address i + distance) bytes n (a + distance)) =
        ByteMemory.store (fun a => m (a + distance)) address bytes n := by
    induction n with
    | zero => rfl
    | succ n ih => rw [ByteMemory.store_succ, ByteMemory.store_succ, hupdate, ih]
  unfold ByteMemory.write
  split
  · exact hupdate m offset _
  · simp only [Nat.add_right_comm offset distance]
    exact hstore _ _ _

theorem applyWrites_add (ws : List (Nat × ConstantExpr)) (distance : Nat) :
    (fun a => applyWrites (ws.map fun w => (w.1 + distance, w.2)) m (a + distance)) =
      applyWrites ws fun a => m (a + distance) := by
  induction ws generalizing m with
  | nil => rfl
  | cons w ws ih =>
    have hrest := ih (m := m.write true (w.1 + distance) w.2.value)
    rw [write_add] at hrest
    exact hrest

mutual

/-- A constant is written in the same way everywhere. -/
theorem initializeGlobalObject_add : ∀ (c : Constant) (offset distance : Nat),
    initializeGlobalObject dl c (offset + distance) =
      (initializeGlobalObject dl c offset).map fun w => (w.1 + distance, w.2)
  | .scalar _ _, _, _ => rfl
  | .zero t, offset, distance => by
    rw [initializeGlobalObject, initializeGlobalObject, List.map_map]
    exact List.map_congr_left fun i _ => by simp [Nat.add_right_comm]
  | .undef _, _, _ => rfl
  | .array element operands, offset, distance =>
    initializeElements_add (dl.storeSize element) operands offset distance
  | .vector element operands, offset, distance =>
    initializeElements_add (dl.storeSize element) operands offset distance
  | .struct packed fields operands, offset, distance =>
    initializeFields_add packed fields 0 operands offset distance

theorem initializeElements_add (size : Nat) : ∀ (cs : List Constant) (offset distance : Nat),
    initializeElements dl size cs (offset + distance) =
      (initializeElements dl size cs offset).map fun w => (w.1 + distance, w.2)
  | [], _, _ => rfl
  | c :: cs, offset, distance => by
    rw [initializeElements, initializeElements, List.map_append,
      initializeGlobalObject_add c, Nat.add_right_comm, initializeElements_add size cs]

theorem initializeFields_add (packed : Bool) (fields : List LLVMType) (i : Nat) :
    ∀ (cs : List Constant) (offset distance : Nat),
    initializeFields dl packed fields i cs (offset + distance) =
      (initializeFields dl packed fields i cs offset).map fun w => (w.1 + distance, w.2)
  | [], _, _ => rfl
  | c :: cs, offset, distance => by
    rw [initializeFields, initializeFields, List.map_append, Nat.add_right_comm offset,
      initializeGlobalObject_add c, initializeFields_add packed fields (i + 1) cs]

end

theorem applyWrites_initializeGlobalObject (c : Constant) (offset k : Nat) :
    applyWrites (initializeGlobalObject dl c offset) zeroed (k + offset) =
      applyWrites (initializeGlobalObject dl c 0) zeroed k := by
  have hshift : initializeGlobalObject dl c (0 + offset) = _ :=
    initializeGlobalObject_add c 0 offset
  rw [Nat.zero_add] at hshift
  rw [hshift]
  exact congrFun (applyWrites_add (m := zeroed) (initializeGlobalObject dl c 0) offset) k

end Shift

section Positive

variable (dl) in
def Evaluable (t : LLVMType) : Prop :=
  ∀ c : Constant, WellTyped dl c → c.type = t → ∃ r, evalConstant dl c = some r

theorem Placed.evaluable (h : Placed dl t) : Evaluable dl t := fun c hc htype => by
  obtain ⟨r, hr, -⟩ := h c hc htype
  exact ⟨r, hr⟩

/-- Operands have values where the constant has one. -/
theorem exists_of_mem {cs : List Constant} {f : List ConstantExpr → Option ConstantExpr}
    (h : (evalConstants dl cs).bind f = some r) (hc : c ∈ cs) :
    ∃ r, evalConstant dl c = some r := by
  obtain ⟨kids, hkids, -⟩ := Option.bind_eq_some_iff.mp h
  have hforall := evalConstants_eq_some.mp hkids
  clear hkids h
  induction hforall with
  | nil => exact absurd hc List.not_mem_nil
  | cons hr _ ih =>
    rcases List.mem_cons.mp hc with rfl | hmem
    · exact ⟨_, hr⟩
    · exact ih hmem

theorem createZero_pos {width : Nat} (h : createZero width = some r) : 0 < width := by
  rw [createZero] at h
  split_ifs at h with hzero
  exact Nat.pos_of_ne_zero hzero

theorem wellTyped_firstElements {cs : List Constant}
    (h : ∀ c ∈ cs, WellTyped dl c ∧ c.type = element) (n : Nat) :
    (∀ t ∈ (firstElements cs n element).map type, t = element) ∧
      AllWellTyped dl (firstElements cs n element) :=
  ⟨type_firstElements fun c hc => (h c hc).2, allWellTyped_firstElements fun c hc => (h c hc).1⟩

theorem length_firstElements (cs : List Constant) (n : Nat) (element : LLVMType) :
    (firstElements cs n element).length = cs.length + n := by
  rw [firstElements, List.length_append, List.length_replicate]

theorem Evaluable.array (h : Evaluable dl (.array (n + 1) element)) : Evaluable dl element := by
  intro c hc htype
  obtain ⟨r, hr⟩ := h (.array element (firstElements [c] n element))
    (wellTyped_firstElements (by simp [hc, htype]) n)
    (by rw [type, length_firstElements, List.length_singleton, Nat.add_comm])
  exact exists_of_mem hr (List.mem_append_left _ (List.mem_singleton_self c))

theorem Evaluable.vector (h : Evaluable dl (.vector (n + 1) element)) : Evaluable dl element := by
  intro c hc htype
  obtain ⟨r, hr⟩ := h (.vector element (firstElements [c] n element))
    (wellTyped_firstElements (by simp [hc, htype]) n)
    (by rw [type, length_firstElements, List.length_singleton, Nat.add_comm])
  exact exists_of_mem hr (List.mem_append_left _ (List.mem_singleton_self c))

theorem Evaluable.field {packed : Bool} {fields : List LLVMType}
    (h : Evaluable dl (.struct packed fields)) (ht : t ∈ fields) : Evaluable dl t := by
  rintro c hc rfl
  obtain ⟨pre, post, rfl⟩ := List.append_of_mem ht
  obtain ⟨r, hr⟩ := h (.struct packed (pre ++ c.type :: post) (onlyField pre c post))
    ⟨type_onlyField, allWellTyped_onlyField hc⟩ rfl
  exact exists_of_mem hr (List.mem_append_right _ List.mem_cons_self)

mutual

theorem Evaluable.positive : ∀ {t : LLVMType}, Evaluable dl t → Positive dl t
  | .integer width, h => by
    obtain ⟨r, hr⟩ := h (.undef (.integer width)) trivial rfl
    exact createZero_pos hr
  | .floating _, _ => trivial
  | .pointer, h => by
    obtain ⟨r, hr⟩ := h (.undef .pointer) trivial rfl
    exact createZero_pos hr
  | .array 0 element, h => by
    obtain ⟨r, hr⟩ := h (.array element []) ⟨List.forall_mem_nil _, trivial⟩ rfl
    cases hr
  | .array (n + 1) element, h => ⟨Nat.succ_pos n, h.array.positive⟩
  | .vector 0 element, h => by
    obtain ⟨r, hr⟩ := h (.vector element []) ⟨List.forall_mem_nil _, trivial⟩ rfl
    cases hr
  | .vector (n + 1) element, h => ⟨Nat.succ_pos n, h.vector.positive⟩
  | .struct packed [], h => by
    obtain ⟨r, hr⟩ := h (.struct packed [] []) ⟨rfl, trivial⟩ rfl
    cases hr
  | .struct packed (t :: ts), h =>
    ⟨List.cons_ne_nil t ts, allPositive_of_evaluable (t :: ts) fun _ ht => h.field ht⟩

theorem allPositive_of_evaluable : ∀ ts : List LLVMType,
    (∀ t ∈ ts, Evaluable dl t) → AllPositive dl ts
  | [], _ => trivial
  | t :: ts, h => ⟨(h t List.mem_cons_self).positive,
    allPositive_of_evaluable ts fun u hu => h u (List.mem_cons_of_mem t hu)⟩

end

end Positive

section Width

/-- One element throughout -/
theorem exists_replicate (hr : evalConstant dl c = some r) (hn : 0 < n) :
    ∃ r', (evalConstants dl (List.replicate n c)).bind (fun kids => createN kids.reverse) =
      some r' ∧ r'.width = n * r.width := by
  have hkids : evalConstants dl (List.replicate n c) = some (List.replicate n r) := by
    refine evalConstants_eq_some.mpr ?_
    induction n with
    | zero => exact .nil
    | succ n ih =>
      rcases Nat.eq_zero_or_pos n with rfl | hpos
      · exact .cons hr .nil
      · exact .cons hr (ih hpos)
  have hne : (List.replicate n r).reverse ≠ [] := by
    rw [List.reverse_replicate, Ne, List.replicate_eq_nil_iff]
    exact hn.ne'
  obtain ⟨r', hr', hwidth, -⟩ := exists_createN hne
  refine ⟨r', by rw [hkids]; exact hr', ?_⟩
  rw [hwidth, List.reverse_replicate, List.map_replicate, List.sum_replicate, smul_eq_mul]

theorem wellTyped_replicate (hc : WellTyped dl c) (htype : c.type = element) (n : Nat) :
    (∀ t ∈ (List.replicate n c).map type, t = element) ∧
      AllWellTyped dl (List.replicate n c) := by
  rw [List.map_replicate, htype, allWellTyped_iff]
  exact ⟨fun _ => List.eq_of_mem_replicate, fun _ hmem => List.eq_of_mem_replicate hmem ▸ hc⟩

/-- Where the elements of an array have one width, it is that of their type. -/
theorem width_eq_of_stride {stride : Nat} (hpos : Positive dl element)
    (hle : dl.sizeInBits element ≤ stride)
    (h : ∀ c r, WellTyped dl c → c.type = element → evalConstant dl c = some r →
      r.width = stride) :
    dl.sizeInBits element = stride ∧ ∀ c r, WellTyped dl c → c.type = element →
      evalConstant dl c = some r → r.width = dl.sizeInBits element := by
  obtain ⟨r, hr, heval⟩ := exists_evalConstant (.undef element) trivial hpos
  have hstride := h (.undef element) r trivial rfl hr
  have hwidth : r.width ≤ dl.sizeInBits element := heval.width_le
  have heq : dl.sizeInBits element = stride := by omega
  exact ⟨heq, fun c r hc htype hr => (h c r hc htype hr).trans heq.symm⟩

/-- All values of the type have its width. -/
theorem exact_of_width : ∀ {t : LLVMType}, Positive dl t →
    (∀ c r, WellTyped dl c → c.type = t → evalConstant dl c = some r →
      r.width = dl.sizeInBits t) → Exact dl t
  | .integer _, _, _ => trivial
  | .floating _, _, _ => trivial
  | .pointer, _, _ => trivial
  | .struct _ _, _, _ => trivial
  | .array n element, hpos, h => by
    have helements (c r) (hc : WellTyped dl c) (htype : c.type = element)
        (hr : evalConstant dl c = some r) : r.width = 8 * dl.allocSize element := by
      obtain ⟨r', hr', hwidth⟩ := exists_replicate hr hpos.1
      have harray := h (.array element (List.replicate n c)) r' (wellTyped_replicate hc htype n)
        (by rw [type, List.length_replicate]) hr'
      rw [hwidth, DataLayout.sizeInBits_array, Nat.mul_comm (dl.allocSize element)] at harray
      exact Nat.eq_of_mul_eq_mul_left hpos.1 harray
    obtain ⟨heq, hwidths⟩ :=
      width_eq_of_stride hpos.2 (sizeInBits_le_allocSize element) helements
    exact ⟨exact_of_width hpos.2 hwidths, heq⟩
  | .vector n element, hpos, h => by
    show Exact dl element
    refine exact_of_width hpos.2 fun c r hc htype hr => ?_
    obtain ⟨r', hr', hwidth⟩ := exists_replicate hr hpos.1
    have hvector := h (.vector element (List.replicate n c)) r' (wellTyped_replicate hc htype n)
      (by rw [type, List.length_replicate]) hr'
    exact Nat.eq_of_mul_eq_mul_left hpos.1 (hwidth.symm.trans hvector)

end Width

section Elements

variable (dl) in
/-- The first elements of arrays or vectors are a stride apart, as numbers and in memory. -/
def PlacedElements (element : LLVMType) (stride n : Nat) : Prop :=
  ∀ cs : List Constant, cs.length ≤ n → (∀ c ∈ cs, WellTyped dl c ∧ c.type = element) →
    ∃ rs, List.Forall₂ (fun c r => evalConstant dl c = some r) cs rs ∧
      glue (rs.map segment) = glue ((images dl cs).map fun x => (stride, x)) ∧
      ∀ k, applyWrites (initializeElements dl (dl.storeSize element) cs 0) zeroed k =
        byteAt (glue ((images dl cs).map fun x => (stride, x))) k

variable {stride : Nat}

theorem placedElements_of (h : ∀ cs : List Constant, cs.length = n →
    (∀ t ∈ cs.map type, t = element) ∧ AllWellTyped dl cs →
    ∃ r, (evalConstants dl cs).bind (fun kids => createN kids.reverse) = some r ∧
      r.value.toNat = glue ((images dl cs).map fun x => (stride, x)) ∧
      ∀ k, applyWrites (initializeElements dl (dl.storeSize element) cs 0) zeroed k =
        byteAt (glue ((images dl cs).map fun x => (stride, x))) k) :
    PlacedElements dl element stride n := fun cs hlen hcs => by
  obtain ⟨r, hr, hvalue, hbytes⟩ := h (firstElements cs (n - cs.length) element)
    (by rw [length_firstElements, Nat.add_sub_cancel' hlen]) (wellTyped_firstElements hcs _)
  obtain ⟨kids, hkids, hr⟩ := Option.bind_eq_some_iff.mp hr
  obtain ⟨rs, hrs, hfirst⟩ := value_firstElements hkids hr
  rw [glue_firstElements] at hvalue hbytes
  refine ⟨rs, hrs, hfirst.symm.trans hvalue, fun k => ?_⟩
  rw [← hbytes k, initializeElements_firstElements]

theorem Placed.array (h : Placed dl (.array n element)) :
    PlacedElements dl element (8 * dl.allocSize element) n :=
  placedElements_of fun cs hlen hcs => h (.array element cs) hcs (by rw [type, hlen])

theorem Placed.vector (h : Placed dl (.vector n element)) :
    PlacedElements dl element (dl.sizeInBits element) n :=
  placedElements_of fun cs hlen hcs => h (.vector element cs) hcs (by rw [type, hlen])

theorem PlacedElements.placed (h : PlacedElements dl element stride n) (hn : 0 < n) :
    Placed dl element := fun c hc htype => by
  obtain ⟨rs, hrs, hvalue, hbytes⟩ := h [c] hn (by simp [hc, htype])
  obtain ⟨r, rs', hr, hrs', rfl⟩ := List.forall₂_cons_left_iff.mp hrs
  cases hrs'
  simp only [List.map_cons, List.map_nil, images, glue, Nat.mul_zero, Nat.add_zero, segment,
    initializeElements, List.append_nil] at hvalue hbytes
  exact ⟨r, hr, hvalue, hbytes⟩

theorem image_undefs (n : Nat) (stride : Nat) (c : Constant) (element : LLVMType) :
    glue ((images dl (firstElements [c] n element)).map fun x => (stride, x)) = image dl c := by
  rw [glue_firstElements]
  simp [images, glue]

/-- A constant with a one in its first byte, and zeros after it -/
theorem exists_image_eq_one : ∀ {t : LLVMType}, Positive dl t →
    ∃ c, WellTyped dl c ∧ c.type = t ∧ image dl c = 1
  | .integer width, h => by
    refine ⟨.scalar (.integer width) (.alloc 1 width), ⟨trivial, rfl⟩, rfl, ?_⟩
    have hlt : 1 < 2 ^ width := Nat.one_lt_two_pow h.ne'
    simp [image, ConstantExpr.alloc, Nat.mod_eq_of_lt hlt]
  | .floating kind, _ =>
    ⟨.scalar (.floating kind) (.alloc 1 kind.width), ⟨trivial, rfl⟩, rfl, by cases kind <;> rfl⟩
  | .pointer, h => by
    refine ⟨.scalar .pointer (.alloc 1 dl.pointerWidth), ⟨trivial, rfl⟩, rfl, ?_⟩
    have hlt : 1 < 2 ^ dl.pointerWidth := Nat.one_lt_two_pow (ne_of_gt h)
    simp [image, ConstantExpr.alloc, Nat.mod_eq_of_lt hlt]
  | .array n element, h => by
    obtain ⟨c, hc, htype, hone⟩ := exists_image_eq_one h.2
    refine ⟨.array element (firstElements [c] (n - 1) element),
      wellTyped_firstElements (by simp [hc, htype]) _, ?_, (image_undefs _ _ c element).trans hone⟩
    rw [type, length_firstElements, List.length_singleton, Nat.add_sub_cancel' h.1]
  | .vector n element, h => by
    obtain ⟨c, hc, htype, hone⟩ := exists_image_eq_one h.2
    refine ⟨.vector element (firstElements [c] (n - 1) element),
      wellTyped_firstElements (by simp [hc, htype]) _, ?_, (image_undefs _ _ c element).trans hone⟩
    rw [type, length_firstElements, List.length_singleton, Nat.add_sub_cancel' h.1]
  | .struct packed [], h => absurd rfl h.1
  | .struct packed (t :: ts), h => by
    obtain ⟨c, hc, rfl, hone⟩ := exists_image_eq_one h.2.1
    refine ⟨.struct packed (c.type :: ts) (onlyField [] c ts),
      ⟨type_onlyField, allWellTyped_onlyField hc⟩, rfl, ?_⟩
    have hfields : sumFields dl packed (c.type :: ts) 0
        (List.replicate 0 0 ++ image dl c :: List.replicate ts.length 0) = _ :=
      sumFields_onlyField 0 0 ts.length (image dl c)
    rw [Nat.add_zero, DataLayout.elementOffset_zero, Nat.mul_zero, Nat.pow_zero,
      Nat.one_mul, hone] at hfields
    rw [image, images_onlyField, hone]
    exact hfields

/-- The second element begins a stride after the first one, which therefore is as wide. -/
theorem PlacedElements.width_eq (h : PlacedElements dl element stride n) (hn : 2 ≤ n)
    (hpos : Positive dl element) (hc : WellTyped dl c) (htype : c.type = element)
    (hr : evalConstant dl c = some r) : r.width = stride := by
  have hplaced := h.placed (by omega)
  obtain ⟨d, hd, hdtype, hone⟩ := exists_image_eq_one hpos
  obtain ⟨rd, hrd, hdvalue, -⟩ := hplaced d hd hdtype
  obtain ⟨rc, hrc, hcvalue, -⟩ := hplaced c hc htype
  obtain rfl := Option.some.inj (hr.symm.trans hrc)
  obtain ⟨rs, hrs, hvalue, -⟩ := h [c, d] hn (by simp [hc, htype, hd, hdtype])
  have heq : rs = [r, rd] := by
    have hcd : evalConstants dl [c, d] = some [r, rd] := by
      rw [evalConstants, hr, evalConstants, hrd]
      rfl
    exact Option.some.inj ((evalConstants_eq_some.mpr hrs).symm.trans hcd)
  rw [heq] at hvalue
  simp only [List.map_cons, List.map_nil, images, glue, Nat.mul_zero, Nat.add_zero, segment,
    hcvalue, hdvalue, hone, Nat.mul_one, Nat.add_left_cancel_iff] at hvalue
  exact Nat.pow_right_injective (le_refl 2) hvalue

/-- The second element is written a store size after the first one. -/
theorem PlacedElements.stride_eq (h : PlacedElements dl element stride n) (hn : 2 ≤ n)
    (hpos : Positive dl element) (hle : stride ≤ 8 * dl.storeSize element) :
    stride = 8 * dl.storeSize element := by
  have hplaced := h.placed (by omega)
  obtain ⟨d, hd, hdtype, hone⟩ := exists_image_eq_one hpos
  obtain ⟨-, -, -, hdbytes⟩ := hplaced d hd hdtype
  have hundef : WellTyped dl (.undef element) := trivial
  obtain ⟨-, -, -, hbytes⟩ := h [.undef element, d] hn
    (List.forall_mem_cons.mpr ⟨⟨hundef, rfl⟩, by simp [hd, hdtype]⟩)
  have hfirst := hbytes (0 + dl.storeSize element)
  simp only [images, List.map_cons, List.map_nil, glue, image, hone, Nat.mul_zero, Nat.add_zero,
    Nat.mul_one, initializeElements, List.append_nil] at hfirst
  rw [show initializeGlobalObject dl (.undef element) 0 = [] from rfl, List.nil_append,
    Nat.zero_add (dl.storeSize element)] at hfirst
  have hshift : applyWrites (initializeGlobalObject dl d (dl.storeSize element)) zeroed
      (0 + dl.storeSize element) = _ :=
    applyWrites_initializeGlobalObject d (dl.storeSize element) 0
  rw [Nat.zero_add, hdbytes 0, hone] at hshift
  by_contra hne
  have hlt : 2 ^ stride < 2 ^ (8 * dl.storeSize element) :=
    Nat.pow_lt_pow_right Nat.one_lt_two (lt_of_le_of_ne hle hne)
  rw [hshift, Nat.zero_add, byteAt_of_lt hlt] at hfirst
  exact absurd hfirst (by decide)

/-- From two elements on they have to be exact, and to fill the stride. -/
theorem PlacedElements.exact (h : PlacedElements dl element stride n) (hn : 2 ≤ n)
    (hpos : Positive dl element) (hle : dl.sizeInBits element ≤ stride) :
    Exact dl element ∧ dl.sizeInBits element = stride := by
  obtain ⟨heq, hwidths⟩ := width_eq_of_stride hpos hle fun c r hc htype hr =>
    h.width_eq hn hpos hc htype hr
  exact ⟨exact_of_width hpos hwidths, heq⟩

end Elements

section Struct

variable {packed : Bool} {pre post : List LLVMType}

theorem byteAt_mul (s y k : Nat) : byteAt (2 ^ (8 * s) * y) (k + s) = byteAt y k := by
  have hzero := byteAt_add_mul (Nat.two_pow_pos (8 * s)) y (k + s)
  rw [Nat.zero_add, if_neg (by omega), Nat.add_sub_cancel] at hzero
  exact hzero

theorem values_onlyField {rs : List ConstantExpr}
    (h : List.Forall₂ (fun c r => evalConstant dl c = some r) (onlyField pre c post) rs) :
    ∃ r, evalConstant dl c = some r ∧ rs.map (·.value.toNat) =
      List.replicate pre.length 0 ++ r.value.toNat :: List.replicate post.length 0 := by
  have hundefs {ts : List LLVMType} {rs : List ConstantExpr}
      (h : List.Forall₂ (fun c r => evalConstant dl c = some r) (ts.map undef) rs) :
      rs.map (·.value.toNat) = List.replicate ts.length 0 := by
    induction ts generalizing rs with
    | nil =>
      cases h
      rfl
    | cons t ts ih =>
      obtain ⟨r, rs, hr, hrs, rfl⟩ := List.forall₂_cons_left_iff.mp h
      exact congrArg₂ List.cons (value_undef hr) (ih hrs)
  induction pre generalizing rs with
  | nil =>
    obtain ⟨r, rs, hr, hrs, rfl⟩ := List.forall₂_cons_left_iff.mp h
    exact ⟨r, hr, congrArg _ (hundefs hrs)⟩
  | cons t pre ih =>
    obtain ⟨r₀, rs, hr₀, hrs, rfl⟩ := List.forall₂_cons_left_iff.mp h
    obtain ⟨r, hr, hvalues⟩ := ih hrs
    exact ⟨r, hr, congrArg₂ List.cons (value_undef hr₀) hvalues⟩

theorem Placed.field {fields : List LLVMType} (h : Placed dl (.struct packed fields))
    (ht : t ∈ fields) : Placed dl t := by
  rintro c hc rfl
  obtain ⟨pre, post, rfl⟩ := List.append_of_mem ht
  have hpos := h.evaluable.positive
  have hfields : (onlyField pre c post).map type = pre ++ c.type :: post := type_onlyField
  have hwell : AllWellTyped dl (onlyField pre c post) := allWellTyped_onlyField hc
  obtain ⟨r, hr, hvalue, hbytes⟩ :=
    h (.struct packed (pre ++ c.type :: post) (onlyField pre c post)) ⟨hfields, hwell⟩ rfl
  obtain ⟨rs, hrs, hevals⟩ := exists_evalConstants _ hwell (hfields.symm ▸ hpos.2)
  obtain ⟨r', hr', -, hsum⟩ := exists_struct packed hevals (by simp [onlyField])
  rw [evalConstant, hrs, ← hfields] at hr
  obtain rfl := Option.some.inj (hr'.symm.trans hr)
  obtain ⟨rc, hrc, hvalues⟩ := values_onlyField (evalConstants_eq_some.mp hrs)
  rw [hvalues, hfields, sumFields_onlyField, Nat.zero_add] at hsum
  have himage : image dl (.struct packed (pre ++ c.type :: post) (onlyField pre c post)) =
      2 ^ (8 * dl.elementOffset packed 0 (pre ++ c.type :: post) pre.length) * image dl c := by
    rw [image, images_onlyField, sumFields_onlyField, Nat.zero_add]
  rw [himage] at hvalue hbytes
  refine ⟨rc, hrc, Nat.eq_of_mul_eq_mul_left (Nat.two_pow_pos _) (hsum.symm.trans hvalue),
    fun k => ?_⟩
  have hfield := hbytes (k + dl.elementOffset packed 0 (pre ++ c.type :: post) pre.length)
  rw [byteAt_mul, initializeGlobalObject, initializeFields_onlyField, Nat.zero_add, Nat.zero_add,
    applyWrites_initializeGlobalObject] at hfield
  exact hfield

end Struct

mutual

theorem Placed.contiguous : ∀ {t : LLVMType}, Placed dl t → Positive dl t → Contiguous dl t
  | .integer _, _, _ => trivial
  | .floating _, _, _ => trivial
  | .pointer, _, _ => trivial
  | .array n element, h, hpos => by
    refine ⟨(h.array.placed hpos.1).contiguous hpos.2, ?_⟩
    rcases Nat.lt_or_ge 1 n with hn | hn
    · exact .inr (h.array.exact hn hpos.2 (sizeInBits_le_allocSize element))
    · exact .inl (le_antisymm hn hpos.1)
  | .vector n element, h, hpos => by
    refine ⟨(h.vector.placed hpos.1).contiguous hpos.2, ?_⟩
    rcases Nat.lt_or_ge 1 n with hn | hn
    · have hwide : dl.sizeInBits element ≤ dl.storeSize element * 8 :=
        DataLayout.sizeInBits_le_storeSize element
      exact .inr ⟨(h.vector.exact hn hpos.2 le_rfl).1,
        h.vector.stride_eq hn hpos.2 (by omega)⟩
    · exact .inl (le_antisymm hn hpos.1)
  | .struct packed fields, h, hpos =>
    allContiguous_of_placed fields (fun _ ht => h.field ht) hpos.2

theorem allContiguous_of_placed : ∀ ts : List LLVMType, (∀ t ∈ ts, Placed dl t) →
    AllPositive dl ts → AllContiguous dl ts
  | [], _, _ => trivial
  | t :: ts, h, hpos => ⟨(h t List.mem_cons_self).contiguous hpos.1,
    allContiguous_of_placed ts (fun u hu => h u (List.mem_cons_of_mem t hu)) hpos.2⟩

end

/-- The constants of a type have one layout if and only if no part of the type is empty, the
values have its width, and the elements of the arrays and the vectors in it are side by side. -/
theorem laidOut_iff (dl : DataLayout) (t : LLVMType) :
    LaidOut dl t ↔ Positive dl t ∧ Exact dl t ∧ Contiguous dl t := by
  constructor
  · intro h
    have hpos := h.placed.evaluable.positive
    refine ⟨hpos, exact_of_width hpos fun c r hc htype hr => ?_, h.placed.contiguous hpos⟩
    obtain ⟨r', hr', hwidth, -⟩ := h c hc htype
    obtain rfl := Option.some.inj (hr.symm.trans hr')
    rw [hwidth, htype]
  · rintro ⟨hpos, hexact, hcontiguous⟩
    exact laidOut_of_contiguous hpos hexact hcontiguous

/-- Two extended-precision numbers, of 10 bytes with 16 for each: the value has 160 bits where the
type has 256. -/
theorem not_agrees_fp80 :
    let one : Constant := .scalar (.floating .x86_fp80) (.alloc 0x3fff8000000000000000 80)
    let two : Constant := .scalar (.floating .x86_fp80) (.alloc 0x40008000000000000000 80)
    let c : Constant := .array (.floating .x86_fp80) [one, two]
    WellTyped DataLayout.x86_64 c ∧ Positive DataLayout.x86_64 c.type ∧
      ¬ Agrees DataLayout.x86_64 c := by
  refine ⟨⟨by simp [type], ⟨trivial, rfl⟩, ⟨trivial, rfl⟩, trivial⟩, ⟨by decide, trivial⟩, ?_⟩
  rintro ⟨r, hr, hwidth, -⟩
  cases hr
  exact absurd hwidth (by decide)

end Klee.Constant
