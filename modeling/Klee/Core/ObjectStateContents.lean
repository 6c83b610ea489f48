import Klee.Core.ObjectStateSpec

/-! What a read of one byte returns on an object whose caches need not agree. -/
namespace Klee.ObjectState

open Hoare

/-- The byte that a read at a symbolic offset finds: a flushed byte comes from the updates, also
when it is in a cache. -/
def symbolicContents (os : ObjectState) (σ : Assignment) (i : Nat) : BitVec 8 :=
  if os.isByteFlushed i then os.updated σ i else os.contents σ i

/-- The cache invariants that reads need; they do not say that the places of a byte agree. -/
structure Readable (n : Nat) (os : ObjectState) : Prop where
  size_eq : os.size = n
  head : os.updatesHead.WellSorted
  cached : ∀ i < n, os.isByteFlushed i = false →
    os.isByteConcrete i = true ∨ os.isByteKnownSymbolic i = true
  known : ∀ i < n, ∀ e, os.knownSymbolic i = some e → e.WellSorted ∧ e.width = 8

variable {s : Option Assignment} {n i j : Nat} {c : ByteMemory} {os os' : ObjectState}
variable {σ : Assignment} {e : Expr}

section Contents

/-- The representation does not depend on the flag. -/
theorem Rep.readable (h : Rep s n c { os with readOnly := false }) : Readable n os where
  size_eq := h.size_eq
  head := h.head
  cached i hi := (h.byte i hi).cached
  known i hi e he := by
    have hd := (h.byte i hi).known e he
    exact ⟨hd.wellSorted, hd.width_eq⟩

/-- The places of a byte agree in a representation. -/
theorem Rep.symbolicContents_eq (h : Rep (some σ) n c { os with readOnly := false }) (hi : i < n) :
    os.symbolicContents σ i = os.contents σ i := by
  unfold symbolicContents
  by_cases hf : os.isByteFlushed i = true
  · rw [if_pos hf]
    have hcontents : os.contents σ i = c i := h.contents_eq hi
    rw [hcontents]
    exact (h.byte i hi).flushed hf σ rfl
  · rw [if_neg hf]

theorem contents_of_concrete (h : os.isByteConcrete i = true) :
    os.contents σ i = os.concreteStore i := if_pos h

/-- A symbolic byte does not depend on the concrete store. -/
theorem contents_congr (hconcrete : os'.isByteConcrete i = os.isByteConcrete i)
    (hknown : os'.knownSymbolic i = os.knownSymbolic i)
    (hupdated : os'.updated σ i = os.updated σ i)
    (hstore : os.isByteConcrete i = true → os'.concreteStore i = os.concreteStore i) :
    os'.contents σ i = os.contents σ i := by
  unfold contents
  rw [hconcrete, hknown, hupdated]
  by_cases hc : os.isByteConcrete i = true
  · rw [if_pos hc, if_pos hc, hstore hc]
  · rw [if_neg hc, if_neg hc]

end Contents

section Flush

variable {E : Fault → Prop}

structure Flushing (σ : Assignment) (n : Nat) (v : ByteMemory) (i : Nat) (x : ObjectContext) :
    Prop where
  readable : Readable n x.object
  mask : x.object.flushMask.isSome = true
  flushed : ∀ j < i, x.object.isByteFlushed j = true
  contents : ∀ j < n, x.object.symbolicContents σ j = v j

/-- The cached value of byte `i` joins the updates. -/
theorem Flushing.flushByte {v : ByteMemory} {x : ObjectContext} (h : Flushing σ n v i x)
    (hi : i < n) (hf : x.object.isByteFlushed i = false) (he : e.WellSorted ∧ e.width = 8)
    (hv : e.eval σ 8 = x.object.contents σ i) :
    Flushing σ n v (i + 1)
      ⟨(x.object.extend (offsetExpr i) e).markByteFlushed i, x.constArrId⟩ := by
  have hlt : n < 2 ^ 32 := h.readable.size_eq ▸ x.object.size_lt
  have hmask : (x.object.extend (offsetExpr i) e).flushMask.isSome = true := h.mask
  have hflushed (j : Nat) : ((x.object.extend (offsetExpr i) e).markByteFlushed i).isByteFlushed j =
      (x.object.isByteFlushed j || j == i) := isByteFlushed_markByteFlushed hmask
  have hupdated (j : Nat) (hj : j < n) :
      ((x.object.extend (offsetExpr i) e).markByteFlushed i).updated σ j =
        if j = i then e.eval σ 8 else x.object.updated σ j := by
    show (x.object.extend (offsetExpr i) e).updated σ j = _
    exact updated_extend_offsetExpr σ e (hj.trans hlt) (hi.trans hlt)
  refine ⟨⟨h.readable.size_eq, ⟨h.readable.head, offsetExpr_wellSorted i, he⟩, fun j hj hfj => ?_,
    h.readable.known⟩, isSome_flushMask_markByteFlushed, fun j hj => ?_, fun j hj => ?_⟩
  · rw [hflushed, Bool.or_eq_false_iff] at hfj
    exact h.readable.cached j hj hfj.1
  · rw [hflushed]
    cases Nat.lt_succ_iff_lt_or_eq.mp hj with
    | inl hlt => rw [h.flushed j hlt, Bool.true_or]
    | inr heq => simp [heq]
  · rw [← h.contents j hj, symbolicContents, symbolicContents, hflushed]
    by_cases hji : j = i
    · subst hji
      rw [hf, hupdated j hj, if_pos rfl, hv]
      simp
    · rw [hupdated j hj, if_neg hji]
      have hne : (j == i) = false := by simpa using hji
      rw [hne, Bool.or_false]
      by_cases hfj : x.object.isByteFlushed j = true
      · rw [if_pos hfj, if_pos hfj]
      · rw [if_neg hfj, if_neg hfj]
        exact contents_congr rfl rfl ((hupdated j hj).trans (if_neg hji)) fun _ => rfl

theorem flushByteForRead_contents {v : ByteMemory} (hi : i < n) :
    Triple (Flushing σ n v i) (flushByteForRead i) (fun _ => Flushing σ n v (i + 1)) E := by
  refine triple_get_bind fun x h => ?_
  refine triple_ite (fun hf => triple_pure fun y hy => ?_) fun hf => ?_
  · subst hy
    refine ⟨h.readable, h.mask, fun j hj => ?_, h.contents⟩
    cases Nat.lt_succ_iff_lt_or_eq.mp hj with
    | inl hlt => exact h.flushed j hlt
    | inr heq => rwa [heq]
  · have hf : x.object.isByteFlushed i = false := by simpa using hf
    refine triple_ite (fun hc => ?_) fun hc => ?_
    · refine triple_modifyObject fun y hy => ?_
      subst hy
      exact h.flushByte hi hf ⟨Nat.succ_pos 7, rfl⟩ (contents_of_concrete hc).symm
    · have hc : x.object.isByteConcrete i = false := by simpa using hc
      cases hknown : x.object.knownSymbolic i with
      | none =>
        -- an unflushed byte is in a cache
        have hcached := h.readable.cached i hi hf
        simp [hc, isByteKnownSymbolic, hknown] at hcached
      | some e =>
        refine triple_modifyObject fun y hy => ?_
        subst hy
        refine h.flushByte hi hf (h.readable.known i hi e hknown) ?_
        rw [contents, hc, hknown]
        rfl

end Flush

section Read

variable {v : ByteMemory} {K : Nat → Prop}

/-- The updates that `getUpdates` returns have every byte as the object's own have it. -/
theorem getUpdates_contents {E : Fault → Prop} :
    Triple (fun x => Readable n x.object ∧ ∀ j < n, K j → x.object.updated σ j = v j) getUpdates
      (fun ul _ => ul.head.WellSorted ∧
        ∀ j < n, K j → ul.head.eval σ ul.root (BitVec.ofNat 32 j) = v j) E := by
  refine triple_get_bind fun x h => ?_
  obtain ⟨hread, hupdated⟩ := h
  cases hroot : x.object.updatesRoot with
  | some root =>
    refine triple_pure fun _ _ => ⟨hread.head, fun j hj hK => ?_⟩
    have hj := hupdated j hj hK
    rwa [updated, baseArray, hroot] at hj
  | none =>
    refine Triple.bind (triple_set fun _ _ => ?_) fun _ => triple_pure fun _ h => h
    refine ⟨wellSorted_createUpdates hread.head _, fun j hj hK => ?_⟩
    rw [← hupdated j hj hK]
    exact eval_createUpdates hroot hread.head (by rwa [hread.size_eq])

/-- A read at a symbolic offset. -/
theorem read8Expr_contents (h : Readable n os) (he : e.WellSorted) (hw : e.width = 32)
    (hsym : e.isConstant = false) (hi : (e.eval σ 32).toNat < n) (constArrId : Nat) :
    ∃ r y, read8Expr e ⟨os, constArrId⟩ = .ok (r, y) ∧
      r.eval σ 8 = os.symbolicContents σ (e.eval σ 32).toNat := by
  have hcreate : Triple (fun x => x = (⟨os, constArrId⟩ : ObjectContext))
      (modifyObject createFlushMask)
      (fun _ => Flushing σ n (os.symbolicContents σ) 0) (fun _ => False) := by
    refine triple_modifyObject fun x hx => ?_
    subst hx
    have hsame (j : Nat) : os.createFlushMask.isByteFlushed j = os.isByteFlushed j := by simp
    refine ⟨⟨h.size_eq, h.head, fun j hj hf => h.cached j hj (hsame j ▸ hf), h.known⟩, rfl,
      fun j hj => absurd hj (Nat.not_lt_zero j), fun j _ => ?_⟩
    show (if os.createFlushMask.isByteFlushed j = true then os.updated σ j else os.contents σ j) = _
    rw [hsame]
    rfl
  have hloop : Triple (Flushing σ n (os.symbolicContents σ) 0)
      ((List.range' 0 n).forM flushByteForRead)
      (fun _ => Flushing σ n (os.symbolicContents σ) (0 + n)) (fun _ => False) :=
    triple_forM_range' (I := Flushing σ n (os.symbolicContents σ)) n 0 fun i _ hi =>
      flushByteForRead_contents (by rwa [Nat.zero_add] at hi)
  rw [Nat.zero_add] at hloop
  have hread : Triple (fun x => x = (⟨os, constArrId⟩ : ObjectContext)) (read8Expr e)
      (fun r _ => r.eval σ 8 = os.symbolicContents σ (e.eval σ 32).toNat) (fun _ => False) := by
    refine triple_ite (fun hc => absurd hc (by simp [hsym])) fun _ => ?_
    refine triple_get_bind fun x hx => ?_
    subst hx
    show Triple _ (flushRangeForRead 0 os.size >>= _) _ _
    rw [h.size_eq]
    have hupdates := getUpdates_contents (σ := σ) (n := n) (K := fun _ => True)
      (v := os.symbolicContents σ) (E := fun _ => False)
    refine (hcreate.bind fun _ => hloop).bind fun _ => ?_
    refine (hupdates.pre fun y hy => ⟨hy.readable, fun j hj _ => ?_⟩).bind fun ul =>
      triple_pure fun y hul => ?_
    · rw [← hy.contents j hj, symbolicContents, if_pos (hy.flushed j hj)]
    obtain ⟨hhead, hval⟩ := hul
    have hd : Denotes (some σ) e 32 (e.eval σ 32) := .of_wellSorted he hw
    have hidx : Denotes (some σ) (ZExtExpr.create e 32) 32 (e.eval σ 32) := by
      have ht := truncate_denotes hd
      rwa [BitVec.setWidth_eq] at ht
    refine (create_read_denotes (c := os.symbolicContents σ) hhead hidx fun τ hτ => ?_).eval
    obtain rfl := Option.some.inj hτ
    have hj := hval _ hi trivial
    rwa [BitVec.ofNat_toNat, BitVec.setWidth_eq] at hj
  exact exists_ok_of_wp (hread ⟨os, constArrId⟩ rfl)

/-- A read at a constant offset. -/
theorem read8_contents (h : Readable n os) (hi : i < n) (constArrId : Nat) :
    ∃ r y, read8 i ⟨os, constArrId⟩ = .ok (r, y) ∧ r.eval σ 8 = os.contents σ i := by
  have hlt : i < 2 ^ 32 := hi.trans (h.size_eq ▸ os.size_lt)
  have hoffset : (BitVec.ofNat 32 i).toNat = i := by
    rw [BitVec.toNat_ofNat, Nat.mod_eq_of_lt hlt]
  have hupdates := getUpdates_contents (σ := σ) (n := n) (K := (· = i))
    (v := fun j => os.updated σ j) (E := fun _ => False)
  have hread : Triple (fun x => x = (⟨os, constArrId⟩ : ObjectContext)) (read8 i)
      (fun r _ => r.eval σ 8 = os.contents σ i) (fun _ => False) := by
    refine triple_get_bind fun x hx => ?_
    subst hx
    refine triple_ite (fun hle => ?_) fun _ => triple_ite (fun hc => ?_) fun hc => ?_
    · exact absurd hle (by rw [h.size_eq]; exact Nat.not_le.mpr hi)
    · exact triple_pure fun _ _ => (contents_of_concrete hc).symm
    · have hc : os.isByteConcrete i = false := by simpa using hc
      cases hknown : os.knownSymbolic i with
      | some e =>
        refine triple_pure fun _ _ => ?_
        rw [contents, hc, hknown]
        rfl
      | none =>
        refine triple_ite (fun hf => ?_) fun hf => ?_
        · refine (hupdates.pre fun y hy => ?_).bind fun ul => triple_pure fun _ hul => ?_
          · subst hy
            exact ⟨h, fun j _ hj => rfl⟩
          · rw [contents, hc, hknown]
            have hd := create_read_denotes (c := fun j => os.updated σ j) hul.1
              (offsetExpr_denotes (s := some σ) i) fun τ hτ => ?_
            · rw [hd.eval, hoffset]
              rfl
            · obtain rfl := Option.some.inj hτ
              rw [hoffset]
              exact hul.2 i hi rfl
        · -- a byte in no cache is flushed
          have hcached := h.cached i hi (by simpa using hf)
          simp [hc, isByteKnownSymbolic, hknown] at hcached
  exact exists_ok_of_wp (hread ⟨os, constArrId⟩ rfl)

end Read

end Klee.ObjectState
