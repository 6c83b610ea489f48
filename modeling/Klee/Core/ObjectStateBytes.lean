import Klee.Core.ObjectStateRep
import Klee.Core.ByteMemory

/-! Reads and writes of an `ObjectState` do what they do on a plain memory. -/
namespace Klee.ObjectState

open Hoare

variable {s : Option Assignment} {n : Nat} {c : ByteMemory} {i : Nat} {e v : Expr}

section Bytes

/-- What `ReadExpr::create` returns on updates that hold the byte at the index. -/
theorem create_read_denotes {ul : UpdateList} (hul : ul.head.WellSorted) {x : BitVec 32}
    (he : Denotes s e 32 x) (hx : ∀ σ ∈ s, ul.head.eval σ ul.root x = c x.toNat) :
    Denotes s (ReadExpr.create ul e) 8 (c x.toNat) :=
  ReadExpr.create_denotes (Denotes.read hul he fun σ hσ => ⟨(hx σ hσ).symm, fun ho => by cases ho⟩)

theorem offsetExpr_denotes (i : Nat) : Denotes s (offsetExpr i) 32 (BitVec.ofNat 32 i) :=
  Denotes.constant (Nat.succ_pos 31)

theorem read8_triple :
    Triple (fun x => Rep s n c x.object) (read8 i)
      (fun r x => Rep s n c x.object ∧ Denotes s r 8 (c i))
      (fun f => f = .outOfBounds ∧ n ≤ i) := by
  refine triple_get_bind fun x hrep => ?_
  refine triple_ite (fun hle => triple_throw ⟨rfl, hrep.size_eq ▸ hle⟩) fun hlt => ?_
  have hi : i < n := by
    rw [← hrep.size_eq]
    omega
  have hb := hrep.byte i hi
  refine triple_ite (fun hc => triple_pure ?_) fun hc => ?_
  · rintro _ rfl
    exact ⟨hrep, (Denotes.constant (Nat.succ_pos 7)).congr (hb.store hc)⟩
  · cases hk : x.object.knownSymbolic i with
    | some e =>
      refine triple_pure ?_
      rintro _ rfl
      exact ⟨hrep, hb.known e hk⟩
    | none =>
      refine triple_ite (fun hf => ?_) fun hf => ?_
      · have hupdates := getUpdates_triple (s := s) (n := n) (c := c) (· = i)
          (E := fun f => f = .outOfBounds ∧ n ≤ i)
        refine (hupdates.pre ?_).bind fun ul => triple_pure ?_
        · rintro _ rfl
          exact ⟨hrep, fun j _ hj => hj ▸ hf⟩
        · rintro y ⟨hrep', hul, heval⟩
          have hi32 : (BitVec.ofNat 32 i).toNat = i := by
            rw [BitVec.toNat_ofNat, Nat.mod_eq_of_lt (hi.trans hrep.size_lt)]
          have hread := create_read_denotes (c := c) hul (offsetExpr_denotes i)
            fun σ hσ => by rw [heval i hi rfl σ hσ, hi32]
          rw [hi32] at hread
          exact ⟨hrep', hread⟩
      · have hcached := hb.cached (by simpa using hf)
        simp [isByteKnownSymbolic, hk, hc] at hcached

theorem read8Expr_triple {x : BitVec 32} (he : Denotes s e 32 x) :
    Triple (fun y => Rep s n c y.object) (read8Expr e)
      (fun r y => Rep s n c y.object ∧
        ((s.isSome = true → x.toNat < n) → Denotes s r 8 (c x.toNat)))
      (fun f => f = .constantOffset ∧ e.isConstant = true) := by
  refine triple_ite (fun hc => triple_throw ⟨rfl, hc⟩) fun _ => ?_
  refine triple_get_bind fun y hrep => ?_
  have hflush := flushRangeForRead_triple (s := s) (n := n) (c := c)
    (E := fun f => f = .constantOffset ∧ e.isConstant = true)
  have hupdates := getUpdates_triple (s := s) (n := n) (c := c) (fun _ => True)
    (E := fun f => f = .constantOffset ∧ e.isConstant = true)
  show Triple _ (flushRangeForRead 0 y.object.size >>= _) _ _
  rw [hrep.size_eq]
  refine (hflush.pre ?_).bind fun _ => (hupdates.pre ?_).bind fun ul => triple_pure ?_
  · rintro _ rfl
    exact hrep
  · rintro z ⟨hrep', hf⟩
    exact ⟨hrep', fun j hj _ => hf j hj⟩
  · rintro z ⟨hrep', hul, heval⟩
    refine ⟨hrep', fun hx => ?_⟩
    have hz : Denotes s (ZExtExpr.create e 32) 32 x := by
      have h := CastKind.create_denotes .zext he (Nat.succ_pos 31)
      rwa [show CastKind.zext.denote x 32 = x from BitVec.setWidth_eq x] at h
    refine create_read_denotes hul hz fun σ hσ => ?_
    have hlt : x.toNat < n := hx (by rw [hσ]; rfl)
    have h := heval x.toNat hlt trivial σ hσ
    rwa [BitVec.ofNat_toNat, BitVec.setWidth_eq] at h

/-- The object with byte `i` in the concrete store. -/
theorem Rep.write8Byte {os : ObjectState} (h : Rep s n c os) {value v : BitVec 8}
    (hv : s.isSome = true → value = v) :
    Rep s n (Function.update c i v)
      ((({ os with concreteStore := Function.update os.concreteStore i value }.setKnownSymbolic
        i none).markByteConcrete i).markByteUnflushed i) := by
  refine h.update rfl rfl h.head (fun j _ hij => ?_) ?_
  · have hstore : SameByte s os
        { os with concreteStore := Function.update os.concreteStore i value } j :=
      sameByte_concreteStore hij
    exact ((hstore.trans (sameByte_setKnownSymbolic hij)).trans
      (sameByte_markByteConcrete hij)).trans (sameByte_markByteUnflushed hij)
  · refine ⟨fun _ => .inl ?_, fun _ => ?_, fun _ hs => ?_, fun e he => ?_, fun hf => ?_⟩
    · exact isByteConcrete_markByteConcrete.trans (by simp)
    · exact knownSymbolic_setKnownSymbolic.trans (if_pos rfl)
    · exact (Function.update_self ..).trans (hv hs)
    · cases he.symm.trans (knownSymbolic_setKnownSymbolic.trans (if_pos rfl))
    · exact absurd (isByteFlushed_markByteUnflushed.symm.trans hf) (by simp)

/-- The object with the expression `e` for byte `i`. -/
theorem Rep.write8Symbolic {os : ObjectState} (h : Rep s n c os) {v : BitVec 8}
    (he : Denotes s e 8 v) :
    Rep s n (Function.update c i v)
      (((os.setKnownSymbolic i (some e)).markByteSymbolic i).markByteUnflushed i) := by
  have hknown : (((os.setKnownSymbolic i (some e)).markByteSymbolic i).markByteUnflushed
      i).knownSymbolic i = some e := knownSymbolic_setKnownSymbolic.trans (if_pos rfl)
  have hconcrete : (((os.setKnownSymbolic i (some e)).markByteSymbolic i).markByteUnflushed
      i).isByteConcrete i = false := isByteConcrete_markByteSymbolic.trans (by simp)
  refine h.update rfl rfl h.head (fun j _ hij => ?_) ?_
  · exact ((sameByte_setKnownSymbolic hij).trans (sameByte_markByteSymbolic hij)).trans
      (sameByte_markByteUnflushed hij)
  · refine ⟨fun _ => .inr ?_, fun hc => ?_, fun hc => ?_, fun e' he' => ?_, fun hf => ?_⟩
    · rw [isByteKnownSymbolic, hknown]
      rfl
    · rw [hconcrete] at hc
      cases hc
    · rw [hconcrete] at hc
      cases hc
    · rw [hknown] at he'
      exact Option.some.inj he' ▸ he
    · exact absurd (isByteFlushed_markByteUnflushed.symm.trans hf) (by simp)

theorem write8Byte_triple {value v : BitVec 8} (hv : s.isSome = true → value = v) :
    Triple (fun x => Rep s n c x.object) (write8Byte i value)
      (fun _ x => Rep s n (Function.update c i v) x.object) (fun f => f = .outOfBounds ∧ n ≤ i) := by
  refine triple_get_bind fun x hrep => ?_
  refine triple_ite (fun hle => triple_throw ⟨rfl, hrep.size_eq ▸ hle⟩) fun _ => ?_
  refine triple_modifyObject ?_
  rintro _ rfl
  exact hrep.write8Byte hv

theorem write8_triple {x : BitVec 8} (hv : Denotes s v 8 x) :
    Triple (fun y => Rep s n c y.object) (write8 i v)
      (fun _ y => Rep s n (Function.update c i x) y.object) (fun f => f = .outOfBounds ∧ n ≤ i) := by
  have hsymbolic : Triple (fun y => Rep s n c y.object)
      (do
        let os := (← get).object
        if os.size ≤ i then throw .outOfBounds
        else modifyObject fun os =>
          ((os.setKnownSymbolic i (some v)).markByteSymbolic i).markByteUnflushed i)
      (fun _ y => Rep s n (Function.update c i x) y.object)
      (fun f => f = .outOfBounds ∧ n ≤ i) := by
    refine triple_get_bind fun y hrep => ?_
    refine triple_ite (fun hle => triple_throw ⟨rfl, hrep.size_eq ▸ hle⟩) fun _ => ?_
    refine triple_modifyObject ?_
    rintro _ rfl
    exact hrep.write8Symbolic hv
  unfold write8
  split
  · obtain ⟨y, rfl, hy⟩ := hv.constant_inv
    refine write8Byte_triple fun hs => ?_
    rw [← hy hs]
    exact BitVec.setWidth_eq y
  · exact hsymbolic

theorem write8Expr_triple {x : BitVec 32} {y : BitVec 8} (he : Denotes s e 32 x)
    (hv : Denotes s v 8 y) :
    Triple (fun z => Rep s n c z.object) (write8Expr e v)
      (fun _ z => Rep s n (Function.update c x.toNat y) z.object)
      (fun f => f = .constantOffset ∧ e.isConstant = true) := by
  refine triple_ite (fun hc => triple_throw ⟨rfl, hc⟩) fun _ => ?_
  refine triple_get_bind fun z hrep => ?_
  have hflush := flushRangeForWrite_triple (s := s) (n := n) (c := c)
    (E := fun f => f = .constantOffset ∧ e.isConstant = true)
  show Triple _ (flushRangeForWrite 0 z.object.size >>= _) _ _
  rw [hrep.size_eq]
  refine (hflush.pre ?_).bind fun _ => triple_modifyObject ?_
  · rintro _ rfl
    exact hrep
  · rintro z' ⟨hrep', hun⟩
    have hz : Denotes s (ZExtExpr.create e 32) 32 x := by
      have h := CastKind.create_denotes .zext he (Nat.succ_pos 31)
      rwa [show CastKind.zext.denote x 32 = x from BitVec.setWidth_eq x] at h
    refine ⟨hrep'.size_eq, hrep'.writable,
      ⟨hrep'.head, ⟨hz.wellSorted, hz.width_eq⟩, hv.wellSorted, hv.width_eq⟩, fun i hi => ?_⟩
    obtain ⟨hf, hcon, hknown⟩ := hun i hi
    refine ⟨fun hf' => ?_, fun hc => ?_, fun hc => ?_, fun e' he' => ?_, fun _ σ hσ => ?_⟩
    · cases hf.symm.trans hf'
    · cases hcon.symm.trans hc
    · cases hcon.symm.trans hc
    · cases hknown.symm.trans he'
    · rw [updated_extend, hz.eval_eq σ hσ, hv.eval_eq σ hσ, Function.update_apply]
      have hi32 : i < 2 ^ 32 := hi.trans hrep.size_lt
      by_cases hxi : x.toNat = i
      · rw [if_pos (by rw [← hxi]; simp), if_pos hxi.symm]
      · have hne : x ≠ BitVec.ofNat 32 i := by
          rintro rfl
          rw [BitVec.toNat_ofNat, Nat.mod_eq_of_lt hi32] at hxi
          exact hxi rfl
        rw [if_neg hne, if_neg (Ne.symm hxi)]
        exact (hrep'.byte i hi).flushed hf σ hσ

end Bytes

section Words

variable {P : ObjectContext → Prop} {E : Fault → Prop} {B : Prop} {isLittleEndian : Bool}

/-- The loop of `read`, where each byte is read right if `B` holds. -/
theorem readBytes_triple {byteAt : Nat → ObjectM Expr} {bytes : Nat → BitVec 8} (k : Nat)
    (h : ∀ i ≤ k, Triple P (byteAt i) (fun r x => P x ∧ (B → Denotes s r 8 (bytes i))) E) :
    Triple P (readBytes byteAt k)
      (fun r x => P x ∧ (B → Denotes s r (8 * (k + 1)) (ByteMemory.load bytes (k + 1)))) E := by
  induction k with
  | zero =>
    have hload : bytes 0 = ByteMemory.load bytes 1 := by
      simp [ByteMemory.load, BitVec.append_zero_width]
    exact (h 0 le_rfl).post fun r x hr => ⟨hr.1, fun hB => hload ▸ hr.2 hB⟩
  | succ k ih =>
    have hrest := ih fun i hi => h i (by omega)
    refine hrest.bind fun res => triple_and fun hres => ?_
    refine (h (k + 1) le_rfl).bind fun byte => triple_and fun hbyte => triple_pure fun x hx => ?_
    refine ⟨hx, fun hB => ?_⟩
    have hconcat := (ConcatExpr.create_denotes (hbyte hB) (hres hB)).setWidth
      (show 8 + 8 * (k + 1) = 8 * (k + 1 + 1) by omega)
    exact hconcat

theorem readWidth_triple {first : ObjectM Expr} {byteAt : Nat → ObjectM Expr} {w a : Nat}
    (hw : ByteMemory.ValidWidth w)
    (hfirst : w = 1 → Triple P first (fun r x => P x ∧ (B → Denotes s r 8 (c a))) E)
    (hbyte : ∀ i < w / 8, Triple P (byteAt i)
      (fun r x => P x ∧ (B → Denotes s r 8 (c (a + i)))) E) :
    Triple P (readWidth isLittleEndian first byteAt w)
      (fun r x => P x ∧ (B → Denotes s r w (c.read isLittleEndian a w))) E := by
  obtain rfl | ⟨k, rfl⟩ := hw
  · refine (hfirst rfl).bind fun byte => triple_and fun h => triple_pure fun x hx => ⟨hx, fun hB => ?_⟩
    have hbit : Denotes s (ExtractExpr.create byte 0 1) 1 ((c a).extractLsb' 0 1) :=
      ExtractExpr.create_denotes (h hB) (by decide) (by decide)
    rw [ByteMemory.read_bool]
    exact hbit
  · have hdiv : 8 * (k + 1) / 8 = k + 1 := by omega
    have hloop : Triple P (readBytes (fun i => byteAt (byteIndex isLittleEndian (k + 1) i)) k)
        (fun r x => P x ∧ (B → Denotes s r (8 * (k + 1))
          (ByteMemory.load (fun i => c (a + byteIndex isLittleEndian (k + 1) i)) (k + 1)))) E :=
      readBytes_triple k fun i hi => hbyte _ (hdiv.symm ▸ ByteMemory.byteIndex_lt (by omega))
    unfold readWidth
    rw [if_neg (by omega), if_pos (by omega)]
    simp only [hdiv]
    rw [ByteMemory.read_bytes]
    exact hloop

theorem readAt_triple {w : Nat} (hw : ByteMemory.ValidWidth w) (a : Nat) :
    Triple (fun x => Rep s n c x.object) (readAt isLittleEndian a w)
      (fun r x => Rep s n c x.object ∧
        ((s.isSome = true → a + ByteMemory.numBytes w ≤ n) →
          Denotes s r w (c.read isLittleEndian a w)))
      (fun f => f = .outOfBounds ∧ n < a + ByteMemory.numBytes w) := by
  refine readWidth_triple hw (fun h1 => ?_) fun i hi => ?_
  · refine read8_triple.weaken (fun _ h => h) (fun r x hr => ⟨hr.1, fun _ => hr.2⟩) fun f hf => ?_
    subst h1
    exact ⟨hf.1, Nat.lt_succ_of_le hf.2⟩
  · have hlt := ByteMemory.lt_numBytes hi
    refine read8_triple.weaken (fun _ h => h) (fun r x hr => ⟨hr.1, fun hB => ?_⟩) fun f hf => ?_
    · refine hr.2.congr fun hs => ?_
      have hn := hr.1.size_lt
      have hin := hB hs
      rw [Nat.mod_eq_of_lt (by omega)]
    · have hmod := Nat.mod_le (a + i) (2 ^ 32)
      exact ⟨hf.1, by omega⟩

/-- The offset, cut to 32 bits, is symbolic, but with the index of some byte added it
simplifies to a constant. -/
def FoldsWithIndex (e : Expr) : Prop :=
  (ZExtExpr.create e 32).isConstant = false ∧
    ∃ idx, (AddExpr.create (ZExtExpr.create e 32) (offsetExpr idx)).isConstant = true

/-- Why an access of `w` bits at an expression of value `x` fails. -/
def AccessFault (s : Option Assignment) (n : Nat) (e : Expr) (x w : Nat) (f : Fault) : Prop :=
  (f = .outOfBounds ∧ (s.isSome = true → n < x + ByteMemory.numBytes w)) ∨
    (f = .constantOffset ∧ FoldsWithIndex e)

theorem truncate_denotes {m : Nat} {x : BitVec m} (he : Denotes s e m x) :
    Denotes s (ZExtExpr.create e 32) 32 (x.setWidth 32) :=
  CastKind.create_denotes .zext he (Nat.succ_pos 31)

/-- In bounds, an offset is the same after the cut to 32 bits, also with an index added. -/
theorem toNat_setWidth_offset {w m : Nat} {x : BitVec m} (hn : n < 2 ^ 32)
    (hw : ByteMemory.ValidWidth w) (hx : x.toNat + ByteMemory.numBytes w ≤ n) :
    (x.setWidth 32).toNat = x.toNat ∧ (x.setWidth 32).toNat < n := by
  have hpos := ByteMemory.numBytes_pos hw
  have heq : (x.setWidth 32).toNat = x.toNat := by
    rw [BitVec.toNat_setWidth, Nat.mod_eq_of_lt (by omega)]
  exact ⟨heq, by omega⟩

theorem toNat_add_offset {w m : Nat} {x : BitVec m} (hn : n < 2 ^ 32) {i : Nat} (hi : i < w / 8)
    (hx : x.toNat + ByteMemory.numBytes w ≤ n) :
    (x.setWidth 32 + BitVec.ofNat 32 i).toNat = x.toNat + i ∧
      (x.setWidth 32 + BitVec.ofNat 32 i).toNat < n := by
  have hlt := ByteMemory.lt_numBytes hi
  have heq : (x.setWidth 32 + BitVec.ofNat 32 i).toNat = x.toNat + i := by
    rw [BitVec.toNat_add, BitVec.toNat_setWidth, BitVec.toNat_ofNat,
      Nat.mod_eq_of_lt (show x.toNat < 2 ^ 32 by omega),
      Nat.mod_eq_of_lt (show i < 2 ^ 32 by omega), Nat.mod_eq_of_lt (by omega)]
  exact ⟨heq, by omega⟩

theorem read_triple {w m : Nat} (hw : ByteMemory.ValidWidth w) {x : BitVec m}
    (he : Denotes s e m x) :
    Triple (fun y => Rep s n c y.object) (read isLittleEndian e w)
      (fun r y => Rep s n c y.object ∧
        ((s.isSome = true → x.toNat + ByteMemory.numBytes w ≤ n) →
          Denotes s r w (c.read isLittleEndian x.toNat w)))
      (AccessFault s n e x.toNat w) := by
  have hz := truncate_denotes he
  unfold read
  split
  next k hk =>
    rw [hk] at hz
    obtain ⟨y, rfl, hy⟩ := hz.constant_inv
    refine (readAt_triple hw y.toNat).weaken (fun _ h => h) (fun r z hr => ⟨hr.1, fun hB => ?_⟩)
      fun f hf => .inl ⟨hf.1, fun hs => ?_⟩
    · have hyx (hs : s.isSome = true) : y.toNat = x.toNat := by
        rw [hy hs]
        exact (toNat_setWidth_offset hr.1.size_lt hw (hB hs)).1
      exact (hr.2 fun hs => hyx hs ▸ hB hs).congr fun hs => by rw [hyx hs]
    · have hle : y.toNat ≤ x.toNat := by
        rw [hy hs, BitVec.toNat_setWidth]
        exact Nat.mod_le _ _
      omega
  next off hoff =>
    have hoff : (ZExtExpr.create e 32).isConstant = false :=
      (Expr.isConstant_eq_false_iff _).mpr fun k hk => hoff k hk
    refine readWidth_triple hw (fun h1 => ?_) fun i hi => ?_
    · refine (read8Expr_triple hz).weaken (fun _ h => h) (fun r z hr => ⟨hr.1, fun hB => ?_⟩)
        fun f hf => ?_
      · have hx (hs : s.isSome = true) := toNat_setWidth_offset hr.1.size_lt hw (hB hs)
        exact (hr.2 fun hs => (hx hs).2).congr fun hs => by rw [(hx hs).1]
      · cases hoff.symm.trans hf.2
    · have hadd := AddExpr.create_denotes hz (offsetExpr_denotes i)
      refine (read8Expr_triple hadd).weaken (fun _ h => h) (fun r z hr => ⟨hr.1, fun hB => ?_⟩)
        fun f hf => .inr ⟨hf.1, hoff, i, hf.2⟩
      have hx (hs : s.isSome = true) := toNat_add_offset hr.1.size_lt hi (hB hs)
      exact (hr.2 fun hs => (hx hs).2).congr fun hs => by rw [(hx hs).1]

/-- The loop of `write`, where each byte goes to its address. -/
theorem writeWidth_triple {first : Expr → ObjectM Unit} {byteAt : Nat → Expr → ObjectM Unit}
    {w a : Nat} {address : Nat → Nat} {x : BitVec w} (hw : ByteMemory.ValidWidth w)
    (hv : Denotes s v w x)
    (hfirst : w = 1 → ∀ (c : ByteMemory) (b : BitVec 8) (byte : Expr), Denotes s byte 8 b →
      Triple (fun z => Rep s n c z.object) (first byte)
        (fun _ z => Rep s n (Function.update c a b) z.object) E)
    (hbyte : ∀ i < w / 8, ∀ (c : ByteMemory) (b : BitVec 8) (byte : Expr), Denotes s byte 8 b →
      Triple (fun z => Rep s n c z.object) (byteAt i byte)
        (fun _ z => Rep s n (Function.update c (address i) b) z.object) E) :
    Triple (fun z => Rep s n c z.object) (writeWidth isLittleEndian first byteAt v)
      (fun _ z => Rep s n (c.scatter isLittleEndian a address x) z.object) E := by
  unfold writeWidth ByteMemory.scatter
  rw [hv.width_eq]
  obtain rfl | ⟨k, rfl⟩ := hw
  · rw [if_pos rfl, if_pos rfl]
    exact hfirst rfl c _ _ (CastKind.create_denotes .zext hv (Nat.succ_pos 7))
  · have hne : 8 * (k + 1) ≠ 1 := by omega
    have hbytes : 8 * (k + 1) = 8 * (k + 1) / 8 * 8 := by omega
    rw [if_neg hne, if_neg hne, if_pos hbytes]
    refine triple_forM_range (I := fun i (z : ObjectContext) => Rep s n
      (c.store (fun i => address (byteIndex isLittleEndian (8 * (k + 1) / 8) i))
        (fun i => x.extractLsb' (8 * i) 8) i) z.object) _ fun i hi => ?_
    have hbytes := hbyte (byteIndex isLittleEndian (8 * (k + 1) / 8) i) (ByteMemory.byteIndex_lt hi)
      (c.store (fun i => address (byteIndex isLittleEndian (8 * (k + 1) / 8) i))
        (fun i => x.extractLsb' (8 * i) 8) i) _ _
      (ExtractExpr.create_denotes hv (Nat.succ_pos 7) (by omega : 8 * i + 8 ≤ 8 * (k + 1)))
    refine hbytes.post fun _ z hz => ?_
    rw [ByteMemory.store_succ]
    exact hz

theorem writeConstant_triple {k a : Nat} (x : BitVec (8 * k)) :
    Triple (fun z => Rep s n c z.object) (writeConstant isLittleEndian k a x)
      (fun _ z => Rep s n (c.store (fun i => (a + byteIndex isLittleEndian k i) % 2 ^ 32)
        (fun i => x.extractLsb' (8 * i) 8) k) z.object)
      (fun f => f = .outOfBounds ∧ n < a + k) := by
  refine triple_forM_range (I := fun i (z : ObjectContext) => Rep s n
    (c.store (fun i => (a + byteIndex isLittleEndian k i) % 2 ^ 32)
      (fun i => x.extractLsb' (8 * i) 8) i) z.object) _ fun i hi => ?_
  have hshift : (x >>> (8 * i)).setWidth 8 = x.extractLsb' (8 * i) 8 := by
    apply BitVec.eq_of_getLsbD_eq
    intro j hj
    simp [hj]
  rw [hshift]
  refine (write8Byte_triple fun _ => rfl).weaken (fun _ h => h) (fun _ z hz => ?_) fun f hf => ?_
  · rw [ByteMemory.store_succ]
    exact hz
  · have hlt : byteIndex isLittleEndian k i < k := ByteMemory.byteIndex_lt hi
    have hmod := Nat.mod_le (a + byteIndex isLittleEndian k i) (2 ^ 32)
    exact ⟨hf.1, by omega⟩

/-- The result of a write at offset `a`, which is that on a plain memory if in bounds. -/
def Written (s : Option Assignment) (n : Nat) (c : ByteMemory) (isLittleEndian : Bool) (a : Nat)
    {w : Nat} (x : BitVec w) (z : ObjectContext) : Prop :=
  ∃ c', Rep s n c' z.object ∧
    (s.isSome = true → a + ByteMemory.numBytes w ≤ n → c' = c.write isLittleEndian a x)

theorem writeAt_general_triple (isLittleEndian : Bool) {w : Nat} {x : BitVec w} (hw : ByteMemory.ValidWidth w)
    (hv : Denotes s v w x) (a : Nat) :
    Triple (fun z => Rep s n c z.object)
      (writeWidth isLittleEndian (write8 a) (fun idx byte => write8 ((a + idx) % 2 ^ 32) byte) v)
      (fun _ => Written s n c isLittleEndian a x)
      (fun f => f = .outOfBounds ∧ n < a + ByteMemory.numBytes w) := by
  have hloop : Triple (fun z => Rep s n c z.object)
      (writeWidth isLittleEndian (write8 a) (fun idx byte => write8 ((a + idx) % 2 ^ 32) byte) v)
      (fun _ z => Rep s n (c.scatter isLittleEndian a (fun i => (a + i) % 2 ^ 32) x) z.object)
      (fun f => f = .outOfBounds ∧ n < a + ByteMemory.numBytes w) := by
    refine writeWidth_triple hw hv (fun h1 c b byte hb => ?_) fun i hi c b byte hb => ?_
    · refine (write8_triple hb).error fun f hf => ⟨hf.1, ?_⟩
      subst h1
      exact Nat.lt_succ_of_le hf.2
    · have hlt := ByteMemory.lt_numBytes hi
      refine (write8_triple hb).error fun f hf => ⟨hf.1, ?_⟩
      have hmod := Nat.mod_le (a + i) (2 ^ 32)
      omega
  refine hloop.post fun _ z hz => ⟨_, hz, fun _ hin => ?_⟩
  refine ByteMemory.scatter_eq_write (fun _ => rfl) fun i hi => ?_
  have hn := hz.size_lt
  have hlt := ByteMemory.lt_numBytes hi
  exact Nat.mod_eq_of_lt (by omega)

/-- A constant of `k` bytes, through `write16` and the like. -/
theorem writeAt_constant_triple {k a : Nat} {y x : BitVec (8 * (k + 1))}
    (hyx : s.isSome = true → y = x) :
    Triple (fun z => Rep s n c z.object) (writeConstant isLittleEndian (k + 1) a y)
      (fun _ => Written s n c isLittleEndian a x)
      (fun f => f = .outOfBounds ∧ n < a + ByteMemory.numBytes (8 * (k + 1))) := by
  have hk : 8 * (k + 1) / 8 = k + 1 := by omega
  have hbytes : ByteMemory.numBytes (8 * (k + 1)) = k + 1 := by
    rw [ByteMemory.numBytes, if_neg (by omega), hk]
  rw [hbytes]
  refine (writeConstant_triple y).post fun _ z hz => ⟨_, hz, fun hs hin => ?_⟩
  rw [hbytes] at hin
  have hn := hz.size_lt
  rw [ByteMemory.write, if_neg (by omega), hk, hyx hs]
  refine ByteMemory.store_congr (fun i hi => ?_) fun _ _ => rfl
  have hlt : byteIndex isLittleEndian (k + 1) i < k + 1 := ByteMemory.byteIndex_lt hi
  exact Nat.mod_eq_of_lt (by omega)

theorem writeAt_triple {w : Nat} {x : BitVec w} (hw : ByteMemory.ValidWidth w)
    (hv : Denotes s v w x) (a : Nat) :
    Triple (fun z => Rep s n c z.object) (writeAt isLittleEndian a v)
      (fun _ => Written s n c isLittleEndian a x)
      (fun f => f = .outOfBounds ∧ n < a + ByteMemory.numBytes w) := by
  have hgeneral := writeAt_general_triple (n := n) (c := c) isLittleEndian hw hv a
  unfold writeAt
  split
  · obtain ⟨y, rfl, hy⟩ := hv.constant_inv
    have hcast {m : Nat} {y x : BitVec m} (hy : s.isSome = true → y = x) :
        s.isSome = true → y.setWidth m = x := fun hs => (BitVec.setWidth_eq y).trans (hy hs)
    -- the widths of the switch on `c.width`, in its order
    simp only
    split
    · refine (write8Byte_triple (v := x.setWidth 8) fun hs => by rw [hy hs]).weaken (fun _ h => h)
        (fun _ z hz => ⟨_, hz, fun _ _ => ?_⟩) fun f hf => ⟨hf.1, Nat.lt_succ_of_le hf.2⟩
      rw [ByteMemory.write, if_pos rfl]
    · refine (write8Byte_triple (hcast hy)).weaken (fun _ h => h)
        (fun _ z hz => ⟨_, hz, fun _ _ => ?_⟩) fun f hf => ⟨hf.1, Nat.lt_succ_of_le hf.2⟩
      rw [ByteMemory.write_byte]
    · exact writeAt_constant_triple (k := 1) (hcast hy)
    · exact writeAt_constant_triple (k := 3) (hcast hy)
    · exact writeAt_constant_triple (k := 7) (hcast hy)
    · obtain h | ⟨k, h⟩ := hw <;> omega
    · obtain h | ⟨k, h⟩ := hw <;> omega
    · exact hgeneral
  · exact hgeneral

theorem write_triple {w m : Nat} {x : BitVec m} {y : BitVec w} (hw : ByteMemory.ValidWidth w)
    (he : Denotes s e m x) (hv : Denotes s v w y) :
    Triple (fun z => Rep s n c z.object) (write isLittleEndian e v)
      (fun _ z => ∃ c', Rep s n c' z.object ∧
        (s.isSome = true → x.toNat + ByteMemory.numBytes w ≤ n →
          c' = c.write isLittleEndian x.toNat y))
      (AccessFault s n e x.toNat w) := by
  have hz := truncate_denotes he
  unfold write
  split
  next k hk =>
    rw [hk] at hz
    obtain ⟨k, rfl, hkx⟩ := hz.constant_inv
    refine (writeAt_triple hw hv k.toNat).weaken (fun _ h => h) (fun _ z hc => ?_)
      fun f hf => .inl ⟨hf.1, fun hs => ?_⟩
    · obtain ⟨c', hrep, hc'⟩ := hc
      refine ⟨c', hrep, fun hs hin => ?_⟩
      have hx := (toNat_setWidth_offset hrep.size_lt hw hin).1
      rw [← hkx hs] at hx
      rw [hc' hs (hx ▸ hin), hx]
    · have hle : k.toNat ≤ x.toNat := by
        rw [hkx hs, BitVec.toNat_setWidth]
        exact Nat.mod_le _ _
      omega
  next hoff =>
    have hoff : (ZExtExpr.create e 32).isConstant = false :=
      (Expr.isConstant_eq_false_iff _).mpr fun k hk => hoff k hk
    have hloop : Triple (fun z => Rep s n c z.object)
        (writeWidth isLittleEndian (write8Expr (ZExtExpr.create e 32))
          (fun idx byte => write8Expr (AddExpr.create (ZExtExpr.create e 32) (offsetExpr idx)) byte) v)
        (fun _ z => Rep s n (c.scatter isLittleEndian (x.setWidth 32).toNat
          (fun i => (x.setWidth 32 + BitVec.ofNat 32 i).toNat) y) z.object)
        (AccessFault s n e x.toNat w) := by
      refine writeWidth_triple hw hv (fun h1 c b byte hb => ?_) fun i hi c b byte hb => ?_
      · refine (write8Expr_triple hz hb).error fun f hf => ?_
        cases hoff.symm.trans hf.2
      · refine (write8Expr_triple (AddExpr.create_denotes hz (offsetExpr_denotes i)) hb).error
          fun f hf => .inr ⟨hf.1, hoff, i, hf.2⟩
    refine hloop.post fun _ z hrep => ⟨_, hrep, fun _ hin => ?_⟩
    exact ByteMemory.scatter_eq_write (fun _ => (toNat_setWidth_offset hrep.size_lt hw hin).1)
      fun i hi => (toNat_add_offset hrep.size_lt hi hin).1

end Words

end Klee.ObjectState
