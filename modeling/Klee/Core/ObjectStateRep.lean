import Klee.Core.ObjectState
import Klee.Lib.Hoare

/-! What the three places that hold a byte of an `ObjectState` have in common, and that
every operation on single bytes keeps it. -/
namespace Klee.ObjectState

open Hoare

variable {s : Option Assignment} {n : Nat} {c : Nat → BitVec 8} {os : ObjectState} {i j : Nat}

section Masks

@[simp] theorem isByteConcrete_markByteSymbolic :
    (os.markByteSymbolic j).isByteConcrete i = (os.isByteConcrete i && i != j) := by
  unfold isByteConcrete markByteSymbolic
  by_cases h : i = j
  · simp [h]
  · cases os.concreteMask <;> simp [h, Function.update_of_ne]

@[simp] theorem isByteConcrete_markByteConcrete :
    (os.markByteConcrete j).isByteConcrete i = (os.isByteConcrete i || i == j) := by
  unfold isByteConcrete markByteConcrete
  by_cases h : i = j
  · cases os.concreteMask <;> simp [h]
  · cases os.concreteMask <;> simp [h, Function.update_of_ne]

@[simp] theorem isByteFlushed_markByteUnflushed :
    (os.markByteUnflushed j).isByteFlushed i = (os.isByteFlushed i && i != j) := by
  unfold isByteFlushed markByteUnflushed
  by_cases h : i = j
  · cases os.flushMask <;> simp [h]
  · cases os.flushMask <;> simp [h, Function.update_of_ne]

/-- Once the flush mask exists, `markByteFlushed` is about one byte. -/
theorem isByteFlushed_markByteFlushed (hm : os.flushMask.isSome = true) :
    (os.markByteFlushed j).isByteFlushed i = (os.isByteFlushed i || i == j) := by
  obtain ⟨mask, hm⟩ := Option.isSome_iff_exists.mp hm
  unfold isByteFlushed markByteFlushed
  by_cases h : i = j
  · simp [h, hm]
  · simp [h, hm, Function.update_of_ne]

theorem isSome_flushMask_markByteFlushed : (os.markByteFlushed j).flushMask.isSome = true := by
  unfold markByteFlushed
  cases os.flushMask <;> rfl

theorem isByteFlushed_markByteFlushed_self (hm : os.flushMask.isSome = true) :
    (os.markByteFlushed j).isByteFlushed j = true := by
  rw [isByteFlushed_markByteFlushed hm]
  simp

@[simp] theorem knownSymbolic_setKnownSymbolic {value : Option Expr} :
    (os.setKnownSymbolic j value).knownSymbolic i =
      if i = j then value else os.knownSymbolic i := by
  unfold knownSymbolic setKnownSymbolic
  by_cases h : i = j
  · cases os.knownSymbolics <;> cases value <;> simp [h]
  · cases os.knownSymbolics <;> cases value <;> simp [h, Function.update_of_ne]

@[simp] theorem isByteFlushed_createFlushMask :
    os.createFlushMask.isByteFlushed i = os.isByteFlushed i := by
  unfold isByteFlushed createFlushMask
  cases os.flushMask <;> rfl

end Masks

section Representation

/-- The array under the updates: what `createUpdates` starts from while there is no root. -/
def baseArray (os : ObjectState) : Array :=
  os.updatesRoot.getD (createConstantArray 0 (List.replicate os.size 0)
    (by rw [List.length_replicate]; exact os.size_lt))

/-- The value of byte `i` in the array and its updates. -/
def updated (os : ObjectState) (σ : Assignment) (i : Nat) : BitVec 8 :=
  os.updatesHead.eval σ os.baseArray (BitVec.ofNat 32 i)

/-- Every place that holds byte `i` holds the value `v`, and some place does. The first two
fields are the cache invariants that the code documents. -/
structure HoldsByte (s : Option Assignment) (os : ObjectState) (i : Nat) (v : BitVec 8) :
    Prop where
  cached : os.isByteFlushed i = false →
    os.isByteConcrete i = true ∨ os.isByteKnownSymbolic i = true
  exclusive : os.isByteConcrete i = true → os.knownSymbolic i = none
  store : os.isByteConcrete i = true → s.isSome = true → os.concreteStore i = v
  known : ∀ e, os.knownSymbolic i = some e → Denotes s e 8 v
  flushed : os.isByteFlushed i = true → ∀ σ ∈ s, os.updated σ i = v

/-- The object has `n` bytes, which are those of `c` under the assignment `s`. Without an
assignment only the types and the masks matter. -/
structure Rep (s : Option Assignment) (n : Nat) (c : Nat → BitVec 8) (os : ObjectState) :
    Prop where
  size_eq : os.size = n
  writable : os.readOnly = false
  head : os.updatesHead.WellSorted
  byte : ∀ i < n, HoldsByte s os i (c i)

/-- The two objects have the same byte `i`, in every place. -/
structure SameByte (s : Option Assignment) (os os' : ObjectState) (i : Nat) : Prop where
  concrete : os'.isByteConcrete i = os.isByteConcrete i
  flushed : os'.isByteFlushed i = os.isByteFlushed i
  known : os'.knownSymbolic i = os.knownSymbolic i
  store : os'.concreteStore i = os.concreteStore i
  updated : ∀ σ ∈ s, os'.updated σ i = os.updated σ i

theorem HoldsByte.congr {v : BitVec 8} {os' : ObjectState} (h : HoldsByte s os i v)
    (hs : SameByte s os os' i) : HoldsByte s os' i v where
  cached hf := by
    rw [hs.concrete, isByteKnownSymbolic, hs.known]
    exact h.cached (hs.flushed ▸ hf)
  exclusive hc := hs.known.trans (h.exclusive (hs.concrete ▸ hc))
  store hc hsome := hs.store.trans (h.store (hs.concrete ▸ hc) hsome)
  known e he := h.known e (hs.known ▸ he)
  flushed hf σ hσ := (hs.updated σ hσ).trans (h.flushed (hs.flushed ▸ hf) σ hσ)

theorem HoldsByte.value {v v' : BitVec 8} (h : HoldsByte s os i v)
    (hv : s.isSome = true → v = v') : HoldsByte s os i v' where
  cached := h.cached
  exclusive := h.exclusive
  store hc hs := (h.store hc hs).trans (hv hs)
  known e he := (h.known e he).congr hv
  flushed hf σ hσ := (h.flushed hf σ hσ).trans (hv (by rw [hσ]; rfl))

theorem Rep.congr {c' : Nat → BitVec 8} (h : Rep s n c os)
    (hc : s.isSome = true → ∀ i < n, c i = c' i) : Rep s n c' os where
  size_eq := h.size_eq
  writable := h.writable
  head := h.head
  byte i hi := (h.byte i hi).value fun hs => hc hs i hi

/-- An operation on byte `j`. -/
theorem Rep.update (h : Rep s n c os) {os' : ObjectState} {v : BitVec 8}
    (hsize : os'.size = os.size) (hro : os'.readOnly = os.readOnly)
    (hhead : os'.updatesHead.WellSorted)
    (hother : ∀ i < n, i ≠ j → SameByte s os os' i) (hj : HoldsByte s os' j v) :
    Rep s n (Function.update c j v) os' where
  size_eq := hsize.trans h.size_eq
  writable := hro.trans h.writable
  head := hhead
  byte i hi := by
    by_cases hij : i = j
    · rw [hij, Function.update_self]
      exact hj
    · rw [Function.update_of_ne hij]
      exact (h.byte i hi).congr (hother i hi hij)

/-- An operation on byte `j` that does not change its value. -/
theorem Rep.same (h : Rep s n c os) {os' : ObjectState}
    (hsize : os'.size = os.size) (hro : os'.readOnly = os.readOnly)
    (hhead : os'.updatesHead.WellSorted)
    (hother : ∀ i < n, i ≠ j → SameByte s os os' i) (hj : HoldsByte s os' j (c j)) :
    Rep s n c os' := by
  have hup := h.update hsize hro hhead hother hj
  rwa [Function.update_eq_self] at hup

theorem Rep.size_lt (h : Rep s n c os) : n < 2 ^ 32 := h.size_eq ▸ os.size_lt

end Representation

section Updates

variable {σ : Assignment} {root : Array}

def applyWrites (σ : Assignment) (f : BitVec 32 → BitVec 8) (ws : List (Expr × Expr)) :
    BitVec 32 → BitVec 8 :=
  ws.foldl (fun f w i => if w.1.eval σ 32 = i then w.2.eval σ 8 else f i) f

theorem eval_extendAll (un : UpdateNode) (ws : List (Expr × Expr)) :
    (un.extendAll ws).eval σ root = applyWrites σ (un.eval σ root) ws := by
  induction ws generalizing un with
  | nil => rfl
  | cons w ws ih =>
    rw [UpdateNode.extendAll, List.foldl_cons, ← UpdateNode.extendAll, ih, applyWrites, applyWrites,
      List.foldl_cons]
    congr 1

theorem extendAll_writes (un : UpdateNode) : UpdateNode.null.extendAll un.writes = un := by
  induction un with
  | null => rfl
  | node next index value ih =>
    have hsnoc : UpdateNode.null.extendAll (next.writes ++ [(index, value)]) =
        .node (UpdateNode.null.extendAll next.writes) index value := by
      rw [UpdateNode.extendAll, List.foldl_append]
      rfl
    rw [UpdateNode.writes, hsnoc, ih]

theorem eval_eq_applyWrites (un : UpdateNode) :
    un.eval σ root = applyWrites σ (UpdateNode.null.eval σ root) un.writes := by
  rw [← eval_extendAll, extendAll_writes]

theorem applyWrites_congr {f g : BitVec 32 → BitVec 8} {i : BitVec 32} (h : f i = g i)
    (ws : List (Expr × Expr)) : applyWrites σ f ws i = applyWrites σ g ws i := by
  induction ws generalizing f g with
  | nil => exact h
  | cons w ws ih =>
    rw [applyWrites, applyWrites, List.foldl_cons, List.foldl_cons]
    refine ih ?_
    by_cases hw : w.1.eval σ 32 = i
    · rw [if_pos hw, if_pos hw]
    · rw [if_neg hw, if_neg hw, h]

theorem width_of_mem_writes {un : UpdateNode} (h : un.WellSorted) :
    ∀ w ∈ un.writes, w.1.WellSorted ∧ w.1.width = 32 ∧ w.2.WellSorted ∧ w.2.width = 8 := by
  induction un with
  | null =>
    intro w hw
    cases hw
  | node next index value ih =>
    obtain ⟨hnext, ⟨hi, hi32⟩, hv, hv8⟩ := h
    intro w hw
    rcases List.mem_append.mp hw with hw | hw
    · exact ih hnext w hw
    · rw [List.mem_singleton.mp hw]
      exact ⟨hi, hi32, hv, hv8⟩

/-- The concrete writes that `pullConcrete` takes have the same effect on the contents. -/
theorem applyWrites_pullConcrete (contents : List (BitVec 8)) (ws : List (Expr × Expr))
    (hws : ∀ w ∈ ws, w.1.width = 32) {i : BitVec 32} (hi : i.toNat < contents.length) :
    applyWrites σ (fun j => (pullConcrete contents ws).1.getD j.toNat 0)
      (pullConcrete contents ws).2 i = applyWrites σ (fun j => contents.getD j.toNat 0) ws i := by
  induction contents, ws using pullConcrete.induct with
  | case1 contents index value ws ih =>
    rw [pullConcrete, ih (fun w hw => hws w (List.mem_cons_of_mem _ hw)) (by rwa [List.length_set]),
      applyWrites, applyWrites, List.foldl_cons, ← applyWrites, ← applyWrites]
    refine applyWrites_congr ?_ ws
    obtain ⟨w, x⟩ := index
    obtain rfl : w = 32 := hws _ List.mem_cons_self
    rw [Expr.eval, Expr.eval, BitVec.setWidth_eq]
    by_cases hx : x = i
    · subst hx
      simp [hi]
    · have hne : x.toNat ≠ i.toNat := fun h => hx (BitVec.eq_of_toNat_eq h)
      simp [hx, hne]
  | case2 contents ws h => rw [pullConcrete]; exact h

theorem eval_null_createConstantArray {id : Nat} {contents : List (BitVec 8)}
    {h : contents.length < 2 ^ 32} {i : BitVec 32} :
    UpdateNode.null.eval σ (createConstantArray id contents h) i = contents.getD i.toNat 0 := by
  rw [UpdateNode.eval, Array.initial]
  by_cases hc : (createConstantArray id contents h).isConstantArray = true
  · rw [if_pos hc]
    rfl
  · have hnil : contents = [] := by
      by_contra hne
      exact hc ((Array.isConstantArray_iff _).mpr hne)
    rw [if_neg hc, if_neg (by simp [createConstantArray, hnil]), hnil]
    rfl

/-- Creating the array keeps every byte of the object. -/
theorem eval_createUpdates (hroot : os.updatesRoot = none) (hhead : os.updatesHead.WellSorted)
    {id i : Nat} (hi : i < os.size) :
    (os.createUpdates id).head.eval σ (os.createUpdates id).root (BitVec.ofNat 32 i) =
      os.updated σ i := by
  have hlt : (BitVec.ofNat 32 i).toNat < (List.replicate os.size (0 : BitVec 8)).length := by
    have := os.size_lt
    rw [BitVec.toNat_ofNat, Nat.mod_eq_of_lt (by omega), List.length_replicate]
    exact hi
  have hpull := applyWrites_pullConcrete (σ := σ) _ os.updatesHead.writes
    (fun w hw => (width_of_mem_writes hhead w hw).2.1) hlt
  unfold updated baseArray
  rw [hroot, eval_eq_applyWrites os.updatesHead, createUpdates, eval_extendAll]
  calc applyWrites σ _ _ _ = applyWrites σ _ _ _ :=
        applyWrites_congr eval_null_createConstantArray _
    _ = applyWrites σ _ _ _ := hpull
    _ = applyWrites σ _ _ _ := applyWrites_congr eval_null_createConstantArray.symm _

theorem wellSorted_extendAll {un : UpdateNode} (hun : un.WellSorted) {ws : List (Expr × Expr)}
    (hws : ∀ w ∈ ws, w.1.WellSorted ∧ w.1.width = 32 ∧ w.2.WellSorted ∧ w.2.width = 8) :
    (un.extendAll ws).WellSorted := by
  induction ws generalizing un with
  | nil => exact hun
  | cons w ws ih =>
    obtain ⟨hi, hi32, hv, hv8⟩ := hws w List.mem_cons_self
    exact ih ⟨hun, ⟨hi, hi32⟩, hv, hv8⟩ fun w hw => hws w (List.mem_cons_of_mem _ hw)

theorem mem_of_mem_pullConcrete {contents : List (BitVec 8)} {ws : List (Expr × Expr)}
    {w : Expr × Expr} (h : w ∈ (pullConcrete contents ws).2) : w ∈ ws := by
  induction contents, ws using pullConcrete.induct with
  | case1 contents index value ws ih => exact List.mem_cons_of_mem _ (ih h)
  | case2 contents ws hne => rwa [pullConcrete] at h; exact hne

theorem wellSorted_createUpdates (hhead : os.updatesHead.WellSorted) (id : Nat) :
    (os.createUpdates id).head.WellSorted := by
  have hnull : UpdateNode.null.WellSorted := trivial
  exact wellSorted_extendAll hnull fun w hw =>
    width_of_mem_writes hhead w (mem_of_mem_pullConcrete hw)

end Updates

section Operations

variable {E : Fault → Prop}

theorem triple_modifyObject {P : ObjectContext → Prop} {Q : Unit → ObjectContext → Prop}
    {f : ObjectState → ObjectState} (h : ∀ x, P x → Q () ⟨f x.object, x.constArrId⟩) :
    Triple P (modifyObject f) Q E := triple_modify h

/-- The updates that `getUpdates` returns hold every flushed byte. -/
theorem getUpdates_triple (K : Nat → Prop) :
    Triple (fun x => Rep s n c x.object ∧ ∀ i < n, K i → x.object.isByteFlushed i = true)
      getUpdates
      (fun ul x => Rep s n c x.object ∧ ul.head.WellSorted ∧
        ∀ i < n, K i → ∀ σ ∈ s, ul.head.eval σ ul.root (BitVec.ofNat 32 i) = c i) E := by
  refine triple_get_bind fun x ⟨hrep, hflushed⟩ => ?_
  have heval (i : Nat) (hi : i < n) (hK : K i) (σ : Assignment) (hσ : σ ∈ s) :
      x.object.updated σ i = c i := (hrep.byte i hi).flushed (hflushed i hi hK) σ hσ
  cases hroot : x.object.updatesRoot with
  | some root =>
    refine triple_pure fun x' hx => ?_
    subst hx
    refine ⟨hrep, hrep.head, fun i hi hK σ hσ => ?_⟩
    have h := heval i hi hK σ hσ
    rwa [updated, baseArray, hroot] at h
  | none =>
    have hcreate (i : Nat) (hi : i < n) (σ : Assignment) :
        (x.object.createUpdates (x.constArrId + 1)).head.eval σ
          (x.object.createUpdates (x.constArrId + 1)).root (BitVec.ofNat 32 i) =
        x.object.updated σ i :=
      eval_createUpdates hroot hrep.head (by rw [hrep.size_eq]; exact hi)
    have hhead := wellSorted_createUpdates hrep.head (x.constArrId + 1)
    refine Triple.bind (triple_set fun x' _ => ?_) fun _ => triple_pure fun x' hx => hx
    refine ⟨⟨hrep.size_eq, hrep.writable, hhead, fun i hi => ?_⟩,
      hhead, fun i hi hK σ hσ => ?_⟩
    · exact (hrep.byte i hi).congr ⟨rfl, rfl, rfl, rfl, fun σ _ => hcreate i hi σ⟩
    · exact (hcreate i hi σ).trans (heval i hi hK σ hσ)

end Operations

section Frame

theorem SameByte.trans {os' os'' : ObjectState} (h : SameByte s os os' i)
    (h' : SameByte s os' os'' i) : SameByte s os os'' i where
  concrete := h'.concrete.trans h.concrete
  flushed := h'.flushed.trans h.flushed
  known := h'.known.trans h.known
  store := h'.store.trans h.store
  updated σ hσ := (h'.updated σ hσ).trans (h.updated σ hσ)

theorem sameByte_markByteSymbolic (hij : i ≠ j) : SameByte s os (os.markByteSymbolic j) i :=
  ⟨by simp [hij], rfl, rfl, rfl, fun _ _ => rfl⟩

theorem sameByte_markByteConcrete (hij : i ≠ j) : SameByte s os (os.markByteConcrete j) i :=
  ⟨by simp [hij], rfl, rfl, rfl, fun _ _ => rfl⟩

theorem sameByte_markByteUnflushed (hij : i ≠ j) : SameByte s os (os.markByteUnflushed j) i :=
  ⟨rfl, by simp [hij], rfl, rfl, fun _ _ => rfl⟩

theorem sameByte_markByteFlushed (hm : os.flushMask.isSome = true) (hij : i ≠ j) :
    SameByte s os (os.markByteFlushed j) i :=
  ⟨rfl, by simp [isByteFlushed_markByteFlushed hm, hij], rfl, rfl, fun _ _ => rfl⟩

theorem sameByte_setKnownSymbolic {value : Option Expr} (hij : i ≠ j) :
    SameByte s os (os.setKnownSymbolic j value) i :=
  ⟨rfl, rfl, by simp [hij], rfl, fun _ _ => rfl⟩

theorem sameByte_concreteStore {value : BitVec 8} (hij : i ≠ j) :
    SameByte s os { os with concreteStore := Function.update os.concreteStore j value } i :=
  ⟨rfl, rfl, rfl, Function.update_of_ne hij _ _, fun _ _ => rfl⟩

theorem sameByte_createFlushMask : SameByte s os os.createFlushMask i :=
  ⟨rfl, by simp, rfl, rfl, fun _ _ => rfl⟩

theorem updated_extend (σ : Assignment) (index e : Expr) :
    (os.extend index e).updated σ i =
      if index.eval σ 32 = BitVec.ofNat 32 i then e.eval σ 8 else os.updated σ i := rfl

theorem updated_extend_offsetExpr (σ : Assignment) (e : Expr) (hi : i < 2 ^ 32) (hj : j < 2 ^ 32) :
    (os.extend (offsetExpr j) e).updated σ i =
      if i = j then e.eval σ 8 else os.updated σ i := by
  have hval : (offsetExpr j).eval σ 32 = BitVec.ofNat 32 j := by
    rw [offsetExpr, Expr.eval]
    exact BitVec.setWidth_eq _
  rw [updated_extend, hval]
  by_cases hij : i = j
  · rw [hij, if_pos rfl, if_pos rfl]
  · have hne : BitVec.ofNat 32 j ≠ BitVec.ofNat 32 i := by
      intro h
      have := congrArg BitVec.toNat h
      rw [BitVec.toNat_ofNat, BitVec.toNat_ofNat, Nat.mod_eq_of_lt hi, Nat.mod_eq_of_lt hj] at this
      exact hij this.symm
    rw [if_neg hne, if_neg hij]

theorem sameByte_extend_offsetExpr {e : Expr} (hi : i < 2 ^ 32) (hj : j < 2 ^ 32) (hij : i ≠ j) :
    SameByte s os (os.extend (offsetExpr j) e) i :=
  ⟨rfl, rfl, rfl, rfl, fun σ _ =>
    (updated_extend_offsetExpr σ e hi hj).trans (if_neg hij)⟩

end Frame

section Flush

variable {E : Fault → Prop} {e : Expr}

theorem offsetExpr_wellSorted (j : Nat) :
    (offsetExpr j).WellSorted ∧ (offsetExpr j).width = 32 :=
  ⟨Nat.succ_pos 31, rfl⟩

/-- The value of byte `j` joins the updates, and the byte is marked flushed. -/
theorem Rep.flushByte (h : Rep s n c os) (hm : os.flushMask.isSome = true) (hj : j < n)
    (he : Denotes s e 8 (c j)) :
    Rep s n c ((os.extend (offsetExpr j) e).markByteFlushed j) := by
  have hlt := h.size_lt
  refine h.same (j := j) rfl rfl ⟨h.head, offsetExpr_wellSorted j, he.wellSorted, he.width_eq⟩
    (fun i hi hij => ?_) ?_
  · have hext : SameByte s os (os.extend (offsetExpr j) e) i :=
      sameByte_extend_offsetExpr (hi.trans hlt) (hj.trans hlt) hij
    exact hext.trans (sameByte_markByteFlushed hm hij)
  · have hb := h.byte j hj
    have hfl : ((os.extend (offsetExpr j) e).markByteFlushed j).isByteFlushed j = true :=
      isByteFlushed_markByteFlushed_self hm
    have hup (σ : Assignment) : (os.extend (offsetExpr j) e).updated σ j = e.eval σ 8 :=
      (updated_extend_offsetExpr σ e (hj.trans hlt) (hj.trans hlt)).trans (if_pos rfl)
    refine ⟨fun hf => ?_, hb.exclusive, hb.store, hb.known, fun _ σ hσ => ?_⟩
    · rw [hfl] at hf
      cases hf
    · exact (hup σ).trans (he.eval_eq σ hσ)

/-- Byte `j` is flushed and in no cache. -/
def Uncached (os : ObjectState) (j : Nat) : Prop :=
  os.isByteFlushed j = true ∧ os.isByteConcrete j = false ∧ os.knownSymbolic j = none

/-- Removing a flushed byte from the caches. -/
theorem Rep.uncache (h : Rep s n c os) {os' : ObjectState} (hj : j < n)
    (hsize : os'.size = os.size) (hro : os'.readOnly = os.readOnly)
    (hhead : os'.updatesHead = os.updatesHead)
    (hother : ∀ i, i ≠ j → SameByte s os os' i) (hup : ∀ σ, os'.updated σ j = os.updated σ j)
    (hfl : os.isByteFlushed j = true) (hun : os'.Uncached j) : Rep s n c os' := by
  obtain ⟨hfl', hcon, hknown⟩ := hun
  refine h.same hsize hro (hhead ▸ h.head) (fun i _ hij => hother i hij) ?_
  refine ⟨fun hf => ?_, fun hc => ?_, fun hc => ?_, fun e he => ?_, fun _ σ hσ => ?_⟩
  · rw [hfl'] at hf
    cases hf
  · rw [hcon] at hc
    cases hc
  · rw [hcon] at hc
    cases hc
  · rw [hknown] at he
    cases he
  · exact (hup σ).trans ((h.byte j hj).flushed hfl σ hσ)

theorem Rep.uncache_concrete (h : Rep s n c os) (hj : j < n) (hfl : os.isByteFlushed j = true)
    (hc : os.isByteConcrete j = true) :
    Rep s n c (os.markByteSymbolic j) ∧ (os.markByteSymbolic j).Uncached j := by
  have hun : (os.markByteSymbolic j).Uncached j := by
    refine ⟨hfl, ?_, (h.byte j hj).exclusive hc⟩
    simp
  exact ⟨h.uncache hj rfl rfl rfl (fun i hij => sameByte_markByteSymbolic hij) (fun _ => rfl)
    hfl hun, hun⟩

theorem Rep.uncache_known (h : Rep s n c os) (hj : j < n) (hfl : os.isByteFlushed j = true)
    (hc : os.isByteConcrete j = false) :
    Rep s n c (os.setKnownSymbolic j none) ∧ (os.setKnownSymbolic j none).Uncached j := by
  have hun : (os.setKnownSymbolic j none).Uncached j := by
    refine ⟨hfl, hc, ?_⟩
    simp
  exact ⟨h.uncache hj rfl rfl rfl (fun i hij => sameByte_setKnownSymbolic hij) (fun _ => rfl)
    hfl hun, hun⟩

theorem isByteFlushed_flush (hm : os.flushMask.isSome = true) (index e : Expr) :
    ((os.extend index e).markByteFlushed j).isByteFlushed i = (os.isByteFlushed i || i == j) :=
  isByteFlushed_markByteFlushed hm

/-- What a loop that flushes has done before byte `i`. -/
def FlushedTo (s : Option Assignment) (n : Nat) (c : Nat → BitVec 8) (i : Nat)
    (x : ObjectContext) : Prop :=
  Rep s n c x.object ∧ x.object.flushMask.isSome = true ∧
    ∀ j < i, x.object.isByteFlushed j = true

theorem flushByteForRead_triple (hi : i < n) :
    Triple (FlushedTo s n c i) (flushByteForRead i) (fun _ => FlushedTo s n c (i + 1)) E := by
  refine triple_get_bind fun x ⟨hrep, hm, hflushed⟩ => ?_
  have hb := hrep.byte i hi
  have hflush {e : Expr} (he : Denotes s e 8 (c i)) :
      FlushedTo s n c (i + 1)
        ⟨(x.object.extend (offsetExpr i) e).markByteFlushed i, x.constArrId⟩ := by
    refine ⟨hrep.flushByte hm hi he, isSome_flushMask_markByteFlushed, fun j hj => ?_⟩
    show ((x.object.extend (offsetExpr i) e).markByteFlushed i).isByteFlushed j = true
    rw [isByteFlushed_flush hm]
    by_cases hji : j = i
    · simp [hji]
    · simp [hflushed j (by omega)]
  refine triple_ite (fun hf => triple_pure ?_) fun hf => triple_ite (fun hc => ?_) fun hc => ?_
  · rintro _ rfl
    refine ⟨hrep, hm, fun j hj => ?_⟩
    by_cases hji : j = i
    · exact hji ▸ hf
    · exact hflushed j (by omega)
  · refine triple_modifyObject ?_
    rintro _ rfl
    exact hflush ((Denotes.constant (Nat.succ_pos 7)).congr (hb.store hc))
  · cases hk : x.object.knownSymbolic i with
    | none =>
      have := hb.cached (by simpa using hf)
      simp [isByteKnownSymbolic, hk, hc] at this
    | some e =>
      refine triple_modifyObject ?_
      rintro _ rfl
      exact hflush (hb.known e hk)

/-- As `FlushedTo`, with the bytes gone from the caches. -/
def UncachedTo (s : Option Assignment) (n : Nat) (c : Nat → BitVec 8) (i : Nat)
    (x : ObjectContext) : Prop :=
  Rep s n c x.object ∧ x.object.flushMask.isSome = true ∧ ∀ j < i, x.object.Uncached j

theorem flushByteForWrite_triple (hi : i < n) :
    Triple (UncachedTo s n c i) (flushByteForWrite i) (fun _ => UncachedTo s n c (i + 1)) E := by
  refine triple_get_bind fun x ⟨hrep, hm, hun⟩ => ?_
  have hb := hrep.byte i hi
  have hstep {y : ObjectContext} (hm' : y.object.flushMask.isSome = true)
      (hrep' : Rep s n c y.object ∧ y.object.Uncached i)
      (hother : ∀ j < i, SameByte none x.object y.object j) : UncachedTo s n c (i + 1) y := by
    refine ⟨hrep'.1, hm', fun j hj => ?_⟩
    by_cases hji : j = i
    · exact hji ▸ hrep'.2
    · have hsame := hother j (by omega)
      obtain ⟨hf, hc, hk⟩ := hun j (by omega)
      exact ⟨hsame.flushed.trans hf, hsame.concrete.trans hc, hsame.known.trans hk⟩
  have hlt : ∀ j < i, j < 2 ^ 32 ∧ i < 2 ^ 32 ∧ j ≠ i := by
    have := hrep.size_lt
    omega
  have hflush {e : Expr} {j : Nat} (hj : j < i) :
      SameByte none x.object ((x.object.extend (offsetExpr i) e).markByteFlushed i) j := by
    obtain ⟨hj32, hi32, hji⟩ := hlt j hj
    have hext : SameByte none x.object (x.object.extend (offsetExpr i) e) j :=
      sameByte_extend_offsetExpr hj32 hi32 hji
    exact hext.trans (sameByte_markByteFlushed hm hji)
  refine triple_ite (fun hf => triple_ite (fun hc => ?_) fun hc => triple_ite (fun hk => ?_)
    fun hk => triple_pure ?_) fun hf => triple_ite (fun hc => ?_) fun hc => ?_
  · refine triple_modifyObject ?_
    rintro _ rfl
    exact hstep hm (hrep.uncache_concrete hi hf hc)
      fun j hj => sameByte_markByteSymbolic (hlt j hj).2.2
  · refine triple_modifyObject ?_
    rintro _ rfl
    exact hstep hm (hrep.uncache_known hi hf (by simpa using hc))
      fun j hj => sameByte_setKnownSymbolic (hlt j hj).2.2
  · have hun' : x.object.Uncached i := by
      refine ⟨hf, by simpa using hc, ?_⟩
      simpa [isByteKnownSymbolic] using hk
    rintro _ rfl
    exact hstep hm ⟨hrep, hun'⟩ fun j _ => ⟨rfl, rfl, rfl, rfl, fun _ _ => rfl⟩
  · -- the order of the two marks does not matter
    have he : Denotes s (.constant ⟨8, x.object.concreteStore i⟩) 8 (c i) :=
      (Denotes.constant (Nat.succ_pos 7)).congr (hb.store hc)
    have hrep' := (hrep.flushByte hm hi he).uncache_concrete hi
      (isByteFlushed_markByteFlushed_self hm) hc
    refine triple_modifyObject ?_
    rintro _ rfl
    exact hstep isSome_flushMask_markByteFlushed hrep'
      fun j hj => (hflush hj).trans (sameByte_markByteSymbolic (hlt j hj).2.2)
  · cases hk : x.object.knownSymbolic i with
    | none =>
      have hcached := hb.cached (by simpa using hf)
      simp [isByteKnownSymbolic, hk, hc] at hcached
    | some e =>
      have hcon : x.object.isByteConcrete i = false := by simpa using hc
      have hrep' := (hrep.flushByte hm hi (hb.known e hk)).uncache_known hi
        (isByteFlushed_markByteFlushed_self hm) hcon
      refine triple_modifyObject ?_
      rintro _ rfl
      exact hstep isSome_flushMask_markByteFlushed hrep'
        fun j hj => (hflush hj).trans (sameByte_setKnownSymbolic (hlt j hj).2.2)

theorem createFlushMask_triple {P : ObjectContext → Prop}
    (h : ∀ x, Rep s n c x.object → x.object.flushMask.isSome = true → P x) :
    Triple (fun x => Rep s n c x.object) (modifyObject createFlushMask) (fun _ => P) E := by
  refine triple_modifyObject fun x hrep => h _ ?_ rfl
  exact ⟨hrep.size_eq, hrep.writable, hrep.head,
    fun i hi => (hrep.byte i hi).congr sameByte_createFlushMask⟩

/-- `flushRangeForRead` over the whole object flushes every byte and changes none. -/
theorem flushRangeForRead_triple :
    Triple (fun x => Rep s n c x.object) (flushRangeForRead 0 n)
      (fun _ x => Rep s n c x.object ∧ ∀ j < n, x.object.isByteFlushed j = true) E := by
  have hcreate : Triple (fun x => Rep s n c x.object) (modifyObject createFlushMask)
      (fun _ => FlushedTo s n c 0) E :=
    createFlushMask_triple fun x hrep hm => ⟨hrep, hm, fun j hj => absurd hj (Nat.not_lt_zero j)⟩
  have hloop : Triple (FlushedTo s n c 0) ((List.range' 0 n).forM flushByteForRead)
      (fun _ => FlushedTo s n c (0 + n)) E :=
    triple_forM_range' n 0 fun i _ hi => flushByteForRead_triple (by omega)
  refine hcreate.bind fun _ => hloop.post fun _ x hx => ⟨hx.1, fun j hj => hx.2.2 j (by omega)⟩

/-- `flushRangeForWrite` over the whole object also empties the caches. -/
theorem flushRangeForWrite_triple :
    Triple (fun x => Rep s n c x.object) (flushRangeForWrite 0 n)
      (fun _ x => Rep s n c x.object ∧ ∀ j < n, x.object.Uncached j) E := by
  have hcreate : Triple (fun x => Rep s n c x.object) (modifyObject createFlushMask)
      (fun _ => UncachedTo s n c 0) E :=
    createFlushMask_triple fun x hrep hm => ⟨hrep, hm, fun j hj => absurd hj (Nat.not_lt_zero j)⟩
  have hloop : Triple (UncachedTo s n c 0) ((List.range' 0 n).forM flushByteForWrite)
      (fun _ => UncachedTo s n c (0 + n)) E :=
    triple_forM_range' n 0 fun i _ hi => flushByteForWrite_triple (by omega)
  refine hcreate.bind fun _ => hloop.post fun _ x hx => ⟨hx.1, fun j hj => hx.2.2 j (by omega)⟩

end Flush

end Klee.ObjectState
