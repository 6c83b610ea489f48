import Klee.Core.ExternalCall
import Klee.Core.ObjectStateContents

/-! What an external call leaves of the memory of a state. -/
namespace Klee

open Hoare

section Objects

variable {os os' os'' : ObjectState} {n i : Nat}

namespace ObjectState

/-- The two objects keep each byte in the same places, and the symbolic places have the same
values. -/
structure SamePlaces (os os' : ObjectState) : Prop where
  size : os'.size = os.size
  readOnly : os'.readOnly = os.readOnly
  head : os'.updatesHead.WellSorted
  concrete : ∀ i, os'.isByteConcrete i = os.isByteConcrete i
  flushed : ∀ i, os'.isByteFlushed i = os.isByteFlushed i
  known : ∀ i, os'.knownSymbolic i = os.knownSymbolic i
  updated : ∀ σ, ∀ i < os.size, os'.updated σ i = os.updated σ i

structure Kept (os os' : ObjectState) : Prop extends SamePlaces os os' where
  store : ∀ i, os.isByteConcrete i = true → os'.concreteStore i = os.concreteStore i

theorem SamePlaces.trans (h : SamePlaces os os') (h' : SamePlaces os' os'') :
    SamePlaces os os'' where
  size := h'.size.trans h.size
  readOnly := h'.readOnly.trans h.readOnly
  head := h'.head
  concrete i := (h'.concrete i).trans (h.concrete i)
  flushed i := (h'.flushed i).trans (h.flushed i)
  known i := (h'.known i).trans (h.known i)
  updated σ i hi := (h'.updated σ i (h.size ▸ hi)).trans (h.updated σ i hi)

theorem Kept.trans (h : Kept os os') (h' : Kept os' os'') : Kept os os'' where
  toSamePlaces := h.toSamePlaces.trans h'.toSamePlaces
  store i hi := (h'.store i ((h.concrete i).trans hi)).trans (h.store i hi)

theorem Kept.refl (h : os.updatesHead.WellSorted) : Kept os os :=
  ⟨⟨rfl, rfl, h, fun _ => rfl, fun _ => rfl, fun _ => rfl, fun _ _ _ => rfl⟩, fun _ _ => rfl⟩

theorem SamePlaces.readable (h : SamePlaces os os') (hr : Readable n os) : Readable n os' where
  size_eq := h.size.trans hr.size_eq
  head := h.head
  cached i hi hf := by
    rw [h.concrete, isByteKnownSymbolic, h.known]
    exact hr.cached i hi (h.flushed i ▸ hf)
  known i hi e he := hr.known i hi e (h.known i ▸ he)

/-- Only the concrete store has changed. -/
theorem samePlaces_copyToStore (h : os.updatesHead.WellSorted) (src : Nat → BitVec 8) :
    SamePlaces os (MemoryMap.copyToStore os src n) :=
  ⟨rfl, rfl, h, fun _ => rfl, fun _ => rfl, fun _ => rfl, fun _ _ _ => rfl⟩

section Kept

variable {E : Fault → Prop}

theorem getUpdates_kept :
    Triple (fun x => Kept os x.object) getUpdates (fun _ x => Kept os x.object) E := by
  refine triple_get_bind fun x h => ?_
  cases hroot : x.object.updatesRoot with
  | some root =>
    refine triple_pure fun y hy => ?_
    subst hy
    exact h
  | none =>
    refine Triple.bind (triple_set fun y _ => ?_) fun _ => triple_pure fun _ h => h
    refine h.trans ⟨⟨rfl, rfl, wellSorted_createUpdates h.head (x.constArrId + 1), fun _ => rfl, fun _ => rfl,
      fun _ => rfl, fun σ i hi => ?_⟩, fun _ _ => rfl⟩
    exact eval_createUpdates hroot h.head hi

theorem read8_kept :
    Triple (fun x => Kept os x.object) (read8 i) (fun _ x => Kept os x.object) (fun _ => True) := by
  refine triple_get_bind fun x h => ?_
  have hx : ∀ y, y = x → Kept os y.object := by
    intro y hy
    rwa [hy]
  refine triple_ite (fun _ => triple_throw trivial) fun _ => ?_
  refine triple_ite (fun _ => triple_pure hx) fun _ => ?_
  cases x.object.knownSymbolic i with
  | some e => exact triple_pure hx
  | none =>
    refine triple_ite (fun _ => ?_) fun _ => triple_throw trivial
    exact (getUpdates_kept.pre hx).bind fun _ => triple_pure fun _ h => h

theorem readAt_kept (isLittleEndian : Bool) (offset : Nat) :
    Triple (fun x => Kept os x.object) (readAt isLittleEndian offset 32)
      (fun _ x => Kept os x.object) (fun _ => True) := by
  have hread : Triple (fun x => Kept os x.object) (readAt isLittleEndian offset 32)
      (fun r x => Kept os x.object ∧
        (False → Denotes none r 32 (ByteMemory.read (fun _ => 0) isLittleEndian offset 32)))
      (fun _ => True) := by
    refine readWidth_triple (.inr ⟨3, rfl⟩) (fun h => by cases h) fun i _ => ?_
    exact read8_kept.post fun _ _ h => ⟨h, fun hfalse => hfalse.elim⟩
  exact hread.post fun _ _ h => h.1

/-- A byte in a symbolic cache is not read from the concrete store. -/
theorem flushToConcreteStore_kept (solver : TimingSolver) (constraints : List Expr)
    (hexclusive : ∀ i, os.isByteConcrete i = true → i < os.size → os.knownSymbolic i = none) :
    Triple (fun x => Kept os x.object) (flushToConcreteStore solver constraints)
      (fun _ x => Kept os x.object) (fun _ => True) := by
  refine triple_get_bind fun x h => ?_
  refine (triple_forM_range (I := fun _ (x : ObjectContext) => Kept os x.object) x.object.size fun i hi => ?_).pre
    fun y hy => by rwa [hy]
  refine triple_get_bind fun y hy => ?_
  refine triple_ite (fun hknown => ?_) fun _ => triple_pure fun z hz => by rwa [hz]
  refine (read8_kept.pre fun z hz => by rwa [hz]).bind fun e => ?_
  cases solver.getValue constraints e with
  | none => exact triple_pure fun z hz => hz
  | some ce =>
    refine triple_modifyObject fun z hz => ?_
    refine hz.trans ⟨⟨rfl, rfl, hz.head, fun _ => rfl, fun _ => rfl, fun _ => rfl,
      fun _ _ _ => rfl⟩, fun j hj => ?_⟩
    refine Function.update_of_ne ?_ _ _
    rintro rfl
    rw [isByteKnownSymbolic, hy.known, hexclusive j ((hz.concrete j).symm.trans hj)
      (h.size ▸ hi)] at hknown
    cases hknown

end Kept

end ObjectState

end Objects

section Maps

open ObjectState

variable {objects objects' : MemoryMap} {p q : ObjectPair} {os : ObjectState}
variable {native : NativeMemory}

/-- Each object of the map has a new state that `R` relates to the old one. -/
def MemoryMap.Updated (R : ObjectPair → ObjectState → Prop) (objects objects' : MemoryMap) : Prop :=
  ∃ g : ObjectPair → ObjectState, objects' = objects.map (fun p => (p.1, g p)) ∧
    ∀ p ∈ objects, R p (g p)

namespace MemoryMap

variable {R R' : ObjectPair → ObjectState → Prop}

theorem Updated.refl (h : ∀ p ∈ objects, R p p.2) : Updated R objects objects :=
  ⟨fun p => p.2, by simp, h⟩

theorem Updated.mono (h : Updated R objects objects') (hR : ∀ p ∈ objects, ∀ os, R p os → R' p os) :
    Updated R' objects objects' := by
  obtain ⟨g, hg, hall⟩ := h
  exact ⟨g, hg, fun p hp => hR p hp _ (hall p hp)⟩

theorem Updated.addresses (h : Updated R objects objects') :
    objects'.map (·.1.address) = objects.map (·.1.address) := by
  obtain ⟨g, rfl, -⟩ := h
  simp

theorem Updated.mem (h : Updated R objects objects') (hp : p ∈ objects) :
    ∃ os', (p.1, os') ∈ objects' ∧ R p os' := by
  obtain ⟨g, rfl, hall⟩ := h
  exact ⟨g p, List.mem_map_of_mem hp, hall p hp⟩

theorem Updated.of_mem (h : Updated R objects objects') (hq : q ∈ objects') :
    ∃ p ∈ objects, q.1 = p.1 ∧ R p q.2 := by
  obtain ⟨g, rfl, hall⟩ := h
  obtain ⟨p, hp, rfl⟩ := List.mem_map.mp hq
  exact ⟨p, hp, rfl, hall p hp⟩

/-- One object gets another state. -/
theorem Updated.replace (h : Updated R objects objects')
    (hnodup : (objects.map (·.1.address)).Nodup) (hp : p ∈ objects) (hos : R p os) :
    Updated R objects (objects'.replace p.1 os) := by
  obtain ⟨g, rfl, hall⟩ := h
  refine ⟨fun r => if r.1.address = p.1.address then os else g r, ?_, fun r hr => ?_⟩
  · rw [MemoryMap.replace, List.map_map]
    refine List.map_congr_left fun r hr => ?_
    dsimp only [Function.comp_apply]
    by_cases heq : r.1.address = p.1.address
    · obtain rfl := List.inj_on_of_nodup_map hnodup hr hp heq
      rw [if_pos rfl, if_pos rfl]
    · rw [if_neg heq, if_neg heq]
  · dsimp only
    by_cases heq : r.1.address = p.1.address
    · rw [if_pos heq]
      obtain rfl := List.inj_on_of_nodup_map hnodup hr hp heq
      exact hos
    · rw [if_neg heq]
      exact hall r hr

section CopyIn

/-- Where `copyInConcretes` stops: a read-only object that the memory of the process does not
agree with. -/
def Halts (native : NativeMemory) (p : ObjectPair) : Prop :=
  p.1.isUserSpecified = false ∧ p.2.readOnly = true ∧
    ∃ i < p.1.size, native.bytes p.1.address i ≠ p.2.concreteStore i

/-- The state that `copyInConcretes` gives an object that it comes to. -/
def copiedObject (native : NativeMemory) (p : ObjectPair) : ObjectState :=
  if p.1.isUserSpecified = true ∨ p.2.readOnly = true then p.2
  else copyToStore p.2 (native.bytes p.1.address) p.1.size

theorem copyToStore_eq_self {src : Nat → BitVec 8} {n : Nat}
    (h : ∀ i < n, src i = os.concreteStore i) : copyToStore os src n = os := by
  have hstore : (fun i => if i < n then src i else os.concreteStore i) = os.concreteStore := by
    funext i
    split
    · exact h i ‹_›
    · rfl
  rw [copyToStore, hstore]

theorem replace_append {pre post : MemoryMap}
    (hnodup : ((pre ++ p :: post).map (·.1.address)).Nodup) :
    (pre ++ p :: post).replace p.1 os = pre ++ (p.1, os) :: post := by
  have hother (r : ObjectPair) (hr : r ∈ pre ∨ r ∈ post) : r.1.address ≠ p.1.address := by
    rw [List.map_append, List.map_cons, List.nodup_middle, List.nodup_cons] at hnodup
    intro heq
    refine hnodup.1 (heq ▸ ?_)
    rw [List.mem_append]
    exact hr.imp List.mem_map_of_mem List.mem_map_of_mem
  have hsame (l : MemoryMap) (hl : ∀ r ∈ l, r ∈ pre ∨ r ∈ post) :
      l.map (fun r => if r.1.address = p.1.address then (p.1, os) else r) = l := by
    refine (List.map_congr_left fun r hr => ?_).trans (List.map_id l)
    exact if_neg (hother r (hl r hr))
  rw [MemoryMap.replace, List.map_append, List.map_cons, if_pos rfl,
    hsame pre fun _ hr => .inl hr, hsame post fun _ hr => .inr hr]

/-- The loop leaves the objects from the first one on that it stops at. -/
theorem copyInFrom_spec (native : NativeMemory) (ps pre : MemoryMap)
    (hnodup : ((pre ++ ps).map (·.1.address)).Nodup) :
    ∃ done rest, ps = done ++ rest ∧ (∀ p ∈ done, ¬ Halts native p) ∧
      (∀ p ∈ rest.head?, Halts native p) ∧
      (copyInFrom native ps (pre ++ ps)).2 =
        pre ++ (done.map fun p => (p.1, copiedObject native p)) ++ rest := by
  induction ps generalizing pre with
  | nil => exact ⟨[], [], rfl, by simp, by simp, by simp [copyInFrom]⟩
  | cons p ps ih =>
    -- the loop goes on with the new state of the object
    have hnext (os : ObjectState) (hos : os = copiedObject native p) (hhalt : ¬ Halts native p)
        (hstep : copyInFrom native (p :: ps) (pre ++ p :: ps) =
          copyInFrom native ps (pre ++ (p.1, os) :: ps)) :
        ∃ done rest, p :: ps = done ++ rest ∧ (∀ p ∈ done, ¬ Halts native p) ∧
          (∀ p ∈ rest.head?, Halts native p) ∧
          (copyInFrom native (p :: ps) (pre ++ p :: ps)).2 =
            pre ++ (done.map fun p => (p.1, copiedObject native p)) ++ rest := by
      obtain ⟨done, rest, hps, hdone, hrest, heq⟩ := ih (pre ++ [(p.1, os)]) (by simpa using hnodup)
      refine ⟨p :: done, rest, by rw [hps, List.cons_append], ?_, hrest, ?_⟩
      · intro r hr
        cases List.mem_cons.mp hr with
        | inl h => rwa [h]
        | inr h => exact hdone r h
      · rw [List.append_assoc, List.singleton_append] at heq
        rw [hstep, heq, hos]
        simp
    by_cases huser : p.1.isUserSpecified = true
    · refine hnext p.2 (by simp [copiedObject, huser]) (fun h => ?_) (by simp [copyInFrom, huser])
      cases huser.symm.trans h.1
    · have huser : p.1.isUserSpecified = false := by simpa using huser
      by_cases hsame : ∀ i < p.1.size, native.bytes p.1.address i = p.2.concreteStore i
      · refine hnext p.2 ?_ (fun h => ?_) ?_
        · rw [copiedObject, copyToStore_eq_self hsame, ite_self]
        · obtain ⟨-, -, i, hi, hne⟩ := h
          exact hne (hsame i hi)
        · simp [copyInFrom, huser, copyInConcrete, if_pos hsame]
      · by_cases hro : p.2.readOnly = true
        · refine ⟨[], p :: ps, rfl, by simp, fun r hr => ?_, ?_⟩
          · obtain rfl : p = r := by simpa using hr
            refine ⟨huser, hro, ?_⟩
            simpa using hsame
          · simp [copyInFrom, huser, copyInConcrete, if_neg hsame, hro]
        · have hro : p.2.readOnly = false := by simpa using hro
          refine hnext (copyToStore p.2 (native.bytes p.1.address) p.1.size) ?_ (fun h => ?_) ?_
          · simp [copiedObject, huser, hro]
          · cases hro.symm.trans h.2.1
          · simp [copyInFrom, huser, copyInConcrete, if_neg hsame, hro, replace_append hnodup]

end CopyIn

end MemoryMap

end Maps

namespace ExternalCall

open ObjectState

/-- What the executor keeps of every state: the map is ordered, each object is a byte memory
under each assignment, and only concrete objects are read-only. -/
structure WellFormed (objects : MemoryMap) : Prop where
  sorted : objects.Sorted
  represents : ∀ p ∈ objects, ∀ σ, ∃ c,
    Rep (some σ) p.1.size c { p.2 with readOnly := false }
  readOnly : ∀ p ∈ objects, p.2.readOnly = true → ∀ i < p.1.size, p.2.isByteConcrete i = true

variable {c : ExternalCall} {constraints : List Expr} {objects : MemoryMap} {p : ObjectPair}

theorem WellFormed.readable (h : WellFormed objects) (hp : p ∈ objects) :
    Readable p.1.size p.2 := by
  obtain ⟨m, hm⟩ := h.represents p hp fun _ _ => 0
  exact hm.readable

theorem WellFormed.exclusive (h : WellFormed objects) (hp : p ∈ objects) (i : Nat)
    (hc : p.2.isByteConcrete i = true) (hi : i < p.2.size) : p.2.knownSymbolic i = none := by
  obtain ⟨m, hm⟩ := h.represents p hp fun _ _ => 0
  exact (hm.byte i (hm.size_eq ▸ hi)).exclusive hc

section Triples

def AllKept (objects objects' : MemoryMap) : Prop :=
  objects.Updated (fun p os => Kept p.2 os) objects'

variable {α : Type}

theorem onObject_triple (hwf : WellFormed objects) {x : ObjectM α}
    (hx : ∀ q ∈ objects, Triple (fun y => Kept q.2 y.object) x (fun _ y => Kept q.2 y.object)
      fun _ => True) :
    Triple (fun st => AllKept objects st.objects ∧ p ∈ st.objects) (onObject p x)
      (fun r st => AllKept objects st.objects ∧ (p.1, r.2) ∈ st.objects) (fun _ => True) := by
  refine triple_get_bind fun st hst => ?_
  obtain ⟨hkept, hp⟩ := hst
  obtain ⟨q, hq, hqp, hos⟩ := hkept.of_mem hp
  have hrun := hx q hq ⟨p.2, st.constArrId⟩ hos
  cases hr : x ⟨p.2, st.constArrId⟩ with
  | error f => exact triple_throw trivial
  | ok r =>
    obtain ⟨a, y⟩ := r
    rw [hr] at hrun
    refine Triple.bind (triple_set fun _ _ => ?_) fun _ => triple_pure fun _ h => h
    have hnew := hkept.replace hwf.sorted.nodup hq hrun
    rw [hqp]
    refine ⟨hnew, ?_⟩
    have hmem := List.mem_map_of_mem (f := fun r : ObjectPair =>
      if r.1.address = q.1.address then (q.1, y.object) else r) hp
    rwa [hqp, if_pos rfl] at hmem

theorem toMemory_triple {P : ExternalContext → Prop} (ce : ConstantExpr) :
    Triple P (toMemory ce) (fun _ => P) (fun _ => True) :=
  triple_ite (fun _ => triple_pure fun _ h => h) fun _ => triple_throw trivial

theorem flushArgument_triple (hwf : WellFormed objects) (ce : ConstantExpr) :
    Triple (fun st => AllKept objects st.objects) (flushArgument c constraints ce)
      (fun _ st => AllKept objects st.objects) (fun _ => True) := by
  refine triple_get_bind fun st hst => ?_
  cases hp : if ce.width = 64 then st.objects.resolveOne (ce.value.setWidth 64) else none with
  | none => exact triple_pure fun _ h => h ▸ hst
  | some p =>
    have hmem : p ∈ st.objects := by
      split at hp
      · exact (MemoryMap.mem_of_resolveOne hp).1
      · cases hp
    refine ((onObject_triple hwf fun q hq => ?_).pre fun st' h => ?_).bind fun _ =>
      triple_pure fun _ h => h.1
    · exact flushToConcreteStore_kept c.solver constraints (hwf.exclusive hq)
    · exact h ▸ ⟨hst, hmem⟩

theorem evalArgument_triple (hwf : WellFormed objects) (e : Expr) :
    Triple (fun st => AllKept objects st.objects) (evalArgument c constraints e)
      (fun _ st => AllKept objects st.objects) (fun _ => True) := by
  refine triple_ite (fun _ => ?_) fun _ => ?_
  · cases c.solver.getValue constraints (c.optimizeExpr e true) with
    | none => exact triple_throw trivial
    | some ce =>
      exact (toMemory_triple ce).bind fun _ => (flushArgument_triple hwf ce).bind fun _ =>
        triple_pure fun _ h => h
  · split
    · exact (toMemory_triple _).bind fun _ => triple_pure fun _ h => h
    · exact triple_pure fun _ h => h

theorem evalArguments_triple (hwf : WellFormed objects) (es : List Expr) :
    Triple (fun st => AllKept objects st.objects) (evalArguments c constraints es)
      (fun _ st => AllKept objects st.objects) (fun _ => True) := by
  induction es with
  | nil => exact triple_pure fun _ h => h
  | cons e es ih =>
    refine (evalArgument_triple hwf e).bind fun r => ?_
    cases r with
    | none => exact triple_pure fun _ h => h
    | some ce => exact ih.bind fun _ => triple_pure fun _ h => h

/-- What the call makes of the objects: from objects with the same bytes, `copyInConcretes` and
then the bytes of `errno`. -/
def CallEffect (objects : MemoryMap) (st' : ExternalContext) : Prop :=
  ∃ mid result src, AllKept objects mid ∧ result ∈ mid ∧ result.1.isUserSpecified = true ∧
    st'.objects = ((mid.copyInConcretes st'.native).2.copyInConcrete result src).2

theorem callNative_triple {args : List ConstantExpr} {errno : BitVec 32}
    (hp : p.1.isUserSpecified = true) :
    Triple (fun st => AllKept objects st.objects ∧ p ∈ st.objects) (callNative c args p errno)
      (fun r st' => r = .continues → CallEffect objects st') (fun _ => True) := by
  refine triple_get_bind fun st hst => ?_
  cases c.executeCall args errno st.native with
  | none => exact triple_pure fun _ _ h => by cases h
  | some r =>
    refine Triple.bind (Q := fun _ st' => CallEffect objects st') (triple_set fun _ _ => ?_)
      fun _ => triple_pure fun _ h _ => h
    exact ⟨st.objects, p, _, hst.1, hst.2, hp, rfl⟩

theorem callExternalFunction_triple (hwf : WellFormed objects)
    (herrno : ∀ q ∈ objects, q.1.Contains c.errnoAddr → q.1.isUserSpecified = true)
    (arguments : List Expr) :
    Triple (fun st => AllKept objects st.objects) (callExternalFunction c constraints arguments)
      (fun r st' => r = .continues → CallEffect objects st') (fun _ => True) := by
  refine triple_ite (fun _ => triple_pure fun _ _ h => by cases h) fun _ => ?_
  refine (evalArguments_triple hwf arguments).bind fun args => ?_
  cases args with
  | none => exact triple_pure fun _ _ h => by cases h
  | some args =>
    refine Triple.bind (Q := fun _ (st : ExternalContext) => AllKept objects st.objects)
      (triple_modify fun _ h => h) fun _ => triple_get_bind fun st hst => ?_
    cases hp : st.objects.resolveOne c.errnoAddr with
    | none => exact triple_throw trivial
    | some p =>
      obtain ⟨hmem, hcontains⟩ := MemoryMap.mem_of_resolveOne hp
      obtain ⟨q, hq, hqp, -⟩ := hst.of_mem hmem
      have huser : p.1.isUserSpecified = true := by
        rw [hqp] at hcontains ⊢
        exact herrno q hq hcontains
      refine ((onObject_triple hwf fun q _ => readAt_kept c.isLittleEndian 0).pre
        fun st' h => ?_).bind fun r => ?_
      · exact h ▸ ⟨hst, hmem⟩
      · obtain ⟨e, os⟩ := r
        dsimp only
        split
        · exact callNative_triple (p := (p.1, os)) huser
        · exact triple_pure fun _ _ h => by cases h

end Triples

section Synchronised

variable {st st' : ExternalContext} {os os' : ObjectState} {native : NativeMemory}

/-- Every read of byte `i` gives the value `v`, at the constant offset and at a symbolic offset
that evaluates to it. -/
def ReadsByte (os : ObjectState) (σ : Assignment) (i : Nat) (v : BitVec 8) : Prop :=
  (∀ constArrId, ∃ e x, read8 i ⟨os, constArrId⟩ = .ok (e, x) ∧ e.eval σ 8 = v) ∧
    ∀ offset : Expr, offset.WellSorted → offset.width = 32 → offset.isConstant = false →
      (offset.eval σ 32).toNat = i → ∀ constArrId,
        ∃ e x, read8Expr offset ⟨os, constArrId⟩ = .ok (e, x) ∧ e.eval σ 8 = v

/-- An expression that is no constant and has the value `i`. -/
theorem exists_symbolicOffset {i : Nat} (hi : i < 2 ^ 32) (σ : Assignment) : ∃ offset : Expr,
    offset.WellSorted ∧ offset.width = 32 ∧ offset.isConstant = false ∧
      (offset.eval σ 32).toNat = i := by
  refine ⟨.notOptimized (offsetExpr i), (offsetExpr_wellSorted i).1, rfl, rfl, ?_⟩
  have heval : (Expr.notOptimized (offsetExpr i)).eval σ 32 = BitVec.ofNat 32 i := by
    rw [Expr.eval, offsetExpr, Expr.eval]
    exact BitVec.setWidth_eq _
  rw [heval, BitVec.toNat_ofNat, Nat.mod_eq_of_lt hi]

/-- The two kinds of reads find the byte in two places. -/
theorem readsByte_iff {n i : Nat} {σ : Assignment} {v : BitVec 8} (h : Readable n os) (hi : i < n) :
    ReadsByte os σ i v ↔ os.contents σ i = v ∧ os.symbolicContents σ i = v := by
  have hlt : i < 2 ^ 32 := hi.trans (h.size_eq ▸ os.size_lt)
  constructor
  · rintro ⟨hconst, hsym⟩
    constructor
    · obtain ⟨e, x, hread, hval⟩ := hconst 0
      obtain ⟨e', x', hread', hval'⟩ := read8_contents h hi 0 (σ := σ)
      obtain ⟨rfl, rfl⟩ := Prod.mk.inj (Except.ok.inj (hread.symm.trans hread'))
      exact hval'.symm.trans hval
    · obtain ⟨offset, hws, hw, hne, hoffset⟩ := exists_symbolicOffset hlt σ
      obtain ⟨e, x, hread, hval⟩ := hsym offset hws hw hne hoffset 0
      obtain ⟨e', x', hread', hval'⟩ := read8Expr_contents h hws hw hne (hoffset ▸ hi) 0
      obtain ⟨rfl, rfl⟩ := Prod.mk.inj (Except.ok.inj (hread.symm.trans hread'))
      rw [hoffset] at hval'
      exact hval'.symm.trans hval
  · rintro ⟨hcontents, hsymbolic⟩
    refine ⟨fun id => ?_, fun offset hws hw hne hoffset id => ?_⟩
    · obtain ⟨e, x, hread, hval⟩ := read8_contents h hi id (σ := σ)
      exact ⟨e, x, hread, hval.trans hcontents⟩
    · obtain ⟨e, x, hread, hval⟩ := read8Expr_contents h hws hw hne (hoffset ▸ hi) id
      rw [hoffset] at hval
      exact ⟨e, x, hread, hval.trans hsymbolic⟩

structure Synchronised (objects : MemoryMap) (st' : ExternalContext) : Prop where
  concrete : ∀ p ∈ objects, p.1.isUserSpecified = false → p.2.readOnly = false →
    ∀ i < p.1.size, p.2.isByteConcrete i = true → ∃ os', (p.1, os') ∈ st'.objects ∧
      ∀ σ, ReadsByte os' σ i (st'.native.bytes p.1.address i)
  symbolic : ∀ p ∈ objects, ∀ i < p.1.size, p.2.isByteConcrete i = false →
    ∃ os', (p.1, os') ∈ st'.objects ∧ ∀ σ v, ReadsByte p.2 σ i v → ReadsByte os' σ i v
  readOnly : ∀ p ∈ objects, p.2.readOnly = true → ∃ os', (p.1, os') ∈ st'.objects ∧
    os'.readOnly = true ∧ ∀ i < p.1.size, ∀ σ v, ReadsByte p.2 σ i v → ReadsByte os' σ i v

/-- No changed byte is in the updates too, or in an object that `copyInConcretes` does not come
to. -/
def CopiesIn (objects : MemoryMap) (native : NativeMemory) : Prop :=
  ∀ pre p post, objects = pre ++ p :: post → p.1.isUserSpecified = false → p.2.readOnly = false →
    ∀ i < p.1.size, p.2.isByteConcrete i = true →
      native.bytes p.1.address i ≠ p.2.concreteStore i →
        p.2.isByteFlushed i = false ∧ ∀ q ∈ pre, ¬ MemoryMap.Halts native q

def NotCopied (native : NativeMemory) (pre : MemoryMap) (p : ObjectPair) : Prop :=
  p.2.readOnly = true ∨ ∃ q ∈ pre, MemoryMap.Halts native q

/-- The object `p` after the call. -/
structure AfterCall (native : NativeMemory) (pre : MemoryMap) (p : ObjectPair)
    (os' : ObjectState) : Prop where
  places : SamePlaces p.2 os'
  copied : p.1.isUserSpecified = false → ¬ NotCopied native pre p →
    ∀ i < p.1.size, os'.concreteStore i = native.bytes p.1.address i
  kept : p.1.isUserSpecified = false → NotCopied native pre p →
    ∀ i, p.2.isByteConcrete i = true → os'.concreteStore i = p.2.concreteStore i
  readOnly : p.2.readOnly = true →
    ∀ i, p.2.isByteConcrete i = true → os'.concreteStore i = p.2.concreteStore i

theorem halts_iff (hwf : WellFormed objects) (hp : p ∈ objects) (hk : Kept p.2 os) :
    MemoryMap.Halts native (p.1, os) ↔ MemoryMap.Halts native p := by
  unfold MemoryMap.Halts
  dsimp only
  rw [hk.readOnly]
  refine and_congr_right fun _ => and_congr_right fun hro => exists_congr fun i =>
    and_congr_right fun hi => ?_
  rw [hk.store i (hwf.readOnly p hp hro i hi)]

theorem afterCall_copied (hk : Kept p.2 os) {pre : MemoryMap} (hpre : ¬ NotCopied native pre p) :
    AfterCall native pre p (MemoryMap.copiedObject native (p.1, os)) := by
  have hro : os.readOnly = false := by
    rw [NotCopied, not_or] at hpre
    rw [hk.readOnly]
    simpa using hpre.1
  have hnotRo (h : p.2.readOnly = true) : False := hpre (.inl h)
  unfold MemoryMap.copiedObject
  by_cases huser : p.1.isUserSpecified = true
  · rw [if_pos (.inl huser)]
    have hnot (h : p.1.isUserSpecified = false) : False := by
      cases huser.symm.trans h
    exact ⟨hk.toSamePlaces, fun h => (hnot h).elim, fun h => (hnot h).elim,
      fun h => (hnotRo h).elim⟩
  · rw [if_neg (by simp [huser, hro])]
    refine ⟨hk.toSamePlaces.trans (samePlaces_copyToStore hk.head _), fun _ _ i hi => if_pos hi,
      fun _ h => absurd h hpre, fun h => (hnotRo h).elim⟩

theorem afterCall_kept (hk : Kept p.2 os) {pre : MemoryMap} (hpre : NotCopied native pre p) :
    AfterCall native pre p os :=
  ⟨hk.toSamePlaces, fun _ h => absurd hpre h, fun _ _ => hk.store, fun _ => hk.store⟩

theorem copyInConcretes_object (native : NativeMemory) (hwf : WellFormed objects) {mid : MemoryMap}
    (hmid : AllKept objects mid) {pre post : MemoryMap} (hsplit : objects = pre ++ p :: post) :
    ∃ os', (p.1, os') ∈ (mid.copyInConcretes native).2 ∧ AfterCall native pre p os' := by
  have hnodup : (mid.map (·.1.address)).Nodup := hmid.addresses ▸ hwf.sorted.nodup
  obtain ⟨done, rest, heq, hdone, hrest, hcopied⟩ :=
    MemoryMap.copyInFrom_spec native mid [] (by simpa using hnodup)
  obtain ⟨g, hg, hall⟩ := hmid
  have hmem (q : ObjectPair) (hq : q ∈ pre ∨ q = p) : q ∈ objects := by
    rw [hsplit]
    cases hq with
    | inl hq => exact List.mem_append_left _ hq
    | inr hq => exact List.mem_append_right _ (hq ▸ List.mem_cons_self)
  have hhalts (q : ObjectPair) (hq : q ∈ pre ∨ q = p) :
      MemoryMap.Halts native (q.1, g q) ↔ MemoryMap.Halts native q :=
    halts_iff hwf (hmem q hq) (hall q (hmem q hq))
  have hk : Kept p.2 (g p) := hall p (hmem p (.inr rfl))
  rw [hg, hsplit, List.map_append, List.map_cons] at heq
  rw [MemoryMap.copyInConcretes]
  rw [List.nil_append, List.nil_append] at hcopied
  rw [hcopied]
  -- the first object that the loop does not come to
  have hstopped (l : MemoryMap) (hl : rest = l ++ (p.1, g p) :: post.map fun r => (r.1, g r))
      (hpre : ∀ q ∈ l, ∃ r ∈ pre, q = (r.1, g r)) :
      ∃ os', (p.1, os') ∈ done.map (fun q => (q.1, MemoryMap.copiedObject native q)) ++ rest ∧
        AfterCall native pre p os' := by
    refine ⟨g p, List.mem_append_right _ ?_, afterCall_kept hk ?_⟩
    · rw [hl]
      exact List.mem_append_right _ List.mem_cons_self
    · cases l with
      | nil =>
        have hhalt := hrest (p.1, g p) (by rw [hl]; rfl)
        exact .inl ((hhalts p (.inr rfl)).mp hhalt).2.1
      | cons q l =>
        obtain ⟨r, hr, rfl⟩ := hpre q List.mem_cons_self
        have hhalt := hrest (r.1, g r) (by rw [hl]; rfl)
        exact .inr ⟨r, hr, (hhalts r (.inl hr)).mp hhalt⟩
  cases List.append_eq_append_iff.mp heq with
  | inl h =>
    obtain ⟨l, hl, hlrest⟩ := h
    cases l with
    | nil => exact hstopped [] (by simpa using hlrest.symm) (by simp)
    | cons q l =>
      rw [List.cons_append] at hlrest
      obtain ⟨rfl, hlrest⟩ := List.cons.inj hlrest
      have hdone' (r : ObjectPair) (hr : r ∈ pre ∨ r = p) : ¬ MemoryMap.Halts native r := by
        rw [← hhalts r hr]
        refine hdone _ ?_
        rw [hl]
        cases hr with
        | inl hr => exact List.mem_append_left _ (List.mem_map_of_mem hr)
        | inr hr => exact List.mem_append_right _ (hr ▸ List.mem_cons_self)
      by_cases hnot : NotCopied native pre p
      · -- a read-only object that agrees with the memory of the process
        refine ⟨g p, List.mem_append_left _ (List.mem_map.mpr ⟨(p.1, g p), ?_, ?_⟩),
          afterCall_kept hk hnot⟩
        · rw [hl]
          exact List.mem_append_right _ List.mem_cons_self
        · cases hnot with
          | inl hro =>
            rw [MemoryMap.copiedObject, if_pos (.inr (hk.readOnly.trans hro))]
          | inr hq =>
            obtain ⟨q, hq, hhalt⟩ := hq
            exact absurd hhalt (hdone' q (.inl hq))
      · refine ⟨_, List.mem_append_left _ (List.mem_map.mpr ⟨(p.1, g p), ?_, rfl⟩),
          afterCall_copied hk hnot⟩
        rw [hl]
        exact List.mem_append_right _ List.mem_cons_self
  | inr h =>
    obtain ⟨l, hl, hlrest⟩ := h
    refine hstopped l hlrest fun q hq => ?_
    have hq' : q ∈ pre.map fun r => (r.1, g r) := by
      rw [hl]
      exact List.mem_append_right _ hq
    obtain ⟨r, hr, rfl⟩ := List.mem_map.mp hq'
    exact ⟨r, hr, rfl⟩

theorem addresses_copyInConcretes (native : NativeMemory) (hwf : WellFormed objects) {mid : MemoryMap}
    (hmid : AllKept objects mid) :
    ((mid.copyInConcretes native).2.map (·.1.address)) = objects.map (·.1.address) := by
  have hnodup : (mid.map (·.1.address)).Nodup := hmid.addresses ▸ hwf.sorted.nodup
  obtain ⟨done, rest, heq, -, -, hcopied⟩ :=
    MemoryMap.copyInFrom_spec native mid [] (by simpa using hnodup)
  rw [List.nil_append, List.nil_append] at hcopied
  rw [MemoryMap.copyInConcretes, hcopied, ← hmid.addresses, heq]
  simp

theorem addresses_replace {mo : MemoryObject} :
    (objects.replace mo os).map (·.1.address) = objects.map (·.1.address) := by
  rw [MemoryMap.replace, List.map_map]
  refine List.map_congr_left fun q _ => ?_
  dsimp only [Function.comp_apply]
  split
  · exact (‹_› : _ = _).symm
  · rfl

/-- Each object has one state after the call. -/
theorem CallEffect.object (hwf : WellFormed objects) (h : CallEffect objects st')
    {pre post : MemoryMap} (hsplit : objects = pre ++ p :: post) :
    ∃ os', AfterCall st'.native pre p os' ∧ ∀ os, (p.1, os) ∈ st'.objects ↔ os = os' := by
  obtain ⟨mid, result, src, hmid, hresult, huser, hobjects⟩ := h
  have hp : p ∈ objects := by
    rw [hsplit]
    exact List.mem_append_right _ List.mem_cons_self
  have haddresses := addresses_copyInConcretes st'.native hwf hmid
  -- it is enough to find one
  have hfound (os' : ObjectState) (hafter : AfterCall st'.native pre p os')
      (hmem : (p.1, os') ∈ st'.objects)
      (hlist : st'.objects.map (·.1.address) = objects.map (·.1.address)) :
      ∃ os', AfterCall st'.native pre p os' ∧ ∀ os, (p.1, os) ∈ st'.objects ↔ os = os' := by
    refine ⟨os', hafter, fun os => ⟨fun hos => ?_, fun hos => hos ▸ hmem⟩⟩
    have hnodup : (st'.objects.map (·.1.address)).Nodup := hlist ▸ hwf.sorted.nodup
    exact congrArg Prod.snd (List.inj_on_of_nodup_map hnodup hos hmem rfl)
  obtain ⟨os', hmem, hafter⟩ := copyInConcretes_object st'.native hwf hmid hsplit
  unfold MemoryMap.copyInConcrete at hobjects
  split at hobjects
  · exact hfound os' hafter (hobjects ▸ hmem) (hobjects ▸ haddresses)
  · split at hobjects
    · exact hfound os' hafter (hobjects ▸ hmem) (hobjects ▸ haddresses)
    · rename_i hwritable
      have hlist : st'.objects.map (·.1.address) = objects.map (·.1.address) := by
        rw [hobjects]
        exact addresses_replace.trans haddresses
      by_cases heq : p.1.address = result.1.address
      · -- the object of `errno`
        obtain ⟨q, hq, hqmo, hk⟩ := hmid.of_mem hresult
        obtain rfl : p = q := hwf.sorted.eq_of_address hp hq (heq.trans (congrArg _ hqmo))
        rw [hqmo] at huser
        have hnot (hfalse : p.1.isUserSpecified = false) : False := by
          cases huser.symm.trans hfalse
        refine hfound (MemoryMap.copyToStore result.2 src result.1.size)
          ⟨hk.toSamePlaces.trans (samePlaces_copyToStore hk.head _), fun h => (hnot h).elim,
            fun h => (hnot h).elim, fun h => absurd (hk.readOnly.trans h) hwritable⟩ ?_ hlist
        rw [hobjects]
        refine List.mem_map.mpr ⟨_, hmem, ?_⟩
        rw [if_pos heq, hqmo]
      · refine hfound os' hafter ?_ hlist
        rw [hobjects]
        refine List.mem_map.mpr ⟨_, hmem, ?_⟩
        rw [if_neg heq]

theorem AfterCall.symbolic {pre : MemoryMap} (h : AfterCall native pre p os')
    (hr : Readable p.1.size p.2) {i : Nat} (hi : i < p.1.size)
    (hstore : p.2.isByteConcrete i = true → os'.concreteStore i = p.2.concreteStore i)
    {σ : Assignment} {v : BitVec 8} (hv : ReadsByte p.2 σ i v) : ReadsByte os' σ i v := by
  have hupdated : os'.updated σ i = p.2.updated σ i := h.places.updated σ i (hr.size_eq ▸ hi)
  have hcontents : os'.contents σ i = p.2.contents σ i :=
    contents_congr (h.places.concrete i) (h.places.known i) hupdated hstore
  rw [readsByte_iff (h.places.readable hr) hi, hcontents, symbolicContents, h.places.flushed,
    hupdated, hcontents]
  exact (readsByte_iff hr hi).mp hv

theorem AfterCall.concrete_iff (hwf : WellFormed objects) {pre post : MemoryMap}
    (hsplit : objects = pre ++ p :: post) (h : AfterCall native pre p os')
    (huser : p.1.isUserSpecified = false) (hro : p.2.readOnly = false) {i : Nat}
    (hi : i < p.1.size) (hc : p.2.isByteConcrete i = true) :
    (∀ σ, ReadsByte os' σ i (native.bytes p.1.address i)) ↔
      (native.bytes p.1.address i ≠ p.2.concreteStore i →
        p.2.isByteFlushed i = false ∧ ∀ q ∈ pre, ¬ MemoryMap.Halts native q) := by
  have hp : p ∈ objects := by
    rw [hsplit]
    exact List.mem_append_right _ List.mem_cons_self
  have hr := hwf.readable hp
  have hr' := h.places.readable hr
  have hcontents (σ : Assignment) : os'.contents σ i = os'.concreteStore i :=
    contents_of_concrete ((h.places.concrete i).trans hc)
  have hsymbolic (σ : Assignment) : os'.symbolicContents σ i =
      if p.2.isByteFlushed i = true then p.2.concreteStore i else os'.concreteStore i := by
    rw [symbolicContents, h.places.flushed, h.places.updated σ i (hr.size_eq ▸ hi), hcontents]
    by_cases hf : p.2.isByteFlushed i = true
    · obtain ⟨m, hm⟩ := hwf.represents p hp σ
      have hold := hm.symbolicContents_eq hi
      rw [symbolicContents, if_pos hf, contents_of_concrete hc] at hold
      rw [if_pos hf, if_pos hf, hold]
    · rw [if_neg hf, if_neg hf]
  have hnot : NotCopied native pre p ↔ ∃ q ∈ pre, MemoryMap.Halts native q := by
    rw [NotCopied, hro]
    simp
  constructor
  · intro hreads hchanged
    obtain ⟨hstore, hupdates⟩ := (readsByte_iff hr' hi).mp (hreads fun _ _ => 0)
    rw [hcontents] at hstore
    constructor
    · rw [hsymbolic] at hupdates
      by_contra hf
      rw [if_pos (by simpa using hf)] at hupdates
      exact hchanged hupdates.symm
    · intro q hq hhalt
      have hold := h.kept huser (hnot.mpr ⟨q, hq, hhalt⟩) i hc
      exact hchanged (hstore.symm.trans hold)
  · intro hcopies σ
    rw [readsByte_iff hr' hi, hcontents, hsymbolic]
    by_cases hchanged : native.bytes p.1.address i = p.2.concreteStore i
    · have hstore : os'.concreteStore i = native.bytes p.1.address i := by
        by_cases hn : NotCopied native pre p
        · exact (h.kept huser hn i hc).trans hchanged.symm
        · exact h.copied huser hn i hi
      rw [hstore, hchanged, ite_self]
      exact ⟨rfl, rfl⟩
    · obtain ⟨hf, hpre⟩ := hcopies hchanged
      have hn : ¬ NotCopied native pre p := by
        rw [hnot]
        rintro ⟨q, hq, hhalt⟩
        exact hpre q hq hhalt
      rw [hf, h.copied huser hn i hi]
      exact ⟨rfl, rfl⟩

theorem synchronised_iff (hwf : WellFormed objects) (h : CallEffect objects st') :
    Synchronised objects st' ↔ CopiesIn objects st'.native := by
  constructor
  · intro hsync pre p post hsplit huser hro i hi hc
    have hp : p ∈ objects := by
      rw [hsplit]
      exact List.mem_append_right _ List.mem_cons_self
    obtain ⟨os', hafter, hos'⟩ := h.object hwf hsplit
    obtain ⟨os, hos, hreads⟩ := hsync.concrete p hp huser hro i hi hc
    rw [(hos' os).mp hos] at hreads
    exact (hafter.concrete_iff hwf hsplit huser hro hi hc).mp hreads
  · intro hcopies
    have hobject (p : ObjectPair) (hp : p ∈ objects) : ∃ pre post os', objects = pre ++ p :: post ∧
        AfterCall st'.native pre p os' ∧ (p.1, os') ∈ st'.objects := by
      obtain ⟨pre, post, hsplit⟩ := List.append_of_mem hp
      obtain ⟨os', hafter, hos'⟩ := h.object hwf hsplit
      exact ⟨pre, post, os', hsplit, hafter, (hos' os').mpr rfl⟩
    refine ⟨fun p hp huser hro i hi hc => ?_, fun p hp i hi hc => ?_, fun p hp hro => ?_⟩
    · obtain ⟨pre, post, os', hsplit, hafter, hmem⟩ := hobject p hp
      exact ⟨os', hmem, (hafter.concrete_iff hwf hsplit huser hro hi hc).mpr
        (hcopies pre p post hsplit huser hro i hi hc)⟩
    · obtain ⟨pre, post, os', hsplit, hafter, hmem⟩ := hobject p hp
      refine ⟨os', hmem, fun σ v hv => hafter.symbolic (hwf.readable hp) hi (fun hc' => ?_) hv⟩
      cases hc.symm.trans hc'
    · obtain ⟨pre, post, os', hsplit, hafter, hmem⟩ := hobject p hp
      exact ⟨os', hmem, hafter.places.readOnly.trans hro, fun i hi σ v hv =>
        hafter.symbolic (hwf.readable hp) hi (hafter.readOnly hro i) hv⟩

/-- The objects agree with the memory of the process after a call that lets the state continue,
exactly when no byte that it has changed was flushed to the updates before, and no read-only
object stops the copying before an object with a changed byte. -/
theorem callExternalFunction_synchronised_iff (c : ExternalCall) (constraints : List Expr)
    (arguments : List Expr) (st st' : ExternalContext) (hwf : WellFormed st.objects)
    (herrno : ∀ p ∈ st.objects, p.1.Contains c.errnoAddr → p.1.isUserSpecified = true)
    (hcall : callExternalFunction c constraints arguments st = .ok (.continues, st')) :
    Synchronised st.objects st' ↔ CopiesIn st.objects st'.native := by
  have hkept : AllKept st.objects st.objects :=
    .refl fun p hp => .refl (hwf.readable hp).head
  exact synchronised_iff hwf
    ((callExternalFunction_triple hwf herrno arguments).of_ok hkept hcall rfl)

end Synchronised

section Example

theorem exampleSize_lt : 1 < 2 ^ 32 := by decide

def exampleObject (flushed : Bool) : ObjectState :=
  if flushed then
    { ofMemoryObject 1 exampleSize_lt with
      flushMask := some fun _ => false
      updatesHead := .node .null (offsetExpr 0) (.constant ⟨8, 0⟩) }
  else ofMemoryObject 1 exampleSize_lt

/-- `errno` and a byte. -/
def exampleContext (flushed : Bool) : ExternalContext where
  objects := [(⟨4096, 4, true⟩, ofMemoryObject 4 (by decide)),
    (⟨8192, 1, false⟩, exampleObject flushed)]
  native := fun _ => 0
  constArrId := 0

noncomputable def exampleCall : ExternalCall where
  function := "f"
  externalCalls := .concrete
  solver := .ideal
  optimizeExpr := fun e _ => e
  errnoAddr := 4096
  isLittleEndian := true
  executeCall := fun _ errno native => some ⟨Function.update native 8192 1, errno⟩

theorem exampleCall_continues (flushed : Bool) : ∃ st',
    callExternalFunction exampleCall [] [] (exampleContext flushed) = .ok (.continues, st') ∧
      st'.native.bytes 8192 0 = 1 := by
  cases flushed with
  | true => exact ⟨_, rfl, rfl⟩
  | false => exact ⟨_, rfl, rfl⟩

theorem represents_exampleObject (flushed : Bool) (s : Option Assignment) :
    Rep s 1 (fun _ => 0) { exampleObject flushed with readOnly := false } := by
  cases flushed with
  | false => exact rep_concrete rfl rfl trivial rfl rfl rfl rfl
  | true =>
    refine ⟨rfl, rfl, ⟨trivial, offsetExpr_wellSorted 0, Nat.succ_pos 7, rfl⟩, fun i hi => ?_⟩
    obtain rfl : i = 0 := by omega
    refine ⟨fun _ => .inl rfl, fun _ => rfl, fun _ _ => rfl, fun e he => ?_, fun _ σ _ => rfl⟩
    cases he

theorem writable_exampleContext (flushed : Bool) (p : ObjectPair)
    (hp : p ∈ (exampleContext flushed).objects) : p.2.readOnly = false := by
  cases List.mem_cons.mp hp with
  | inl h =>
    rw [h]
    rfl
  | inr h =>
    rw [List.mem_singleton.mp h]
    cases flushed <;> rfl

theorem wellFormed_exampleContext (flushed : Bool) :
    WellFormed (exampleContext flushed).objects where
  sorted := by
    refine .cons (fun q hq => ?_) (.cons (fun q hq => (List.not_mem_nil hq).elim) .nil)
    rw [List.mem_singleton.mp hq]
    show (4096 : BitVec 64) < 8192
    decide
  represents p hp σ := by
    cases List.mem_cons.mp hp with
    | inl h =>
      subst h
      exact ⟨fun _ => 0, rep_concrete rfl rfl trivial rfl rfl rfl rfl⟩
    | inr h =>
      rw [List.mem_singleton.mp h]
      exact ⟨fun _ => 0, represents_exampleObject flushed (some σ)⟩
  readOnly p hp hro := by
    cases (writable_exampleContext flushed p hp).symm.trans hro

theorem errno_exampleContext (flushed : Bool) : ∀ p ∈ (exampleContext flushed).objects,
    p.1.Contains exampleCall.errnoAddr → p.1.isUserSpecified = true := by
  intro p hp hcontains
  cases List.mem_cons.mp hp with
  | inl h => rw [h]
  | inr h =>
    rw [List.mem_singleton.mp h] at hcontains
    have hnot : ¬ (⟨8192, 1, false⟩ : MemoryObject).Contains 4096 := by decide
    exact absurd hcontains hnot

/-- The byte was not flushed before the call. -/
theorem callExternalFunction_synchronised_unflushed : ∃ st',
    callExternalFunction exampleCall [] [] (exampleContext false) = .ok (.continues, st') ∧
      Synchronised (exampleContext false).objects st' := by
  obtain ⟨st', hcall, -⟩ := exampleCall_continues false
  refine ⟨st', hcall, (callExternalFunction_synchronised_iff exampleCall [] [] _ st'
    (wellFormed_exampleContext false) (errno_exampleContext false) hcall).mpr ?_⟩
  intro pre p post hsplit huser _ i _ _ _
  have hmem (q : ObjectPair) (hq : q ∈ pre ∨ q = p) : q ∈ (exampleContext false).objects := by
    rw [hsplit]
    cases hq with
    | inl hq => exact List.mem_append_left _ hq
    | inr hq => exact List.mem_append_right _ (hq ▸ List.mem_cons_self)
  constructor
  · cases List.mem_cons.mp (hmem p (.inr rfl)) with
    | inl h =>
      rw [h] at huser
      cases huser
    | inr h =>
      rw [List.mem_singleton.mp h]
      rfl
  · intro q hq hhalt
    cases (writable_exampleContext false q (hmem q (.inl hq))).symm.trans hhalt.2.1

/-- A read at a symbolic offset has flushed the byte before the call. -/
theorem not_callExternalFunction_synchronised : ∃ st',
    callExternalFunction exampleCall [] [] (exampleContext true) = .ok (.continues, st') ∧
      ¬ Synchronised (exampleContext true).objects st' := by
  obtain ⟨st', hcall, hbyte⟩ := exampleCall_continues true
  refine ⟨st', hcall, fun hsync => ?_⟩
  have hwf := wellFormed_exampleContext true
  have hkept : AllKept (exampleContext true).objects (exampleContext true).objects :=
    .refl fun p hp => .refl (hwf.readable hp).head
  have heffect := (callExternalFunction_triple hwf (errno_exampleContext true) []).of_ok hkept hcall rfl
  have hcopies := (synchronised_iff hwf heffect).mp hsync
  have hflushed := (hcopies [(⟨4096, 4, true⟩, ofMemoryObject 4 (by decide))]
    (⟨8192, 1, false⟩, exampleObject true) [] rfl rfl rfl 0 Nat.one_pos rfl (fun h => ?_)).1
  · cases hflushed
  · rw [hbyte] at h
    exact absurd h (by decide)

end Example

end ExternalCall

end Klee
