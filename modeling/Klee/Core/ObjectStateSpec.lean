import Klee.Core.ObjectStateBytes

/-! Over any sequence of uses an `ObjectState` is a plain byte-array memory. -/
namespace Klee.ObjectState

open Hoare

inductive Op where
  | readAt (offset width : Nat)
  | read (offset : Expr) (width : Nat)
  | writeAt (offset : Nat) (value : Expr)
  | write (offset value : Expr)
  | copy
  | initializeToZero
  | initializeToRandom

namespace Op

def exec (isLittleEndian : Bool) : Op → ObjectM (List Expr)
  | readAt offset width => do
    let e ← ObjectState.readAt isLittleEndian offset width
    pure [e]
  | read offset width => do
    let e ← ObjectState.read isLittleEndian offset width
    pure [e]
  | writeAt offset value => do
    ObjectState.writeAt isLittleEndian offset value
    pure []
  | write offset value => do
    ObjectState.write isLittleEndian offset value
    pure []
  | copy => do
    let c ← get
    match c.object.copy with
    | .error f => throw f
    | .ok object => do
      set (⟨object, c.constArrId⟩ : ObjectContext)
      pure []
  | initializeToZero => do
    modifyObject ObjectState.initializeToZero
    pure []
  | initializeToRandom => do
    modifyObject ObjectState.initializeToRandom
    pure []

def onMemory (σ : Assignment) (isLittleEndian : Bool) (m : ByteMemory) :
    Op → List ConstantExpr × ByteMemory
  | readAt offset width => ([⟨width, m.read isLittleEndian offset width⟩], m)
  | read offset width =>
      ([⟨width, m.read isLittleEndian (offset.eval σ offset.width).toNat width⟩], m)
  | writeAt offset value => ([], m.write isLittleEndian offset (value.eval σ value.width))
  | write offset value =>
      ([], m.write isLittleEndian (offset.eval σ offset.width).toNat (value.eval σ value.width))
  | copy => ([], m)
  | initializeToZero => ([], fun _ => 0)
  | initializeToRandom => ([], fun _ => 0xAB)

/-- Well-sorted operands and a width of `Bool` or whole bytes. -/
def WellFormed : Op → Prop
  | readAt _ width => ByteMemory.ValidWidth width
  | read offset width => offset.WellSorted ∧ ByteMemory.ValidWidth width
  | writeAt _ value => value.WellSorted ∧ ByteMemory.ValidWidth value.width
  | write offset value =>
      offset.WellSorted ∧ value.WellSorted ∧ ByteMemory.ValidWidth value.width
  | _ => True

/-- The access is within the `n` bytes of the object. -/
def InBounds (σ : Assignment) (n : Nat) : Op → Prop
  | readAt offset width => offset + ByteMemory.numBytes width ≤ n
  | read offset width =>
      (offset.eval σ offset.width).toNat + ByteMemory.numBytes width ≤ n
  | writeAt offset value => offset + ByteMemory.numBytes value.width ≤ n
  | write offset value =>
      (offset.eval σ offset.width).toNat + ByteMemory.numBytes value.width ≤ n
  | _ => True

def IsRead : Op → Prop
  | readAt _ _ | read _ _ => True
  | _ => False

def Folds : Op → Prop
  | read offset _ | write offset _ => FoldsWithIndex offset
  | _ => False

end Op

def run (isLittleEndian : Bool) : List Op → ObjectM (List Expr)
  | [] => pure []
  | op :: ops => do
    let vs ← op.exec isLittleEndian
    let rest ← run isLittleEndian ops
    pure (vs ++ rest)

def runMemory (σ : Assignment) (isLittleEndian : Bool) : List Op → ByteMemory →
    List ConstantExpr × ByteMemory
  | [], m => ([], m)
  | op :: ops, m =>
    let r := op.onMemory σ isLittleEndian m
    let rest := runMemory σ isLittleEndian ops r.2
    (r.1 ++ rest.1, rest.2)

/-- The expression has the type and, under `σ`, the value of the constant. -/
def HasValue (σ : Assignment) (e : Expr) (v : ConstantExpr) : Prop :=
  e.WellSorted ∧ e.width = v.width ∧ e.eval σ v.width = v.value

def contents (os : ObjectState) (σ : Assignment) (i : Nat) : BitVec 8 :=
  if os.isByteConcrete i then os.concreteStore i
  else match os.knownSymbolic i with
    | some e => e.eval σ 8
    | none => os.updated σ i

/-- A new object of `n` bytes, with its contents under each assignment. -/
inductive Initial (n : Nat) : (Assignment → ByteMemory) → ObjectState → Prop
  | concrete (h : n < 2 ^ 32) : Initial n (fun _ _ => 0) (ofMemoryObject n h)
  | symbolic (h : n < 2 ^ 32) (array : Array) :
      Initial n (fun σ => array.initial σ) (ofArray n h array)

variable {s : Option Assignment} {σ : Assignment} {n : Nat} {c : ByteMemory} {os : ObjectState}
variable {isLittleEndian : Bool}

section Initial

/-- Concrete bytes, whatever the updates are. -/
theorem rep_concrete {b : BitVec 8} (hsize : os.size = n) (hro : os.readOnly = false)
    (hhead : os.updatesHead.WellSorted) (hmask : os.concreteMask = none)
    (hflush : os.flushMask = none) (hknown : os.knownSymbolics = none)
    (hstore : os.concreteStore = fun _ => b) : Rep s n (fun _ => b) os := by
  refine ⟨hsize, hro, hhead, fun i _ => ⟨fun _ => .inl ?_, fun _ => ?_, fun _ _ => ?_,
    fun e he => ?_, fun hf => ?_⟩⟩
  · simp [isByteConcrete, hmask]
  · simp [knownSymbolic, hknown]
  · rw [hstore]
  · simp [knownSymbolic, hknown] at he
  · simp [isByteFlushed, hflush] at hf

/-- One round of the loop of `makeSymbolic`, when nothing is cached symbolically. -/
theorem makeByteSymbolic_eq {mask flush : Option (Nat → Bool)} (hknown : os.knownSymbolics = none)
    (hflush : flush = none ∨ flush = some fun _ => false) (k : Nat) :
    makeByteSymbolic { os with concreteMask := mask, flushMask := flush } k =
      { os with
        concreteMask := some (Function.update (mask.getD fun _ => true) k false)
        flushMask := some fun _ => false } := by
  unfold makeByteSymbolic markByteSymbolic setKnownSymbolic markByteFlushed
  obtain rfl | rfl := hflush
  · simp [hknown]
  · simp [hknown]

/-- The loop of `makeSymbolic` on a new object. -/
theorem foldl_makeByteSymbolic (hflush : os.flushMask = none) (hknown : os.knownSymbolics = none)
    (k : Nat) : ∃ mask flush, (List.range k).foldl makeByteSymbolic os =
      { os with concreteMask := mask, flushMask := flush } ∧
      (∀ i < k, mask.elim true (· i) = false) ∧ (0 < k → flush = some fun _ => false) ∧
      (flush = none ∨ flush = some fun _ => false) := by
  induction k with
  | zero =>
    refine ⟨os.concreteMask, none, ?_, fun i hi => by omega, fun h => by omega, .inl rfl⟩
    rw [← hflush]
    rfl
  | succ k ih =>
    obtain ⟨mask, flush, heq, hmask, -, hform⟩ := ih
    refine ⟨some (Function.update (mask.getD fun _ => true) k false), some fun _ => false, ?_,
      fun i hi => ?_, fun _ => rfl, .inr rfl⟩
    · rw [List.range_succ, List.foldl_append, heq]
      exact makeByteSymbolic_eq hknown hform k
    · by_cases hik : i = k
      · simp [hik]
      · have hprev := hmask i (by omega)
        cases mask with
        | none => cases hprev
        | some mask => simpa [Function.update_of_ne hik] using hprev

theorem rep_symbolic (h : n < 2 ^ 32) (array : Array) :
    Rep s n (s.elim (fun _ => 0) fun σ => array.initial σ) (ofArray n h array) := by
  have hnew : ({ ofMemoryObject n h with updatesRoot := some array } : ObjectState).flushMask =
    none := rfl
  obtain ⟨mask, flush, heq, hmask, hflush, -⟩ := foldl_makeByteSymbolic hnew rfl n
  have hobject : ofArray n h array = { ofMemoryObject n h with
    updatesRoot := some array, concreteMask := mask, flushMask := flush } := heq
  rw [hobject]
  refine ⟨rfl, rfl, trivial, fun i hi => ?_⟩
  obtain rfl := hflush (by omega)
  have hconcrete : mask.elim true (· i) = false := hmask i hi
  refine ⟨fun hf => ?_, fun hc => ?_, fun hc => ?_, fun e he => ?_, fun _ σ hσ => ?_⟩
  · cases hf
  · cases hconcrete.symm.trans hc
  · cases hconcrete.symm.trans hc
  · cases he
  · obtain rfl := hσ
    have hi32 : (BitVec.ofNat 32 i).toNat = i := by
      rw [BitVec.toNat_ofNat, Nat.mod_eq_of_lt (by omega)]
    exact congrArg (array.initial σ) hi32

theorem Initial.rep {C : Assignment → ByteMemory} (h : Initial n C os) :
    Rep s n (s.elim (fun _ => 0) C) os := by
  cases h with
  | concrete h =>
    have hrep : Rep s n (fun _ => 0) (ofMemoryObject n h) :=
      rep_concrete rfl rfl trivial rfl rfl rfl rfl
    refine hrep.congr fun _ i _ => ?_
    cases s <;> rfl
  | symbolic h array => exact rep_symbolic h array

end Initial

section Runs

/-- What an operation leaves: contents that a read does not change and that, in bounds, are
those of the plain memory, as are the values read. -/
def Op.After (s : Option Assignment) (n : Nat) (c : ByteMemory) (isLittleEndian : Bool) (op : Op)
    (vs : List Expr) (z : ObjectContext) : Prop :=
  ∃ c', Rep s n c' z.object ∧ (op.IsRead → c' = c) ∧
    ∀ σ ∈ s, op.InBounds σ n → c' = (op.onMemory σ isLittleEndian c).2 ∧
      List.Forall₂ (HasValue σ) vs (op.onMemory σ isLittleEndian c).1

/-- Why an operation fails: never for the internal checks, and in bounds only because an
offset folds to a constant. -/
def Op.Fails (s : Option Assignment) (n : Nat) (op : Op) (f : Fault) : Prop :=
  f ≠ .unflushedByte ∧ f ≠ .invalidFlushMask ∧
    ∀ σ ∈ s, op.InBounds σ n → f = .constantOffset ∧ op.Folds

theorem hasValue_of_denotes {e : Expr} {w : Nat} {v : BitVec w} (h : Denotes (some σ) e w v) :
    HasValue σ e ⟨w, v⟩ := ⟨h.wellSorted, h.width_eq, h.eval⟩

theorem denotes_self {e : Expr} (h : e.WellSorted) :
    Denotes s e e.width (s.elim 0 fun σ => e.eval σ e.width) :=
  Denotes.self h fun _ _ ho => by cases ho

theorem AccessFault.fails {op : Op} {e : Expr} {w : Nat} {f : Fault} {x : Nat}
    (h : AccessFault s n e x w f) (hfolds : FoldsWithIndex e → op.Folds)
    (hin : ∀ σ ∈ s, op.InBounds σ n → x + ByteMemory.numBytes w ≤ n) : op.Fails s n f := by
  obtain ⟨rfl, hout⟩ | ⟨rfl, hfold⟩ := h
  · refine ⟨by simp, by simp, fun σ hσ hb => ?_⟩
    have h1 := hin σ hσ hb
    have h2 := hout (by rw [hσ]; rfl)
    omega
  · exact ⟨by simp, by simp, fun _ _ _ => ⟨rfl, hfolds hfold⟩⟩

theorem fails_outOfBounds {op : Op} {f : Fault} {k : Nat} (h : f = .outOfBounds ∧ n < k)
    (hin : ∀ σ ∈ s, op.InBounds σ n → k ≤ n) : op.Fails s n f := by
  obtain ⟨rfl, hout⟩ := h
  refine ⟨by simp, by simp, fun σ hσ hb => ?_⟩
  have h1 := hin σ hσ hb
  omega

theorem Op.exec_triple {op : Op} (hop : op.WellFormed) :
    Triple (fun z => Rep s n c z.object) (op.exec isLittleEndian)
      (op.After s n c isLittleEndian) (op.Fails s n) := by
  cases op with
  | readAt offset width =>
    refine ((readAt_triple hop offset).error fun f hf => ?_).bind fun e => triple_pure fun z hz => ?_
    · exact fails_outOfBounds hf fun σ _ hin => hin
    · refine ⟨c, hz.1, fun _ => rfl, fun σ hσ hin => ⟨rfl, ?_⟩⟩
      obtain rfl := hσ
      exact .cons (hasValue_of_denotes (hz.2 fun _ => hin)) .nil
  | read offset width =>
    obtain ⟨hoffset, hw⟩ := hop
    refine ((read_triple hw (denotes_self hoffset)).error fun f hf => ?_).bind
      fun e => triple_pure fun z hz => ?_
    · refine hf.fails id fun σ hσ hin => ?_
      obtain rfl := hσ
      exact hin
    · refine ⟨c, hz.1, fun _ => rfl, fun σ hσ hin => ⟨rfl, ?_⟩⟩
      obtain rfl := hσ
      exact .cons (hasValue_of_denotes (hz.2 fun _ => hin)) .nil
  | writeAt offset value =>
    obtain ⟨hvalue, hw⟩ := hop
    refine ((writeAt_triple hw (denotes_self hvalue) offset).error fun f hf => ?_).bind
      fun _ => triple_pure fun z hz => ?_
    · exact fails_outOfBounds hf fun σ _ hin => hin
    · obtain ⟨c', hrep, hc'⟩ := hz
      refine ⟨c', hrep, fun h => h.elim, fun σ hσ hin => ⟨?_, .nil⟩⟩
      obtain rfl := hσ
      exact hc' rfl hin
  | write offset value =>
    obtain ⟨hoffset, hvalue, hw⟩ := hop
    refine ((write_triple hw (denotes_self hoffset) (denotes_self hvalue)).error
      fun f hf => ?_).bind fun _ => triple_pure fun z hz => ?_
    · refine hf.fails id fun σ hσ hin => ?_
      obtain rfl := hσ
      exact hin
    · obtain ⟨c', hrep, hc'⟩ := hz
      refine ⟨c', hrep, fun h => h.elim, fun σ hσ hin => ⟨?_, .nil⟩⟩
      obtain rfl := hσ
      exact hc' rfl hin
  | copy =>
    refine triple_get_bind fun z hz => ?_
    have hcopy : z.object.copy = .ok { z.object with readOnly := false } := by
      rw [ObjectState.copy, hz.writable]
      rfl
    have hrep : Rep s n c { z.object with readOnly := false } :=
      ⟨hz.size_eq, rfl, hz.head,
        fun i hi => (hz.byte i hi).congr ⟨rfl, rfl, rfl, rfl, fun _ _ => rfl⟩⟩
    simp only [hcopy]
    refine (triple_set (R := fun _ y => Rep s n c y.object) fun _ _ => hrep).bind
      fun _ => triple_pure fun y hy => ?_
    exact ⟨c, hy, fun _ => rfl, fun σ _ _ => ⟨rfl, .nil⟩⟩
  | initializeToZero =>
    refine (triple_modifyObject (Q := fun _ y => Rep s n (fun _ => 0) y.object) fun z hz => ?_).bind
      fun _ => triple_pure fun y hy => ⟨_, hy, fun h => h.elim, fun σ _ _ => ⟨rfl, .nil⟩⟩
    exact rep_concrete hz.size_eq hz.writable hz.head rfl rfl rfl rfl
  | initializeToRandom =>
    refine (triple_modifyObject (Q := fun _ y => Rep s n (fun _ => 0xAB) y.object)
      fun z hz => ?_).bind
      fun _ => triple_pure fun y hy => ⟨_, hy, fun h => h.elim, fun σ _ _ => ⟨rfl, .nil⟩⟩
    exact rep_concrete hz.size_eq hz.writable hz.head rfl rfl rfl rfl

/-- As `Op.After`, for a sequence of operations. -/
def After (s : Option Assignment) (n : Nat) (c : ByteMemory) (isLittleEndian : Bool)
    (ops : List Op) (vs : List Expr) (z : ObjectContext) : Prop :=
  ∃ c', Rep s n c' z.object ∧ ∀ σ ∈ s, (∀ op ∈ ops, op.InBounds σ n) →
    c' = (runMemory σ isLittleEndian ops c).2 ∧
      List.Forall₂ (HasValue σ) vs (runMemory σ isLittleEndian ops c).1

/-- As `Op.Fails`, for a sequence of operations. -/
def Fails (s : Option Assignment) (n : Nat) (ops : List Op) (f : Fault) : Prop :=
  f ≠ .unflushedByte ∧ f ≠ .invalidFlushMask ∧
    ∀ σ ∈ s, (∀ op ∈ ops, op.InBounds σ n) → f = .constantOffset ∧ ∃ op ∈ ops, op.Folds

theorem run_triple {ops : List Op} (hops : ∀ op ∈ ops, op.WellFormed) :
    Triple (fun z => Rep s n c z.object) (run isLittleEndian ops)
      (After s n c isLittleEndian ops) (Fails s n ops) := by
  induction ops generalizing c with
  | nil => exact triple_pure fun z hz => ⟨c, hz, fun _ _ _ => ⟨rfl, .nil⟩⟩
  | cons op ops ih =>
    have hop := hops op List.mem_cons_self
    have hrest := fun op' hop' => hops op' (List.mem_cons_of_mem op hop')
    refine ((op.exec_triple hop).error fun f hf => ?_).bind fun vs => ?_
    · refine ⟨hf.1, hf.2.1, fun σ hσ hin => ?_⟩
      obtain ⟨h1, h2⟩ := hf.2.2 σ hσ (hin op List.mem_cons_self)
      exact ⟨h1, op, List.mem_cons_self, h2⟩
    · intro z hz
      obtain ⟨c', hrep, -, hc'⟩ := hz
      refine (((ih hrest (c := c')).error fun f hf => ?_).bind
        fun rest => triple_pure fun y hy => ?_) z hrep
      · refine ⟨hf.1, hf.2.1, fun σ hσ hin => ?_⟩
        obtain ⟨h1, op', hop', h2⟩ := hf.2.2 σ hσ fun op' hop' =>
          hin op' (List.mem_cons_of_mem op hop')
        exact ⟨h1, op', List.mem_cons_of_mem op hop', h2⟩
      · obtain ⟨c'', hrep', hc''⟩ := hy
        refine ⟨c'', hrep', fun σ hσ hin => ?_⟩
        obtain ⟨rfl, hvs⟩ := hc' σ hσ (hin op List.mem_cons_self)
        obtain ⟨h1, h2⟩ := hc'' σ hσ fun op' hop' => hin op' (List.mem_cons_of_mem op hop')
        exact ⟨h1, List.rel_append hvs h2⟩

theorem Rep.contents_eq (h : Rep (some σ) n c os) {i : Nat} (hi : i < n) :
    os.contents σ i = c i := by
  have hb := h.byte i hi
  unfold contents
  by_cases hc : os.isByteConcrete i = true
  · rw [if_pos hc]
    exact hb.store hc rfl
  · rw [if_neg hc]
    cases hk : os.knownSymbolic i with
    | some e => exact (hb.known e hk).eval
    | none =>
      -- a byte in no cache is flushed
      refine hb.flushed ?_ σ rfl
      by_contra hf
      have hcached := hb.cached (by simpa using hf)
      simp [isByteKnownSymbolic, hk, hc] at hcached

/-- Over any sequence of operations on a new object, under every assignment that keeps the
offsets in bounds, the values read and the contents are those of a plain memory; a further
read changes no byte under any assignment; and the internal checks never fail. The run does
not fail at all if the offsets are in bounds under some assignment and none of them folds. -/
theorem run_refines (isLittleEndian : Bool) {C : Assignment → ByteMemory} (hos : Initial n C os) {ops : List Op}
    (hops : ∀ op ∈ ops, op.WellFormed) (constArrId : Nat) :
    match run isLittleEndian ops ⟨os, constArrId⟩ with
    | .ok (vs, z) =>
        (∀ σ, (∀ op ∈ ops, op.InBounds σ n) →
          List.Forall₂ (HasValue σ) vs (runMemory σ isLittleEndian ops (C σ)).1 ∧
          ∀ i < n, z.object.contents σ i = (runMemory σ isLittleEndian ops (C σ)).2 i) ∧
        ∀ op : Op, op.WellFormed → op.IsRead →
          match op.exec isLittleEndian z with
          | .ok (_, z') => ∀ σ, ∀ i < n, z'.object.contents σ i = z.object.contents σ i
          | .error f => f ≠ .unflushedByte ∧ f ≠ .invalidFlushMask
    | .error f => f ≠ .unflushedByte ∧ f ≠ .invalidFlushMask ∧
        ∀ σ, (∀ op ∈ ops, op.InBounds σ n) → f = .constantOffset ∧ ∃ op ∈ ops, op.Folds := by
  have hrun (s : Option Assignment) : Triple (fun z => Rep s n (s.elim (fun _ => 0) C) z.object)
      (run isLittleEndian ops) (After s n (s.elim (fun _ => 0) C) isLittleEndian ops)
      (Fails s n ops) := run_triple hops
  cases hr : run isLittleEndian ops ⟨os, constArrId⟩ with
  | error f =>
    have hnone := (hrun none).of_error hos.rep hr
    exact ⟨hnone.1, hnone.2.1, fun σ => ((hrun (some σ)).of_error hos.rep hr).2.2 σ rfl⟩
  | ok r =>
    obtain ⟨vs, z⟩ := r
    refine ⟨fun σ hin => ?_, fun op hop hread => ?_⟩
    · obtain ⟨c', hrep, hc'⟩ := (hrun (some σ)).of_ok hos.rep hr
      obtain ⟨rfl, hvs⟩ := hc' σ rfl hin
      exact ⟨hvs, fun i hi => hrep.contents_eq hi⟩
    · have hexec (s : Option Assignment) : ∃ c', Rep s n c' z.object ∧
          Triple (fun y => Rep s n c' y.object) (op.exec isLittleEndian)
            (op.After s n c' isLittleEndian) (op.Fails s n) := by
        obtain ⟨c', hrep, -⟩ := (hrun s).of_ok hos.rep hr
        exact ⟨c', hrep, op.exec_triple hop⟩
      cases hz : op.exec isLittleEndian z with
      | error f =>
        obtain ⟨c', hrep, htriple⟩ := hexec none
        have hf := htriple.of_error hrep hz
        exact ⟨hf.1, hf.2.1⟩
      | ok r' =>
        intro σ i hi
        obtain ⟨c', hrep, htriple⟩ := hexec (some σ)
        obtain ⟨c'', hrep', hsame, -⟩ := htriple.of_ok hrep hz
        obtain rfl := hsame hread
        rw [hrep'.contents_eq hi, hrep.contents_eq hi]

def symbolicOffset : Expr :=
  .zext (.read (.symbolic 0 "offset" 1) .null (offsetExpr 0)) 32

theorem run_refines_symbolicOffset : ∃ vs z,
    run true [.write symbolicOffset (.constant ⟨1, 1⟩), .read symbolicOffset 1]
      ⟨ofMemoryObject 4 (by decide), 0⟩ = .ok (vs, z) ∧
    ∀ σ, (symbolicOffset.eval σ 32).toNat < 4 → List.Forall₂ (HasValue σ) vs [⟨1, 1⟩] := by
  have hoffset : symbolicOffset.WellSorted := by
    refine ⟨⟨trivial, (offsetExpr_wellSorted 0).1, rfl⟩, ?_⟩
    decide
  have hops : ∀ op ∈ [Op.write symbolicOffset (.constant ⟨1, 1⟩), .read symbolicOffset 1],
      op.WellFormed := by
    intro op hop
    rcases List.mem_cons.mp hop with rfl | hop
    · exact ⟨hoffset, Nat.one_pos, .inl rfl⟩
    · rw [List.mem_singleton.mp hop]
      exact ⟨hoffset, .inl rfl⟩
  have h := run_refines true (.concrete (show 4 < 2 ^ 32 by decide)) hops 0
  obtain ⟨vs, z, hr⟩ : ∃ vs z, run true [.write symbolicOffset (.constant ⟨1, 1⟩),
      .read symbolicOffset 1] ⟨ofMemoryObject 4 (by decide), 0⟩ = .ok (vs, z) := ⟨_, _, rfl⟩
  rw [hr] at h
  refine ⟨vs, z, hr, fun σ hσ => ?_⟩
  have hvalues := (h.1 σ fun op hop => ?_).1
  · have hbit : (runMemory σ true [.write symbolicOffset (.constant ⟨1, 1⟩),
        .read symbolicOffset 1] fun _ => 0).1 = [⟨1, 1⟩] := by
      simp only [runMemory, Op.onMemory, ByteMemory.write, ByteMemory.read]
      simp [Expr.eval, Expr.width]
    rw [hbit] at hvalues
    exact hvalues
  · rcases List.mem_cons.mp hop with rfl | hop
    · exact hσ
    · rw [List.mem_singleton.mp hop]
      exact hσ

end Runs

end Klee.ObjectState
