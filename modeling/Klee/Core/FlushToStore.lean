import Klee.Core.ExternalCallSpec

/-! What `flushToConcreteStore` leaves in the concrete store of an object. -/
namespace Klee.ObjectState

open Hoare

variable {solver : TimingSolver} {constraints : List Expr} {os os' : ObjectState} {n i : Nat}

/-- Each byte of the concrete store is the byte under some feasible assignment, and the object
reads as before. -/
structure StoreFlushed (constraints : List Expr) (os os' : ObjectState) : Prop where
  store : ∀ i < os.size, ∃ σ, Satisfies σ constraints ∧ os'.concreteStore i = os.contents σ i
  contents : ∀ σ, ∀ i < os.size, os'.contents σ i = os.contents σ i
  symbolic : ∀ σ, ∀ i < os.size, os'.symbolicContents σ i = os.symbolicContents σ i

/-- A symbolic byte that `flushToConcreteStore` leaves as it is: nothing is cached for it, as
after a write at a symbolic offset, or the solver times out. -/
def StaysStale (solver : TimingSolver) (constraints : List Expr) (os : ObjectState) (i : Nat) :
    Prop :=
  os.isByteConcrete i = false ∧
    ∀ e ∈ os.knownSymbolic i, solver.getValue constraints e = none

/-- The byte that `flushToConcreteStore` leaves in the concrete store. -/
def flushedByte (solver : TimingSolver) (constraints : List Expr) (os : ObjectState) (i : Nat) :
    BitVec 8 :=
  match (os.knownSymbolic i).bind (solver.getValue constraints) with
  | some ce => ce.value.setWidth 8
  | none => os.concreteStore i

/-- The object after the rounds for the bytes before `k`. -/
def flushedBefore (solver : TimingSolver) (constraints : List Expr) (os : ObjectState) (k : Nat) :
    ObjectState :=
  { os with concreteStore := fun i =>
      if i < k then os.flushedByte solver constraints i else os.concreteStore i }

section Loop

theorem flushedByte_of_none (h : os.knownSymbolic i = none) :
    os.flushedByte solver constraints i = os.concreteStore i := by
  rw [flushedByte, h]
  rfl

theorem flushedByte_of_some {e : Expr} (h : os.knownSymbolic i = some e) :
    os.flushedByte solver constraints i =
      match solver.getValue constraints e with
      | some ce => ce.value.setWidth 8
      | none => os.concreteStore i := by
  rw [flushedByte, h]
  rfl

theorem flushedBefore_zero : os.flushedBefore solver constraints 0 = os := by
  simp [flushedBefore]

/-- The round for byte `k` changes that byte only. -/
theorem flushedBefore_succ (k : Nat) :
    os.flushedBefore solver constraints (k + 1) =
      { os.flushedBefore solver constraints k with
        concreteStore := Function.update (os.flushedBefore solver constraints k).concreteStore k
          (os.flushedByte solver constraints k) } := by
  unfold flushedBefore
  congr 1
  funext i
  by_cases hik : i = k
  · simp [hik]
  · rw [Function.update_of_ne hik]
    have hlt : i < k + 1 ↔ i < k := by omega
    simp only [hlt]

/-- A round that leaves the byte as it was. -/
theorem flushedBefore_succ_same {k : Nat}
    (h : os.flushedByte solver constraints k = os.concreteStore k) :
    os.flushedBefore solver constraints (k + 1) = os.flushedBefore solver constraints k := by
  have hstore : (os.flushedBefore solver constraints k).concreteStore k = os.concreteStore k :=
    if_neg (Nat.lt_irrefl k)
  rw [flushedBefore_succ, h, ← hstore, Function.update_eq_self]

/-- A byte in a symbolic cache is read from there. -/
theorem wp_read8_known {e : Expr} {x : ObjectContext} (hi : i < x.object.size)
    (hconcrete : x.object.isByteConcrete i = false) (he : x.object.knownSymbolic i = some e) :
    wp (read8 i) (fun r y => r = e ∧ y = x) (fun _ => False) x := by
  have hin : ¬ x.object.size ≤ i := Nat.not_le.mpr hi
  simp only [read8, wp_bind, wp_get]
  rw [if_neg hin, hconcrete, he]
  exact ⟨rfl, rfl⟩

theorem wp_flushByteToConcreteStore (constArrId : Nat) (hi : i < os.size)
    (hexclusive : os.isByteConcrete i = true → os.knownSymbolic i = none) :
    wp (flushByteToConcreteStore solver constraints i)
      (fun _ y => y = ⟨os.flushedBefore solver constraints (i + 1), constArrId⟩) (fun _ => False)
      ⟨os.flushedBefore solver constraints i, constArrId⟩ := by
  simp only [flushByteToConcreteStore, wp_bind, wp_get]
  cases hknown : os.knownSymbolic i with
  | none =>
    have hno : (os.flushedBefore solver constraints i).isByteKnownSymbolic i = false := by
      show (os.knownSymbolic i).isSome = false
      rw [hknown]
      rfl
    rw [hno]
    show (_ : ObjectContext) = _
    rw [flushedBefore_succ_same (flushedByte_of_none hknown)]
  | some e =>
    have hyes : (os.flushedBefore solver constraints i).isByteKnownSymbolic i = true := by
      show (os.knownSymbolic i).isSome = true
      rw [hknown]
      rfl
    have hconcrete : os.isByteConcrete i = false := by
      by_contra hc
      have hnone := hexclusive (by simpa using hc)
      rw [hknown] at hnone
      cases hnone
    rw [hyes, if_pos rfl, wp_bind]
    refine wp_post (wp_read8_known (x := ⟨os.flushedBefore solver constraints i, constArrId⟩) hi
      hconcrete hknown) fun r y hr => ?_
    obtain ⟨rfl, rfl⟩ := hr
    have hbyte : os.flushedByte solver constraints i =
        match solver.getValue constraints r with
        | some ce => ce.value.setWidth 8
        | none => os.concreteStore i := flushedByte_of_some hknown
    cases hvalue : solver.getValue constraints r with
    | none =>
      rw [hvalue] at hbyte
      show (_ : ObjectContext) = _
      rw [flushedBefore_succ_same hbyte]
    | some ce =>
      rw [hvalue] at hbyte
      show (_ : ObjectContext) = _
      rw [flushedBefore_succ, hbyte]

/-- The loop comes to every byte and does not fail. -/
theorem flushToConcreteStore_eq (constArrId : Nat)
    (hexclusive : ∀ i < os.size, os.isByteConcrete i = true → os.knownSymbolic i = none) :
    flushToConcreteStore solver constraints ⟨os, constArrId⟩ =
      .ok ((), ⟨os.flushedBefore solver constraints os.size, constArrId⟩) := by
  have hloop := triple_forM_range (f := flushByteToConcreteStore solver constraints)
    (I := fun k y => y = ⟨os.flushedBefore solver constraints k, constArrId⟩)
    (E := fun _ => False) os.size fun i hi => by
      rintro _ rfl
      exact wp_flushByteToConcreteStore constArrId hi (hexclusive i hi)
  have hrun : wp (flushToConcreteStore solver constraints)
      (fun _ y => y = ⟨os.flushedBefore solver constraints os.size, constArrId⟩) (fun _ => False)
      ⟨os, constArrId⟩ := by
    refine wp_bind.mpr (wp_get.mpr ?_)
    exact hloop ⟨os, constArrId⟩ (by rw [flushedBefore_zero])
  obtain ⟨_, y, hy, rfl⟩ := exists_ok hrun
  exact hy

end Loop

section Flushed

variable {c : ByteMemory} {σ : Assignment}

/-- The symbolic bytes are not read from the concrete store. -/
theorem contents_flushedBefore (k : Nat)
    (hexclusive : os.isByteConcrete i = true → os.knownSymbolic i = none) :
    (os.flushedBefore solver constraints k).contents σ i = os.contents σ i := by
  refine contents_congr rfl rfl rfl fun hc => ?_
  show (if i < k then os.flushedByte solver constraints i else os.concreteStore i) = _
  rw [flushedByte_of_none (hexclusive hc), ite_self]

/-- A byte that the solver gives a value has a feasible one. -/
theorem flushedByte_feasible (hsolver : solver.ValueSound constraints)
    (hcs : ∀ c ∈ constraints, c.IsBool) (hsat : ∃ σ, Satisfies σ constraints)
    (hreadable : Readable n os) (hi : i < n)
    (hexclusive : os.isByteConcrete i = true → os.knownSymbolic i = none)
    (hstale : ¬ StaysStale solver constraints os i) :
    ∃ σ, Satisfies σ constraints ∧ os.flushedByte solver constraints i = os.contents σ i := by
  by_cases hc : os.isByteConcrete i = true
  · obtain ⟨σ, hσ⟩ := hsat
    refine ⟨σ, hσ, ?_⟩
    rw [flushedByte_of_none (hexclusive hc), contents_of_concrete hc]
  · have hc : os.isByteConcrete i = false := by simpa using hc
    obtain ⟨e, he, hanswer⟩ : ∃ e ∈ os.knownSymbolic i, solver.getValue constraints e ≠ none := by
      by_contra hnone
      push Not at hnone
      exact hstale ⟨hc, hnone⟩
    obtain ⟨ce, hce⟩ := Option.ne_none_iff_exists'.mp hanswer
    obtain ⟨hwell, hwidth⟩ := hreadable.known i hi e he
    obtain ⟨hw, σ, hσ, hvalue⟩ := hsolver.getValue hcs hwell hsat hce
    refine ⟨σ, hσ, ?_⟩
    have hcontents : os.contents σ i = e.eval σ 8 := by
      rw [contents, hc, Option.mem_def.mp he]
      rfl
    obtain ⟨w, v⟩ := ce
    obtain rfl : w = 8 := hw.trans hwidth
    rw [flushedByte_of_some he, hce, hcontents, hvalue]
    exact BitVec.setWidth_eq v

theorem StaysStale.flushedByte (h : StaysStale solver constraints os i) :
    os.flushedByte solver constraints i = os.concreteStore i := by
  cases hknown : os.knownSymbolic i with
  | none => exact flushedByte_of_none hknown
  | some e => rw [flushedByte_of_some hknown, h.2 e hknown]

/-- After any run on a new object, `flushToConcreteStore` leaves feasible bytes if and only if
the store has a feasible byte already wherever nothing is cached or the solver times out. The
object reads as before in any case. -/
theorem flushToConcreteStore_flushed_iff (isLittleEndian : Bool) {C : Assignment → ByteMemory}
    {os : ObjectState} (hos : Initial n C os) {ops : List Op} (hops : ∀ op ∈ ops, op.WellFormed)
    (constArrId : Nat) {vs : List Expr} {x : ObjectContext}
    (hrun : run isLittleEndian ops ⟨os, constArrId⟩ = .ok (vs, x))
    (hsolver : solver.ValueSound constraints) (hcs : ∀ c ∈ constraints, c.IsBool)
    (hsat : ∃ σ, Satisfies σ constraints) :
    ∃ y, flushToConcreteStore solver constraints x = .ok ((), y) ∧
      (StoreFlushed constraints x.object y.object ↔
        ∀ i < n, StaysStale solver constraints x.object i →
          ∃ σ, Satisfies σ constraints ∧ x.object.concreteStore i = x.object.contents σ i) ∧
      ∀ σ, ∀ i < n, y.object.contents σ i = x.object.contents σ i := by
  have hrep (s : Option Assignment) : ∃ c, Rep s n c x.object := by
    have htriple : Triple (fun z => Rep s n (s.elim (fun _ => 0) C) z.object)
        (run isLittleEndian ops) (After s n (s.elim (fun _ => 0) C) isLittleEndian ops)
        (Fails s n ops) := run_triple hops
    obtain ⟨c, hc, -⟩ := htriple.of_ok hos.rep hrun
    exact ⟨c, hc⟩
  obtain ⟨c, hc⟩ := hrep none
  have hsize : x.object.size = n := hc.size_eq
  have hreadable : Readable n x.object := ⟨hc.size_eq, hc.head, fun i hi => (hc.byte i hi).cached,
    fun i hi e he => ⟨((hc.byte i hi).known e he).wellSorted, ((hc.byte i hi).known e he).width_eq⟩⟩
  have hexclusive (i : Nat) (hi : i < x.object.size) : x.object.isByteConcrete i = true →
      x.object.knownSymbolic i = none := (hc.byte i (hsize ▸ hi)).exclusive
  have hcontents (σ : Assignment) (i : Nat) (hi : i < x.object.size) :
      (x.object.flushedBefore solver constraints x.object.size).contents σ i =
        x.object.contents σ i := contents_flushedBefore _ (hexclusive i hi)
  have hstore (i : Nat) (hi : i < x.object.size) :
      (x.object.flushedBefore solver constraints x.object.size).concreteStore i =
        x.object.flushedByte solver constraints i := if_pos hi
  refine ⟨_, flushToConcreteStore_eq x.constArrId hexclusive, ⟨fun h i hi hstale => ?_, fun h => ?_⟩,
    fun σ i hi => hcontents σ i (hsize ▸ hi)⟩
  · obtain ⟨σ, hσ, hvalue⟩ := h.store i (hsize ▸ hi)
    rw [hstore i (hsize ▸ hi), hstale.flushedByte] at hvalue
    exact ⟨σ, hσ, hvalue⟩
  · refine ⟨fun i hi => ?_, hcontents, fun σ i hi => ?_⟩
    · rw [hstore i hi]
      by_cases hstale : StaysStale solver constraints x.object i
      · rw [hstale.flushedByte]
        exact h i (hsize ▸ hi) hstale
      · exact flushedByte_feasible hsolver hcs hsat hreadable (hsize ▸ hi) (hexclusive i hi) hstale
    · -- the updates do not change
      unfold symbolicContents
      rw [hcontents σ i hi]
      rfl

end Flushed

section Example

def offsetConstraint : Expr := .eq (.constant ⟨32, 0⟩) symbolicOffset

theorem isBool_offsetConstraint : offsetConstraint.IsBool := by
  refine ⟨⟨Nat.succ_pos 31, ⟨⟨trivial, (offsetExpr_wellSorted 0).1, rfl⟩, ?_⟩, rfl⟩, rfl⟩
  decide

/-- The written byte is in the cache, and the solver is asked for it. -/
theorem flushToConcreteStore_flushed_constantOffset : ∃ x y,
    run true [.writeAt 0 offsetConstraint] ⟨ofMemoryObject 1 (by decide), 0⟩ = .ok ([], x) ∧
      flushToConcreteStore .ideal [] x = .ok ((), y) ∧ StoreFlushed [] x.object y.object := by
  have hops : ∀ op ∈ [Op.writeAt 0 offsetConstraint], op.WellFormed := by
    intro op hop
    rw [List.mem_singleton.mp hop]
    exact ⟨isBool_offsetConstraint.1, .inl rfl⟩
  obtain ⟨x, hx, hknown⟩ : ∃ x, run true [.writeAt 0 offsetConstraint]
      ⟨ofMemoryObject 1 (by decide), 0⟩ = .ok ([], x) ∧
        x.object.knownSymbolic 0 = some (.zext offsetConstraint 8) := ⟨_, by rfl, by rfl⟩
  have hcs : ∀ c ∈ ([] : List Expr), c.IsBool := by simp
  obtain ⟨y, hy, hiff, -⟩ := flushToConcreteStore_flushed_iff true
    (.concrete (show 1 < 2 ^ 32 by decide)) hops 0 hx (TimingSolver.correct_ideal.valueSound hcs)
    hcs ⟨fun _ _ => 0, satisfies_nil _⟩
  refine ⟨x, y, hx, hy, hiff.mpr fun i hi hstale => ?_⟩
  obtain rfl : i = 0 := Nat.lt_one_iff.mp hi
  have hwell : (Expr.zext offsetConstraint 8).WellSorted :=
    ⟨isBool_offsetConstraint.1, by decide⟩
  obtain ⟨c, hc⟩ := TimingSolver.correct_ideal.exists_getValue hcs hwell
  have hnone := hstale.2 _ hknown
  rw [hc] at hnone
  cases hnone

/-- A byte that is written at a symbolic offset is 1 on every path and stays 0 in the store. -/
theorem not_storeFlushed_symbolicOffset : ∃ x y,
    run true [.write symbolicOffset (.constant ⟨1, 1⟩)] ⟨ofMemoryObject 1 (by decide), 0⟩ =
      .ok ([], x) ∧
    (∃ σ, Satisfies σ [offsetConstraint]) ∧
    flushToConcreteStore .ideal [offsetConstraint] x = .ok ((), y) ∧
    ¬ StoreFlushed [offsetConstraint] x.object y.object := by
  obtain ⟨x, hx, hflush, hsize, hstore, hcontents⟩ : ∃ x,
      run true [.write symbolicOffset (.constant ⟨1, 1⟩)] ⟨ofMemoryObject 1 (by decide), 0⟩ =
        .ok ([], x) ∧
      flushToConcreteStore .ideal [offsetConstraint] x = .ok ((), x) ∧ x.object.size = 1 ∧
      x.object.concreteStore 0 = 0 ∧
      ∀ σ, x.object.contents σ 0 = if symbolicOffset.eval σ 32 = 0 then 1 else 0 :=
    ⟨_, by rfl, by rfl, by rfl, by rfl, fun _ => by rfl⟩
  refine ⟨x, x, hx, ⟨fun _ _ => 0, ?_⟩, hflush, fun h => ?_⟩
  · rw [satisfies_cons, offsetConstraint, Expr.holds_eq_iff]
    exact ⟨rfl, satisfies_nil _⟩
  · obtain ⟨σ, hσ, hvalue⟩ := h.store 0 (by rw [hsize]; exact Nat.one_pos)
    rw [satisfies_cons, offsetConstraint, Expr.holds_eq_iff] at hσ
    have hzero : symbolicOffset.eval σ 32 = 0 := hσ.1.symm
    rw [hstore, hcontents, if_pos hzero] at hvalue
    exact absurd hvalue (by decide)

end Example

end Klee.ObjectState
