import Klee.Core.ObjectState
import Klee.Lib.DataLayout
import Mathlib
import Klee.Core.ByteMemory
import Klee.Core.ObjectStateSpec

/-! The area of the variadic arguments of a call on a target of 64 bits: the two loops of
`executeCall`, `va_start`, and what `va_arg` makes of it. -/
namespace Klee

open LLVM

namespace Executor

/-- The loop that sizes the area, in `unsigned` arithmetic. -/
def varArgsSize : Nat → List Nat → Nat
  | size, [] => size
  | size, argWidth :: rest =>
    let size := if 64 < argWidth then alignTo size 16 % 2 ^ 32 else size
    varArgsSize ((size + alignTo argWidth 64 / 8) % 2 ^ 32) rest

/-- The alignment of the area, `requires16ByteAlignment ? 16 : 8`. -/
def varArgsAlignment (argWidths : List Nat) : Nat := if argWidths.any (64 < ·) then 16 else 8

/-- The loop that writes the arguments, with the offsets that it writes them at. -/
def writeVarArgs (isLittleEndian : Bool) : Nat → List Expr → ObjectM (List Nat)
  | _, [] => pure []
  | offset, argument :: rest => do
    let offset := if 64 < argument.width then alignTo offset 16 % 2 ^ 32 else offset
    ObjectState.writeAt isLittleEndian offset argument
    let offsets ← writeVarArgs isLittleEndian
      ((offset + alignTo argument.width 64 / 8) % 2 ^ 32) rest
    pure (offset :: offsets)

end Executor

/-- The type `va_list` of the target. -/
structure VaList where
  gp_offset : Nat
  fp_offset : Nat
  overflow_arg_area : Nat
  reg_save_area : Nat
deriving DecidableEq, Repr

/-- What `llvm.va_start` stores in the list; `base` is where the area is. -/
def Executor.vaStart (base : Nat) : VaList where
  gp_offset := 48
  fp_offset := 304
  overflow_arg_area := base
  reg_save_area := 0

/-- A type for `va_arg`: its width, and the registers of either kind that it would go in. -/
structure VaType where
  width : Nat
  num_gp : Nat
  num_fp : Nat
deriving DecidableEq, Repr

namespace VaList

def InRegisters (l : VaList) (t : VaType) : Prop :=
  0 < t.num_gp + t.num_fp ∧ l.gp_offset + 8 * t.num_gp ≤ 48 ∧ l.fp_offset + 16 * t.num_fp ≤ 304

instance (l : VaList) (t : VaType) : Decidable (l.InRegisters t) :=
  inferInstanceAs (Decidable (_ ∧ _ ∧ _))

/-- `va_arg`: the address of the argument that is next, and the list for those after it. -/
def vaArg (l : VaList) (t : VaType) : Nat × VaList :=
  if l.InRegisters t then
    (l.reg_save_area + if 0 < t.num_gp then l.gp_offset else l.fp_offset,
      { l with gp_offset := l.gp_offset + 8 * t.num_gp, fp_offset := l.fp_offset + 16 * t.num_fp })
  else
    let address := if 64 < t.width then alignTo l.overflow_arg_area 16 else l.overflow_arg_area
    (address, { l with overflow_arg_area := address + alignTo t.width 64 / 8 })

/-- Reads with `va_arg` in order, of the object of the area. -/
def readAll (isLittleEndian : Bool) (base : Nat) : VaList → List VaType → ObjectM (List Expr)
  | _, [] => pure []
  | l, t :: ts => do
    let (address, l) := l.vaArg t
    let e ← ObjectState.readAt isLittleEndian (address - base) t.width
    let es ← readAll isLittleEndian base l ts
    pure (e :: es)

end VaList

end Klee

/-! The area of the variadic arguments has a slot for each, and `va_arg` finds them again. -/
namespace Klee.VarArgs

open LLVM ObjectState

section Layout

def slotStart (offset argWidth : Nat) : Nat := if 64 < argWidth then alignTo offset 16 else offset

def slotSize (argWidth : Nat) : Nat := alignTo argWidth 64 / 8

/-- The offsets of the slots of arguments that are laid out from an offset on. -/
def slots : Nat → List Nat → List Nat
  | _, [] => []
  | offset, w :: ws => slotStart offset w :: slots (slotStart offset w + slotSize w) ws

def areaEnd : Nat → List Nat → Nat
  | offset, [] => offset
  | offset, w :: ws => areaEnd (slotStart offset w + slotSize w) ws

variable {offset base w : Nat} {ws : List Nat}

theorem le_slotStart : offset ≤ slotStart offset w := by
  unfold slotStart
  split
  · exact le_alignTo (by decide)
  · exact le_rfl

theorem le_areaEnd : offset ≤ areaEnd offset ws := by
  induction ws generalizing offset with
  | nil => exact le_rfl
  | cons w ws ih => exact (le_slotStart.trans (Nat.le_add_right _ _)).trans ih

/-- Eight bytes for each 64 bits or part of them. -/
theorem slotSize_eq : slotSize w = (w + 63) / 64 * 8 := by
  unfold slotSize alignTo
  omega

theorem numBytes_le_slotSize (hw : ByteMemory.ValidWidth w) :
    ByteMemory.numBytes w ≤ slotSize w := by
  rw [slotSize_eq, ByteMemory.numBytes]
  obtain rfl | ⟨k, rfl⟩ := hw
  · decide
  · split <;> omega

/-- The slots of an area from an offset to its end: each after the one before it, and with the
alignment of its argument in memory. -/
def InOrder (base : Nat) : Nat → List (Nat × Nat) → Nat → Prop
  | offset, [], size => offset = size
  | offset, (start, w) :: rest, size => offset ≤ start ∧ (if 64 < w then 16 else 8) ∣ base + start ∧
      InOrder base (start + slotSize w) rest size

theorem dvd_slotStart (hoffset : 8 ∣ offset) : 8 ∣ slotStart offset w := by
  unfold slotStart
  split
  · exact Dvd.dvd.trans (by decide) dvd_alignTo
  · exact hoffset

theorem dvd_base (hbase : Executor.varArgsAlignment ws ∣ base) :
    8 ∣ base ∧ ((∃ w ∈ ws, 64 < w) → 16 ∣ base) := by
  unfold Executor.varArgsAlignment at hbase
  split_ifs at hbase with hany
  · exact ⟨Dvd.dvd.trans (by decide) hbase, fun _ => hbase⟩
  · exact ⟨hbase, fun h => absurd (by simpa using h) hany⟩

theorem inOrder_slots (hoffset : 8 ∣ offset) (h8 : 8 ∣ base)
    (h16 : (∃ w ∈ ws, 64 < w) → 16 ∣ base) :
    InOrder base offset ((slots offset ws).zip ws) (areaEnd offset ws) := by
  induction ws generalizing offset with
  | nil => rfl
  | cons w ws ih =>
    have hstart : (if 64 < w then 16 else 8) ∣ base + slotStart offset w := by
      unfold slotStart
      split_ifs with hw
      · exact Nat.dvd_add (h16 ⟨w, List.mem_cons_self, hw⟩) dvd_alignTo
      · exact Nat.dvd_add h8 hoffset
    have hnext : 8 ∣ slotStart offset w + slotSize w := by
      refine Nat.dvd_add (dvd_slotStart hoffset) ?_
      rw [slotSize_eq]
      exact Dvd.intro_left _ rfl
    exact ⟨le_slotStart, hstart, ih hnext fun ⟨v, hv, hlt⟩ =>
      h16 ⟨v, List.mem_cons_of_mem w hv, hlt⟩⟩

/-- Arguments are inside of their slots, and these of the area. -/
theorem slots_le (hws : ∀ w ∈ ws, ByteMemory.ValidWidth w) : ∀ p ∈ (slots offset ws).zip ws,
    offset ≤ p.1 ∧ p.1 + ByteMemory.numBytes p.2 ≤ areaEnd offset ws := by
  induction ws generalizing offset with
  | nil => exact fun p hp => absurd hp List.not_mem_nil
  | cons w ws ih =>
    intro p hp
    rcases List.mem_cons.mp hp with rfl | hp
    · have hend : slotStart offset w + slotSize w ≤ areaEnd (slotStart offset w + slotSize w) ws :=
        le_areaEnd
      have hsize := numBytes_le_slotSize (hws w List.mem_cons_self)
      exact ⟨le_slotStart, (Nat.add_le_add_left hsize _).trans hend⟩
    · obtain ⟨hle, hend⟩ := ih (fun v hv => hws v (List.mem_cons_of_mem w hv)) p hp
      exact ⟨(le_slotStart.trans (Nat.le_add_right _ _)).trans hle, hend⟩

/-- Where the area fits in an `unsigned`, so does the start of each of its slots. -/
theorem slotStart_lt (h : areaEnd offset (w :: ws) < 2 ^ 32) :
    slotStart offset w + slotSize w < 2 ^ 32 := lt_of_le_of_lt le_areaEnd h

theorem start_mod (h : areaEnd offset (w :: ws) < 2 ^ 32) :
    (if 64 < w then alignTo offset 16 % 2 ^ 32 else offset) = slotStart offset w := by
  have hlt := slotStart_lt h
  unfold slotStart at hlt ⊢
  split_ifs at hlt ⊢ with hw
  · exact Nat.mod_eq_of_lt (by omega)
  · rfl

theorem varArgsSize_eq (h : areaEnd offset ws < 2 ^ 32) :
    Executor.varArgsSize offset ws = areaEnd offset ws := by
  induction ws generalizing offset with
  | nil => rfl
  | cons w ws ih =>
    have hlt : slotStart offset w + alignTo w 64 / 8 < 2 ^ 32 := slotStart_lt h
    rw [Executor.varArgsSize, start_mod h, Nat.mod_eq_of_lt hlt]
    exact ih h

theorem varArgsSize_lt (hoffset : offset < 2 ^ 32) : Executor.varArgsSize offset ws < 2 ^ 32 := by
  induction ws generalizing offset with
  | nil => exact hoffset
  | cons w ws ih => exact ih (Nat.mod_lt _ (by decide))

end Layout

section Accesses

variable {isLittleEndian : Bool} {offset : Nat}

def writes (offset : Nat) (arguments : List Expr) : List Op :=
  ((slots offset (arguments.map (·.width))).zip arguments).map fun p => .writeAt p.1 p.2

def reads (offset : Nat) (ws : List Nat) : List Op :=
  ((slots offset ws).zip ws).map fun p => .readAt p.1 p.2

theorem writeVarArgs_eq {arguments : List Expr}
    (h : areaEnd offset (arguments.map (·.width)) < 2 ^ 32) :
    Executor.writeVarArgs isLittleEndian offset arguments = (do
      let _ ← run isLittleEndian (writes offset arguments)
      pure (slots offset (arguments.map (·.width)))) := by
  induction arguments generalizing offset with
  | nil => simp [Executor.writeVarArgs, writes, slots, run]
  | cons v vs ih =>
    have hlt : slotStart offset v.width + alignTo v.width 64 / 8 < 2 ^ 32 := slotStart_lt h
    have hrun : run isLittleEndian (writes offset (v :: vs)) = (do
        ObjectState.writeAt isLittleEndian (slotStart offset v.width) v
        run isLittleEndian (writes (slotStart offset v.width + slotSize v.width) vs)) := by
      have hcons : writes offset (v :: vs) = .writeAt (slotStart offset v.width) v ::
        writes (slotStart offset v.width + slotSize v.width) vs := rfl
      rw [hcons, run, Op.exec]
      simp
    have hrest : Executor.writeVarArgs isLittleEndian (slotStart offset v.width + slotSize v.width)
        vs = _ := ih h
    rw [Executor.writeVarArgs, start_mod h, Nat.mod_eq_of_lt hlt, hrun]
    rw [slotSize] at hrest
    simp only [hrest, bind_assoc, pure_bind, List.map_cons, slots]
    rfl

theorem alignTo_add {base : Nat} (h : 16 ∣ base) :
    alignTo (base + offset) 16 = base + alignTo offset 16 := by
  obtain ⟨k, rfl⟩ := h
  unfold alignTo
  omega

/-- After `va_start` no argument is looked for in registers. -/
theorem vaArg_of_start {l : VaList} (hgp : l.gp_offset = 48) (hfp : l.fp_offset = 304)
    (t : VaType) : l.vaArg t = (slotStart l.overflow_arg_area t.width, { l with
      overflow_arg_area := slotStart l.overflow_arg_area t.width + slotSize t.width }) := by
  have hregs : ¬ l.InRegisters t := by
    unfold VaList.InRegisters
    omega
  rw [VaList.vaArg, if_neg hregs]
  rfl

theorem readAll_eq {base : Nat} {l : VaList} {ts : List VaType}
    (h16 : (∃ w ∈ ts.map (·.width), 64 < w) → 16 ∣ base) (hgp : l.gp_offset = 48)
    (hfp : l.fp_offset = 304) (harea : l.overflow_arg_area = base + offset) :
    l.readAll isLittleEndian base ts =
      run isLittleEndian (reads offset (ts.map (·.width))) := by
  induction ts generalizing offset l with
  | nil => rfl
  | cons t ts ih =>
    have hstart : slotStart (base + offset) t.width = base + slotStart offset t.width := by
      unfold slotStart
      split_ifs with hw
      · exact alignTo_add (h16 ⟨t.width, by simp, hw⟩)
      · rfl
    have hcons : reads offset ((t :: ts).map (·.width)) =
      .readAt (slotStart offset t.width) t.width ::
        reads (slotStart offset t.width + slotSize t.width) (ts.map (·.width)) := rfl
    have harea' : slotStart l.overflow_arg_area t.width + slotSize t.width =
        base + (slotStart offset t.width + slotSize t.width) := by
      rw [harea, hstart, Nat.add_assoc]
    have hrest : VaList.readAll isLittleEndian base { l with
        overflow_arg_area := slotStart l.overflow_arg_area t.width + slotSize t.width } ts = _ :=
      ih (fun ⟨w, hw, hlt⟩ => h16 ⟨w, List.mem_cons_of_mem _ hw, hlt⟩) hgp hfp harea'
    rw [VaList.readAll, vaArg_of_start hgp hfp, hcons, run, Op.exec]
    dsimp only
    rw [hrest, harea, hstart, Nat.add_sub_cancel_left]
    simp

theorem run_append (ops ops' : List Op) : run isLittleEndian (ops ++ ops') = (do
    let vs ← run isLittleEndian ops
    let vs' ← run isLittleEndian ops'
    pure (vs ++ vs')) := by
  induction ops with
  | nil => simp [run]
  | cons op ops ih =>
    simp only [List.cons_append, run, ih, bind_assoc, pure_bind, List.append_assoc]

theorem mem_writes {op : Op} {arguments : List Expr} (h : op ∈ writes offset arguments)
    (hws : ∀ e ∈ arguments, ByteMemory.ValidWidth e.width) :
    ∃ o, ∃ e ∈ arguments, op = .writeAt o e ∧
      o + ByteMemory.numBytes e.width ≤ areaEnd offset (arguments.map (·.width)) := by
  obtain ⟨p, hp, rfl⟩ := List.mem_map.mp h
  have hws' : ∀ w ∈ arguments.map (·.width), ByteMemory.ValidWidth w := by
    simpa using hws
  have hmem : (p.1, p.2.width) ∈ (slots offset (arguments.map (·.width))).zip
      (arguments.map (·.width)) := by
    rw [List.zip_map_right]
    exact List.mem_map.mpr ⟨p, hp, rfl⟩
  exact ⟨p.1, p.2, (List.of_mem_zip hp).2, rfl, (slots_le hws' _ hmem).2⟩

theorem mem_reads {op : Op} {ws : List Nat} (h : op ∈ reads offset ws)
    (hws : ∀ w ∈ ws, ByteMemory.ValidWidth w) :
    ∃ o, ∃ w ∈ ws, op = .readAt o w ∧ o + ByteMemory.numBytes w ≤ areaEnd offset ws := by
  obtain ⟨p, hp, rfl⟩ := List.mem_map.mp h
  exact ⟨p.1, p.2, (List.of_mem_zip hp).2, rfl, (slots_le hws p hp).2⟩

end Accesses

section ReadBack

variable {σ : Assignment} {isLittleEndian : Bool} {offset : Nat}

theorem runMemory_append (ops ops' : List Op) (m : ByteMemory) :
    runMemory σ isLittleEndian (ops ++ ops') m =
      ((runMemory σ isLittleEndian ops m).1 ++
        (runMemory σ isLittleEndian ops' (runMemory σ isLittleEndian ops m).2).1,
        (runMemory σ isLittleEndian ops' (runMemory σ isLittleEndian ops m).2).2) := by
  induction ops generalizing m with
  | nil => rfl
  | cons op ops ih => simp only [List.cons_append, runMemory, ih, List.append_assoc]

def values (σ : Assignment) (arguments : List Expr) : List ConstantExpr :=
  arguments.map fun e => ⟨e.width, e.eval σ e.width⟩

/-- The writes change nothing below the area, and the reads find the arguments. -/
theorem runMemory_writes (σ : Assignment) (isLittleEndian : Bool) (offset : Nat)
    {arguments : List Expr}
    (hws : ∀ e ∈ arguments, ByteMemory.ValidWidth e.width) (m : ByteMemory) :
    (∀ a < offset, (runMemory σ isLittleEndian (writes offset arguments) m).2 a = m a) ∧
    (runMemory σ isLittleEndian (writes offset arguments) m).1 = [] ∧
    (runMemory σ isLittleEndian (reads offset (arguments.map (·.width)))
      (runMemory σ isLittleEndian (writes offset arguments) m).2).1 = values σ arguments := by
  induction arguments generalizing offset m with
  | nil => exact ⟨fun _ _ => rfl, rfl, rfl⟩
  | cons v vs ih =>
    have hv := hws v List.mem_cons_self
    obtain ⟨hbelow, hnone, hreads⟩ := ih (slotStart offset v.width + slotSize v.width)
      (fun e he => hws e (List.mem_cons_of_mem v he))
      (m.write isLittleEndian (slotStart offset v.width) (v.eval σ v.width))
    have hle : offset ≤ slotStart offset v.width := le_slotStart
    refine ⟨fun a ha => ?_, hnone, ?_⟩
    · have hwrite : m.write isLittleEndian (slotStart offset v.width) (v.eval σ v.width) a = m a :=
        ByteMemory.write_of_notMem _ (.inl (by omega))
      exact (hbelow a (by omega)).trans hwrite
    · refine congrArg₂ List.cons ?_ hreads
      have hback : (m.write isLittleEndian (slotStart offset v.width) (v.eval σ v.width)).read
          isLittleEndian (slotStart offset v.width) v.width = v.eval σ v.width :=
        ByteMemory.read_write hv _
      refine congrArg (ConstantExpr.mk v.width)
        ((ByteMemory.read_congr hv fun i hi => ?_).trans hback)
      exact hbelow _ (Nat.add_lt_add_left (lt_of_lt_of_le hi (numBytes_le_slotSize hv)) _)

end ReadBack

section Area

open Hoare

variable {isLittleEndian : Bool}

/-- Every argument is written inside of an area of the size that is computed, in a slot of its
own: the slots are in order and aligned, and the last ends the area. Then `va_arg` finds all
arguments, whatever registers their types would go in. -/
def AreaRight (isLittleEndian : Bool) (base constArrId : Nat) (arguments : List Expr) : Prop :=
  ∃ offsets z, Executor.writeVarArgs isLittleEndian 0 arguments
      ⟨ofMemoryObject (Executor.varArgsSize 0 (arguments.map (·.width)))
        (varArgsSize_lt (by decide)), constArrId⟩ = .ok (offsets, z) ∧
    InOrder base 0 (offsets.zip (arguments.map (·.width)))
      (Executor.varArgsSize 0 (arguments.map (·.width))) ∧
    (∀ p ∈ offsets.zip (arguments.map (·.width)),
      p.1 + ByteMemory.numBytes p.2 ≤ Executor.varArgsSize 0 (arguments.map (·.width))) ∧
    ∀ types : List VaType, types.map (·.width) = arguments.map (·.width) →
      ∃ vs z', (Executor.vaStart base).readAll isLittleEndian base types z = .ok (vs, z') ∧
        ∀ σ, List.Forall₂ (HasValue σ) vs (values σ arguments)

theorem readAt_validWidth (offset w : Nat) : Triple (fun _ => True)
    (ObjectState.readAt isLittleEndian offset w) (fun _ _ => ByteMemory.ValidWidth w)
    (fun _ => True) := by
  unfold ObjectState.readAt ObjectState.readWidth
  refine triple_ite (fun hw => ?_) fun hw => triple_ite (fun hw8 => ?_) fun _ =>
    triple_throw trivial
  · intro s _
    split
    · exact .inl hw
    · trivial
  · cases hk : w / 8 with
    | zero => exact triple_throw trivial
    | succ k =>
      intro s _
      split
      · exact .inr ⟨k, by omega⟩
      · trivial

theorem readAll_validWidth (isLittleEndian : Bool) (base : Nat) (l : VaList) (ts : List VaType) : Triple (fun _ => True)
    (l.readAll isLittleEndian base ts) (fun _ _ => ∀ t ∈ ts, ByteMemory.ValidWidth t.width)
    (fun _ => True) := by
  induction ts generalizing l with
  | nil => exact triple_pure fun _ _ => by simp
  | cons t ts ih =>
    refine (readAt_validWidth _ t.width).bind fun e => ?_
    have hrest : Triple (fun _ => True ∧ ByteMemory.ValidWidth t.width)
        (l.vaArg t |>.2.readAll isLittleEndian base ts)
        (fun _ _ => ∀ u ∈ t :: ts, ByteMemory.ValidWidth u.width) fun _ => True :=
      triple_and fun ht => (ih _).post fun _ _ hts => List.forall_mem_cons.mpr ⟨ht, hts⟩
    exact (hrest.pre fun _ h => ⟨trivial, h⟩).bind fun es => triple_pure fun _ h => h

/-- Uses of a new object that are all in bounds and at offsets that do not fold succeed. -/
theorem exists_run (isLittleEndian : Bool) {n : Nat} (hn : n < 2 ^ 32) (constArrId : Nat)
    {ops : List Op}
    (hops : ∀ op ∈ ops, op.WellFormed ∧ ¬ op.Folds ∧ ∀ σ, op.InBounds σ n) :
    ∃ vs z, run isLittleEndian ops ⟨ofMemoryObject n hn, constArrId⟩ = .ok (vs, z) ∧
      ∀ σ, List.Forall₂ (HasValue σ) vs (runMemory σ isLittleEndian ops fun _ => 0).1 := by
  have hnew (s : Option Assignment) : Rep s n (s.elim (fun _ => 0) fun _ _ => 0)
      (ofMemoryObject n hn) := (Initial.concrete hn).rep
  have hrun (s : Option Assignment) : Triple
      (fun z => Rep s n (s.elim (fun _ => 0) fun _ _ => 0) z.object) (run isLittleEndian ops)
      (After s n (s.elim (fun _ => 0) fun _ _ => 0) isLittleEndian ops) (Fails s n ops) :=
    run_triple fun op hop => (hops op hop).1
  cases hr : run isLittleEndian ops ⟨ofMemoryObject n hn, constArrId⟩ with
  | error f =>
    obtain ⟨-, -, hfails⟩ := (hrun (some fun _ _ => 0)).of_error (hnew _) hr
    obtain ⟨-, op, hop, hfolds⟩ := hfails _ rfl fun op hop => (hops op hop).2.2 _
    exact absurd hfolds (hops op hop).2.1
  | ok r =>
    refine ⟨r.1, r.2, rfl, fun σ => ?_⟩
    obtain ⟨c', -, hvalues⟩ := (hrun (some σ)).of_ok (hnew _) hr
    exact (hvalues σ rfl fun op hop => (hops op hop).2.2 σ).2

/-- The writes and then the reads, on an object of the size of the area. -/
theorem exists_run_writes (isLittleEndian : Bool) (constArrId : Nat) {arguments : List Expr}
    (hsorted : ∀ e ∈ arguments, e.WellSorted)
    (hws : ∀ e ∈ arguments, ByteMemory.ValidWidth e.width)
    (hsize : areaEnd 0 (arguments.map (·.width)) < 2 ^ 32) :
    ∃ z vs z', run isLittleEndian (writes 0 arguments)
        ⟨ofMemoryObject (areaEnd 0 (arguments.map (·.width))) hsize, constArrId⟩ = .ok ([], z) ∧
      run isLittleEndian (reads 0 (arguments.map (·.width))) z = .ok (vs, z') ∧
      ∀ σ, List.Forall₂ (HasValue σ) vs (values σ arguments) := by
  have hws' : ∀ w ∈ arguments.map (·.width), ByteMemory.ValidWidth w := by
    simpa using hws
  have hwrites : ∀ op ∈ writes 0 arguments, op.WellFormed ∧ ¬ op.Folds ∧
      ∀ σ, op.InBounds σ (areaEnd 0 (arguments.map (·.width))) := by
    intro op hop
    obtain ⟨o, e, he, rfl, hle⟩ := mem_writes hop hws
    exact ⟨⟨hsorted e he, hws e he⟩, id, fun _ => hle⟩
  have hreads : ∀ op ∈ reads 0 (arguments.map (·.width)), op.WellFormed ∧ ¬ op.Folds ∧
      ∀ σ, op.InBounds σ (areaEnd 0 (arguments.map (·.width))) := by
    intro op hop
    obtain ⟨o, w, hw, rfl, hle⟩ := mem_reads hop hws'
    exact ⟨hws' w hw, id, fun _ => hle⟩
  have hall : ∀ op ∈ writes 0 arguments ++ reads 0 (arguments.map (·.width)), op.WellFormed ∧
      ¬ op.Folds ∧ ∀ σ, op.InBounds σ (areaEnd 0 (arguments.map (·.width))) := fun op hop =>
    (List.mem_append.mp hop).elim (hwrites op) (hreads op)
  obtain ⟨vs₁, z, hz, hvs₁⟩ := exists_run isLittleEndian hsize constArrId hwrites
  obtain ⟨vs₂, z', hz', hvs₂⟩ := exists_run isLittleEndian hsize constArrId hall
  obtain ⟨-, hnone, -⟩ := runMemory_writes (fun _ _ => 0) isLittleEndian 0 hws fun _ => 0
  have hvs := hvs₁ fun _ _ => 0
  rw [hnone, List.forall₂_nil_right_iff] at hvs
  subst hvs
  have happend : run isLittleEndian (reads 0 (arguments.map (·.width))) z = .ok (vs₂, z') := by
    rw [run_append] at hz'
    cases hr : run isLittleEndian (reads 0 (arguments.map (·.width))) z with
    | error f =>
      simp [bind, StateT.bind, Except.bind, hz, hr] at hz'
    | ok r =>
      simpa [bind, StateT.bind, Except.bind, pure, StateT.pure, Except.pure, hz, hr] using hz'
  refine ⟨z, vs₂, z', hz, happend, fun σ => ?_⟩
  obtain ⟨-, hnone, hback⟩ := runMemory_writes σ isLittleEndian 0 hws fun _ => 0
  have hvalues := hvs₂ σ
  rw [runMemory_append, hnone, hback] at hvalues
  exact hvalues

/-- Where the area fits in its size, all of this holds exactly if the object takes each of the
arguments. -/
theorem areaRight_iff (isLittleEndian : Bool) {base : Nat} (constArrId : Nat)
    {arguments : List Expr} (hsorted : ∀ e ∈ arguments, e.WellSorted)
    (hbase : Executor.varArgsAlignment (arguments.map (·.width)) ∣ base)
    (hsize : areaEnd 0 (arguments.map (·.width)) < 2 ^ 32) :
    AreaRight isLittleEndian base constArrId arguments ↔
      ∀ e ∈ arguments, ByteMemory.ValidWidth e.width := by
  obtain ⟨h8, h16⟩ := dvd_base hbase
  constructor
  · rintro ⟨offsets, z, -, -, -, hread⟩ e he
    obtain ⟨vs, z', hvs, -⟩ := hread (arguments.map fun e => ⟨e.width, 0, 0⟩) (by simp)
    have hwidths := (readAll_validWidth isLittleEndian base
      (Executor.vaStart base) (arguments.map fun e => ⟨e.width, 0, 0⟩)).of_ok trivial hvs
    exact hwidths ⟨e.width, 0, 0⟩ (List.mem_map.mpr ⟨e, he, rfl⟩)
  · intro hws
    have hws' : ∀ w ∈ arguments.map (·.width), ByteMemory.ValidWidth w := by
      simpa using hws
    obtain ⟨z, vs, z', hz, hvs, hvalues⟩ :=
      exists_run_writes isLittleEndian constArrId hsorted hws hsize
    unfold AreaRight
    simp only [varArgsSize_eq hsize]
    refine ⟨slots 0 (arguments.map (·.width)), z, ?_, inOrder_slots (dvd_zero 8) h8 h16,
      fun p hp => (slots_le hws' p hp).2, fun types htypes => ⟨vs, z', ?_, hvalues⟩⟩
    · rw [writeVarArgs_eq hsize]
      simp [bind, StateT.bind, Except.bind, pure, StateT.pure, Except.pure, hz]
    · have hread : (Executor.vaStart base).readAll isLittleEndian base types =
          run isLittleEndian (reads 0 (types.map (·.width))) :=
        readAll_eq (by rw [htypes]; exact h16) rfl rfl rfl
      rw [hread, htypes]
      exact hvs

theorem areaRight_fp80 : AreaRight true 4096 0
    [.constant (.alloc 7 32), .constant (.alloc 1 80), .constant (.alloc 5 64)] := by
  refine (areaRight_iff true 0 (by simp [Expr.WellSorted]) (by decide) (by decide)).mpr ?_
  simp only [List.forall_mem_cons]
  exact ⟨.inr ⟨3, rfl⟩, .inr ⟨9, rfl⟩, .inr ⟨7, rfl⟩, by simp⟩

/-- An argument of 12 bits is not written. -/
theorem not_areaRight_twelve : ¬ AreaRight true 4096 0 [.constant (.alloc 7 12)] := by
  rintro ⟨offsets, z, h, -⟩
  cases h

end Area

end Klee.VarArgs
