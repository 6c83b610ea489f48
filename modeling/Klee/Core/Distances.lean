import Klee.Lib.Relaxation

/-! `StatsTracker::computeReachableUncovered`: how far each instruction is from a return of its
function and from uncovered code. -/
namespace Klee.StatsTracker

open Relaxation

structure Inst where
  fn : Nat
  bb : Nat
  idx : Nat
deriving DecidableEq, Repr

/-- What a call site calls, where `function` is one that `getDirectCallTarget` finds. -/
inductive CalledValue where
  | inlineAsm
  | function (f : Nat)
  | indirect
deriving DecidableEq, Repr

inductive InstKind where
  | ret
  | call (called : CalledValue)
  | invoke (called : CalledValue)
  | other
deriving DecidableEq, Repr

structure BasicBlock where
  insts : List InstKind
  succs : List Nat
deriving DecidableEq, Repr

structure Fn where
  blocks : List BasicBlock
  doesNotReturn : Bool
deriving DecidableEq, Repr

def Fn.isDeclaration (fn : Fn) : Bool := fn.blocks.isEmpty

/-- A block has instructions, and its successors are blocks of its function. -/
def Fn.WellFormed (fn : Fn) : Prop :=
  ∀ bb ∈ fn.blocks, bb.insts ≠ [] ∧ ∀ b ∈ bb.succs, b < fn.blocks.length

instance (fn : Fn) : Decidable fn.WellFormed := by
  unfold Fn.WellFormed
  infer_instance

structure Module where
  functions : List Fn
  escapingFunctions : List Nat
  wellFormed : ∀ fn ∈ functions, fn.WellFormed

namespace Module

variable (m : Module)

def block? (i : Inst) : Option BasicBlock := do
  let fn ← m.functions[i.fn]?
  fn.blocks[i.bb]?

def kind? (i : Inst) : Option InstKind := do
  let bb ← m.block? i
  bb.insts[i.idx]?

def instructions : List Inst :=
  (List.range m.functions.length).flatMap fun f =>
    (List.range ((m.functions[f]?).elim 0 (·.blocks.length))).flatMap fun b =>
      (List.range ((m.block? ⟨f, b, 0⟩).elim 0 (·.insts.length))).map fun i => ⟨f, b, i⟩

def entry (f : Nat) : Inst := ⟨f, 0, 0⟩

def isDeclaration (f : Nat) : Bool := (m.functions[f]?).elim true Fn.isDeclaration

/-- The first instructions of the blocks that come next if it is the last of its block, and else
the next of the block. -/
def getSuccs (i : Inst) : List Inst :=
  (m.block? i).elim [] fun bb =>
    if i.idx + 1 = bb.insts.length then bb.succs.map fun b => ⟨i.fn, b, 0⟩
    else [⟨i.fn, i.bb, i.idx + 1⟩]

def targets : CalledValue → List Nat
  | .inlineAsm => []
  | .function f => [f]
  | .indirect => m.escapingFunctions

/-- `none` for what is not a call site -/
def callTargets (i : Inst) : Option (List Nat) :=
  match m.kind? i with
  | some (.call called) => some (m.targets called)
  | some (.invoke called) => some (m.targets called)
  | _ => none

theorem mem_instructions {i : Inst} :
    i ∈ m.instructions ↔ ∃ bb, m.block? i = some bb ∧ i.idx < bb.insts.length := by
  obtain ⟨f, b, k⟩ := i
  simp only [instructions, List.mem_flatMap, List.mem_map, List.mem_range, Inst.mk.injEq]
  constructor
  · rintro ⟨f', _, b', _, k', hk, rfl, rfl, rfl⟩
    cases hbb : m.block? ⟨f', b', 0⟩ with
    | none => simp [hbb] at hk
    | some bb => exact ⟨bb, hbb, by simpa [hbb] using hk⟩
  · rintro ⟨bb, hbb, hk⟩
    obtain ⟨fn, hfn, hb⟩ := Option.bind_eq_some_iff.mp hbb
    obtain ⟨hf, -⟩ := List.getElem?_eq_some_iff.mp hfn
    obtain ⟨hb', -⟩ := List.getElem?_eq_some_iff.mp hb
    have hbb' : m.block? ⟨f, b, 0⟩ = some bb := hbb
    exact ⟨f, hf, b, by simpa [hfn] using hb', k, by simpa [hbb'] using hk, rfl, rfl, rfl⟩

theorem instructions_nodup : m.instructions.Nodup := by
  have hpairwise (key : Inst → Nat) (n : Nat) (l : Nat → List Inst)
      (hl : ∀ k, ∀ i ∈ l k, key i = k) :
      (List.range n).Pairwise (Function.onFun List.Disjoint l) :=
    List.nodup_range.imp fun {k k'} hne i hi hi' => hne ((hl k i hi).symm.trans (hl k' i hi'))
  unfold instructions
  refine List.nodup_flatMap.mpr ⟨fun f _ => List.nodup_flatMap.mpr ⟨fun b _ => ?_, ?_⟩, ?_⟩
  · exact List.nodup_range.map fun i j h => congrArg Inst.idx h
  · refine hpairwise Inst.bb _ _ fun b i hi => ?_
    obtain ⟨k, -, rfl⟩ := List.mem_map.mp hi
    rfl
  · refine hpairwise Inst.fn _ _ fun f i hi => ?_
    obtain ⟨b, -, hi⟩ := List.mem_flatMap.mp hi
    obtain ⟨k, -, rfl⟩ := List.mem_map.mp hi
    rfl

theorem block?_of_functions {i : Inst} {fn : Fn} (h : m.functions[i.fn]? = some fn) :
    m.block? i = fn.blocks[i.bb]? := by simp [block?, h]

theorem first_mem_instructions {f b : Nat} {fn : Fn} (hfn : m.functions[f]? = some fn)
    (hb : b < fn.blocks.length) : ⟨f, b, 0⟩ ∈ m.instructions := by
  have hblock : m.block? ⟨f, b, 0⟩ = some fn.blocks[b] := by
    rw [m.block?_of_functions hfn, List.getElem?_eq_getElem hb]
  have hwf := m.wellFormed fn (List.mem_of_getElem? hfn) _ (List.getElem_mem hb)
  exact m.mem_instructions.mpr ⟨_, hblock, List.length_pos_of_ne_nil hwf.1⟩

theorem mem_of_mem_getSuccs {i j : Inst} (hi : i ∈ m.instructions) (hj : j ∈ m.getSuccs i) :
    j ∈ m.instructions := by
  obtain ⟨bb, hbb, hidx⟩ := m.mem_instructions.mp hi
  obtain ⟨fn, hfn, hb⟩ := Option.bind_eq_some_iff.mp hbb
  rw [getSuccs, hbb, Option.elim_some] at hj
  split at hj
  · obtain ⟨b, hmem, rfl⟩ := List.mem_map.mp hj
    have hwf := m.wellFormed fn (List.mem_of_getElem? hfn) bb (List.mem_of_getElem? hb)
    exact m.first_mem_instructions hfn (hwf.2 b hmem)
  · rw [List.mem_singleton.mp hj]
    have hnext : i.idx + 1 < bb.insts.length := by omega
    exact m.mem_instructions.mpr ⟨bb, hbb, hnext⟩

theorem isDeclaration_eq_false {f : Nat} :
    m.isDeclaration f = false ↔ ∃ fn, m.functions[f]? = some fn ∧ 0 < fn.blocks.length := by
  unfold isDeclaration Fn.isDeclaration
  cases m.functions[f]? with
  | none => simp
  | some fn => simp [List.isEmpty_eq_false_iff, List.length_pos_iff]

theorem entry_mem_instructions {f : Nat} (hf : m.isDeclaration f = false) :
    entry f ∈ m.instructions := by
  obtain ⟨fn, hfn, hb⟩ := m.isDeclaration_eq_false.mp hf
  exact m.first_mem_instructions hfn hb

theorem isDeclaration_fn {i : Inst} (hi : i ∈ m.instructions) : m.isDeclaration i.fn = false := by
  obtain ⟨bb, hbb, -⟩ := m.mem_instructions.mp hi
  obtain ⟨fn, hfn, hb⟩ := Option.bind_eq_some_iff.mp hbb
  obtain ⟨hb', -⟩ := List.getElem?_eq_some_iff.mp hb
  exact m.isDeclaration_eq_false.mpr ⟨fn, hfn, by omega⟩

end Module

/-- The numbers of the instructions and of the functions, each in the order in which its map has
them. -/
structure InstructionInfoTable (m : Module) where
  infos : List Inst
  functionInfos : List Nat
  infos_nodup : infos.Nodup
  functionInfos_nodup : functionInfos.Nodup
  mem_infos : ∀ i, i ∈ infos ↔ i ∈ m.instructions
  mem_functionInfos : ∀ f, f ∈ functionInfos ↔ f < m.functions.length

namespace InstructionInfoTable

def inOrder (m : Module) : InstructionInfoTable m where
  infos := m.instructions
  functionInfos := List.range m.functions.length
  infos_nodup := m.instructions_nodup
  functionInfos_nodup := List.nodup_range
  mem_infos _ := Iff.rfl
  mem_functionInfos _ := List.mem_range

variable {m : Module} (infos : InstructionInfoTable m)

def getInfo (i : Inst) : Nat := infos.infos.idxOf i

def getFunctionInfo (f : Nat) : Nat := infos.infos.length + infos.functionInfos.idxOf f

theorem getInfo_inj {i j : Inst} (hi : i ∈ m.instructions) (h : infos.getInfo i = infos.getInfo j) :
    i = j := (List.idxOf_inj ((infos.mem_infos i).mpr hi)).mp h

theorem getInfo_ne_getFunctionInfo {i : Inst} (hi : i ∈ m.instructions) (f : Nat) :
    infos.getInfo i ≠ infos.getFunctionInfo f := by
  have hlt : infos.getInfo i < infos.infos.length :=
    List.idxOf_lt_length_of_mem ((infos.mem_infos i).mpr hi)
  unfold getFunctionInfo
  omega

end InstructionInfoTable

section Returns

variable (m : Module) (infos : InstructionInfoTable m)

structure ReturnTables where
  minDistToReturn : Nat → Nat
  functionShortestPath : Nat → Nat

def initReturn : ReturnTables where
  minDistToReturn := setAll infos.getInfo (fun i => if m.kind? i = some .ret then 1 else 0)
    m.instructions fun _ => 0
  functionShortestPath f := (m.functions[f]?).elim 0 fun fn =>
    if fn.isDeclaration then if fn.doesNotReturn then 0 else 1 else 0

/-- The shortest way through a call, which is an `unsigned`. -/
def throughCall (functionShortestPath : Nat → Nat) (targets : List Nat) : Nat :=
  targets.foldl (fun bestThrough f =>
    let dist := functionShortestPath f
    if dist ≠ 0 then
      if bestThrough = 0 ∨ 1 + dist < bestThrough then (1 + dist) % 2 ^ 32 else bestThrough
    else bestThrough) 0

def bestThrough (functionShortestPath : Nat → Nat) (i : Inst) : Nat :=
  (m.callTargets i).elim 1 (throughCall functionShortestPath)

/-- The best distance from an instruction to a return, by what the tables say. -/
def bestReturn (i : Inst) (t : ReturnTables) : Nat :=
  best (fun j => further (bestThrough m t.functionShortestPath i)
      (t.minDistToReturn (infos.getInfo j)))
    (t.minDistToReturn (infos.getInfo i)) (m.getSuccs i)

/-- The distance of an instruction is set, and with that of a first instruction the length of the
shortest path through its function, an `unsigned`. -/
def ReturnTables.set (i : Inst) (best : Nat) (t : ReturnTables) : ReturnTables where
  minDistToReturn := Function.update t.minDistToReturn (infos.getInfo i) best
  functionShortestPath :=
    if i = Module.entry i.fn then Function.update t.functionShortestPath i.fn (best % 2 ^ 32)
    else t.functionShortestPath

/-- The body of the loop, and whether it sets `changed`. -/
def visitReturn (i : Inst) (t : ReturnTables) : ReturnTables × Bool :=
  if bestThrough m t.functionShortestPath i = 0 then (t, false) else
    let cur := t.minDistToReturn (infos.getInfo i)
    let best := bestReturn m infos i t
    if best ≠ cur ∨ i = Module.entry i.fn ∧ t.functionShortestPath i.fn ≠ best then
      (t.set m infos i best, true)
    else (t, false)

/-- The first part of `computeReachableUncovered`; `none` where `fuel` sweeps are not enough. -/
def computeReturn (fuel : Nat) : Option ReturnTables :=
  loop (visitReturn m infos) m.instructions.reverse fuel (initReturn m infos)

end Returns

section Uncovered

variable (m : Module) (infos : InstructionInfoTable m) (returns : ReturnTables)

def initUncovered (uncovered : Inst → Bool) : Nat → Nat :=
  setAll infos.getInfo (fun i => if uncovered i then 1 else 0) m.instructions fun _ => 0

def calleeDist (table : Nat → Nat) (f : Nat) : Nat :=
  if m.isDeclaration f then 0 else table (infos.getFunctionInfo f)

/-- The best distance from an instruction to uncovered code, by what the table says. -/
def bestUncovered (i : Inst) (table : Nat → Nat) : Nat :=
  let within := best (fun f => further 1 (calleeDist m infos table f))
    (table (infos.getInfo i)) ((m.callTargets i).getD [])
  let through := bestThrough m returns.functionShortestPath i
  if through = 0 then within else
    best (fun j => further through (table (infos.getInfo j))) within (m.getSuccs i)

def visitUncovered (i : Inst) (table : Nat → Nat) : (Nat → Nat) × Bool :=
  let best := bestUncovered m infos returns i table
  if best ≠ table (infos.getInfo i) then
    (Function.update table (infos.getInfo i) best, true)
  else (table, false)

/-- `minDistToUncovered` at the end of the second loop -/
def computeUncovered (uncovered : Inst → Bool) (fuel : Nat) : Option (Nat → Nat) :=
  loop (visitUncovered m infos returns) m.instructions.reverse fuel
    (initUncovered m infos uncovered)

/-- The instruction that comes next in the `KFunction`; `none` past its last one. -/
def nextInst (i : Inst) : Option Inst :=
  (m.block? i).bind fun bb =>
    if i.idx + 1 < bb.insts.length then some ⟨i.fn, i.bb, i.idx + 1⟩
    else (m.block? ⟨i.fn, i.bb + 1, 0⟩).map fun _ => ⟨i.fn, i.bb + 1, 0⟩

def computeMinDistToUncovered (table : Nat → Nat) (ki : Inst) (minDistAtRA : Nat) : Nat :=
  if minDistAtRA = 0 then table (infos.getInfo ki) else
    let minDistLocal := table (infos.getInfo ki)
    let distToReturn := returns.minDistToReturn (infos.getInfo ki)
    if distToReturn = 0 then minDistLocal
    else if minDistLocal = 0 then distToReturn + minDistAtRA
    else min minDistLocal (distToReturn + minDistAtRA)

/-- The loop over a call stack: `minDistToUncoveredOnReturn` of each frame from the first to the
last, from the call sites that the frames after the first return to and the distance on return of
the first; `none` where a call site has no next instruction. -/
def onReturn (table : Nat → Nat) : List Inst → Nat → Option (List Nat)
  | [], currentFrameMinDist => some [currentFrameMinDist]
  | caller :: callers, currentFrameMinDist => do
    let kii ← nextInst m caller
    let rest ← onReturn table callers
      (computeMinDistToUncovered m infos returns table kii currentFrameMinDist)
    some (currentFrameMinDist :: rest)

end Uncovered

end Klee.StatsTracker
