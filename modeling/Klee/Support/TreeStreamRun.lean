import Klee.Support.TreeStream

/-! Streams over whole runs: openings, writes, flushes and reads in any order. -/
namespace Klee
namespace TreeStreamWriter

inductive StreamOp where
  | openFrom (os : Nat)
  | write (os : Nat) (s : List UInt8)
  | flush
  | readStream (id : Nat)

namespace StreamOp

def exec (w : TreeStreamWriter) : StreamOp → TreeStreamWriter
  | openFrom os => (w.openFrom (.ofNat 32 os)).1
  | write os s => w.write (.ofNat 32 os) s
  | flush => w.flushBuffer
  | readStream _ => w.flushBuffer

def opens : StreamOp → Nat
  | openFrom _ => 1
  | _ => 0

def size : StreamOp → Nat
  | write _ s => s.length
  | _ => 0

def written (id : Nat) : StreamOp → List UInt8
  | write os s => if os = id then s else []
  | _ => []

/-- With `n` open streams: a stream is opened from none or from one that is open, and only
open streams are used. -/
def Legal (n : Nat) : StreamOp → Prop
  | openFrom os => os ≤ n
  | write os _ => 0 < os ∧ os ≤ n
  | flush => True
  | readStream id => 0 < id ∧ id ≤ n

end StreamOp

def run (w : TreeStreamWriter) (ops : List StreamOp) : TreeStreamWriter := ops.foldl StreamOp.exec w

def opens (ops : List StreamOp) : Nat := (ops.map StreamOp.opens).sum

def size (ops : List StreamOp) : Nat := (ops.map StreamOp.size).sum

def Legal : Nat → List StreamOp → Prop
  | _, [] => True
  | n, op :: ops => op.Legal n ∧ Legal (n + op.opens) ops

/-- The first `n` streams are open. -/
structure Opened (w : TreeStreamWriter) (n : Nat) : Prop where
  inv : w.Inv
  ids : w.ids.toNat = n + 1
  isOpen : ∀ i, 0 < i → i ≤ n → w.IsOpen (.ofNat 32 i)

variable {w : TreeStreamWriter} {n id : Nat} {op : StreamOp} {ops : List StreamOp}

theorem opened_empty : empty.Opened 0 where
  inv := inv_empty
  ids := rfl
  isOpen _ hpos hle := absurd hpos (Nat.not_lt.mpr hle)

theorem ofNat_inj {i j : Nat} (hi : i < 2 ^ 31) (hj : j < 2 ^ 31) :
    BitVec.ofNat 32 i = BitVec.ofNat 32 j ↔ i = j := by
  constructor
  · intro heq
    have hmod := congrArg BitVec.toNat heq
    rw [BitVec.toNat_ofNat, BitVec.toNat_ofNat] at hmod
    omega
  · exact congrArg _

theorem Opened.next (h : w.Opened n) : w.ids = .ofNat 32 (n + 1) := by
  rw [← h.ids, BitVec.ofNat_toNat, BitVec.setWidth_eq]

theorem streams_flushBuffer (w : TreeStreamWriter) : w.flushBuffer.streams = w.streams := by
  rw [streams, flushBuffer_flushBuffer, streams]

theorem Opened.flushBuffer (h : w.Opened n) : w.flushBuffer.Opened n where
  inv := h.inv.flushBuffer
  ids := by
    rw [ids_flushBuffer]
    exact h.ids
  isOpen i hpos hle := by
    rw [IsOpen, h.inv.opened_flushBuffer]
    exact h.isOpen i hpos hle

theorem Opened.streams_zero (h : w.Opened n) : w.streams 0 = [] := by
  have hfile := h.inv.flushBuffer.file
  exact hfile.contents_eq_nil hfile.zero_notMem

theorem Opened.openFrom {os : Nat} (h : w.Opened n) (hos : os ≤ n) (hn : n + 2 < 2 ^ 31) :
    (w.openFrom (.ofNat 32 os)).1.Opened (n + 1) ∧
      (w.openFrom (.ofNat 32 os)).1.streams =
        Function.update w.streams (.ofNat 32 (n + 1)) (w.streams (.ofNat 32 os)) := by
  have hos' : BitVec.ofNat 32 os = 0 ∨ w.IsOpen (.ofNat 32 os) := by
    cases Nat.eq_zero_or_pos os with
    | inl heq => exact .inl (heq ▸ rfl)
    | inr hpos => exact .inr (h.isOpen os hpos hos)
  have hids : w.ids.toNat < 2 ^ 31 := by
    rw [h.ids]
    exact Nat.lt_of_succ_lt hn
  obtain ⟨hinv, -, hopen, hstreams⟩ := h.inv.openFrom hos' hids
  rw [h.next] at hopen hstreams
  refine ⟨⟨hinv, ?_, fun i hpos hle => (hopen _).mpr ?_⟩, hstreams⟩
  · have hnext : (w.openFrom (.ofNat 32 os)).1.ids = w.ids + 1 := by
      simp [TreeStreamWriter.openFrom]
    rw [hnext, BitVec.toNat_add, h.ids]
    exact Nat.mod_eq_of_lt (by simp; omega)
  · cases Nat.le_succ_iff.mp hle with
    | inl hle => exact .inl (h.isOpen i hpos hle)
    | inr heq => exact .inr (congrArg _ heq)

/-- One operation: the streams that were open get the bytes that are written to them. -/
theorem Opened.exec (h : w.Opened n) (hop : op.Legal n) (hn : n + op.opens + 1 < 2 ^ 31)
    (hsize : op.size < 2 ^ 31) :
    (op.exec w).Opened (n + op.opens) ∧ ∀ id, 0 < id → id ≤ n →
      (op.exec w).streams (.ofNat 32 id) = w.streams (.ofNat 32 id) ++ op.written id := by
  cases op with
  | openFrom os =>
    obtain ⟨hopened, hstreams⟩ := h.openFrom hop hn
    have hn : n + 1 + 1 < 2 ^ 31 := hn
    refine ⟨hopened, fun id _ hle => ?_⟩
    have hne : BitVec.ofNat 32 id ≠ BitVec.ofNat 32 (n + 1) := by
      rw [Ne, ofNat_inj (by omega) (by omega)]
      omega
    show (w.openFrom (.ofNat 32 os)).1.streams _ = _ ++ []
    rw [hstreams, Function.update_of_ne hne, List.append_nil]
  | write os s =>
    have hn : n + 0 + 1 < 2 ^ 31 := hn
    obtain ⟨hpos, hle⟩ := hop
    obtain ⟨hinv, hopen, hids, hstreams⟩ := h.inv.write (h.isOpen os hpos hle) hsize
    refine ⟨⟨hinv, ?_, fun i hi hle => (hopen _).mpr (h.isOpen i hi hle)⟩, fun id _ hid => ?_⟩
    · show (w.write _ s).ids.toNat = _
      rw [hids]
      exact h.ids
    · show (w.write (.ofNat 32 os) s).streams _ = _ ++ if os = id then s else []
      rw [hstreams]
      by_cases heq : os = id
      · subst heq
        rw [Function.update_self, if_pos rfl]
      · have hne : BitVec.ofNat 32 id ≠ BitVec.ofNat 32 os := by
          rw [Ne, ofNat_inj (by omega) (by omega)]
          exact Ne.symm heq
        rw [Function.update_of_ne hne, if_neg heq, List.append_nil]
  | flush =>
    refine ⟨h.flushBuffer, fun id _ _ => ?_⟩
    show w.flushBuffer.streams _ = _ ++ []
    rw [streams_flushBuffer, List.append_nil]
  | readStream id =>
    refine ⟨h.flushBuffer, fun id _ _ => ?_⟩
    show w.flushBuffer.streams _ = _ ++ []
    rw [streams_flushBuffer, List.append_nil]

theorem Opened.run (h : w.Opened n) (hops : Legal n ops) (hn : n + opens ops + 1 < 2 ^ 31)
    (hsize : size ops < 2 ^ 31) :
    (w.run ops).Opened (n + opens ops) ∧ ∀ id, 0 < id → id ≤ n →
      (w.run ops).streams (.ofNat 32 id) =
        w.streams (.ofNat 32 id) ++ ops.flatMap (·.written id) := by
  induction ops generalizing w n with
  | nil => exact ⟨h, fun id _ _ => (List.append_nil _).symm⟩
  | cons op ops ih =>
    have hopens : opens (op :: ops) = op.opens + opens ops := List.sum_cons
    have hsizes : size (op :: ops) = op.size + size ops := List.sum_cons
    obtain ⟨hop, hops⟩ := hops
    obtain ⟨hfirst, hstreams⟩ := h.exec hop (by omega) (by omega)
    obtain ⟨hrest, hstreams'⟩ := ih hfirst hops (by omega) (by omega)
    rw [hopens, ← Nat.add_assoc]
    refine ⟨hrest, fun id hpos hle => ?_⟩
    rw [List.flatMap_cons, ← List.append_assoc, ← hstreams id hpos hle]
    exact hstreams' id hpos (by omega)

theorem legal_append {ops' : List StreamOp} :
    Legal n (ops ++ ops') ↔ Legal n ops ∧ Legal (n + opens ops) ops' := by
  induction ops generalizing n with
  | nil => exact ⟨fun h => ⟨trivial, h⟩, fun h => h.2⟩
  | cons op ops ih =>
    have hopens : opens (op :: ops) = op.opens + opens ops := List.sum_cons
    rw [List.cons_append, Legal, Legal, ih, and_assoc, hopens, Nat.add_assoc]

/-- A stream gives back what its parent held when it was opened, and then what was written to
it. -/
theorem readStream_opened (before after : List StreamOp) (p : Nat)
    (hlegal : Legal 0 (before ++ .openFrom p :: after))
    (hsize : size (before ++ .openFrom p :: after) < 2 ^ 31)
    (hopens : opens (before ++ .openFrom p :: after) + 1 < 2 ^ 31) :
    ∃ s, (if p = 0 then s = [] else (empty.run before).readStream (.ofNat 32 p) = some s) ∧
      (empty.run (before ++ .openFrom p :: after)).readStream (.ofNat 32 (opens before + 1)) =
        some (s ++ after.flatMap (·.written (opens before + 1))) := by
  have hopens' : opens (before ++ .openFrom p :: after) = opens before + (1 + opens after) := by
    simp [opens, StreamOp.opens]
  have hsize' : size (before ++ .openFrom p :: after) = size before + (0 + size after) := by
    simp [size, StreamOp.size]
  obtain ⟨hbefore, hp, hafter⟩ := legal_append.mp hlegal
  rw [Nat.zero_add] at hp hafter
  obtain ⟨hopened, -⟩ := opened_empty.run hbefore (by omega) (by omega)
  rw [Nat.zero_add] at hopened
  obtain ⟨hchild, hstreams⟩ := hopened.openFrom hp (by omega)
  obtain ⟨hrest, hstreams'⟩ := hchild.run hafter (by omega) (by omega)
  have hrun : empty.run (before ++ .openFrom p :: after) =
      ((empty.run before).openFrom (.ofNat 32 p)).1.run after := by
    rw [TreeStreamWriter.run, List.foldl_append, List.foldl_cons]
    rfl
  refine ⟨(empty.run before).streams (.ofNat 32 p), ?_, ?_⟩
  · by_cases hzero : p = 0
    · rw [if_pos hzero, hzero]
      exact hopened.streams_zero
    · rw [if_neg hzero]
      exact hopened.inv.readStream_eq (hopened.isOpen p (Nat.pos_of_ne_zero hzero) hp)
  · rw [hrun, hrest.inv.readStream_eq (hrest.isOpen _ (Nat.succ_pos _) (by omega)),
      hstreams' _ (Nat.succ_pos _) le_rfl, hstreams, Function.update_self]

/-- The child has the byte that its parent had, and not the later one. -/
theorem readStream_opened_child :
    (empty.run ([.openFrom 0, .write 1 [7]] ++ .openFrom 1 :: [.write 1 [8], .flush,
      .write 2 [9]])).readStream 2 = some [7, 9] := by
  obtain ⟨s, hs, hread⟩ := readStream_opened [.openFrom 0, .write 1 [7]]
    [.write 1 [8], .flush, .write 2 [9]] 1
    ⟨le_rfl, ⟨by decide, le_rfl⟩, le_rfl, ⟨by decide, by decide⟩, trivial, ⟨by decide, by decide⟩,
      trivial⟩ (by decide) (by decide)
  have hparent : (empty.run [.openFrom 0, .write 1 [7]]).readStream 1 = some [7] := by decide
  rw [if_neg (by decide)] at hs
  obtain rfl : [7] = s := Option.some.inj (hparent.symm.trans hs)
  exact hread

end TreeStreamWriter
end Klee
