import Klee.Core.ForkPartition

/-! `SeedInfo::patchSeed`: a seed is repaired byte by byte until a condition can hold. -/
namespace Klee

/-- A seed as it is made: it allows free values, and binds a new array to as many bytes as it
has. -/
structure SeedInfo.WellFormed (s : SeedInfo) : Prop where
  free : s.assignment.allowFreeValues = true
  sized : ∀ b ∈ s.assignment.bindings, b.2.length = b.1.size

namespace Executor

open Hoare
open ConstraintManager (addConstraint_stores)

variable {M : Type} {o : ExecutorOptions} {ex : Executor M}

section Bytes

variable {s : SeedInfo} {array array' : Array} {i j : Nat} {byte : BitVec 8}

def seedArrays (s : SeedInfo) : List Array := s.assignment.bindings.map Prod.fst

theorem lookup_setSeedByte : (setSeedByte s array i byte).assignment.bindings.lookup array' =
    (s.assignment.bindings.lookup array').map fun bytes =>
      if array' = array then bytes.set i byte else bytes := by
  rw [setSeedByte]
  dsimp only
  induction s.assignment.bindings with
  | nil => rfl
  | cons b bindings ih =>
    obtain ⟨a, bytes⟩ := b
    have hset : (if a = array then (a, bytes.set i byte) else (a, bytes)) =
        (a, if a = array then bytes.set i byte else bytes) := by
      split <;> rfl
    rw [List.map_cons, hset, List.lookup_cons, List.lookup_cons]
    by_cases heq : array' = a
    · subst heq
      rw [beq_self_eq_true]
      rfl
    · rw [beq_eq_false_iff_ne.mpr heq]
      exact ih

@[simp] theorem seedArrays_setSeedByte : seedArrays (setSeedByte s array i byte) = seedArrays s := by
  rw [seedArrays, setSeedByte, List.map_map]
  refine List.map_congr_left fun b _ => ?_
  rw [Function.comp_apply]
  split <;> rfl

theorem wellFormed_setSeedByte (h : s.WellFormed) (array : Array) (i : Nat)
    (byte : BitVec 8) : (setSeedByte s array i byte).WellFormed where
  free := h.free
  sized b hb := by
    obtain ⟨b', hb', rfl⟩ := List.mem_map.mp hb
    split
    · exact List.length_set.trans (h.sized b' hb')
    · exact h.sized b' hb'

theorem lookup_of_mem (h : s.WellFormed) (harray : array ∈ seedArrays s) :
    ∃ bytes, s.assignment.bindings.lookup array = some bytes ∧ bytes.length = array.size := by
  obtain ⟨b, hb, rfl⟩ := List.mem_map.mp harray
  have hsome : (s.assignment.bindings.lookup b.1).isSome = true :=
    List.lookup_isSome_iff.mpr ⟨b, hb, beq_self_eq_true b.1⟩
  obtain ⟨bytes, hbytes⟩ := Option.isSome_iff_exists.mp hsome
  obtain ⟨l, l', hl, -⟩ := List.lookup_eq_some_iff.mp hbytes
  exact ⟨bytes, hbytes, h.sized (b.1, bytes) (hl ▸ List.mem_append_right _ List.mem_cons_self)⟩

theorem mem_seedArrays {bytes : List (BitVec 8)}
    (h : s.assignment.bindings.lookup array = some bytes) : array ∈ seedArrays s := by
  obtain ⟨l, l', hl, -⟩ := List.lookup_eq_some_iff.mp h
  have hmem : (array, bytes) ∈ s.assignment.bindings :=
    hl ▸ List.mem_append_right _ List.mem_cons_self
  exact List.mem_map.mpr ⟨(array, bytes), hmem, rfl⟩

theorem lookup_isSome : (s.assignment.bindings.lookup array).isSome = true ↔
    array ∈ seedArrays s := by
  rw [List.lookup_isSome_iff, seedArrays, List.mem_map]
  exact ⟨fun ⟨b, hb, heq⟩ => ⟨b, hb, (beq_iff_eq.mp heq).symm⟩,
    fun ⟨b, hb, heq⟩ => ⟨b, hb, beq_iff_eq.mpr heq.symm⟩⟩

theorem seedByte_eq {bytes : List (BitVec 8)}
    (h : s.assignment.bindings.lookup array = some bytes) : seedByte s array i = bytes[i]? := by
  rw [seedByte, h]
  rfl

theorem seedByte_of_mem (h : s.WellFormed) (harray : array ∈ seedArrays s) (hi : i < array.size) :
    ∃ byte, seedByte s array i = some byte := by
  obtain ⟨bytes, hbytes, hlen⟩ := lookup_of_mem h harray
  exact ⟨bytes[i], by rw [seedByte_eq hbytes, List.getElem?_eq_getElem]⟩

theorem seedByte_setSeedByte_self (h : s.WellFormed) (harray : array ∈ seedArrays s)
    (hi : i < array.size) : seedByte (setSeedByte s array i byte) array i = some byte := by
  obtain ⟨bytes, hbytes, hlen⟩ := lookup_of_mem h harray
  have hset : (setSeedByte s array i byte).assignment.bindings.lookup array =
      some (bytes.set i byte) := by
    rw [lookup_setSeedByte, hbytes, Option.map_some, if_pos rfl]
  rw [seedByte_eq hset, List.getElem?_set_self (hlen.symm ▸ hi)]

theorem seedByte_setSeedByte_of_ne (h : ¬ (array' = array ∧ j = i)) :
    seedByte (setSeedByte s array i byte) array' j = seedByte s array' j := by
  rw [seedByte, seedByte, lookup_setSeedByte]
  cases s.assignment.bindings.lookup array' with
  | none => rfl
  | some bytes =>
    change (if array' = array then bytes.set i byte else bytes)[j]? = bytes[j]?
    split
    case isTrue heq => exact List.getElem?_set_ne fun hji => h ⟨heq, hji.symm⟩
    case isFalse => rfl

end Bytes

section Denotes

variable {s : Option Assignment} {σ : Assignment} {array : Array} {i : Nat} {byte : BitVec 8}

def byteRead (array : Array) (i : Nat) : Expr :=
  ReadExpr.create ⟨array, .null⟩ (.constant (.alloc i 32))

def byteEq (array : Array) (i : Nat) (byte : BitVec 8) : Expr :=
  EqExpr.create (byteRead array i) (.constant ⟨8, byte⟩)

theorem byteRead_denotes (hi : i < 2 ^ 32) :
    Denotes s (byteRead array i) 8 (s.elim 0 fun σ => array.initial σ i) := by
  refine ReadExpr.create_denotes (Denotes.read (i := BitVec.ofNat 32 i) trivial
    (Denotes.constant (w := 32) (by decide)) fun σ hσ => ?_)
  obtain rfl := hσ
  refine ⟨?_, fun ho => by cases ho⟩
  rw [UpdateNode.eval, BitVec.toNat_ofNat, Nat.mod_eq_of_lt hi]
  rfl

theorem byteEq_denotes (hi : i < 2 ^ 32) : Denotes s (byteEq array i byte) 1
    (BitVec.ofBool (s.elim 0 (fun σ => array.initial σ i) == byte)) :=
  EqExpr.create_denotes (byteRead_denotes hi) (Denotes.constant (by decide))

theorem isBool_byteEq (hi : i < 2 ^ 32) : (byteEq array i byte).IsBool :=
  (byteEq_denotes (s := none) hi).isBool

theorem holds_byteEq (hi : i < 2 ^ 32) :
    (byteEq array i byte).Holds σ ↔ array.initial σ i = byte := by
  rw [(byteEq_denotes (s := some σ) hi).holds_iff, BitVec.ofBool_eq_one, beq_iff_eq]
  rfl

end Denotes

section Patching

variable {cs : List Expr} {condition : Expr} {arrays : List Array} {r : SeedInfo × List Expr}
  {array : Array} {i : Nat} {fixed : Array → Nat → Prop}

/-- Between two bytes: the constraints so far can hold together with the condition, and they give
the bytes of `fixed` the values that they have in the seed. -/
structure PatchInv (cs : List Expr) (condition : Expr) (arrays : List Array)
    (fixed : Array → Nat → Prop) (r : SeedInfo × List Expr) : Prop where
  wellFormed : r.1.WellFormed
  arrays : seedArrays r.1 = arrays
  isBool : ∀ c ∈ r.2, c.IsBool
  satisfiable : ∃ σ, Satisfies σ r.2
  implies : ∀ σ, Satisfies σ r.2 → Satisfies σ cs ∧ condition.Holds σ
  fixed : ∀ σ, Satisfies σ r.2 → ∀ array i, fixed array i →
    seedByte r.1 array i = some (array.initial σ i)

theorem PatchInv.mono {fixed' : Array → Nat → Prop} (h : PatchInv cs condition arrays fixed r)
    (hsub : ∀ array i, fixed' array i → fixed array i) : PatchInv cs condition arrays fixed' r where
  wellFormed := h.wellFormed
  arrays := h.arrays
  isBool := h.isBool
  satisfiable := h.satisfiable
  implies := h.implies
  fixed σ hσ array i hfixed := h.fixed σ hσ array i (hsub array i hfixed)

/-- A byte that is possible is fixed. -/
theorem PatchInv.addByte (rewriteEqualities : Bool) {s : SeedInfo} {byte : BitVec 8}
    (h : PatchInv cs condition arrays fixed r) (hi : i < 2 ^ 32) (hs : s.WellFormed)
    (harrays : seedArrays s = seedArrays r.1) (hbyte : seedByte s array i = some byte)
    (hframe : ∀ array' j, ¬ (array' = array ∧ j = i) → seedByte s array' j = seedByte r.1 array' j)
    (hsat : ∃ σ, Satisfies σ r.2 ∧ array.initial σ i = byte) :
    ∃ tmp, ConstraintManager.addConstraint rewriteEqualities r.2 (byteEq array i byte) = some tmp ∧
      PatchInv cs condition arrays (fun array' j => fixed array' j ∨ (array' = array ∧ j = i))
        (s, tmp) := by
  have hstores := addConstraint_stores rewriteEqualities r.2 (byteEq array i byte) h.isBool
    (isBool_byteEq hi)
  obtain ⟨σ, hσ, hσi⟩ := hsat
  have hholds : Satisfies σ [byteEq array i byte] :=
    (satisfies_singleton σ _).mpr ((holds_byteEq hi).mpr hσi)
  cases hadd : ConstraintManager.addConstraint rewriteEqualities r.2 (byteEq array i byte) with
  | none =>
    rw [hadd] at hstores
    exact absurd ⟨hσ, hholds⟩ (hstores σ trivial)
  | some tmp =>
    rw [hadd] at hstores
    obtain ⟨hbool, hiff⟩ := hstores
    refine ⟨tmp, rfl, hs, harrays.trans h.arrays, hbool, ⟨σ, (hiff σ trivial).mpr ⟨hσ, hholds⟩⟩,
      fun τ hτ => h.implies τ ((hiff τ trivial).mp hτ).1, fun τ hτ array' j hfixed => ?_⟩
    obtain ⟨hold, hnew⟩ := (hiff τ trivial).mp hτ
    rw [satisfies_singleton, holds_byteEq hi] at hnew
    by_cases heq : array' = array ∧ j = i
    · obtain ⟨rfl, rfl⟩ := heq
      rw [hnew]
      exact hbyte
    · exact (hframe array' j heq).trans (h.fixed τ hold array' j (hfixed.resolve_right heq))

/-- A byte is kept if it is possible, and replaced by a value that is. -/
theorem wp_patchByte (ht : o.solver.Correct) (h : PatchInv cs condition arrays fixed r)
    (harray : array ∈ arrays) (hi : i < array.size) :
    wp (patchByte o array i r.1 r.2) (fun r' ex' => ex' = ex ∧ PatchInv cs condition arrays
      (fun array' j => fixed array' j ∨ (array' = array ∧ j = i)) r') (fun _ => False) ex := by
  rw [← h.arrays] at harray
  have hi32 := hi.trans array.size_lt
  obtain ⟨byte, hbyte⟩ := seedByte_of_mem h.wellFormed harray hi
  obtain ⟨res, hres, hiff⟩ :=
    ht.mustBeFalse (e := byteEq array i byte) h.isBool (isBool_byteEq hi32) h.satisfiable
  unfold patchByte
  rw [hbyte, wp_bind, wp_orThrow_some, wp_bind]
  change wp (orThrow _ (o.solver.mustBeFalse r.2 (byteEq array i byte))) _ _ _
  rw [hres, wp_orThrow_some]
  cases res with
  | false =>
    have hsat : ∃ σ, Satisfies σ r.2 ∧ array.initial σ i = byte := by
      by_contra hnone
      refine Bool.false_ne_true (hiff.mpr fun σ hσ hholds => hnone ⟨σ, hσ, ?_⟩)
      exact (holds_byteEq hi32).mp hholds
    obtain ⟨tmp, hadd, hinv⟩ :=
      h.addByte o.rewriteEqualities hi32 h.wellFormed rfl hbyte (fun _ _ _ => rfl) hsat
    rw [if_neg Bool.false_ne_true, wp_bind]
    rw [addConstraintTo]
    change wp (orThrow _ (ConstraintManager.addConstraint _ r.2 (byteEq array i byte))) _ _ _
    rw [hadd, wp_orThrow_some, wp_pure]
    exact ⟨rfl, hinv⟩
  | true =>
    have hread := @byteRead_denotes none array i hi32
    obtain ⟨value, hvalue, hwidth, σ, hσ, heval⟩ :=
      ht.getValue h.isBool hread.wellSorted h.satisfiable
    obtain ⟨w, x⟩ := value
    obtain rfl : w = 8 := hwidth.trans hread.width_eq
    have hσi : array.initial σ i = x := (byteRead_denotes (s := some σ) hi32).eval.symm.trans heval
    obtain ⟨tmp, hadd, hinv⟩ := h.addByte o.rewriteEqualities hi32
      (wellFormed_setSeedByte h.wellFormed array i x) seedArrays_setSeedByte
      (seedByte_setSeedByte_self h.wellFormed harray hi)
      (fun _ _ hne => seedByte_setSeedByte_of_ne hne) ⟨σ, hσ, hσi⟩
    rw [if_pos rfl, wp_bind]
    change wp (orThrow _ (o.solver.getValue r.2 (byteRead array i))) _ _ _
    rw [hvalue, wp_orThrow_some, BitVec.setWidth_eq, wp_bind]
    rw [addConstraintTo]
    change wp (orThrow _ (ConstraintManager.addConstraint _ r.2 (byteEq array i x))) _ _ _
    rw [hadd, wp_orThrow_some, wp_pure]
    exact ⟨rfl, hinv⟩

theorem wp_orThrow {α : Type} {a : Option α} {f : ExecutorFault} {Q : α → Executor M → Prop}
    {E : ExecutorFault → Prop} (hQ : ∀ a, Q a ex) (hE : E f) : wp (orThrow f a) Q E ex := by
  cases a with
  | none => exact wp_orThrow_none.mpr hE
  | some a => exact wp_orThrow_some.mpr (hQ a)

/-- The other bytes are left alone. -/
theorem wp_patchByte_frame {seed : SeedInfo} {tmp : List Expr} {array' : Array} {j : Nat}
    (hne : ¬ (array' = array ∧ j = i)) : wp (patchByte o array i seed tmp)
      (fun r _ => seedByte r.1 array' j = seedByte seed array' j) (fun _ => True) ex := by
  unfold patchByte
  rw [wp_bind]
  refine wp_orThrow (fun byte => ?_) trivial
  rw [wp_bind]
  refine wp_orThrow (fun res => ?_) trivial
  cases res with
  | false =>
    rw [if_neg Bool.false_ne_true, wp_bind]
    exact wp_orThrow (fun tmp => rfl) trivial
  | true =>
    rw [if_pos rfl, wp_bind]
    refine wp_orThrow (fun value => ?_) trivial
    rw [wp_bind]
    exact wp_orThrow (fun tmp => seedByte_setSeedByte_of_ne hne) trivial

/-- A loop fixes what its rounds fix. -/
theorem wp_foldlM_patch {γ : Type}
    {body : SeedInfo × List Expr → γ → ExecutorM M (SeedInfo × List Expr)}
    {G : γ → Array → Nat → Prop} (l : List γ)
    (hbody : ∀ x ∈ l, ∀ r fixed, PatchInv cs condition arrays fixed r →
      wp (body r x) (fun r' ex' => ex' = ex ∧ PatchInv cs condition arrays
        (fun array i => fixed array i ∨ G x array i) r') (fun _ => False) ex)
    (h : PatchInv cs condition arrays fixed r) :
    wp (l.foldlM body r) (fun r' ex' => ex' = ex ∧ PatchInv cs condition arrays
      (fun array i => fixed array i ∨ ∃ x ∈ l, G x array i) r') (fun _ => False) ex := by
  induction l generalizing r fixed with
  | nil =>
    refine ⟨rfl, h.mono fun array i hfixed => hfixed.resolve_right ?_⟩
    rintro ⟨x, hx, -⟩
    cases hx
  | cons x l ih =>
    rw [List.foldlM_cons, wp_bind]
    refine wp_post (hbody x List.mem_cons_self r fixed h) ?_
    rintro r₁ _ ⟨rfl, h₁⟩
    refine wp_post (ih (fun y hy => hbody y (List.mem_cons_of_mem _ hy)) h₁) ?_
    rintro r₂ _ ⟨rfl, h₂⟩
    refine ⟨rfl, h₂.mono fun array i hfixed => ?_⟩
    rcases hfixed with hfixed | ⟨y, hy, hfixed⟩
    · exact .inl (.inl hfixed)
    · rcases List.mem_cons.mp hy with rfl | hy
      · exact .inl (.inr hfixed)
      · exact .inr ⟨y, hy, hfixed⟩

/-- The first loop of `patchSeed`: the bytes that the condition reads directly. -/
def patchDirect (o : ExecutorOptions) (condition : Expr) (seed : SeedInfo) (tmp : List Expr) :
    ExecutorM M (SeedInfo × List Expr) :=
  (directReads condition).foldlM (fun (seed, tmp) (array, index) =>
    if (seed.assignment.bindings.lookup array).isSome then patchByte o array index seed tmp
    else pure (seed, tmp)) (seed, tmp)

def patchBound (o : ExecutorOptions) (seed : SeedInfo) (tmp : List Expr) :
    ExecutorM M (SeedInfo × List Expr) :=
  seed.assignment.bindings.foldlM (fun (seed, tmp) (array, _) =>
    (List.range array.size).foldlM (fun (seed, tmp) index =>
      patchByte o array index seed tmp) (seed, tmp)) (seed, tmp)

theorem wp_patchDirect (ht : o.solver.Correct) (h : PatchInv cs condition arrays fixed r)
    (hreads : ∀ p ∈ directReads condition, p.1 ∈ arrays → p.2 < p.1.size) :
    wp (patchDirect o condition r.1 r.2) (fun r' ex' => ex' = ex ∧ PatchInv cs condition arrays
      (fun array i => fixed array i ∨ ((array, i) ∈ directReads condition ∧ array ∈ arrays)) r')
      (fun _ => False) ex := by
  refine wp_post (wp_foldlM_patch (G := fun p array i => (array, i) = p ∧ array ∈ arrays)
    _ (fun p hp r fixed h => ?_) h) ?_
  · obtain ⟨array, i⟩ := p
    dsimp only
    by_cases hmem : array ∈ arrays
    · rw [if_pos (lookup_isSome.mpr (h.arrays ▸ hmem))]
      refine wp_post (wp_patchByte ht h hmem (hreads _ hp hmem)) ?_
      rintro r' _ ⟨rfl, h'⟩
      refine ⟨rfl, h'.mono fun array' j hfixed => hfixed.imp_right fun heq => ?_⟩
      exact Prod.mk.inj heq.1
    · rw [if_neg fun hsome => hmem (h.arrays ▸ lookup_isSome.mp hsome)]
      refine ⟨rfl, h.mono fun array' j hfixed => hfixed.resolve_right fun heq => hmem ?_⟩
      exact (Prod.mk.inj heq.1).1 ▸ heq.2
  · rintro r' _ ⟨rfl, h'⟩
    exact ⟨rfl, h'.mono fun array i => Or.imp_right fun hmem => ⟨_, hmem.1, rfl, hmem.2⟩⟩

theorem wp_patchBound (ht : o.solver.Correct) (h : PatchInv cs condition arrays fixed r) :
    wp (patchBound o r.1 r.2) (fun r' ex' => ex' = ex ∧ PatchInv cs condition arrays
      (fun array i => fixed array i ∨ (array ∈ arrays ∧ i < array.size)) r')
      (fun _ => False) ex := by
  refine wp_post (wp_foldlM_patch (G := fun b array i => array = b.1 ∧ i < array.size)
    _ (fun b hb r' fixed h' => ?_) h) ?_
  · have hmem : b.1 ∈ arrays := h.arrays ▸ List.mem_map_of_mem hb
    refine wp_post (wp_foldlM_patch (G := fun j array i => array = b.1 ∧ i = j)
      _ (fun j hj r fixed h => ?_) h') ?_
    · exact wp_patchByte ht h hmem (List.mem_range.mp hj)
    · rintro r'' _ ⟨rfl, h''⟩
      refine ⟨rfl, h''.mono fun array i => Or.imp_right ?_⟩
      rintro ⟨rfl, hi⟩
      exact ⟨i, List.mem_range.mpr hi, rfl, rfl⟩
  · rintro r' _ ⟨rfl, h'⟩
    refine ⟨rfl, h'.mono fun array i => Or.imp_right ?_⟩
    rintro ⟨hmem, hi⟩
    rw [← h.arrays] at hmem
    obtain ⟨b, hb, rfl⟩ := List.mem_map.mp hmem
    exact ⟨b, hb, rfl, hi⟩

/-- `σ` has the bytes of the seed. -/
def Extends (σ : Assignment) (s : SeedInfo) : Prop :=
  ∀ array ∈ seedArrays s, ∀ i < array.size, seedByte s array i = some (array.initial σ i)

theorem agrees_evaluateAt {s : SeedInfo} {σ : Assignment} (hs : s.WellFormed) (h : Extends σ s) :
    ExprEvaluator.Agrees s.assignment.evaluateAt (some σ) := by
  intro root i hi
  have hfree : ∃ v : BitVec 8, Denotes (some σ) (s.assignment.free root i) 8 v ∧
      ∀ τ ∈ some σ, v = root.initial τ i := by
    refine ⟨root.initial σ i, ?_, fun τ hτ => by rw [Option.mem_some_iff.mp hτ]⟩
    rw [ArrayAssignment.free, if_pos hs.free]
    exact byteRead_denotes hi
  unfold ArrayAssignment.evaluateAt
  split
  case h_2 => exact hfree
  case h_1 bytes hbytes =>
    split
    case h_2 => exact hfree
    case h_1 byte hbyte =>
      refine ⟨byte, Denotes.constant (w := 8) (by decide), fun τ hτ => ?_⟩
      obtain rfl := Option.mem_some_iff.mp hτ
      obtain ⟨bytes', hbytes', hlen⟩ := lookup_of_mem hs (mem_seedArrays hbytes)
      obtain rfl := Option.some.inj (hbytes.symm.trans hbytes')
      have hsize : i < root.size := hlen ▸ (List.getElem?_eq_some_iff.mp hbyte).1
      have heq := h root (mem_seedArrays hbytes) i hsize
      rw [seedByte_eq hbytes, hbyte] at heq
      exact Option.some.inj heq

/-- Under an assignment that has the bytes of the seed an expression and what it evaluates to have
the same value. -/
theorem holds_evaluate {s : SeedInfo} {σ : Assignment} {e : Expr} (hs : s.WellFormed)
    (h : Extends σ s) (he : e.IsBool) : (s.assignment.evaluate e).Holds σ ↔ e.Holds σ :=
  (ExprEvaluator.visit_denotes (agrees_evaluateAt hs h) e (he.denotes σ)).holds_iff

/-- The condition joins the constraints. -/
theorem PatchInv.initial {seed : SeedInfo} (hcs : ∀ c ∈ cs, c.IsBool) (hcond : condition.IsBool)
    (hsat : ∃ σ, Satisfies σ cs ∧ condition.Holds σ) (hseed : seed.WellFormed)
    (rewriteEqualities : Bool) :
    ∃ tmp, ConstraintManager.addConstraint rewriteEqualities cs condition = some tmp ∧
      PatchInv cs condition (seedArrays seed) (fun _ _ => False) (seed, tmp) := by
  have hstores := addConstraint_stores rewriteEqualities cs condition hcs hcond
  obtain ⟨σ, hσ, hc⟩ := hsat
  cases hadd : ConstraintManager.addConstraint rewriteEqualities cs condition with
  | none =>
    rw [hadd] at hstores
    exact absurd ⟨hσ, (satisfies_singleton σ _).mpr hc⟩ (hstores σ trivial)
  | some tmp =>
    rw [hadd] at hstores
    obtain ⟨hbool, hiff⟩ := hstores
    simp only [satisfies_singleton] at hiff
    exact ⟨tmp, rfl, hseed, rfl, hbool, ⟨σ, (hiff σ trivial).mpr ⟨hσ, hc⟩⟩,
      fun τ => (hiff τ trivial).mp, fun _ _ _ _ h => h.elim⟩

def patchFirst (o : ExecutorOptions) (cs : List Expr) (condition : Expr) (seed : SeedInfo) :
    ExecutorM M (SeedInfo × List Expr) := do
  let tmp ← addConstraintTo o cs condition
  patchDirect o condition seed tmp

theorem patchFirst_spec {seed : SeedInfo} (ht : o.solver.Correct) (hcs : ∀ c ∈ cs, c.IsBool)
    (hcond : condition.IsBool) (hsat : ∃ σ, Satisfies σ cs ∧ condition.Holds σ)
    (hseed : seed.WellFormed)
    (hreads : ∀ p ∈ directReads condition, p.1 ∈ seedArrays seed → p.2 < p.1.size)
    (ex : Executor M) : ∃ r, patchFirst o cs condition seed ex = .ok (r, ex) ∧
      PatchInv cs condition (seedArrays seed) (fun array i =>
        (array, i) ∈ directReads condition ∧ array ∈ seedArrays seed) r := by
  obtain ⟨tmp, hadd, hinv⟩ := PatchInv.initial hcs hcond hsat hseed o.rewriteEqualities
  have hdirect := @wp_patchDirect M o ex _ _ _ _ _ ht hinv hreads
  have hfirst : wp (patchFirst o cs condition seed) (fun r ex' => ex' = ex ∧
      PatchInv cs condition (seedArrays seed) (fun array i => False ∨
        ((array, i) ∈ directReads condition ∧ array ∈ seedArrays seed)) r) (fun _ => False) ex := by
    rw [patchFirst, addConstraintTo, hadd, wp_bind, wp_orThrow_some]
    exact hdirect
  obtain ⟨r, ex', hr, rfl, hinv⟩ := exists_ok hfirst
  exact ⟨r, hr, hinv.mono fun _ _ => .inr⟩

/-- What `patchSeed` does then: it returns early if the condition can be true. -/
def patchRest (o : ExecutorOptions) (cs : List Expr) (condition : Expr)
    (r : SeedInfo × List Expr) : ExecutorM M SeedInfo := do
  if ← orThrow .solverFailure (o.solver.mayBeTrue cs (r.1.assignment.evaluate condition)) then
    pure r.1
  else
    let (seed, _) ← patchBound o r.1 r.2
    if ← orThrow .solverFailure (o.solver.mayBeTrue cs (seed.assignment.evaluate condition)) then
      pure seed
    else throw .seedPatching

theorem patchSeed_eq (o : ExecutorOptions) (cs : List Expr) (condition : Expr) (seed : SeedInfo) :
    (patchSeed o cs condition seed : ExecutorM M SeedInfo) = (do
      modify fun ex => { ex with nextID := ex.nextID + 1 }
      let tmp ← addConstraintTo o cs condition
      let r ← patchDirect o condition seed tmp
      patchRest o cs condition r) := rfl

theorem wp_patchSeed_iff {seed : SeedInfo} {Q : SeedInfo → Executor M → Prop}
    {E : ExecutorFault → Prop} : wp (patchSeed o cs condition seed) Q E ex ↔
      wp (patchFirst o cs condition seed) (fun r => wp (patchRest o cs condition r) Q E) E
        { ex with nextID := ex.nextID + 1 } := by
  rw [patchSeed_eq, patchFirst, wp_bind, wp_modify, wp_bind, wp_bind]
  exact ⟨fun h => wp_post h fun _ _ => wp_bind.mp, fun h => wp_post h fun _ _ => wp_bind.mpr⟩

theorem patchRest_early {r : SeedInfo × List Expr}
    (hb : o.solver.mayBeTrue cs (r.1.assignment.evaluate condition) = some true)
    {Q : SeedInfo → Executor M → Prop} {E : ExecutorFault → Prop} :
    wp (patchRest o cs condition r) Q E ex ↔ Q r.1 ex := by
  rw [patchRest, hb, wp_bind, wp_orThrow_some, if_pos rfl, wp_pure]

end Patching

section Instances

open Query

def zeroSeed : SeedInfo := ⟨true, [(twoBytes, [0, 0])]⟩

theorem wellFormed_zeroSeed : zeroSeed.WellFormed := ⟨rfl, by decide⟩

/-- `x[0] = x[1]` -/
def sameBytes : Expr :=
  .eq (.read twoBytes .null (.constant ⟨32, 0⟩)) (.read twoBytes .null (.constant ⟨32, 1⟩))

theorem directReads_byteIs : directReads (byteIs 1 0) = [(twoBytes, 0)] := by
  simp [directReads, byteIs, findReads, findReadsLoop, visitExpr, nextExprs, nextUpdates, asRead,
    Expr.kids, Expr.isConstant]

theorem directReads_byteIs_lt : ∀ p ∈ directReads (byteIs 1 0),
    p.1 ∈ seedArrays zeroSeed → p.2 < p.1.size := by
  intro p hp _
  rw [directReads_byteIs] at hp
  obtain rfl := List.mem_singleton.mp hp
  decide

theorem holds_byteIs {σ : Assignment} {v : BitVec 8} :
    (byteIs v 0).Holds σ ↔ v = twoBytes.initial σ 0 := by
  rw [byteIs, Expr.holds_eq_iff]
  simp [Expr.eval, Expr.width, UpdateNode.eval]

theorem holds_sameBytes {σ : Assignment} :
    sameBytes.Holds σ ↔ twoBytes.initial σ 0 = twoBytes.initial σ 1 := by
  rw [sameBytes, Expr.holds_eq_iff]
  simp [Expr.eval, Expr.width, UpdateNode.eval, Array.getRange]

theorem isBool_sameBytes : ∀ c ∈ [sameBytes], c.IsBool := by
  simp [sameBytes, Expr.IsBool, Expr.WellSorted, UpdateNode.WellSorted, Expr.width, Array.getRange]

theorem satisfies_sameBytes : Satisfies (fun _ _ => 1) [sameBytes] ∧
    (byteIs 1 0).Holds fun _ _ => 1 := by
  refine ⟨(satisfies_singleton _ _).mpr ?_, ?_⟩ <;> decide

def idle : Executor Unit := initial emptyState none none

/-- The first loop leaves the byte alone that is not read. -/
theorem patchFirst_zeroSeed {r : SeedInfo × List Expr} {ex ex' : Executor M}
    (h : patchFirst o [sameBytes] (byteIs 1 0) zeroSeed ex = .ok (r, ex')) :
    seedByte r.1 twoBytes 1 = some 0 := by
  have hwp : wp (patchFirst o [sameBytes] (byteIs 1 0) zeroSeed)
      (fun r _ => seedByte r.1 twoBytes 1 = some 0) (fun _ => True) ex := by
    rw [patchFirst, wp_bind]
    refine wp_orThrow (fun tmp => ?_) trivial
    rw [patchDirect, directReads_byteIs, List.foldlM_cons, wp_bind]
    exact wp_patchByte_frame (by decide)
  exact wp_ok hwp h

theorem assignment_of_bytes {s : SeedInfo} {x y : BitVec 8} (hs : s.WellFormed)
    (harrays : seedArrays s = [twoBytes]) (hx : seedByte s twoBytes 0 = some x)
    (hy : seedByte s twoBytes 1 = some y) : s.assignment = ⟨true, [(twoBytes, [x, y])]⟩ := by
  obtain ⟨⟨free, bindings⟩⟩ := s
  obtain rfl : free = true := hs.free
  obtain ⟨⟨array, bytes⟩, rfl, rfl⟩ := List.map_eq_singleton_iff.mp harrays
  obtain ⟨a, b, rfl⟩ := List.length_eq_two.mp (hs.sized _ List.mem_cons_self)
  rw [seedByte_eq List.lookup_cons_self] at hx hy
  obtain rfl := Option.some.inj hx
  obtain rfl := Option.some.inj hy
  rfl

end Instances

end Executor

end Klee
