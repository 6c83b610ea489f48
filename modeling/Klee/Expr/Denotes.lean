import Klee.Expr.Create

/-! The relation that carries the soundness of the smart constructors: what an expression
denotes, stated so that the constructors compose. -/
namespace Klee

variable [ExprOptions]

/-- `e` is well sorted of width `w` and, under the assignment `s` (if one is given),
has the value `v`. With `-const-array-opt` the assignment must keep the reads of
constant arrays in bounds. Without an assignment this is well-sortedness alone, so that
one proof about a constructor gives both its type and its meaning. -/
structure Denotes (s : Option Assignment) (e : Expr) (w : Nat) (v : BitVec w) : Prop where
  wellSorted : e.WellSorted
  width_eq : e.width = w
  inBounds : ∀ σ ∈ s, constArrayOpt = true → e.ConstReadsInBounds σ
  eval_eq : ∀ σ ∈ s, e.eval σ w = v

namespace Denotes

variable {s : Option Assignment} {e l r c t f : Expr} {w m n : Nat}

theorem congr {v v' : BitVec w} (h : Denotes s e w v) (hv : s.isSome = true → v = v') :
    Denotes s e w v' where
  wellSorted := h.wellSorted
  width_eq := h.width_eq
  inBounds := h.inBounds
  eval_eq σ hσ := (h.eval_eq σ hσ).trans (hv (by rw [hσ]; rfl))

/-- As `congr`, for a value given at each assignment. -/
theorem congr_elim {v : BitVec w} {g : Assignment → BitVec w} (h : Denotes s e w v)
    (hv : ∀ σ, s = some σ → v = g σ) : Denotes s e w (s.elim 0 g) := by
  refine h.congr fun hs => ?_
  obtain ⟨σ, rfl⟩ := Option.isSome_iff_exists.mp hs
  exact hv σ rfl

theorem setWidth {v : BitVec m} (h : Denotes s e m v) (hw : m = w) :
    Denotes s e w (v.setWidth w) := by
  subst hw
  rwa [BitVec.setWidth_eq]

theorem width_pos {v : BitVec w} (h : Denotes s e w v) : 0 < w :=
  h.width_eq ▸ e.width_pos h.wellSorted

/-- The value an expression has by its own semantics. -/
theorem self (h : e.WellSorted)
    (hb : ∀ σ ∈ s, constArrayOpt = true → e.ConstReadsInBounds σ) :
    Denotes s e e.width (s.elim 0 fun σ => e.eval σ e.width) where
  wellSorted := h
  width_eq := rfl
  inBounds := hb
  eval_eq σ hσ := by rw [hσ]; rfl

/-- As `self`, at a width that is known to be the width of `e`. -/
theorem self_at (h : e.WellSorted) (hw : e.width = w)
    (hb : ∀ σ ∈ s, constArrayOpt = true → e.ConstReadsInBounds σ) :
    Denotes s e w (s.elim 0 fun σ => e.eval σ w) := by
  subst hw
  exact self h hb

/-- An operand of an expression that denotes something denotes something itself. -/
theorem operand {e' : Expr} {v : BitVec w} (h : Denotes s e w v) (hs : e'.WellSorted)
    (hw : e'.width = m)
    (hb : ∀ σ, e.ConstReadsInBounds σ → e'.ConstReadsInBounds σ) :
    Denotes s e' m (s.elim 0 fun σ => e'.eval σ m) :=
  self_at hs hw fun σ hσ ho => hb σ (h.inBounds σ hσ ho)

/-! Introduction: one lemma for each constructor. -/

theorem constant {v : BitVec w} (hw : 0 < w) : Denotes s (.constant ⟨w, v⟩) w v where
  wellSorted := hw
  width_eq := rfl
  inBounds _ _ _ := trivial
  eval_eq _ _ := by simp [Expr.eval]

theorem notOptimized {v : BitVec w} (h : Denotes s e w v) :
    Denotes s (.notOptimized e) w v where
  wellSorted := h.wellSorted
  width_eq := h.width_eq
  inBounds := h.inBounds
  eval_eq := h.eval_eq

theorem not {v : BitVec w} (h : Denotes s e w v) : Denotes s (.not e) w (~~~ v) where
  wellSorted := h.wellSorted
  width_eq := h.width_eq
  inBounds := h.inBounds
  eval_eq σ hσ := by rw [Expr.eval, h.eval_eq σ hσ]

theorem select {a : BitVec 1} {x y : BitVec w} (hc : Denotes s c 1 a)
    (ht : Denotes s t w x) (hf : Denotes s f w y) :
    Denotes s (.select c t f) w (if a = 1#1 then x else y) where
  wellSorted := ⟨⟨hc.wellSorted, hc.width_eq⟩, ht.wellSorted, hf.wellSorted,
    hf.width_eq.trans ht.width_eq.symm⟩
  width_eq := ht.width_eq
  inBounds σ hσ ho := ⟨hc.inBounds σ hσ ho, ht.inBounds σ hσ ho, hf.inBounds σ hσ ho⟩
  eval_eq σ hσ := by
    rw [Expr.eval, hc.eval_eq σ hσ, ht.eval_eq σ hσ, hf.eval_eq σ hσ]

theorem concat {x : BitVec m} {y : BitVec n} (hl : Denotes s l m x) (hr : Denotes s r n y) :
    Denotes s (.concat l r) (m + n) (x ++ y) where
  wellSorted := ⟨hl.wellSorted, hr.wellSorted⟩
  width_eq := by rw [Expr.width, hl.width_eq, hr.width_eq]
  inBounds σ hσ ho := ⟨hl.inBounds σ hσ ho, hr.inBounds σ hσ ho⟩
  eval_eq σ hσ := by
    obtain rfl := hl.width_eq
    obtain rfl := hr.width_eq
    rw [Expr.eval, hl.eval_eq σ hσ, hr.eval_eq σ hσ, BitVec.setWidth_eq]

theorem extract {x : BitVec m} {off : Nat} (h : Denotes s e m x) (hw : 0 < w)
    (ho : off + w ≤ m) : Denotes s (.extract e off w) w (x.extractLsb' off w) where
  wellSorted := ⟨h.wellSorted, hw, h.width_eq ▸ ho⟩
  width_eq := rfl
  inBounds := h.inBounds
  eval_eq σ hσ := by
    obtain rfl := h.width_eq
    rw [Expr.eval, h.eval_eq σ hσ]

theorem cast {x : BitVec m} (k : CastKind) (h : Denotes s e m x) (hw : m ≤ w) :
    Denotes s (.cast k e w) w (k.denote x w) where
  wellSorted := ⟨h.wellSorted, h.width_eq ▸ hw⟩
  width_eq := rfl
  inBounds := h.inBounds
  eval_eq σ hσ := by
    obtain rfl := h.width_eq
    rw [Expr.eval, h.eval_eq σ hσ]

theorem arith {x y : BitVec w} (k : ArithKind) (hl : Denotes s l w x)
    (hr : Denotes s r w y) : Denotes s (.arith k l r) w (k.denote x y) where
  wellSorted := ⟨hl.wellSorted, hr.wellSorted, hr.width_eq.trans hl.width_eq.symm⟩
  width_eq := hl.width_eq
  inBounds σ hσ ho := ⟨hl.inBounds σ hσ ho, hr.inBounds σ hσ ho⟩
  eval_eq σ hσ := by rw [Expr.eval, hl.eval_eq σ hσ, hr.eval_eq σ hσ]

theorem cmp {x y : BitVec w} (k : CmpKind) (hl : Denotes s l w x) (hr : Denotes s r w y) :
    Denotes s (.cmp k l r) 1 (BitVec.ofBool (k.denote x y)) where
  wellSorted := ⟨hl.wellSorted, hr.wellSorted, hr.width_eq.trans hl.width_eq.symm⟩
  width_eq := rfl
  inBounds σ hσ ho := ⟨hl.inBounds σ hσ ho, hr.inBounds σ hσ ho⟩
  eval_eq σ hσ := by
    obtain rfl := hl.width_eq
    rw [Expr.eval, hl.eval_eq σ hσ, hr.eval_eq σ hσ, BitVec.setWidth_eq]

theorem read {root : Array} {head : UpdateNode} {index : Expr} {i : BitVec 32} {v : BitVec 8}
    (hh : head.WellSorted) (hi : Denotes s index 32 i)
    (hv : ∀ σ ∈ s, v = head.eval σ root i ∧
      (constArrayOpt = true → head.ConstReadsInBounds σ ∧
        (root.isConstantArray = true → head = .null → i.toNat < root.size))) :
    Denotes s (.read root head index) 8 v where
  wellSorted := ⟨hh, hi.wellSorted, hi.width_eq⟩
  width_eq := rfl
  inBounds σ hσ ho := by
    refine ⟨((hv σ hσ).2 ho).1, hi.inBounds σ hσ ho, ?_⟩
    rw [hi.eval_eq σ hσ]
    exact ((hv σ hσ).2 ho).2
  eval_eq σ hσ := by rw [Expr.eval, hi.eval_eq σ hσ, ← (hv σ hσ).1, BitVec.setWidth_eq]

/-! Inversion: the operands of what denotes. -/

theorem constant_inv {c : ConstantExpr} {v : BitVec w} (h : Denotes s (.constant c) w v) :
    ∃ x : BitVec w, c = ⟨w, x⟩ ∧ (s.isSome = true → x = v) := by
  obtain ⟨w', x⟩ := c
  obtain rfl : w' = w := h.width_eq
  refine ⟨x, rfl, fun hs => ?_⟩
  obtain ⟨σ, hσ⟩ := Option.isSome_iff_exists.mp hs
  simpa [Expr.eval] using h.eval_eq σ hσ

theorem arith_inv {k : ArithKind} {v : BitVec w} (h : Denotes s (.arith k l r) w v) :
    ∃ x y : BitVec w, Denotes s l w x ∧ Denotes s r w y ∧
      (s.isSome = true → v = k.denote x y) := by
  obtain ⟨hl, hr, hw⟩ := h.wellSorted
  refine ⟨_, _, h.operand hl h.width_eq fun _ hb => hb.1,
    h.operand hr (hw.trans h.width_eq) fun _ hb => hb.2, fun hs => ?_⟩
  obtain ⟨σ, rfl⟩ := Option.isSome_iff_exists.mp hs
  exact (h.eval_eq σ rfl).symm

/-- An operator with a constant on the left, as the smart constructors leave it. -/
theorem arith_constant_inv {k : ArithKind} {c : ConstantExpr} {v : BitVec w}
    (h : Denotes s (.arith k (.constant c) r) w v) :
    ∃ x y : BitVec w, c = ⟨w, x⟩ ∧ Denotes s r w y ∧ (s.isSome = true → v = k.denote x y) := by
  obtain ⟨x, y, hl, hr, hv⟩ := h.arith_inv
  obtain ⟨x', rfl, hx⟩ := hl.constant_inv
  exact ⟨x', y, rfl, hr, fun hs => by rw [hv hs, hx hs]⟩

theorem cmp_inv {k : CmpKind} {v : BitVec w} (h : Denotes s (.cmp k l r) w v) :
    w = 1 ∧ ∃ x y : BitVec l.width, Denotes s l l.width x ∧ Denotes s r l.width y ∧
      (s.isSome = true → v = (BitVec.ofBool (k.denote x y)).setWidth w) := by
  obtain ⟨hl, hr, hw⟩ := h.wellSorted
  refine ⟨h.width_eq.symm, _, _, h.operand hl rfl fun _ hb => hb.1,
    h.operand hr hw fun _ hb => hb.2, fun hs => ?_⟩
  obtain ⟨σ, rfl⟩ := Option.isSome_iff_exists.mp hs
  exact (h.eval_eq σ rfl).symm

theorem cast_inv {k : CastKind} {w' : Nat} {v : BitVec w}
    (h : Denotes s (.cast k e w') w v) :
    ∃ x : BitVec e.width, Denotes s e e.width x ∧ e.width ≤ w ∧
      (s.isSome = true → v = k.denote x w) := by
  obtain ⟨he, hw⟩ := h.wellSorted
  obtain rfl : w' = w := h.width_eq
  refine ⟨_, h.operand he rfl fun _ hb => hb, hw, fun hs => ?_⟩
  obtain ⟨σ, rfl⟩ := Option.isSome_iff_exists.mp hs
  exact (h.eval_eq σ rfl).symm

theorem concat_inv {v : BitVec w} (h : Denotes s (.concat l r) w v) :
    l.width + r.width = w ∧ ∃ (x : BitVec l.width) (y : BitVec r.width),
      Denotes s l l.width x ∧ Denotes s r r.width y ∧
      (s.isSome = true → v = (x ++ y).setWidth w) := by
  obtain ⟨hl, hr⟩ := h.wellSorted
  refine ⟨h.width_eq, _, _, h.operand hl rfl fun _ hb => hb.1,
    h.operand hr rfl fun _ hb => hb.2, fun hs => ?_⟩
  obtain ⟨σ, rfl⟩ := Option.isSome_iff_exists.mp hs
  exact (h.eval_eq σ rfl).symm

theorem extract_inv {off : Nat} {w' : Nat} {v : BitVec w}
    (h : Denotes s (.extract e off w') w v) :
    w' = w ∧ off + w ≤ e.width ∧ ∃ x : BitVec e.width, Denotes s e e.width x ∧
      (s.isSome = true → v = x.extractLsb' off w) := by
  obtain ⟨he, _, ho⟩ := h.wellSorted
  obtain rfl : w' = w := h.width_eq
  refine ⟨rfl, ho, _, h.operand he rfl fun _ hb => hb, fun hs => ?_⟩
  obtain ⟨σ, rfl⟩ := Option.isSome_iff_exists.mp hs
  exact (h.eval_eq σ rfl).symm

theorem notOptimized_inv {v : BitVec w} (h : Denotes s (.notOptimized e) w v) :
    Denotes s e w v where
  wellSorted := h.wellSorted
  width_eq := h.width_eq
  inBounds := h.inBounds
  eval_eq := h.eval_eq

theorem not_inv {v : BitVec w} (h : Denotes s (.not e) w v) :
    ∃ x : BitVec w, Denotes s e w x ∧ (s.isSome = true → v = ~~~ x) := by
  refine ⟨_, h.operand h.wellSorted h.width_eq fun _ hb => hb, fun hs => ?_⟩
  obtain ⟨σ, rfl⟩ := Option.isSome_iff_exists.mp hs
  exact (h.eval_eq σ rfl).symm

theorem select_inv {v : BitVec w} (h : Denotes s (.select c t f) w v) :
    ∃ (a : BitVec 1) (x y : BitVec w), Denotes s c 1 a ∧ Denotes s t w x ∧ Denotes s f w y ∧
      (s.isSome = true → v = if a = 1#1 then x else y) := by
  obtain ⟨⟨hc, hc1⟩, ht, hf, hw⟩ := h.wellSorted
  refine ⟨_, _, _, h.operand hc hc1 fun _ hb => hb.1, h.operand ht h.width_eq fun _ hb => hb.2.1,
    h.operand hf (hw.trans h.width_eq) fun _ hb => hb.2.2, fun hs => ?_⟩
  obtain ⟨σ, rfl⟩ := Option.isSome_iff_exists.mp hs
  exact (h.eval_eq σ rfl).symm

theorem read_inv {root : Array} {head : UpdateNode} {index : Expr} {v : BitVec w}
    (h : Denotes s (.read root head index) w v) :
    w = 8 ∧ head.WellSorted ∧ ∃ i : BitVec 32, Denotes s index 32 i ∧
      ∀ σ ∈ s, v = (head.eval σ root i).setWidth w ∧
        (constArrayOpt = true → head.ConstReadsInBounds σ ∧
          (root.isConstantArray = true → head = .null → i.toNat < root.size)) := by
  obtain ⟨hh, hi, hw⟩ := h.wellSorted
  refine ⟨h.width_eq.symm, hh, _, h.operand hi hw fun _ hb => hb.2.1, fun σ hσ => ?_⟩
  obtain rfl := hσ
  refine ⟨(h.eval_eq σ rfl).symm, fun ho => ?_⟩
  have hb := h.inBounds σ rfl ho
  exact ⟨hb.1, hb.2.2⟩

/-- An expression denotes one value. -/
theorem unique {x y : BitVec w} (h : Denotes s e w x) (h' : Denotes s e w y)
    (hs : s.isSome = true) : x = y := by
  obtain ⟨σ, rfl⟩ := Option.isSome_iff_exists.mp hs
  exact (h.eval_eq σ rfl).symm.trans (h'.eval_eq σ rfl)

end Denotes

end Klee
