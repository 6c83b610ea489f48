import Klee.Expr.ExprBuilderSound

/-! The constant-folding and the simplifying builder, and the stacks that are made of them. -/
namespace Klee

open Fuel

variable {s : Option Assignment} {e l r : Expr} {w : Nat}

/-- A sum or difference of the folding builder: two constants fold, an overload does the rest. -/
theorem specialize_within {fold : ConstantExpr → ConstantExpr → ConstantExpr}
    {cn : Nat → ConstantExpr → Expr → Option Expr} {nc : Nat → Expr → ConstantExpr → Option Expr}
    {nn : Nat → Expr → Expr → Option Expr} {x y v : BitVec w} {k : Nat}
    (hl : Denotes s l w x) (hr : Denotes s r w y)
    (hfold : ∀ cl cr, l = .constant cl → r = .constant cr →
      Denotes s (.constant (fold cl cr)) w v)
    (hcn : ∀ c : BitVec w, (s.isSome = true → c = x) → l.terms = 0 →
      BuildsWithin s (fun n => cn n ⟨w, c⟩ r) w v k)
    (hnc : ∀ c : BitVec w, (s.isSome = true → c = y) → r.terms = 0 →
      BuildsWithin s (fun n => nc n l ⟨w, c⟩) w v k)
    (hnn : l.isConstant = false → BuildsWithin s (fun n => nn n l r) w v k) :
    BuildsWithin s (fun n => specialize fold (cn n) (nc n) (nn n) l r) w v k := by
  simp only [specialize]
  cases hcl : l.dynConstant with
  | some cl =>
    obtain ⟨c, rfl, hc⟩ := hl.dynConstant hcl
    rw [dynConstant_eq_some] at hcl
    cases hcr : r.dynConstant with
    | some cr =>
      rw [dynConstant_eq_some] at hcr
      exact ⟨_, ends_some, hfold _ cr hcl hcr, Nat.zero_le k⟩
    | none => exact hcn c hc (by rw [hcl]; rfl)
  | none =>
    cases hcr : r.dynConstant with
    | some cr =>
      obtain ⟨c, rfl, hc⟩ := hr.dynConstant hcr
      rw [dynConstant_eq_some] at hcr
      exact hnc c hc (by rw [hcr]; rfl)
    | none => exact hnn (dynConstant_eq_none.mp hcl)

section ConstantFolding

abbrev foldingBuilder : Nat → ExprBuilder := ConstantFoldingExprBuilder DefaultExprBuilder

open ConstantFoldingBuilder in
/-- A sum and a difference, when those that the rules make of them are built -/
theorem linear_step {x y : BitVec w} (hl : Denotes s l w x) (hr : Denotes s r w y)
    (hlin : Linear s foldingBuilder (l.terms + r.terms) l.terms) :
    BuildsWithin s (fun n => (foldingBuilder n).add l r) w (x + y) (l.terms + r.terms + 1) ∧
      BuildsWithin s (fun n => (foldingBuilder n).sub l r) w (x - y)
        (l.terms + r.terms + 1) := by
  constructor
  · apply BuildsWithin.of_succ _ fun n => rfl
    apply specialize_within hl hr
    · rintro cl cr rfl rfl
      exact arith_fold_denotes (hl.arith .add hr)
    · intro c hc hterms
      exact (addCN_within hlin hr (by omega)).weaken (fun hs => by rw [hc hs]) (by omega)
    · intro c hc hterms
      exact (addNC_within hlin hl (by omega)).weaken (fun hs => by rw [hc hs]) (by omega)
    · exact fun hconst => addNN_within hl hr hlin hconst
  · apply BuildsWithin.of_succ _ fun n => rfl
    apply specialize_within hl hr
    · rintro cl cr rfl rfl
      exact arith_fold_denotes (hl.arith .sub hr)
    · intro c hc hterms
      exact (subCN_within hlin hr (by omega)).weaken (fun hs => by rw [hc hs]) (by omega)
    · intro c hc hterms
      exact (subNC_within hlin hl (by omega)).weaken (fun hs => by rw [hc hs]) (by omega)
    · exact fun hconst => subNN_within hl hr hlin hconst

/-- The rules never make more terms, and fewer of them are on the left. -/
theorem linear_folding (size left : Nat) : Linear s foldingBuilder size left := by
  induction size using Nat.strong_induction_on generalizing left with
  | _ size ihsize =>
  induction left using Nat.strong_induction_on with
  | _ left ihleft =>
  intro l r w x y hl hr hless
  apply linear_step hl hr
  rcases Nat.lt_or_ge (l.terms + r.terms) size with hlt | hge
  · exact ihsize _ hlt _
  · have heq : l.terms + r.terms = size := by omega
    rw [heq]
    exact ihleft l.terms (by omega)

/-- An operator that can be exchanged has one rule for both sides. -/
theorem exchange_overloads {k : ArithKind} {rule : ConstantExpr → Expr → Option Expr} {v : BitVec w}
    (hcomm : ∀ x y : BitVec w, k.denote x y = k.denote y x)
    (hrule : ∀ {c e} {x y : BitVec w}, Denotes s (.constant c) w x → Denotes s e w y →
      Builds s (fun _ => rule c e) w (k.denote x y))
    (he : Denotes s (.arith k l r) w v) :
    RightOverloads s (fun _ => rule) (fun _ l r => rule r l)
      (fun _ => DefaultExprBuilder.arith k) l r w v := by
  obtain ⟨x, y, hl, hr, hv⟩ := he.arith_inv
  constructor
  · rintro c rfl
    exact (hrule hl hr).congr fun hs => (hv hs).symm
  · rintro c rfl
    exact (hrule hr hl).congr fun hs => by rw [hcomm, hv hs]
  · exact fun _ _ => builds_some he

section Rules

variable {c : ConstantExpr} {x y : BitVec w}

theorem zero_of_isZero (h : Denotes s (.constant c) w x) (hzero : c.isZero = true)
    (hs : s.isSome = true) : x = 0 := by
  obtain ⟨a, rfl, ha⟩ := h.constant_inv
  rw [← ha hs]
  simpa [ConstantExpr.isZero] using hzero

theorem one_of_isOne (h : Denotes s (.constant c) w x) (hone : c.isOne = true)
    (hs : s.isSome = true) : x = 1#w := by
  obtain ⟨a, rfl, ha⟩ := h.constant_inv
  have hw := h.width_pos
  have hval : a.toNat = 1 := by simpa [ConstantExpr.isOne] using hone
  rw [← ha hs]
  apply BitVec.eq_of_toNat_eq
  rw [hval, BitVec.toNat_ofNat, Nat.mod_eq_of_lt (Nat.one_lt_two_pow (by omega))]

theorem allOnes_of_isAllOnes (h : Denotes s (.constant c) w x) (hones : c.isAllOnes = true)
    (hs : s.isSome = true) : x = BitVec.allOnes w := by
  obtain ⟨a, rfl, ha⟩ := h.constant_inv
  rw [← ha hs]
  simpa [ConstantExpr.isAllOnes] using hones

namespace ConstantFoldingBuilder

theorem mulCN_builds (hc : Denotes s (.constant c) w x) (he : Denotes s e w y) :
    Builds s (fun _ => mulCN DefaultExprBuilder c e) w (x * y) := by
  simp only [mulCN]
  split_ifs with hzero hone
  · exact builds_some (hc.congr fun hs => by
      rw [zero_of_isZero hc hzero hs, BitVec.ofNat_eq_ofNat, BitVec.zero_mul])
  · exact builds_some (he.congr fun hs => by rw [one_of_isOne hc hone hs, BitVec.one_mul])
  · exact builds_some (hc.arith .mul he)

theorem andCN_builds (hc : Denotes s (.constant c) w x) (he : Denotes s e w y) :
    Builds s (fun _ => andCN DefaultExprBuilder c e) w (x &&& y) := by
  simp only [andCN]
  split_ifs with hzero hones
  · exact builds_some (hc.congr fun hs => by
      rw [zero_of_isZero hc hzero hs, BitVec.ofNat_eq_ofNat, BitVec.zero_and])
  · exact builds_some (he.congr fun hs => by
      rw [allOnes_of_isAllOnes hc hones hs, BitVec.allOnes_and])
  · exact builds_some (hc.arith .and he)

theorem orCN_builds (hc : Denotes s (.constant c) w x) (he : Denotes s e w y) :
    Builds s (fun _ => orCN DefaultExprBuilder c e) w (x ||| y) := by
  simp only [orCN]
  split_ifs with hzero hones
  · exact builds_some (he.congr fun hs => by
      rw [zero_of_isZero hc hzero hs, BitVec.ofNat_eq_ofNat, BitVec.zero_or])
  · exact builds_some (hc.congr fun hs => by
      rw [allOnes_of_isAllOnes hc hones hs, BitVec.allOnes_or])
  · exact builds_some (hc.arith .or he)

theorem xorCN_builds (hc : Denotes s (.constant c) w x) (he : Denotes s e w y) :
    Builds s (fun _ => xorCN DefaultExprBuilder c e) w (x ^^^ y) := by
  simp only [xorCN]
  split_ifs with hzero
  · exact builds_some (he.congr fun hs => by
      rw [zero_of_isZero hc hzero hs, BitVec.ofNat_eq_ofNat, BitVec.zero_xor])
  · exact builds_some (hc.arith .xor he)

end ConstantFoldingBuilder

/-- On Booleans a comparison with a constant is the other operand or its negation. -/
theorem eqCN_builds {base : Nat → ExprBuilder} (hbase : RightBuilder s base)
    (hc : Denotes s (.constant c) w x) (he : Denotes s e w y) :
    Builds s (fun n => ConstantFoldingBuilder.eqCN (base n) c e) 1 (BitVec.ofBool (x == y)) := by
  obtain ⟨a, rfl, ha⟩ := hc.constant_inv
  simp only [ConstantFoldingBuilder.eqCN]
  split_ifs with hw htrue
  · subst hw
    refine builds_some (he.congr fun hs => ?_)
    have ha1 : a = 1#1 := by simpa [ConstantExpr.isTrue, BitVec.ne_zero_iff_eq_one] using htrue
    rw [← ha hs, ha1]
    exact (by decide : ∀ y : BitVec 1, y = BitVec.ofBool (1#1 == y)) y
  · subst hw
    refine (hbase (he.not)).congr fun hs => ?_
    have ha0 : a = 0#1 := by simpa [ConstantExpr.isTrue] using htrue
    rw [← ha hs, ha0]
    exact (by decide : ∀ y : BitVec 1, ~~~ y = BitVec.ofBool (0#1 == y)) y
  · exact hbase (hc.cmp .eq he)

/-- The rule for both sides of an equality -/
theorem eqCN_overloads {base : Nat → ExprBuilder} (hbase : RightBuilder s base) {v : BitVec w}
    {nn : Nat → Expr → Expr → Option Expr} (he : Denotes s (.eq l r) w v)
    (hnn : Builds s (fun n => nn n l r) w v) :
    RightOverloads s (fun n => ConstantFoldingBuilder.eqCN (base n))
      (fun n l r => ConstantFoldingBuilder.eqCN (base n) r l) nn l r w v := by
  obtain ⟨rfl, x, y, hl, hr, hv⟩ := he.cmp_inv
  have hv' : s.isSome = true → v = BitVec.ofBool (x == y) := by
    intro hs
    rw [hv hs, BitVec.setWidth_eq]
    rfl
  constructor
  · rintro c rfl
    exact (eqCN_builds hbase hl hr).congr fun hs => (hv' hs).symm
  · rintro c rfl
    refine (eqCN_builds hbase hr hl).congr fun hs => ?_
    rw [hv' hs, Bool.beq_comm]
  · exact fun _ _ => hnn

end Rules

open ConstantFoldingBuilder in
theorem folding_arith {k : ArithKind} {v : BitVec w} (he : Denotes s (.arith k l r) w v) :
    RightOverloads s
      (fun n => (ConstantFoldingBuilder (foldingBuilder n) DefaultExprBuilder).arithCN k)
      (fun n => (ConstantFoldingBuilder (foldingBuilder n) DefaultExprBuilder).arithNC k)
      (fun n => (ConstantFoldingBuilder (foldingBuilder n) DefaultExprBuilder).arithNN k)
      l r w v := by
  have hchain := (chained_right default_right).arith he
  obtain ⟨x, y, hl, hr, hv⟩ := he.arith_inv
  have hlin := linear_folding (s := s) (l.terms + r.terms) l.terms
  cases k with
  | add =>
    constructor
    · rintro c rfl
      obtain ⟨a, rfl, ha⟩ := hl.constant_inv
      refine (addCN_within hlin hr (by omega)).builds.congr fun hs => ?_
      rw [hv hs, ← ha hs]
      rfl
    · rintro c rfl
      obtain ⟨a, rfl, ha⟩ := hr.constant_inv
      refine (addNC_within hlin hl (by omega)).builds.congr fun hs => ?_
      rw [hv hs, ← ha hs]
      rfl
    · exact fun hconst _ => (addNN_within hl hr hlin hconst).builds.congr fun hs => (hv hs).symm
  | sub =>
    constructor
    · rintro c rfl
      obtain ⟨a, rfl, ha⟩ := hl.constant_inv
      refine (subCN_within hlin hr (by omega)).builds.congr fun hs => ?_
      rw [hv hs, ← ha hs]
      rfl
    · rintro c rfl
      obtain ⟨a, rfl, ha⟩ := hr.constant_inv
      refine (subNC_within hlin hl (by omega)).builds.congr fun hs => ?_
      rw [hv hs, ← ha hs]
      rfl
    · exact fun hconst _ => (subNN_within hl hr hlin hconst).builds.congr fun hs => (hv hs).symm
  | mul => exact exchange_overloads BitVec.mul_comm mulCN_builds he
  | and => exact exchange_overloads BitVec.and_comm andCN_builds he
  | or => exact exchange_overloads BitVec.or_comm orCN_builds he
  | xor => exact exchange_overloads BitVec.xor_comm xorCN_builds he
  | _ => exact hchain

theorem folding_cmp {k : CmpKind} {v : BitVec w} (he : Denotes s (.cmp k l r) w v) :
    RightOverloads s
      (fun n => (ConstantFoldingBuilder (foldingBuilder n) DefaultExprBuilder).cmpCN k)
      (fun n => (ConstantFoldingBuilder (foldingBuilder n) DefaultExprBuilder).cmpNC k)
      (fun n => (ConstantFoldingBuilder (foldingBuilder n) DefaultExprBuilder).cmpNN k)
      l r w v := by
  have hchain := (chained_right default_right).cmp he
  cases k with
  | eq => exact eqCN_overloads default_right he (builds_some he)
  | _ => exact hchain

theorem folding_right : RightBuilder s foldingBuilder := by
  have hchain := chained_right (s := s) default_right
  have hspecial : RightSpecialized s fun n =>
      ConstantFoldingBuilder (foldingBuilder n) DefaultExprBuilder :=
    { hchain with
      arith := folding_arith
      cmp := folding_cmp }
  intro e w v he
  apply Builds.of_succ _ fun n => rfl
  exact specialized_right hspecial he

end ConstantFolding

section Simplifying

variable {base : Nat → ExprBuilder}

theorem simplifying_eq_overloads (hbase : RightBuilder s base) {v : BitVec w}
    (he : Denotes s (.eq l r) w v) :
    RightOverloads s (fun n => SimplifyingBuilder.eqCN (base n))
      (fun n l r => SimplifyingBuilder.eqCN (base n) r l)
      (fun n => SimplifyingBuilder.eqNN (base n)) l r w v := by
  apply eqCN_overloads hbase he
  obtain ⟨rfl, x, y, hl, hr, hv⟩ := he.cmp_inv
  have hnode := hbase he
  simp only [SimplifyingBuilder.eqNN]
  split_ifs with heq
  · subst heq
    refine builds_some ((Denotes.constant Nat.one_pos).congr fun hs => ?_)
    rw [hv hs, hl.unique hr hs, BitVec.setWidth_eq]
    simp [CmpKind.denote]
  · exact hnode

theorem simplifying_eq (hbase : RightBuilder s base) {v : BitVec w} (he : Denotes s (.eq l r) w v) :
    Builds s (fun n => (SimplifyingExprBuilder base n).eq l r) w v := by
  apply Builds.of_succ _ fun n => rfl
  exact specialized_cmp he (simplifying_eq_overloads hbase he)

theorem simplifying_arith (hbase : RightBuilder s base) {k : ArithKind} {v : BitVec w}
    (he : Denotes s (.arith k l r) w v) :
    Builds s (fun n => (SimplifyingExprBuilder base n).arith k l r) w v := by
  apply Builds.of_succ _ fun n => rfl
  exact specialized_arith he ((chained_right hbase).arith he)

/-- The rule for the negation of a disjunction, given the negations of its operands -/
theorem simplifying_not_step (hbase : RightBuilder s base) {v : BitVec w}
    (he : Denotes s (.not e) w v)
    (ih : ∀ {e' : Expr} {v' : BitVec w}, sizeOf e' < sizeOf e → Denotes s (.not e') w v' →
      Builds s (fun n => (SimplifyingExprBuilder base n).not e') w v') :
    Builds s (fun n => SimplifyingBuilder.not (SimplifyingExprBuilder base n) (base n) e) w v := by
  have hnode := hbase he
  cases e with
  | arith k p q =>
    cases k with
    | or =>
      obtain ⟨z, hz, hv⟩ := he.not_inv
      obtain ⟨x, y, hp, hq, hz'⟩ := hz.arith_inv
      have hsize : sizeOf (Expr.arith .or p q) = 2 + sizeOf p + sizeOf q := by simp
      have hx := ih (by omega) hp.not
      have hy := ih (by omega) hq.not
      have hboth : Builds s (fun n => SimplifyingBuilder.not (SimplifyingExprBuilder base n)
          (base n) (.or p q)) w (~~~ x &&& ~~~ y) := by
        refine hx.bind fun e₁ h₁ => hy.bind fun e₂ h₂ => ?_
        exact simplifying_arith hbase (h₁.arith .and h₂)
      refine hboth.congr fun hs => ?_
      rw [hv hs, hz' hs]
      exact BitVec.not_or.symm
    | _ => exact hnode
  | _ => exact hnode

theorem simplifying_not (hbase : RightBuilder s base) {v : BitVec w} (he : Denotes s (.not e) w v) :
    Builds s (fun n => (SimplifyingExprBuilder base n).not e) w v := by
  induction hn : sizeOf e using Nat.strong_induction_on generalizing e v with
  | _ n ih =>
  subst hn
  apply Builds.of_succ _ fun n => rfl
  apply specialized_not he
  exact simplifying_not_step hbase he fun hlt he' => ih _ hlt he' rfl

/-- A comparison that the builder forwards -/
theorem simplifying_forwarded (hbase : RightBuilder s base) {k : CmpKind} {v : BitVec w}
    (hk : k = .ult ∨ k = .ule ∨ k = .slt ∨ k = .sle) (he : Denotes s (.cmp k l r) w v) :
    Builds s (fun n => (SimplifyingExprBuilder base n).cmp k l r) w v := by
  have hchain := (chained_right hbase).cmp he
  apply Builds.of_succ _ fun n => rfl
  apply specialized_cmp he
  obtain rfl | rfl | rfl | rfl := hk <;> exact hchain

/-- Each other comparison but `Eq`, whatever its operands are -/
theorem simplifying_cmp (hbase : RightBuilder s base) {k : CmpKind} {v : BitVec w} (hk : k ≠ .eq)
    (he : Denotes s (.cmp k l r) w v) :
    Builds s (fun n => SimplifyingBuilder.cmp (SimplifyingExprBuilder base n) (base n) k l r)
      w v := by
  have hnode := hbase he
  obtain ⟨rfl, x, y, hl, hr, hv⟩ := he.cmp_inv
  have hv' : s.isSome = true → v = BitVec.ofBool (k.denote x y) := by
    intro hs
    rw [hv hs, BitVec.setWidth_eq]
  cases k with
  | eq => exact absurd rfl hk
  | ne =>
    refine ((simplifying_eq hbase (hl.cmp .eq hr)).bind fun e he =>
      simplifying_not hbase he.not).congr fun hs => ?_
    rw [hv' hs]
    simp [CmpKind.denote, bne]
  | ugt =>
    exact (simplifying_forwarded hbase (by simp) (hr.cmp .ult hl)).congr fun hs => (hv' hs).symm
  | uge =>
    exact (simplifying_forwarded hbase (by simp) (hr.cmp .ule hl)).congr fun hs => (hv' hs).symm
  | sgt =>
    exact (simplifying_forwarded hbase (by simp) (hr.cmp .slt hl)).congr fun hs => (hv' hs).symm
  | sge =>
    exact (simplifying_forwarded hbase (by simp) (hr.cmp .sle hl)).congr fun hs => (hv' hs).symm
  | _ => exact hnode

theorem simplifying_cmp_overloads (hbase : RightBuilder s base) {k : CmpKind} {v : BitVec w}
    (he : Denotes s (.cmp k l r) w v) :
    RightOverloads s
      (fun n => (SimplifyingBuilder (SimplifyingExprBuilder base n) (base n)).cmpCN k)
      (fun n => (SimplifyingBuilder (SimplifyingExprBuilder base n) (base n)).cmpNC k)
      (fun n => (SimplifyingBuilder (SimplifyingExprBuilder base n) (base n)).cmpNN k)
      l r w v := by
  by_cases hk : k = .eq
  · subst hk
    exact simplifying_eq_overloads hbase he
  · have hcmp := simplifying_cmp hbase hk he
    constructor
    · rintro c rfl
      cases k <;> first | exact hcmp | exact absurd rfl hk
    · rintro c rfl
      cases k <;> first | exact hcmp | exact absurd rfl hk
    · intro _ _
      cases k <;> first | exact hcmp | exact absurd rfl hk

theorem simplifying_right (hbase : RightBuilder s base) :
    RightBuilder s (SimplifyingExprBuilder base) := by
  have hchain := chained_right hbase
  have hspecial : RightSpecialized s fun n =>
      SimplifyingBuilder (SimplifyingExprBuilder base n) (base n) :=
    { hchain with
      not := fun he => simplifying_not_step hbase he fun _ he' => simplifying_not hbase he'
      cmp := simplifying_cmp_overloads hbase }
  intro e w v he
  apply Builds.of_succ _ fun n => rfl
  exact specialized_right hspecial he

end Simplifying

theorem BuilderStack.builder_right (st : BuilderStack) : RightBuilder s st.builder := by
  cases st with
  | default => exact default_right
  | constantFolding => exact folding_right
  | simplifying => exact simplifying_right folding_right

/-- Every builder returns for the operator of a well-sorted expression, with an expression of
its width and, under every assignment, of its value. A division by zero, which the program
does not define, has the value that `eval` gives it. -/
theorem BuilderStack.build_sound (st : BuilderStack) (e : Expr) (h : e.WellSorted) :
    ∃ e', Ends (fun n => (st.builder n).build e) e' ∧ e'.WellSorted ∧ e'.width = e.width ∧
      ∀ σ, e'.eval σ e.width = e.eval σ e.width := by
  obtain ⟨e', hends, he'⟩ := st.builder_right (s := none) (Denotes.self h fun _ _ h => by cases h)
  refine ⟨e', hends, he'.wellSorted, he'.width_eq, fun σ => ?_⟩
  obtain ⟨e'', hends', he''⟩ :=
    st.builder_right (s := some σ) (Denotes.self h fun _ _ h => by cases h)
  rw [hends.unique hends']
  exact he''.eval_eq σ rfl

/-- `(x - 5) + (x + 3)` for a byte `x` -/
def someSum : Expr :=
  let x : Expr := .read (.symbolic 0 "x" 1) .null (.constant ⟨32, 0⟩)
  .add (.sub x (.constant ⟨8, 5⟩)) (.add x (.constant ⟨8, 3⟩))

theorem BuilderStack.build_sound_someSum :
    ∃ e', Ends (fun n => (BuilderStack.simplifying.builder n).build someSum) e' ∧
      e'.WellSorted ∧ e'.width = someSum.width ∧
      ∀ σ, e'.eval σ someSum.width = someSum.eval σ someSum.width := by
  apply BuilderStack.build_sound
  simp [someSum, Expr.WellSorted, UpdateNode.WellSorted, Expr.width, Array.getRange]

end Klee
