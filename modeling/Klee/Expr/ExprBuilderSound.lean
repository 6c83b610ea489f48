import Klee.Expr.ExprBuilder
import Klee.Expr.Truth
import Klee.Lib.Fuel

/-! The builders of every stack return, and what they return has the width and the value of the
plainly allocated expression. -/
namespace Klee

open Fuel

variable {s : Option Assignment} {e l r : Expr} {w : Nat}

/-- A call returns an expression of width `w` and value `v`. -/
def Builds (s : Option Assignment) (f : Nat → Option Expr) (w : Nat) (v : BitVec w) : Prop :=
  ∃ e, Ends f e ∧ Denotes s e w v

def RightBuilder (s : Option Assignment) (b : Nat → ExprBuilder) : Prop :=
  ∀ {e w v}, Denotes s e w v → Builds s (fun n => (b n).build e) w v

theorem builds_some {v : BitVec w} (h : Denotes s e w v) : Builds s (fun _ => some e) w v :=
  ⟨e, ends_some, h⟩

theorem Builds.congr {f : Nat → Option Expr} {v v' : BitVec w} (h : Builds s f w v)
    (hv : s.isSome = true → v = v') : Builds s f w v' := by
  obtain ⟨e, hf, he⟩ := h
  exact ⟨e, hf, he.congr hv⟩

theorem Builds.of_succ {f g : Nat → Option Expr} {v : BitVec w} (h : Builds s g w v)
    (hf : ∀ n, f (n + 1) = g n) : Builds s f w v := by
  obtain ⟨e, hg, he⟩ := h
  exact ⟨e, hg.of_succ hf, he⟩

theorem Builds.bind {f : Nat → Option Expr} {k : Nat → Expr → Option Expr} {m : Nat}
    {u : BitVec m} {v : BitVec w} (h : Builds s f m u)
    (hk : ∀ e, Denotes s e m u → Builds s (fun n => k n e) w v) :
    Builds s (fun n => (f n).bind (k n)) w v := by
  obtain ⟨e, hf, he⟩ := h
  obtain ⟨e', hk, he'⟩ := hk e he
  exact ⟨e', hf.bind hk, he'⟩

theorem dynConstant_eq_some {c : ConstantExpr} : e.dynConstant = some c ↔ e = .constant c := by
  cases e <;> simp [Expr.dynConstant]

theorem dynConstant_eq_none : e.dynConstant = none ↔ e.isConstant = false := by
  cases e <;> simp [Expr.dynConstant, Expr.isConstant]

/-- An operand that is a constant -/
theorem Denotes.dynConstant {c : ConstantExpr} {v : BitVec w} (h : Denotes s e w v)
    (hc : e.dynConstant = some c) :
    ∃ x : BitVec w, c = ⟨w, x⟩ ∧ (s.isSome = true → x = v) := by
  rw [dynConstant_eq_some] at hc
  subst hc
  exact h.constant_inv

theorem default_right : RightBuilder s fun _ => DefaultExprBuilder := by
  intro e w v h
  have hplain : DefaultExprBuilder.build e = some e := by cases e <;> rfl
  simp only [hplain]
  exact builds_some h

section Specialized

structure RightOverloads (s : Option Assignment) (cn : Nat → ConstantExpr → Expr → Option Expr)
    (nc : Nat → Expr → ConstantExpr → Option Expr) (nn : Nat → Expr → Expr → Option Expr)
    (l r : Expr) (w : Nat) (v : BitVec w) : Prop where
  cn : ∀ c, l = .constant c → Builds s (fun n => cn n c r) w v
  nc : ∀ c, r = .constant c → Builds s (fun n => nc n l c) w v
  nn : l.isConstant = false → r.isConstant = false → Builds s (fun n => nn n l r) w v

structure RightSpecialized (s : Option Assignment) (b : Nat → SpecializedBuilder) : Prop where
  constant : ∀ {c w v}, Denotes s (.constant c) w v → Builds s (fun n => (b n).constant c) w v
  notOptimized : ∀ {e w v}, Denotes s (.notOptimized e) w v →
    Builds s (fun n => (b n).notOptimized e) w v
  read : ∀ {root head index w v}, Denotes s (.read root head index) w v →
    Builds s (fun n => (b n).read ⟨root, head⟩ index) w v
  select : ∀ {c t f w v}, Denotes s (.select c t f) w v →
    Builds s (fun n => (b n).select c t f) w v
  concat : ∀ {l r w v}, Denotes s (.concat l r) w v → RightOverloads s (fun n => (b n).concatCN)
    (fun n => (b n).concatNC) (fun n => (b n).concatNN) l r w v
  extract : ∀ {e off k w v}, Denotes s (.extract e off k) w v →
    Builds s (fun n => (b n).extract e off k) w v
  cast : ∀ {k e m w v}, Denotes s (.cast k e m) w v → Builds s (fun n => (b n).cast k e m) w v
  not : ∀ {e w v}, Denotes s (.not e) w v → Builds s (fun n => (b n).not e) w v
  arith : ∀ {k l r w v}, Denotes s (.arith k l r) w v →
    RightOverloads s (fun n => (b n).arithCN k) (fun n => (b n).arithNC k)
      (fun n => (b n).arithNN k) l r w v
  cmp : ∀ {k l r w v}, Denotes s (.cmp k l r) w v →
    RightOverloads s (fun n => (b n).cmpCN k) (fun n => (b n).cmpNC k)
      (fun n => (b n).cmpNN k) l r w v

/-- What is forwarded to a builder that is right -/
theorem chained_right {base : Nat → ExprBuilder} (h : RightBuilder s base) :
    RightSpecialized s fun n => ChainedBuilder (base n) where
  constant := h
  notOptimized := h
  read := h
  select := h
  concat he := ⟨by rintro c rfl; exact h he, by rintro c rfl; exact h he, fun _ _ => h he⟩
  extract := h
  cast := h
  not := h
  arith he := ⟨by rintro c rfl; exact h he, by rintro c rfl; exact h he, fun _ _ => h he⟩
  cmp he := ⟨by rintro c rfl; exact h he, by rintro c rfl; exact h he, fun _ _ => h he⟩

/-- Two constants fold, and the overloads cover the rest. -/
theorem specialize_builds {fold : ConstantExpr → ConstantExpr → ConstantExpr}
    {cn : Nat → ConstantExpr → Expr → Option Expr} {nc : Nat → Expr → ConstantExpr → Option Expr}
    {nn : Nat → Expr → Expr → Option Expr} {v : BitVec w}
    (hfold : ∀ cl cr, l = .constant cl → r = .constant cr →
      Denotes s (.constant (fold cl cr)) w v)
    (h : RightOverloads s cn nc nn l r w v) :
    Builds s (fun n => specialize fold (cn n) (nc n) (nn n) l r) w v := by
  simp only [specialize]
  cases hcl : l.dynConstant with
  | some cl =>
    rw [dynConstant_eq_some] at hcl
    cases hcr : r.dynConstant with
    | some cr => exact builds_some (hfold cl cr hcl (dynConstant_eq_some.mp hcr))
    | none => exact h.cn cl hcl
  | none =>
    cases hcr : r.dynConstant with
    | some cr => exact h.nc cr (dynConstant_eq_some.mp hcr)
    | none => exact h.nn (dynConstant_eq_none.mp hcl) (dynConstant_eq_none.mp hcr)

/-- Two constants and their operator, folded -/
theorem fold_denotes {c : ConstantExpr} {v : BitVec w} (h : Denotes s e w v)
    (hw : c.width = e.width) (hv : ∀ σ, c.value.setWidth w = e.eval σ w) :
    Denotes s (.constant c) w v where
  wellSorted := (e.width_pos h.wellSorted).trans_eq hw.symm
  width_eq := hw.trans h.width_eq
  inBounds _ _ _ := trivial
  eval_eq σ hσ := (hv σ).trans (h.eval_eq σ hσ)

theorem arith_fold_denotes {k : ArithKind} {cl cr : ConstantExpr} {v : BitVec w}
    (h : Denotes s (.arith k (.constant cl) (.constant cr)) w v) :
    Denotes s (.constant (ConstantExpr.arith k.denote cl cr)) w v := by
  obtain rfl := h.width_eq
  exact fold_denotes h rfl fun σ => by simp [Expr.eval, ConstantExpr.arith, Expr.width]

theorem cmp_fold_denotes {k : CmpKind} {cl cr : ConstantExpr} {v : BitVec w}
    (h : Denotes s (.cmp k (.constant cl) (.constant cr)) w v) :
    Denotes s (.constant (ConstantExpr.cmp k.denote cl cr)) w v :=
  fold_denotes h rfl fun σ => by simp [Expr.eval, ConstantExpr.cmp, Expr.width]

theorem concat_fold_denotes {cl cr : ConstantExpr} {v : BitVec w}
    (h : Denotes s (.concat (.constant cl) (.constant cr)) w v) :
    Denotes s (.constant (ConstantExpr.concat cl cr)) w v := by
  refine fold_denotes h rfl fun σ => ?_
  simp only [Expr.eval, ConstantExpr.concat, Expr.width, BitVec.setWidth_eq]
  rw [← BitVec.setWidth_append_eq_shiftLeft_setWidth_or, BitVec.setWidth_eq]
  rfl

/-- `Extract`, `ZExt`, `SExt` and `Not` of a constant -/
theorem extract_fold_denotes {c : ConstantExpr} {off k : Nat} {v : BitVec w}
    (h : Denotes s (.extract (.constant c) off k) w v) :
    Denotes s (.constant (c.extract off k)) w v := by
  obtain ⟨rfl, ho, -⟩ := h.extract_inv
  refine fold_denotes h rfl fun σ => ?_
  simp only [Expr.eval, ConstantExpr.extract, Expr.width, BitVec.setWidth_eq]
  exact BitVec.setWidth_sshiftRight c.value ho

theorem cast_fold_denotes {c : ConstantExpr} {k : CastKind} {m : Nat} {v : BitVec w}
    (h : Denotes s (.cast k (.constant c) m) w v) :
    Denotes s (.constant (k.fold c m)) w v := by
  obtain rfl : m = w := h.width_eq
  refine fold_denotes h (by cases k <;> rfl) fun σ => ?_
  cases k <;> simp [Expr.eval, CastKind.fold, ConstantExpr.zext, ConstantExpr.sext,
    CastKind.denote, Expr.width]

theorem not_fold_denotes {c : ConstantExpr} {v : BitVec w} (h : Denotes s (.not (.constant c)) w v) :
    Denotes s (.constant c.not) w v := by
  obtain rfl := h.width_eq
  refine fold_denotes h rfl fun σ => ?_
  simp only [Expr.eval, ConstantExpr.not, Expr.width, BitVec.setWidth_eq]
  rfl

theorem value_of_isFalse {σ : Assignment} {m : Nat} {x y : BitVec m}
    (h : Denotes (some σ) e 1 (BitVec.ofBool (x == y))) (hfalse : e.isFalse = true) : x ≠ y := by
  cases hc : e.dynConstant with
  | none => simp [Expr.isFalse, hc] at hfalse
  | some c =>
    obtain ⟨z, rfl, hz⟩ := h.dynConstant hc
    have hz0 : z = 0#1 := by simpa [Expr.isFalse, hc, ConstantExpr.isFalse] using hfalse
    have hv := (hz rfl).symm
    rw [hz0, BitVec.ofBool_eq_zero, beq_eq_false_iff_ne] at hv
    exact hv

/-- The loop of `Read` drops writes to other indices than the one that is read. -/
theorem rollBack_builds {eq : Nat → Expr → Expr → Option Expr} {index : Expr} {i : BitVec 32}
    (hi : Denotes s index 32 i)
    (heq : ∀ {j x}, Denotes s j 32 x → Builds s (fun n => eq n index j) 1
      (BitVec.ofBool (i == x)))
    (head : UpdateNode) (hhead : head.WellSorted) :
    ∃ un, Ends (fun n => rollBack (eq n) index head) un ∧ un.WellSorted ∧
      ∀ σ ∈ s, ∀ root, un.eval σ root i = head.eval σ root i := by
  induction head with
  | null => exact ⟨.null, ends_some, trivial, fun _ _ _ => rfl⟩
  | node next j value ih =>
    obtain ⟨hnext, ⟨hj, hjw⟩, hval, hvalw⟩ := hhead
    have hdj := Denotes.self_at (s := s) hj hjw fun _ _ h => by cases h
    obtain ⟨e, hends, he⟩ := heq hdj
    by_cases hfalse : e.isFalse = true
    · obtain ⟨un, hun, hws, heval⟩ := ih hnext
      refine ⟨un, hends.bind ?_, hws, fun σ hσ root => ?_⟩
      · simpa only [hfalse, if_true] using hun
      · obtain rfl := hσ
        have hne : j.eval σ 32 ≠ i := (value_of_isFalse he hfalse).symm
        rw [heval σ rfl root, UpdateNode.eval, if_neg hne]
    · refine ⟨.node next j value, hends.bind ?_, ⟨hnext, ⟨hj, hjw⟩, hval, hvalw⟩,
        fun _ _ _ => rfl⟩
      simp only [hfalse]
      exact ends_some

section Methods

variable {b : Nat → SpecializedBuilder}

theorem specialized_arith {k : ArithKind} {v : BitVec w} (he : Denotes s (.arith k l r) w v)
    (h : RightOverloads s (fun n => (b n).arithCN k) (fun n => (b n).arithNC k)
      (fun n => (b n).arithNN k) l r w v) :
    Builds s (fun n => (ConstantSpecializedExprBuilder (b n)).arith k l r) w v := by
  apply specialize_builds _ h
  rintro cl cr rfl rfl
  exact arith_fold_denotes he

theorem specialized_cmp {k : CmpKind} {v : BitVec w} (he : Denotes s (.cmp k l r) w v)
    (h : RightOverloads s (fun n => (b n).cmpCN k) (fun n => (b n).cmpNC k)
      (fun n => (b n).cmpNN k) l r w v) :
    Builds s (fun n => (ConstantSpecializedExprBuilder (b n)).cmp k l r) w v := by
  apply specialize_builds _ h
  rintro cl cr rfl rfl
  exact cmp_fold_denotes he

theorem specialized_not {v : BitVec w} (he : Denotes s (.not e) w v)
    (h : Builds s (fun n => (b n).not e) w v) :
    Builds s (fun n => (ConstantSpecializedExprBuilder (b n)).not e) w v := by
  cases e with
  | not e =>
    obtain ⟨x, hx, hv⟩ := he.not_inv
    obtain ⟨y, hy, hxy⟩ := hx.not_inv
    exact builds_some (hy.congr fun hs => by rw [hv hs, hxy hs, BitVec.not_not])
  | constant c => exact builds_some (not_fold_denotes he)
  | _ => exact h

end Methods

/-- The builder around a helper class whose overloads are right -/
theorem specialized_right {b : Nat → SpecializedBuilder} (h : RightSpecialized s b) :
    RightBuilder s fun n => ConstantSpecializedExprBuilder (b n) := by
  intro e w v he
  cases e with
  | constant c => exact h.constant he
  | notOptimized e => exact h.notOptimized he
  | read root head index =>
    obtain ⟨rfl, hhead, i, hi, hv⟩ := he.read_inv
    have heq {j : Expr} {x : BitVec 32} (hj : Denotes s j 32 x) :
        Builds s (fun n => (ConstantSpecializedExprBuilder (b n)).eq index j) 1
          (BitVec.ofBool (i == x)) :=
      specialized_cmp (hi.cmp .eq hj) (h.cmp (hi.cmp .eq hj))
    obtain ⟨un, hun, hws, heval⟩ := rollBack_builds hi heq head hhead
    have hread : Denotes s (.read root un index) 8 v := by
      refine Denotes.read hws hi fun σ hσ => ⟨?_, fun ho => by cases ho⟩
      rw [(hv σ hσ).1, BitVec.setWidth_eq, heval σ hσ]
    obtain ⟨e', hends, he'⟩ := h.read hread
    exact ⟨e', hun.bind hends, he'⟩
  | select c t f =>
    obtain ⟨a, x, y, hc, ht, hf, hv⟩ := he.select_inv
    have hselect := h.select he
    simp only [ExprBuilder.build, ConstantSpecializedExprBuilder]
    cases hconst : c.dynConstant with
    | none => exact hselect
    | some ce =>
      obtain ⟨z, rfl, hz⟩ := hc.dynConstant hconst
      apply builds_some
      by_cases htrue : ConstantExpr.isTrue ⟨1, z⟩ = true
      · rw [if_pos htrue]
        have hz1 : z = 1#1 := by
          simpa [ConstantExpr.isTrue, BitVec.ne_zero_iff_eq_one] using htrue
        exact ht.congr fun hs => by rw [hv hs, ← hz hs, if_pos hz1]
      · rw [if_neg htrue]
        have hz0 : z ≠ 1#1 := by
          rintro rfl
          exact htrue rfl
        exact hf.congr fun hs => by rw [hv hs, ← hz hs, if_neg hz0]
  | concat l r =>
    apply specialize_builds _ (h.concat he)
    rintro cl cr rfl rfl
    exact concat_fold_denotes he
  | extract e off k =>
    have hextract := h.extract he
    simp only [ExprBuilder.build, ConstantSpecializedExprBuilder]
    cases hconst : e.dynConstant with
    | none => exact hextract
    | some ce =>
      rw [dynConstant_eq_some] at hconst
      subst hconst
      exact builds_some (extract_fold_denotes he)
  | cast k e m =>
    have hcast := h.cast he
    simp only [ExprBuilder.build, ConstantSpecializedExprBuilder]
    cases hconst : e.dynConstant with
    | none => exact hcast
    | some ce =>
      rw [dynConstant_eq_some] at hconst
      subst hconst
      exact builds_some (cast_fold_denotes he)
  | not e => exact specialized_not he (h.not he)
  | arith k l r => exact specialized_arith he (h.arith he)
  | cmp k l r => exact specialized_cmp he (h.cmp he)

end Specialized

section Linear

/-- The size of the sums and differences at the top of an expression; constants have none. -/
def Expr.terms : Expr → Nat
  | .constant _ => 0
  | .add l r => l.terms + r.terms + 1
  | .sub l r => l.terms + r.terms + 1
  | _ => 1

theorem Expr.terms_pos {e : Expr} (h : e.isConstant = false) : 0 < e.terms := by
  unfold Expr.terms
  split
  · cases h
  all_goals omega

/-- A call returns an expression with at most `k` terms. -/
def BuildsWithin (s : Option Assignment) (f : Nat → Option Expr) (w : Nat) (v : BitVec w)
    (k : Nat) : Prop :=
  ∃ e, Ends f e ∧ Denotes s e w v ∧ e.terms ≤ k

theorem BuildsWithin.builds {f : Nat → Option Expr} {v : BitVec w} {k : Nat}
    (h : BuildsWithin s f w v k) : Builds s f w v := by
  obtain ⟨e, hf, he, -⟩ := h
  exact ⟨e, hf, he⟩

theorem BuildsWithin.of_succ {f g : Nat → Option Expr} {v : BitVec w} {k : Nat}
    (h : BuildsWithin s g w v k) (hf : ∀ n, f (n + 1) = g n) : BuildsWithin s f w v k := by
  obtain ⟨e, hg, he, hle⟩ := h
  exact ⟨e, hg.of_succ hf, he, hle⟩

theorem BuildsWithin.weaken {f : Nat → Option Expr} {v v' : BitVec w} {k k' : Nat}
    (h : BuildsWithin s f w v k) (hv : s.isSome = true → v = v') (hk : k ≤ k') :
    BuildsWithin s f w v' k' := by
  obtain ⟨e, hf, he, hle⟩ := h
  exact ⟨e, hf, he.congr hv, hle.trans hk⟩

theorem BuildsWithin.bind {f : Nat → Option Expr} {g : Nat → Expr → Option Expr} {u v : BitVec w}
    {k m : Nat} (h : BuildsWithin s f w u k)
    (hg : ∀ e, Denotes s e w u → e.terms ≤ k → BuildsWithin s (fun n => g n e) w v m) :
    BuildsWithin s (fun n => (f n).bind (g n)) w v m := by
  obtain ⟨e, hf, he, hle⟩ := h
  obtain ⟨e', hg', he', hle'⟩ := hg e he hle
  exact ⟨e', hf.bind hg', he', hle'⟩

/-- The sums and differences on fewer than `size` terms, and those on `size` terms of which
fewer than `left` are on the left, are built, with no more terms than the plain node. -/
def Linear (s : Option Assignment) (b : Nat → ExprBuilder) (size left : Nat) : Prop :=
  ∀ ⦃l r : Expr⦄ ⦃w : Nat⦄ ⦃x y : BitVec w⦄, Denotes s l w x → Denotes s r w y →
    (l.terms + r.terms < size ∨ l.terms + r.terms ≤ size ∧ l.terms < left) →
    BuildsWithin s (fun n => (b n).add l r) w (x + y) (l.terms + r.terms + 1) ∧
      BuildsWithin s (fun n => (b n).sub l r) w (x - y) (l.terms + r.terms + 1)

variable {b : Nat → ExprBuilder} {size left : Nat} {x y : BitVec w}

theorem plain_within (k : ArithKind) {v : BitVec w} (hl : Denotes s l w x) (hr : Denotes s r w y)
    (hv : k.denote x y = v) :
    BuildsWithin s (fun _ => DefaultExprBuilder.arith k l r) w v (l.terms + r.terms + 1) := by
  refine ⟨.arith k l r, ends_some, hv ▸ hl.arith k hr, ?_⟩
  cases k with
  | add => exact le_rfl
  | sub => exact le_rfl
  | _ => exact Nat.le_add_left 1 _

/-- A sum or difference with a constant on the left -/
theorem Linear.constant (hlin : Linear s b size left) (hr : Denotes s r w y)
    (hsize : r.terms < size ∨ r.terms ≤ size ∧ 0 < left) :
    BuildsWithin s (fun n => (b n).add (.constant ⟨w, x⟩) r) w (x + y) (r.terms + 1) ∧
      BuildsWithin s (fun n => (b n).sub (.constant ⟨w, x⟩) r) w (x - y) (r.terms + 1) := by
  have hterms : (Expr.constant ⟨w, x⟩).terms = 0 := rfl
  have h := hlin (.constant (v := x) hr.width_pos) hr (by rw [hterms, Nat.zero_add]; exact hsize)
  rw [hterms, Nat.zero_add] at h
  exact h

namespace ConstantFoldingBuilder

/-- Each of the rules for a constant operand, and the plain node -/
theorem constantOperand_within {p q : Expr} {u v z : BitVec w} {k : Nat}
    {f g : Nat → ConstantExpr → Expr → Option Expr} {plain : Option Expr}
    (hp : Denotes s p w u) (hq : Denotes s q w v)
    (hf : ∀ c : BitVec w, (s.isSome = true → c = u) →
      BuildsWithin s (fun n => f n ⟨w, c⟩ q) w z k)
    (hg : ∀ c : BitVec w, (s.isSome = true → c = v) →
      BuildsWithin s (fun n => g n ⟨w, c⟩ p) w z k)
    (hplain : BuildsWithin s (fun _ => plain) w z k) :
    BuildsWithin s (fun n => constantOperand p q (f n) (g n) plain) w z k := by
  simp only [constantOperand]
  cases hcp : p.dynConstant with
  | some c =>
    obtain ⟨c', rfl, hc⟩ := hp.dynConstant hcp
    exact hf c' hc
  | none =>
    cases hcq : q.dynConstant with
    | some c =>
      obtain ⟨c', rfl, hc⟩ := hq.dynConstant hcq
      exact hg c' hc
    | none => exact hplain

theorem addCN_within (hlin : Linear s b size left) (hr : Denotes s r w y)
    (hsize : r.terms ≤ size) :
    BuildsWithin s (fun n => addCN (b n) DefaultExprBuilder ⟨w, x⟩ r) w (x + y)
      (r.terms + 1) := by
  have hx : Denotes s (.constant ⟨w, x⟩) w x := .constant hr.width_pos
  have hplain := plain_within .add hx hr rfl
  rw [show (Expr.constant ⟨w, x⟩).terms = 0 from rfl, Nat.zero_add] at hplain
  simp only [addCN]
  by_cases hzero : ConstantExpr.isZero ⟨w, x⟩ = true
  · simp only [hzero, if_true]
    refine ⟨r, ends_some, hr.congr fun _ => ?_, by omega⟩
    simp only [ConstantExpr.isZero, beq_iff_eq] at hzero
    rw [hzero, BitVec.ofNat_eq_ofNat, BitVec.zero_add]
  simp only [hzero]
  cases r with
  | arith k p q =>
    cases k with
    | add =>
      obtain ⟨u, v, hp, hq, hy⟩ := hr.arith_inv
      have hterms : (Expr.arith .add p q).terms = p.terms + q.terms + 1 := rfl
      refine constantOperand_within hp hq (fun c hc => ?_) (fun c hc => ?_) hplain
      · rw [ConstantExpr.add, ConstantExpr.arith_mk]
        refine (hlin.constant hq (.inl (by omega))).1.weaken (fun hs => ?_) (by omega)
        simp only [hy hs, hc hs, ArithKind.denote, ArithKind.operator]
        ring
      · rw [ConstantExpr.add, ConstantExpr.arith_mk]
        refine (hlin.constant hp (.inl (by omega))).1.weaken (fun hs => ?_) (by omega)
        simp only [hy hs, hc hs, ArithKind.denote, ArithKind.operator]
        ring
    | sub =>
      obtain ⟨u, v, hp, hq, hy⟩ := hr.arith_inv
      have hterms : (Expr.arith .sub p q).terms = p.terms + q.terms + 1 := rfl
      refine constantOperand_within hp hq (fun c hc => ?_) (fun c hc => ?_) hplain
      · rw [ConstantExpr.add, ConstantExpr.arith_mk]
        refine (hlin.constant hq (.inl (by omega))).2.weaken (fun hs => ?_) (by omega)
        simp only [hy hs, hc hs, ArithKind.denote, ArithKind.operator]
        ring
      · rw [ConstantExpr.sub, ConstantExpr.arith_mk]
        refine (hlin.constant hp (.inl (by omega))).1.weaken (fun hs => ?_) (by omega)
        simp only [hy hs, hc hs, ArithKind.denote, ArithKind.operator]
        ring
    | _ => exact hplain
  | _ => exact hplain

theorem subCN_within (hlin : Linear s b size left) (hr : Denotes s r w y)
    (hsize : r.terms ≤ size) :
    BuildsWithin s (fun n => subCN (b n) DefaultExprBuilder ⟨w, x⟩ r) w (x - y)
      (r.terms + 1) := by
  have hx : Denotes s (.constant ⟨w, x⟩) w x := .constant hr.width_pos
  have hplain := plain_within .sub hx hr rfl
  rw [show (Expr.constant ⟨w, x⟩).terms = 0 from rfl, Nat.zero_add] at hplain
  simp only [subCN]
  cases r with
  | arith k p q =>
    cases k with
    | add =>
      obtain ⟨u, v, hp, hq, hy⟩ := hr.arith_inv
      have hterms : (Expr.arith .add p q).terms = p.terms + q.terms + 1 := rfl
      refine constantOperand_within hp hq (fun c hc => ?_) (fun c hc => ?_) hplain
      · rw [ConstantExpr.sub, ConstantExpr.arith_mk]
        refine (hlin.constant hq (.inl (by omega))).2.weaken (fun hs => ?_) (by omega)
        simp only [hy hs, hc hs, ArithKind.denote, ArithKind.operator]
        ring
      · rw [ConstantExpr.sub, ConstantExpr.arith_mk]
        refine (hlin.constant hp (.inl (by omega))).2.weaken (fun hs => ?_) (by omega)
        simp only [hy hs, hc hs, ArithKind.denote, ArithKind.operator]
        ring
    | sub =>
      obtain ⟨u, v, hp, hq, hy⟩ := hr.arith_inv
      have hterms : (Expr.arith .sub p q).terms = p.terms + q.terms + 1 := rfl
      refine constantOperand_within hp hq (fun c hc => ?_) (fun c hc => ?_) hplain
      · rw [ConstantExpr.sub, ConstantExpr.arith_mk]
        refine (hlin.constant hq (.inl (by omega))).1.weaken (fun hs => ?_) (by omega)
        simp only [hy hs, hc hs, ArithKind.denote, ArithKind.operator]
        ring
      · rw [ConstantExpr.add, ConstantExpr.arith_mk]
        refine (hlin.constant hp (.inl (by omega))).2.weaken (fun hs => ?_) (by omega)
        simp only [hy hs, hc hs, ArithKind.denote, ArithKind.operator]
        ring
    | _ => exact hplain
  | _ => exact hplain

/-- A constant that is taken out of the right operand -/
theorem takenOut_within {f : Nat → Option Expr} {u c : BitVec w} {k : Nat}
    (hlin : Linear s b size left) (h : BuildsWithin s f w u k) (hk : k ≤ size) (hleft : 0 < left) :
    BuildsWithin s (fun n => (f n).bind ((b n).add (.constant ⟨w, c⟩))) w (c + u) (size + 1) := by
  refine h.bind fun e he hle => ?_
  exact (hlin.constant he (.inr ⟨by omega, hleft⟩)).1.weaken (fun _ => rfl) (by omega)

/-- The left operand of the left operand stays on the left. -/
theorem reassociated_within {p : Expr} {f : Nat → Option Expr} {u t : BitVec w} {k : Nat}
    (hlin : Linear s b size left) (hp : Denotes s p w t) (h : BuildsWithin s f w u k)
    (hk : p.terms + k ≤ size) (hleft : p.terms < left) :
    BuildsWithin s (fun n => (f n).bind ((b n).add p)) w (t + u) (size + 1) ∧
      BuildsWithin s (fun n => (f n).bind ((b n).sub p)) w (t - u) (size + 1) := by
  constructor
  · refine h.bind fun e he hle => ?_
    exact (hlin hp he (.inr ⟨by omega, hleft⟩)).1.weaken (fun _ => rfl) (by omega)
  · refine h.bind fun e he hle => ?_
    exact (hlin hp he (.inr ⟨by omega, hleft⟩)).2.weaken (fun _ => rfl) (by omega)

theorem addSwitchRight_within (hl : Denotes s l w x) (hr : Denotes s r w y)
    (hlin : Linear s b (l.terms + r.terms) l.terms) (hpos : 0 < l.terms) :
    BuildsWithin s (fun n => addSwitchRight (b n) DefaultExprBuilder l r) w (x + y)
      (l.terms + r.terms + 1) := by
  have hplain := plain_within .add hl hr rfl
  cases r with
  | arith k p q =>
    cases k with
    | add =>
      obtain ⟨u, v, hp, hq, hy⟩ := hr.arith_inv
      have hterms : (Expr.arith .add p q).terms = p.terms + q.terms + 1 := rfl
      simp only [addSwitchRight]
      refine constantOperand_within hp hq (fun c hc => ?_) (fun c hc => ?_) hplain
      · have h := (hlin hl hq (.inl (by omega))).1
        refine (takenOut_within hlin h (by omega) hpos).weaken (fun hs => ?_) le_rfl
        simp only [hy hs, hc hs, ArithKind.denote, ArithKind.operator]
        ring
      · have h := (hlin hl hp (.inl (by omega))).1
        refine (takenOut_within hlin h (by omega) hpos).weaken (fun hs => ?_) le_rfl
        simp only [hy hs, hc hs, ArithKind.denote, ArithKind.operator]
        ring
    | sub =>
      obtain ⟨u, v, hp, hq, hy⟩ := hr.arith_inv
      have hterms : (Expr.arith .sub p q).terms = p.terms + q.terms + 1 := rfl
      simp only [addSwitchRight]
      refine constantOperand_within hp hq (fun c hc => ?_) (fun c hc => ?_) hplain
      · have h := (hlin hl hq (.inl (by omega))).2
        refine (takenOut_within hlin h (by omega) hpos).weaken (fun hs => ?_) le_rfl
        simp only [hy hs, hc hs, ArithKind.denote, ArithKind.operator]
        ring
      · have h := (hlin hl hp (.inl (by omega))).1
        refine (takenOut_within hlin h (by omega) hpos).weaken (fun hs => ?_) le_rfl
        simp only [hy hs, hc hs, ArithKind.denote, ArithKind.operator]
        ring
    | _ => exact hplain
  | _ => exact hplain

theorem addNN_within (hl : Denotes s l w x) (hr : Denotes s r w y)
    (hlin : Linear s b (l.terms + r.terms) l.terms) (hconst : l.isConstant = false) :
    BuildsWithin s (fun n => addNN (b n) DefaultExprBuilder l r) w (x + y)
      (l.terms + r.terms + 1) := by
  have hright := addSwitchRight_within hl hr hlin (Expr.terms_pos hconst)
  cases l with
  | arith k p q =>
    cases k with
    | add =>
      obtain ⟨t, u, hp, hq, hx⟩ := hl.arith_inv
      have hterms : (Expr.arith .add p q).terms = p.terms + q.terms + 1 := rfl
      have h := (hlin hq hr (.inl (by omega))).1
      refine (reassociated_within hlin hp h (by omega) (by omega)).1.weaken (fun hs => ?_) le_rfl
      simp only [hx hs, ArithKind.denote, ArithKind.operator]
      ring
    | sub =>
      obtain ⟨t, u, hp, hq, hx⟩ := hl.arith_inv
      have hterms : (Expr.arith .sub p q).terms = p.terms + q.terms + 1 := rfl
      have h := (hlin hr hq (.inl (by omega))).2
      refine (reassociated_within hlin hp h (by omega) (by omega)).1.weaken (fun hs => ?_) le_rfl
      simp only [hx hs, ArithKind.denote, ArithKind.operator]
      ring
    | _ => exact hright
  | _ => exact hright

theorem subSwitchRight_within (hl : Denotes s l w x) (hr : Denotes s r w y)
    (hlin : Linear s b (l.terms + r.terms) l.terms) (hpos : 0 < l.terms) :
    BuildsWithin s (fun n => subSwitchRight (b n) DefaultExprBuilder l r) w (x - y)
      (l.terms + r.terms + 1) := by
  have hplain := plain_within .sub hl hr rfl
  cases r with
  | arith k p q =>
    cases k with
    | add =>
      obtain ⟨u, v, hp, hq, hy⟩ := hr.arith_inv
      have hterms : (Expr.arith .add p q).terms = p.terms + q.terms + 1 := rfl
      simp only [subSwitchRight]
      refine constantOperand_within hp hq (fun c hc => ?_) (fun c hc => ?_) hplain
      · have h := (hlin hl hq (.inl (by omega))).2
        refine (takenOut_within hlin h (by omega) hpos).weaken (fun hs => ?_) le_rfl
        simp only [hy hs, hc hs, ArithKind.denote, ArithKind.operator]
        ring
      · have h := (hlin hl hp (.inl (by omega))).2
        refine (takenOut_within hlin h (by omega) hpos).weaken (fun hs => ?_) le_rfl
        simp only [hy hs, hc hs, ArithKind.denote, ArithKind.operator]
        ring
    | sub =>
      obtain ⟨u, v, hp, hq, hy⟩ := hr.arith_inv
      have hterms : (Expr.arith .sub p q).terms = p.terms + q.terms + 1 := rfl
      simp only [subSwitchRight]
      refine constantOperand_within hp hq (fun c hc => ?_) (fun c hc => ?_) hplain
      · have h := (hlin hl hq (.inl (by omega))).1
        refine (takenOut_within hlin h (by omega) hpos).weaken (fun hs => ?_) le_rfl
        simp only [hy hs, hc hs, ArithKind.denote, ArithKind.operator]
        ring
      · have h := (hlin hl hp (.inl (by omega))).2
        refine (takenOut_within hlin h (by omega) hpos).weaken (fun hs => ?_) le_rfl
        simp only [hy hs, hc hs, ArithKind.denote, ArithKind.operator]
        ring
    | _ => exact hplain
  | _ => exact hplain

theorem subNN_within (hl : Denotes s l w x) (hr : Denotes s r w y)
    (hlin : Linear s b (l.terms + r.terms) l.terms) (hconst : l.isConstant = false) :
    BuildsWithin s (fun n => subNN (b n) DefaultExprBuilder l r) w (x - y)
      (l.terms + r.terms + 1) := by
  have hright := subSwitchRight_within hl hr hlin (Expr.terms_pos hconst)
  cases l with
  | arith k p q =>
    cases k with
    | add =>
      obtain ⟨t, u, hp, hq, hx⟩ := hl.arith_inv
      have hterms : (Expr.arith .add p q).terms = p.terms + q.terms + 1 := rfl
      have h := (hlin hq hr (.inl (by omega))).2
      refine (reassociated_within hlin hp h (by omega) (by omega)).1.weaken (fun hs => ?_) le_rfl
      simp only [hx hs, ArithKind.denote, ArithKind.operator]
      ring
    | sub =>
      obtain ⟨t, u, hp, hq, hx⟩ := hl.arith_inv
      have hterms : (Expr.arith .sub p q).terms = p.terms + q.terms + 1 := rfl
      have h := (hlin hq hr (.inl (by omega))).1
      refine (reassociated_within hlin hp h (by omega) (by omega)).2.weaken (fun hs => ?_) le_rfl
      simp only [hx hs, ArithKind.denote, ArithKind.operator]
      ring
    | _ => exact hright
  | _ => exact hright

/-- A sum of a constant and something, in either order -/
theorem addNC_within (hlin : Linear s b size left) (hl : Denotes s l w x) (hsize : l.terms ≤ size) :
    BuildsWithin s (fun n => addNC (b n) DefaultExprBuilder l ⟨w, y⟩) w (x + y)
      (l.terms + 1) :=
  (addCN_within hlin hl hsize).weaken (fun _ => BitVec.add_comm y x) le_rfl

theorem subNC_within (hlin : Linear s b size left) (hl : Denotes s l w x) (hsize : l.terms ≤ size) :
    BuildsWithin s (fun n => subNC (b n) DefaultExprBuilder l ⟨w, y⟩) w (x - y)
      (l.terms + 1) := by
  refine (addCN_within (x := -y) hlin hl hsize).weaken (fun _ => ?_) le_rfl
  ring

end ConstantFoldingBuilder

end Linear

end Klee
