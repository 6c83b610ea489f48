import Klee.Expr.Truth
import Klee.Expr.Visitor

/-! `ExprEvaluator`: partial evaluation of an expression, where the initial contents of the
arrays come from outside, and `Assignment` of `Assignment.h`, which gives some arrays their
bytes. -/
namespace Klee

/-- The operations that `ExprEvaluator` guards against a division by zero. -/
def ArithKind.isDivision : ArithKind → Bool
  | udiv | sdiv | urem | srem => true
  | _ => false

namespace ExprEvaluator

/-- The end of `visitActual`: rebuild the expression if a kid has changed, and strip a
`NotOptimizedExpr`. -/
def afterKids (e : Expr) (kids : List Expr) : Expr :=
  let e' := if kids = e.kids then e else e.rebuild kids
  match e' with
  | .notOptimized src => src
  | e' => e'

/-- The divisor that `protectedDivOperation` takes: one that evaluates to zero is ignored. -/
def protectedDivisor (r r' : Expr) : Expr :=
  match r' with
  | .constant c => if c.isZero then r else .constant c
  | r' => r'

def protectedDivOperation (k : ArithKind) (l r l' r' : Expr) : Expr :=
  if l' ≠ l ∨ protectedDivisor r r' ≠ r then
    (Expr.arith k l r).rebuild [l', protectedDivisor r r']
  else .arith k l r

/-- An expression other than a read, with its visited kids. Expressions over constants are
folded first. -/
def visitKids (e : Expr) (kids : List Expr) : Expr :=
  if e.kids.all Expr.isConstant then e.rebuild e.kids
  else match e, kids with
    | .arith k l r, [l', r'] =>
      if k.isDivision then protectedDivOperation k l r l' r' else afterKids (.arith k l r) [l', r']
    | e, kids => afterKids e kids

variable (getInitialValue : Array → Nat → Expr)

mutual

/-- The memo table of `visit` changes no result. -/
def visit : Expr → Expr
  | .constant c => .constant c
  | .read root head index =>
    match visit index with
    | .constant c => evalRead root c.value.toNat head
    | v => afterKids (.read root head index) [v]
  | .notOptimized e => visitKids (.notOptimized e) [visit e]
  | .select c t f => visitKids (.select c t f) [visit c, visit t, visit f]
  | .concat l r => visitKids (.concat l r) [visit l, visit r]
  | .extract e off w => visitKids (.extract e off w) [visit e]
  | .cast k e w => visitKids (.cast k e w) [visit e]
  | .not e => visitKids (.not e) [visit e]
  | .arith k l r => visitKids (.arith k l r) [visit l, visit r]
  | .cmp k l r => visitKids (.cmp k l r) [visit l, visit r]

/-- The most recent update at the index; an update whose own index stays unknown ends the
search. -/
def evalRead (root : Array) (index : Nat) : UpdateNode → Expr
  | .null =>
    if root.isConstantArray ∧ index < root.size then
      .constant ⟨root.getRange, root.constantValues.getD index 0⟩
    else getInitialValue root index
  | .node next i v =>
    match visit i with
    | .constant c => if c.value.toNat = index then visit v else evalRead root index next
    | _ => ReadExpr.create ⟨root, .node next i v⟩ (.constant (.alloc index root.getDomain))

end

section Sound

variable {getInitialValue} {s : Option Assignment} {e : Expr} {w : Nat} {x : BitVec w}

theorem afterKids_denotes {kids : List Expr} (he : kids = e.kids → Denotes s e w x)
    (hr : Denotes s (e.rebuild kids) w x) : Denotes s (afterKids e kids) w x := by
  have h : Denotes s (if kids = e.kids then e else e.rebuild kids) w x := by
    split
    case isTrue hk => exact he hk
    case isFalse => exact hr
  unfold afterKids
  dsimp only
  split
  case h_1 src heq =>
    rw [heq] at h
    exact h.notOptimized_inv
  case h_2 => exact h

/-- A divisor is only replaced by what denotes the same. -/
theorem protectedDivOperation_denotes {k : ArithKind} {l r l' r' : Expr} {y z : BitVec w}
    (hl : Denotes s l w y) (hr : Denotes s r w z) (hl' : Denotes s l' w y)
    (hr' : Denotes s r' w z) :
    Denotes s (protectedDivOperation k l r l' r') w (k.denote y z) := by
  have hdivisor : Denotes s (protectedDivisor r r') w z := by
    unfold protectedDivisor
    split
    · split
      · exact hr
      · exact hr'
    · exact hr'
  unfold protectedDivOperation
  split
  · exact ArithKind.create_denotes k hl' hdivisor
  · exact hl.arith k hr

theorem visitKids_denotes {kids : List Expr} (he : kids = e.kids → Denotes s e w x)
    (hconst : e.kids.all Expr.isConstant = true → Denotes s (e.rebuild e.kids) w x)
    (hr : Denotes s (e.rebuild kids) w x)
    (hdiv : ∀ k l r l' r', e = .arith k l r → k.isDivision = true → kids = [l', r'] →
      Denotes s (protectedDivOperation k l r l' r') w x) :
    Denotes s (visitKids e kids) w x := by
  unfold visitKids
  split
  case isTrue h => exact hconst h
  case isFalse =>
    split
    case h_1 k l r l' r' _ =>
      split
      case isTrue hk => exact hdiv k l r l' r' rfl hk rfl
      case isFalse => exact afterKids_denotes he hr
    case h_2 => exact afterKids_denotes he hr

def Agrees (getInitialValue : Array → Nat → Expr) (s : Option Assignment) : Prop :=
  ∀ root i, i < 2 ^ 32 → ∃ v : BitVec 8, Denotes s (getInitialValue root i) 8 v ∧
    ∀ σ ∈ s, v = root.initial σ i

theorem rebuild_visit_denotes (h : Denotes s e w x)
    (hf : ∀ k ∈ e.kids, ∀ {m} {y : BitVec m}, Denotes s k m y →
      Denotes s (visit getInitialValue k) m y) :
    Denotes s (visitKids e (e.kids.map (visit getInitialValue))) w x := by
  have hkids : Denotes s (e.rebuild e.kids) w x := by
    have hid := Expr.rebuild_denotes h id fun _ _ _ _ hk => hk
    rwa [List.map_id] at hid
  refine visitKids_denotes (fun _ => h) (fun _ => hkids) (Expr.rebuild_denotes h _ hf)
    fun k l r l' r' heq _ hk => ?_
  subst heq
  simp only [Expr.kids, List.map_cons, List.map_nil, List.cons.injEq, and_true] at hk
  obtain ⟨rfl, rfl⟩ := hk
  obtain ⟨y, z, hl, hr, hx⟩ := h.arith_inv
  refine (protectedDivOperation_denotes hl hr (hf l (by simp [Expr.kids]) hl)
    (hf r (by simp [Expr.kids]) hr)).congr fun hs => (hx hs).symm


mutual

/-- Evaluation keeps the meaning. -/
theorem visit_denotes (hgi : Agrees getInitialValue s) : ∀ (e : Expr) {w : Nat} {x : BitVec w},
    Denotes s e w x → Denotes s (visit getInitialValue e) w x
  | .constant _, _, _, h => h
  | .read root head index, w, x, h => by
    obtain ⟨rfl, hh, i, hi, hv⟩ := h.read_inv
    have hindex := visit_denotes hgi index hi
    rw [visit]
    split
    · rename_i c hc
      rw [hc] at hindex
      obtain ⟨y, rfl, hy⟩ := hindex.constant_inv
      obtain ⟨v, hval, hveq⟩ := evalRead_denotes hgi root y.toNat y.isLt head hh
      refine hval.congr fun hs => ?_
      obtain ⟨σ, hσ⟩ := Option.isSome_iff_exists.mp hs
      rw [hveq σ hσ, (hv σ hσ).1, BitVec.setWidth_eq, BitVec.ofNat_toNat, BitVec.setWidth_eq, hy hs]
    · refine afterKids_denotes (fun _ => h) ?_
      exact Expr.rebuild_denotes h (visit getInitialValue) fun k hk _ _ hd => by
        rw [List.mem_singleton.mp hk] at hd ⊢
        exact visit_denotes hgi index hd
  | .notOptimized e, _, _, h => by
    rw [visit]
    exact rebuild_visit_denotes h fun k hk _ _ hd => by
      rw [List.mem_singleton.mp hk] at hd ⊢
      exact visit_denotes hgi e hd
  | .select c t f, _, _, h => by
    rw [visit]
    refine rebuild_visit_denotes h fun k hk _ _ hd => ?_
    simp only [Expr.kids, List.mem_cons, List.not_mem_nil, or_false] at hk
    obtain hk | hk | hk := hk <;> rw [hk] at hd ⊢
    · exact visit_denotes hgi c hd
    · exact visit_denotes hgi t hd
    · exact visit_denotes hgi f hd
  | .concat l r, _, _, h => by
    rw [visit]
    refine rebuild_visit_denotes h fun k hk _ _ hd => ?_
    simp only [Expr.kids, List.mem_cons, List.not_mem_nil, or_false] at hk
    obtain hk | hk := hk <;> rw [hk] at hd ⊢
    · exact visit_denotes hgi l hd
    · exact visit_denotes hgi r hd
  | .extract e _ _, _, _, h => by
    rw [visit]
    exact rebuild_visit_denotes h fun k hk _ _ hd => by
      rw [List.mem_singleton.mp hk] at hd ⊢
      exact visit_denotes hgi e hd
  | .cast _ e _, _, _, h => by
    rw [visit]
    exact rebuild_visit_denotes h fun k hk _ _ hd => by
      rw [List.mem_singleton.mp hk] at hd ⊢
      exact visit_denotes hgi e hd
  | .not e, _, _, h => by
    rw [visit]
    exact rebuild_visit_denotes h fun k hk _ _ hd => by
      rw [List.mem_singleton.mp hk] at hd ⊢
      exact visit_denotes hgi e hd
  | .arith _ l r, _, _, h => by
    rw [visit]
    refine rebuild_visit_denotes h fun k hk _ _ hd => ?_
    simp only [Expr.kids, List.mem_cons, List.not_mem_nil, or_false] at hk
    obtain hk | hk := hk <;> rw [hk] at hd ⊢
    · exact visit_denotes hgi l hd
    · exact visit_denotes hgi r hd
  | .cmp _ l r, _, _, h => by
    rw [visit]
    refine rebuild_visit_denotes h fun k hk _ _ hd => ?_
    simp only [Expr.kids, List.mem_cons, List.not_mem_nil, or_false] at hk
    obtain hk | hk := hk <;> rw [hk] at hd ⊢
    · exact visit_denotes hgi l hd
    · exact visit_denotes hgi r hd

theorem evalRead_denotes (hgi : Agrees getInitialValue s) (root : Array) (index : Nat)
    (hi : index < 2 ^ 32) : ∀ un : UpdateNode, un.WellSorted →
    ∃ v : BitVec 8, Denotes s (evalRead getInitialValue root index un) 8 v ∧
      ∀ σ ∈ s, v = un.eval σ root (BitVec.ofNat 32 index)
  | .null, _ => by
    have htoNat : (BitVec.ofNat 32 index).toNat = index := by
      rw [BitVec.toNat_ofNat, Nat.mod_eq_of_lt hi]
    rw [evalRead]
    by_cases hc : root.isConstantArray = true ∧ index < root.size
    · rw [if_pos hc]
      refine ⟨_, Denotes.constant (w := 8) (by decide), fun σ _ => ?_⟩
      rw [UpdateNode.eval, Array.initial, if_pos hc.1, htoNat]
    · rw [if_neg hc]
      obtain ⟨v, hv, hveq⟩ := hgi root index hi
      refine ⟨v, hv, fun σ hσ => ?_⟩
      rw [UpdateNode.eval, htoNat, hveq σ hσ]
  | .node next i v, h => by
    obtain ⟨hn, ⟨hiw, hi32⟩, hvw, hv8⟩ := h
    have hindex := visit_denotes hgi i (Denotes.self_at (s := s) hiw hi32 fun _ _ ho => by cases ho)
    have hvalue := visit_denotes hgi v (Denotes.self_at (s := s) hvw hv8 fun _ _ ho => by cases ho)
    rw [evalRead]
    split
    · rename_i c hc
      rw [hc] at hindex
      obtain ⟨y, rfl, hy⟩ := hindex.constant_inv
      have hyi : y.toNat = index ↔ y = BitVec.ofNat 32 index := by
        rw [← BitVec.toNat_inj, BitVec.toNat_ofNat, Nat.mod_eq_of_lt hi]
      split
      case isTrue heq =>
        refine ⟨_, hvalue, fun σ hσ => ?_⟩
        obtain rfl := hσ
        have hval : i.eval σ 32 = BitVec.ofNat 32 index := (hy rfl).symm.trans (hyi.mp heq)
        rw [UpdateNode.eval, if_pos hval]
        rfl
      case isFalse hne =>
        obtain ⟨v', hv', hveq⟩ := evalRead_denotes hgi root index hi next hn
        refine ⟨v', hv', fun σ hσ => ?_⟩
        rw [hveq σ hσ]
        obtain rfl := hσ
        have hval : ¬ i.eval σ 32 = BitVec.ofNat 32 index := fun h =>
          hne (hyi.mpr ((hy rfl).trans h))
        rw [UpdateNode.eval, if_neg hval]
    · have hread : Denotes s (.read root (.node next i v)
          (.constant (.alloc index root.getDomain))) 8
          (s.elim 0 fun σ => (UpdateNode.node next i v).eval σ root (BitVec.ofNat 32 index)) :=
        Denotes.read ⟨hn, ⟨hiw, hi32⟩, hvw, hv8⟩ (Denotes.constant (w := 32) (by decide)) fun σ hσ => by
          obtain rfl := hσ
          exact ⟨rfl, fun ho => by cases ho⟩
      refine ⟨_, ReadExpr.create_denotes hread, fun σ hσ => ?_⟩
      obtain rfl := hσ
      rfl

end

/-- Typing of `visit`. -/
theorem isBool_visit (hgi : Agrees getInitialValue none) (h : e.IsBool) :
    (visit getInitialValue e).IsBool := h.of_denotes fun hd => visit_denotes hgi e hd


theorem visit_denotes_eval {σ : Assignment} (hgi : Agrees getInitialValue none) (h : e.IsBool) :
    Denotes (some σ) (visit getInitialValue e) 1 ((visit getInitialValue e).eval σ 1) :=
  (isBool_visit hgi h).denotes σ


end Sound

section Negation

/-! An evaluation that leaves arrays open still commutes with the logical operators, so that
a condition and its negation evaluate to opposites. -/

variable {getInitialValue} {s : Option Assignment} {l r e : Expr} {w : Nat}

@[simp] theorem visit_constant (c : ConstantExpr) :
    visit getInitialValue (.constant c) = .constant c := rfl

theorem visit_of_isConstant (h : e.isConstant = true) : visit getInitialValue e = e := by
  obtain ⟨c, rfl⟩ := (Expr.isConstant_iff e).mp h
  rfl

theorem visit_arith_denotes {k : ArithKind} {y z : BitVec w} (hk : k.isDivision = false)
    (hl : Denotes s (visit getInitialValue l) w y) (hr : Denotes s (visit getInitialValue r) w z) :
    Denotes s (visit getInitialValue (.arith k l r)) w (k.denote y z) := by
  rw [visit]
  refine visitKids_denotes (fun h => ?_) (fun h => ?_) (ArithKind.create_denotes k hl hr)
    fun k' _ _ _ _ heq hdiv _ => ?_
  · simp only [Expr.kids, List.cons.injEq, and_true] at h
    rw [h.1] at hl
    rw [h.2] at hr
    exact hl.arith k hr
  · simp only [Expr.kids, List.all_cons, List.all_nil, Bool.and_true, Bool.and_eq_true] at h
    rw [visit_of_isConstant h.1] at hl
    rw [visit_of_isConstant h.2] at hr
    exact ArithKind.create_denotes k hl hr
  · cases heq
    cases hk.symm.trans hdiv

theorem visit_cmp_denotes {k : CmpKind} {y z : BitVec w}
    (hl : Denotes s (visit getInitialValue l) w y) (hr : Denotes s (visit getInitialValue r) w z) :
    Denotes s (visit getInitialValue (.cmp k l r)) 1 (BitVec.ofBool (k.denote y z)) := by
  rw [visit]
  refine visitKids_denotes (fun h => ?_) (fun h => ?_) (CmpKind.create_denotes k hl hr)
    fun k' _ _ _ _ heq _ _ => by cases heq
  · simp only [Expr.kids, List.cons.injEq, and_true] at h
    rw [h.1] at hl
    rw [h.2] at hr
    exact hl.cmp k hr
  · simp only [Expr.kids, List.all_cons, List.all_nil, Bool.and_true, Bool.and_eq_true] at h
    rw [visit_of_isConstant h.1] at hl
    rw [visit_of_isConstant h.2] at hr
    exact CmpKind.create_denotes k hl hr

theorem visit_andPartial_denotes {c : ConstantExpr} {y z : BitVec w}
    (hl : Denotes s (visit getInitialValue l) w y) (hc : Denotes s (.constant c) w z) :
    Denotes s (visit getInitialValue (andExprCreatePartial l c)) w (y &&& z) := by
  obtain ⟨z', rfl, hz⟩ := hc.constant_inv
  unfold andExprCreatePartial
  split_ifs with h1 h0
  · simp only [ConstantExpr.isAllOnes, beq_iff_eq] at h1
    exact hl.congr fun hs => by rw [← hz hs, h1, BitVec.and_allOnes]
  · simp only [ConstantExpr.isZero, beq_iff_eq] at h0
    exact hc.congr fun hs => by rw [← hz hs, h0, BitVec.ofNat_eq_ofNat, BitVec.and_zero]
  · exact visit_arith_denotes rfl hl hc

theorem visit_and_denotes {y z : BitVec w} (hl : Denotes s (visit getInitialValue l) w y)
    (hr : Denotes s (visit getInitialValue r) w z) :
    Denotes s (visit getInitialValue (AndExpr.create l r)) w (y &&& z) := by
  unfold AndExpr.create bcreateR
  split
  · exact AndExpr.create_denotes hl hr
  · exact (visit_andPartial_denotes hr hl).congr fun _ => BitVec.and_comm z y
  · exact visit_andPartial_denotes hl hr
  · exact visit_arith_denotes rfl hl hr

/-- The general case of `0 == e`. -/
theorem visit_eqZero_denotes {y : BitVec 1} (he : e.isConstant = false)
    (hv : Denotes s (visit getInitialValue e) 1 y) :
    Denotes s (visit getInitialValue (eqExprCreate (.constant ⟨1, 0⟩) e)) 1
      (BitVec.ofBool (0 == y)) := by
  unfold eqExprCreate
  rw [if_neg fun h => (Expr.isConstant_eq_false_iff e).mp he _ h.symm]
  exact visit_cmp_denotes (k := .eq) (Denotes.constant Nat.one_pos) hv

/-- `right` against `0 == right`. -/
theorem visit_eqZeroEq_denotes {c : ConstantExpr} {y z : BitVec 1} (hc : c.isFalse = true)
    (he : Denotes s (visit getInitialValue (.eq (.constant c) e)) 1 y)
    (hv : Denotes s (visit getInitialValue e) 1 z) :
    Denotes s (visit getInitialValue e) 1 (BitVec.ofBool (0 == y)) := by
  obtain ⟨w, v⟩ := c
  simp only [ConstantExpr.isFalse, Bool.and_eq_true, beq_iff_eq] at hc
  obtain ⟨rfl, hv0⟩ := hc
  have hv0 : v = 0#1 := hv0
  subst hv0
  have hcmp : Denotes s (visit getInitialValue (.eq (.constant ⟨1, 0⟩) e)) 1
      (BitVec.ofBool (0 == z)) :=
    visit_cmp_denotes (k := .eq) (Denotes.constant Nat.one_pos) hv
  refine hv.congr fun hs => ?_
  rw [he.unique hcmp hs]
  exact (BitVec.isZero_isZero z).symm

/-- The negation of a condition evaluates to the negation of what it evaluates to. -/
theorem visit_createIsZero_denotes (hgi : Agrees getInitialValue none) {σ : Assignment}
    (he : e.IsBool) : Denotes (some σ) (visit getInitialValue e.createIsZero) 1
      (BitVec.ofBool (0 == (visit getInitialValue e).eval σ 1)) := by
  induction hn : sizeOf e using Nat.strong_induction_on generalizing e with
  | _ n ih =>
  subst hn
  have hv := visit_denotes_eval (σ := σ) hgi he
  by_cases hc : e.isConstant = true
  · obtain ⟨c, rfl⟩ := (Expr.isConstant_iff e).mp hc
    exact (Expr.createIsZero_denotes hv).congr fun _ => by rw [BEq.comm]
  · rw [Bool.not_eq_true] at hc
    have hzero : e.createIsZero = eqExprCreatePartialR ⟨1, 0⟩ e := by
      rw [Expr.createIsZero, he.2]
      cases e <;> first | rfl | cases hc
    rw [hzero, eqExprCreatePartialR_eq, if_pos rfl, if_neg (by decide)]
    split
    · rename_i c right
      split
      case isTrue hf =>
        have hright : right.IsBool := by
          refine ⟨he.1.2.1, he.1.2.2.trans ?_⟩
          simp only [ConstantExpr.isFalse, Bool.and_eq_true, beq_iff_eq] at hf
          exact hf.1
        exact visit_eqZeroEq_denotes hf hv (visit_denotes_eval hgi hright)
      case isFalse => exact visit_eqZero_denotes hc hv
    · rename_i a b
      have hab : a.IsBool ∧ b.IsBool := ⟨⟨he.1.1, he.2⟩, he.1.2.1, he.1.2.2.trans he.2⟩
      have ha := ih _ (by simp only [Expr.arith.sizeOf_spec]; omega) hab.1 rfl
      have hb := ih _ (by simp only [Expr.arith.sizeOf_spec]; omega) hab.2 rfl
      refine (visit_and_denotes ha hb).congr fun _ => ?_
      have hor : Denotes (some σ) (visit getInitialValue (.or a b)) 1 _ :=
        visit_arith_denotes rfl (visit_denotes_eval hgi hab.1) (visit_denotes_eval hgi hab.2)
      rw [hor.eval, BEq.comm, @BEq.comm _ _ _ 0 ((visit getInitialValue b).eval σ 1)]
      exact BitVec.isZero_and_isZero _ _
    · exact visit_eqZero_denotes hc hv

theorem holds_visit_createIsZero (hgi : Agrees getInitialValue none) {σ : Assignment}
    (he : e.IsBool) : (visit getInitialValue e.createIsZero).Holds σ ↔
      ¬ (visit getInitialValue e).Holds σ := by
  rw [(visit_createIsZero_denotes hgi he).holds_iff, Expr.Holds, BitVec.ofBool_eq_one, beq_iff_eq]
  generalize (visit getInitialValue e).eval σ 1 = x
  revert x
  decide

end Negation

end ExprEvaluator

/-- `class Assignment`: the bytes of some arrays. -/
structure ArrayAssignment where
  allowFreeValues : Bool
  bindings : List (Array × List (BitVec 8))

namespace ArrayAssignment

/-- `evaluate(array, index)` for an array without a byte there. -/
def free (a : ArrayAssignment) (array : Array) (index : Nat) : Expr :=
  if a.allowFreeValues then
    ReadExpr.create ⟨array, .null⟩ (.constant (.alloc index array.getDomain))
  else .constant (.alloc 0 array.getRange)

/-- `evaluate(array, index)`, the initial value of `AssignmentEvaluator`. -/
def evaluateAt (a : ArrayAssignment) (array : Array) (index : Nat) : Expr :=
  match a.bindings.lookup array with
  | some bytes =>
    match bytes[index]? with
    | some byte => .constant ⟨array.getRange, byte⟩
    | none => a.free array index
  | none => a.free array index

def evaluate (a : ArrayAssignment) (e : Expr) : Expr := ExprEvaluator.visit a.evaluateAt e

theorem agrees_none (a : ArrayAssignment) : ExprEvaluator.Agrees a.evaluateAt none := by
  have hfree (root : Array) (i : Nat) : Denotes none (a.free root i) 8 0 := by
    unfold free
    split
    · refine ReadExpr.create_denotes (Denotes.read (i := BitVec.ofNat 32 i) trivial ?_ ?_)
      · exact Denotes.constant (w := 32) (by decide)
      · intro σ hσ
        cases hσ
    · exact Denotes.constant (w := 8) (by decide)
  intro root i _
  unfold evaluateAt
  split
  · split
    · exact ⟨_, Denotes.constant (w := 8) (by decide), fun σ hσ => by cases hσ⟩
    · exact ⟨0, hfree root i, fun σ hσ => by cases hσ⟩
  · exact ⟨0, hfree root i, fun σ hσ => by cases hσ⟩

variable {a : ArrayAssignment} {e : Expr} {σ : Assignment}

theorem isBool_evaluate (h : e.IsBool) : (a.evaluate e).IsBool :=
  ExprEvaluator.isBool_visit a.agrees_none h

theorem holds_evaluate_createIsZero (h : e.IsBool) :
    (a.evaluate e.createIsZero).Holds σ ↔ ¬ (a.evaluate e).Holds σ :=
  ExprEvaluator.holds_visit_createIsZero a.agrees_none h

end ArrayAssignment

end Klee
