import Klee.Expr.WeightBound

/-! `ExprVisitor`: the traversal that rebuilds an expression from its visited kids. The
visitors here replace expressions by constants, so that every step that changes an
expression makes it lighter; this is why the recursive traversal ends. -/
namespace Klee

theorem forall₂_attach_map {α : Type} {R : α → α → Prop} {l : List α}
    {f : { a // a ∈ l } → α} (h : ∀ a, R (f a) a.1) : List.Forall₂ R (l.attach.map f) l := by
  have hall : List.Forall₂ R (l.attach.map f) (l.attach.map (·.1)) := by
    rw [List.forall₂_map_left_iff, List.forall₂_map_right_iff, List.forall₂_same]
    exact fun a _ => h a
  rwa [List.attach_map_subtype_val] at hall

namespace Expr

/-- `getKid(0)` to `getKid(getNumKids() - 1)`. The updates of a read are not kids. -/
def kids : Expr → List Expr
  | constant _ => []
  | notOptimized e => [e]
  | read _ _ index => [index]
  | select c t f => [c, t, f]
  | concat l r => [l, r]
  | extract e _ _ => [e]
  | cast _ e _ => [e]
  | not e => [e]
  | arith _ l r => [l, r]
  | cmp _ l r => [l, r]

/-- `rebuild`: the smart constructor of the class, on new kids. -/
def rebuild : Expr → List Expr → Expr
  | notOptimized _, [e] => NotOptimizedExpr.create e
  | read root head _, [index] => ReadExpr.create ⟨root, head⟩ index
  | select _ _ _, [c, t, f] => SelectExpr.create c t f
  | concat _ _, [l, r] => ConcatExpr.create l r
  | extract _ off w, [e] => ExtractExpr.create e off w
  | cast k _ w, [e] => k.create e w
  | not _, [e] => NotExpr.create e
  | arith k _ _, [l, r] => k.create l r
  | cmp k _ _, [l, r] => k.create l r
  | e, _ => e

theorem two_le_weight {e : Expr} (h : ¬ e.isConstant = true) : 2 ≤ e.weight := by
  cases e with
  | constant c => exact (h rfl).elim
  | notOptimized e => exact Nat.succ_le_succ e.weight_pos
  | read root head index => exact Nat.le_add_left 2 _
  | select c t f => exact Nat.le_add_left_of_le (by decide)
  | concat l r => exact Nat.add_le_add_right (Nat.add_pos_left l.weight_pos _) 1
  | extract e _ _ => exact Nat.mul_le_mul_left 2 e.weight_pos
  | cast _ e _ => exact Nat.mul_le_mul_left 2 e.weight_pos
  | not e => exact Nat.succ_le_succ e.weight_pos
  | arith k l r =>
    cases k
    case and => exact Nat.add_le_add_right (Nat.add_pos_left l.weight_pos _) 1
    all_goals exact Nat.le_add_left_of_le (by decide)
  | cmp k l r =>
    by_cases hk : k = .eq
    · subst hk
      cases l with
      | constant c => exact Nat.succ_le_succ r.weight_pos
      | _ => exact Nat.add_le_add_right (Nat.add_pos_right _ r.weight_pos) 1
    · rw [weight_cmp l r k hk]
      omega

theorem weight_operands_lt_cmp (k : CmpKind) (l r : Expr) :
    l.weight < (cmp k l r).weight ∧ r.weight < (cmp k l r).weight := by
  have hl := l.weight_pos
  have hr := r.weight_pos
  by_cases hk : k = .eq
  · subst hk
    cases l with
    | constant c =>
      rw [weight_eq_constant, weight_constant]
      omega
    | _ =>
      rw [weight_eq_of_not_constant _ _ fun c hc => by cases hc]
      omega
  · rw [weight_cmp l r k hk]
    omega

theorem weight_kid_lt {e k : Expr} (h : k ∈ e.kids) : k.weight < e.weight := by
  cases e with
  | constant c => simp [kids] at h
  | notOptimized e => simp_all [kids]
  | read root head index => simp_all [kids]; omega
  | select c t f =>
    have := c.weight_pos
    have := t.weight_pos
    rw [weight_select]
    simp only [kids, List.mem_cons, List.not_mem_nil, or_false] at h
    obtain rfl | rfl | rfl := h <;> omega
  | concat l r =>
    rw [weight_concat]
    simp only [kids, List.mem_cons, List.not_mem_nil, or_false] at h
    obtain rfl | rfl := h <;> omega
  | extract e off w =>
    have := e.weight_pos
    simp_all [kids]
  | cast k e w =>
    have := e.weight_pos
    simp_all [kids]
  | not e => simp_all [kids]
  | arith op l r =>
    obtain ⟨n, hn⟩ := exists_weight_arith op
    have := l.weight_pos
    have := r.weight_pos
    rw [hn]
    simp only [kids, List.mem_cons, List.not_mem_nil, or_false] at h
    obtain rfl | rfl := h <;> omega
  | cmp op l r =>
    obtain ⟨hl, hr⟩ := weight_operands_lt_cmp op l r
    simp only [kids, List.mem_cons, List.not_mem_nil, or_false] at h
    obtain rfl | rfl := h
    · exact hl
    · exact hr

def Shrinks (e' e : Expr) : Prop := e' = e ∨ e'.weight < e.weight

theorem Shrinks.le {e' e : Expr} (h : Shrinks e' e) : e'.weight ≤ e.weight := by
  obtain rfl | h := h
  · exact le_rfl
  · exact h.le

theorem Shrinks.lt_of_ne {e' e : Expr} (h : Shrinks e' e) (hne : e' ≠ e) :
    e'.weight < e.weight := h.resolve_left hne

/-- Nothing is lighter than a constant. -/
theorem Shrinks.constant {e' : Expr} {c : ConstantExpr} (h : Shrinks e' (constant c)) :
    e' = constant c := by
  obtain h | h := h
  · exact h
  · exact absurd h (Nat.not_lt.mpr e'.weight_pos)

/-- Of two kids that shrank, one of them strictly. -/
theorem Shrinks.add_lt {l' l r' r : Expr} (hl : Shrinks l' l) (hr : Shrinks r' r)
    (hne : [l', r'] ≠ [l, r]) : l'.weight + r'.weight < l.weight + r.weight := by
  have hle := hl.le
  have hre := hr.le
  by_cases h : l' = l
  · have hr' : r' ≠ r := fun h' => hne (by rw [h, h'])
    have := hr.lt_of_ne hr'
    omega
  · have := hl.lt_of_ne h
    omega

theorem Shrinks.cmp_lt {l' l r' r : Expr} (k : CmpKind) (hl : Shrinks l' l) (hr : Shrinks r' r)
    (hne : [l', r'] ≠ [l, r]) : (cmp k l' r').weight < (cmp k l r).weight := by
  have hlt := hl.add_lt hr hne
  by_cases hk : k = .eq
  · subst hk
    by_cases hc : ∃ c, l = .constant c
    · obtain ⟨c, rfl⟩ := hc
      obtain rfl := hl.constant
      rw [weight_eq_constant, weight_eq_constant]
      omega
    · rw [weight_eq_of_not_constant l r fun c h => hc ⟨c, h⟩]
      exact (weight_eq_le l' r').trans_lt (by omega)
  · rw [weight_cmp _ _ k hk, weight_cmp _ _ k hk]
    omega

/-- Rebuilding from kids that shrank makes an expression lighter. -/
theorem weight_rebuild_lt {e : Expr} {kids : List Expr}
    (h : List.Forall₂ Shrinks kids e.kids) (hne : kids ≠ e.kids) :
    (e.rebuild kids).weight < e.weight := by
  cases e with
  | constant c =>
    cases h
    exact (hne rfl).elim
  | notOptimized e =>
    obtain _ | ⟨he, ⟨⟩⟩ := h
    have := he.lt_of_ne fun h => hne (by rw [h]; rfl)
    exact Nat.succ_lt_succ this
  | read root head index =>
    obtain _ | ⟨he, ⟨⟩⟩ := h
    have := he.lt_of_ne fun h => hne (by rw [h]; rfl)
    refine (weight_readCreate_le root head _).trans_lt ?_
    rw [weight_read, weight_read]
    omega
  | select c t f =>
    obtain _ | ⟨hc, _ | ⟨ht, _ | ⟨hf, ⟨⟩⟩⟩⟩ := h
    rename_i c' t' f'
    refine (weight_selectCreate_le _ _ _).trans_lt ?_
    rw [weight_select, weight_select]
    have hcle := hc.le
    have htle := ht.le
    have hfle := hf.le
    by_cases heq : c' = c
    · have := ht.add_lt hf fun h => hne (by rw [heq, h]; rfl)
      omega
    · have := hc.lt_of_ne heq
      omega
  | concat l r =>
    obtain _ | ⟨hl, _ | ⟨hr, ⟨⟩⟩⟩ := h
    have := hl.add_lt hr hne
    refine (weight_concatCreate_le _ _).trans_lt ?_
    rw [weight_concat]
    omega
  | extract e off w =>
    obtain _ | ⟨he, ⟨⟩⟩ := h
    have := he.lt_of_ne fun h => hne (by rw [h]; rfl)
    refine (weight_extractCreate_le _ off w).trans_lt ?_
    rw [weight_extract]
    omega
  | cast k e w =>
    obtain _ | ⟨he, ⟨⟩⟩ := h
    have := he.lt_of_ne fun h => hne (by rw [h]; rfl)
    refine (weight_castCreate_le k _ w).trans_lt ?_
    rw [weight_cast]
    omega
  | not e =>
    obtain _ | ⟨he, ⟨⟩⟩ := h
    have := he.lt_of_ne fun h => hne (by rw [h]; rfl)
    refine (weight_notCreate_le _).trans_lt ?_
    rw [weight_not]
    omega
  | arith k l r =>
    obtain _ | ⟨hl, _ | ⟨hr, ⟨⟩⟩⟩ := h
    obtain ⟨n, hn⟩ := exists_weight_arith k
    have := hl.add_lt hr hne
    refine (weight_arithCreate_le k _ _).trans_lt ?_
    rw [hn, hn]
    omega
  | cmp k l r =>
    obtain _ | ⟨hl, _ | ⟨hr, ⟨⟩⟩⟩ := h
    exact (weight_cmpCreate_le k _ _).trans_lt (hl.cmp_lt k hr hne)

/-- Rebuilding from kids that denote the same keeps what an expression denotes. -/
theorem rebuild_denotes {s : Option Assignment} {e : Expr} {w : Nat} {x : BitVec w}
    (h : Denotes s e w x) (f : Expr → Expr)
    (hf : ∀ k ∈ e.kids, ∀ {m} {y : BitVec m}, Denotes s k m y → Denotes s (f k) m y) :
    Denotes s (e.rebuild (e.kids.map f)) w x := by
  cases e with
  | constant c => exact h
  | notOptimized e => exact (hf e (by simp [kids]) h.notOptimized_inv).notOptimized
  | read root head index =>
    obtain ⟨rfl, hh, i, hi, hv⟩ := h.read_inv
    refine ReadExpr.create_denotes (Denotes.read hh (hf index (by simp [kids]) hi) fun σ hσ => ?_)
    rw [(hv σ hσ).1, BitVec.setWidth_eq]
    exact ⟨rfl, (hv σ hσ).2⟩
  | select c t f' =>
    obtain ⟨a, y, z, hc, ht, hf', hx⟩ := h.select_inv
    exact (SelectExpr.create_denotes (hf c (by simp [kids]) hc) (hf t (by simp [kids]) ht)
      (hf f' (by simp [kids]) hf')).congr fun hs => (hx hs).symm
  | concat l r =>
    obtain ⟨rfl, y, z, hl, hr, hx⟩ := h.concat_inv
    refine (ConcatExpr.create_denotes (hf l (by simp [kids]) hl)
      (hf r (by simp [kids]) hr)).congr fun hs => ?_
    rw [hx hs, BitVec.setWidth_eq]
  | extract e off w' =>
    have hpos := h.width_pos
    obtain ⟨rfl, hle, y, hy, hx⟩ := h.extract_inv
    exact (ExtractExpr.create_denotes (hf e (by simp [kids]) hy) hpos hle).congr
      fun hs => (hx hs).symm
  | cast k e w' =>
    have hpos := h.width_pos
    obtain ⟨y, hy, hle, hx⟩ := h.cast_inv
    obtain rfl : w' = w := h.width_eq
    exact (CastKind.create_denotes k (hf e (by simp [kids]) hy) hpos).congr
      fun hs => (hx hs).symm
  | not e =>
    obtain ⟨y, hy, hx⟩ := h.not_inv
    exact (NotExpr.create_denotes (hf e (by simp [kids]) hy)).congr fun hs => (hx hs).symm
  | arith k l r =>
    obtain ⟨y, z, hl, hr, hx⟩ := h.arith_inv
    exact (ArithKind.create_denotes k (hf l (by simp [kids]) hl)
      (hf r (by simp [kids]) hr)).congr fun hs => (hx hs).symm
  | cmp k l r =>
    obtain ⟨rfl, y, z, hl, hr, hx⟩ := h.cmp_inv
    refine (CmpKind.create_denotes k (hf l (by simp [kids]) hl)
      (hf r (by simp [kids]) hr)).congr fun hs => ?_
    rw [hx hs, BitVec.setWidth_eq]

end Expr

/-- A visitor that overrides `visitExpr` and `visitExprPost`, where each either changes
the expression to a constant or does nothing. -/
structure ExprVisitor where
  visitExpr : Expr → Option ConstantExpr
  visitExprPost : Expr → Option ConstantExpr
  recursive : Bool

namespace ExprVisitor

/-- The last step of `visitActual`. -/
def post (v : ExprVisitor) (e : Expr) : Expr :=
  if e.isConstant then e
  else match v.visitExprPost e with
    | some d => .constant d
    | none => e

theorem post_shrinks (v : ExprVisitor) (e : Expr) : (v.post e).Shrinks e := by
  unfold post
  split
  · exact .inl rfl
  · rename_i hc
    split
    · exact .inr (Expr.two_le_weight hc)
    · exact .inl rfl

/-- `visitActual` on an expression, with the bound that makes visiting the rebuilt
expression again well founded. The memo table of `visit` changes no result. -/
def visitActual (v : ExprVisitor) (e : Expr) : { r : Expr // r.Shrinks e } :=
  if hc : e.isConstant then ⟨e, .inl rfl⟩
  else match v.visitExpr e with
    | some d => ⟨.constant d, .inr (Expr.two_le_weight hc)⟩
    | none =>
      let kids := e.kids.attach.map fun k => (visitActual v k.1).1
      have hkids : List.Forall₂ Expr.Shrinks kids e.kids :=
        forall₂_attach_map fun k => (visitActual v k.1).2
      if hk : kids = e.kids then ⟨v.post e, v.post_shrinks e⟩
      else
        have hlt : (e.rebuild kids).weight < e.weight := Expr.weight_rebuild_lt hkids hk
        let r := e.rebuild kids
        if v.recursive then
          let r' := visitActual v r
          ⟨v.post r'.1, .inr (((v.post_shrinks r'.1).le.trans r'.2.le).trans_lt hlt)⟩
        else ⟨v.post r, .inr ((v.post_shrinks r).le.trans_lt hlt)⟩
termination_by e.weight
decreasing_by
  · exact Expr.weight_kid_lt k.2
  · exact Expr.weight_kid_lt k.2
  · exact hlt

def visit (v : ExprVisitor) (e : Expr) : Expr := (visitActual v e).1

theorem visit_shrinks (v : ExprVisitor) (e : Expr) : (v.visit e).Shrinks e := (visitActual v e).2

theorem forall₂_visit_shrinks (v : ExprVisitor) (es : List Expr) :
    List.Forall₂ Expr.Shrinks (es.map v.visit) es := by
  rw [List.forall₂_map_left_iff, List.forall₂_same]
  exact fun e _ => v.visit_shrinks e

/-- The equation of `visit`. -/
theorem visit_eq (v : ExprVisitor) (e : Expr) :
    v.visit e =
      if e.isConstant then e
      else match v.visitExpr e with
        | some d => .constant d
        | none =>
          if e.kids.map v.visit = e.kids then v.post e
          else if v.recursive then v.post (v.visit (e.rebuild (e.kids.map v.visit)))
          else v.post (e.rebuild (e.kids.map v.visit)) := by
  have hmap : e.kids.attach.map (fun k => (visitActual v k.1).1) = e.kids.map v.visit :=
    List.attach_map_val (f := v.visit)
  rw [visit, visitActual.eq_def]
  by_cases hc : e.isConstant = true
  · rw [dif_pos hc, if_pos hc]
  · rw [dif_neg hc, if_neg hc]
    cases hpre : v.visitExpr e with
    | some d => rfl
    | none =>
      dsimp only
      by_cases hk : e.kids.map v.visit = e.kids
      · rw [dif_pos (hmap.trans hk), if_pos hk]
      · rw [dif_neg (hmap ▸ hk), if_neg hk]
        split
        · exact congrArg (fun ks => v.post (v.visit (e.rebuild ks))) hmap
        · exact congrArg (fun ks => v.post (e.rebuild ks)) hmap

structure Sound (v : ExprVisitor) (s : Option Assignment) : Prop where
  visitExpr : ∀ {e w x d}, Denotes s e w x → v.visitExpr e = some d → Denotes s (.constant d) w x
  visitExprPost : ∀ {e w x d}, Denotes s e w x → v.visitExprPost e = some d →
    Denotes s (.constant d) w x

variable {v : ExprVisitor} {s : Option Assignment} {e : Expr} {w : Nat} {x : BitVec w}

theorem Sound.post_denotes (hv : v.Sound s) (h : Denotes s e w x) : Denotes s (v.post e) w x := by
  unfold post
  split
  · exact h
  · split
    · rename_i d hd
      exact hv.visitExprPost h hd
    · exact h

theorem Sound.visit_denotes (hv : v.Sound s) (h : Denotes s e w x) :
    Denotes s (v.visit e) w x := by
  induction hn : e.weight using Nat.strong_induction_on generalizing e w x with
  | _ n ih =>
  subst hn
  rw [visit_eq]
  split
  · exact h
  · split
    · rename_i d hd
      exact hv.visitExpr h hd
    · have hr : Denotes s (e.rebuild (e.kids.map v.visit)) w x :=
        Expr.rebuild_denotes h v.visit fun k hk _ _ hd => ih _ (Expr.weight_kid_lt hk) hd rfl
      split
      case isTrue => exact hv.post_denotes h
      case isFalse hne =>
        have hlt := Expr.weight_rebuild_lt (v.forall₂_visit_shrinks e.kids) hne
        split
        · exact hv.post_denotes (ih _ hlt hr rfl)
        · exact hv.post_denotes hr

end ExprVisitor

end Klee
