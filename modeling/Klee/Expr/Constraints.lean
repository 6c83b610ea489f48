import Klee.Expr.Visitor

/-! `ConstraintManager`: constraint sets that are rewritten with every equality that is
added. A failed assertion is `none`. -/
namespace Klee

/-- `ExprReplaceVisitor`; `dst` is a constant wherever it is used. -/
def ExprReplaceVisitor (src : Expr) (dst : ConstantExpr) : ExprVisitor where
  visitExpr e := if e = src then some dst else none
  visitExprPost e := if e = src then some dst else none
  recursive := false

/-- `ExprReplaceVisitor2`. The map keeps the first replacement that is inserted. -/
def ExprReplaceVisitor2 (replacements : List (Expr × ConstantExpr)) : ExprVisitor where
  visitExpr _ := none
  visitExprPost e := replacements.lookup e
  recursive := true

namespace ConstraintManager

/-- What `simplifyExpr` replaces for a known constraint. -/
def equality : Expr → Expr × ConstantExpr
  | .eq (.constant c) right => (right, c)
  | c => (c, .alloc 1 1)

def simplifyExpr (constraints : List Expr) (e : Expr) : Expr :=
  if e.isConstant then e else (ExprReplaceVisitor2 (constraints.map equality)).visit e

def weight (constraints : List Expr) : Nat := (constraints.map Expr.weight).sum

@[simp] theorem weight_nil : weight [] = 0 := rfl
@[simp] theorem weight_cons (c : Expr) (cs : List Expr) :
    weight (c :: cs) = c.weight + weight cs := by simp [weight]
@[simp] theorem weight_append (cs ds : List Expr) :
    weight (cs ++ ds) = weight cs + weight ds := by simp [weight]

variable (rewriteEqualities : Bool)

mutual

/-- `addConstraintInternal`, with the bound that makes adding rewritten constraints again
well founded. -/
def addInternal (cs : List Expr) (e : Expr) :
    Option { cs' : List Expr // weight cs' ≤ weight cs + e.weight } :=
  match e with
  | .constant c => if c.isTrue then some ⟨cs, Nat.le_add_right _ _⟩ else none
  | .and l r =>
    -- split to enable finer grained independence
    match addInternal cs l with
    | none => none
    | some ⟨cs1, h1⟩ =>
      match addInternal cs1 r with
      | none => none
      | some ⟨cs2, h2⟩ => some ⟨cs2, by rw [Expr.weight_and]; omega⟩
  | .eq (.constant c) right =>
    if rewriteEqualities then
      match rewriteLoop (ExprReplaceVisitor right c) [] cs false with
      | none => none
      | some ⟨(cs1, _), h1⟩ => some ⟨cs1 ++ [.eq (.constant c) right], by
          simp only [weight_nil, weight_append, weight_cons] at h1 ⊢; omega⟩
    else some ⟨cs ++ [.eq (.constant c) right], by simp⟩
  | e => some ⟨cs ++ [e], by simp⟩
termination_by (weight cs + e.weight, 0)
decreasing_by
  · exact Prod.Lex.left _ _ (by simp)
  · exact Prod.Lex.left _ _ (by rw [Expr.weight_and]; omega)
  · exact Prod.Lex.left _ _ (by simp)

/-- The loop of `rewriteConstraints` over the constraints `old` still to visit; `cs` are the
constraints stored so far. -/
def rewriteLoop (visitor : ExprVisitor) (cs old : List Expr) (changed : Bool) :
    Option { r : List Expr × Bool // weight r.1 ≤ weight cs + weight old } :=
  match old with
  | [] => some ⟨(cs, changed), Nat.le_add_right _ _⟩
  | ce :: rest =>
    if h : visitor.visit ce = ce then
      match rewriteLoop visitor (cs ++ [ce]) rest changed with
      | none => none
      | some ⟨r, hr⟩ => some ⟨r, by simp at hr ⊢; omega⟩
    else
      -- enable further reductions
      match addInternal cs (visitor.visit ce) with
      | none => none
      | some ⟨cs1, h1⟩ =>
        match rewriteLoop visitor cs1 rest true with
        | none => none
        | some ⟨r, hr⟩ => some ⟨r, by
            have := (visitor.visit_shrinks ce).lt_of_ne h
            simp at hr ⊢; omega⟩
termination_by (weight cs + weight old, old.length)
decreasing_by
  · simp only [weight_append, weight_cons, weight_nil, Nat.add_zero, Nat.add_assoc]
    exact Prod.Lex.right _ (Nat.lt_succ_self _)
  · have hlt := (visitor.visit_shrinks ce).lt_of_ne h
    exact Prod.Lex.left _ _ (by simp only [weight_cons]; omega)
  · have hlt := (visitor.visit_shrinks ce).lt_of_ne h
    exact Prod.Lex.left _ _ (by simp only [weight_cons]; omega)

end

def addConstraintInternal (cs : List Expr) (e : Expr) : Option (List Expr) :=
  (addInternal rewriteEqualities cs e).map (·.1)

/-- The loop of `rewriteConstraints`. -/
def rewriteFrom (visitor : ExprVisitor) (cs old : List Expr) (changed : Bool) :
    Option (List Expr × Bool) :=
  (rewriteLoop rewriteEqualities visitor cs old changed).map (·.1)

/-- `rewriteConstraints`: swap the constraints out and store them again one by one. -/
def rewriteConstraints (visitor : ExprVisitor) (cs : List Expr) : Option (List Expr × Bool) :=
  rewriteFrom rewriteEqualities visitor [] cs false

def addConstraint (cs : List Expr) (e : Expr) : Option (List Expr) :=
  addConstraintInternal rewriteEqualities cs (simplifyExpr cs e)

theorem weight_addConstraintInternal {cs cs' : List Expr} {e : Expr}
    (h : addConstraintInternal rewriteEqualities cs e = some cs') :
    weight cs' ≤ weight cs + e.weight := by
  obtain ⟨p, -, rfl⟩ := Option.map_eq_some_iff.mp h
  exact p.2

theorem addConstraintInternal_eq (cs : List Expr) (e : Expr) :
    addConstraintInternal rewriteEqualities cs e =
      match e with
      | .constant c => if c.isTrue then some cs else none
      | .and l r => (addConstraintInternal rewriteEqualities cs l).bind fun cs1 =>
        addConstraintInternal rewriteEqualities cs1 r
      | .eq (.constant c) right =>
        if rewriteEqualities then
          (rewriteConstraints rewriteEqualities (ExprReplaceVisitor right c) cs).map fun r =>
            r.1 ++ [.eq (.constant c) right]
        else some (cs ++ [.eq (.constant c) right])
      | e => some (cs ++ [e]) := by
  rw [addConstraintInternal, addInternal.eq_def]
  split
  · split <;> rfl
  · rename_i l r
    simp only [addConstraintInternal]
    cases hl : addInternal rewriteEqualities cs l with
    | none => rfl
    | some p =>
      obtain ⟨cs1, h1⟩ := p
      dsimp
      cases hr : addInternal rewriteEqualities cs1 r with
      | none => rfl
      | some p => rfl
  · rename_i c right
    split
    · simp only [rewriteConstraints, rewriteFrom]
      cases hr : rewriteLoop rewriteEqualities (ExprReplaceVisitor right c) [] cs false with
      | none => rfl
      | some p => rfl
    · rfl
  · rfl

theorem rewriteFrom_nil (visitor : ExprVisitor) (cs : List Expr) (changed : Bool) :
    rewriteFrom rewriteEqualities visitor cs [] changed = some (cs, changed) := by
  rw [rewriteFrom, rewriteLoop]
  rfl

theorem rewriteFrom_cons (visitor : ExprVisitor) (cs rest : List Expr) (ce : Expr)
    (changed : Bool) :
    rewriteFrom rewriteEqualities visitor cs (ce :: rest) changed =
      if visitor.visit ce = ce then
        rewriteFrom rewriteEqualities visitor (cs ++ [ce]) rest changed
      else (addConstraintInternal rewriteEqualities cs (visitor.visit ce)).bind fun cs1 =>
        rewriteFrom rewriteEqualities visitor cs1 rest true := by
  rw [rewriteFrom, rewriteLoop]
  split
  · rw [rewriteFrom]
    cases rewriteLoop rewriteEqualities visitor (cs ++ [ce]) rest changed <;> rfl
  · simp only [rewriteFrom, addConstraintInternal]
    cases hadd : addInternal rewriteEqualities cs (visitor.visit ce) with
    | none => rfl
    | some p =>
      obtain ⟨cs1, h1⟩ := p
      dsimp
      cases rewriteLoop rewriteEqualities visitor cs1 rest true <;> rfl

end ConstraintManager

end Klee
