import Klee.Expr.Constraints

/-! Adding a constraint preserves meaning: the stored constraints are equivalent to all that
were added, and no assertion fails while these are satisfiable together. -/
namespace Klee

variable {s : Option Assignment}

section Visitors

/-- A true equality with a constant justifies its replacement. Without an assignment this
is a statement about types alone. -/
theorem Denotes.replace {c : ConstantExpr} {right : Expr} {w : Nat} {x : BitVec w}
    (heq : Denotes s (.eq (.constant c) right) 1 1#1) (h : Denotes s right w x) :
    Denotes s (.constant c) w x := by
  obtain ⟨-, y, z, hy, hz, hyz⟩ := heq.cmp_inv
  obtain rfl : c.width = w := hz.width_eq.symm.trans h.width_eq
  refine hy.congr fun hs => ?_
  have hone := hyz hs
  rw [BitVec.setWidth_eq, eq_comm, BitVec.ofBool_eq_one] at hone
  rw [beq_iff_eq.mp hone]
  exact hz.unique h hs

theorem ExprReplaceVisitor.sound {c : ConstantExpr} {right : Expr}
    (heq : Denotes s (.eq (.constant c) right) 1 1#1) : (ExprReplaceVisitor right c).Sound s := by
  have hchange {e : Expr} {w : Nat} {x : BitVec w} {d : ConstantExpr} (h : Denotes s e w x)
      (hd : (if e = right then some c else none) = some d) : Denotes s (.constant d) w x := by
    split at hd
    case isTrue he =>
      subst he
      obtain rfl := Option.some.inj hd
      exact heq.replace h
    case isFalse => cases hd
  exact ⟨hchange, hchange⟩

theorem ExprReplaceVisitor2.sound {replacements : List (Expr × ConstantExpr)}
    (hr : ∀ p ∈ replacements, ∀ {w} {x : BitVec w}, Denotes s p.1 w x →
      Denotes s (.constant p.2) w x) : (ExprReplaceVisitor2 replacements).Sound s where
  visitExpr _ hd := by cases hd
  visitExprPost {e w x d} h hd := by
    obtain ⟨l₁, l₂, rfl, -⟩ := List.lookup_eq_some_iff.mp hd
    exact hr (e, d) (by simp) h

theorem ExprVisitor.Sound.visit_holds_iff {v : ExprVisitor} {σ : Assignment} {e : Expr}
    (hv : v.Sound (some σ)) (he : e.IsBool) : (v.visit e).Holds σ ↔ e.Holds σ :=
  (hv.visit_denotes (he.denotes σ)).holds_iff

end Visitors

namespace ConstraintManager

/-- A constraint that is true justifies what `simplifyExpr` replaces for it. -/
theorem equality_sound {c : Expr} (hc : Denotes s c 1 1#1) {w : Nat} {x : BitVec w}
    (h : Denotes s (equality c).1 w x) : Denotes s (.constant (equality c).2) w x := by
  unfold equality at h ⊢
  split at h
  · exact hc.replace h
  · obtain rfl : w = 1 := h.width_eq.symm.trans hc.width_eq
    exact (Denotes.constant Nat.one_pos).congr fun hs => hc.unique h hs

theorem simplifyExpr_denotes {cs : List Expr} {e : Expr} {w : Nat} {x : BitVec w}
    (hcs : ∀ c ∈ cs, Denotes s c 1 1#1) (h : Denotes s e w x) :
    Denotes s (simplifyExpr cs e) w x := by
  unfold simplifyExpr
  split
  · exact h
  · refine (ExprReplaceVisitor2.sound fun p hp => ?_).visit_denotes h
    obtain ⟨c, hc, rfl⟩ := List.mem_map.mp hp
    exact equality_sound (hcs c hc)

theorem isBool_append {cs : List Expr} {e : Expr} (hcs : ∀ c ∈ cs, c.IsBool) (he : e.IsBool) :
    ∀ c ∈ cs ++ [e], c.IsBool := by
  intro c hc
  obtain hc | hc := List.mem_append.mp hc
  · exact hcs c hc
  · rwa [List.mem_singleton.mp hc]

/-- What storing the constraints `new` on top of `cs` must come to under the assignments
of `P`; a failed assertion needs constraints that are false together. -/
def Stores (P : Assignment → Prop) (cs new : List Expr) : Option (List Expr) → Prop
  | none => ∀ σ, P σ → ¬ (Satisfies σ cs ∧ Satisfies σ new)
  | some cs' => (∀ c ∈ cs', c.IsBool) ∧
      ∀ σ, P σ → (Satisfies σ cs' ↔ Satisfies σ cs ∧ Satisfies σ new)

theorem Stores.congr {P : Assignment → Prop} {cs new ds new' : List Expr}
    {r : Option (List Expr)} (h : Stores P cs new r)
    (hiff : ∀ σ, P σ → (Satisfies σ cs ∧ Satisfies σ new ↔ Satisfies σ ds ∧ Satisfies σ new')) :
    Stores P ds new' r := by
  cases r with
  | none => exact fun σ hσ hsat => h σ hσ ((hiff σ hσ).mpr hsat)
  | some cs' => exact ⟨h.1, fun σ hσ => (h.2 σ hσ).trans (hiff σ hσ)⟩

variable {rewriteEqualities : Bool}

/-- The loop of `rewriteConstraints`, for a visitor that is sound under the assignments of
`P`, given that adding the rewritten constraints stores them. -/
theorem rewriteFrom_stores {P : Assignment → Prop} {visitor : ExprVisitor}
    (hnone : visitor.Sound none) (hP : ∀ σ, P σ → visitor.Sound (some σ)) (old : List Expr)
    (hold : ∀ c ∈ old, c.IsBool) (cs : List Expr) (hcs : ∀ c ∈ cs, c.IsBool) (changed : Bool)
    (hadd : ∀ ds e, weight ds + e.weight < weight cs + weight old → (∀ c ∈ ds, c.IsBool) →
      e.IsBool → Stores (fun _ => True) ds [e] (addConstraintInternal rewriteEqualities ds e)) :
    Stores P cs old ((rewriteFrom rewriteEqualities visitor cs old changed).map (·.1)) := by
  induction old generalizing cs changed with
  | nil =>
    rw [rewriteFrom_nil]
    exact ⟨hcs, fun σ _ => by simp⟩
  | cons ce rest ih =>
    have hce := hold ce (List.mem_cons_self ..)
    have hrest : ∀ c ∈ rest, c.IsBool := fun c hc => hold c (List.mem_cons_of_mem _ hc)
    rw [rewriteFrom_cons]
    rw [weight_cons] at hadd
    split
    case isTrue =>
      have hkept : ∀ c ∈ cs ++ [ce], c.IsBool := isBool_append hcs hce
      refine (ih hrest (cs ++ [ce]) hkept changed fun ds e hlt => hadd ds e ?_).congr fun σ _ => ?_
      · simp only [weight_append, weight_cons, weight_nil] at hlt
        omega
      · rw [satisfies_append, satisfies_singleton, satisfies_cons, and_assoc]
    case isFalse hne =>
      have hlt := (visitor.visit_shrinks ce).lt_of_ne hne
      have hvisit : (visitor.visit ce).IsBool := hce.of_denotes fun h => hnone.visit_denotes h
      have hst := hadd cs (visitor.visit ce) (by omega) hcs hvisit
      have hiff : ∀ σ, P σ → (Satisfies σ [visitor.visit ce] ↔ ce.Holds σ) := fun σ hσ => by
        rw [satisfies_singleton, (hP σ hσ).visit_holds_iff hce]
      cases hres : addConstraintInternal rewriteEqualities cs (visitor.visit ce) with
      | none =>
        rw [hres] at hst
        intro σ hσ hsat
        rw [satisfies_cons] at hsat
        exact hst σ trivial ⟨hsat.1, (hiff σ hσ).mpr hsat.2.1⟩
      | some cs1 =>
        rw [hres] at hst
        have hle := weight_addConstraintInternal rewriteEqualities hres
        refine (ih hrest cs1 hst.1 true fun ds e hlt' => hadd ds e (by omega)).congr fun σ hσ => ?_
        rw [hst.2 σ trivial, hiff σ hσ, satisfies_cons, and_assoc]

theorem addConstraintInternal_stores (cs : List Expr) (e : Expr) (hcs : ∀ c ∈ cs, c.IsBool)
    (he : e.IsBool) :
    Stores (fun _ => True) cs [e] (addConstraintInternal rewriteEqualities cs e) := by
  induction hn : weight cs + e.weight using Nat.strong_induction_on generalizing cs e with
  | _ n ih =>
  subst hn
  rw [addConstraintInternal_eq]
  have hpush : Stores (fun _ => True) cs [e] (some (cs ++ [e])) := by
    exact ⟨isBool_append hcs he, fun σ _ => satisfies_append σ cs [e]⟩
  split
  · rename_i c
    split
    case isTrue hc =>
      refine ⟨hcs, fun σ _ => ?_⟩
      rw [satisfies_singleton, Expr.holds_constant_iff he, and_iff_left hc]
    case isFalse hc =>
      intro σ _ hsat
      rw [satisfies_singleton, Expr.holds_constant_iff he] at hsat
      exact hc hsat.2
  · rename_i l r
    obtain ⟨hl, hr⟩ := Expr.isBool_and_iff.mp he
    have hpos := r.weight_pos
    rw [Expr.weight_and] at ih
    have hstl := ih _ (by omega) cs l hcs hl rfl
    cases hresl : addConstraintInternal rewriteEqualities cs l with
    | none =>
      rw [hresl] at hstl
      intro σ hσ hsat
      rw [satisfies_singleton, Expr.holds_and_iff] at hsat
      exact hstl σ hσ ⟨hsat.1, (satisfies_singleton σ l).mpr hsat.2.1⟩
    | some cs1 =>
      rw [hresl] at hstl
      have hle := weight_addConstraintInternal rewriteEqualities hresl
      refine (ih _ (by omega) cs1 r hstl.1 hr rfl).congr fun σ hσ => ?_
      rw [hstl.2 σ hσ, satisfies_singleton, satisfies_singleton, satisfies_singleton,
        Expr.holds_and_iff, and_assoc]
  · rename_i c right
    have hone (σ : Assignment) (h : (Expr.eq (.constant c) right).Holds σ) :
        Denotes (some σ) (.eq (.constant c) right) 1 1#1 := (he.denotes σ).congr fun _ => h
    have htype : Denotes none (.eq (.constant c) right) 1 1#1 :=
      he.denotes_none.congr fun hs => by cases hs
    split
    case isTrue =>
      have hst := rewriteFrom_stores (P := fun σ => (Expr.eq (.constant c) right).Holds σ)
        (ExprReplaceVisitor.sound htype) (fun σ hσ => ExprReplaceVisitor.sound (hone σ hσ)) cs hcs
        [] (by simp) false fun ds e hlt hds he' => ih _ (by simp at hlt; omega) ds e hds he' rfl
      rw [rewriteConstraints]
      cases hres : rewriteFrom rewriteEqualities (ExprReplaceVisitor right c) [] cs false with
      | none =>
        rw [hres] at hst
        intro σ _ hsat
        exact hst σ ((satisfies_singleton σ _).mp hsat.2) ⟨satisfies_nil σ, hsat.1⟩
      | some r =>
        rw [hres] at hst
        refine ⟨isBool_append hst.1 he, fun σ _ => ?_⟩
        rw [satisfies_append]
        refine and_congr_left fun hσ => ?_
        rw [hst.2 σ ((satisfies_singleton σ _).mp hσ), and_iff_right (satisfies_nil σ)]
    case isFalse => exact hpush
  · exact hpush

/-- `addConstraint` preserves meaning. -/
theorem addConstraint_stores (rewriteEqualities : Bool) (cs : List Expr) (e : Expr) (hcs : ∀ c ∈ cs, c.IsBool)
    (he : e.IsBool) :
    Stores (fun _ => True) cs [e] (addConstraint rewriteEqualities cs e) := by
  have hs : (simplifyExpr cs e).IsBool := he.of_denotes fun h =>
    simplifyExpr_denotes (fun c hc => ((hcs c hc).denotes_none).congr fun hs => by cases hs) h
  refine (addConstraintInternal_stores cs _ hcs hs).congr fun σ _ => ?_
  refine and_congr_right fun hσ => ?_
  have hd := simplifyExpr_denotes (fun c hc => ((hcs c hc).denotes σ).congr fun _ => hσ c hc)
    (he.denotes σ)
  rw [satisfies_singleton, satisfies_singleton, hd.holds_iff]
  rfl

/-- A constraint set built by `addConstraint` from Boolean expressions. -/
inductive Built (rewriteEqualities : Bool) : List Expr → Prop
  | nil : Built rewriteEqualities []
  | add {cs cs' : List Expr} {e : Expr} (hcs : Built rewriteEqualities cs) (he : e.IsBool)
      (hadd : addConstraint rewriteEqualities cs e = some cs') : Built rewriteEqualities cs'

theorem Built.isBool {cs : List Expr} (h : Built rewriteEqualities cs) :
    ∀ c ∈ cs, c.IsBool := by
  induction h with
  | nil => simp
  | add _ he hadd ih =>
    have hst := addConstraint_stores rewriteEqualities _ _ ih he
    rw [hadd] at hst
    exact hst.1

/-- `x[0] < 4` and `1 == x[0]`, for a one-byte symbolic array `x`. -/
def byteLt : Expr :=
  .cmp .ult (.read CreateCall.symbolicByte .null (.constant ⟨32, 0⟩)) (.constant ⟨8, 4⟩)
def byteEq : Expr :=
  .eq (.constant ⟨8, 1⟩) (.read CreateCall.symbolicByte .null (.constant ⟨32, 0⟩))

theorem isBool_byteLt : byteLt.IsBool := by
  simp [byteLt, Expr.IsBool, Expr.WellSorted, UpdateNode.WellSorted, Expr.width, Array.getRange]

theorem isBool_byteEq : byteEq.IsBool := by
  simp [byteEq, Expr.IsBool, Expr.WellSorted, UpdateNode.WellSorted, Expr.width, Array.getRange]

theorem built_byteLt : Built true [byteLt] := by
  have hsimp : simplifyExpr [] byteLt = byteLt := by decide +kernel
  refine Built.add .nil isBool_byteLt ?_
  rw [addConstraint, hsimp, addConstraintInternal_eq]
  rfl

end ConstraintManager

end Klee
