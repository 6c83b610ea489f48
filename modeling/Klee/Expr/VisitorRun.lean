import Klee.Expr.ConstraintsSound
import Klee.Expr.ExprEvaluator

/-! The traversal of `ExprVisitor` as it runs: with its memo table, and with the division of
constants, which fails for the divisor zero (an assertion of `APInt`, or a trap). -/
namespace Klee

namespace Expr

/-- `rebuild` folds a division of constants by zero. -/
def dividesByZero : Expr → List Expr → Bool
  | arith k _ _, [constant _, constant c] => k.isDivision && c.isZero
  | _, _ => false

end Expr

/-- `visited`: the results of earlier visits. -/
structure Visited where
  entries : List (Expr × Expr)
  shrinks : ∀ p ∈ entries, p.2.Shrinks p.1

namespace Visited

def empty : Visited := ⟨[], by simp⟩

def find (m : Visited) (e : Expr) : Option { r : Expr // r.Shrinks e } :=
  match h : m.entries.find? (·.1 = e) with
  | some p => some ⟨p.2, by
      have hp : p.1 = e := by simpa using List.find?_some h
      exact hp ▸ m.shrinks p (List.mem_of_find?_eq_some h)⟩
  | none => none

def insert (m : Visited) (e : Expr) (r : { r : Expr // r.Shrinks e }) : Visited where
  entries := (e, r.1) :: m.entries
  shrinks := by
    intro p hp
    obtain rfl | hp := List.mem_cons.mp hp
    · exact r.2
    · exact m.shrinks p hp

theorem mem_of_find {m : Visited} {e : Expr} {r : { r : Expr // r.Shrinks e }}
    (h : m.find e = some r) : (e, r.1) ∈ m.entries := by
  unfold find at h
  split at h
  · rename_i p hp
    obtain rfl := Option.some.inj h
    have he : p.1 = e := by simpa using List.find?_some hp
    subst he
    exact List.mem_of_find?_eq_some hp
  · cases h

end Visited

namespace ExprVisitor

/-- The loop of `visitActual` over the kids, each visited by `run`. -/
def runKids : (kids : List Expr) →
    (∀ k ∈ kids, Visited → Option ({ r : Expr // r.Shrinks k } × Visited)) → Visited →
    Option ({ rs : List Expr // List.Forall₂ Expr.Shrinks rs kids } × Visited)
  | [], _, m => some (⟨[], .nil⟩, m)
  | k :: rest, run, m =>
    match run k (List.mem_cons_self ..) m with
    | none => none
    | some (r, m1) =>
      match runKids rest (fun k' hk => run k' (List.mem_cons_of_mem _ hk)) m1 with
      | none => none
      | some (rs, m2) => some (⟨r.1 :: rs.1, .cons r.2 rs.2⟩, m2)

variable (useVisitorHash : Bool) (v : ExprVisitor)

mutual

/-- `visit`; `none` is a failed division. -/
def runVisit (e : Expr) (m : Visited) : Option ({ r : Expr // r.Shrinks e } × Visited) :=
  if useVisitorHash = false ∨ e.isConstant then runVisitActual e m
  else match m.find e with
    | some r => some (r, m)
    | none =>
      match runVisitActual e m with
      | none => none
      | some (r, m') => some (r, m'.insert e r)
termination_by 2 * e.weight + 1

def runVisitActual (e : Expr) (m : Visited) : Option ({ r : Expr // r.Shrinks e } × Visited) :=
  if hc : e.isConstant then some (⟨e, .inl rfl⟩, m)
  else match v.visitExpr e with
    | some d => some (⟨.constant d, .inr (Expr.two_le_weight hc)⟩, m)
    | none =>
      match runKids e.kids (fun k hk m => have := Expr.weight_kid_lt hk; runVisit k m) m with
      | none => none
      | some (kids, m1) =>
        if hk : kids.1 = e.kids then some (⟨v.post e, v.post_shrinks e⟩, m1)
        else if e.dividesByZero kids.1 then none
        else
          have hlt : (e.rebuild kids.1).weight < e.weight := Expr.weight_rebuild_lt kids.2 hk
          if v.recursive then
            match runVisit (e.rebuild kids.1) m1 with
            | none => none
            | some (r, m2) =>
              some (⟨v.post r.1, .inr (((v.post_shrinks r.1).le.trans r.2.le).trans_lt hlt)⟩, m2)
          else
            some (⟨v.post (e.rebuild kids.1), .inr ((v.post_shrinks _).le.trans_lt hlt)⟩, m1)
termination_by 2 * e.weight

end

/-- The traversal of an expression comes to a division of constants by zero: in a kid, when it
rebuilds the expression, or when it visits the rebuilt expression again. -/
inductive DividesByZero : Expr → Prop
  | kid {e k : Expr} (hc : e.isConstant = false) (hv : v.visitExpr e = none)
      (hk : k ∈ e.kids) (h : DividesByZero k) : DividesByZero e
  | rebuild {e : Expr} (hc : e.isConstant = false) (hv : v.visitExpr e = none)
      (hne : e.kids.map v.visit ≠ e.kids) (h : e.dividesByZero (e.kids.map v.visit) = true) :
      DividesByZero e
  | again {e : Expr} (hc : e.isConstant = false) (hv : v.visitExpr e = none)
      (hne : e.kids.map v.visit ≠ e.kids) (hr : v.recursive = true)
      (h : DividesByZero (e.rebuild (e.kids.map v.visit))) : DividesByZero e

def Right (m : Visited) : Prop :=
  ∀ p ∈ m.entries, ¬ v.DividesByZero p.1 ∧ p.2 = v.visit p.1

theorem right_empty : v.Right .empty := fun _ hp => (List.not_mem_nil hp).elim

/-- What a run of `visit` comes to. -/
def Runs (e : Expr) : Option ({ r : Expr // r.Shrinks e } × Visited) → Prop
  | none => v.DividesByZero e
  | some (r, m) => ¬ v.DividesByZero e ∧ r.1 = v.visit e ∧ v.Right m

def RunsKids (kids : List Expr) :
    Option ({ rs : List Expr // List.Forall₂ Expr.Shrinks rs kids } × Visited) → Prop
  | none => ∃ k ∈ kids, v.DividesByZero k
  | some (rs, m) => (∀ k ∈ kids, ¬ v.DividesByZero k) ∧ rs.1 = kids.map v.visit ∧ v.Right m

variable {useVisitorHash v}

theorem runKids_runs (kids : List Expr)
    (run : ∀ k ∈ kids, Visited → Option ({ r : Expr // r.Shrinks k } × Visited))
    (hrun : ∀ k hk m, v.Right m → v.Runs k (run k hk m)) (m : Visited) (hm : v.Right m) :
    v.RunsKids kids (runKids kids run m) := by
  induction kids generalizing m with
  | nil => exact ⟨by simp, rfl, hm⟩
  | cons k rest ih =>
    have hk := hrun k (List.mem_cons_self ..) m hm
    rw [runKids]
    cases hrk : run k _ m with
    | none =>
      rw [hrk] at hk
      exact ⟨k, List.mem_cons_self .., hk⟩
    | some r =>
      obtain ⟨r, m1⟩ := r
      rw [hrk] at hk
      obtain ⟨hnot, hr, hm1⟩ := hk
      have hrest := ih (fun k' hk' => run k' (List.mem_cons_of_mem _ hk'))
        (fun k' hk' => hrun k' (List.mem_cons_of_mem _ hk')) m1 hm1
      dsimp only
      cases hrr : runKids rest _ m1 with
      | none =>
        rw [hrr] at hrest
        obtain ⟨k', hk', hz⟩ := hrest
        exact ⟨k', List.mem_cons_of_mem _ hk', hz⟩
      | some rs =>
        obtain ⟨rs, m2⟩ := rs
        rw [hrr] at hrest
        obtain ⟨hnots, hrs, hm2⟩ := hrest
        refine ⟨?_, ?_, hm2⟩
        · intro k' hk'
          obtain rfl | hk' := List.mem_cons.mp hk'
          · exact hnot
          · exact hnots k' hk'
        · exact congrArg₂ List.cons hr hrs

/-- A step of the traversal that faults nowhere. -/
theorem not_dividesByZero {e : Expr} (hkids : ∀ k ∈ e.kids, ¬ v.DividesByZero k)
    (hrebuild : e.kids.map v.visit ≠ e.kids → e.dividesByZero (e.kids.map v.visit) = false)
    (hagain : e.kids.map v.visit ≠ e.kids → v.recursive = true →
      ¬ v.DividesByZero (e.rebuild (e.kids.map v.visit))) : ¬ v.DividesByZero e := by
  intro h
  cases h with
  | kid _ _ hk h => exact hkids _ hk h
  | rebuild _ _ hne h => exact Bool.false_ne_true ((hrebuild hne).symm.trans h)
  | again _ _ hne hr h => exact hagain hne hr h

theorem runVisitActual_runs (e : Expr)
    (hrun : ∀ e' : Expr, e'.weight < e.weight → ∀ m, v.Right m →
      v.Runs e' (runVisit useVisitorHash v e' m))
    (m : Visited) (hm : v.Right m) : v.Runs e (runVisitActual useVisitorHash v e m) := by
  have heq := v.visit_eq e
  rw [runVisitActual]
  by_cases hc : e.isConstant = true
  · rw [dif_pos hc]
    rw [if_pos hc] at heq
    exact ⟨fun h => by cases h <;> simp_all, heq.symm, hm⟩
  rw [dif_neg hc]
  rw [if_neg hc] at heq
  rw [Bool.not_eq_true] at hc
  cases hv : v.visitExpr e with
  | some d =>
    rw [hv] at heq
    exact ⟨fun h => by cases h <;> simp_all, heq.symm, hm⟩
  | none =>
    rw [hv] at heq
    dsimp only at heq ⊢
    have hkids := runKids_runs e.kids (fun k _ m => runVisit useVisitorHash v k m)
      (fun k hk => hrun k (Expr.weight_kid_lt hk)) m hm
    cases hrk : runKids e.kids _ m with
    | none =>
      rw [hrk] at hkids
      obtain ⟨k, hk, hz⟩ := hkids
      exact .kid hc hv hk hz
    | some ks =>
      obtain ⟨⟨ks, hshrink⟩, m1⟩ := ks
      rw [hrk] at hkids
      obtain ⟨hnots, hks, hm1⟩ := hkids
      obtain rfl : ks = e.kids.map v.visit := hks
      dsimp only
      split
      case isTrue hk =>
        rw [if_pos hk] at heq
        exact ⟨not_dividesByZero hnots (fun h => absurd hk h) fun h => absurd hk h,
          heq.symm, hm1⟩
      case isFalse hk =>
        rw [if_neg hk] at heq
        split
        case isTrue hz => exact .rebuild hc hv hk hz
        case isFalse hz =>
          rw [Bool.not_eq_true] at hz
          split
          case isTrue hr =>
            rw [if_pos hr] at heq
            have hlt := Expr.weight_rebuild_lt hshrink hk
            have hagain := hrun _ hlt m1 hm1
            cases hra : runVisit useVisitorHash v (e.rebuild (e.kids.map v.visit)) m1 with
            | none =>
              rw [hra] at hagain
              exact .again hc hv hk hr hagain
            | some r =>
              obtain ⟨r, m2⟩ := r
              rw [hra] at hagain
              obtain ⟨hnot, hres, hm2⟩ := hagain
              refine ⟨not_dividesByZero hnots (fun _ => hz) fun _ _ => hnot, ?_, hm2⟩
              rw [heq, ← hres]
          case isFalse hr =>
            rw [if_neg hr] at heq
            exact ⟨not_dividesByZero hnots (fun _ => hz) fun _ h => absurd h hr, heq.symm, hm1⟩

/-- A run of `visit` returns the result of the traversal unless that divides by zero. -/
theorem runVisit_runs (useVisitorHash : Bool) (v : ExprVisitor) (e : Expr) (m : Visited)
    (hm : v.Right m) : v.Runs e (runVisit useVisitorHash v e m) := by
  induction hn : e.weight using Nat.strong_induction_on generalizing e m with
  | _ n ih =>
  subst hn
  have hactual := runVisitActual_runs e
    (fun e' hlt m hm => ih _ hlt e' m hm rfl) m hm
  rw [runVisit]
  split
  · exact hactual
  · split
    · rename_i r hr
      obtain ⟨hnot, hval⟩ := hm _ (Visited.mem_of_find hr)
      exact ⟨hnot, hval, hm⟩
    · cases hra : runVisitActual useVisitorHash v e m with
      | none =>
        rw [hra] at hactual
        exact hactual
      | some r =>
        obtain ⟨r, m'⟩ := r
        rw [hra] at hactual
        obtain ⟨hnot, hval, hm'⟩ := hactual
        refine ⟨hnot, hval, fun p hp => ?_⟩
        obtain rfl | hp := List.mem_cons.mp hp
        · exact ⟨hnot, hval⟩
        · exact hm' p hp

end ExprVisitor

namespace ConstraintManager

/-- The visitor of `simplifyExpr`. -/
def replaceEqualities (cs : List Expr) : ExprVisitor := ExprReplaceVisitor2 (cs.map equality)

/-- `simplifyExpr`, with a visitor of its own. -/
def runSimplifyExpr (useVisitorHash : Bool) (cs : List Expr) (e : Expr) : Option Expr :=
  if e.isConstant then some e
  else ((replaceEqualities cs).runVisit useVisitorHash e .empty).map (·.1.1)

variable {useVisitorHash : Bool} {cs : List Expr} {e : Expr}

theorem runSimplifyExpr_none (h : (replaceEqualities cs).DividesByZero e) :
    runSimplifyExpr useVisitorHash cs e = none := by
  have hc : ¬ e.isConstant = true := by cases h <;> simp_all
  have hruns := ExprVisitor.runVisit_runs useVisitorHash _ e _ (replaceEqualities cs).right_empty
  rw [runSimplifyExpr, if_neg hc]
  cases hr : (replaceEqualities cs).runVisit useVisitorHash e .empty with
  | none => rfl
  | some r =>
    rw [hr] at hruns
    exact absurd h hruns.1

theorem runSimplifyExpr_some (h : ¬ (replaceEqualities cs).DividesByZero e) :
    runSimplifyExpr useVisitorHash cs e = some (simplifyExpr cs e) := by
  have hruns := ExprVisitor.runVisit_runs useVisitorHash _ e _ (replaceEqualities cs).right_empty
  rw [runSimplifyExpr, simplifyExpr]
  split
  case isTrue => rfl
  case isFalse =>
    cases hr : (replaceEqualities cs).runVisit useVisitorHash e .empty with
    | none =>
      rw [hr] at hruns
      exact absurd hruns h
    | some r =>
      rw [hr] at hruns
      exact congrArg some hruns.2.1

/-- `simplifyExpr` returns an expression of the same type, and of the same value under every
assignment that satisfies the constraints, exactly if the traversal divides no constant by
zero. -/
theorem simplifyExpr_preserves_iff (useVisitorHash : Bool) (cs : List Expr) (e : Expr)
    (hcs : ∀ c ∈ cs, c.IsBool) (he : e.WellSorted) :
    (∃ e', runSimplifyExpr useVisitorHash cs e = some e' ∧ e'.width = e.width ∧
      ∀ σ, Satisfies σ cs → e'.eval σ e.width = e.eval σ e.width) ↔
      ¬ (replaceEqualities cs).DividesByZero e := by
  constructor
  · rintro ⟨e', hrun, -⟩ hz
    rw [runSimplifyExpr_none hz] at hrun
    cases hrun
  · intro hz
    refine ⟨_, runSimplifyExpr_some hz, ?_, fun σ hσ => ?_⟩
    · have hd := simplifyExpr_denotes (s := none)
        (fun c hc => ((hcs c hc).denotes_none).congr fun hs => by cases hs)
        (.of_wellSorted_none he rfl)
      exact hd.width_eq
    · have hd := simplifyExpr_denotes (fun c hc => ((hcs c hc).denotes σ).congr fun _ => hσ c hc)
        (.of_wellSorted he rfl)
      exact hd.eval

/-- `10 / x[0]` -/
def tenByByte : Expr :=
  .arith .udiv (.constant ⟨8, 10⟩) (.read CreateCall.symbolicByte .null (.constant ⟨32, 0⟩))

/-- `0 == x[0]` -/
def byteIsNull : Expr :=
  .eq (.constant ⟨8, 0⟩) (.read CreateCall.symbolicByte .null (.constant ⟨32, 0⟩))

theorem wellSorted_tenByByte : tenByByte.WellSorted := by
  simp [tenByByte, Expr.WellSorted, UpdateNode.WellSorted, Expr.width, Array.getRange]

/-- Where `x[0]` is 1 the division is folded to 10. -/
theorem simplifyExpr_preserves_byteEq :
    ∃ e', runSimplifyExpr true [byteEq] tenByByte = some e' ∧ e'.width = tenByByte.width ∧
      ∀ σ, Satisfies σ [byteEq] → e'.eval σ tenByByte.width = tenByByte.eval σ tenByByte.width := by
  refine (simplifyExpr_preserves_iff true [byteEq] tenByByte ?_ wellSorted_tenByByte).mpr fun h => ?_
  · intro c hc
    rw [List.mem_singleton.mp hc]
    exact isBool_byteEq
  · have hrun : runSimplifyExpr true [byteEq] tenByByte ≠ none := by decide +kernel
    exact hrun (runSimplifyExpr_none h)

/-- Where `x[0]` is 0 the simplification divides by zero. -/
theorem not_simplifyExpr_preserves : ¬ ∀ (cs : List Expr) (e : Expr), (∀ c ∈ cs, c.IsBool) →
    e.WellSorted → ∃ e', runSimplifyExpr true cs e = some e' ∧
      ∀ σ, Satisfies σ cs → e'.eval σ e.width = e.eval σ e.width := by
  intro h
  obtain ⟨e', hrun, -⟩ := h [byteIsNull] tenByByte (fun c hc => by
    rw [List.mem_singleton.mp hc]
    simp [byteIsNull, Expr.IsBool, Expr.WellSorted, UpdateNode.WellSorted, Expr.width,
      Array.getRange]) wellSorted_tenByByte
  have hnone : runSimplifyExpr true [byteIsNull] tenByByte = none := by decide +kernel
  rw [hnone] at hrun
  cases hrun

end ConstraintManager

end Klee
