import Klee.Core.ForkPartition
import Klee.Expr.SymbolicObjects

/-! `getSymbolicSolution`: the bytes of a test case. They satisfy the constraints of the state and
every preferred condition that could be added to these. -/
namespace Klee

/-- What a test case needs of an element of `symbolics`. -/
structure SymbolicObject where
  name : String
  cexPreferences : List Expr
  array : Array

namespace TimingSolver

/-- `getInitialValues`, with the query that has no goal. A query without a solution fails. -/
def getInitialValues (t : TimingSolver) (cs : List Expr) (objects : List Array) :
    Option (List (List (BitVec 8))) :=
  if objects = [] then some []
  else (t.computeInitialValues ⟨cs, .constant (.alloc 0 1)⟩ objects).join

end TimingSolver

namespace Executor

variable (o : ExecutorOptions)

section Preferences

/-- The constraints of `tmp`, with what was decided on the conditions so far: `true` for one that
was added. The loops are left when a query fails. -/
structure Preferences where
  constraints : List Expr
  decisions : List (Expr × Bool)
  complete : Bool

def accepted (decisions : List (Expr × Bool)) : List Expr := (decisions.filter (·.2)).map (·.1)

def preferConditions : Preferences → List Expr → Except ExecutorFault Preferences
  | p, [] => pure p
  | p, condition :: rest =>
    match o.solver.mustBeTrue p.constraints condition.createIsZero with
    | none => pure { p with complete := false }
    | some true =>
      preferConditions { p with decisions := p.decisions ++ [(condition, false)] } rest
    | some false =>
      match ConstraintManager.addConstraint o.rewriteEqualities p.constraints condition with
      | none => throw .unsatisfiable
      | some cs => preferConditions
          { p with constraints := cs, decisions := p.decisions ++ [(condition, true)] } rest

def preferObjects : Preferences → List SymbolicObject → Except ExecutorFault Preferences
  | p, [] => pure p
  | p, object :: rest => do
    let p ← preferConditions o p object.cexPreferences
    if p.complete then preferObjects p rest else pure p

end Preferences

/-- `getSymbolicSolution` in a state with the constraints `cs`; `none` for `false`. -/
def getSymbolicSolution (cs : List Expr) (symbolics : List SymbolicObject) :
    Except ExecutorFault (Option (List (String × List (BitVec 8)))) := do
  let tmp ← preferObjects o ⟨cs, [], true⟩ symbolics
  let values := o.solver.getInitialValues tmp.constraints (symbolics.map (·.array))
  pure (values.map ((symbolics.map (·.name)).zip ·))

/-- `tmp` after decisions on some conditions: satisfiable, with the constraints of the state and
the accepted conditions, which leave no rejected one possible. -/
structure Preferences.Greedy (cs : List Expr) (p : Preferences) : Prop where
  complete : p.complete = true
  isBool : ∀ c ∈ p.constraints, c.IsBool
  sat : ∃ σ, Satisfies σ p.constraints
  satisfies : ∀ σ, Satisfies σ p.constraints ↔ Satisfies σ cs ∧ Satisfies σ (accepted p.decisions)
  rejected : ∀ before condition after, p.decisions = before ++ (condition, false) :: after →
    ∀ σ, Satisfies σ cs → Satisfies σ (accepted before) → ¬ condition.Holds σ

variable {o} {cs : List Expr} {p : Preferences} {condition : Expr}

section Decisions

theorem accepted_append (ds : List (Expr × Bool)) (b : Bool) :
    accepted (ds ++ [(condition, b)]) = accepted ds ++ if b then [condition] else [] := by
  cases b <;> simp [accepted]

/-- Where a rejected condition stands after one more decision. -/
theorem append_singleton_eq {ds before after : List (Expr × Bool)} {d : Expr × Bool} {b : Bool}
    (h : ds ++ [(condition, b)] = before ++ d :: after) :
    (∃ after', ds = before ++ d :: after') ∨ ds = before ∧ d = (condition, b) := by
  rcases List.eq_nil_or_concat after with rfl | ⟨after', last, rfl⟩
  · obtain ⟨hds, hd⟩ := List.append_inj' h rfl
    exact .inr ⟨hds, (List.singleton_inj.mp hd).symm⟩
  · rw [List.concat_eq_append, ← List.cons_append, ← List.append_assoc] at h
    exact .inl ⟨after', (List.append_inj' h rfl).1⟩

/-- A condition that the constraints of `tmp` refute. -/
theorem Preferences.Greedy.reject (h : p.Greedy cs)
    (hrefuted : ∀ σ, Satisfies σ p.constraints → ¬ condition.Holds σ) :
    ({ p with decisions := p.decisions ++ [(condition, false)] } : Preferences).Greedy cs where
  complete := h.complete
  isBool := h.isBool
  sat := h.sat
  satisfies σ := by
    rw [accepted_append, if_neg Bool.false_ne_true, List.append_nil]
    exact h.satisfies σ
  rejected before c after hdecisions σ hσ haccepted := by
    rcases append_singleton_eq hdecisions with ⟨after', hp⟩ | ⟨hp, hc⟩
    · exact h.rejected before c after' hp σ hσ haccepted
    · obtain ⟨rfl, -⟩ := Prod.mk.inj hc
      exact hrefuted σ ((h.satisfies σ).mpr ⟨hσ, hp ▸ haccepted⟩)

/-- A condition that is possible under the constraints of `tmp`, and is added. -/
theorem Preferences.Greedy.accept (h : p.Greedy cs) {cs' : List Expr}
    (hbool : ∀ c ∈ cs', c.IsBool)
    (hadds : ∀ σ, Satisfies σ cs' ↔ Satisfies σ p.constraints ∧ condition.Holds σ)
    (hpossible : ∃ σ, Satisfies σ p.constraints ∧ condition.Holds σ) :
    ({ p with constraints := cs', decisions := p.decisions ++ [(condition, true)] } :
      Preferences).Greedy cs where
  complete := h.complete
  isBool := hbool
  sat := hpossible.imp fun σ hσ => (hadds σ).mpr hσ
  satisfies σ := by
    rw [accepted_append, if_pos rfl, satisfies_append, satisfies_singleton, ← and_assoc]
    exact (hadds σ).trans (and_congr_left' (h.satisfies σ))
  rejected before c after hdecisions := by
    rcases append_singleton_eq hdecisions with ⟨after', hp⟩ | ⟨-, hc⟩
    · exact h.rejected before c after' hp
    · exact absurd (Prod.mk.inj hc).2 Bool.false_ne_true

end Decisions

section Loops

variable {symbolics : List SymbolicObject}

theorem preferConditions_greedy (hsolver : o.solver.Correct) {conditions : List Expr}
    (hconditions : ∀ e ∈ conditions, e.IsBool) (h : p.Greedy cs) :
    ∃ p', preferConditions o p conditions = .ok p' ∧ p'.Greedy cs ∧
      p'.decisions.map (·.1) = p.decisions.map (·.1) ++ conditions := by
  induction conditions generalizing p with
  | nil => exact ⟨p, rfl, h, (List.append_nil _).symm⟩
  | cons condition rest ih =>
    have hrest := fun e he => hconditions e (List.mem_cons_of_mem _ he)
    have hcondition := hconditions condition List.mem_cons_self
    obtain ⟨b, hmust, hiff⟩ := hsolver.mustBeFalse h.isBool hcondition h.sat
    rw [TimingSolver.mustBeFalse] at hmust
    rw [preferConditions, hmust]
    cases b with
    | true =>
      obtain ⟨p', hrun, hp', hdecided⟩ := ih hrest (h.reject (hiff.mp rfl))
      exact ⟨p', hrun, hp', by simp [hdecided]⟩
    | false =>
      have hpossible : ∃ σ, Satisfies σ p.constraints ∧ condition.Holds σ := by
        by_contra hnone
        exact Bool.false_ne_true (hiff.mpr fun σ hσ hholds => hnone ⟨σ, hσ, hholds⟩)
      obtain ⟨cs', hadd, hbool, hadds⟩ :=
        Answers.addConstraint ⟨hsolver, h.isBool, hcondition, h.sat⟩ hpossible
      obtain ⟨p', hrun, hp', hdecided⟩ := ih hrest (h.accept hbool hadds hpossible)
      exact ⟨p', by rw [hadd]; exact hrun, hp', by simp [hdecided]⟩

theorem preferObjects_greedy (hsolver : o.solver.Correct)
    (hconditions : ∀ s ∈ symbolics, ∀ e ∈ s.cexPreferences, e.IsBool) (h : p.Greedy cs) :
    ∃ p', preferObjects o p symbolics = .ok p' ∧ p'.Greedy cs ∧
      p'.decisions.map (·.1) = p.decisions.map (·.1) ++ symbolics.flatMap (·.cexPreferences) := by
  induction symbolics generalizing p with
  | nil => exact ⟨p, rfl, h, by simp⟩
  | cons object rest ih =>
    obtain ⟨p₁, hrun₁, hp₁, hdecided₁⟩ :=
      preferConditions_greedy hsolver (hconditions object List.mem_cons_self) h
    obtain ⟨p', hrun, hp', hdecided⟩ :=
      ih (fun s hs => hconditions s (List.mem_cons_of_mem _ hs)) hp₁
    refine ⟨p', ?_, hp', by simp [hdecided, hdecided₁]⟩
    rw [preferObjects, hrun₁]
    exact (if_pos hp₁.complete).trans hrun

end Loops

section Values

/-- The bytes of satisfiable constraints. -/
theorem getInitialValues_spec {t : TimingSolver}
    (hvalues : ∀ q : Query, q.WellTyped → ∀ objects, t.InitialValuesCorrect q objects)
    (hcs : ∀ c ∈ cs, c.IsBool) (hsat : ∃ σ, Satisfies σ cs) (objects : List Array) :
    ∃ values, t.getInitialValues cs objects = some values ∧
      ∃ σ, Satisfies σ cs ∧ ValuesOf σ objects values := by
  unfold TimingSolver.getInitialValues
  by_cases hobjects : objects = []
  · subst hobjects
    exact ⟨[], if_pos rfl, hsat.imp fun σ hσ => ⟨hσ, .nil⟩⟩
  · rw [if_neg hobjects]
    have hfalse : (Expr.constant (.alloc 0 1)).IsBool := ⟨by simp [Expr.WellSorted], rfl⟩
    have hanswer := hvalues ⟨cs, .constant (.alloc 0 1)⟩ ⟨hcs, hfalse⟩ objects
    unfold SolverImpl.InitialValuesCorrect at hanswer
    split at hanswer
    · exact hanswer.elim
    · obtain ⟨σ, hσ⟩ := hsat
      exact absurd ⟨hσ, Query.holds_false σ⟩ (hanswer σ)
    · rename_i values hres
      obtain ⟨σ, hσ, hvalues⟩ := hanswer
      exact ⟨values, by rw [hres]; rfl, σ, hσ.1, hvalues⟩

/-- Assignments with the same bytes in the objects satisfy the same expressions over these. -/
theorem satisfies_of_valuesOf {σ τ : Assignment} {es : List Expr} {objects : List Array}
    {values : List (List (BitVec 8))} (hreads : findSymbolicObjects es ⊆ objects)
    (hσ : ValuesOf σ objects values) (hτ : ValuesOf τ objects values) (hsat : Satisfies σ es) :
    Satisfies τ es := by
  intro e he
  have heval := eval_congr_findSymbolicObjects (σ := τ) (τ := σ) he (fun a ha hsym i hi => ?_) 1
  · rw [Expr.Holds, heval]
    exact hsat e he
  · obtain ⟨n, hn, hget⟩ := List.mem_iff_getElem.mp (hreads ha)
    have hn' : n < values.length := hσ.length_eq ▸ hn
    have hbytes := (List.forall₂_iff_get.mp hσ).2 n hn hn'
    have hbytes' := (List.forall₂_iff_get.mp hτ).2 n hn hn'
    simp only [List.get_eq_getElem, hget] at hbytes hbytes'
    rw [← hbytes.2 hsym i hi, ← hbytes'.2 hsym i hi]

end Values

end Executor

end Klee
