import Klee.Solver.IndependentSolverSound

/-! The factors of a query: they partition the constraints and share no byte. -/
namespace Klee

open IndependentElementSet

namespace IndependentElementSet

variable {a b f g : IndependentElementSet} {e : Expr}

def Disjoint (a b : IndependentElementSet) : Prop := ∀ p, a.Has p → ¬ b.Has p

/-- What holds of every factor: it covers its expressions, and an expression that reads
nothing is alone in a factor that covers nothing. -/
structure IsFactor (f : IndependentElementSet) : Prop where
  covers : ∀ e ∈ f.exprs, f.Covers e
  reads : (∃ p, f.Has p) → ∀ e ∈ f.exprs, ∃ p, (ofExpr e).Has p
  elements : ∀ p ∈ f.elements, ∃ e ∈ f.exprs, p ∈ (ofExpr e).elements
  nonempty : f.exprs ≠ []

theorem isFactor_ofExpr (e : Expr) : (ofExpr e).IsFactor where
  covers x hx := by
    rw [exprs_ofExpr, List.mem_singleton] at hx
    exact hx ▸ fun _ hp => hp
  reads h x hx := by
    rw [exprs_ofExpr, List.mem_singleton] at hx
    exact hx ▸ h
  elements p hp := ⟨e, by rw [exprs_ofExpr]; exact List.mem_singleton_self e, hp⟩
  nonempty := by
    rw [exprs_ofExpr]
    exact List.cons_ne_nil e []

theorem IsFactor.add (ha : a.IsFactor) (hb : b.IsFactor) (h : a.intersects b = true) :
    (a.add b).1.IsFactor := by
  obtain ⟨hha, hhb⟩ := exists_has_of_intersects h
  refine ⟨fun e he => ?_, fun _ e he => ?_, fun p hp => ?_, ?_⟩
  · rw [exprs_add] at he
    rcases List.mem_append.mp he with he | he
    · exact fun p hp => has_add.mpr (.inl (ha.covers e he p hp))
    · exact fun p hp => has_add.mpr (.inr (hb.covers e he p hp))
  · rw [exprs_add] at he
    rcases List.mem_append.mp he with he | he
    · exact ha.reads hha e he
    · exact hb.reads hhb e he
  · rw [exprs_add]
    rcases mem_elements_add hp with hp | hp
    · obtain ⟨e, he, hpe⟩ := ha.elements p hp
      exact ⟨e, List.mem_append_left _ he, hpe⟩
    · obtain ⟨e, he, hpe⟩ := hb.elements p hp
      exact ⟨e, List.mem_append_right _ he, hpe⟩
  · rw [exprs_add]
    exact List.append_ne_nil_of_left_ne_nil ha.nonempty _

theorem arrays_eq_nil_iff : f.arrays = [] ↔ ¬ ∃ p, f.Has p := by
  rw [List.eq_nil_iff_forall_not_mem]
  constructor
  · rintro h ⟨p, hp⟩
    exact h p.1 (mem_arrays.mpr ⟨p.2, hp⟩)
  · rintro h array harray
    obtain ⟨i, hi⟩ := mem_arrays.mp harray
    exact h ⟨_, hi⟩

/-- An expression reads some byte if and only if its factor does. -/
theorem IsFactor.arrays_eq_nil_iff (hf : f.IsFactor) (he : e ∈ f.exprs) :
    (ofExpr e).arrays = [] ↔ f.arrays = [] := by
  rw [IndependentElementSet.arrays_eq_nil_iff, IndependentElementSet.arrays_eq_nil_iff, not_iff_not]
  constructor
  · rintro ⟨p, hp⟩
    exact ⟨p, hf.covers e he p hp⟩
  · exact fun h => hf.reads h e he

end IndependentElementSet

section Merge

variable {current : IndependentElementSet} {factors : List IndependentElementSet}

theorem absorb_isFactor (hcurrent : current.IsFactor) (hfactors : ∀ f ∈ factors, f.IsFactor) :
    (absorb current factors).1.IsFactor ∧ ∀ f ∈ (absorb current factors).2.1, f.IsFactor := by
  induction factors generalizing current with
  | nil => exact ⟨hcurrent, hfactors⟩
  | cons compare factors ih =>
    have hcompare := hfactors compare List.mem_cons_self
    have hrest := fun f hf => hfactors f (List.mem_cons_of_mem compare hf)
    unfold absorb
    split
    case isTrue hint => exact ih (hcurrent.add hcompare hint) hrest
    case isFalse =>
      obtain ⟨h1, h2⟩ := ih hcurrent hrest
      exact ⟨h1, List.forall_mem_cons.mpr ⟨hcompare, h2⟩⟩

theorem absorb_perm : ((absorb current factors).1.exprs ++
    (absorb current factors).2.1.flatMap (·.exprs)).Perm
      (current.exprs ++ factors.flatMap (·.exprs)) := by
  induction factors generalizing current with
  | nil => exact .refl _
  | cons compare factors ih =>
    unfold absorb
    split
    · refine ih.trans ?_
      rw [exprs_add, List.flatMap_cons, List.append_assoc]
    · simp only [List.flatMap_cons]
      refine (List.perm_append_comm_assoc _ _ _).trans ?_
      exact (ih.append_left _).trans (List.perm_append_comm_assoc _ _ _)

theorem mem_of_mem_absorb {f : IndependentElementSet} (h : f ∈ (absorb current factors).2.1) :
    f ∈ factors := by
  induction factors generalizing current with
  | nil => exact h
  | cons compare factors ih =>
    unfold absorb at h
    split at h
    · exact List.mem_cons_of_mem _ (ih h)
    · rcases List.mem_cons.mp h with rfl | h
      · exact List.mem_cons_self
      · exact List.mem_cons_of_mem _ (ih h)

/-- A round of the inner loop without changes has compared `current` with all it keeps. -/
theorem absorb_unmodified (h : (absorb current factors).2.2 = false) :
    (∀ p, (absorb current factors).1.Has p ↔ current.Has p) ∧
      ∀ f ∈ (absorb current factors).2.1, current.Disjoint f := by
  induction factors generalizing current with
  | nil => exact ⟨fun _ => Iff.rfl, fun _ hf => by cases hf⟩
  | cons compare factors ih =>
    unfold absorb at h ⊢
    split at h
    case isTrue hint =>
      rw [if_pos hint]
      obtain ⟨hadd, hrest⟩ := Bool.or_eq_false_iff.mp h
      have hsame := add_unmodified hadd
      obtain ⟨hhas, hkeep⟩ := ih hrest
      simp only [hsame] at hhas hkeep ⊢
      exact ⟨hhas, hkeep⟩
    case isFalse hint =>
      rw [if_neg hint]
      obtain ⟨hhas, hkeep⟩ := ih h
      refine ⟨hhas, List.forall_mem_cons.mpr ⟨fun p hp => ?_, hkeep⟩⟩
      exact intersects_eq_false (by simpa using hint) hp

theorem mergeRound_isFactor (hfactors : ∀ f ∈ factors, f.IsFactor) :
    ∀ f ∈ (mergeRound factors).1, f.IsFactor := by
  induction factors using mergeRound.induct with
  | case1 => simp [mergeRound]
  | case2 current factors r ih =>
    obtain ⟨hcurrent, hrest⟩ := List.forall_mem_cons.mp hfactors
    obtain ⟨hmerged, hkeep⟩ := absorb_isFactor hcurrent hrest
    rw [mergeRound]
    exact List.forall_mem_cons.mpr ⟨hmerged, ih hkeep⟩

theorem mergeRound_perm :
    ((mergeRound factors).1.flatMap (·.exprs)).Perm (factors.flatMap (·.exprs)) := by
  induction factors using mergeRound.induct with
  | case1 => simp [mergeRound]
  | case2 current factors r ih =>
    rw [mergeRound, List.flatMap_cons, List.flatMap_cons]
    exact (ih.append_left _).trans absorb_perm

/-- A round without changes leaves factors that share no byte. -/
theorem mergeRound_unmodified (h : (mergeRound factors).2 = false) :
    (mergeRound factors).1.Pairwise Disjoint ∧
      ∀ f ∈ (mergeRound factors).1, ∃ g ∈ factors, ∀ p, f.Has p ↔ g.Has p := by
  induction factors using mergeRound.induct with
  | case1 => simp [mergeRound]
  | case2 current factors r ih =>
    rw [mergeRound] at h ⊢
    obtain ⟨habsorb, hrest⟩ := Bool.or_eq_false_iff.mp h
    obtain ⟨hhas, hkeep⟩ := absorb_unmodified habsorb
    obtain ⟨hpair, hold⟩ := ih hrest
    refine ⟨List.pairwise_cons.mpr ⟨fun f hf p hp => ?_, hpair⟩, fun f hf => ?_⟩
    · obtain ⟨g, hg, hfg⟩ := hold f hf
      rw [hfg]
      exact hkeep g hg p ((hhas p).mp hp)
    · rcases List.mem_cons.mp hf with rfl | hf
      · exact ⟨current, List.mem_cons_self, hhas⟩
      · obtain ⟨g, hg, hfg⟩ := hold f hf
        exact ⟨g, List.mem_cons_of_mem _ (mem_of_mem_absorb hg), hfg⟩

/-- The factors hold the same expressions as before the merges, each with its own bytes. -/
theorem mergeFactors_spec (hfactors : ∀ f ∈ factors, f.IsFactor) :
    (∀ f ∈ mergeFactors factors, f.IsFactor) ∧
      ((mergeFactors factors).flatMap (·.exprs)).Perm (factors.flatMap (·.exprs)) ∧
      (mergeFactors factors).Pairwise Disjoint := by
  induction factors using mergeFactors.induct with
  | case1 factors h ih =>
    rw [mergeFactors, if_pos h]
    obtain ⟨hfac, hperm, hpair⟩ := ih (mergeRound_isFactor hfactors)
    exact ⟨hfac, hperm.trans mergeRound_perm, hpair⟩
  | case2 factors h =>
    rw [mergeFactors, if_neg h]
    exact ⟨mergeRound_isFactor hfactors, mergeRound_perm,
      (mergeRound_unmodified (by simpa using h)).1⟩

theorem flatMap_exprs_ofExpr (es : List Expr) : (es.map ofExpr).flatMap (·.exprs) = es := by
  induction es with
  | nil => rfl
  | cons e es ih => rw [List.map_cons, List.flatMap_cons, exprs_ofExpr, ih, List.singleton_append]

/-- What has to hold together: the constraints and the negated query, unless that is the
constant true. -/
def Query.goals (query : Query) : List Expr :=
  match query.expr with
  | .constant _ => query.constraints
  | e => e.createIsZero :: query.constraints

def Query.Answerable (query : Query) : Prop := ∀ c, query.expr = .constant c → c.isFalse = true

def ReadExpr.InRange (re : ReadExpr) : Prop :=
  ∀ c, re.index = .constant c → (c.value.setWidth 32).toNat < re.updates.root.size

def Query.InRange (query : Query) : Prop :=
  (∀ e ∈ query.constraints, e.AllReads ReadExpr.InRange) ∧ query.expr.AllReads ReadExpr.InRange

theorem Query.InRange.elements {query : Query} (h : query.InRange) :
    ∀ e ∈ query.goals, ∀ p ∈ (ofExpr e).elements, p.2 < p.1.size := by
  have hgoals : ∀ e ∈ query.goals, e.AllReads ReadExpr.InRange := by
    intro e he
    unfold Query.goals at he
    split at he
    · exact h.1 e he
    · rcases List.mem_cons.mp he with rfl | he
      · exact h.2.createIsZero
      · exact h.1 e he
  intro e he p hp
  obtain ⟨re, hre, c, hc, rfl⟩ := exists_read_of_mem_elements hp
  exact (hgoals e he).of_mem_findReads hre c hc

theorem Query.solves_iff_goals {query : Query} {σ : Assignment} (hquery : query.WellTyped)
    (h : query.Answerable) : query.Solves σ ↔ Satisfies σ query.goals := by
  obtain ⟨constraints, e⟩ := query
  have hneg : e.createIsZero.Holds σ ↔ ¬ e.Holds σ := by
    have hd := Expr.createIsZero_denotes (hquery.2.denotes σ)
    rw [hd.holds_iff, Expr.Holds, BitVec.ofBool_eq_one, beq_iff_eq]
    rcases BitVec.eq_zero_or_eq_one (e.eval σ 1) with h0 | h1
    · simp [h0]
    · simp [h1]
  cases e with
  | constant c =>
    have hfalse : ¬ (Expr.constant c).Holds σ := by
      rw [Expr.holds_constant_iff hquery.2]
      have hc := h c rfl
      simp_all [ConstantExpr.isTrue, ConstantExpr.isFalse]
    exact ⟨And.left, fun hσ => ⟨hσ, hfalse⟩⟩
  | _ =>
    rw [Query.goals, satisfies_cons, hneg]
    exact And.comm

theorem getAllIndependentConstraintsSets_eq {query : Query} (h : query.Answerable) :
    getAllIndependentConstraintsSets query = some (mergeFactors (query.goals.map ofExpr)) := by
  obtain ⟨constraints, e⟩ := query
  cases e with
  | constant c => exact if_pos (h c rfl)
  | _ => rfl

/-- The factors partition the constraints and share no byte. -/
theorem factors_spec (query : Query) :
    (∀ f ∈ mergeFactors (query.goals.map ofExpr), f.IsFactor) ∧
      ((mergeFactors (query.goals.map ofExpr)).flatMap (·.exprs)).Perm query.goals ∧
      (mergeFactors (query.goals.map ofExpr)).Pairwise Disjoint := by
  have hgoals : ∀ f ∈ query.goals.map ofExpr, f.IsFactor := by
    intro f hf
    obtain ⟨e, -, rfl⟩ := List.mem_map.mp hf
    exact isFactor_ofExpr e
  have h := mergeFactors_spec hgoals
  rwa [flatMap_exprs_ofExpr] at h

end Merge

end Klee
