import Klee.Expr.Truth

/-! Queries, and what a solver owes for its answers. -/
namespace Klee

structure Query where
  constraints : List Expr
  expr : Expr

inductive Validity where
  | true
  | false
  | unknown
deriving DecidableEq, Repr

/-- A solver. The answer `none` is a failed call (`return false`); the initial values are
`none` without a solution, else the bytes of each object. -/
structure SolverImpl where
  computeTruth : Query → Option Bool
  computeValidity : Query → Option Validity
  computeInitialValues : Query → List Array → Option (Option (List (List (BitVec 8))))

namespace Query

def withExpr (q : Query) (e : Expr) : Query := { q with expr := e }
def withFalse (q : Query) : Query := q.withExpr (.constant (.alloc 0 1))
def negateExpr (q : Query) : Query := q.withExpr q.expr.createIsZero

def WellTyped (q : Query) : Prop := (∀ c ∈ q.constraints, c.IsBool) ∧ q.expr.IsBool

def Valid (q : Query) : Prop := ∀ σ, Satisfies σ q.constraints → q.expr.Holds σ

def Refuted (q : Query) : Prop := ∀ σ, Satisfies σ q.constraints → ¬ q.expr.Holds σ

def Solves (q : Query) (σ : Assignment) : Prop :=
  Satisfies σ q.constraints ∧ ¬ q.expr.Holds σ

theorem not_valid_iff {q : Query} : ¬ q.Valid ↔ ∃ σ, q.Solves σ := by
  simp [Valid, Solves]

theorem not_refuted_iff {q : Query} :
    ¬ q.Refuted ↔ ∃ σ, Satisfies σ q.constraints ∧ q.expr.Holds σ := by
  simp [Refuted]

theorem holds_false (σ : Assignment) : ¬ (Expr.constant (.alloc 0 1)).Holds σ := by
  simp [Expr.Holds, Expr.eval, ConstantExpr.alloc]

theorem withFalse_solves {q : Query} {σ : Assignment} :
    q.withFalse.Solves σ ↔ Satisfies σ q.constraints :=
  ⟨And.left, fun h => ⟨h, holds_false σ⟩⟩

end Query

/-- Each list of bytes is what `σ` gives to the object; a constant array may get any bytes. -/
def ValuesOf (σ : Assignment) (objects : List Array) (values : List (List (BitVec 8))) : Prop :=
  List.Forall₂ (fun a bytes => bytes.length = a.size ∧
    (a.isSymbolicArray = true → ∀ i < a.size, bytes.getD i 0 = σ a i)) objects values

namespace SolverImpl

/-- The answer to `computeInitialValues` is right. -/
def InitialValuesCorrect (s : SolverImpl) (q : Query) (objects : List Array) : Prop :=
  match s.computeInitialValues q objects with
  | none => False
  | some none => ∀ σ, ¬ q.Solves σ
  | some (some values) => ∃ σ, q.Solves σ ∧ ValuesOf σ objects values

/-- The answer to `computeTruth` is right. -/
def TruthCorrect (s : SolverImpl) (q : Query) : Prop :=
  ∃ b, s.computeTruth q = some b ∧ (b = true ↔ q.Valid)

/-- The answer to `computeValidity` is right. -/
def ValidityCorrect (s : SolverImpl) (q : Query) : Prop :=
  match s.computeValidity q with
  | none => False
  | some .true => q.Valid
  | some .false => ¬ q.Valid ∧ q.Refuted
  | some .unknown => ¬ q.Valid ∧ ¬ q.Refuted

variable {s : SolverImpl} {q r : Query}

/-- Correct answers to queries of the same validity are the same. -/
theorem TruthCorrect.eq (hq : s.TruthCorrect q) (hr : s.TruthCorrect r)
    (hvalid : q.Valid ↔ r.Valid) : s.computeTruth q = s.computeTruth r := by
  obtain ⟨b, hb, hbq⟩ := hq
  obtain ⟨b', hb', hbr⟩ := hr
  have hbb : b = true ↔ b' = true := hbq.trans (hvalid.trans hbr.symm)
  rw [hb, hb', Bool.eq_iff_iff.mpr hbb]

theorem ValidityCorrect.eq (hq : s.ValidityCorrect q) (hr : s.ValidityCorrect r)
    (hvalid : q.Valid ↔ r.Valid) (hrefuted : q.Refuted ↔ r.Refuted) :
    s.computeValidity q = s.computeValidity r := by
  unfold ValidityCorrect at hq hr
  rw [hvalid, hrefuted] at hq
  cases h : s.computeValidity q with
  | none => rw [h] at hq; exact hq.elim
  | some v =>
    cases h' : s.computeValidity r with
    | none => rw [h'] at hr; exact hr.elim
    | some v' =>
      rw [h] at hq
      rw [h'] at hr
      cases v <;> cases v' <;> simp_all

section Ideal

open Classical

noncomputable def ideal : SolverImpl where
  computeTruth q := some (decide q.Valid)
  computeValidity q :=
    some (if q.Valid then .true else if q.Refuted then .false else .unknown)
  computeInitialValues q objects :=
    if h : ∃ σ, q.Solves σ then
      some (some (objects.map fun a => (List.range a.size).map (h.choose a)))
    else some none

theorem truthCorrect_ideal (q : Query) : ideal.TruthCorrect q :=
  ⟨decide q.Valid, rfl, decide_eq_true_iff⟩

theorem validityCorrect_ideal (q : Query) : ideal.ValidityCorrect q := by
  unfold ValidityCorrect ideal
  by_cases hv : q.Valid
  · simp [hv]
  · by_cases hr : q.Refuted <;> simp [hv, hr]

theorem valuesOf_map_range (σ : Assignment) (objects : List Array) :
    ValuesOf σ objects (objects.map fun a => (List.range a.size).map (σ a)) := by
  unfold ValuesOf
  rw [List.forall₂_map_right_iff, List.forall₂_same]
  intro a _
  refine ⟨by simp, fun _ i hi => by simp [hi]⟩

theorem initialValuesCorrect_ideal (q : Query) (objects : List Array) :
    ideal.InitialValuesCorrect q objects := by
  unfold InitialValuesCorrect ideal
  by_cases h : ∃ σ, q.Solves σ
  · simp only [dif_pos h]
    exact ⟨h.choose, h.choose_spec, valuesOf_map_range _ _⟩
  · simp only [dif_neg h]
    exact fun σ hσ => h ⟨σ, hσ⟩

end Ideal

end SolverImpl

section Bytes

def twoBytes : Array := .symbolic 0 "x" 2

/-- `v == x[i]` -/
def byteIs (v : BitVec 8) (i : Nat) : Expr :=
  .eq (.constant ⟨8, v⟩) (.read twoBytes .null (.constant ⟨32, BitVec.ofNat 32 i⟩))

theorem isBool_byteIs (v : BitVec 8) (i : Nat) : (byteIs v i).IsBool := by
  simp [byteIs, Expr.IsBool, Expr.WellSorted, UpdateNode.WellSorted, Expr.width, Array.getRange]

end Bytes

end Klee
