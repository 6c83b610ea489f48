import Klee.Expr.CreateSpec

/-! Boolean expressions as constraints on the symbolic arrays. The switches of the
expression library have their default values from here on. -/
namespace Klee

instance : ExprOptions where

namespace Expr

/-- An expression of type `Bool`. -/
def IsBool (e : Expr) : Prop := e.WellSorted ∧ e.width = 1

/-- The Boolean `e` is true under `σ`. -/
def Holds (σ : Assignment) (e : Expr) : Prop := e.eval σ 1 = 1#1

instance (σ : Assignment) (e : Expr) : Decidable (e.Holds σ) :=
  inferInstanceAs (Decidable (_ = _))

end Expr

def Satisfies (σ : Assignment) (cs : List Expr) : Prop := ∀ c ∈ cs, c.Holds σ

@[simp] theorem satisfies_nil (σ : Assignment) : Satisfies σ [] := by simp [Satisfies]

@[simp] theorem satisfies_cons (σ : Assignment) (c : Expr) (cs : List Expr) :
    Satisfies σ (c :: cs) ↔ c.Holds σ ∧ Satisfies σ cs := by simp [Satisfies]

@[simp] theorem satisfies_append (σ : Assignment) (cs ds : List Expr) :
    Satisfies σ (cs ++ ds) ↔ Satisfies σ cs ∧ Satisfies σ ds := by
  simp [Satisfies, or_imp, forall_and]

theorem satisfies_singleton (σ : Assignment) (c : Expr) :
    Satisfies σ [c] ↔ c.Holds σ := by simp

section Denotes

variable {s : Option Assignment} {σ : Assignment} {e l r : Expr} {w : Nat} {x : BitVec w}

/-- With the default switches a well-sorted expression denotes its value. -/
theorem Denotes.of_wellSorted (h : e.WellSorted) (hw : e.width = w) :
    Denotes (some σ) e w (e.eval σ w) :=
  Denotes.self_at h hw fun _ _ ho => by cases ho

theorem Denotes.of_wellSorted_none (h : e.WellSorted) (hw : e.width = w) :
    Denotes none e w 0 :=
  Denotes.self_at h hw fun _ hσ => by cases hσ

theorem Denotes.eval (h : Denotes (some σ) e w x) : e.eval σ w = x := h.eval_eq σ rfl

theorem Denotes.isBool {x : BitVec 1} (h : Denotes s e 1 x) : e.IsBool := ⟨h.wellSorted, h.width_eq⟩

theorem Expr.IsBool.denotes (h : e.IsBool) (σ : Assignment) :
    Denotes (some σ) e 1 (e.eval σ 1) := .of_wellSorted h.1 h.2

theorem Expr.IsBool.denotes_none (h : e.IsBool) : Denotes none e 1 0 := .of_wellSorted_none h.1 h.2

/-- A property of all `Denotes` facts about `e` and `e'` holds of their types. -/
theorem Expr.IsBool.of_denotes {e' : Expr} (h : e.IsBool)
    (hd : ∀ {x : BitVec 1}, Denotes none e 1 x → Denotes none e' 1 x) : e'.IsBool :=
  (hd h.denotes_none).isBool

theorem Denotes.holds_iff {x : BitVec 1} (h : Denotes (some σ) e 1 x) : e.Holds σ ↔ x = 1#1 := by
  rw [Expr.Holds, h.eval]

end Denotes

namespace Expr

variable {σ : Assignment} {l r : Expr}

theorem isBool_and_iff : (and l r).IsBool ↔ l.IsBool ∧ r.IsBool := by
  constructor
  · rintro ⟨⟨hl, hr, hw⟩, h1⟩
    exact ⟨⟨hl, h1⟩, hr, hw.trans h1⟩
  · rintro ⟨⟨hl, h1⟩, hr, h1'⟩
    exact ⟨⟨hl, hr, h1'.trans h1.symm⟩, h1⟩

theorem holds_and_iff : (and l r).Holds σ ↔ l.Holds σ ∧ r.Holds σ := by
  rw [Holds, Holds, Holds, eval]
  exact BitVec.and_eq_one_iff _ _

theorem holds_eq_iff : (eq l r).Holds σ ↔ l.eval σ l.width = r.eval σ l.width := by
  rw [Holds, eval, BitVec.setWidth_eq, BitVec.ofBool_eq_one]
  exact beq_iff_eq

theorem holds_constant_iff {c : ConstantExpr} (h : (constant c).IsBool) :
    (constant c).Holds σ ↔ c.isTrue = true := by
  obtain ⟨w, v⟩ := c
  obtain rfl : w = 1 := h.2
  rw [Holds, eval, BitVec.setWidth_eq]
  simp [ConstantExpr.isTrue, BitVec.ne_zero_iff_eq_one]

end Expr

end Klee
