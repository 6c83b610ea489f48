import Klee.Expr.CreateSpec
import Klee.Expr.BuilderStacks
import Klee.Expr.FindReads

/-! Reads that skip updates. `ReadExpr::create` and the builders drop the updates that provably do
not matter, and the value stays that of the read over the whole list. -/
namespace Klee

open Fuel

/-- The update list is well sorted, and the index has the width of its domain. -/
structure ReadExpr.WellSorted (r : ReadExpr) : Prop where
  head : r.updates.head.WellSorted
  index : r.index.WellSorted
  width : r.index.width = r.updates.root.getDomain

def ReadExpr.full (r : ReadExpr) : Expr := .read r.updates.root r.updates.head r.index

theorem ReadExpr.WellSorted.full {r : ReadExpr} (h : r.WellSorted) : r.full.WellSorted :=
  ⟨h.head, h.index, h.width⟩

/-- The builder returns for every read, with the value of the read over the full list. -/
theorem BuilderStack.read_sound (st : BuilderStack) {r : ReadExpr} (h : r.WellSorted) :
    ∃ e, Ends (fun n => (st.builder n).read r.updates r.index) e ∧ e.WellSorted ∧ e.width = 8 ∧
      ∀ σ, e.eval σ 8 = r.full.eval σ 8 := by
  obtain ⟨e, hends, he⟩ :=
    st.builder_right (s := none) (Denotes.self h.full fun _ _ h => by cases h)
  refine ⟨e, hends, he.wellSorted, he.width_eq, fun σ => ?_⟩
  obtain ⟨e', hends', he'⟩ :=
    st.builder_right (s := some σ) (Denotes.self h.full fun _ _ h => by cases h)
  rw [hends.unique hends']
  exact he'.eval_eq σ rfl

section Create

variable [ExprOptions]

theorem ReadExpr.create_self {s : Option Assignment} {r : ReadExpr} (h : r.WellSorted)
    (hb : ∀ σ ∈ s, constArrayOpt = true → r.full.ConstReadsInBounds σ) :
    Denotes s (ReadExpr.create r.updates r.index) 8 (s.elim 0 fun σ => r.full.eval σ 8) :=
  ReadExpr.create_denotes (Denotes.self_at (s := s) h.full rfl hb)

/-- `ReadExpr::create` and the `Read` of each builder return an expression of the type of the
read over the full list, with its value. With `-const-array-opt` the first one keeps the value
under the assignments that read constant arrays within their bounds. -/
theorem ReadExpr.create_reads_full (r : ReadExpr) (h : r.WellSorted) :
    ((ReadExpr.create r.updates r.index).WellSorted ∧
      (ReadExpr.create r.updates r.index).width = 8 ∧
      ∀ σ, (constArrayOpt = true → r.full.ConstReadsInBounds σ) →
        (ReadExpr.create r.updates r.index).eval σ 8 = r.full.eval σ 8) ∧
    ∀ st : BuilderStack, ∃ e, Ends (fun n => (st.builder n).read r.updates r.index) e ∧
      e.WellSorted ∧ e.width = 8 ∧ ∀ σ, e.eval σ 8 = r.full.eval σ 8 := by
  have htype := ReadExpr.create_self (s := none) h fun _ hσ => by cases hσ
  refine ⟨⟨htype.wellSorted, htype.width_eq, fun σ hb => ?_⟩, fun st => st.read_sound h⟩
  refine (ReadExpr.create_self (s := some σ) h ?_).eval_eq σ rfl
  rintro _ ⟨⟩
  exact hb

end Create

section PastEnd

/-- `x[0]`, after the write of 7 at the index that the constant array holds at `x[0]`. -/
def constantIndex : ReadExpr where
  updates := ⟨CreateCall.symbolicByte, .node .null
    (.zext (.read CreateCall.oneByte .null
      (.zext (.read CreateCall.symbolicByte .null (.constant ⟨32, 0⟩)) 32)) 32)
    (.constant ⟨8, 7⟩)⟩
  index := .constant ⟨32, 0⟩

theorem wellSorted_constantIndex : constantIndex.WellSorted := by
  constructor
  · simp [constantIndex, UpdateNode.WellSorted, Expr.WellSorted, Expr.width, Array.getRange]
  · simp [constantIndex, Expr.WellSorted]
  · rfl

/-- With the index in bounds the update is skipped. -/
theorem ReadExpr.create_reads_full_constantIndex :
    (@ReadExpr.create ⟨true⟩ constantIndex.updates constantIndex.index).eval (fun _ _ => 0) 8 =
      constantIndex.full.eval (fun _ _ => 0) 8 := by
  refine (@ReadExpr.create_reads_full ⟨true⟩ constantIndex wellSorted_constantIndex).1.2.2 _ fun _ => ?_
  simp only [constantIndex, ReadExpr.full, Expr.ConstReadsInBounds,
    UpdateNode.ConstReadsInBounds, true_and, and_true]
  decide

/-- With `-const-array-opt` an update is skipped whose index is read past the end of a constant
array: the value 0 that it has is not found in the array. -/
theorem ReadExpr.not_create_reads_full :
    ¬ ∀ (_o : ExprOptions) (r : ReadExpr), r.WellSorted →
      ∀ σ, (ReadExpr.create r.updates r.index).eval σ 8 = r.full.eval σ 8 := by
  intro h
  have heval := h ⟨true⟩ constantIndex wellSorted_constantIndex fun _ _ => 5
  revert heval
  decide

end PastEnd

end Klee
