import Klee.Expr.Sound.Structure

/-! The contract of the smart constructors: well-sorted operands give a well-sorted
expression of the operator's width and value. -/
namespace Klee

inductive CreateCall where
  | select (c t f : Expr)
  | concat (l r : Expr)
  | extract (e : Expr) (off w : Nat)
  | cast (k : CastKind) (e : Expr) (w : Nat)
  | not (e : Expr)
  | arith (k : ArithKind) (l r : Expr)
  | cmp (k : CmpKind) (l r : Expr)

namespace CreateCall

def WellSorted : CreateCall → Prop
  | select c t f => c.WellSorted ∧ c.width = 1 ∧ t.WellSorted ∧ f.WellSorted ∧ t.width = f.width
  | concat l r => l.WellSorted ∧ r.WellSorted
  | extract e off w => e.WellSorted ∧ 0 < w ∧ off + w ≤ e.width
  | cast _ e w => e.WellSorted ∧ 0 < w
  | not e => e.WellSorted
  | arith _ l r => l.WellSorted ∧ r.WellSorted ∧ l.width = r.width
  | cmp _ l r => l.WellSorted ∧ r.WellSorted ∧ l.width = r.width

def width : CreateCall → Nat
  | select _ t _ => t.width
  | concat l r => l.width + r.width
  | extract _ _ w => w
  | cast _ _ w => w
  | not e => e.width
  | arith _ l _ => l.width
  | cmp _ _ _ => 1

def value (σ : Assignment) : (c : CreateCall) → BitVec c.width
  | select c t f => if c.eval σ 1 = 1#1 then t.eval σ t.width else f.eval σ t.width
  | concat l r => l.eval σ l.width ++ r.eval σ r.width
  | extract e off w => (e.eval σ e.width).extractLsb' off w
  | cast k e w => k.denote (e.eval σ e.width) w
  | not e => ~~~ e.eval σ e.width
  | arith k l r => k.operator (l.eval σ l.width) (r.eval σ l.width)
  | cmp k l r => BitVec.ofBool (k.denote (l.eval σ l.width) (r.eval σ l.width))

def Defined (σ : Assignment) : CreateCall → Prop
  | arith k l r => k.Defined (r.eval σ l.width)
  | _ => True

def ConstReadsInBounds (σ : Assignment) : CreateCall → Prop
  | select c t f => c.ConstReadsInBounds σ ∧ t.ConstReadsInBounds σ ∧ f.ConstReadsInBounds σ
  | concat l r => l.ConstReadsInBounds σ ∧ r.ConstReadsInBounds σ
  | extract e _ _ => e.ConstReadsInBounds σ
  | cast _ e _ => e.ConstReadsInBounds σ
  | not e => e.ConstReadsInBounds σ
  | arith _ l r => l.ConstReadsInBounds σ ∧ r.ConstReadsInBounds σ
  | cmp _ l r => l.ConstReadsInBounds σ ∧ r.ConstReadsInBounds σ

variable [ExprOptions]

def create : CreateCall → Expr
  | select c t f => SelectExpr.create c t f
  | concat l r => ConcatExpr.create l r
  | extract e off w => ExtractExpr.create e off w
  | cast k e w => k.create e w
  | not e => NotExpr.create e
  | arith k l r => k.create l r
  | cmp k l r => k.create l r

theorem create_denotes {s : Option Assignment} (c : CreateCall) (h : c.WellSorted)
    (hd : ∀ σ ∈ s, c.Defined σ)
    (hb : ∀ σ ∈ s, constArrayOpt = true → c.ConstReadsInBounds σ) :
    Denotes s c.create c.width (s.elim 0 fun σ => c.value σ) := by
  cases c with
  | select c t f =>
    obtain ⟨hc, hc1, ht, hf, hw⟩ := h
    have hdc := Denotes.self_at (s := s) hc hc1 fun σ hσ ho => (hb σ hσ ho).1
    have hdt := Denotes.self (s := s) ht fun σ hσ ho => (hb σ hσ ho).2.1
    have hdf := Denotes.self_at (s := s) hf hw.symm fun σ hσ ho => (hb σ hσ ho).2.2
    exact (SelectExpr.create_denotes hdc hdt hdf).congr_elim (by rintro σ rfl; rfl)
  | concat l r =>
    obtain ⟨hl, hr⟩ := h
    have hdl := Denotes.self (s := s) hl fun σ hσ ho => (hb σ hσ ho).1
    have hdr := Denotes.self (s := s) hr fun σ hσ ho => (hb σ hσ ho).2
    exact (ConcatExpr.create_denotes hdl hdr).congr_elim (by rintro σ rfl; rfl)
  | extract e off w =>
    obtain ⟨he, hw, ho⟩ := h
    have hde := Denotes.self (s := s) he fun σ hσ ho => hb σ hσ ho
    exact (ExtractExpr.create_denotes hde hw ho).congr_elim (by rintro σ rfl; rfl)
  | cast k e w =>
    obtain ⟨he, hw⟩ := h
    have hde := Denotes.self (s := s) he fun σ hσ ho => hb σ hσ ho
    exact (CastKind.create_denotes k hde hw).congr_elim (by rintro σ rfl; rfl)
  | not e =>
    have hde := Denotes.self (s := s) (e := e) h fun σ hσ ho => hb σ hσ ho
    exact (NotExpr.create_denotes hde).congr_elim (by rintro σ rfl; rfl)
  | arith k l r =>
    obtain ⟨hl, hr, hw⟩ := h
    have hdl := Denotes.self (s := s) hl fun σ hσ ho => (hb σ hσ ho).1
    have hdr := Denotes.self_at (s := s) hr hw.symm fun σ hσ ho => (hb σ hσ ho).2
    refine (ArithKind.create_denotes k hdl hdr).congr_elim ?_
    rintro σ rfl
    exact ArithKind.denote_of_defined k _ _ (hd σ rfl)
  | cmp k l r =>
    obtain ⟨hl, hr, hw⟩ := h
    have hdl := Denotes.self (s := s) hl fun σ hσ ho => (hb σ hσ ho).1
    have hdr := Denotes.self_at (s := s) hr hw.symm fun σ hσ ho => (hb σ hσ ho).2
    exact (CmpKind.create_denotes k hdl hdr).congr_elim (by rintro σ rfl; rfl)

/-- Every smart constructor keeps types and values. With `-const-array-opt` the value is
kept under the assignments that read constant arrays within their bounds. -/
theorem create_sound (c : CreateCall) (h : c.WellSorted) :
    c.create.WellSorted ∧ c.create.width = c.width ∧
      ∀ σ, c.Defined σ → (constArrayOpt = true → c.ConstReadsInBounds σ) →
        c.create.eval σ c.width = c.value σ := by
  have htype := create_denotes (s := none) c h (fun _ hσ => by cases hσ) fun _ hσ => by cases hσ
  refine ⟨htype.wellSorted, htype.width_eq, fun σ hd hb => ?_⟩
  refine (create_denotes (s := some σ) c h ?_ ?_).eval_eq σ rfl
  · rintro _ ⟨⟩
    exact hd
  · rintro _ ⟨⟩
    exact hb

/-- A one-byte constant array that does not hold 0, and a one-byte symbolic array. -/
def oneByte : Array := ⟨0, "const_arr0", 1, [1], by decide, .inr rfl⟩
def symbolicByte : Array := .symbolic 1 "x" 1

/-- `0 == const_arr0[x[0]]` -/
def byteIsZero : CreateCall :=
  .cmp .eq (.constant ⟨8, 0⟩)
    (.read oneByte .null (.zext (.read symbolicByte .null (.constant ⟨32, 0⟩)) 32))

omit [ExprOptions] in
theorem wellSorted_byteIsZero : byteIsZero.WellSorted := by
  simp [byteIsZero, WellSorted, Expr.WellSorted, UpdateNode.WellSorted, Expr.width,
    Array.getRange]

omit [ExprOptions] in
/-- With the read in bounds the comparison is false, also under `-const-array-opt`. -/
theorem create_sound_inBounds :
    (@create ⟨true⟩ byteIsZero).eval (fun _ _ => 0) 1 = 0#1 := by
  have hb : byteIsZero.ConstReadsInBounds fun _ _ => 0 := by
    simp only [byteIsZero, ConstReadsInBounds, Expr.ConstReadsInBounds,
      UpdateNode.ConstReadsInBounds, true_and]
    decide
  exact (@create_sound ⟨true⟩ byteIsZero wellSorted_byteIsZero).2.2 _ trivial fun _ => hb

omit [ExprOptions] in
/-- With `-const-array-opt` a read past the end of a constant array, which evaluates to 0,
is never found equal to 0: the disjunction ranges over the array only. -/
theorem create_readPastEnd_unsound :
    ¬ ∀ (_o : ExprOptions) (c : CreateCall), c.WellSorted →
      c.create.WellSorted ∧ c.create.width = c.width ∧
        ∀ σ, c.Defined σ → c.create.eval σ c.width = c.value σ := by
  intro h
  have heval := (h ⟨true⟩ byteIsZero wellSorted_byteIsZero).2.2 (fun _ _ => 5) trivial
  revert heval
  decide

end CreateCall

end Klee
