import Klee.Expr.FindReads
import Klee.Solver.BuilderTerms

/-! The tables of a builder: what an array of the solver, a hashed update node and a hashed
expression mean. -/
namespace Klee.SolverBuilder

open Smt Smt.Term

/-- Values for the elements of the solver's arrays, the assignment they stand for, and the arrays
for which they do. -/
structure Interpretation where
  env : Cell → (w : Nat) → BitVec w
  σ : Assignment
  known : Array → Prop

namespace Interpretation

variable {i : Interpretation} {t : Term Cell} {e : Expr} {w : Nat}

def Gives (i : Interpretation) (t : Term Cell) (e : Expr) : Prop :=
  e.WithinBounds i.known i.σ → IsTerm i.env t e.width (e.eval i.σ e.width)

theorem Gives.at (h : i.Gives t e) (hreg : e.WithinBounds i.known i.σ) (hw : e.width = w) :
    IsTerm i.env t w (e.eval i.σ w) := hw ▸ h hreg

end Interpretation

/-- The term is one of width `w`, whatever the values of the arrays are. -/
def HasWidth (t : Term Cell) (w : Nat) : Prop := ∀ env, ∃ x, IsTerm env t w x

def IsBytes (t : Term Cell) : Prop := ∀ env, ∃ f, IsArray env t 32 8 f

theorem HasWidth.length_eq {t : Term Cell} {w : Nat} (h : HasWidth t w) (hw : w ≠ 1) :
    t.length = w := by
  obtain ⟨x, hx⟩ := h fun _ _ => 0
  exact isBits_length (hx.bits hw)

theorem isBytes_term (array : SolverArray) : IsBytes array.term := by
  intro env
  induction array with
  | symbol name => exact ⟨_, isArray_array _⟩
  | write array index value ih =>
    obtain ⟨f, hf⟩ := ih
    exact ⟨_, hf.store (isBits_numeral _ _) (isBits_numeral _ _)⟩

def IsArrayOf (env : Cell → (w : Nat) → BitVec w) (t : Term Cell) (size : Nat)
    (byte : BitVec 32 → BitVec 8) : Prop :=
  ∃ f, IsArray env t 32 8 f ∧ ∀ i, i.toNat < size → f i = byte i

def Interpretation.GivesArray (i : Interpretation) (t : Term Cell) (root : Array)
    (un : UpdateNode) : Prop :=
  i.known root → un.WithinBounds i.known i.σ →
    IsArrayOf i.env t root.size fun j => un.eval i.σ root j

/-- How the tables are read: for the values of terms, for an array that is not there, or for
arrays that have symbols of their own. -/
inductive Reader where
  | values (i : Interpretation)
  | missing (root : Array)
  | apart

namespace Reader

/-- The term has the value of the expression, which does not read the missing array. -/
def Says : Reader → Term Cell → Expr → Prop
  | values i, t, e => i.Gives t e
  | missing root, _, e => e.AllReads fun re => re.updates.root ≠ root
  | apart, _, _ => True

def SaysArray : Reader → Term Cell → Array → UpdateNode → Prop
  | values i, t, root, un => i.GivesArray t root un
  | missing root, _, root', un => root' ≠ root ∧ un.AllReads fun re => re.updates.root ≠ root
  | apart, _, _, _ => True

end Reader

variable {B : Type} [ArrayBuilder B]

/-- Different arrays have different symbols, but for constant arrays with the same contents. -/
def SymbolsApart (hash : ArrayHash) : Prop :=
  ∀ a b e f, hash.lookup a = some e → hash.lookup b = some f → e.base = f.base →
    a = b ∨ a.SameContents b

/-- The arrays of the builder have the bytes of the assignment, one array is not there, or all
are apart. -/
def Fits (i : Reader) (b : Builder B) : Prop :=
  match i with
  | .values i => ∀ root array, i.known root →
      (ArrayBuilder.arrHash b.arrays).lookup root = some array →
      IsArrayOf i.env array.term root.size fun j => root.initial i.σ j.toNat
  | .missing root => (ArrayBuilder.arrHash b.arrays).lookup root = none
  | .apart => SymbolsApart (ArrayBuilder.arrHash b.arrays)

class LawfulArrayBuilder (B : Type) [ArrayBuilder B] where
  /-- What holds of the arrays of a builder. -/
  Valid : B → Prop
  valid_getInitialArray (b : B) (root : Array) :
    Valid b → Valid (ArrayBuilder.getInitialArray b root).2
  lookup_new (b : B) (root : Array) :
    (ArrayBuilder.arrHash (ArrayBuilder.getInitialArray b root).2).lookup root =
      some (ArrayBuilder.getInitialArray b root).1
  lookup_old (b : B) (root a : Array) (e : SolverArray) :
    (ArrayBuilder.arrHash b).lookup a = some e →
      (ArrayBuilder.arrHash (ArrayBuilder.getInitialArray b root).2).lookup a = some e
  /-- The elements of the constant give an array its bytes. -/
  explains (b : B) (root : Array) (e : SolverArray) (env : Cell → (w : Nat) → BitVec w)
      (σ : Assignment) : Valid b → (ArrayBuilder.arrHash b).lookup root = some e →
    (∀ j : BitVec 32, j.toNat < root.size → env (e.base, j) 8 = root.initial σ j.toNat) →
      IsArrayOf env e.term root.size fun j => root.initial σ j.toNat

theorem lookup_cons_cases {κ α : Type} [BEq κ] [LawfulBEq κ] {k k' : κ} {a a' : α}
    {l : List (κ × α)} (h : ((k, a) :: l).lookup k' = some a') :
    (k' = k ∧ a = a') ∨ l.lookup k' = some a' := by
  rw [List.lookup_cons] at h
  cases hk : k' == k with
  | true =>
    rw [hk] at h
    exact .inl ⟨beq_iff_eq.mp hk, Option.some.inj h⟩
  | false =>
    rw [hk] at h
    exact .inr h

theorem lookup_append_new {hash : ArrayHash} {root : Array} {e : SolverArray}
    (h : hash.lookup root = none) : (hash ++ [(root, e)]).lookup root = some e := by
  rw [List.lookup_append, h]
  simp

theorem lookup_append_old {hash : ArrayHash} {root a : Array} {e f : SolverArray}
    (h : hash.lookup a = some e) : (hash ++ [(root, f)]).lookup a = some e := by
  rw [List.lookup_append, h]
  rfl

/-- An array is a constant of the solver, and the values of a constant array are asserted. -/
structure Z3Valid (b : Z3Builder) : Prop where
  symbol : ∀ root e, b.arrHash.lookup root = some e → ∃ name, e = .symbol name
  asserted : ∀ root e, b.arrHash.lookup root = some e → root.isConstantArray = true →
    b.constantArrayAssertions.lookup root =
      some (root.indexedValues.map fun v => ArrayAssertion.mk e v.1 v.2)
  known : ∀ root, b.arrHash.lookup root = none → b.constantArrayAssertions.lookup root = none

theorem lookup_append_cases {κ α : Type} [BEq κ] [LawfulBEq κ] {k k' : κ} {a a' : α}
    {l : List (κ × α)} (h : (l ++ [(k, a)]).lookup k' = some a') :
    l.lookup k' = some a' ∨ (l.lookup k' = none ∧ k' = k ∧ a = a') := by
  rw [List.lookup_append] at h
  cases hk : l.lookup k' with
  | some x =>
    rw [hk] at h
    exact .inl h
  | none =>
    rw [hk, Option.none_or] at h
    obtain h | h := lookup_cons_cases h
    · exact .inr ⟨rfl, h⟩
    · cases h

theorem isArrayOf_symbol {env : Cell → (w : Nat) → BitVec w} {name : List Char} {size : Nat}
    {byte : BitVec 32 → BitVec 8} : IsArrayOf env (SolverArray.symbol name).term size byte ↔
      ∀ j : BitVec 32, j.toNat < size → env (name, j) 8 = byte j := by
  constructor
  · rintro ⟨f, hf, hbyte⟩ j hj
    obtain rfl := hf.unique (isArray_array _)
    exact hbyte j hj
  · exact fun h => ⟨_, isArray_array _, h⟩

instance : LawfulArrayBuilder Z3Builder where
  Valid := Z3Valid
  explains b root e env σ hb he h := by
    obtain ⟨name, rfl⟩ := hb.symbol root e he
    exact isArrayOf_symbol.mpr h
  valid_getInitialArray b root hb := by
    change Z3Valid (b.getInitialArray root).2
    unfold Z3Builder.getInitialArray
    cases h : b.arrHash.lookup root with
    | some _ => exact hb
    | none =>
      have hnone := hb.known root h
      refine ⟨fun a e he => ?_, fun a e he hconst => ?_, fun a he => ?_⟩
      · obtain he | ⟨-, rfl, rfl⟩ := lookup_append_cases he
        · exact hb.symbol a e he
        · exact ⟨_, rfl⟩
      · obtain he | ⟨-, rfl, rfl⟩ := lookup_append_cases he
        · have hold := hb.asserted a e he hconst
          dsimp only
          split
          · rw [List.lookup_append, hold]
            rfl
          · exact hold
        · dsimp only
          rw [if_pos ⟨hconst, hnone⟩, List.lookup_append, hnone]
          simp
      · have hne : a ≠ root := by
          rintro rfl
          exact absurd (lookup_append_new h) (by rw [he]; exact Option.some_ne_none _ ∘ Eq.symm)
        have hold : b.arrHash.lookup a = none := by
          cases ha : b.arrHash.lookup a with
          | none => rfl
          | some e =>
            exact absurd (he.symm.trans (lookup_append_old ha)) (Option.some_ne_none _ ∘ Eq.symm)
        have hnone' := hb.known a hold
        dsimp only
        split
        · rw [List.lookup_append, hnone']
          simp [hne]
        · exact hnone'
  lookup_new b root := by
    change (b.getInitialArray root).2.arrHash.lookup root = some (b.getInitialArray root).1
    unfold Z3Builder.getInitialArray
    cases h : b.arrHash.lookup root with
    | some e => exact h
    | none => exact lookup_append_new h
  lookup_old b root a e ha := by
    change (b.getInitialArray root).2.arrHash.lookup a = some e
    unfold Z3Builder.getInitialArray
    cases h : b.arrHash.lookup root with
    | some _ => exact ha
    | none => exact lookup_append_old ha

/-- The values of a constant array are written over a constant of the solver. -/
def STPValid (b : STPBuilder) : Prop :=
  ∀ root e, b.arrHash.lookup root = some e → ∃ name, e =
    if root.isConstantArray then
      root.indexedValues.foldl (fun array v => .write array v.1 v.2) (.symbol name)
    else .symbol name

/-- Writes of the bytes that an array has leave it with its bytes. -/
theorem isArrayOf_writes {env : Cell → (w : Nat) → BitVec w} {size : Nat}
    {byte : BitVec 32 → BitVec 8} {values : List (BitVec 32 × BitVec 8)} {e : SolverArray}
    (h : IsArrayOf env e.term size byte) (hvalues : ∀ v ∈ values, v.2 = byte v.1) :
    IsArrayOf env (values.foldl (fun array v => .write array v.1 v.2) e).term size byte := by
  induction values generalizing e with
  | nil => exact h
  | cons v values ih =>
    refine ih ?_ fun v' hv' => hvalues v' (List.mem_cons_of_mem v hv')
    obtain ⟨f, hf, hbyte⟩ := h
    have hindex : IsBits env (.numeral 32 v.1.toNat) 32 v.1 :=
      (isBits_bvConst32 32 _).congr (by rw [BitVec.ofNat_toNat, BitVec.setWidth_eq])
    have hvalue : IsBits env (.numeral 8 v.2.toNat) 8 v.2 :=
      (isBits_bvConst32 8 _).congr (by rw [BitVec.ofNat_toNat, BitVec.setWidth_eq])
    refine ⟨_, hf.store hindex hvalue, fun j hj => ?_⟩
    by_cases heq : j = v.1
    · rw [heq, Function.update_self, hvalues v List.mem_cons_self]
    · rw [Function.update_of_ne heq, hbyte j hj]

instance : LawfulArrayBuilder STPBuilder where
  Valid := STPValid
  valid_getInitialArray b root hb := by
    change STPValid (b.getInitialArray root).2
    unfold STPBuilder.getInitialArray
    cases h : b.arrHash.lookup root with
    | some _ => exact hb
    | none =>
      intro a e he
      obtain he | ⟨-, rfl, rfl⟩ := lookup_append_cases he
      · exact hb a e he
      · exact ⟨_, rfl⟩
  explains b root e env σ hb he h := by
    obtain ⟨name, rfl⟩ := hb root e he
    by_cases hconst : root.isConstantArray = true
    · rw [if_pos hconst] at h ⊢
      rw [base_foldl_write] at h
      refine isArrayOf_writes (isArrayOf_symbol.mpr h) fun v hv => ?_
      obtain ⟨i, hi, rfl⟩ := List.mem_map.mp hv
      have hlt : i < 2 ^ 32 := (List.mem_range.mp hi).trans root.size_lt
      simp only [Array.initial, if_pos hconst, BitVec.toNat_ofNat, Nat.mod_eq_of_lt hlt]
    · rw [if_neg hconst] at h ⊢
      exact isArrayOf_symbol.mpr h
  lookup_new b root := by
    change (b.getInitialArray root).2.arrHash.lookup root = some (b.getInitialArray root).1
    unfold STPBuilder.getInitialArray
    cases h : b.arrHash.lookup root with
    | some e => exact h
    | none => exact lookup_append_new h
  lookup_old b root a e ha := by
    change (b.getInitialArray root).2.arrHash.lookup a = some e
    unfold STPBuilder.getInitialArray
    cases h : b.arrHash.lookup root with
    | some _ => exact ha
    | none => exact lookup_append_old ha

variable [LawfulArrayBuilder B]

structure Inv (b : Builder B) : Prop where
  arrays : LawfulArrayBuilder.Valid b.arrays
  constructed : ∀ e r, b.constructed.lookup e = some r →
    (r.2 = e.width ∧ HasWidth r.1 e.width) ∧ ∀ i, Fits i b → i.Says r.1 e
  updateNodeHash : ∀ root un t, b.updateNodeHash.lookup (root, un) = some t → IsBytes t ∧
    ∀ i, Fits i b → i.SaysArray t root un

def tables (B : Type) [ArrayBuilder B] [LawfulArrayBuilder B] :
    Growing.Setting (Builder B) Reader := ⟨Inv, Fits⟩

/-- The program constructs a term for `e`. -/
def Constructs (m : BuildM B Sized) (e : Expr) : Prop :=
  (tables B).Runs m (fun r => r.2 = e.width ∧ HasWidth r.1 e.width) fun i r => i.Says r.1 e

/-- The program constructs an array for the updates of `root`. -/
def ConstructsArray (m : BuildM B (Term Cell)) (root : Array) (un : UpdateNode) : Prop :=
  (tables B).Runs m IsBytes fun i t => i.SaysArray t root un

open Growing.Setting

theorem getInitialArray_constructs (root : Array) :
    ConstructsArray (getInitialArray root : BuildM B (Term Cell)) root .null := by
  intro b hb
  obtain ⟨b', hb'⟩ : ∃ b', b' = (ArrayBuilder.getInitialArray b.arrays root).2 := ⟨_, rfl⟩
  have hnew := LawfulArrayBuilder.lookup_new b.arrays root
  have hold := LawfulArrayBuilder.lookup_old b.arrays root
  rw [← hb'] at hnew hold
  have hfits (i : Reader) (h : Fits i { b with arrays := b' }) : Fits i b := by
    cases i with
    | values i => exact fun a e hknown he => h a e hknown (hold a e he)
    | missing a =>
      change (ArrayBuilder.arrHash b.arrays).lookup a = none
      cases he : (ArrayBuilder.arrHash b.arrays).lookup a with
      | none => rfl
      | some e => exact absurd (h.symm.trans (hold a e he)) (Option.some_ne_none _ ∘ Eq.symm)
    | apart => exact fun a b e f ha hb => h a b e f (hold a e ha) (hold b f hb)
  refine ⟨_, { b with arrays := b' }, by rw [hb']; rfl, ⟨?_, ?_, ?_⟩, hfits, isBytes_term _,
    fun i hi => ?_⟩
  · rw [hb']
    exact LawfulArrayBuilder.valid_getInitialArray b.arrays root hb.arrays
  · exact fun e r hr => (hb.constructed e r hr).imp_right fun h i hi => h i (hfits i hi)
  · exact fun root un t ht => (hb.updateNodeHash root un t ht).imp_right fun h i hi =>
      h i (hfits i hi)
  · cases i with
    | values i => exact fun hknown _ => hi root _ hknown hnew
    | missing a =>
      refine ⟨?_, trivial⟩
      rintro rfl
      exact absurd (Eq.trans (Eq.symm hi) hnew) (Option.some_ne_none _ ∘ Eq.symm)
    | apart => exact trivial

/-- The table of expressions does not change what is constructed. -/
theorem Constructs.hashed [BuilderOptions] {m : BuildM B Sized} {e : Expr} (h : Constructs m e) :
    Constructs (hashed e m) e := by
  refine runs_ite (fun _ => Runs.memo h (fun b r hb => hb.constructed e r) ?_) fun _ => h
  intro b r hb hP hQ
  refine ⟨⟨hb.arrays, fun e' r' hr => ?_, hb.updateNodeHash⟩, fun i => by cases i <;> rfl⟩
  obtain ⟨rfl, rfl⟩ | hr := lookup_cons_cases hr
  · exact ⟨hP, hQ⟩
  · exact hb.constructed e' r' hr

/-- Nor does the table of update nodes. -/
theorem ConstructsArray.memo {m : BuildM B (Term Cell)} {root : Array} {un : UpdateNode}
    (h : ConstructsArray m root un) :
    ConstructsArray (memo Builder.updateNodeHash hashUpdateNodeExpr (root, un) m) root un := by
  refine Runs.memo h (fun b t hb => hb.updateNodeHash root un t) ?_
  intro b t hb hP hQ
  refine ⟨⟨hb.arrays, hb.constructed, fun root' un' t' ht => ?_⟩, fun i => by cases i <;> rfl⟩
  obtain ⟨heq, rfl⟩ | ht := lookup_cons_cases ht
  · cases heq
    exact ⟨hP, hQ⟩
  · exact hb.updateNodeHash root' un' t' ht

end Klee.SolverBuilder
