import Klee.Expr.Compare
import Klee.Expr.FindReads
import Klee.Lib.Comparison

/-! `Expr::compare` is a total order, whose equality is that of the structure. -/
namespace Klee

open Comparison

section Order

theorem compareConstants_swap (c d : ConstantExpr) :
    compareConstants d c = (compareConstants c d).swap := by
  unfold compareConstants
  rw [Ordering.swap_then, Nat.compare_swap, Nat.compare_swap]

theorem compareRoots_swap (root root' : Array) (size size' : Nat) :
    compareRoots root' root size' size = (compareRoots root root' size size').swap := by
  unfold compareRoots
  rw [Ordering.swap_then, Ordering.swap_then, Nat.compare_swap, Nat.compare_swap,
    ← Std.OrientedOrd.eq_swap (a := root'.name)]

theorem compareExtracts_swap (offset width offset' width' : Nat) :
    compareExtracts offset' width' offset width =
      (compareExtracts offset width offset' width').swap := by
  unfold compareExtracts
  rw [Ordering.swap_then, Nat.compare_swap, Nat.compare_swap]

theorem compareConstants_chained (c d e : ConstantExpr) :
    Chained (compareConstants c d) (compareConstants d e) (compareConstants c e) :=
  (Chained.of_compare c.width d.width e.width).andThen fun _ _ =>
    Chained.of_compare c.value.toNat d.value.toNat e.value.toNat

theorem compareRoots_chained (a b c : Array) (m n k : Nat) :
    Chained (compareRoots a b m n) (compareRoots b c n k) (compareRoots a c m k) :=
  (Chained.of_compare a.name b.name c.name).andThen fun _ _ =>
    (Chained.of_compare a.id b.id c.id).andThen fun _ _ => Chained.of_compare m n k

/-- The fields that the comparison of two update lists finds equal. -/
theorem compareRoots_eq {root root' : Array} {m n : Nat} :
    compareRoots root root' m n = .eq ↔ (root.name = root'.name ∧ root.id = root'.id) ∧ m = n := by
  unfold compareRoots
  rw [Ordering.then_eq_eq, Ordering.then_eq_eq, Std.LawfulEqOrd.compare_eq_iff_eq,
    Nat.compare_eq_eq, Nat.compare_eq_eq, and_assoc]

theorem compareExtracts_chained (o w o' w' o'' w'' : Nat) :
    Chained (compareExtracts o w o' w') (compareExtracts o' w' o'' w'')
      (compareExtracts o w o'' w'') :=
  (Chained.of_compare o o' o'').andThen fun _ _ => Chained.of_compare w w' w''

def classOfKind (kind : Nat) : Nat :=
  if kind ≤ 1 then kind
  else if kind ≤ 6 then kind - 1
  else if kind ≤ 8 then 6
  else if kind ≤ 9 then 7
  else if kind ≤ 22 then 8
  else 9

theorem Expr.classOfKind_getKind (e : Expr) : classOfKind e.getKind = e.ctorIdx := by
  cases e with
  | cast k _ _ => cases k <;> rfl
  | arith k _ _ => cases k <;> rfl
  | cmp k _ _ => cases k <;> rfl
  | _ => rfl

theorem Expr.ctorIdx_eq {a b : Expr} (h : Ord.compare a.getKind b.getKind = .eq) :
    a.ctorIdx = b.ctorIdx := by
  rw [← a.classOfKind_getKind, ← b.classOfKind_getKind, Nat.compare_eq_eq.mp h]

variable [APIntHash]

mutual

/-- The comparison turns around. -/
theorem Expr.compare_swap : ∀ a b : Expr, b.compare a = (a.compare b).swap := by
  intro a b
  rw [Expr.compare.eq_def b a, Expr.compare.eq_def a b, Ordering.swap_then, Ordering.swap_then,
    Nat.compare_swap, Nat.compare_swap]
  congr 2
  cases a with
  | constant c => cases b with
    | constant d => exact compareConstants_swap c d
    | _ => rfl
  | notOptimized e => cases b with
    | notOptimized e' => exact e.compare_swap e'
    | _ => rfl
  | read root head index => cases b with
    | read root' head' index' =>
      dsimp only
      rw [Ordering.swap_then, Ordering.swap_then, index.compare_swap index',
        head.compare_swap head', compareRoots_swap]
    | _ => rfl
  | select c t f => cases b with
    | select c' t' f' =>
      dsimp only
      rw [Ordering.swap_then, Ordering.swap_then, c.compare_swap c', t.compare_swap t',
        f.compare_swap f']
    | _ => rfl
  | concat l r => cases b with
    | concat l' r' =>
      dsimp only
      rw [Ordering.swap_then, Ordering.swap_then, l.compare_swap l', r.compare_swap r',
        Nat.compare_swap]
    | _ => rfl
  | extract e offset width => cases b with
    | extract e' offset' width' =>
      dsimp only
      rw [Ordering.swap_then, e.compare_swap e', compareExtracts_swap]
    | _ => rfl
  | cast k e width => cases b with
    | cast k' e' width' =>
      dsimp only
      rw [Ordering.swap_then, e.compare_swap e', Nat.compare_swap]
    | _ => rfl
  | not e => cases b with
    | not e' => exact e.compare_swap e'
    | _ => rfl
  | arith k l r => cases b with
    | arith k' l' r' =>
      dsimp only
      rw [Ordering.swap_then, l.compare_swap l', r.compare_swap r']
    | _ => rfl
  | cmp k l r => cases b with
    | cmp k' l' r' =>
      dsimp only
      rw [Ordering.swap_then, l.compare_swap l', r.compare_swap r']
    | _ => rfl

theorem UpdateNode.compare_swap : ∀ a b : UpdateNode, b.compare a = (a.compare b).swap
  | .null, .null => rfl
  | .null, .node _ _ _ => rfl
  | .node _ _ _, .null => rfl
  | .node next index value, .node next' index' value' => by
    simp only [UpdateNode.compare, Ordering.swap_then, index.compare_swap index',
      value.compare_swap value', next.compare_swap next']

end

mutual

/-- The comparisons of three expressions fit together. -/
theorem Expr.compare_chained : ∀ a b c : Expr,
    Chained (a.compare b) (b.compare c) (a.compare c) := by
  intro a b c
  rw [Expr.compare.eq_def a b, Expr.compare.eq_def b c, Expr.compare.eq_def a c]
  refine (Chained.of_compare a.getKind b.getKind c.getKind).andThen fun hab hbc => ?_
  refine (Chained.of_compare _ _ _).andThen fun _ _ => ?_
  have hb := Expr.ctorIdx_eq hab
  have hc := Expr.ctorIdx_eq hbc
  -- all three are of the class of `a`
  cases a with
  | constant c₁ => cases b with
    | constant c₂ => cases c with
      | constant c₃ => exact compareConstants_chained c₁ c₂ c₃
      | _ => cases hc
    | _ => cases hb
  | notOptimized e₁ => cases b with
    | notOptimized e₂ => cases c with
      | notOptimized e₃ => exact e₁.compare_chained e₂ e₃
      | _ => cases hc
    | _ => cases hb
  | read root₁ head₁ index₁ => cases b with
    | read root₂ head₂ index₂ => cases c with
      | read root₃ head₃ index₃ =>
        exact ((compareRoots_chained root₁ root₂ root₃ _ _ _).andThen fun hroots hroots' =>
          head₁.compare_chained head₂ head₃ (compareRoots_eq.mp hroots).2 (compareRoots_eq.mp hroots').2).andThen
            fun _ _ => index₁.compare_chained index₂ index₃
      | _ => cases hc
    | _ => cases hb
  | select c₁ t₁ f₁ => cases b with
    | select c₂ t₂ f₂ => cases c with
      | select c₃ t₃ f₃ =>
        exact (c₁.compare_chained c₂ c₃).andThen fun _ _ =>
          (t₁.compare_chained t₂ t₃).andThen fun _ _ => f₁.compare_chained f₂ f₃
      | _ => cases hc
    | _ => cases hb
  | concat l₁ r₁ => cases b with
    | concat l₂ r₂ => cases c with
      | concat l₃ r₃ =>
        exact (Chained.of_compare _ _ _).andThen fun _ _ =>
          (l₁.compare_chained l₂ l₃).andThen fun _ _ => r₁.compare_chained r₂ r₃
      | _ => cases hc
    | _ => cases hb
  | extract e₁ o₁ w₁ => cases b with
    | extract e₂ o₂ w₂ => cases c with
      | extract e₃ o₃ w₃ =>
        exact (compareExtracts_chained o₁ w₁ o₂ w₂ o₃ w₃).andThen fun _ _ =>
          e₁.compare_chained e₂ e₃
      | _ => cases hc
    | _ => cases hb
  | cast k₁ e₁ w₁ => cases b with
    | cast k₂ e₂ w₂ => cases c with
      | cast k₃ e₃ w₃ =>
        exact (Chained.of_compare w₁ w₂ w₃).andThen fun _ _ => e₁.compare_chained e₂ e₃
      | _ => cases hc
    | _ => cases hb
  | not e₁ => cases b with
    | not e₂ => cases c with
      | not e₃ => exact e₁.compare_chained e₂ e₃
      | _ => cases hc
    | _ => cases hb
  | arith k₁ l₁ r₁ => cases b with
    | arith k₂ l₂ r₂ => cases c with
      | arith k₃ l₃ r₃ =>
        exact (l₁.compare_chained l₂ l₃).andThen fun _ _ => r₁.compare_chained r₂ r₃
      | _ => cases hc
    | _ => cases hb
  | cmp k₁ l₁ r₁ => cases b with
    | cmp k₂ l₂ r₂ => cases c with
      | cmp k₃ l₃ r₃ =>
        exact (l₁.compare_chained l₂ l₃).andThen fun _ _ => r₁.compare_chained r₂ r₃
      | _ => cases hc
    | _ => cases hb

/-- So do those of three lists of one size. -/
theorem UpdateNode.compare_chained : ∀ a b c : UpdateNode, a.size = b.size → b.size = c.size →
    Chained (a.compare b) (b.compare c) (a.compare c)
  | .null, .null, .null, _, _ => Chained.of_compare 0 0 0
  | .node next₁ index₁ value₁, .node next₂ index₂ value₂, .node next₃ index₃ value₃, h, h' => by
    have hnext := next₁.compare_chained next₂ next₃ (Nat.succ.inj h) (Nat.succ.inj h')
    exact ((index₁.compare_chained index₂ index₃).andThen fun _ _ =>
      value₁.compare_chained value₂ value₃).andThen fun _ _ => hnext

end

end Order

section Structure

theorem compareConstants_eq {c d : ConstantExpr} (h : compareConstants c d = .eq) : c = d := by
  obtain ⟨hwidth, hvalue⟩ := Ordering.then_eq_eq.mp h
  obtain ⟨w, v⟩ := c
  obtain ⟨w', v'⟩ := d
  obtain rfl : w = w' := Nat.compare_eq_eq.mp hwidth
  obtain rfl : v = v' := BitVec.eq_of_toNat_eq (Nat.compare_eq_eq.mp hvalue)
  rfl

theorem compareExtracts_eq {o w o' w' : Nat} (h : compareExtracts o w o' w' = .eq) :
    o = o' ∧ w = w' := by
  obtain ⟨ho, hw⟩ := Ordering.then_eq_eq.mp h
  exact ⟨Nat.compare_eq_eq.mp ho, Nat.compare_eq_eq.mp hw⟩

theorem CastKind.getKind_inj {k k' : CastKind} (h : k.getKind = k'.getKind) : k = k' := by
  cases k <;> cases k' <;> first | rfl | cases h

theorem ArithKind.getKind_inj {k k' : ArithKind} (h : k.getKind = k'.getKind) : k = k' := by
  cases k <;> cases k' <;> first | rfl | cases h

theorem CmpKind.getKind_inj {k k' : CmpKind} (h : k.getKind = k'.getKind) : k = k' := by
  cases k <;> cases k' <;> first | rfl | cases h

def RootIn (arrays : Nat → Option Array) (r : ReadExpr) : Prop :=
  arrays r.updates.root.id = some r.updates.root

theorem root_eq {arrays : Nat → Option Array} {a b : Array} (ha : arrays a.id = some a)
    (hb : arrays b.id = some b) (h : a.id = b.id) : a = b := by
  rw [h, hb] at ha
  exact (Option.some.inj ha).symm

theorem eq_of_swap_self {o : Ordering} (h : o = o.swap) : o = .eq := by
  cases o with
  | eq => rfl
  | _ => cases h

variable [APIntHash] {arrays : Nat → Option Array}

mutual

theorem Expr.eq_of_compare : ∀ a b : Expr, a.AllReads (RootIn arrays) →
    b.AllReads (RootIn arrays) → a.compare b = .eq → a = b := by
  intro a b ha hb h
  rw [Expr.compare.eq_def a b, Ordering.then_eq_eq, Ordering.then_eq_eq] at h
  obtain ⟨hkind, -, hparts⟩ := h
  have hctor := Expr.ctorIdx_eq hkind
  have hkind := Nat.compare_eq_eq.mp hkind
  cases a with
  | constant c => cases b with
    | constant d => rw [compareConstants_eq hparts]
    | _ => cases hctor
  | notOptimized e => cases b with
    | notOptimized e' => rw [e.eq_of_compare e' ha hb hparts]
    | _ => cases hctor
  | read root head index => cases b with
    | read root' head' index' =>
      obtain ⟨hlist, hindex⟩ := Ordering.then_eq_eq.mp hparts
      obtain ⟨hroots, hhead⟩ := Ordering.then_eq_eq.mp hlist
      obtain ⟨⟨-, hid⟩, hsize⟩ := compareRoots_eq.mp hroots
      have hroot : root = root' := root_eq ha.1 hb.1 hid
      rw [hroot, head.eq_of_compare head' ha.2.1 hb.2.1 hsize hhead,
        index.eq_of_compare index' ha.2.2 hb.2.2 hindex]
    | _ => cases hctor
  | select c t f => cases b with
    | select c' t' f' =>
      obtain ⟨hc, hrest⟩ := Ordering.then_eq_eq.mp hparts
      obtain ⟨ht, hf⟩ := Ordering.then_eq_eq.mp hrest
      rw [c.eq_of_compare c' ha.1 hb.1 hc, t.eq_of_compare t' ha.2.1 hb.2.1 ht,
        f.eq_of_compare f' ha.2.2 hb.2.2 hf]
    | _ => cases hctor
  | concat l r => cases b with
    | concat l' r' =>
      obtain ⟨hl, hr⟩ := Ordering.then_eq_eq.mp (Ordering.then_eq_eq.mp hparts).2
      rw [l.eq_of_compare l' ha.1 hb.1 hl, r.eq_of_compare r' ha.2 hb.2 hr]
    | _ => cases hctor
  | extract e o w => cases b with
    | extract e' o' w' =>
      obtain ⟨hcontents, he⟩ := Ordering.then_eq_eq.mp hparts
      obtain ⟨rfl, rfl⟩ := compareExtracts_eq hcontents
      rw [e.eq_of_compare e' ha hb he]
    | _ => cases hctor
  | cast k e w => cases b with
    | cast k' e' w' =>
      obtain ⟨hwidth, he⟩ := Ordering.then_eq_eq.mp hparts
      rw [CastKind.getKind_inj hkind, Nat.compare_eq_eq.mp hwidth, e.eq_of_compare e' ha hb he]
    | _ => cases hctor
  | not e => cases b with
    | not e' => rw [e.eq_of_compare e' ha hb hparts]
    | _ => cases hctor
  | arith k l r => cases b with
    | arith k' l' r' =>
      obtain ⟨hl, hr⟩ := Ordering.then_eq_eq.mp hparts
      rw [ArithKind.getKind_inj hkind, l.eq_of_compare l' ha.1 hb.1 hl,
        r.eq_of_compare r' ha.2 hb.2 hr]
    | _ => cases hctor
  | cmp k l r => cases b with
    | cmp k' l' r' =>
      obtain ⟨hl, hr⟩ := Ordering.then_eq_eq.mp hparts
      rw [CmpKind.getKind_inj hkind, l.eq_of_compare l' ha.1 hb.1 hl,
        r.eq_of_compare r' ha.2 hb.2 hr]
    | _ => cases hctor

theorem UpdateNode.eq_of_compare : ∀ a b : UpdateNode, a.AllReads (RootIn arrays) →
    b.AllReads (RootIn arrays) → a.size = b.size → a.compare b = .eq → a = b
  | .null, .null, _, _, _, _ => rfl
  | .node next index value, .node next' index' value', ha, hb, hsize, h => by
    obtain ⟨hparts, hnext⟩ := Ordering.then_eq_eq.mp h
    obtain ⟨hindex, hvalue⟩ := Ordering.then_eq_eq.mp hparts
    rw [next.eq_of_compare next' ha.1 hb.1 (Nat.succ.inj hsize) hnext,
      index.eq_of_compare index' ha.2.1 hb.2.1 hindex,
      value.eq_of_compare value' ha.2.2 hb.2.2 hvalue]

end

theorem Expr.compare_self (e : Expr) : e.compare e = .eq := eq_of_swap_self (e.compare_swap e)

theorem UpdateNode.compare_self (un : UpdateNode) : un.compare un = .eq :=
  eq_of_swap_self (un.compare_swap un)

/-- The comparison of expressions of one memory finds just the equal ones equal. -/
theorem Expr.compare_eq_iff {a b : Expr} (ha : a.AllReads (RootIn arrays))
    (hb : b.AllReads (RootIn arrays)) : a.compare b = .eq ↔ a = b := by
  constructor
  · exact a.eq_of_compare b ha hb
  · rintro rfl
    exact a.compare_self

end Structure

end Klee
