import Klee.Expr.Denotes
import Klee.Lib.BitVecFacts

/-! Soundness of `And`, `Or`, `Eq`, `Ne` and `Xor`: each smart constructor returns an
expression that denotes the operator applied to what its operands denote. -/
namespace Klee

section Constants

variable {w : Nat}

@[simp] theorem ConstantExpr.arith_mk (op : {w : Nat} → BitVec w → BitVec w → BitVec w)
    (x y : BitVec w) : ConstantExpr.arith op ⟨w, x⟩ ⟨w, y⟩ = ⟨w, op x y⟩ := by
  simp [ConstantExpr.arith]

@[simp] theorem ConstantExpr.cmp_mk (op : {w : Nat} → BitVec w → BitVec w → Bool)
    (x y : BitVec w) : ConstantExpr.cmp op ⟨w, x⟩ ⟨w, y⟩ = ⟨1, BitVec.ofBool (op x y)⟩ := by
  simp [ConstantExpr.cmp]

/-- Constants are compared structurally, so equal constants of one width have equal values. -/
theorem ConstantExpr.mk_inj {x y : BitVec w} (h : (⟨w, x⟩ : ConstantExpr) = ⟨w, y⟩) : x = y :=
  eq_of_heq (ConstantExpr.mk.inj h).2

end Constants

variable [ExprOptions] {s : Option Assignment} {l r : Expr} {w : Nat}

section Macros

/-- Folding two constants. -/
theorem constant_arith_denotes (k : ArithKind) {a b x y : BitVec w} (hw : 0 < w)
    (ha : s.isSome = true → a = x) (hb : s.isSome = true → b = y) :
    Denotes s (.constant (ConstantExpr.arith k.denote ⟨w, a⟩ ⟨w, b⟩)) w (k.denote x y) := by
  rw [ConstantExpr.arith_mk]
  exact (Denotes.constant hw).congr fun hs => by rw [ha hs, hb hs]

theorem constant_cmp_denotes (k : CmpKind) {a b x y : BitVec w}
    (ha : s.isSome = true → a = x) (hb : s.isSome = true → b = y) :
    Denotes s (.constant (ConstantExpr.cmp k.denote ⟨w, a⟩ ⟨w, b⟩)) 1
      (BitVec.ofBool (k.denote x y)) := by
  rw [ConstantExpr.cmp_mk]
  exact (Denotes.constant Nat.one_pos).congr fun hs => by rw [ha hs, hb hs]

/-- What `BCREATE_R` needs of its partial constructors. -/
theorem bcreateR_denotes {m : Nat} {op partialL partialR create} {x y : BitVec w}
    {v : BitVec m} (hl : Denotes s l w x) (hr : Denotes s r w y)
    (hop : ∀ a b : BitVec w, (s.isSome = true → a = x) → (s.isSome = true → b = y) →
      Denotes s (.constant (op ⟨w, a⟩ ⟨w, b⟩)) m v)
    (hL : ∀ b : BitVec w, (s.isSome = true → b = y) → Denotes s (partialL l ⟨w, b⟩) m v)
    (hR : ∀ a : BitVec w, (s.isSome = true → a = x) → Denotes s (partialR ⟨w, a⟩ r) m v)
    (hc : Denotes s (create l r) m v) :
    Denotes s (bcreateR op partialL partialR create l r) m v := by
  unfold bcreateR
  split
  · obtain ⟨a, rfl, ha⟩ := hl.constant_inv
    obtain ⟨b, rfl, hb⟩ := hr.constant_inv
    exact hop a b ha hb
  · obtain ⟨a, rfl, ha⟩ := hl.constant_inv
    exact hR a ha
  · obtain ⟨b, rfl, hb⟩ := hr.constant_inv
    exact hL b hb
  · exact hc

theorem bcreate_denotes {m : Nat} {op create} {x y : BitVec w} {v : BitVec m}
    (hl : Denotes s l w x) (hr : Denotes s r w y)
    (hop : ∀ a b : BitVec w, (s.isSome = true → a = x) → (s.isSome = true → b = y) →
      Denotes s (.constant (op ⟨w, a⟩ ⟨w, b⟩)) m v)
    (hc : Denotes s (create l r) m v) : Denotes s (bcreate op create l r) m v := by
  unfold bcreate
  split
  · obtain ⟨a, rfl, ha⟩ := hl.constant_inv
    obtain ⟨b, rfl, hb⟩ := hr.constant_inv
    exact hop a b ha hb
  · exact hc

end Macros

section AndOr

theorem andPartial_denotes {x y : BitVec w} (hl : Denotes s l w x)
    (hc : Denotes s (.constant ⟨w, y⟩) w y) :
    Denotes s (andExprCreatePartial l ⟨w, y⟩) w (x &&& y) := by
  unfold andExprCreatePartial
  split_ifs with h1 h0
  · simp only [ConstantExpr.isAllOnes, beq_iff_eq] at h1
    exact hl.congr fun _ => by rw [h1, BitVec.and_allOnes]
  · simp only [ConstantExpr.isZero, beq_iff_eq] at h0
    exact hc.congr fun _ => by rw [h0, BitVec.ofNat_eq_ofNat, BitVec.and_zero]
  · exact hl.arith .and hc

theorem andPartialR_denotes {x y : BitVec w} (hc : Denotes s (.constant ⟨w, x⟩) w x)
    (hr : Denotes s r w y) : Denotes s (andExprCreatePartialR ⟨w, x⟩ r) w (x &&& y) :=
  (andPartial_denotes hr hc).congr fun _ => BitVec.and_comm y x

theorem orPartial_denotes {x y : BitVec w} (hl : Denotes s l w x)
    (hc : Denotes s (.constant ⟨w, y⟩) w y) :
    Denotes s (orExprCreatePartial l ⟨w, y⟩) w (x ||| y) := by
  unfold orExprCreatePartial
  split_ifs with h1 h0
  · simp only [ConstantExpr.isAllOnes, beq_iff_eq] at h1
    exact hc.congr fun _ => by rw [h1, BitVec.or_allOnes]
  · simp only [ConstantExpr.isZero, beq_iff_eq] at h0
    exact hl.congr fun _ => by rw [h0, BitVec.ofNat_eq_ofNat, BitVec.or_zero]
  · exact hl.arith .or hc

theorem orPartialR_denotes {x y : BitVec w} (hc : Denotes s (.constant ⟨w, x⟩) w x)
    (hr : Denotes s r w y) : Denotes s (orExprCreatePartialR ⟨w, x⟩ r) w (x ||| y) :=
  (orPartial_denotes hr hc).congr fun _ => BitVec.or_comm y x

theorem AndExpr.create_denotes {x y : BitVec w} (hl : Denotes s l w x) (hr : Denotes s r w y) :
    Denotes s (AndExpr.create l r) w (x &&& y) := by
  refine bcreateR_denotes hl hr (fun a b ha hb => ?_) (fun b hb => ?_) (fun a ha => ?_)
    (hl.arith .and hr)
  · exact constant_arith_denotes .and hl.width_pos ha hb
  · exact (andPartial_denotes hl (.constant hl.width_pos)).congr fun hs => by rw [hb hs]
  · exact (andPartialR_denotes (.constant hl.width_pos) hr).congr fun hs => by rw [ha hs]

theorem OrExpr.create_denotes {x y : BitVec w} (hl : Denotes s l w x) (hr : Denotes s r w y) :
    Denotes s (OrExpr.create l r) w (x ||| y) := by
  refine bcreateR_denotes hl hr (fun a b ha hb => ?_) (fun b hb => ?_) (fun a ha => ?_)
    (hl.arith .or hr)
  · exact constant_arith_denotes .or hl.width_pos ha hb
  · exact (orPartial_denotes hl (.constant hl.width_pos)).congr fun hs => by rw [hb hs]
  · exact (orPartialR_denotes (.constant hl.width_pos) hr).congr fun hs => by rw [ha hs]

end AndOr

section Eq

theorem eqExprCreatePartialR_eq (cl : ConstantExpr) (r : Expr) :
    eqExprCreatePartialR cl r =
      if cl.width = 1 then
        if cl.isTrue then r
        else match r with
          | .eq (.constant c) right => if c.isFalse then right else eqExprCreate (.constant cl) r
          | .or a b => AndExpr.create a.createIsZero b.createIsZero
          | r => eqExprCreate (.constant cl) r
      else match r with
        | .sext src _ =>
            let trunc := cl.zext src.width
            if cl = trunc.sext cl.width then EqExpr.create src (.constant trunc)
            else .constant (.alloc 0 1)
        | .zext src _ =>
            let trunc := cl.zext src.width
            if cl = trunc.zext cl.width then EqExpr.create src (.constant trunc)
            else .constant (.alloc 0 1)
        | .add (.constant k) right => eqExprCreatePartialR (cl.sub k) right
        | .sub (.constant k) right => eqExprCreatePartialR (k.sub cl) right
        | .read root head index =>
            if constArrayOpt && root.isConstantArray && head == .null then
              let found := constArrayMatches cl root
              if found.length > 100 then eqExprCreate (.constant cl) r
              else found.foldl (fun res i => OrExpr.create res
                  (EqExpr.create index (.constant (.alloc i index.width))))
                (.constant (.alloc 0 1))
            else eqExprCreate (.constant cl) r
        | r => eqExprCreate (.constant cl) r := by
  cases r with
  | arith k a b =>
    cases k
    case or => cases a <;> cases b <;> rfl
    case add | sub => cases a <;> rfl
    all_goals rfl
  | cmp k a b =>
    cases k
    case eq => cases a <;> rfl
    all_goals rfl
  | cast k a _ => cases k <;> cases a <;> rfl
  | read root head index => cases index <;> rfl
  | _ => rfl

theorem eqExprCreate_denotes {x y : BitVec w} (hl : Denotes s l w x) (hr : Denotes s r w y) :
    Denotes s (eqExprCreate l r) 1 (BitVec.ofBool (x == y)) := by
  unfold eqExprCreate
  split_ifs with h
  · subst h
    refine (Denotes.constant Nat.one_pos).congr fun hs => ?_
    rw [hl.unique hr hs, beq_self_eq_true]
    rfl
  · exact hl.cmp .eq hr

/-- `EqExpr::create` with a constant on the right needs the partial constructor only at
that constant. -/
theorem eqExprCreate_constant_denotes {x y : BitVec w} (hl : Denotes s l w x)
    (ih : Denotes s (eqExprCreatePartialR ⟨w, y⟩ l) 1 (BitVec.ofBool (y == x))) :
    Denotes s (EqExpr.create l (.constant ⟨w, y⟩)) 1 (BitVec.ofBool (x == y)) := by
  cases l with
  | constant c =>
    obtain ⟨a, rfl, ha⟩ := hl.constant_inv
    exact constant_cmp_denotes .eq ha fun _ => rfl
  | _ => exact ih.congr fun _ => by rw [BEq.comm]

/-- The disjunction that `TryConstArrayOpt` builds. -/
theorem constArrayDisjunction_denotes {index : Expr} {i : BitVec 32}
    (hi : Denotes s index 32 i)
    (ih : ∀ y : BitVec 32, Denotes s (EqExpr.create index (.constant ⟨32, y⟩)) 1
      (BitVec.ofBool (i == y))) (found : List Nat) {res : Expr} {b : Bool}
    (hres : Denotes s res 1 (BitVec.ofBool b)) :
    Denotes s (found.foldl (fun res j => OrExpr.create res
        (EqExpr.create index (.constant (.alloc j index.width)))) res) 1
      (BitVec.ofBool (b || found.any fun j => i == BitVec.ofNat 32 j)) := by
  induction found generalizing res b with
  | nil => simpa using hres
  | cons j found ihf =>
    rw [List.foldl_cons, List.any_cons, ← Bool.or_assoc]
    refine ihf ((OrExpr.create_denotes hres ?_).congr fun _ => BitVec.ofBool_or_ofBool)
    rw [hi.width_eq]
    exact ih _

omit [ExprOptions] in
/-- The positions found are those at which a read in bounds yields the constant. -/
theorem any_constArrayMatches {root : Array} {x : BitVec 8} {i : BitVec 32} {σ : Assignment}
    (hc : root.isConstantArray = true) (hi : i.toNat < root.size) :
    ((constArrayMatches ⟨8, x⟩ root).any fun j => i == BitVec.ofNat 32 j) =
      (x == root.initial σ i.toNat) := by
  rw [Bool.eq_iff_iff, List.any_eq_true, beq_iff_eq, Array.initial, if_pos hc]
  constructor
  · rintro ⟨j, hj, hij⟩
    obtain ⟨hj, hx⟩ := List.mem_filter.mp hj
    have hlt : j < 2 ^ 32 := (List.mem_range.mp hj).trans root.size_lt
    rw [beq_iff_eq] at hij
    rw [hij, BitVec.toNat_ofNat, Nat.mod_eq_of_lt hlt]
    exact ConstantExpr.mk_inj (of_decide_eq_true hx)
  · intro hx
    refine ⟨i.toNat, List.mem_filter.mpr ⟨List.mem_range.mpr hi, decide_eq_true ?_⟩, ?_⟩
    · rw [hx]; rfl
    · rw [beq_iff_eq, BitVec.ofNat_toNat, BitVec.setWidth_eq]

/-- Double negation: `0 == (0 == A)`. -/
theorem eqZeroEq_denotes {c : ConstantExpr} {y : BitVec 1}
    (hr : Denotes s (.eq (.constant c) r) 1 y) (hc : c.isFalse = true) :
    Denotes s r 1 (BitVec.ofBool (0 == y)) := by
  obtain ⟨cw, z⟩ := c
  simp only [ConstantExpr.isFalse, Bool.and_eq_true, beq_iff_eq] at hc
  obtain ⟨rfl, hz⟩ := hc
  obtain rfl : z = 0 := hz
  obtain ⟨_, a, b, ha, hb, hy⟩ := hr.cmp_inv
  obtain ⟨_, ha', haa⟩ := ha.constant_inv
  obtain rfl := ConstantExpr.mk_inj ha'
  refine hb.congr fun hs => ?_
  rw [hy hs, ← haa hs, BitVec.setWidth_eq]
  exact (BitVec.isZero_isZero b).symm

/-- The operands of a disjunction, negated: `0 == (a | b)`. -/
theorem eqZeroOr_denotes {a b : Expr} {y : BitVec 1} (hr : Denotes s (.or a b) 1 y)
    (ha : ∀ x : BitVec 1, Denotes s a 1 x →
      Denotes s (eqExprCreatePartialR ⟨1, 0⟩ a) 1 (BitVec.ofBool (0 == x)))
    (hb : ∀ x : BitVec 1, Denotes s b 1 x →
      Denotes s (eqExprCreatePartialR ⟨1, 0⟩ b) 1 (BitVec.ofBool (0 == x))) :
    Denotes s (AndExpr.create a.createIsZero b.createIsZero) 1 (BitVec.ofBool (0 == y)) := by
  obtain ⟨u, v, hu, hv, huv⟩ := hr.arith_inv
  have hza : Denotes s a.createIsZero 1 (BitVec.ofBool (u == 0)) := by
    rw [Expr.createIsZero, hu.width_eq]
    exact eqExprCreate_constant_denotes hu (ha u hu)
  have hzb : Denotes s b.createIsZero 1 (BitVec.ofBool (v == 0)) := by
    rw [Expr.createIsZero, hv.width_eq]
    exact eqExprCreate_constant_denotes hv (hb v hv)
  refine (AndExpr.create_denotes hza hzb).congr fun hs => ?_
  rw [huv hs]
  exact BitVec.isZero_and_isZero u v

/-- Comparing a cast with a constant is comparing its source with the narrowed constant. -/
theorem eqCast_denotes {src : Expr} {k : CastKind} {w' : Nat} {x y : BitVec w}
    (hr : Denotes s (.cast k src w') w y)
    (ih : ∀ (c : BitVec src.width) (v : BitVec src.width), Denotes s src src.width v →
      Denotes s (eqExprCreatePartialR ⟨src.width, c⟩ src) 1 (BitVec.ofBool (c == v))) :
    Denotes s (if (⟨w, x⟩ : ConstantExpr) = ⟨w, k.denote (x.setWidth src.width) w⟩
        then EqExpr.create src (.constant ⟨src.width, x.setWidth src.width⟩)
        else .constant (.alloc 0 1)) 1 (BitVec.ofBool (x == y)) := by
  obtain ⟨v, hv, hle, hy⟩ := hr.cast_inv
  have heq (hs : s.isSome = true) : (x == y) =
      (x == k.denote (x.setWidth src.width) w && x.setWidth src.width == v) := by
    rw [hy hs]
    cases k with
    | zext => exact BitVec.beq_setWidth x v hle
    | sext => exact BitVec.beq_signExtend x v hle
  split_ifs with hx
  · refine (eqExprCreate_constant_denotes hv (ih _ v hv)).congr fun hs => ?_
    rw [heq hs, beq_iff_eq.mpr (ConstantExpr.mk_inj hx), Bool.true_and, BEq.comm]
  · refine (Denotes.constant Nat.one_pos).congr fun hs => ?_
    have hne : x ≠ k.denote (x.setWidth src.width) w := fun h => hx (congrArg _ h)
    rw [heq hs, beq_eq_false_iff_ne.mpr hne, Bool.false_and]
    rfl

theorem eqRead_denotes {root : Array} {head : UpdateNode} {index : Expr} {x y : BitVec w}
    (hr : Denotes s (.read root head index) w y)
    (ho : (constArrayOpt && root.isConstantArray && head == .null) = true)
    (ih : ∀ (c : BitVec 32) (i : BitVec 32), Denotes s index 32 i →
      Denotes s (eqExprCreatePartialR ⟨32, c⟩ index) 1 (BitVec.ofBool (c == i))) :
    Denotes s ((constArrayMatches ⟨w, x⟩ root).foldl (fun res j => OrExpr.create res
        (EqExpr.create index (.constant (.alloc j index.width))))
      (.constant (.alloc 0 1))) 1 (BitVec.ofBool (x == y)) := by
  simp only [Bool.and_eq_true, beq_iff_eq] at ho
  obtain ⟨⟨ho, hroot⟩, rfl⟩ := ho
  obtain ⟨rfl, -, i, hi, hy⟩ := hr.read_inv
  refine (constArrayDisjunction_denotes (b := false) hi
    (fun c => eqExprCreate_constant_denotes hi (ih c i hi)) _
    (.constant Nat.one_pos)).congr fun hs => ?_
  obtain ⟨σ, hσ⟩ := Option.isSome_iff_exists.mp hs
  obtain ⟨hy, hb⟩ := hy σ hσ
  rw [Bool.false_or, any_constArrayMatches hroot ((hb ho).2 hroot rfl), hy, UpdateNode.eval,
    BitVec.setWidth_eq]

theorem eqExprCreatePartialR_denotes {x y : BitVec w} (hw : 0 < w) (hr : Denotes s r w y) :
    Denotes s (eqExprCreatePartialR ⟨w, x⟩ r) 1 (BitVec.ofBool (x == y)) := by
  induction hn : sizeOf r using Nat.strong_induction_on generalizing r w with
  | _ n ih =>
  subst hn
  have hkeep : Denotes s (eqExprCreate (.constant ⟨w, x⟩) r) 1 (BitVec.ofBool (x == y)) :=
    eqExprCreate_denotes (.constant hw) hr
  rw [eqExprCreatePartialR_eq]
  split
  case isTrue h1 =>
    obtain rfl : w = 1 := h1
    split
    case isTrue ht =>
      simp only [ConstantExpr.isTrue, beq_self_eq_true, Bool.true_and, bne_iff_ne,
        BitVec.ofNat_eq_ofNat] at ht
      obtain rfl := (BitVec.ne_zero_iff_eq_one x).mp ht
      exact hr.congr fun _ => (BitVec.ofBool_one_beq y).symm
    case isFalse ht =>
      simp only [ConstantExpr.isTrue, beq_self_eq_true, Bool.true_and, bne_iff_ne, not_not] at ht
      obtain rfl : x = 0 := ht
      split
      · split
        case isTrue hc => exact eqZeroEq_denotes hr hc
        case isFalse => exact hkeep
      · exact eqZeroOr_denotes hr
          (fun u hu => ih _ (by simp only [Expr.arith.sizeOf_spec]; omega) Nat.one_pos hu rfl)
          (fun u hu => ih _ (by simp only [Expr.arith.sizeOf_spec]; omega) Nat.one_pos hu rfl)
      · exact hkeep
  case isFalse h1 =>
    split
    · rename_i src w'
      exact eqCast_denotes hr fun c v hv => ih _ (by simp; omega) hv.width_pos hv rfl
    · rename_i src w'
      exact eqCast_denotes hr fun c v hv => ih _ (by simp; omega) hv.width_pos hv rfl
    · rename_i k right
      obtain ⟨a, b, ha, hb, hab⟩ := hr.arith_inv
      obtain ⟨a', rfl, haa⟩ := ha.constant_inv
      rw [ConstantExpr.sub, ConstantExpr.arith_mk]
      refine (ih _ (by simp) hw hb rfl).congr fun hs => ?_
      rw [hab hs, haa hs]
      exact congrArg _ (BitVec.beq_add x a b).symm
    · rename_i k right
      obtain ⟨a, b, ha, hb, hab⟩ := hr.arith_inv
      obtain ⟨a', rfl, haa⟩ := ha.constant_inv
      rw [ConstantExpr.sub, ConstantExpr.arith_mk]
      refine (ih _ (by simp) hw hb rfl).congr fun hs => ?_
      rw [hab hs, haa hs]
      exact congrArg _ (BitVec.beq_sub x a b).symm
    · split
      case isTrue ho =>
        dsimp only
        split
        · exact hkeep
        · exact eqRead_denotes hr ho fun c i hi => ih _ (by simp) (by decide) hi rfl
      case isFalse => exact hkeep
    · exact hkeep

theorem eqExprCreatePartial_denotes {x y : BitVec w} (hl : Denotes s l w x) :
    Denotes s (eqExprCreatePartial l ⟨w, y⟩) 1 (BitVec.ofBool (x == y)) :=
  (eqExprCreatePartialR_denotes hl.width_pos hl).congr fun _ => by rw [BEq.comm]

theorem EqExpr.create_denotes {x y : BitVec w} (hl : Denotes s l w x) (hr : Denotes s r w y) :
    Denotes s (EqExpr.create l r) 1 (BitVec.ofBool (x == y)) := by
  refine bcreateR_denotes hl hr (fun a b ha hb => ?_) (fun b hb => ?_) (fun a ha => ?_)
    (eqExprCreate_denotes hl hr)
  · exact constant_cmp_denotes .eq ha hb
  · exact (eqExprCreatePartial_denotes hl).congr fun hs => by rw [hb hs]
  · exact (eqExprCreatePartialR_denotes hl.width_pos hr).congr fun hs => by rw [ha hs]

theorem Expr.createIsZero_denotes {x : BitVec w} (hl : Denotes s l w x) :
    Denotes s l.createIsZero 1 (BitVec.ofBool (x == 0)) := by
  rw [Expr.createIsZero, hl.width_eq]
  exact EqExpr.create_denotes hl (.constant hl.width_pos)

theorem NeExpr.create_denotes {x y : BitVec w} (hl : Denotes s l w x) (hr : Denotes s r w y) :
    Denotes s (NeExpr.create l r) 1 (BitVec.ofBool (x != y)) := by
  refine (EqExpr.create_denotes (.constant Nat.one_pos) (EqExpr.create_denotes hl hr)).congr
    fun _ => ?_
  exact (BitVec.ofBool_zero_beq _).trans (BitVec.not_one_bit _)

end Eq

section Xor

theorem xorPartialR_denotes {x y : BitVec w} (hw : 0 < w) (hr : Denotes s r w y) :
    Denotes s (xorExprCreatePartialR ⟨w, x⟩ r) w (x ^^^ y) := by
  unfold xorExprCreatePartialR
  split_ifs with h0 h1
  · simp only [ConstantExpr.isZero, beq_iff_eq] at h0
    exact hr.congr fun _ => by rw [h0, BitVec.ofNat_eq_ofNat, BitVec.zero_xor]
  · obtain rfl : w = 1 := h1
    simp only [ConstantExpr.isZero, beq_iff_eq] at h0
    obtain rfl := (BitVec.ne_zero_iff_eq_one x).mp h0
    refine (eqExprCreatePartial_denotes hr).congr fun _ => ?_
    exact (BitVec.ofBool_beq_zero y).trans (BitVec.one_xor y).symm
  · exact (Denotes.constant hw).arith .xor hr

theorem XorExpr.create_denotes {x y : BitVec w} (hl : Denotes s l w x) (hr : Denotes s r w y) :
    Denotes s (XorExpr.create l r) w (x ^^^ y) := by
  refine bcreateR_denotes hl hr (fun a b ha hb => ?_) (fun b hb => ?_) (fun a ha => ?_)
    (hl.arith .xor hr)
  · exact constant_arith_denotes .xor hl.width_pos ha hb
  · refine (xorPartialR_denotes hl.width_pos hl).congr fun hs => ?_
    rw [hb hs, BitVec.xor_comm]
  · exact (xorPartialR_denotes hl.width_pos hr).congr fun hs => by rw [ha hs]

end Xor

end Klee
