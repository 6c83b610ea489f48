import Klee.Core.Resolve

/-! The search around an example address finds the objects that feasible pointers fall into. -/
namespace Klee

variable {t : TimingSolver} {cs : List Expr} {p : Expr} {σ : Assignment}

section Bounds

variable {mo : MemoryObject} {w : Nat}

def Expr.IsPointer (p : Expr) : Prop := p.WellSorted ∧ p.width = 64

theorem MemoryObject.boundsCheck_denotes {s : Option Assignment} {x : BitVec 64}
    (hsize : mo.size < 2 ^ 32) (h : Denotes s p 64 x) :
    Denotes s (mo.getBoundsCheckPointer p) 1 (BitVec.ofBool (mo.Contains x)) := by
  have hoffset : Denotes s (mo.getOffsetExpr p) 64 (x - mo.address) :=
    SubExpr.create_denotes h (.constant (by decide))
  unfold getBoundsCheckPointer getBoundsCheckOffset
  split
  case isTrue hzero =>
    refine (EqExpr.create_denotes hoffset (.constant (by decide))).congr fun _ => ?_
    congr 1
    rw [Bool.eq_iff_iff, beq_iff_eq, decide_eq_true_iff, Contains, hzero]
    simp only [true_and, Nat.not_lt_zero, or_false]
    exact sub_eq_zero
  case isFalse hpos =>
    refine (UltExpr.create_denotes hoffset (.constant (by decide))).congr fun _ => ?_
    congr 1
    rw [Bool.eq_iff_iff, decide_eq_true_iff, Contains, BitVec.ult, decide_eq_true_iff,
      BitVec.toNat_ofNat, Nat.mod_eq_of_lt (by omega)]
    exact ⟨.inr, fun hx => hx.resolve_left fun hz => hpos hz.1⟩

theorem MemoryObject.isBool_boundsCheck (hsize : mo.size < 2 ^ 32) (hp : p.IsPointer) :
    (mo.getBoundsCheckPointer p).IsBool :=
  (boundsCheck_denotes hsize (Denotes.of_wellSorted_none hp.1 hp.2)).isBool

theorem MemoryObject.holds_boundsCheck (hsize : mo.size < 2 ^ 32) (hp : p.IsPointer) :
    (mo.getBoundsCheckPointer p).Holds σ ↔ mo.Contains (p.eval σ 64) := by
  rw [(boundsCheck_denotes hsize (Denotes.of_wellSorted hp.1 hp.2)).holds_iff,
    BitVec.ofBool_eq_one, decide_eq_true_iff]

theorem MemoryObject.isBool_base (mo : MemoryObject) (hp : p.IsPointer) :
    (UgeExpr.create p mo.getBaseExpr).IsBool ∧ (UltExpr.create p mo.getBaseExpr).IsBool := by
  have hself := Denotes.of_wellSorted_none hp.1 hp.2
  have hbase : Denotes none mo.getBaseExpr 64 mo.address := .constant (by decide)
  exact ⟨(UleExpr.create_denotes hbase hself).isBool, (UltExpr.create_denotes hself hbase).isBool⟩

theorem MemoryObject.holds_uge (hp : p.IsPointer) :
    (UgeExpr.create p mo.getBaseExpr).Holds σ ↔ mo.address ≤ p.eval σ 64 := by
  have hself := Denotes.of_wellSorted (σ := σ) hp.1 hp.2
  have hbase : Denotes (some σ) mo.getBaseExpr 64 mo.address := .constant (by decide)
  rw [UgeExpr.create, (UleExpr.create_denotes hbase hself).holds_iff, BitVec.ofBool_eq_one,
    BitVec.ule_eq_decide, decide_eq_true_iff]
  rfl

theorem MemoryObject.holds_ult (hp : p.IsPointer) :
    (UltExpr.create p mo.getBaseExpr).Holds σ ↔ p.eval σ 64 < mo.address := by
  have hself := Denotes.of_wellSorted (σ := σ) hp.1 hp.2
  have hbase : Denotes (some σ) mo.getBaseExpr 64 mo.address := .constant (by decide)
  rw [(UltExpr.create_denotes hself hbase).holds_iff, BitVec.ofBool_eq_one, BitVec.ult_eq_decide,
    decide_eq_true_iff]
  rfl

theorem MemoryObject.contains_address (mo : MemoryObject) : mo.Contains mo.address := by
  by_cases hzero : mo.size = 0
  · exact .inl ⟨hzero, rfl⟩
  · refine .inr ?_
    rw [sub_self]
    exact Nat.pos_of_ne_zero hzero

end Bounds

namespace MemoryMap

variable {objects : MemoryMap} {op op' : ObjectPair} {x : BitVec 64}

section Layout

/-- The objects of a state: in the order of their addresses, inside the memory, and apart. -/
structure Layout (objects : MemoryMap) : Prop where
  sorted : objects.Sorted
  size_lt : ∀ op ∈ objects, op.1.size < 2 ^ 32
  inside : ∀ op ∈ objects, op.1.address.toNat + op.1.size ≤ 2 ^ 64
  disjoint : ∀ op ∈ objects, ∀ op' ∈ objects, ∀ x, op.1.Contains x → op'.1.Contains x → op = op'

/-- Addresses do not wrap around inside an object. -/
theorem Layout.le_of_contains (h : objects.Layout) (hop : op ∈ objects) (hx : op.1.Contains x) :
    op.1.address ≤ x := by
  rcases hx with ⟨-, rfl⟩ | hlt
  · exact BitVec.le_refl _
  · have hinside := h.inside op hop
    rw [BitVec.toNat_sub] at hlt
    rw [BitVec.le_def]
    omega

/-- An object ends before the next one begins. -/
theorem Layout.lt_of_contains (h : objects.Layout) (hop : op ∈ objects) (hop' : op' ∈ objects)
    (hlt : op.1.address < op'.1.address) (hx : op.1.Contains x) : x < op'.1.address := by
  by_contra hge
  have hge : op'.1.address ≤ x := by simpa using hge
  have hbase : op.1.Contains op'.1.address := by
    rcases hx with ⟨-, rfl⟩ | hx
    · exact absurd hlt (by simpa using hge)
    · refine .inr ?_
      have hx' := h.le_of_contains hop (.inr hx)
      rw [BitVec.le_def] at hge hx'
      rw [BitVec.lt_def] at hlt
      rw [BitVec.toNat_sub] at hx ⊢
      omega
  have heq := h.disjoint op hop op' hop' _ hbase (MemoryObject.contains_address op'.1)
  rw [heq] at hlt
  exact BitVec.lt_irrefl _ hlt

end Layout

section Constant

/-- The object found begins last among those that begin no later than the address. -/
theorem lookupPrevious_last (hl : objects.Layout) (h : objects.lookupPrevious x = some op)
    (hop' : op' ∈ objects) (hle : op'.1.address ≤ x) : op' = op ∨ op'.1.address < op.1.address := by
  obtain ⟨-, before, after, hsplit, hbefore⟩ := List.find?_eq_some_iff_append.mp h
  have hdown : objects.reverse.Pairwise fun a b => b.1.address < a.1.address :=
    List.pairwise_reverse.mpr hl.sorted
  have hmem : op' ∈ objects.reverse := List.mem_reverse.mpr hop'
  rw [hsplit] at hdown hmem
  rcases List.mem_append.mp hmem with hmem | hmem
  · have hno := hbefore op' hmem
    rw [decide_eq_true hle] at hno
    cases hno
  rcases List.mem_cons.mp hmem with rfl | hmem
  · exact .inl rfl
  · exact .inr ((List.pairwise_cons.mp (List.pairwise_append.mp hdown).2.1).1 op' hmem)

/-- For a constant address, the object that contains it. -/
theorem resolveOne_eq_some (hl : objects.Layout) :
    objects.resolveOne x = some op ↔ op ∈ objects ∧ op.1.Contains x := by
  refine ⟨mem_of_resolveOne, ?_⟩
  rintro ⟨hop, hcontains⟩
  have hle := hl.le_of_contains hop hcontains
  unfold resolveOne
  cases hfound : objects.lookupPrevious x with
  | none =>
    have hno := List.find?_eq_none.mp hfound op (List.mem_reverse.mpr hop)
    exact absurd (decide_eq_true hle) hno
  | some q =>
    have hq : q ∈ objects ∧ q.1.address ≤ x :=
      ⟨List.mem_reverse.mp (List.mem_of_find?_eq_some hfound),
        of_decide_eq_true (p := q.1.address ≤ x) (by simpa using List.find?_some hfound)⟩
    rcases lookupPrevious_last hl hfound hop hle with rfl | hlt
    · exact if_pos hcontains
    · exact absurd hq.2 (BitVec.not_le.mpr (hl.lt_of_contains hop hq.1 hlt hcontains))

end Constant

section Search

def Feasible (cs : List Expr) (p : Expr) (op : ObjectPair) : Prop :=
  ∃ σ, Satisfies σ cs ∧ op.1.Contains (p.eval σ 64)

def Certain (cs : List Expr) (p : Expr) (op : ObjectPair) : Prop :=
  ∀ σ, Satisfies σ cs → op.1.Contains (p.eval σ 64)

variable (ht : t.Correct) (hcs : ∀ c ∈ cs, c.IsBool) (hsat : ∃ σ, Satisfies σ cs)
  (hp : p.IsPointer) (hl : objects.Layout)

include hsat in
theorem Certain.feasible (h : Certain cs p op) : Feasible cs p op := by
  obtain ⟨σ, hσ⟩ := hsat
  exact ⟨σ, hσ, h σ hσ⟩

include ht hcs hsat hp

theorem mustBeAbove (op : ObjectPair) :
    ∃ b, t.mustBeTrue cs (UgeExpr.create p op.1.getBaseExpr) = some b ∧
      (b = true ↔ ∀ σ, Satisfies σ cs → op.1.address ≤ p.eval σ 64) := by
  obtain ⟨b, hb, hiff⟩ := ht.mustBeTrue hcs (MemoryObject.isBool_base op.1 hp).1 hsat
  exact ⟨b, hb, by simpa only [MemoryObject.holds_uge hp] using hiff⟩

theorem mustBeBelow (op : ObjectPair) :
    ∃ b, t.mustBeTrue cs (UltExpr.create p op.1.getBaseExpr) = some b ∧
      (b = true ↔ ∀ σ, Satisfies σ cs → p.eval σ 64 < op.1.address) := by
  obtain ⟨b, hb, hiff⟩ := ht.mustBeTrue hcs (MemoryObject.isBool_base op.1 hp).2 hsat
  exact ⟨b, hb, by simpa only [MemoryObject.holds_ult hp] using hiff⟩

include hl

theorem mayPointInto (hop : op ∈ objects) :
    ∃ b, t.mayBeTrue cs (op.1.getBoundsCheckPointer p) = some b ∧
      (b = true ↔ Feasible cs p op) := by
  have hsize := hl.size_lt op hop
  unfold Feasible
  obtain ⟨b, hb, hiff⟩ := ht.mayBeTrue hcs (MemoryObject.isBool_boundsCheck hsize hp) hsat
  exact ⟨b, hb, by simpa only [MemoryObject.holds_boundsCheck hsize hp] using hiff⟩

theorem mustPointInto (hop : op ∈ objects) :
    ∃ b, t.mustBeTrue cs (op.1.getBoundsCheckPointer p) = some b ∧
      (b = true ↔ Certain cs p op) := by
  have hsize := hl.size_lt op hop
  unfold Certain
  obtain ⟨b, hb, hiff⟩ := ht.mustBeTrue hcs (MemoryObject.isBool_boundsCheck hsize hp) hsat
  exact ⟨b, hb, by simpa only [MemoryObject.holds_boundsCheck hsize hp] using hiff⟩

theorem checkPointerInObject_cases (hop : op ∈ objects) (rl : List ObjectPair) (max : Nat) :
    (¬ Feasible cs p op ∧ checkPointerInObject t cs p op rl max = (2, rl)) ∨
    (Feasible cs p op ∧ rl = [] ∧ Certain cs p op ∧
      checkPointerInObject t cs p op rl max = (0, [op])) ∨
    (Feasible cs p op ∧ rl ≠ [] ∧ rl.length + 1 = max ∧
      checkPointerInObject t cs p op rl max = (1, rl ++ [op])) ∨
    (Feasible cs p op ∧ (rl = [] ∨ rl.length + 1 ≠ max) ∧
      checkPointerInObject t cs p op rl max = (2, rl ++ [op])) := by
  obtain ⟨may, hmay, hmayiff⟩ := mayPointInto ht hcs hsat hp hl hop
  obtain ⟨must, hmust, hmustiff⟩ := mustPointInto ht hcs hsat hp hl hop
  unfold checkPointerInObject
  dsimp only
  rw [hmay]
  cases may with
  | false => exact .inl ⟨fun h => Bool.false_ne_true (hmayiff.mpr h), rfl⟩
  | true =>
    have hfeasible := hmayiff.mp rfl
    dsimp only
    rw [List.length_append, List.length_singleton, hmust]
    by_cases hrl : rl = []
    · rw [hrl]
      cases must with
      | true => exact .inr (.inl ⟨hfeasible, rfl, hmustiff.mp rfl, rfl⟩)
      | false => exact .inr (.inr (.inr ⟨hfeasible, .inl rfl, rfl⟩))
    · have hlen : rl.length + 1 ≠ 1 := by
        rw [Ne, Nat.add_eq_right, List.length_eq_zero_iff]
        exact hrl
      rw [if_neg hlen]
      by_cases hmax : rl.length + 1 = max
      · rw [if_pos hmax]
        exact .inr (.inr (.inl ⟨hfeasible, hrl, hmax, rfl⟩))
      · rw [if_neg hmax]
        exact .inr (.inr (.inr ⟨hfeasible, .inr hmax, rfl⟩))

noncomputable instance (cs : List Expr) (p : Expr) (op : ObjectPair) :
    Decidable (Feasible cs p op) := Classical.propDecidable _

/-- The objects among `ops` that the pointer may point into. -/
noncomputable def feasibleAmong (cs : List Expr) (p : Expr) (ops : List ObjectPair) :
    List ObjectPair :=
  ops.filter fun op => decide (Feasible cs p op)

omit ht hcs hsat hp hl in
theorem mem_feasibleAmong {ops : List ObjectPair} :
    op ∈ feasibleAmong cs p ops ↔ op ∈ ops ∧ Feasible cs p op := by
  rw [feasibleAmong, List.mem_filter, decide_eq_true_iff]

omit ht hcs hsat hp hl in
theorem feasibleAmong_cons {ops : List ObjectPair} :
    (Feasible cs p op → feasibleAmong cs p (op :: ops) = op :: feasibleAmong cs p ops) ∧
      (¬ Feasible cs p op → feasibleAmong cs p (op :: ops) = feasibleAmong cs p ops) :=
  ⟨fun h => List.filter_cons_of_pos (decide_eq_true h),
    fun h => List.filter_cons_of_neg fun hd => h (of_decide_eq_true hd)⟩

omit ht hcs hsat hp hl in
theorem feasibleAmong_eq_nil {ops : List ObjectPair} (h : ∀ op ∈ ops, ¬ Feasible cs p op) :
    feasibleAmong cs p ops = [] := by
  refine List.filter_eq_nil_iff.mpr fun op hop hd => h op hop (of_decide_eq_true hd)

/-- How a search over `ops` ends when no limit stops it: early, for want of time, with some of the
objects; early, at the one object that holds the pointer; or with all the objects that may. -/
def SearchEnds (cs : List Expr) (p : Expr) (expired : ObjectPair → Bool) (ops rl : List ObjectPair)
    (r : Option Bool × List ObjectPair) : Prop :=
  (r.1 = some true ∧ (∃ op ∈ ops, expired op = true) ∧
    r.2.Sublist (rl ++ feasibleAmong cs p ops)) ∨
  (r.1 = some false ∧ ∃ op ∈ ops, r.2 = [op] ∧ Certain cs p op) ∨
  (r.1 = none ∧ r.2 = rl ++ feasibleAmong cs p ops)

omit ht hcs hsat hp hl in
/-- The search goes on behind an object. -/
theorem SearchEnds.cons {expired : ObjectPair → Bool} {ops rl rl' : List ObjectPair}
    {r : Option Bool × List ObjectPair} (h : SearchEnds cs p expired ops rl' r)
    (hrl : rl' ++ feasibleAmong cs p ops = rl ++ feasibleAmong cs p (op :: ops)) :
    SearchEnds cs p expired (op :: ops) rl r := by
  rcases h with ⟨h, ⟨op', hop', hlate⟩, hsome⟩ | ⟨h, op', hop', hr⟩ | ⟨h, hr⟩
  · exact .inl ⟨h, ⟨op', List.mem_cons_of_mem _ hop', hlate⟩, hrl ▸ hsome⟩
  · exact .inr (.inl ⟨h, op', List.mem_cons_of_mem _ hop', hr⟩)
  · exact .inr (.inr ⟨h, hr.trans hrl⟩)

variable {max : Nat} {expired : ObjectPair → Bool}

theorem resolveDown_ends (hmax : max ≤ 1) {ops rl : List ObjectPair}
    (hops : ops.Pairwise fun a b => b.1.address < a.1.address) (hmem : ∀ op ∈ ops, op ∈ objects) :
    SearchEnds cs p expired ops rl (resolveDown t cs p max expired ops rl) := by
  induction ops generalizing rl with
  | nil => exact .inr (.inr ⟨rfl, (List.append_nil rl).symm⟩)
  | cons op ops ih =>
    obtain ⟨hbelow, hops⟩ := List.pairwise_cons.mp hops
    have hop := hmem op List.mem_cons_self
    have ih {rl' : List ObjectPair} :
        SearchEnds cs p expired ops rl' (resolveDown t cs p max expired ops rl') :=
      ih hops fun op h => hmem op (List.mem_cons_of_mem _ h)
    obtain ⟨above, habove, haboveiff⟩ := mustBeAbove ht hcs hsat hp op
    -- nothing below an object that the pointer is never below
    have hnone (h : above = true) : feasibleAmong cs p ops = [] := by
      refine feasibleAmong_eq_nil fun q hq hfeasible => ?_
      obtain ⟨σ, hσ, hcontains⟩ := hfeasible
      have hlt := hl.lt_of_contains (hmem q (List.mem_cons_of_mem _ hq)) hop (hbelow q hq) hcontains
      exact BitVec.not_le.mpr hlt (haboveiff.mp h σ hσ)
    have hnext {rl' : List ObjectPair} {r : Option Bool × List ObjectPair}
        (hrl : rl' ++ feasibleAmong cs p ops = rl ++ feasibleAmong cs p (op :: ops))
        (hstop : above = true → r = (none, rl'))
        (hdown : above = false → r = resolveDown t cs p max expired ops rl') :
        SearchEnds cs p expired (op :: ops) rl r := by
      cases above with
      | true =>
        rw [hstop rfl]
        exact .inr (.inr ⟨rfl, by rw [← hrl, hnone rfl, List.append_nil]⟩)
      | false =>
        rw [hdown rfl]
        exact ih.cons hrl
    unfold resolveDown
    split
    case isTrue hlate =>
      exact .inl ⟨rfl, ⟨op, List.mem_cons_self, hlate⟩, List.sublist_append_left _ _⟩
    case isFalse =>
      rw [habove]
      rcases checkPointerInObject_cases ht hcs hsat hp hl hop rl max with
        ⟨hno, hcheck⟩ | ⟨-, -, hcertain, hcheck⟩ | ⟨-, hrl, hlimit, -⟩ | ⟨hyes, -, hcheck⟩
      · rw [hcheck]
        exact hnext (by rw [feasibleAmong_cons.2 hno]) (by rintro rfl; rfl) (by rintro rfl; rfl)
      · rw [hcheck]
        exact .inr (.inl ⟨rfl, op, List.mem_cons_self, rfl, hcertain⟩)
      · have := List.length_pos_iff.mpr hrl
        omega
      · rw [hcheck]
        have hrl : (rl ++ [op]) ++ feasibleAmong cs p ops = rl ++ feasibleAmong cs p (op :: ops) := by
          rw [feasibleAmong_cons.1 hyes, List.append_assoc, List.singleton_append]
        exact hnext hrl (by rintro rfl; rfl) (by rintro rfl; rfl)

theorem resolveUp_ends (hmax : max ≤ 1) {ops rl : List ObjectPair}
    (hops : ops.Pairwise fun a b => a.1.address < b.1.address) (hmem : ∀ op ∈ ops, op ∈ objects) :
    SearchEnds cs p expired ops rl (resolveUp t cs p max expired ops rl) := by
  induction ops generalizing rl with
  | nil => exact .inr (.inr ⟨rfl, (List.append_nil rl).symm⟩)
  | cons op ops ih =>
    obtain ⟨habove, hops⟩ := List.pairwise_cons.mp hops
    have hop := hmem op List.mem_cons_self
    have ih {rl' : List ObjectPair} :
        SearchEnds cs p expired ops rl' (resolveUp t cs p max expired ops rl') :=
      ih hops fun op h => hmem op (List.mem_cons_of_mem _ h)
    obtain ⟨below, hbelow, hbelowiff⟩ := mustBeBelow ht hcs hsat hp op
    unfold resolveUp
    split
    case isTrue hlate =>
      exact .inl ⟨rfl, ⟨op, List.mem_cons_self, hlate⟩, List.sublist_append_left _ _⟩
    case isFalse =>
      rw [hbelow]
      cases below with
      | true =>
        -- the pointer is below this object, and so below all that follow
        have hnone : feasibleAmong cs p (op :: ops) = [] := by
          refine feasibleAmong_eq_nil fun q hq hfeasible => ?_
          obtain ⟨σ, hσ, hcontains⟩ := hfeasible
          have hle := hl.le_of_contains (hmem q hq) hcontains
          have hlt := hbelowiff.mp rfl σ hσ
          rcases List.mem_cons.mp hq with rfl | hq
          · exact BitVec.not_le.mpr hlt hle
          · exact BitVec.not_le.mpr (BitVec.lt_trans hlt (habove q hq)) hle
        exact .inr (.inr ⟨rfl, by rw [hnone, List.append_nil]⟩)
      | false =>
        dsimp only
        rcases checkPointerInObject_cases ht hcs hsat hp hl hop rl max with
          ⟨hno, hcheck⟩ | ⟨-, -, hcertain, hcheck⟩ | ⟨-, hrl, hlimit, -⟩ | ⟨hyes, -, hcheck⟩
        · rw [hcheck]
          exact ih.cons (by rw [feasibleAmong_cons.2 hno])
        · rw [hcheck]
          exact .inr (.inl ⟨rfl, op, List.mem_cons_self, rfl, hcertain⟩)
        · have := List.length_pos_iff.mpr hrl
          omega
        · rw [hcheck]
          exact ih.cons
            (by rw [feasibleAmong_cons.1 hyes, List.append_assoc, List.singleton_append])

end Search

section Resolve

variable (ht : t.Correct) (hcs : ∀ c ∈ cs, c.IsBool) (hsat : ∃ σ, Satisfies σ cs)
  (hp : p.IsPointer) (hl : objects.Layout) {max : Nat} {expired : ObjectPair → Bool}

theorem sorted_downFrom (hl : objects.Layout) :
    (objects.downFrom x).Pairwise fun a b => b.1.address < a.1.address :=
  List.pairwise_reverse.mpr (hl.sorted.sublist (List.takeWhile_sublist _))

theorem sorted_upFrom (hl : objects.Layout) :
    (objects.upFrom x).Pairwise fun a b => a.1.address < b.1.address :=
  hl.sorted.sublist (List.dropWhile_sublist _)

/-- The two directions together go over every object. -/
theorem downFrom_append_upFrom (objects : MemoryMap) (x : BitVec 64) :
    (objects.downFrom x).reverse ++ objects.upFrom x = objects := by
  rw [downFrom, List.reverse_reverse, upFrom, List.takeWhile_append_dropWhile]

theorem mem_downFrom (h : op ∈ objects.downFrom x) : op ∈ objects := by
  rw [← downFrom_append_upFrom objects x]
  exact List.mem_append_left _ (List.mem_reverse.mpr h)

theorem mem_upFrom (h : op ∈ objects.upFrom x) : op ∈ objects := by
  rw [← downFrom_append_upFrom objects x]
  exact List.mem_append_right _ h

def Exact (cs : List Expr) (p : Expr) (objects : MemoryMap) (rl : List ObjectPair) : Prop :=
  rl.Nodup ∧ ∀ op, op ∈ rl ↔ op ∈ objects ∧ Feasible cs p op

theorem exact_certain (hsat : ∃ σ, Satisfies σ cs) (hl : objects.Layout) (hop : op ∈ objects)
    (h : Certain cs p op) : Exact cs p objects [op] := by
  refine ⟨List.nodup_singleton op, fun q => ?_⟩
  rw [List.mem_singleton]
  constructor
  · rintro rfl
    exact ⟨hop, h.feasible hsat⟩
  · rintro ⟨hq, σ, hσ, hcontains⟩
    exact hl.disjoint q hq op hop _ hcontains (h σ hσ)

theorem exact_feasibleAmong (hl : objects.Layout) (x : BitVec 64) : Exact cs p objects
    (feasibleAmong cs p (objects.downFrom x) ++ feasibleAmong cs p (objects.upFrom x)) := by
  have hmem (q : ObjectPair) : q ∈ objects ↔ q ∈ objects.downFrom x ∨ q ∈ objects.upFrom x := by
    conv_lhs => rw [← downFrom_append_upFrom objects x]
    rw [List.mem_append, List.mem_reverse]
  have hnodup : (objects.downFrom x ++ objects.upFrom x).Nodup := by
    have hsorted : objects.Nodup := hl.sorted.imp fun hlt heq => by
      rw [heq] at hlt
      exact BitVec.lt_irrefl _ hlt
    rw [← downFrom_append_upFrom objects x] at hsorted
    exact ((List.reverse_perm _).append_right _).nodup_iff.mp hsorted
  constructor
  · rw [feasibleAmong, feasibleAmong, ← List.filter_append]
    exact hnodup.filter _
  · intro q
    rw [List.mem_append, mem_feasibleAmong, mem_feasibleAmong, hmem, or_and_right]

theorem exact_resolveOne (hl : objects.Layout) (hsat : ∃ σ, Satisfies σ cs) {c : ConstantExpr} :
    Exact cs (.constant c) objects (objects.resolveOne (c.value.setWidth 64)).toList := by
  have hfeasible (q : ObjectPair) :
      Feasible cs (.constant c) q ↔ q.1.Contains (c.value.setWidth 64) := by
    obtain ⟨τ, hτ⟩ := hsat
    refine ⟨fun ⟨σ, _, h⟩ => ?_, fun h => ⟨τ, hτ, ?_⟩⟩
    · rwa [Expr.eval] at h
    · rwa [Expr.eval]
  constructor
  · cases objects.resolveOne (c.value.setWidth 64) with
    | none => exact List.nodup_nil
    | some q => exact List.nodup_singleton q
  · intro q
    rw [Option.mem_toList, resolveOne_eq_some hl, hfeasible]

theorem resolve_constant {c : ConstantExpr} : resolve t cs (.constant c) max expired objects =
    (false, (objects.resolveOne (c.value.setWidth 64)).toList) := rfl

theorem resolve_eq (hnot : ∀ c, p ≠ .constant c) : resolve t cs p max expired objects =
    match t.getValue cs p with
    | none => (true, [])
    | some cex =>
      match resolveDown t cs p max expired (objects.downFrom (cex.value.setWidth 64)) [] with
      | (some incomplete, rl) => (incomplete, rl)
      | (none, rl) =>
        ((resolveUp t cs p max expired (objects.upFrom (cex.value.setWidth 64)) rl).1.getD false,
          (resolveUp t cs p max expired (objects.upFrom (cex.value.setWidth 64)) rl).2) := by
  unfold resolve
  split
  · exact absurd rfl (hnot _)
  · rfl

include ht hcs hsat hp hl in
/-- What no limit stops is a part of the exact result for want of time, or the exact one. -/
theorem resolve_cases (hmax : max ≤ 1) (expired : ObjectPair → Bool) :
    ((resolve t cs p max expired objects).1 = true ∧ (∃ op ∈ objects, expired op = true) ∧
        ∃ rl, (resolve t cs p max expired objects).2.Sublist rl ∧ Exact cs p objects rl) ∨
      ((resolve t cs p max expired objects).1 = false ∧
        Exact cs p objects (resolve t cs p max expired objects).2) := by
  by_cases hconstant : ∃ c, p = .constant c
  · obtain ⟨c, rfl⟩ := hconstant
    exact .inr ⟨rfl, exact_resolveOne hl hsat⟩
  · obtain ⟨cex, hcex, -⟩ := ht.getValue hcs hp.1 hsat
    rw [resolve_eq fun c hc => hconstant ⟨c, hc⟩, hcex]
    dsimp only
    obtain ⟨x, hx⟩ : ∃ x, x = cex.value.setWidth 64 := ⟨_, rfl⟩
    rw [← hx]
    have hdown : SearchEnds cs p expired (objects.downFrom x) []
        (resolveDown t cs p max expired (objects.downFrom x) []) :=
      resolveDown_ends ht hcs hsat hp hl hmax (sorted_downFrom hl) fun _ => mem_downFrom
    generalize resolveDown t cs p max expired (objects.downFrom x) [] = down at hdown
    obtain ⟨r, rl⟩ := down
    have hexact : Exact cs p objects _ := exact_feasibleAmong hl x
    rcases hdown with ⟨hr, ⟨op, hop, hlate⟩, hsome⟩ | ⟨hr, op, hop, hrl, hcertain⟩ | ⟨hr, hrl⟩ <;>
      dsimp only at hr <;> subst hr
    · rw [List.nil_append] at hsome
      exact .inl ⟨rfl, ⟨op, mem_downFrom hop, hlate⟩, _,
        hsome.trans (List.sublist_append_left _ _), hexact⟩
    · exact .inr ⟨rfl, hrl ▸ exact_certain hsat hl (mem_downFrom hop) hcertain⟩
    have hup : SearchEnds cs p expired (objects.upFrom x) rl
        (resolveUp t cs p max expired (objects.upFrom x) rl) :=
      resolveUp_ends ht hcs hsat hp hl hmax (sorted_upFrom hl) fun _ => mem_upFrom
    dsimp only
    generalize resolveUp t cs p max expired (objects.upFrom x) rl = up at hup
    obtain ⟨r, rl'⟩ := up
    dsimp only at hrl
    rw [List.nil_append] at hrl
    rcases hup with ⟨hr, ⟨op, hop, hlate⟩, hsome⟩ | ⟨hr, op, hop, hrl', hcertain⟩ | ⟨hr, hrl'⟩ <;>
      dsimp only at hr <;> subst hr
    · exact .inl ⟨rfl, ⟨op, mem_upFrom hop, hlate⟩, _, hrl ▸ hsome, hexact⟩
    · exact .inr ⟨rfl, hrl' ▸ exact_certain hsat hl (mem_upFrom hop) hcertain⟩
    · dsimp only at hrl'
      refine .inr ⟨rfl, ?_⟩
      dsimp only
      rw [hrl', hrl]
      exact hexact

end Resolve

section ResolveOne

variable (ht : t.Correct) (hcs : ∀ c ∈ cs, c.IsBool) (hsat : ∃ σ, Satisfies σ cs)
  (hp : p.IsPointer) (hl : objects.Layout)

include ht hcs hsat hp hl

theorem resolveOneDown_feasible {ops : List ObjectPair} (hmem : ∀ op ∈ ops, op ∈ objects)
    (h : resolveOneDown t cs p ops = some (some op)) : op ∈ objects ∧ Feasible cs p op := by
  induction ops with
  | nil => cases h
  | cons q ops ih =>
    have hq := hmem q List.mem_cons_self
    obtain ⟨may, hmay, hmayiff⟩ := mayPointInto ht hcs hsat hp hl hq
    obtain ⟨above, habove, -⟩ := mustBeAbove ht hcs hsat hp q
    simp only [resolveOneDown, hmay, habove, Option.bind_eq_bind, Option.bind_some] at h
    cases may with
    | true =>
      obtain rfl : q = op := Option.some.inj (Option.some.inj h)
      exact ⟨hq, hmayiff.mp rfl⟩
    | false =>
      cases above with
      | true => cases h
      | false => exact ih (fun r hr => hmem r (List.mem_cons_of_mem _ hr)) h

theorem resolveOneUp_feasible {ops : List ObjectPair} (hmem : ∀ op ∈ ops, op ∈ objects)
    (h : resolveOneUp t cs p ops = some (some op)) : op ∈ objects ∧ Feasible cs p op := by
  induction ops with
  | nil => cases h
  | cons q ops ih =>
    have hq := hmem q List.mem_cons_self
    obtain ⟨may, hmay, hmayiff⟩ := mayPointInto ht hcs hsat hp hl hq
    obtain ⟨below, hbelow, -⟩ := mustBeBelow ht hcs hsat hp q
    simp only [resolveOneUp, hmay, hbelow, Option.bind_eq_bind, Option.bind_some] at h
    cases below with
    | true => cases h
    | false =>
      cases may with
      | true =>
        obtain rfl : q = op := Option.some.inj (Option.some.inj h)
        exact ⟨hq, hmayiff.mp rfl⟩
      | false => exact ih (fun r hr => hmem r (List.mem_cons_of_mem _ hr)) h

theorem resolveOneExpr_feasible (h : resolveOneExpr t cs p objects = some (some op)) :
    op ∈ objects ∧ Feasible cs p op := by
  unfold resolveOneExpr at h
  split at h
  · rename_i c
    have hexact := (exact_resolveOne hl hsat (c := c)).2 op
    exact hexact.mp (Option.mem_toList.mpr (Option.some.inj h))
  · obtain ⟨cex, hcex, hw, σ, hσ, hvalue⟩ := ht.getValue hcs hp.1 hsat
    simp only [hcex, Option.bind_eq_bind, Option.bind_some] at h
    have hex : p.eval σ 64 = cex.value.setWidth 64 := by
      have hw : cex.width = 64 := hw.trans hp.2
      obtain ⟨w, v⟩ := cex
      obtain rfl : w = 64 := hw
      rw [BitVec.setWidth_eq]
      exact hvalue
    split at h
    · rename_i q hq
      obtain rfl : q = op := Option.some.inj (Option.some.inj h)
      obtain ⟨hfound, hlt⟩ := Option.filter_eq_some_iff.mp hq
      refine ⟨List.mem_reverse.mp (List.mem_of_find?_eq_some hfound), σ, hσ, .inr ?_⟩
      rw [hex]
      exact of_decide_eq_true hlt
    · cases hdown : resolveOneDown t cs p (objects.downFrom (cex.value.setWidth 64)) with
      | none =>
        rw [hdown] at h
        cases h
      | some r =>
        rw [hdown] at h
        cases r with
        | some q =>
          obtain rfl : q = op := Option.some.inj (Option.some.inj h)
          exact resolveOneDown_feasible ht hcs hsat hp hl (fun _ => mem_downFrom) hdown
        | none => exact resolveOneUp_feasible ht hcs hsat hp hl (fun _ => mem_upFrom) h

end ResolveOne

section Main

/-- Around any example, a search that claims to be complete finds each object that feasible pointers
fall into once, and a search that is given time is complete; and the one object that `resolveOne`
finds is such an object, for a constant pointer the only one that contains it. -/
theorem resolve_exact (t : TimingSolver) (ht : t.Correct) (objects : MemoryMap)
    (hl : objects.Layout) (cs : List Expr) (hcs : ∀ c ∈ cs, c.IsBool)
    (hsat : ∃ σ, Satisfies σ cs) (p : Expr) (hp : p.IsPointer) :
    (∀ expired rl, resolve t cs p 0 expired objects = (false, rl) → Exact cs p objects rl) ∧
    (∀ expired, (∀ op ∈ objects, expired op = false) →
      (resolve t cs p 0 expired objects).1 = false) ∧
    (∀ op, resolveOneExpr t cs p objects = some (some op) → op ∈ objects ∧ Feasible cs p op) ∧
    ∀ c, p = .constant c → ∀ r, resolveOneExpr t cs p objects = some r →
      ∀ op, r = some op ↔ op ∈ objects ∧ op.1.Contains (c.value.setWidth 64) := by
  have hcases := resolve_cases ht hcs hsat hp hl (Nat.zero_le 1)
  refine ⟨fun expired rl h => ?_, fun expired hintime => ?_,
    fun op => resolveOneExpr_feasible ht hcs hsat hp hl, ?_⟩
  · rcases hcases expired with ⟨htrue, -⟩ | ⟨-, hexact⟩
    · rw [h] at htrue
      cases htrue
    · rwa [h] at hexact
  · rcases hcases expired with ⟨-, ⟨op, hop, hlate⟩, -⟩ | ⟨hfalse, -⟩
    · rw [hintime op hop] at hlate
      cases hlate
    · exact hfalse
  · rintro c rfl r hr op
    rw [← Option.some.inj hr]
    exact resolveOne_eq_some hl

theorem four_lt : 4 < 2 ^ 32 := by decide

def twoObjects : MemoryMap :=
  [(⟨4096, 4, false⟩, .ofMemoryObject 4 four_lt),
    (⟨8192, 0, false⟩, .ofMemoryObject 0 (by decide))]

theorem layout_twoObjects : twoObjects.Layout where
  sorted := by simp [Sorted, twoObjects]
  size_lt := by simp [twoObjects]
  inside := by simp [twoObjects]
  disjoint op hop op' hop' x hx hx' := by
    have hapart : ¬ ((⟨4096, 4, false⟩ : MemoryObject).Contains x ∧
        (⟨8192, 0, false⟩ : MemoryObject).Contains x) := by
      rintro ⟨⟨hzero, -⟩ | hlt, ⟨-, rfl⟩ | hlt'⟩
      · cases hzero
      · cases hzero
      · revert hlt
        decide
      · exact absurd hlt' (Nat.not_lt_zero _)
    rcases List.mem_pair.mp hop with rfl | rfl <;> rcases List.mem_pair.mp hop' with rfl | rfl
    · rfl
    · exact absurd ⟨hx, hx'⟩ hapart
    · exact absurd ⟨hx', hx⟩ hapart
    · rfl

def eitherObject : Expr := .select (byteIs 1 0) (.constant ⟨64, 4097⟩) (.constant ⟨64, 8192⟩)

theorem isPointer_eitherObject : eitherObject.IsPointer := by
  have hcond : (byteIs 1 0).WellSorted ∧ (byteIs 1 0).width = 1 := isBool_byteIs 1 0
  simpa [eitherObject, Expr.IsPointer, Expr.WellSorted, Expr.width] using hcond

theorem resolve_exact_twoObjects : Exact [] eitherObject twoObjects
    (resolve .ideal [] eitherObject 0 (fun _ => false) twoObjects).2 := by
  obtain ⟨hexact, hcomplete, -⟩ := resolve_exact .ideal TimingSolver.correct_ideal twoObjects
    layout_twoObjects [] nofun ⟨fun _ _ => 0, satisfies_nil _⟩ eitherObject isPointer_eitherObject
  exact hexact (fun _ => false) _ (Prod.ext (hcomplete _ fun _ _ => rfl) rfl)

end Main

section Limit

/-- What is promised of a limit: no more pairs than that, and a search that claims to be complete
is one that the limit has not touched. -/
def LimitKept (t : TimingSolver) (cs : List Expr) (p : Expr) (objects : MemoryMap)
    (expired : ObjectPair → Bool) (max : Nat) : Prop :=
  (resolve t cs p max expired objects).2.length ≤ max ∧
    ((resolve t cs p max expired objects).1 = false →
      resolve t cs p max expired objects = resolve t cs p 0 expired objects)

variable {max : Nat} {expired : ObjectPair → Bool} {ops rl : List ObjectPair}

/-- A limit of one is the one that the helper never tests. -/
theorem checkPointerInObject_one :
    checkPointerInObject t cs p op rl 1 = checkPointerInObject t cs p op rl 0 := by
  unfold checkPointerInObject
  dsimp only
  split
  · rfl
  · rfl
  · rw [List.length_append, List.length_singleton]
    by_cases hone : rl.length + 1 = 1
    · rw [if_pos hone, if_pos hone]
    · rw [if_neg hone, if_neg hone, if_neg hone, if_neg (Nat.succ_ne_zero _)]

theorem resolveDown_one :
    resolveDown t cs p 1 expired ops rl = resolveDown t cs p 0 expired ops rl := by
  induction ops generalizing rl with
  | nil => rfl
  | cons op ops ih => simp only [resolveDown, checkPointerInObject_one, ih]

theorem resolveUp_one :
    resolveUp t cs p 1 expired ops rl = resolveUp t cs p 0 expired ops rl := by
  induction ops generalizing rl with
  | nil => rfl
  | cons op ops ih => simp only [resolveUp, checkPointerInObject_one, ih]

theorem resolve_one : resolve t cs p 1 expired objects = resolve t cs p 0 expired objects := by
  unfold resolve
  simp only [resolveDown_one, resolveUp_one]

variable (t cs p op) in
/-- A greater limit is tested on every object that is found. -/
theorem checkPointerInObject_limit (hmax : 2 ≤ max) (hrl : rl.length < max) :
    (checkPointerInObject t cs p op rl max = checkPointerInObject t cs p op rl 0 ∨
      (checkPointerInObject t cs p op rl max).1 = 1) ∧
    (checkPointerInObject t cs p op rl max).2.length ≤ max ∧
    ((checkPointerInObject t cs p op rl max).1 = 2 →
      (checkPointerInObject t cs p op rl max).2.length < max) := by
  unfold checkPointerInObject
  dsimp only
  split
  · exact ⟨.inl rfl, hrl.le, fun _ => hrl⟩
  · exact ⟨.inl rfl, hrl.le, fun _ => hrl⟩
  · have hlen : (rl ++ [op]).length = rl.length + 1 := by
      rw [List.length_append, List.length_singleton]
    rw [hlen]
    by_cases hone : rl.length + 1 = 1
    · rw [if_pos hone, if_pos hone]
      split <;> exact ⟨.inl rfl, by dsimp only; omega, fun _ => by dsimp only; omega⟩
    · rw [if_neg hone, if_neg hone]
      by_cases hreached : rl.length + 1 = max
      · rw [if_pos hreached]
        exact ⟨.inr rfl, by dsimp only; omega, fun h => by cases h⟩
      · rw [if_neg hreached, if_neg (Nat.succ_ne_zero _)]
        exact ⟨.inl rfl, by dsimp only; omega, fun _ => by dsimp only; omega⟩

def EndsWithin (max : Nat) (r r₀ : Option Bool × List ObjectPair) : Prop :=
  (r = r₀ ∨ r.1 = some true) ∧ r.2.length ≤ max ∧ (r.1 = none → r.2.length < max)

variable (t cs p) in
theorem resolveDown_within (expired : ObjectPair → Bool) (ops rl : List ObjectPair)
    (hmax : 2 ≤ max) (hrl : rl.length < max) :
    EndsWithin max (resolveDown t cs p max expired ops rl)
      (resolveDown t cs p 0 expired ops rl) := by
  induction ops generalizing rl with
  | nil => exact ⟨.inl rfl, hrl.le, fun _ => hrl⟩
  | cons op ops ih =>
    unfold resolveDown
    split
    case isTrue => exact ⟨.inl rfl, hrl.le, fun h => by cases h⟩
    case isFalse =>
      obtain ⟨heq | hlimit, hle, hlt⟩ := checkPointerInObject_limit t cs p op hmax hrl
      · rw [← heq]
        generalize checkPointerInObject t cs p op rl max = r at hle hlt
        obtain ⟨code, rl'⟩ := r
        dsimp only at hle hlt ⊢
        by_cases hcode : code ≠ 2
        · rw [if_pos hcode, if_pos hcode]
          exact ⟨.inl rfl, hle, fun h => by cases h⟩
        · rw [if_neg hcode, if_neg hcode]
          have hlt := hlt (not_not.mp hcode)
          split
          · exact ⟨.inl rfl, hle, fun h => by cases h⟩
          · exact ⟨.inl rfl, hle, fun _ => hlt⟩
          · exact ih _ hlt
      · generalize checkPointerInObject t cs p op rl max = r at hlimit hle
        obtain ⟨code, rl'⟩ := r
        obtain rfl : code = 1 := hlimit
        exact ⟨.inr rfl, hle, fun h => by cases h⟩

variable (t cs p) in
theorem resolveUp_within (expired : ObjectPair → Bool) (ops rl : List ObjectPair)
    (hmax : 2 ≤ max) (hrl : rl.length < max) :
    EndsWithin max (resolveUp t cs p max expired ops rl)
      (resolveUp t cs p 0 expired ops rl) := by
  induction ops generalizing rl with
  | nil => exact ⟨.inl rfl, hrl.le, fun _ => hrl⟩
  | cons op ops ih =>
    unfold resolveUp
    split
    case isTrue => exact ⟨.inl rfl, hrl.le, fun h => by cases h⟩
    case isFalse =>
      split
      · exact ⟨.inl rfl, hrl.le, fun h => by cases h⟩
      · exact ⟨.inl rfl, hrl.le, fun _ => hrl⟩
      obtain ⟨heq | hlimit, hle, hlt⟩ := checkPointerInObject_limit t cs p op hmax hrl
      · rw [← heq]
        generalize checkPointerInObject t cs p op rl max = r at hle hlt
        obtain ⟨code, rl'⟩ := r
        dsimp only at hle hlt ⊢
        by_cases hcode : code ≠ 2
        · rw [if_pos hcode, if_pos hcode]
          exact ⟨.inl rfl, hle, fun h => by cases h⟩
        · rw [if_neg hcode, if_neg hcode]
          exact ih _ (hlt (not_not.mp hcode))
      · generalize checkPointerInObject t cs p op rl max = r at hlimit hle
        obtain ⟨code, rl'⟩ := r
        obtain rfl : code = 1 := hlimit
        exact ⟨.inr rfl, hle, fun h => by cases h⟩

/-- From a limit of two on it is kept, whatever the solver answers and whenever the time is over. -/
theorem limitKept_of_two_le (t : TimingSolver) (cs : List Expr) (p : Expr) (objects : MemoryMap)
    (expired : ObjectPair → Bool) (hmax : 2 ≤ max) : LimitKept t cs p objects expired max := by
  by_cases hconstant : ∃ c, p = .constant c
  · obtain ⟨c, rfl⟩ := hconstant
    refine ⟨?_, fun _ => rfl⟩
    rw [resolve_constant]
    exact Option.length_toList_le.trans (by omega)
  · have hnot (c : ConstantExpr) : p ≠ .constant c := fun hc => hconstant ⟨c, hc⟩
    unfold LimitKept
    rw [resolve_eq hnot, resolve_eq hnot]
    split
    · exact ⟨Nat.zero_le _, fun _ => rfl⟩
    rename_i cex _
    obtain ⟨hdown, hle, hlt⟩ := resolveDown_within t cs p expired
      (objects.downFrom (cex.value.setWidth 64)) [] hmax (Nat.zero_lt_of_lt hmax)
    rcases hdown with hdown | hdown
    · rw [← hdown]
      split
      · rename_i incomplete rl hr
        rw [hr] at hle
        exact ⟨hle, fun _ => rfl⟩
      · rename_i rl hr
        rw [hr] at hlt
        obtain ⟨hup, hle, -⟩ := resolveUp_within t cs p expired
          (objects.upFrom (cex.value.setWidth 64)) rl hmax (hlt rfl)
        rcases hup with hup | hup
        · rw [← hup]
          exact ⟨hle, fun _ => rfl⟩
        · refine ⟨hle, fun h => ?_⟩
          rw [hup] at h
          cases h
    · split
      · rename_i incomplete rl hr
        rw [hr] at hdown hle
        obtain rfl : incomplete = true := Option.some.inj hdown
        exact ⟨hle, fun h => by cases h⟩
      · rename_i rl hr
        rw [hr] at hdown
        cases hdown

def AtMostOne (cs : List Expr) (p : Expr) (objects : MemoryMap) : Prop :=
  ∀ op ∈ objects, ∀ op' ∈ objects, Feasible cs p op → Feasible cs p op' → op = op'

/-- At a limit of one, which is not tested, it is kept where there is nothing to limit. -/
theorem limitKept_one (ht : t.Correct) (hl : objects.Layout) (hcs : ∀ c ∈ cs, c.IsBool)
    (hsat : ∃ σ, Satisfies σ cs) (hp : p.IsPointer) (expired : ObjectPair → Bool) :
    (AtMostOne cs p objects → LimitKept t cs p objects expired 1) ∧
    ((∀ op ∈ objects, expired op = false) → LimitKept t cs p objects expired 1 →
      AtMostOne cs p objects) := by
  have hcases := resolve_cases ht hcs hsat hp hl (Nat.zero_le 1) expired
  unfold LimitKept
  rw [resolve_one]
  constructor
  · intro hone
    refine ⟨?_, fun _ => rfl⟩
    have hexact {rl : List ObjectPair} (h : Exact cs p objects rl) : rl.length ≤ 1 := by
      match rl, h with
      | [], _ => exact Nat.zero_le 1
      | [_], _ => exact Nat.le_refl 1
      | op :: op' :: rl, ⟨hnodup, hmem⟩ =>
        obtain ⟨hop, hfeasible⟩ := (hmem op).mp (by simp)
        obtain ⟨hop', hfeasible'⟩ := (hmem op').mp (by simp)
        refine absurd (hone op hop op' hop' hfeasible hfeasible') ?_
        rintro rfl
        exact (List.nodup_cons.mp hnodup).1 List.mem_cons_self
    rcases hcases with ⟨-, -, rl, hsome, h⟩ | ⟨-, h⟩
    · exact hsome.length_le.trans (hexact h)
    · exact hexact h
  · rintro hintime ⟨hle, -⟩ op hop op' hop' hfeasible hfeasible'
    rcases hcases with ⟨-, ⟨q, hq, hlate⟩, -⟩ | ⟨-, -, hmem⟩
    · rw [hintime q hq] at hlate
      cases hlate
    · have h := (hmem op).mpr ⟨hop, hfeasible⟩
      have h' := (hmem op').mpr ⟨hop', hfeasible'⟩
      obtain ⟨q, hq⟩ | hnil := (Nat.le_one_iff_eq_zero_or_eq_one.mp hle).symm.imp
        List.length_eq_one_iff.mp List.length_eq_zero_iff.mp
      · rw [hq, List.mem_singleton] at h h'
        rw [h, h']
      · rw [hnil] at h
        cases h

/-- A limit of two or more is kept in every search. A limit of one is kept if, and where time does
not run out only if, the pointer may point into one object at most. -/
theorem resolve_limit (t : TimingSolver) (cs : List Expr) (p : Expr) (objects : MemoryMap)
    (max : Nat) (hmax : max ≠ 0) :
    (max ≠ 1 → ∀ expired, LimitKept t cs p objects expired max) ∧
    (t.Correct → objects.Layout → (∀ c ∈ cs, c.IsBool) → (∃ σ, Satisfies σ cs) → p.IsPointer →
      ∀ expired,
        (max ≠ 1 ∨ AtMostOne cs p objects → LimitKept t cs p objects expired max) ∧
        ((∀ op ∈ objects, expired op = false) → LimitKept t cs p objects expired max →
          max ≠ 1 ∨ AtMostOne cs p objects)) := by
  have hmany (hne : max ≠ 1) (expired : ObjectPair → Bool) :
      LimitKept t cs p objects expired max :=
    limitKept_of_two_le t cs p objects expired (by omega)
  refine ⟨hmany, fun ht hl hcs hsat hp expired => ?_⟩
  by_cases hne : max = 1
  · subst hne
    obtain ⟨hif, honlyIf⟩ := limitKept_one ht hl hcs hsat hp expired
    exact ⟨fun h => hif (h.resolve_left fun hne => hne rfl), fun hintime h =>
      .inr (honlyIf hintime h)⟩
  · exact ⟨fun _ => hmany hne expired, fun _ _ => .inl hne⟩

theorem resolve_limit_twoObjects :
    LimitKept .ideal [] eitherObject twoObjects (fun _ => false) 2 := by
  obtain ⟨-, hiff⟩ := resolve_limit .ideal [] eitherObject twoObjects 2 (by decide)
  exact (hiff TimingSolver.correct_ideal layout_twoObjects nofun ⟨fun _ _ => 0, satisfies_nil _⟩
    isPointer_eitherObject fun _ => false).1 (.inl (by decide))

theorem not_limitKept_twoObjects :
    ¬ LimitKept .ideal [] eitherObject twoObjects (fun _ => false) 1 := by
  intro hkept
  have hfeasible (v : BitVec 8) (x : BitVec 64)
      (h : eitherObject.eval (fun _ _ => v) 64 = x) (op : ObjectPair) (hx : op.1.Contains x) :
      Feasible [] eitherObject op :=
    ⟨fun _ _ => v, satisfies_nil _, by rwa [h]⟩
  have hcs : ∀ c ∈ ([] : List Expr), c.IsBool := by simp
  obtain ⟨-, hone⟩ := limitKept_one TimingSolver.correct_ideal layout_twoObjects hcs
    ⟨fun _ _ => 0, satisfies_nil _⟩ isPointer_eitherObject fun _ => false
  have heq := hone (by simp) hkept (⟨4096, 4, false⟩, .ofMemoryObject 4 (by decide))
    (by simp [twoObjects])
    (⟨8192, 0, false⟩, .ofMemoryObject 0 (by decide)) (by simp [twoObjects])
    (hfeasible 1 4097 (by decide) _ (by decide)) (hfeasible 0 8192 (by decide) _ (by decide))
  exact absurd (congrArg (fun op : ObjectPair => op.1.address) heq) (by decide)

end Limit

end MemoryMap

end Klee
