import Klee.Expr.CompareSpec

/-! The shortcuts of `Expr::compare` through addresses and the set of equal pairs change no
result. -/
namespace Klee

section Memory

structure Memory where
  expr : Nat → Option ExprRef
  update : Nat → Option UpdateRef
  array : Nat → Option Array

mutual

def ExprRef.LiveIn (m : Memory) : ExprRef → Prop
  | .constant p c => m.expr p = some (.constant p c)
  | .notOptimized p e => m.expr p = some (.notOptimized p e) ∧ e.LiveIn m
  | .read p root head index => m.expr p = some (.read p root head index) ∧
      m.array root.id = some root ∧ head.LiveIn m ∧ index.LiveIn m
  | .select p c t f =>
      m.expr p = some (.select p c t f) ∧ c.LiveIn m ∧ t.LiveIn m ∧ f.LiveIn m
  | .concat p l r => m.expr p = some (.concat p l r) ∧ l.LiveIn m ∧ r.LiveIn m
  | .extract p e offset width => m.expr p = some (.extract p e offset width) ∧ e.LiveIn m
  | .cast p k e width => m.expr p = some (.cast p k e width) ∧ e.LiveIn m
  | .not p e => m.expr p = some (.not p e) ∧ e.LiveIn m
  | .arith p k l r => m.expr p = some (.arith p k l r) ∧ l.LiveIn m ∧ r.LiveIn m
  | .cmp p k l r => m.expr p = some (.cmp p k l r) ∧ l.LiveIn m ∧ r.LiveIn m

def UpdateRef.LiveIn (m : Memory) : UpdateRef → Prop
  | .null => True
  | .node p next index value => m.update p = some (.node p next index value) ∧
      next.LiveIn m ∧ index.LiveIn m ∧ value.LiveIn m

end

variable {m : Memory}

theorem ExprRef.LiveIn.expr {e : ExprRef} (h : e.LiveIn m) : m.expr e.addr = some e := by
  cases e with
  | constant p c => exact h
  | _ => exact h.1

/-- An address has one object. -/
theorem ExprRef.LiveIn.eq_of_addr {a b : ExprRef} (ha : a.LiveIn m) (hb : b.LiveIn m)
    (h : a.addr = b.addr) : a = b := by
  have hexpr := ha.expr
  rw [h, hb.expr] at hexpr
  exact (Option.some.inj hexpr).symm

mutual

theorem ExprRef.LiveIn.allReads : ∀ {e : ExprRef}, e.LiveIn m →
    e.erase.AllReads (RootIn m.array)
  | .constant _ _, _ => trivial
  | .notOptimized _ _, h => h.2.allReads
  | .read _ _ _ _, h => ⟨h.2.1, h.2.2.1.allReads, h.2.2.2.allReads⟩
  | .select _ _ _ _, h => ⟨h.2.1.allReads, h.2.2.1.allReads, h.2.2.2.allReads⟩
  | .concat _ _ _, h => ⟨h.2.1.allReads, h.2.2.allReads⟩
  | .extract _ _ _ _, h => h.2.allReads
  | .cast _ _ _ _, h => h.2.allReads
  | .not _ _, h => h.2.allReads
  | .arith _ _ _ _, h => ⟨h.2.1.allReads, h.2.2.allReads⟩
  | .cmp _ _ _ _, h => ⟨h.2.1.allReads, h.2.2.allReads⟩

theorem UpdateRef.LiveIn.allReads : ∀ {un : UpdateRef}, un.LiveIn m →
    un.erase.AllReads (RootIn m.array)
  | .null, _ => trivial
  | .node _ _ _ _, h => ⟨h.2.1.allReads, h.2.2.1.allReads, h.2.2.2.allReads⟩

end

theorem UpdateRef.size_erase : ∀ un : UpdateRef, un.erase.size = un.getSize
  | .null => rfl
  | .node _ next _ _ => by rw [UpdateRef.erase, UpdateNode.size, UpdateRef.getSize,
      next.size_erase, Nat.add_comm]

variable [APIntHash]

mutual

/-- The stored hash does not depend on addresses. -/
theorem ExprRef.hash_erase : ∀ e : ExprRef, e.erase.hash = e.hash
  | .constant _ _ => rfl
  | .notOptimized _ e => by rw [ExprRef.erase, Expr.hash, ExprRef.hash, e.hash_erase]
  | .read _ root head index => by
    rw [ExprRef.erase, Expr.hash, ExprRef.hash, head.hash_erase, index.hash_erase]
  | .select _ c t f => by
    rw [ExprRef.erase, Expr.hash, ExprRef.hash, c.hash_erase, t.hash_erase, f.hash_erase]
  | .concat _ l r => by rw [ExprRef.erase, Expr.hash, ExprRef.hash, l.hash_erase, r.hash_erase]
  | .extract _ e _ _ => by rw [ExprRef.erase, Expr.hash, ExprRef.hash, e.hash_erase]
  | .cast _ _ e _ => by rw [ExprRef.erase, Expr.hash, ExprRef.hash, e.hash_erase]
  | .not _ e => by rw [ExprRef.erase, Expr.hash, ExprRef.hash, e.hash_erase]
  | .arith _ _ l r => by rw [ExprRef.erase, Expr.hash, ExprRef.hash, l.hash_erase, r.hash_erase]
  | .cmp _ _ l r => by rw [ExprRef.erase, Expr.hash, ExprRef.hash, l.hash_erase, r.hash_erase]

theorem UpdateRef.hash_erase : ∀ un : UpdateRef, un.erase.hash = un.hash
  | .null => rfl
  | .node _ next index value => by
    rw [UpdateRef.erase, UpdateNode.hash, UpdateRef.hash, next.hash_erase, index.hash_erase,
      value.hash_erase]

end

end Memory

section Equivs

variable {m : Memory}

def EquivsRight (m : Memory) (equivs : ExprEquivSet) : Prop :=
  ∀ p q, (p, q) ∈ equivs → ∀ a b, m.expr p = some a → m.expr q = some b → a.erase = b.erase

theorem equivsRight_nil : EquivsRight m [] := fun _ _ h => absurd h List.not_mem_nil

/-- The comparison returns `r` and leaves the set right. -/
def Returns (m : Memory) (x : EquivM Ordering) (r : Ordering) : Prop :=
  ∀ equivs, EquivsRight m equivs → ∃ equivs', EquivsRight m equivs' ∧ x equivs = (r, equivs')

variable {x y : EquivM Ordering} {r s : Ordering}

theorem returns_pure (r : Ordering) : Returns m (pure r) r :=
  fun equivs h => ⟨equivs, h, rfl⟩

theorem orElse_of_eq {equivs equivs' : ExprEquivSet} (h : x equivs = (.eq, equivs')) :
    orElse x y equivs = y equivs' := by
  simp only [orElse, bind, StateT.bind, h]

theorem orElse_of_ne {equivs equivs' : ExprEquivSet} (hr : r ≠ .eq)
    (h : x equivs = (r, equivs')) : orElse x y equivs = (r, equivs') := by
  simp only [orElse, bind, StateT.bind, h]
  cases r with
  | eq => exact absurd rfl hr
  | _ => rfl

theorem Returns.orElse (hx : Returns m x r) (hy : r = .eq → Returns m y s) :
    Returns m (orElse x y) (r.then s) := by
  intro equivs h
  obtain ⟨equivs', h', hrun⟩ := hx equivs h
  by_cases hr : r = .eq
  · subst hr
    rw [orElse_of_eq hrun]
    exact hy rfl equivs' h'
  · refine ⟨equivs', h', (orElse_of_ne hr hrun).trans ?_⟩
    cases r with
    | eq => exact absurd rfl hr
    | _ => rfl

theorem Returns.clearing (hx : Returns m x r) : Returns m (clearing x) r := by
  intro equivs h
  obtain ⟨equivs', -, hrun⟩ := hx equivs h
  refine ⟨[], equivsRight_nil, ?_⟩
  change ((x equivs).1, ([] : ExprEquivSet)) = _
  rw [hrun]

/-- A pair of addresses in order. -/
theorem mem_ordered_iff {p q : Nat} {equivs : ExprEquivSet} (h : EquivsRight m equivs)
    {a b : ExprRef} (ha : m.expr p = some a) (hb : m.expr q = some b)
    (hmem : (if p < q then (p, q) else (q, p)) ∈ equivs) : a.erase = b.erase := by
  by_cases hlt : p < q
  · rw [if_pos hlt] at hmem
    exact h p q hmem a b ha hb
  · rw [if_neg hlt] at hmem
    exact (h q p hmem b a hb ha).symm

theorem equivsRight_insert {p q : Nat} {equivs : ExprEquivSet} (h : EquivsRight m equivs)
    {a b : ExprRef} (ha : m.expr p = some a) (hb : m.expr q = some b) (hab : a.erase = b.erase) :
    EquivsRight m ((if p < q then (p, q) else (q, p)) :: equivs) := by
  intro p' q' hmem a' b' ha' hb'
  cases List.mem_cons.mp hmem with
  | inr hmem => exact h p' q' hmem a' b' ha' hb'
  | inl heq =>
    by_cases hlt : p < q
    · rw [if_pos hlt] at heq
      obtain ⟨rfl, rfl⟩ := Prod.mk.inj heq
      rw [← Option.some.inj (ha.symm.trans ha'), ← Option.some.inj (hb.symm.trans hb'), hab]
    · rw [if_neg hlt] at heq
      obtain ⟨rfl, rfl⟩ := Prod.mk.inj heq
      rw [← Option.some.inj (ha.symm.trans hb'), ← Option.some.inj (hb.symm.trans ha'), hab]

theorem UpdateRef.LiveIn.eq_of_addr {p q : Nat} {next next' : UpdateRef}
    {index value index' value' : ExprRef} (ha : (UpdateRef.node p next index value).LiveIn m)
    (hb : (UpdateRef.node q next' index' value').LiveIn m) (h : p = q) :
    UpdateRef.node p next index value = .node q next' index' value' := by
  have hupdate := ha.1
  rw [h, hb.1] at hupdate
  rw [h]
  exact (Option.some.inj hupdate).symm

variable [APIntHash]

/-- One call of `compare`, when the parts compare right. -/
theorem returns_withEquivs {a b : ExprRef} {kinds hashes parts : Ordering} (ha : a.LiveIn m)
    (hb : b.LiveIn m) (hx : Returns m x parts)
    (hab : a.erase.compare b.erase = kinds.then (hashes.then parts)) :
    Returns m (withEquivs a.addr b.addr kinds hashes x) (a.erase.compare b.erase) := by
  intro equivs h
  by_cases haddr : a.addr = b.addr
  · refine ⟨equivs, h, ?_⟩
    rw [ha.eq_of_addr hb haddr, Expr.compare_self]
    change (if b.addr = b.addr then pure .eq else _ : EquivM Ordering) equivs = _
    rw [if_pos rfl]
    rfl
  by_cases hmem : (if a.addr < b.addr then (a.addr, b.addr) else (b.addr, a.addr)) ∈ equivs
  · refine ⟨equivs, h, ?_⟩
    rw [mem_ordered_iff h ha.expr hb.expr hmem, Expr.compare_self]
    unfold withEquivs
    rw [if_neg haddr]
    change (if _ ∈ equivs then pure .eq else _ : EquivM Ordering) equivs = _
    rw [if_pos hmem]
    rfl
  have hrest : withEquivs a.addr b.addr kinds hashes x equivs =
      orElse (pure (kinds.then hashes)) (orElse x (insertEquiv a.addr b.addr)) equivs := by
    unfold withEquivs
    rw [if_neg haddr]
    change (if _ ∈ equivs then pure .eq else _ : EquivM Ordering) equivs = _
    rw [if_neg hmem]
  have hall : a.erase.compare b.erase = (kinds.then hashes).then (parts.then .eq) := by
    rw [hab, Ordering.then_eq, Ordering.then_assoc]
  rw [hrest, hall]
  refine (returns_pure _).orElse (fun hkinds => hx.orElse fun hparts => ?_) equivs h
  -- the pair is inserted once everything was equal
  have heq : a.erase = b.erase := by
    refine (Expr.compare_eq_iff ha.allReads hb.allReads).mp ?_
    rw [hall, hkinds, hparts]
    rfl
  exact fun equivs h => ⟨_, equivsRight_insert h ha.expr hb.expr heq, rfl⟩

mutual

/-- The result is that of the comparison without addresses and without the set. -/
theorem ExprRef.compareEquivs_returns : ∀ (a : ExprRef) {b : ExprRef}, a.LiveIn m → b.LiveIn m →
    Returns m (a.compareEquivs b) (a.erase.compare b.erase) := by
  intro a b ha hb
  rw [ExprRef.compareEquivs.eq_def, ← a.hash_erase, ← b.hash_erase]
  refine returns_withEquivs ha hb ?_ (Expr.compare.eq_def a.erase b.erase)
  cases a with
  | constant p c => cases b with
    | constant q d => exact returns_pure (compareConstants c d)
    | _ => exact returns_pure .eq
  | notOptimized p e => cases b with
    | notOptimized q e' => exact e.compareEquivs_returns ha.2 hb.2
    | _ => exact returns_pure .eq
  | read p root head index => cases b with
    | read q root' head' index' =>
      dsimp only [ExprRef.erase]
      rw [← head.size_erase, ← head'.size_erase]
      exact ((returns_pure _).orElse fun _ =>
        head.compareNodes_returns ha.2.2.1 hb.2.2.1).orElse fun _ =>
          index.compareEquivs_returns ha.2.2.2 hb.2.2.2
    | _ => exact returns_pure .eq
  | select p c t f => cases b with
    | select q c' t' f' =>
      exact (c.compareEquivs_returns ha.2.1 hb.2.1).orElse fun _ =>
        (t.compareEquivs_returns ha.2.2.1 hb.2.2.1).orElse fun _ =>
          f.compareEquivs_returns ha.2.2.2 hb.2.2.2
    | _ => exact returns_pure .eq
  | concat p l r => cases b with
    | concat q l' r' =>
      exact (returns_pure _).orElse fun _ =>
        (l.compareEquivs_returns ha.2.1 hb.2.1).orElse fun _ =>
          r.compareEquivs_returns ha.2.2 hb.2.2
    | _ => exact returns_pure .eq
  | extract p e offset width => cases b with
    | extract q e' offset' width' =>
      exact (returns_pure _).orElse fun _ => e.compareEquivs_returns ha.2 hb.2
    | _ => exact returns_pure .eq
  | cast p k e width => cases b with
    | cast q k' e' width' =>
      exact (returns_pure _).orElse fun _ => e.compareEquivs_returns ha.2 hb.2
    | _ => exact returns_pure .eq
  | not p e => cases b with
    | not q e' => exact e.compareEquivs_returns ha.2 hb.2
    | _ => exact returns_pure .eq
  | arith p k l r => cases b with
    | arith q k' l' r' =>
      exact (l.compareEquivs_returns ha.2.1 hb.2.1).orElse fun _ =>
        r.compareEquivs_returns ha.2.2 hb.2.2
    | _ => exact returns_pure .eq
  | cmp p k l r => cases b with
    | cmp q k' l' r' =>
      exact (l.compareEquivs_returns ha.2.1 hb.2.1).orElse fun _ =>
        r.compareEquivs_returns ha.2.2 hb.2.2
    | _ => exact returns_pure .eq

/-- Lists of the same length. -/
theorem UpdateRef.compareNodes_returns : ∀ (a : UpdateRef) {b : UpdateRef}, a.LiveIn m → b.LiveIn m →
    Returns m (a.compareNodes b) (a.erase.compare b.erase) := by
  intro a b ha hb
  rw [UpdateRef.compareNodes.eq_def]
  cases a with
  | null => cases b with
    | null => exact returns_pure .eq
    | node _ _ _ _ => exact returns_pure .eq
  | node p next index value => cases b with
    | null => exact returns_pure .eq
    | node q next' index' value' =>
      dsimp only
      by_cases haddr : p = q
      · rw [if_pos haddr, ha.eq_of_addr hb haddr, UpdateNode.compare_self]
        exact returns_pure .eq
      · rw [if_neg haddr]
        refine Returns.orElse (Returns.orElse (Returns.clearing ?_) fun _ => Returns.clearing ?_)
          fun _ => next.compareNodes_returns ha.2.1 hb.2.1
        · exact index.compareEquivs_returns ha.2.2.1 hb.2.2.1
        · exact value.compareEquivs_returns ha.2.2.2 hb.2.2.2

end

end Equivs

section Total

variable [APIntHash] {m : Memory} {a b c : ExprRef}

/-- What `Expr::compare` returns. The static set is empty between two calls. -/
def ExprRef.ordering (a b : ExprRef) : Ordering := (a.compare b []).1

theorem ExprRef.compare_run (ha : a.LiveIn m) (hb : b.LiveIn m) :
    a.compare b [] = (a.erase.compare b.erase, []) := by
  obtain ⟨equivs, -, hrun⟩ := a.compareEquivs_returns ha hb [] equivsRight_nil
  change ((a.compareEquivs b []).1, ([] : ExprEquivSet)) = _
  rw [hrun]

theorem ExprRef.ordering_eq (ha : a.LiveIn m) (hb : b.LiveIn m) :
    a.ordering b = a.erase.compare b.erase :=
  congrArg Prod.fst (ExprRef.compare_run ha hb)

/-- The expressions of a memory are totally ordered, equal ones have the same hash, and from
any set that comparisons leave behind the result is that of the comparison without a set. -/
theorem ExprRef.ordering_total (ha : a.LiveIn m) (hb : b.LiveIn m) (hc : c.LiveIn m) :
    ((a.ordering b = .eq ↔ a.erase = b.erase) ∧ b.ordering a = (a.ordering b).swap ∧
      ((a.ordering b).isLE → (b.ordering c).isLE → (a.ordering c).isLE)) ∧
    (a.erase = b.erase → a.hash = b.hash) ∧
    a.ordering b = a.erase.compare b.erase ∧ (a.compare b []).2 = [] ∧
    ∀ equivs, EquivsRight m equivs → (a.compareEquivs b equivs).1 = a.ordering b ∧
      EquivsRight m (a.compareEquivs b equivs).2 := by
  rw [ordering_eq ha hb, ordering_eq hb ha, ordering_eq hb hc, ordering_eq ha hc,
    ExprRef.compare_run ha hb]
  refine ⟨⟨Expr.compare_eq_iff ha.allReads hb.allReads, a.erase.compare_swap b.erase,
    (a.erase.compare_chained b.erase c.erase).isLE⟩, fun h => ?_, rfl, rfl, fun equivs h => ?_⟩
  · rw [← a.hash_erase, ← b.hash_erase, h]
  · obtain ⟨equivs', h', hrun⟩ := a.compareEquivs_returns ha hb equivs h
    rw [hrun]
    exact ⟨rfl, h'⟩

end Total

section SharedUpdates

def pair : Array := .symbolic 0 "x" 2

def sharedUpdates : UpdateRef :=
  .node 3 .null (.constant 1 ⟨32, 0#32⟩) (.constant 2 ⟨8, 7#8⟩)

/-- A read of the shared updates, as the object at `p`. -/
def readAt (p : Nat) : ExprRef := .read p pair sharedUpdates (.constant 1 ⟨32, 0#32⟩)

def readsMemory : Memory where
  expr
    | 1 => some (.constant 1 ⟨32, 0#32⟩)
    | 2 => some (.constant 2 ⟨8, 7#8⟩)
    | 4 => some (readAt 4)
    | 5 => some (readAt 5)
    | _ => none
  update
    | 3 => some sharedUpdates
    | _ => none
  array _ := some pair

theorem liveIn_readAt {p : Nat} (hp : readsMemory.expr p = some (readAt p)) :
    (readAt p).LiveIn readsMemory := ⟨hp, rfl, ⟨rfl, trivial, rfl, rfl⟩, rfl⟩

abbrev lowBits : APIntHash := ⟨fun c => c.value.setWidth 32⟩

theorem ExprRef.ordering_total_reads :
    @ExprRef.ordering lowBits (readAt 4) (readAt 5) = .eq ∧
      @ExprRef.hash lowBits (readAt 4) = @ExprRef.hash lowBits (readAt 5) := by
  have htotal := @ExprRef.ordering_total lowBits readsMemory (readAt 4) (readAt 5) (readAt 4)
    (liveIn_readAt rfl) (liveIn_readAt rfl) (liveIn_readAt rfl)
  exact ⟨htotal.1.1.mpr rfl, htotal.2.1 rfl⟩

end SharedUpdates

end Klee
