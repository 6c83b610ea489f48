import Klee.Support.ImmutableTreeHeapSpec
import Mathlib.Data.List.Perm.Basic
import Mathlib.Data.List.Forall2

/-! What a program that keeps any number of versions of an `ImmutableTree` sees. -/
namespace Klee.ImmutableTree

open Heap

variable {K V : Type} {lt : K → K → Prop} {key : V → K}

section Reference

/-- The finite maps that the versions stand for, and the values that were popped. -/
structure Reference (lt : K → K → Prop) (key : V → K) where
  versions : List (KeyedMap lt key)
  popped : List V

variable [Inhabited V]

namespace Reference

def initial : Reference lt key := ⟨[.empty], []⟩

def grow (s : Reference lt key) (m : KeyedMap lt key) : Reference lt key :=
  { s with versions := s.versions ++ [m] }

def onVersion (s : Reference lt key) (i : Nat) (f : KeyedMap lt key → Reference lt key) :
    Reference lt key :=
  (s.versions[i]?).elim s f

noncomputable def step (s : Reference lt key) : Op K V → Reference lt key
  | .insert i v => s.onVersion i fun m => s.grow (m.insert v)
  | .replace i v => s.onVersion i fun m => s.grow (m.replace v)
  | .remove i k => s.onVersion i fun m => s.grow (m.remove k)
  | .popMin i => s.onVersion i fun m =>
      { s.grow m.popMin with popped := s.popped ++ [m.min.getD default] }
  | .popMax i => s.onVersion i fun m =>
      { s.grow m.popMax with popped := s.popped ++ [m.max.getD default] }
  | .copy i => s.onVersion i s.grow
  | .destroy i => s.onVersion i fun _ => { s with versions := s.versions.eraseIdx i }

noncomputable def run (s : Reference lt key) (ops : List (Op K V)) : Reference lt key :=
  ops.foldl step s

end Reference

end Reference

section Holds

/-- In memory, `n` is the root of the tree `t`. -/
inductive Heap.Holds (h : Heap V) : Pointer → Node V → Prop
  | terminator : Holds h terminator .terminator
  | node {n : Pointer} {c : Cell V} {left right : Node V} (hn : n ≠ terminator)
    (hc : h.cells n = some c) (hl : Holds h c.left left) (hr : Holds h c.right right) :
    Holds h n (.node left right c.value c.height)

variable [Inhabited V] {h h' : Heap V} {tree : Pointer → Node V} {own : Multiset Pointer}
  {n : Pointer} {t : Node V}

theorem Heap.Inv.holds (hi : h.Inv tree own) (hn : h.Live n) : h.Holds n (tree n) := by
  induction n using Nat.strong_induction_on with
  | _ n ih =>
    by_cases ht : n = terminator
    · rw [ht, hi.tree_terminator]
      exact .terminator
    · obtain ⟨c, hc⟩ := hn
      obtain ⟨hltl, hltr⟩ := hi.children_lt n c ht hc
      obtain ⟨hcl, hcr⟩ := hi.children n c hc
      rw [hi.tree_cell n c ht hc]
      exact .node ht hc (ih _ hltl hcl) (ih _ hltr hcr)

theorem Heap.Holds.tree_eq (hi : h.Inv tree own) (ht : h.Holds n t) : tree n = t := by
  induction ht with
  | terminator => exact hi.tree_terminator
  | node hn hc _ _ ihl ihr => rw [hi.tree_cell _ _ hn hc, ihl, ihr]

end Holds

section Versions

variable [Inhabited V]

/-- The versions of one state that are still there have the trees they had. -/
def Keeps (s s' : State V) : Prop :=
  ∀ n ∈ s.versions, n ∈ s'.versions → ∀ t, s.heap.Holds n t → s'.heap.Holds n t

theorem forall₂_eraseIdx {α β : Type} {R : α → β → Prop} {as : List α} {bs : List β} (i : Nat)
    (h : List.Forall₂ R as bs) : List.Forall₂ R (as.eraseIdx i) (bs.eraseIdx i) := by
  induction h generalizing i with
  | nil => exact .nil
  | cons hab h ih =>
    cases i with
    | zero => exact h
    | succ i => exact .cons hab (ih i)

theorem forall₂_imp_of_mem {α β : Type} {R S : α → β → Prop} {as : List α} {bs : List β}
    (h : List.Forall₂ R as bs) (himp : ∀ a ∈ as, ∀ b, R a b → S a b) : List.Forall₂ S as bs := by
  induction h with
  | nil => exact .nil
  | cons hab _ ih =>
    exact .cons (himp _ List.mem_cons_self _ hab)
      (ih fun a ha => himp a (List.mem_cons_of_mem _ ha))

/-- The two sides have a version at the same places. -/
theorem forall₂_getElem? {α β : Type} {R : α → β → Prop} {as : List α} {bs : List β} (i : Nat)
    (h : List.Forall₂ R as bs) : (as[i]? = none ∧ bs[i]? = none) ∨
      ∃ a b, as[i]? = some a ∧ bs[i]? = some b ∧ R a b := by
  induction h generalizing i with
  | nil => exact .inl ⟨rfl, rfl⟩
  | cons hab h ih =>
    cases i with
    | zero => exact .inr ⟨_, _, rfl, rfl, hab⟩
    | succ i => exact ih i

theorem initial_cells_terminator : (Heap.initial : Heap V).cells terminator =
    some ⟨terminator, terminator, default, 0, 3⟩ := by
  simp [Heap.initial]

theorem initial_cells_of_ne {n : Pointer} (hn : n ≠ terminator) :
    (Heap.initial : Heap V).cells n = none := by
  simp [Heap.initial, Function.update_of_ne hn]

variable {s s' : State V} {r : Reference lt key} {tree : Pointer → Node V} {n : Pointer}

structure Sim (s : State V) (r : Reference lt key) (tree : Pointer → Node V) : Prop where
  inv : s.heap.Inv tree (s.versions : Multiset Pointer)
  popped : s.popped = r.popped
  versions : List.Forall₂ (fun n m => ∃ t : Tree lt key, t.node = tree n ∧ t.toMap = m) s.versions
    r.versions

/-- A step that succeeds, keeps the invariant and leaves the other versions alone. -/
def Steps (s : State V) (x : Option (State V)) (r : Reference lt key) : Prop :=
  ∃ s' tree', x = some s' ∧ Sim s' r tree' ∧ Keeps s s'

/-- The state before the first operation. -/
theorem sim_initial (lt : K → K → Prop) (key : V → K) : ∃ s tree, State.initial = some s ∧
    Sim s (Reference.initial : Reference lt key) tree := by
  have hinv : (Heap.initial : Heap V).Inv (fun _ => .terminator) 0 := by
    have hcells {n : Pointer} {c : Cell V} (hc : (Heap.initial : Heap V).cells n = some c) :
        n = terminator ∧ c = ⟨terminator, terminator, default, 0, 3⟩ := by
      by_cases hn : n = terminator
      · rw [hn, initial_cells_terminator] at hc
        exact ⟨hn, (Option.some.inj hc).symm⟩
      · rw [initial_cells_of_ne hn] at hc
        cases hc
    have hlive : (Heap.initial : Heap V).Live terminator := ⟨_, initial_cells_terminator⟩
    constructor
    case static => exact ⟨3, initial_cells_terminator⟩
    case tree_terminator => rfl
    case tree_cell => exact fun n c hn hc => absurd (hcells hc).1 hn
    case children_lt => exact fun n c hn hc => absurd (hcells hc).1 hn
    case fresh => exact fun n hn => initial_cells_of_ne (Nat.lt_of_succ_le hn).ne'
    case counted =>
      intro n c hc
      obtain ⟨rfl, rfl⟩ := hcells hc
      rfl
    case owned => exact fun n hn => absurd hn (Multiset.notMem_zero n)
    case children =>
      intro n c hc
      obtain ⟨rfl, rfl⟩ := hcells hc
      exact ⟨hlive, hlive⟩
  obtain ⟨h, hrun, hi, -⟩ := incref_spec hinv ⟨_, initial_cells_terminator⟩
  refine ⟨⟨h, [terminator], []⟩, _, by rw [State.initial, hrun]; rfl, hi, rfl, ?_⟩
  refine .cons ⟨⟨.terminator, .nil, trivial⟩, rfl, KeyedMap.ext (Set.ext fun v => ?_)⟩ .nil
  exact iff_of_false List.not_mem_nil (Set.notMem_empty v)

theorem live_of_mem (h : Sim s r tree) (hn : n ∈ s.versions) : s.heap.Live n :=
  h.inv.owned n (Multiset.mem_coe.mpr hn)

theorem keeps_of_extends {tree' : Pointer → Node V} {own : Multiset Pointer} (h : Sim s r tree)
    (hi : s'.heap.Inv tree' own) (hsub : ∀ n ∈ s'.versions, n ∈ own)
    (hext : Extends s.heap tree s'.heap tree') : Keeps s s' := by
  intro n hn hn' t ht
  have htree : tree' n = t :=
    (hext.tree_live h.inv (live_of_mem h hn)).trans (ht.tree_eq h.inv)
  rw [← htree]
  exact hi.holds (hi.owned n (hsub n hn'))

/-- One more version, at the end. -/
theorem sim_append {tree' : Pointer → Node V} {h' : Heap V} {m : KeyedMap lt key} (vs : List V)
    (h : Sim s r tree) (hi : h'.Inv tree' (n ::ₘ (s.versions : Multiset Pointer)))
    (hext : Extends s.heap tree h' tree') (t : Tree lt key) (ht : tree' n = t.node)
    (hm : t.toMap = m) :
    Sim ⟨h', s.versions ++ [n], s.popped ++ vs⟩ ⟨r.versions ++ [m], r.popped ++ vs⟩ tree' ∧
      Keeps s ⟨h', s.versions ++ [n], s.popped ++ vs⟩ := by
  have hown : ((s.versions ++ [n] : List Pointer) : Multiset Pointer) = n ::ₘ s.versions :=
    Multiset.coe_eq_coe.mpr (List.perm_append_singleton n s.versions)
  rw [← hown] at hi
  refine ⟨⟨hi, congrArg (· ++ vs) h.popped, ?_⟩,
    keeps_of_extends h hi (fun m hm => Multiset.mem_coe.mpr hm) hext⟩
  refine List.rel_append (forall₂_imp_of_mem h.versions ?_) (.cons ⟨t, ht.symm, hm⟩ .nil)
  rintro k hk _ ⟨t', ht', hm'⟩
  exact ⟨t', ht'.trans (hext.tree_live h.inv (live_of_mem h hk)).symm, hm'⟩

theorem grow_steps {x : HeapM V Pointer} {t : Tree lt key} {m : KeyedMap lt key}
    (h : Sim s r tree) (hx : Builds x s.heap tree s.versions t.node) (hm : t.toMap = m) :
    Steps s (s.grow x) (r.grow m) := by
  obtain ⟨n, h', tree', hrun, hi, hext, ht⟩ := hx
  have hsim := sim_append [] h hi hext t ht hm
  rw [List.append_nil, List.append_nil] at hsim
  exact ⟨_, tree', by rw [State.grow, hrun]; rfl, hsim⟩

theorem pop_steps {x : HeapM V (V × Pointer)} {p : V × Node V} {t : Tree lt key}
    {m : KeyedMap lt key} {v : V} (h : Sim s r tree) (hx : Pops x s.heap tree s.versions p)
    (ht : p.2 = t.node) (hm : t.toMap = m) (hv : p.1 = v) :
    Steps s (s.pop x) ({ r.grow m with popped := r.popped ++ [v] }) := by
  obtain ⟨n, h', tree', hrun, hi, hext, htree⟩ := hx
  have hsim := sim_append [v] h hi hext t (htree.trans ht) hm
  exact ⟨_, tree', by rw [State.pop, hrun, ← hv]; rfl, hsim⟩

theorem destroy_steps {i : Nat} (h : Sim s r tree) (hn : s.versions[i]? = some n) :
    Steps s ((decref n s.heap).map fun p =>
      { s with heap := p.2, versions := s.versions.eraseIdx i })
      { r with versions := r.versions.eraseIdx i } := by
  obtain ⟨hlt, hget⟩ := List.getElem?_eq_some_iff.mp hn
  have hown : (s.versions : Multiset Pointer) = n ::ₘ (s.versions.eraseIdx i : Multiset Pointer) := by
    rw [← hget]
    exact (Multiset.coe_eq_coe.mpr (List.getElem_cons_eraseIdx_perm hlt)).symm
  have hinv := h.inv
  rw [hown] at hinv
  obtain ⟨h', hrun, hi, hext⟩ := decref_spec hinv
  refine ⟨⟨h', s.versions.eraseIdx i, s.popped⟩, tree, by rw [hrun]; rfl,
    ⟨hi, h.popped, forall₂_eraseIdx i h.versions⟩, ?_⟩
  exact keeps_of_extends h hi (fun m hm => Multiset.mem_coe.mpr hm) hext

/-- A version that is not there: nothing happens. -/
theorem onVersion_steps {i : Nat} {f : Pointer → Option (State V)}
    {g : KeyedMap lt key → Reference lt key} (h : Sim s r tree)
    (hf : ∀ n (t : Tree lt key), s.versions[i]? = some n → t.node = tree n →
      Steps s (f n) (g t.toMap)) :
    Steps s (s.onVersion i f) (r.onVersion i g) := by
  rcases forall₂_getElem? i h.versions with ⟨hn, hm⟩ | ⟨n, m, hn, hm, t, ht, rfl⟩
  · rw [State.onVersion, Reference.onVersion, hn, hm]
    exact ⟨s, tree, rfl, h, fun _ _ _ _ ht => ht⟩
  · rw [State.onVersion, Reference.onVersion, hn, hm]
    exact hf n t hn ht

variable [DecidableRel lt]

/-- The version at `n` is ordered and balanced, stands for `m`, and answers as `m` does. -/
def Represents (h : Heap V) (n : Pointer) (m : KeyedMap lt key) : Prop :=
  ∃ t : Tree lt key, h.Holds n t.node ∧ t.toMap = m ∧
    ∀ k, lookupCells lt key k (n + 1) n h = some (m.lookup k, h) ∧
      lookupPreviousCells lt key k none (n + 1) n h = some (m.lookupPrevious k, h)

variable [IsStrictWeakOrder K lt]

theorem step_steps (h : Sim s r tree) (op : Op K V) : Steps s (s.step lt key op) (r.step op) := by
  have hreach {i : Nat} {n : Pointer} (hn : s.versions[i]? = some n) :
      Reach s.heap (s.versions : Multiset Pointer) n :=
    .own (Multiset.mem_coe.mpr (List.mem_of_getElem? hn))
  cases op with
  | insert i v =>
    refine onVersion_steps h fun n t hn ht => ?_
    have hx := insertCells_spec lt key (v := v) h.inv (hreach hn) (Nat.lt_succ_self n)
    rw [← ht] at hx
    exact grow_steps (t := t.insert v) h hx (t.toMap_insert v)
  | replace i v =>
    refine onVersion_steps h fun n t hn ht => ?_
    have hx := replaceCells_spec lt key (v := v) h.inv (hreach hn) (Nat.lt_succ_self n)
    rw [← ht] at hx
    exact grow_steps (t := t.replace v) h hx (t.toMap_replace v)
  | remove i k =>
    refine onVersion_steps h fun n t hn ht => ?_
    have hx := removeCells_spec lt key (k := k) h.inv (hreach hn) (Nat.lt_succ_self n)
    rw [← ht] at hx
    exact grow_steps (t := t.remove k) h hx (t.toMap_remove k)
  | popMin i =>
    refine onVersion_steps h fun n t hn ht => ?_
    have hx := popMinCells_spec h.inv (hreach hn) (Nat.lt_succ_self n)
    rw [← ht] at hx
    exact pop_steps (t := t.popMin) h hx rfl t.toMap_popMin t.popMin_value
  | popMax i =>
    refine onVersion_steps h fun n t hn ht => ?_
    have hx := popMaxCells_spec h.inv (hreach hn) (Nat.lt_succ_self n)
    rw [← ht] at hx
    exact pop_steps (t := t.popMax) h hx rfl t.toMap_popMax t.popMax_value
  | copy i =>
    refine onVersion_steps h fun n t hn ht => ?_
    have hx := incref_builds h.inv ((hreach hn).live h.inv)
    rw [← ht] at hx
    exact grow_steps h hx rfl
  | destroy i => exact onVersion_steps h fun n t hn _ => destroy_steps h hn

theorem run_steps (h : Sim s r tree) (ops : List (Op K V)) :
    ∃ s' tree', s.run lt key ops = some s' ∧ Sim s' (r.run ops) tree' := by
  induction ops generalizing s r tree with
  | nil => exact ⟨s, tree, rfl, h⟩
  | cons op ops ih =>
    obtain ⟨s₁, tree₁, hstep, h₁, -⟩ := step_steps h op
    obtain ⟨s₂, tree₂, hrun, h₂⟩ := ih h₁
    refine ⟨s₂, tree₂, ?_, h₂⟩
    rw [State.run, List.foldlM_cons, hstep]
    exact hrun

theorem sim_represents (h : Sim s r tree) :
    List.Forall₂ (Represents s.heap) s.versions r.versions := by
  refine forall₂_imp_of_mem h.versions fun n hn m => ?_
  rintro ⟨t, ht, rfl⟩
  have hreach : Reach s.heap (s.versions : Multiset Pointer) n := .own (Multiset.mem_coe.mpr hn)
  refine ⟨t, ht ▸ h.inv.holds (live_of_mem h hn), rfl, fun k => ?_⟩
  rw [lookupCells_spec lt key h.inv hreach (Nat.lt_succ_self n),
    lookupPreviousCells_spec lt key h.inv hreach (Nat.lt_succ_self n), ← ht, t.lookup_toMap k,
    ← t.lookupPrevious_toMap k]
  exact ⟨rfl, rfl⟩

variable (lt key) in
/-- A run over any versions never uses a deleted node; every version it ends with is ordered and
balanced and stands for the map that the same operations make; and the next operation goes through
and leaves the versions that stay as they are. -/
theorem versions_agree (ops : List (Op K V)) : ∃ s, (State.initial.bind (·.run lt key ops)) = some s ∧
    List.Forall₂ (Represents s.heap) s.versions
      ((Reference.initial : Reference lt key).run ops).versions ∧
    s.popped = ((Reference.initial : Reference lt key).run ops).popped ∧
    ∀ op, ∃ s', s.step lt key op = some s' ∧ Keeps s s' := by
  obtain ⟨s₀, tree₀, hinitial, h₀⟩ := sim_initial lt key
  obtain ⟨s, tree, hrun, h⟩ := run_steps h₀ ops
  refine ⟨s, by rw [hinitial]; exact hrun, sim_represents h, h.popped, fun op => ?_⟩
  obtain ⟨s', -, hstep, -, hkeeps⟩ := step_steps h op
  exact ⟨s', hstep, hkeeps⟩

theorem versions_agree_pop : ∃ s, (State.initial.bind (·.run (· < ·) (fun v : Nat => v)
      [.insert 0 5, .insert 1 3, .popMin 2, .destroy 1])) = some s ∧
    List.Forall₂ (Represents s.heap) s.versions ((Reference.initial : Reference (· < ·) fun v : Nat
      => v).run [.insert 0 5, .insert 1 3, .popMin 2, .destroy 1]).versions :=
  have : IsStrictWeakOrder Nat (· < ·) := isStrictWeakOrder_of_isOrderConnected
  (versions_agree (· < ·) (fun v : Nat => v) [.insert 0 5, .insert 1 3, .popMin 2, .destroy 1]).imp
    fun _ h => ⟨h.1, h.2.1⟩

end Versions

end Klee.ImmutableTree
