import Klee.Support.ImmutableTreeHeap
import Klee.Support.ImmutableTreeSpec
import Mathlib.Algebra.BigOperators.Group.Finset.Basic
import Mathlib.Data.Multiset.Count
import Mathlib.Tactic

/-! The heap operations of `ImmutableTree` build the trees of the pure ones, and no node that a
version needs is deleted. -/
namespace Klee.ImmutableTree

variable {K V : Type}

section Run

variable {α β : Type} {x : HeapM V α} {f : α → HeapM V β} {h h' : Heap V} {a : α}

/-- The next step takes over where `x` ends. -/
theorem bind_eq (hx : x h = some (a, h')) : (x >>= f) h = f a h' := by
  change (x h).bind _ = _
  rw [hx]
  rfl

theorem read_eq {n : Pointer} {c : Cell V} (hc : h.cells n = some c) : read n h = some (c, h) := by
  rw [read, hc]
  rfl

end Run

section Invariant

/-- The references that the cell `m` holds to `n`. -/
def Heap.referencesFrom (h : Heap V) (n m : Pointer) : Nat :=
  (h.cells m).elim 0 fun c => (if c.left = n then 1 else 0) + if c.right = n then 1 else 0

def Heap.pointers (h : Heap V) (n : Pointer) : Nat :=
  ∑ m ∈ Finset.range h.next, h.referencesFrom n m

def Heap.Live (h : Heap V) (n : Pointer) : Prop := ∃ c, h.cells n = some c

variable [Inhabited V]

/-- The heap holds the trees `tree`, and every reference is counted: the program's own are those of
`own` and the static one to the terminator. -/
structure Heap.Inv (h : Heap V) (tree : Pointer → Node V) (own : Multiset Pointer) : Prop where
  static : ∃ references, h.cells terminator = some ⟨terminator, terminator, default, 0, references⟩
  tree_terminator : tree terminator = .terminator
  tree_cell : ∀ n c, n ≠ terminator → h.cells n = some c →
    tree n = .node (tree c.left) (tree c.right) c.value c.height
  children_lt : ∀ n c, n ≠ terminator → h.cells n = some c → c.left < n ∧ c.right < n
  fresh : ∀ n, h.next ≤ n → h.cells n = none
  counted : ∀ n c, h.cells n = some c →
    c.references = own.count n + h.pointers n + if n = terminator then 1 else 0
  owned : ∀ n ∈ own, h.Live n
  children : ∀ n c, h.cells n = some c → h.Live c.left ∧ h.Live c.right

variable {h h' h'' : Heap V} {tree tree' tree'' : Pointer → Node V} {own own' : Multiset Pointer}
  {n m l r : Pointer} {c : Cell V} {v : V}

namespace Heap

section Cells

omit [Inhabited V]

@[simp] theorem set_cells_self {o : Option (Cell V)} : (h.set n o).cells n = o :=
  Function.update_self _ _ _

theorem set_cells_of_ne {o : Option (Cell V)} (hm : m ≠ n) : (h.set n o).cells m = h.cells m :=
  Function.update_of_ne hm _ _

@[simp] theorem allocate_cells_next : (h.allocate c).cells h.next = some c :=
  Function.update_self _ _ _

theorem allocate_cells_of_ne (hm : m ≠ h.next) : (h.allocate c).cells m = h.cells m :=
  Function.update_of_ne hm _ _

/-- A cell is changed in its count alone. -/
theorem pointers_recount {k : Nat} (hn : h.cells n = some c) :
    (h.set n (some { c with references := k })).pointers m = h.pointers m := by
  refine Finset.sum_congr rfl fun i _ => ?_
  unfold referencesFrom
  by_cases hin : i = n
  · rw [hin, set_cells_self, hn]
    rfl
  · rw [set_cells_of_ne hin]

theorem pointers_free (hn : h.cells n = some c) (hlt : n < h.next) :
    (h.set n none).pointers m + ((if c.left = m then 1 else 0) + if c.right = m then 1 else 0) =
      h.pointers m := by
  have hmem : n ∈ Finset.range h.next := Finset.mem_range.mpr hlt
  have hrest : ∑ i ∈ (Finset.range h.next).erase n, (h.set n none).referencesFrom m i =
      ∑ i ∈ (Finset.range h.next).erase n, h.referencesFrom m i := by
    refine Finset.sum_congr rfl fun i hi => ?_
    unfold referencesFrom
    rw [set_cells_of_ne (Finset.ne_of_mem_erase hi)]
  have hnew : (h.set n none).referencesFrom m n = 0 := by
    rw [referencesFrom, set_cells_self]
    rfl
  have hold : h.referencesFrom m n =
      (if c.left = m then 1 else 0) + if c.right = m then 1 else 0 := by
    rw [referencesFrom, hn]
    rfl
  have hleft : (h.set n none).pointers m =
      0 + ∑ i ∈ (Finset.range h.next).erase n, h.referencesFrom m i := by
    rw [← hrest, ← hnew]
    exact (Finset.add_sum_erase _ _ hmem).symm
  have hright : h.pointers m = ((if c.left = m then 1 else 0) + if c.right = m then 1 else 0) +
      ∑ i ∈ (Finset.range h.next).erase n, h.referencesFrom m i := by
    rw [← hold]
    exact (Finset.add_sum_erase _ _ hmem).symm
  rw [hleft, hright]
  omega

theorem pointers_allocate (m : Pointer) : (h.allocate c).pointers m =
    h.pointers m + ((if c.left = m then 1 else 0) + if c.right = m then 1 else 0) := by
  have hlast : (h.allocate c).referencesFrom m h.next =
      (if c.left = m then 1 else 0) + if c.right = m then 1 else 0 := by
    rw [referencesFrom, allocate_cells_next]
    rfl
  have hold : ∑ i ∈ Finset.range h.next, (h.allocate c).referencesFrom m i = h.pointers m := by
    refine Finset.sum_congr rfl fun i hi => ?_
    rw [referencesFrom, allocate_cells_of_ne (Finset.mem_range.mp hi).ne]
    rfl
  rw [← hlast, ← hold]
  exact Finset.sum_range_succ _ _

/-- A node is live where a cell of it is counted anew. -/
theorem live_recount {k : Nat} (hn : h.cells n = some c) :
    (h.set n (some { c with references := k })).Live m ↔ h.Live m := by
  by_cases hm : m = n
  · rw [hm]
    exact ⟨fun _ => ⟨c, hn⟩, fun _ => ⟨_, set_cells_self⟩⟩
  · rw [Live, Live, set_cells_of_ne hm]

end Cells

theorem Inv.lt_next (hi : h.Inv tree own) (hn : h.cells n = some c) : n < h.next := by
  by_contra hge
  rw [hi.fresh n (not_lt.mp hge)] at hn
  cases hn

theorem Inv.height_tree (hi : h.Inv tree own) (hn : h.cells n = some c) :
    (tree n).height = c.height := by
  by_cases ht : n = terminator
  · obtain ⟨references, hstatic⟩ := hi.static
    rw [ht, hstatic] at hn
    rw [ht, hi.tree_terminator, ← Option.some.inj hn]
    rfl
  · rw [hi.tree_cell n c ht hn]
    rfl

theorem Inv.pointers_eq_zero (hi : h.Inv tree own) (hn : h.cells n = none) : h.pointers n = 0 := by
  refine Finset.sum_eq_zero fun i _ => ?_
  unfold referencesFrom
  cases hc : h.cells i with
  | none => rfl
  | some c =>
    have hne (m : Pointer) (hm : h.Live m) : m ≠ n := by
      rintro rfl
      obtain ⟨c', hc'⟩ := hm
      rw [hn] at hc'
      cases hc'
    obtain ⟨hl, hr⟩ := hi.children i c hc
    exact Nat.add_eq_zero_iff.mpr ⟨if_neg (hne _ hl), if_neg (hne _ hr)⟩

/-- What every operation leaves alone: the trees, the pointers of a node, and what is deleted. -/
structure Extends (h : Heap V) (tree : Pointer → Node V) (h' : Heap V) (tree' : Pointer → Node V) :
    Prop where
  next_le : h.next ≤ h'.next
  tree_eq : ∀ n < h.next, tree' n = tree n
  children_eq : ∀ n c c', n < h.next → h.cells n = some c → h'.cells n = some c' →
    c'.left = c.left ∧ c'.right = c.right
  deleted : ∀ n < h.next, h.cells n = none → h'.cells n = none

omit [Inhabited V] in
theorem Extends.trans (h₁ : Extends h tree h' tree') (h₂ : Extends h' tree' h'' tree'') :
    Extends h tree h'' tree'' where
  next_le := h₁.next_le.trans h₂.next_le
  tree_eq n hn := (h₂.tree_eq n (hn.trans_le h₁.next_le)).trans (h₁.tree_eq n hn)
  children_eq n c c'' hn hc hc'' := by
    have hn' := hn.trans_le h₁.next_le
    cases hc' : h'.cells n with
    | none =>
      rw [h₂.deleted n hn' hc'] at hc''
      cases hc''
    | some c' =>
      obtain ⟨hl, hr⟩ := h₁.children_eq n c c' hn hc hc'
      obtain ⟨hl', hr'⟩ := h₂.children_eq n c' c'' hn' hc' hc''
      exact ⟨hl'.trans hl, hr'.trans hr⟩
  deleted n hn hnone := h₂.deleted n (hn.trans_le h₁.next_le) (h₁.deleted n hn hnone)

omit [Inhabited V] in
/-- A change of one cell that keeps its pointers, or deletes it. -/
theorem extends_set {o : Option (Cell V)} (tree : Pointer → Node V) (hn : h.cells n = some c)
    (ho : ∀ c', o = some c' → c'.left = c.left ∧ c'.right = c.right) :
    Extends h tree (h.set n o) tree where
  next_le := le_rfl
  tree_eq _ _ := rfl
  children_eq m d d' _ hd hd' := by
    by_cases hm : m = n
    · rw [hm, set_cells_self] at hd'
      rw [hm, hn] at hd
      rw [← Option.some.inj hd]
      exact ho d' hd'
    · rw [set_cells_of_ne hm, hd] at hd'
      rw [Option.some.inj hd']
      exact ⟨rfl, rfl⟩
  deleted m _ hm := by
    have hne : m ≠ n := by
      rintro rfl
      rw [hn] at hm
      cases hm
    rw [set_cells_of_ne hne, hm]

/-- One cell counted anew, with the program's own references to match. -/
theorem Inv.recount {k : Nat} (hi : h.Inv tree own) (hn : h.cells n = some c)
    (hother : ∀ m, m ≠ n → own'.count m = own.count m)
    (hself : k + own.count n = c.references + own'.count n) (hlive : ∀ m ∈ own', h.Live m) :
    (h.set n (some { c with references := k })).Inv tree own' where
  static := by
    obtain ⟨references, hstatic⟩ := hi.static
    by_cases ht : terminator = n
    · rw [← ht, hstatic] at hn
      rw [← ht, set_cells_self, ← Option.some.inj hn]
      exact ⟨k, rfl⟩
    · rw [set_cells_of_ne ht]
      exact ⟨references, hstatic⟩
  tree_terminator := hi.tree_terminator
  tree_cell m d hm hd := by
    by_cases hmn : m = n
    · rw [hmn, set_cells_self] at hd
      rw [← Option.some.inj hd, hmn]
      exact hi.tree_cell n c (hmn ▸ hm) hn
    · rw [set_cells_of_ne hmn] at hd
      exact hi.tree_cell m d hm hd
  children_lt m d hm hd := by
    by_cases hmn : m = n
    · rw [hmn, set_cells_self] at hd
      rw [← Option.some.inj hd, hmn]
      exact hi.children_lt n c (hmn ▸ hm) hn
    · rw [set_cells_of_ne hmn] at hd
      exact hi.children_lt m d hm hd
  fresh m hm := by
    have hne : m ≠ n := fun heq => absurd (hi.lt_next hn) (not_lt.mpr (heq ▸ hm))
    rw [set_cells_of_ne hne]
    exact hi.fresh m hm
  counted m d hd := by
    rw [pointers_recount hn]
    by_cases hmn : m = n
    · rw [hmn, set_cells_self] at hd
      rw [← Option.some.inj hd, hmn]
      have hcount := hi.counted n c hn
      change k = _
      omega
    · rw [set_cells_of_ne hmn] at hd
      rw [hother m hmn]
      exact hi.counted m d hd
  owned m hm := (live_recount hn).mpr (hlive m hm)
  children m d hd := by
    rw [live_recount hn, live_recount hn]
    by_cases hmn : m = n
    · rw [hmn, set_cells_self] at hd
      rw [← Option.some.inj hd]
      exact hi.children n c hn
    · rw [set_cells_of_ne hmn] at hd
      exact hi.children m d hd

/-- The last reference goes: the node is deleted, and its own references are left to release. -/
theorem Inv.free (hi : h.Inv tree (n ::ₘ own)) (hn : h.cells n = some c) (hlast : c.references ≤ 1) :
    (h.set n none).Inv tree (c.left ::ₘ c.right ::ₘ own) := by
  have hcount := hi.counted n c hn
  rw [Multiset.count_cons_self] at hcount
  have hnt : n ≠ terminator := by
    rintro rfl
    rw [if_pos rfl] at hcount
    omega
  have hzero : own.count n = 0 ∧ h.pointers n = 0 := by
    rw [if_neg hnt] at hcount
    omega
  have hlt := hi.children_lt n c hnt hn
  -- no cell that stays refers to the node
  have hlive {m : Pointer} (hm : h.Live m) (hmn : m ≠ n) : (h.set n none).Live m := by
    rw [Live, set_cells_of_ne hmn]
    exact hm
  have hfrom (m : Pointer) (d : Cell V) (hd : h.cells m = some d) (hmn : m ≠ n) :
      d.left ≠ n ∧ d.right ≠ n := by
    have hsum := hzero.2
    rw [← pointers_free hd (hi.lt_next hd), Nat.add_eq_zero_iff, Nat.add_eq_zero_iff] at hsum
    exact ⟨fun heq => absurd hsum.2.1 (by rw [if_pos heq]; decide),
      fun heq => absurd hsum.2.2 (by rw [if_pos heq]; decide)⟩
  have hchildren := hi.children n c hn
  constructor
  case static =>
    rw [set_cells_of_ne hnt.symm]
    exact hi.static
  case tree_terminator => exact hi.tree_terminator
  case tree_cell =>
    intro m d hm hd
    have hmn : m ≠ n := fun heq => by rw [heq, set_cells_self] at hd; cases hd
    rw [set_cells_of_ne hmn] at hd
    exact hi.tree_cell m d hm hd
  case children_lt =>
    intro m d hm hd
    have hmn : m ≠ n := fun heq => by rw [heq, set_cells_self] at hd; cases hd
    rw [set_cells_of_ne hmn] at hd
    exact hi.children_lt m d hm hd
  case fresh =>
    intro m hm
    have hmn : m ≠ n := fun heq => absurd (hi.lt_next hn) (not_lt.mpr (heq ▸ hm))
    rw [set_cells_of_ne hmn]
    exact hi.fresh m hm
  case counted =>
    intro m d hd
    have hmn : m ≠ n := fun heq => by rw [heq, set_cells_self] at hd; cases hd
    rw [set_cells_of_ne hmn] at hd
    have hm := hi.counted m d hd
    have hfree := pointers_free (m := m) hn (hi.lt_next hn)
    rw [Multiset.count_cons_of_ne hmn] at hm
    rw [Multiset.count_cons, Multiset.count_cons, hm, ← hfree]
    simp only [eq_comm (a := m)]
    omega
  case owned =>
    intro m hm
    rcases Multiset.mem_cons.mp hm with rfl | hm
    · exact hlive hchildren.1 hlt.1.ne
    rcases Multiset.mem_cons.mp hm with rfl | hm
    · exact hlive hchildren.2 hlt.2.ne
    · refine hlive (hi.owned m (Multiset.mem_cons_of_mem hm)) ?_
      rintro rfl
      exact absurd (Multiset.count_pos.mpr hm) (by omega)
  case children =>
    intro m d hd
    have hmn : m ≠ n := fun heq => by rw [heq, set_cells_self] at hd; cases hd
    rw [set_cells_of_ne hmn] at hd
    obtain ⟨hl, hr⟩ := hi.children m d hd
    obtain ⟨hln, hrn⟩ := hfrom m d hd hmn
    exact ⟨hlive hl hln, hlive hr hrn⟩

/-- A new node takes over the references to its children. -/
theorem Inv.allocate {cl cr : Cell V} (hi : h.Inv tree (l ::ₘ r ::ₘ own)) (hl : h.cells l = some cl)
    (hr : h.cells r = some cr) :
    (h.allocate ⟨l, r, v, max cl.height cr.height + 1, 1⟩).Inv
      (Function.update tree h.next (.mk (tree l) (tree r) v)) (h.next ::ₘ own) := by
  obtain ⟨c, hc⟩ : ∃ c : Cell V, c = ⟨l, r, v, max cl.height cr.height + 1, 1⟩ := ⟨_, rfl⟩
  rw [← hc]
  have hllt := hi.lt_next hl
  have hrlt := hi.lt_next hr
  obtain ⟨references, hstatic⟩ := hi.static
  have htlt := hi.lt_next hstatic
  have hnone : h.cells h.next = none := hi.fresh _ le_rfl
  have hlive {m : Pointer} (hm : h.Live m) : (h.allocate c).Live m := by
    obtain ⟨d, hd⟩ := hm
    exact ⟨d, (allocate_cells_of_ne (hi.lt_next hd).ne).trans hd⟩
  have htree {m : Pointer} (hm : m < h.next) :
      Function.update tree h.next (.mk (tree l) (tree r) v) m = tree m :=
    Function.update_of_ne hm.ne _ _
  have hcells (m : Pointer) (d : Cell V) (hd : (h.allocate c).cells m = some d) :
      (m = h.next ∧ d = c) ∨ (m ≠ h.next ∧ h.cells m = some d) := by
    by_cases hm : m = h.next
    · rw [hm, allocate_cells_next] at hd
      exact .inl ⟨hm, (Option.some.inj hd).symm⟩
    · rw [allocate_cells_of_ne hm] at hd
      exact .inr ⟨hm, hd⟩
  constructor
  case static =>
    rw [allocate_cells_of_ne htlt.ne]
    exact ⟨references, hstatic⟩
  case tree_terminator => rw [htree htlt, hi.tree_terminator]
  case tree_cell =>
    intro m d hm hd
    rcases hcells m d hd with ⟨rfl, rfl⟩ | ⟨-, hd⟩
    · rw [Function.update_self, hc, htree hllt, htree hrlt, Node.mk, hi.height_tree hl,
        hi.height_tree hr]
    · obtain ⟨hdl, hdr⟩ := hi.children_lt m d hm hd
      have hmlt := hi.lt_next hd
      rw [htree hmlt, htree (hdl.trans hmlt), htree (hdr.trans hmlt)]
      exact hi.tree_cell m d hm hd
  case children_lt =>
    intro m d hm hd
    rcases hcells m d hd with ⟨rfl, rfl⟩ | ⟨-, hd⟩
    · rw [hc]
      exact ⟨hllt, hrlt⟩
    · exact hi.children_lt m d hm hd
  case fresh =>
    intro m hm
    have hm : h.next + 1 ≤ m := hm
    rw [allocate_cells_of_ne (Nat.lt_of_succ_le hm).ne']
    exact hi.fresh m (Nat.le_of_succ_le hm)
  case counted =>
    intro m d hd
    rw [pointers_allocate, hc]
    rcases hcells m d hd with ⟨rfl, rfl⟩ | ⟨hne, hd⟩
    · have hown : own.count h.next = 0 := by
        refine Multiset.count_eq_zero.mpr fun hmem => ?_
        obtain ⟨d, hd⟩ := hi.owned _ (Multiset.mem_cons_of_mem (Multiset.mem_cons_of_mem hmem))
        rw [hnone] at hd
        cases hd
      rw [Multiset.count_cons_self, hown, hi.pointers_eq_zero hnone, if_neg hllt.ne, if_neg hrlt.ne,
        if_neg htlt.ne', hc]
    · have hm := hi.counted m d hd
      rw [Multiset.count_cons, Multiset.count_cons] at hm
      rw [Multiset.count_cons_of_ne hne, hm]
      simp only [eq_comm (a := m)]
      omega
  case owned =>
    intro m hm
    rcases Multiset.mem_cons.mp hm with rfl | hm
    · exact ⟨c, allocate_cells_next⟩
    · exact hlive (hi.owned m (Multiset.mem_cons_of_mem (Multiset.mem_cons_of_mem hm)))
  case children =>
    intro m d hd
    rcases hcells m d hd with ⟨rfl, rfl⟩ | ⟨-, hd⟩
    · have hdl : d.left = l := by rw [hc]
      have hdr : d.right = r := by rw [hc]
      rw [hdl, hdr]
      exact ⟨hlive ⟨cl, hl⟩, hlive ⟨cr, hr⟩⟩
    · obtain ⟨hdl, hdr⟩ := hi.children m d hd
      exact ⟨hlive hdl, hlive hdr⟩

omit [Inhabited V] in
theorem extends_allocate (tree : Pointer → Node V) (t : Node V) :
    Extends h tree (h.allocate c) (Function.update tree h.next t) where
  next_le := Nat.le_succ _
  tree_eq n hn := Function.update_of_ne hn.ne _ _
  children_eq n d d' hn hd hd' := by
    rw [allocate_cells_of_ne hn.ne, hd] at hd'
    rw [Option.some.inj hd']
    exact ⟨rfl, rfl⟩
  deleted n hn hnone := by rw [allocate_cells_of_ne hn.ne, hnone]

end Heap

end Invariant

section Nodes

variable [Inhabited V] {h h' h'' : Heap V} {tree tree' tree'' : Pointer → Node V}
  {own own' : Multiset Pointer} {n m l r : Pointer} {c : Cell V} {v : V}

open Heap

theorem incref_spec (hi : h.Inv tree own) (hn : h.Live n) : ∃ h', incref n h = some (n, h') ∧
    h'.Inv tree (n ::ₘ own) ∧ Extends h tree h' tree := by
  obtain ⟨c, hc⟩ := hn
  refine ⟨_, by rw [incref, bind_eq (read_eq hc)]; rfl, ?_, extends_set tree hc ?_⟩
  · refine hi.recount hc (fun m hm => Multiset.count_cons_of_ne hm _) ?_ ?_
    · rw [Multiset.count_cons_self]
      omega
    · intro m hm
      rcases Multiset.mem_cons.mp hm with rfl | hm
      · exact ⟨c, hc⟩
      · exact hi.owned m hm
  · rintro c' hc'
    rw [← Option.some.inj hc']
    exact ⟨rfl, rfl⟩

theorem decrefFrom_spec {fuel : Nat} (hi : h.Inv tree (n ::ₘ own)) (hfuel : n < fuel) :
    ∃ h', decrefFrom fuel n h = some ((), h') ∧ h'.Inv tree own ∧ Extends h tree h' tree := by
  induction fuel generalizing h n own with
  | zero => exact absurd hfuel (Nat.not_lt_zero _)
  | succ fuel ih =>
    obtain ⟨c, hc⟩ := hi.owned n (Multiset.mem_cons_self _ _)
    have hcount := hi.counted n c hc
    rw [Multiset.count_cons_self] at hcount
    rw [decrefFrom, bind_eq (read_eq hc)]
    by_cases hlast : c.references - 1 = 0
    · have hnt : n ≠ terminator := by
        rintro rfl
        rw [if_pos rfl] at hcount
        omega
      obtain ⟨hl, hr⟩ := hi.children_lt n c hnt hc
      obtain ⟨h₁, hrun₁, hi₁, hext₁⟩ := ih (hi.free hc (by omega)) (hl.trans_le (Nat.le_of_lt_succ hfuel))
      obtain ⟨h₂, hrun₂, hi₂, hext₂⟩ := ih hi₁ (hr.trans_le (Nat.le_of_lt_succ hfuel))
      have hwrite : write n none h = some ((), h.set n none) := rfl
      refine ⟨h₂, ?_, hi₂, (extends_set (o := none) tree hc nofun).trans (hext₁.trans hext₂)⟩
      rw [if_pos hlast, bind_eq hwrite, bind_eq hrun₁, hrun₂]
    · refine ⟨_, by rw [if_neg hlast]; rfl, hi.recount hc (fun m hm => ?_) ?_ fun m hm =>
        hi.owned m (Multiset.mem_cons_of_mem hm), extends_set tree hc ?_⟩
      · exact (Multiset.count_cons_of_ne hm _).symm
      · rw [Multiset.count_cons_self]
        omega
      · rintro c' hc'
        rw [← Option.some.inj hc']
        exact ⟨rfl, rfl⟩

theorem decref_spec (hi : h.Inv tree (n ::ₘ own)) : ∃ h', decref n h = some ((), h') ∧
    h'.Inv tree own ∧ Extends h tree h' tree :=
  decrefFrom_spec hi (Nat.lt_succ_self n)

/-- From `h`, the program ends with a node for the tree `t`, to which it holds a reference beside
those of `own`. -/
def Builds (x : HeapM V Pointer) (h : Heap V) (tree : Pointer → Node V) (own : Multiset Pointer)
    (t : Node V) : Prop :=
  ∃ n h' tree', x h = some (n, h') ∧ h'.Inv tree' (n ::ₘ own) ∧ Extends h tree h' tree' ∧ tree' n = t

theorem newNode_spec (hi : h.Inv tree (l ::ₘ r ::ₘ own)) :
    Builds (newNode l r v) h tree own (.mk (tree l) (tree r) v) := by
  obtain ⟨cl, hl⟩ := hi.owned l (Multiset.mem_cons_self _ _)
  obtain ⟨cr, hr⟩ := hi.owned r (Multiset.mem_cons_of_mem (Multiset.mem_cons_self _ _))
  exact ⟨h.next, _, _, by rw [newNode, bind_eq (read_eq hl), bind_eq (read_eq hr)],
    hi.allocate hl hr, extends_allocate tree _, Function.update_self _ _ _⟩

/-- What the program can reach from the references of `own`. -/
inductive Reach (h : Heap V) (own : Multiset Pointer) : Pointer → Prop
  | own {n : Pointer} (hn : n ∈ own) : Reach h own n
  | left {n : Pointer} {c : Cell V} (hn : Reach h own n) (hc : h.cells n = some c) :
    Reach h own c.left
  | right {n : Pointer} {c : Cell V} (hn : Reach h own n) (hc : h.cells n = some c) :
    Reach h own c.right

theorem Reach.live (hi : h.Inv tree own) (hn : Reach h own n) : h.Live n := by
  cases hn with
  | own hn => exact hi.owned _ hn
  | left _ hc => exact (hi.children _ _ hc).1
  | right _ hc => exact (hi.children _ _ hc).2

/-- What the program can reach stays within reach while it keeps its references. -/
theorem Reach.extends {own₀ : Multiset Pointer} (hi : h.Inv tree own₀) (hi' : h'.Inv tree' own')
    (hext : Extends h tree h' tree') (hsub : own ⊆ own') (hn : Reach h own n) :
    Reach h' own' n := by
  induction hn with
  | own hn => exact .own (hsub hn)
  | left _ hc ih =>
    obtain ⟨c', hc'⟩ := ih.live hi'
    rw [← (hext.children_eq _ _ _ (hi.lt_next hc) hc hc').1]
    exact .left ih hc'
  | right _ hc ih =>
    obtain ⟨c', hc'⟩ := ih.live hi'
    rw [← (hext.children_eq _ _ _ (hi.lt_next hc) hc hc').2]
    exact .right ih hc'

theorem Heap.Extends.tree_live (hi : h.Inv tree own) (hext : Extends h tree h' tree')
    (hn : h.Live n) : tree' n = tree n := by
  obtain ⟨c, hc⟩ := hn
  exact hext.tree_eq n (hi.lt_next hc)

theorem Builds.bind {x : HeapM V Pointer} {f : Pointer → HeapM V Pointer} {t t' : Node V}
    (hx : Builds x h tree own t)
    (hf : ∀ n h' tree', h'.Inv tree' (n ::ₘ own) → Extends h tree h' tree' → tree' n = t →
      Builds (f n) h' tree' own' t') :
    Builds (x >>= f) h tree own' t' := by
  obtain ⟨n, h₁, tree₁, hrun₁, hi₁, hext₁, ht₁⟩ := hx
  obtain ⟨m, h₂, tree₂, hrun₂, hi₂, hext₂, ht₂⟩ := hf n h₁ tree₁ hi₁ hext₁ ht₁
  exact ⟨m, h₂, tree₂, by rw [bind_eq hrun₁, hrun₂], hi₂, hext₁.trans hext₂, ht₂⟩

theorem Builds.read_bind {f : Cell V → HeapM V Pointer} {t : Node V} (hc : h.cells n = some c)
    (hf : Builds (f c) h tree own t) : Builds (read n >>= f) h tree own t := by
  rwa [Builds, bind_eq (read_eq hc)]

theorem incref_builds (hi : h.Inv tree own) (hn : h.Live n) :
    Builds (incref n) h tree own (tree n) := by
  obtain ⟨h', hrun, hi', hext⟩ := incref_spec hi hn
  exact ⟨n, h', tree, hrun, hi', hext, rfl⟩

/-- A node that has served is released at the end. -/
theorem decref_builds {t : Node V} (hi : h.Inv tree (m ::ₘ n ::ₘ own)) (ht : tree m = t) :
    Builds (do decref n; return m) h tree own t := by
  rw [Multiset.cons_swap] at hi
  obtain ⟨h', hrun, hi', hext⟩ := decref_spec hi
  exact ⟨m, h', tree, by rw [bind_eq hrun]; rfl, hi', hext, ht⟩

/-- The single rotation to the right. -/
theorem rotateRight_spec (hi : h.Inv tree (l ::ₘ r ::ₘ own)) (hc : h.cells l = some c) :
    Builds (do
      let nlr ← newNode (← incref c.right) r v
      let res ← newNode (← incref c.left) nlr c.value
      decref l
      return res) h tree own (.mk (tree c.left) (.mk (tree c.right) (tree r) v) c.value) := by
  have hl : Reach h (l ::ₘ own) l := .own (Multiset.mem_cons_self _ _)
  have hr : h.Live r := hi.owned r (Multiset.mem_cons_of_mem (Multiset.mem_cons_self _ _))
  obtain ⟨hcl, hcr⟩ := hi.children l c hc
  refine (incref_builds hi hcr).bind fun p h₁ tree₁ hi₁ hext₁ htp => ?_
  have hi₁' : h₁.Inv tree₁ (p ::ₘ r ::ₘ l ::ₘ own) := by
    rwa [Multiset.cons_swap r]
  refine (newNode_spec hi₁').bind fun nlr h₂ tree₂ hi₂ hext₂ htnlr => ?_
  have hext₁₂ := hext₁.trans hext₂
  have hcl₂ := (Reach.left hl hc).extends hi hi₂ hext₁₂ (Multiset.subset_cons _ _)
  refine (incref_builds hi₂ (hcl₂.live hi₂)).bind fun q h₃ tree₃ hi₃ hext₃ htq => ?_
  refine (newNode_spec hi₃).bind fun res h₄ tree₄ hi₄ hext₄ htres => ?_
  refine decref_builds hi₄ ?_
  have hnlr : h₂.Live nlr := hi₂.owned nlr (Multiset.mem_cons_self _ _)
  rw [htres, htq, hext₃.tree_live hi₂ hnlr, htnlr, htp, hext₁.tree_live hi hr,
    hext₁₂.tree_live hi hcl]

theorem rotateLeft_spec (hi : h.Inv tree (l ::ₘ r ::ₘ own)) (hc : h.cells r = some c) :
    Builds (do
      let nrl ← newNode l (← incref c.left) v
      let res ← newNode nrl (← incref c.right) c.value
      decref r
      return res) h tree own (.mk (.mk (tree l) (tree c.left) v) (tree c.right) c.value) := by
  have hr : Reach h (r ::ₘ own) r := .own (Multiset.mem_cons_self _ _)
  have hl : h.Live l := hi.owned l (Multiset.mem_cons_self _ _)
  obtain ⟨hcl, hcr⟩ := hi.children r c hc
  refine (incref_builds hi hcl).bind fun p h₁ tree₁ hi₁ hext₁ htp => ?_
  have hi₁' : h₁.Inv tree₁ (l ::ₘ p ::ₘ r ::ₘ own) := by
    rwa [Multiset.cons_swap l]
  refine (newNode_spec hi₁').bind fun nrl h₂ tree₂ hi₂ hext₂ htnrl => ?_
  have hext₁₂ := hext₁.trans hext₂
  have hcr₂ := (Reach.right hr hc).extends hi hi₂ hext₁₂ (Multiset.subset_cons _ _)
  refine (incref_builds hi₂ (hcr₂.live hi₂)).bind fun q h₃ tree₃ hi₃ hext₃ htq => ?_
  have hi₃' : h₃.Inv tree₃ (nrl ::ₘ q ::ₘ r ::ₘ own) := by
    rwa [Multiset.cons_swap nrl]
  refine (newNode_spec hi₃').bind fun res h₄ tree₄ hi₄ hext₄ htres => ?_
  refine decref_builds hi₄ ?_
  have hnrl : h₂.Live nrl := hi₂.owned nrl (Multiset.mem_cons_self _ _)
  rw [htres, htq, hext₃.tree_live hi₂ hnrl, htnrl, htp, hext₁.tree_live hi hl,
    hext₁₂.tree_live hi hcr]

/-- The double rotation to the right. -/
theorem rotateLeftRight_spec {cm : Cell V} (hi : h.Inv tree (l ::ₘ r ::ₘ own))
    (hc : h.cells l = some c) (hcm : h.cells c.right = some cm) :
    Builds (do
      let nll ← newNode (← incref c.left) (← incref cm.left) c.value
      let nlr ← newNode (← incref cm.right) r v
      let res ← newNode nll nlr cm.value
      decref l
      return res) h tree own
      (.mk (.mk (tree c.left) (tree cm.left) c.value) (.mk (tree cm.right) (tree r) v) cm.value) := by
  have hl : Reach h (l ::ₘ r ::ₘ own) l := .own (Multiset.mem_cons_self _ _)
  have hr : h.Live r := hi.owned r (Multiset.mem_cons_of_mem (Multiset.mem_cons_self _ _))
  have hm : Reach h (l ::ₘ r ::ₘ own) c.right := .right hl hc
  have hcl := (hi.children l c hc).1
  obtain ⟨hml, hmr⟩ := hi.children c.right cm hcm
  refine (incref_builds hi hcl).bind fun p h₁ tree₁ hi₁ hext₁ htp => ?_
  have hml₁ := (Reach.left hm hcm).extends hi hi₁ hext₁ (Multiset.subset_cons _ _)
  refine (incref_builds hi₁ (hml₁.live hi₁)).bind fun q h₂ tree₂ hi₂ hext₂ htq => ?_
  have hi₂' : h₂.Inv tree₂ (p ::ₘ q ::ₘ l ::ₘ r ::ₘ own) := by
    rwa [Multiset.cons_swap p]
  refine (newNode_spec hi₂').bind fun nll h₃ tree₃ hi₃ hext₃ htnll => ?_
  have hext₁₃ := hext₁.trans (hext₂.trans hext₃)
  have hmr₃ := (Reach.right hm hcm).extends hi hi₃ hext₁₃ (Multiset.subset_cons _ _)
  refine (incref_builds hi₃ (hmr₃.live hi₃)).bind fun s h₄ tree₄ hi₄ hext₄ hts => ?_
  have hi₄' : h₄.Inv tree₄ (s ::ₘ r ::ₘ nll ::ₘ l ::ₘ own) := by
    rwa [Multiset.cons_swap r nll, Multiset.cons_swap r l]
  refine (newNode_spec hi₄').bind fun nlr h₅ tree₅ hi₅ hext₅ htnlr => ?_
  have hi₅' : h₅.Inv tree₅ (nll ::ₘ nlr ::ₘ l ::ₘ own) := by
    rwa [Multiset.cons_swap nll]
  refine (newNode_spec hi₅').bind fun res h₆ tree₆ hi₆ hext₆ htres => ?_
  refine decref_builds hi₆ ?_
  have hp : h₁.Live p := hi₁.owned p (Multiset.mem_cons_self _ _)
  have hnll : h₃.Live nll := hi₃.owned nll (Multiset.mem_cons_self _ _)
  have hr₄ := (hext₁₃.trans hext₄).tree_live hi hr
  rw [htres, (hext₄.trans hext₅).tree_live hi₃ hnll, htnll, htnlr, hts, hr₄,
    hext₁₃.tree_live hi hmr, htq, hext₂.tree_live hi₁ hp, htp, hext₁.tree_live hi hml]

theorem rotateRightLeft_spec {cm : Cell V} (hi : h.Inv tree (l ::ₘ r ::ₘ own))
    (hc : h.cells r = some c) (hcm : h.cells c.left = some cm) :
    Builds (do
      let nrl ← newNode l (← incref cm.left) v
      let nrr ← newNode (← incref cm.right) (← incref c.right) c.value
      let res ← newNode nrl nrr cm.value
      decref r
      return res) h tree own
      (.mk (.mk (tree l) (tree cm.left) v) (.mk (tree cm.right) (tree c.right) c.value) cm.value) := by
  have hr : Reach h (r ::ₘ own) r := .own (Multiset.mem_cons_self _ _)
  have hl : h.Live l := hi.owned l (Multiset.mem_cons_self _ _)
  have hm : Reach h (r ::ₘ own) c.left := .left hr hc
  have hcr := (hi.children r c hc).2
  obtain ⟨hml, hmr⟩ := hi.children c.left cm hcm
  refine (incref_builds hi hml).bind fun p h₁ tree₁ hi₁ hext₁ htp => ?_
  have hi₁' : h₁.Inv tree₁ (l ::ₘ p ::ₘ r ::ₘ own) := by
    rwa [Multiset.cons_swap l]
  refine (newNode_spec hi₁').bind fun nrl h₂ tree₂ hi₂ hext₂ htnrl => ?_
  have hext₁₂ := hext₁.trans hext₂
  have hmr₂ := (Reach.right hm hcm).extends hi hi₂ hext₁₂ (Multiset.subset_cons _ _)
  refine (incref_builds hi₂ (hmr₂.live hi₂)).bind fun q h₃ tree₃ hi₃ hext₃ htq => ?_
  have hext₁₃ := hext₁₂.trans hext₃
  have hsub : r ::ₘ own ⊆ q ::ₘ nrl ::ₘ r ::ₘ own := fun m hm =>
    Multiset.mem_cons_of_mem (Multiset.mem_cons_of_mem hm)
  have hcr₃ := (Reach.right hr hc).extends hi hi₃ hext₁₃ hsub
  refine (incref_builds hi₃ (hcr₃.live hi₃)).bind fun s h₄ tree₄ hi₄ hext₄ hts => ?_
  have hi₄' : h₄.Inv tree₄ (q ::ₘ s ::ₘ nrl ::ₘ r ::ₘ own) := by
    rwa [Multiset.cons_swap q]
  refine (newNode_spec hi₄').bind fun nrr h₅ tree₅ hi₅ hext₅ htnrr => ?_
  have hi₅' : h₅.Inv tree₅ (nrl ::ₘ nrr ::ₘ r ::ₘ own) := by
    rwa [Multiset.cons_swap nrl]
  refine (newNode_spec hi₅').bind fun res h₆ tree₆ hi₆ hext₆ htres => ?_
  refine decref_builds hi₆ ?_
  have hq : h₃.Live q := hi₃.owned q (Multiset.mem_cons_self _ _)
  have hnrl : h₂.Live nrl := hi₂.owned nrl (Multiset.mem_cons_self _ _)
  rw [htres, (hext₃.trans (hext₄.trans hext₅)).tree_live hi₂ hnrl, htnrl, htp,
    hext₁.tree_live hi hl, htnrr, hext₄.tree_live hi₃ hq, htq, hts, hext₁₂.tree_live hi hmr,
    hext₁₃.tree_live hi hcr]

/-- A node with a height is not the terminator. -/
theorem tree_of_height (hi : h.Inv tree own) (hc : h.cells n = some c) (hpos : 0 < c.height) :
    tree n = .node (tree c.left) (tree c.right) c.value c.height := by
  refine hi.tree_cell n c ?_ hc
  rintro rfl
  have hheight := hi.height_tree hc
  rw [hi.tree_terminator] at hheight
  exact hpos.ne hheight

/-- The rotations build what `balance` does to the trees. -/
theorem balanceCells_spec (hi : h.Inv tree (l ::ₘ r ::ₘ own)) :
    Builds (balanceCells l v r) h tree own (.balance (tree l) v (tree r)) := by
  obtain ⟨cl, hcl⟩ := hi.owned l (Multiset.mem_cons_self _ _)
  obtain ⟨cr, hcr⟩ := hi.owned r (Multiset.mem_cons_of_mem (Multiset.mem_cons_self _ _))
  have hhl := hi.height_tree hcl
  have hhr := hi.height_tree hcr
  obtain ⟨hll, hlr⟩ := hi.children l cl hcl
  obtain ⟨hrl, hrr⟩ := hi.children r cr hcr
  obtain ⟨ll, hll⟩ := hll
  obtain ⟨lr, hlr⟩ := hlr
  obtain ⟨rl, hrl⟩ := hrl
  obtain ⟨rr, hrr⟩ := hrr
  have hhll := hi.height_tree hll
  have hhlr := hi.height_tree hlr
  have hhrl := hi.height_tree hrl
  have hhrr := hi.height_tree hrr
  unfold balanceCells Node.balance
  refine .read_bind hcl (.read_bind hcr ?_)
  rw [hhl, hhr]
  by_cases hdeep : cl.height > cr.height + 2
  · rw [if_pos hdeep, if_pos hdeep]
    refine .read_bind hll (.read_bind hlr ?_)
    rw [tree_of_height hi hcl (by omega)]
    dsimp only
    rw [hhll, hhlr]
    by_cases hge : ll.height ≥ lr.height
    · rw [if_pos hge, if_pos hge]
      exact rotateRight_spec hi hcl
    · rw [if_neg hge, if_neg hge, tree_of_height hi hlr (by omega)]
      exact rotateLeftRight_spec hi hcl hlr
  · rw [if_neg hdeep, if_neg hdeep]
    by_cases hdeep' : cr.height > cl.height + 2
    · rw [if_pos hdeep', if_pos hdeep']
      refine .read_bind hrl (.read_bind hrr ?_)
      rw [tree_of_height hi hcr (by omega)]
      dsimp only
      rw [hhrl, hhrr]
      by_cases hge : rr.height ≥ rl.height
      · rw [if_pos hge, if_pos hge]
        exact rotateLeft_spec hi hcr
      · rw [if_neg hge, if_neg hge, tree_of_height hi hrl (by omega)]
        exact rotateRightLeft_spec hi hcr hrl
    · rw [if_neg hdeep', if_neg hdeep']
      exact newNode_spec hi

end Nodes

section Operations

variable [Inhabited V] {h h' : Heap V} {tree tree' : Pointer → Node V} {own : Multiset Pointer}
  {n : Pointer} {c : Cell V} {v : V} {k : K} {fuel : Nat}

open Heap

/-- The right subtree is kept, the left one rebuilt. -/
theorem rebuildLeft_spec {x : HeapM V Pointer} {t : Node V} (hi : h.Inv tree own)
    (hn : Reach h own n) (hc : h.cells n = some c) (hx : Builds x h tree own t) :
    Builds (do balanceCells (← x) v (← incref c.right)) h tree own
      (.balance t v (tree c.right)) := by
  have hright : h.Live c.right := (hi.children n c hc).2
  refine hx.bind fun p h₁ tree₁ hi₁ hext₁ htp => ?_
  have hright₁ := (Reach.right hn hc).extends hi hi₁ hext₁ (Multiset.subset_cons _ _)
  refine (incref_builds hi₁ (hright₁.live hi₁)).bind fun q h₂ tree₂ hi₂ hext₂ htq => ?_
  have hp : h₁.Live p := hi₁.owned p (Multiset.mem_cons_self _ _)
  rw [Multiset.cons_swap] at hi₂
  rw [← htp, ← hext₁.tree_live hi hright, ← htq, ← hext₂.tree_live hi₁ hp]
  exact balanceCells_spec hi₂

theorem rebuildRight_spec {x : HeapM V Pointer} {t : Node V} (hi : h.Inv tree own)
    (hc : h.cells n = some c)
    (hx : ∀ h₁ own₁, h₁.Inv tree own₁ → Extends h tree h₁ tree → own ⊆ own₁ →
      Builds x h₁ tree own₁ t) :
    Builds (do balanceCells (← incref c.left) v (← x)) h tree own
      (.balance (tree c.left) v t) := by
  obtain ⟨h₁, hrun, hi₁, hext₁⟩ := incref_spec hi (hi.children n c hc).1
  obtain ⟨q, h₂, tree₂, hrun₂, hi₂, hext₂, htq⟩ := hx h₁ _ hi₁ hext₁ (Multiset.subset_cons _ _)
  have hleft : h₁.Live c.left := hi₁.owned _ (Multiset.mem_cons_self _ _)
  rw [Multiset.cons_swap] at hi₂
  obtain ⟨res, h₃, tree₃, hrun₃, hi₃, hext₃, htres⟩ := balanceCells_spec (v := v) hi₂
  refine ⟨res, h₃, tree₃, ?_, hi₃, hext₁.trans (hext₂.trans hext₃), ?_⟩
  · rw [bind_eq hrun, bind_eq hrun₂, hrun₃]
  · rw [htres, htq, hext₂.tree_live hi₁ hleft]

/-- A node without children. -/
theorem leaf_spec (hi : h.Inv tree own) :
    Builds (do newNode (← incref terminator) (← incref terminator) v) h tree own
      (.mk .terminator .terminator v) := by
  obtain ⟨references, hstatic⟩ := hi.static
  obtain ⟨h₁, hrun₁, hi₁, hext₁⟩ := incref_spec hi ⟨_, hstatic⟩
  have hlive : h₁.Live terminator := hi₁.owned _ (Multiset.mem_cons_self _ _)
  obtain ⟨h₂, hrun₂, hi₂, hext₂⟩ := incref_spec hi₁ hlive
  obtain ⟨res, h₃, tree₃, hrun₃, hi₃, hext₃, htres⟩ := newNode_spec (v := v) hi₂
  rw [hi.tree_terminator] at htres
  exact ⟨res, h₃, tree₃, by rw [bind_eq hrun₁, bind_eq hrun₂, hrun₃], hi₃,
    hext₁.trans (hext₂.trans hext₃), htres⟩

theorem isTerminator_tree (hi : h.Inv tree own) (hn : h.Live n) :
    (tree n).isTerminator = true ↔ n = terminator := by
  by_cases ht : n = terminator
  · rw [ht, hi.tree_terminator]
    exact iff_of_true rfl rfl
  · obtain ⟨c, hc⟩ := hn
    rw [hi.tree_cell n c ht hc]
    exact iff_of_false Bool.false_ne_true ht

/-- From `h`, the program ends with the value of `p` and a node for the tree of `p`. -/
def Pops (x : HeapM V (V × Pointer)) (h : Heap V) (tree : Pointer → Node V)
    (own : Multiset Pointer) (p : V × Node V) : Prop :=
  ∃ n h' tree', x h = some ((p.1, n), h') ∧ h'.Inv tree' (n ::ₘ own) ∧ Extends h tree h' tree' ∧
    tree' n = p.2

/-- The value at the root goes, and one subtree is what stays. -/
theorem pop_root (hi : h.Inv tree own) (hn : h.Live n) :
    Pops (do return (v, ← incref n)) h tree own (v, tree n) := by
  obtain ⟨h', hrun, hi', hext⟩ := incref_spec hi hn
  exact ⟨n, h', tree, by rw [bind_eq hrun]; rfl, hi', hext, rfl⟩

theorem popMinCells_spec (hi : h.Inv tree own) (hn : Reach h own n) (hfuel : n < fuel) :
    Pops (popMinCells fuel n) h tree own (tree n).popMin := by
  induction fuel generalizing n with
  | zero => exact absurd hfuel (Nat.not_lt_zero _)
  | succ fuel ih =>
    obtain ⟨c, hc⟩ := hn.live hi
    obtain ⟨hcl, hcr⟩ := hi.children n c hc
    rw [popMinCells, Pops, bind_eq (read_eq hc)]
    by_cases hleft : c.left = terminator
    · rw [if_pos hleft]
      by_cases ht : n = terminator
      · obtain ⟨references, hstatic⟩ := hi.static
        rw [ht, hstatic] at hc
        have hpop := pop_root (v := (default : V)) hi ⟨_, hstatic⟩
        rw [← Option.some.inj hc, ht, hi.tree_terminator]
        rwa [hi.tree_terminator] at hpop
      · rw [hi.tree_cell n c ht hc, Node.popMin, if_pos ((isTerminator_tree hi hcl).mpr hleft)]
        exact pop_root hi hcr
    · have ht : n ≠ terminator := by
        rintro rfl
        obtain ⟨references, hstatic⟩ := hi.static
        rw [hstatic] at hc
        exact hleft (Option.some.inj hc ▸ rfl)
      obtain ⟨hltl, -⟩ := hi.children_lt n c ht hc
      obtain ⟨p, h₁, tree₁, hrun₁, hi₁, hext₁, htp⟩ :=
        ih (.left hn hc) (hltl.trans_le (Nat.le_of_lt_succ hfuel))
      have hright₁ := (Reach.right hn hc).extends hi hi₁ hext₁ (Multiset.subset_cons _ _)
      obtain ⟨h₂, hrun₂, hi₂, hext₂⟩ := incref_spec hi₁ (hright₁.live hi₁)
      rw [Multiset.cons_swap] at hi₂
      obtain ⟨res, h₃, tree₃, hrun₃, hi₃, hext₃, htres⟩ := balanceCells_spec (v := c.value) hi₂
      rw [if_neg hleft, hi.tree_cell n c ht hc, Node.popMin,
        if_neg fun hterminator => hleft ((isTerminator_tree hi hcl).mp hterminator)]
      refine ⟨res, h₃, tree₃, ?_, hi₃, hext₁.trans (hext₂.trans hext₃), ?_⟩
      · rw [bind_eq hrun₁]
        dsimp only
        rw [bind_eq hrun₂, bind_eq hrun₃]
        rfl
      · rw [htres, htp, hext₁.tree_live hi hcr]

theorem popMaxCells_spec (hi : h.Inv tree own) (hn : Reach h own n) (hfuel : n < fuel) :
    Pops (popMaxCells fuel n) h tree own (tree n).popMax := by
  induction fuel generalizing h own n with
  | zero => exact absurd hfuel (Nat.not_lt_zero _)
  | succ fuel ih =>
    obtain ⟨c, hc⟩ := hn.live hi
    obtain ⟨hcl, hcr⟩ := hi.children n c hc
    rw [popMaxCells, Pops, bind_eq (read_eq hc)]
    by_cases hright : c.right = terminator
    · rw [if_pos hright]
      by_cases ht : n = terminator
      · obtain ⟨references, hstatic⟩ := hi.static
        rw [ht, hstatic] at hc
        have hpop := pop_root (v := (default : V)) hi ⟨_, hstatic⟩
        rw [← Option.some.inj hc, ht, hi.tree_terminator]
        rwa [hi.tree_terminator] at hpop
      · rw [hi.tree_cell n c ht hc, Node.popMax, if_pos ((isTerminator_tree hi hcr).mpr hright)]
        exact pop_root hi hcl
    · have ht : n ≠ terminator := by
        rintro rfl
        obtain ⟨references, hstatic⟩ := hi.static
        rw [hstatic] at hc
        exact hright (Option.some.inj hc ▸ rfl)
      obtain ⟨-, hltr⟩ := hi.children_lt n c ht hc
      obtain ⟨h₁, hrun₁, hi₁, hext₁⟩ := incref_spec hi hcl
      have hright₁ := (Reach.right hn hc).extends hi hi₁ hext₁ (Multiset.subset_cons _ _)
      obtain ⟨p, h₂, tree₂, hrun₂, hi₂, hext₂, htp⟩ :=
        ih hi₁ hright₁ (hltr.trans_le (Nat.le_of_lt_succ hfuel))
      have hleft₁ : h₁.Live c.left := hi₁.owned _ (Multiset.mem_cons_self _ _)
      rw [Multiset.cons_swap] at hi₂
      obtain ⟨res, h₃, tree₃, hrun₃, hi₃, hext₃, htres⟩ := balanceCells_spec (v := c.value) hi₂
      rw [if_neg hright, hi.tree_cell n c ht hc, Node.popMax,
        if_neg fun hterminator => hright ((isTerminator_tree hi hcr).mp hterminator)]
      refine ⟨res, h₃, tree₃, ?_, hi₃, hext₁.trans (hext₂.trans hext₃), ?_⟩
      · rw [bind_eq hrun₁, bind_eq hrun₂]
        dsimp only
        rw [bind_eq hrun₃]
        rfl
      · rw [htres, htp, hext₂.tree_live hi₁ hleft₁]

variable (lt : K → K → Prop) [DecidableRel lt] (key : V → K)

theorem insertCells_spec (hi : h.Inv tree own) (hn : Reach h own n) (hfuel : n < fuel) :
    Builds (insertCells lt key v fuel n) h tree own ((tree n).insert lt key v) := by
  induction fuel generalizing h tree own n with
  | zero => exact absurd hfuel (Nat.not_lt_zero _)
  | succ fuel ih =>
    rw [insertCells]
    by_cases ht : n = terminator
    · rw [if_pos ht, ht, hi.tree_terminator]
      exact leaf_spec hi
    · obtain ⟨c, hc⟩ := hn.live hi
      obtain ⟨hltl, hltr⟩ := hi.children_lt n c ht hc
      rw [if_neg ht, hi.tree_cell n c ht hc, Node.insert]
      refine .read_bind hc ?_
      split
      case isTrue =>
        have hleft := ih hi (.left hn hc) (hltl.trans_le (Nat.le_of_lt_succ hfuel))
        exact rebuildLeft_spec hi hn hc hleft
      case isFalse =>
        split
        case isTrue =>
          refine rebuildRight_spec hi hc fun h₁ own₁ hi₁ hext₁ hsub => ?_
          exact ih hi₁ ((Reach.right hn hc).extends hi hi₁ hext₁ hsub)
            (hltr.trans_le (Nat.le_of_lt_succ hfuel))
        case isFalse =>
          rw [← hi.tree_cell n c ht hc]
          exact incref_builds hi (hn.live hi)

theorem replaceCells_spec (hi : h.Inv tree own) (hn : Reach h own n) (hfuel : n < fuel) :
    Builds (replaceCells lt key v fuel n) h tree own ((tree n).replace lt key v) := by
  induction fuel generalizing h tree own n with
  | zero => exact absurd hfuel (Nat.not_lt_zero _)
  | succ fuel ih =>
    rw [replaceCells]
    by_cases ht : n = terminator
    · rw [if_pos ht, ht, hi.tree_terminator]
      exact leaf_spec hi
    · obtain ⟨c, hc⟩ := hn.live hi
      obtain ⟨hltl, hltr⟩ := hi.children_lt n c ht hc
      rw [if_neg ht, hi.tree_cell n c ht hc, Node.replace]
      refine .read_bind hc ?_
      split
      case isTrue =>
        have hleft := ih hi (.left hn hc) (hltl.trans_le (Nat.le_of_lt_succ hfuel))
        exact rebuildLeft_spec hi hn hc hleft
      case isFalse =>
        split
        case isTrue =>
          refine rebuildRight_spec hi hc fun h₁ own₁ hi₁ hext₁ hsub => ?_
          exact ih hi₁ ((Reach.right hn hc).extends hi hi₁ hext₁ hsub)
            (hltr.trans_le (Nat.le_of_lt_succ hfuel))
        case isFalse =>
          obtain ⟨hcl, hcr⟩ := hi.children n c hc
          refine (incref_builds hi hcl).bind fun p h₁ tree₁ hi₁ hext₁ htp => ?_
          have hright₁ := (Reach.right hn hc).extends hi hi₁ hext₁ (Multiset.subset_cons _ _)
          refine (incref_builds hi₁ (hright₁.live hi₁)).bind fun q h₂ tree₂ hi₂ hext₂ htq => ?_
          have hp : h₁.Live p := hi₁.owned p (Multiset.mem_cons_self _ _)
          rw [Multiset.cons_swap] at hi₂
          rw [← htp, ← hext₁.tree_live hi hcr, ← htq, ← hext₂.tree_live hi₁ hp]
          exact newNode_spec hi₂

theorem removeCells_spec (hi : h.Inv tree own) (hn : Reach h own n) (hfuel : n < fuel) :
    Builds (removeCells lt key k fuel n) h tree own ((tree n).remove lt key k) := by
  induction fuel generalizing h tree own n with
  | zero => exact absurd hfuel (Nat.not_lt_zero _)
  | succ fuel ih =>
    rw [removeCells]
    by_cases ht : n = terminator
    · rw [if_pos ht, ht, hi.tree_terminator, Node.remove, ← hi.tree_terminator]
      exact incref_builds hi (ht ▸ hn.live hi)
    · obtain ⟨c, hc⟩ := hn.live hi
      obtain ⟨hltl, hltr⟩ := hi.children_lt n c ht hc
      have hfuelr := hltr.trans_le (Nat.le_of_lt_succ hfuel)
      rw [if_neg ht, hi.tree_cell n c ht hc, Node.remove]
      refine .read_bind hc ?_
      split
      case isTrue =>
        have hleft := ih hi (.left hn hc) (hltl.trans_le (Nat.le_of_lt_succ hfuel))
        exact rebuildLeft_spec hi hn hc hleft
      case isFalse =>
        split
        case isTrue =>
          refine rebuildRight_spec hi hc fun h₁ own₁ hi₁ hext₁ hsub => ?_
          exact ih hi₁ ((Reach.right hn hc).extends hi hi₁ hext₁ hsub) hfuelr
        case isFalse =>
          obtain ⟨hcl, hcr⟩ := hi.children n c hc
          simp only [isTerminator_tree hi hcl, isTerminator_tree hi hcr]
          split
          case isTrue => exact incref_builds hi hcr
          case isFalse =>
            split
            case isTrue => exact incref_builds hi hcl
            case isFalse =>
              obtain ⟨nr, h₁, tree₁, hrun₁, hi₁, hext₁, htnr⟩ :=
                popMinCells_spec hi (.right hn hc) hfuelr
              have hleft₁ := (Reach.left hn hc).extends hi hi₁ hext₁ (Multiset.subset_cons _ _)
              obtain ⟨h₂, hrun₂, hi₂, hext₂⟩ := incref_spec hi₁ (hleft₁.live hi₁)
              obtain ⟨res, h₃, tree₃, hrun₃, hi₃, hext₃, htres⟩ :=
                balanceCells_spec (v := (tree c.right).popMin.1) hi₂
              refine ⟨res, h₃, tree₃, ?_, hi₃, hext₁.trans (hext₂.trans hext₃), ?_⟩
              · rw [bind_eq hrun₁]
                dsimp only
                rw [bind_eq hrun₂, hrun₃]
              · rw [htres, htnr, hext₁.tree_live hi hcl]

theorem lookupCells_spec (hi : h.Inv tree own) (hn : Reach h own n) (hfuel : n < fuel) :
    lookupCells lt key k fuel n h = some ((tree n).lookup lt key k, h) := by
  induction fuel generalizing n with
  | zero => exact absurd hfuel (Nat.not_lt_zero _)
  | succ fuel ih =>
    rw [lookupCells]
    by_cases ht : n = terminator
    · rw [if_pos ht, ht, hi.tree_terminator]
      rfl
    · obtain ⟨c, hc⟩ := hn.live hi
      obtain ⟨hltl, hltr⟩ := hi.children_lt n c ht hc
      rw [if_neg ht, bind_eq (read_eq hc), hi.tree_cell n c ht hc, Node.lookup]
      split
      case isTrue => exact ih (.left hn hc) (hltl.trans_le (Nat.le_of_lt_succ hfuel))
      case isFalse =>
        split
        case isTrue => exact ih (.right hn hc) (hltr.trans_le (Nat.le_of_lt_succ hfuel))
        case isFalse => rfl

theorem lookupPreviousCells_spec {result : Option V} (hi : h.Inv tree own) (hn : Reach h own n)
    (hfuel : n < fuel) : lookupPreviousCells lt key k result fuel n h =
      some ((tree n).lookupPreviousFrom lt key k result, h) := by
  induction fuel generalizing n result with
  | zero => exact absurd hfuel (Nat.not_lt_zero _)
  | succ fuel ih =>
    rw [lookupPreviousCells]
    by_cases ht : n = terminator
    · rw [if_pos ht, ht, hi.tree_terminator]
      rfl
    · obtain ⟨c, hc⟩ := hn.live hi
      obtain ⟨hltl, hltr⟩ := hi.children_lt n c ht hc
      rw [if_neg ht, bind_eq (read_eq hc), hi.tree_cell n c ht hc, Node.lookupPreviousFrom]
      split
      case isTrue => exact ih (.left hn hc) (hltl.trans_le (Nat.le_of_lt_succ hfuel))
      case isFalse =>
        split
        case isTrue => exact ih (.right hn hc) (hltr.trans_le (Nat.le_of_lt_succ hfuel))
        case isFalse => rfl

end Operations

end Klee.ImmutableTree
