import Mathlib.Algebra.BigOperators.Group.Finset.Basic
import Mathlib.Data.Finset.Sort
import Mathlib.Data.BitVec
import Mathlib.Data.List.Infix
import Mathlib.Logic.Relation
import Mathlib.Data.List.GetD
import Mathlib.Tactic

/-! `InterProcCFG::computeScoreSquare`: the statistics of all that a basic block leads to. -/
namespace Klee

/-- What `BlockStat::analyze` reads of an instruction: its place in the source, and the name of the
function that it calls or invokes. -/
structure Instruction where
  debugLoc : Option (String × String × Int)
  calledFunction : Option String

abbrev Counter := BitVec 32

@[ext] structure BlockStat where
  num_block : Counter
  num_inst : Counter
  num_source : Counter
  num_bug : Counter
  num_overflow : Counter
  num_shift : Counter
  num_oob : Counter
  num_pointer : Counter
  num_null : Counter
deriving DecidableEq

namespace BlockStat

instance : Zero BlockStat := ⟨0, 0, 0, 0, 0, 0, 0, 0, 0⟩

/-- `update` -/
instance : Add BlockStat where
  add s other :=
    { num_block := s.num_block + other.num_block
      num_inst := s.num_inst + other.num_inst
      num_source := s.num_source + other.num_source
      num_bug := s.num_bug + other.num_bug
      num_overflow := s.num_overflow + other.num_overflow
      num_shift := s.num_shift + other.num_shift
      num_oob := s.num_oob + other.num_oob
      num_pointer := s.num_pointer + other.num_pointer
      num_null := s.num_null + other.num_null }

def overflowLabels : List String :=
  ["__ubsan_handle_add_overflow", "__ubsan_handle_add_overflow_abort",
    "__ubsan_handle_sub_overflow", "__ubsan_handle_sub_overflow_abort",
    "__ubsan_handle_mul_overflow", "__ubsan_handle_mul_overflow_abort",
    "__ubsan_handle_divrem_overflow", "__ubsan_handle_divrem_overflow_abort",
    "__ubsan_handle_negate_overflow", "__ubsan_handle_negate_overflow_abort"]

def shiftLabels : List String :=
  ["__ubsan_handle_shift_out_of_bounds", "__ubsan_handle_shift_out_of_bounds_abort"]

def oobLabels : List String :=
  ["__ubsan_handle_out_of_bounds", "__ubsan_handle_out_of_bounds_abort"]

def pointerLabels : List String :=
  ["__ubsan_handle_pointer_overflow", "__ubsan_handle_pointer_overflow_abort"]

def nullLabels : List String :=
  ["__ubsan_handle_type_mismatch", "__ubsan_handle_type_mismatch_abort",
    "__ubsan_handle_type_mismatch_v1", "__ubsan_handle_type_mismatch_v1_abort"]

def count (p : Prop) [Decidable p] : Counter := if p then 1 else 0

def InEnvironment (inst : Instruction) : Prop :=
  ∃ loc ∈ inst.debugLoc,
    "environment".toList <:+: (loc.1 ++ loc.2.1 ++ toString loc.2.2).toList

instance (inst : Instruction) : Decidable (InEnvironment inst) :=
  inferInstanceAs (Decidable (∃ loc ∈ inst.debugLoc, _))

def Calls (inst : Instruction) (labels : List String) : Prop :=
  ∃ funcName ∈ inst.calledFunction, funcName ∈ labels

instance (inst : Instruction) (labels : List String) : Decidable (Calls inst labels) :=
  inferInstanceAs (Decidable (∃ funcName ∈ inst.calledFunction, _))

def analyzeInst (s : BlockStat) (inst : Instruction) : BlockStat :=
  { num_block := s.num_block
    num_inst := s.num_inst + 1
    num_source := s.num_source + count (InEnvironment inst)
    num_bug := s.num_bug + count (Calls inst overflowLabels) + count (Calls inst shiftLabels) +
      count (Calls inst oobLabels) + count (Calls inst pointerLabels) +
      count (Calls inst nullLabels)
    num_overflow := s.num_overflow + count (Calls inst overflowLabels)
    num_shift := s.num_shift + count (Calls inst shiftLabels)
    num_oob := s.num_oob + count (Calls inst oobLabels)
    num_pointer := s.num_pointer + count (Calls inst pointerLabels)
    num_null := s.num_null + count (Calls inst nullLabels) }

def analyze (s : BlockStat) (bb : List Instruction) : BlockStat :=
  bb.foldl analyzeInst { s with num_block := s.num_block + 1 }

end BlockStat

/-- The edges of the graph, from the pseudo entry, which is `none`, or from a basic block. All
lead to basic blocks. -/
structure InterProcCFG (B : Type) where
  instructions : B → List Instruction
  outEdges : Option B → List B

namespace InterProcCFG

variable {B : Type} [DecidableEq B] (g : InterProcCFG B)

/-- `node_to_scc`, `scc_descs` and `scc_stats`. -/
structure Components (B : Type) where
  node_to_scc : Option B → Nat
  scc_descs : List (Finset Nat)
  scc_stats : List BlockStat

def descend (c : Components B) (scc : List (Option B)) (edges : List B) (scc_desc : Finset Nat) :
    Finset Nat :=
  edges.foldl (fun scc_desc dstNode =>
    if some dstNode ∈ scc then scc_desc
    else
      let dst_scc_index := c.node_to_scc (some dstNode)
      insert dst_scc_index scc_desc ∪ c.scc_descs.getD dst_scc_index ∅) scc_desc

def analyzeNodes (scc : List (Option B)) (scc_index : Nat) : List (Option B) → Components B →
    Finset Nat → BlockStat → Components B × Finset Nat × BlockStat
  | [], c, scc_desc, scc_stat => (c, scc_desc, scc_stat)
  | cfgnode :: rest, c, scc_desc, scc_stat =>
    let c := { c with node_to_scc := Function.update c.node_to_scc cfgnode scc_index }
    match cfgnode with
    | none => (c, scc_desc, scc_stat)
    | some bb =>
      analyzeNodes scc scc_index rest c (descend c scc (g.outEdges cfgnode) scc_desc)
        (scc_stat.analyze (g.instructions bb))

/-- An iteration of the first loop; `scc_index` is the number of components so far. -/
def analyzeScc (c : Components B) (scc : List (Option B)) : Components B :=
  let (c, scc_desc, scc_stat) := g.analyzeNodes scc c.scc_descs.length scc c ∅ 0
  { c with scc_descs := c.scc_descs ++ [scc_desc], scc_stats := c.scc_stats ++ [scc_stat] }

/-- The statistics for the nodes of the component `scc_index`. -/
def sccStat (c : Components B) (scc_index : Nat) : BlockStat :=
  ((c.scc_descs.getD scc_index ∅).sort (· ≤ ·)).foldl
    (fun scc_stat i => scc_stat + c.scc_stats.getD i 0) (c.scc_stats.getD scc_index 0)

/-- The statistics of the nodes, null at first, where `scc_iterator` gives the components. -/
def computeScoreSquare (sccs : List (List (Option B))) : Option B → Option BlockStat :=
  let c := sccs.foldl g.analyzeScc ⟨fun _ => 0, [], []⟩
  sccs.zipIdx.foldl (fun stat (scc, scc_index) => fun cfgnode =>
    if cfgnode ∈ scc then some (sccStat c scc_index) else stat cfgnode) fun _ => none

end InterProcCFG

end Klee

/-! Each basic block gets the sum of the statistics of all basic blocks that it leads to, each
counted once. -/
namespace Klee

namespace BlockStat

instance : AddCommMonoid BlockStat where
  add_assoc a b c := BlockStat.ext (add_assoc ..) (add_assoc ..) (add_assoc ..) (add_assoc ..)
    (add_assoc ..) (add_assoc ..) (add_assoc ..) (add_assoc ..) (add_assoc ..)
  zero_add a := BlockStat.ext (zero_add _) (zero_add _) (zero_add _) (zero_add _) (zero_add _)
    (zero_add _) (zero_add _) (zero_add _) (zero_add _)
  add_zero a := BlockStat.ext (add_zero _) (add_zero _) (add_zero _) (add_zero _) (add_zero _)
    (add_zero _) (add_zero _) (add_zero _) (add_zero _)
  add_comm a b := BlockStat.ext (add_comm ..) (add_comm ..) (add_comm ..) (add_comm ..)
    (add_comm ..) (add_comm ..) (add_comm ..) (add_comm ..) (add_comm ..)
  nsmul := nsmulRec

theorem analyzeInst_add (s t : BlockStat) (inst : Instruction) :
    analyzeInst (s + t) inst = s + analyzeInst t inst := by
  refine BlockStat.ext rfl (add_assoc ..) (add_assoc ..) ?_ (add_assoc ..) (add_assoc ..)
    (add_assoc ..) (add_assoc ..) (add_assoc ..)
  change s.num_bug + t.num_bug + _ + _ + _ + _ + _ = s.num_bug + (t.num_bug + _ + _ + _ + _ + _)
  simp only [add_assoc]

def ofBlock (bb : List Instruction) : BlockStat := analyze 0 bb

theorem foldl_analyzeInst_add (s t : BlockStat) (bb : List Instruction) :
    bb.foldl analyzeInst (s + t) = s + bb.foldl analyzeInst t := by
  induction bb generalizing t with
  | nil => rfl
  | cons inst bb ih => rw [List.foldl_cons, List.foldl_cons, analyzeInst_add, ih]

theorem analyze_eq (s : BlockStat) (bb : List Instruction) : s.analyze bb = s + ofBlock bb := by
  rw [analyze, ofBlock, analyze, ← foldl_analyzeInst_add]
  congr 1
  exact BlockStat.ext (by rw [← zero_add (1 : Counter)]; rfl) (add_zero _).symm (add_zero _).symm
    (add_zero _).symm (add_zero _).symm (add_zero _).symm (add_zero _).symm (add_zero _).symm
    (add_zero _).symm

end BlockStat

namespace InterProcCFG

section Order

variable {B : Type} {g : InterProcCFG B} {sccs : List (List (Option B))} {i j : Nat}
  {scc scc' : List (Option B)} {v w : Option B}

def Edge (g : InterProcCFG B) (v w : Option B) : Prop := ∃ b ∈ g.outEdges v, w = some b

def Reaches (g : InterProcCFG B) : Option B → Option B → Prop := Relation.ReflTransGen g.Edge

/-- What `scc_iterator` promises: the strongly connected components of what the entry reaches, in
reverse topological order. -/
structure SccOrder (g : InterProcCFG B) (sccs : List (List (Option B))) : Prop where
  nodup : sccs.flatten.Nodup
  mem_iff : ∀ v, v ∈ sccs.flatten ↔ g.Reaches none v
  connected : ∀ scc ∈ sccs, ∀ v ∈ scc, ∀ w ∈ scc, g.Reaches v w
  order : sccs.Pairwise fun scc scc' => ∀ v ∈ scc, ∀ w ∈ scc', ¬ g.Edge v w

theorem not_reaches_entry (hv : v ≠ none) : ¬ g.Reaches v none := by
  intro h
  rcases Relation.ReflTransGen.cases_tail h with h | ⟨w, -, b, -, hb⟩
  · exact hv h.symm
  · cases hb

theorem rel_of_pairwise {α : Type} {R : α → α → Prop} {l : List α} (h : l.Pairwise R) {a b : α}
    (hij : i < j) (hi : l[i]? = some a) (hj : l[j]? = some b) : R a b := by
  obtain ⟨hilt, rfl⟩ := List.getElem?_eq_some_iff.mp hi
  obtain ⟨hjlt, rfl⟩ := List.getElem?_eq_some_iff.mp hj
  exact List.pairwise_iff_getElem.mp h i j hilt hjlt hij

namespace SccOrder

theorem exists_index (h : SccOrder g sccs) (hv : g.Reaches none v) :
    ∃ (i : Nat) (scc : List (Option B)), sccs[i]? = some scc ∧ v ∈ scc := by
  obtain ⟨scc, hscc, hmem⟩ := List.mem_flatten.mp ((h.mem_iff v).mpr hv)
  obtain ⟨i, hi⟩ := List.mem_iff_getElem?.mp hscc
  exact ⟨i, scc, hi, hmem⟩

theorem reaches (h : SccOrder g sccs) (hi : sccs[i]? = some scc) (hv : v ∈ scc) :
    g.Reaches none v :=
  (h.mem_iff v).mp (List.mem_flatten.mpr ⟨scc, List.mem_of_getElem? hi, hv⟩)

/-- A node is in one component. -/
theorem index_eq (h : SccOrder g sccs) (hi : sccs[i]? = some scc) (hj : sccs[j]? = some scc')
    (hv : v ∈ scc) (hv' : v ∈ scc') : i = j := by
  have hdisj := (List.nodup_flatten.mp h.nodup).2
  rcases lt_trichotomy i j with hlt | rfl | hlt
  · exact absurd hv' (rel_of_pairwise hdisj hlt hi hj hv)
  · rfl
  · exact absurd hv (rel_of_pairwise hdisj hlt hj hi hv')

theorem le_of_edge (h : SccOrder g sccs) (hi : sccs[i]? = some scc) (hj : sccs[j]? = some scc')
    (hv : v ∈ scc) (hw : w ∈ scc') (hedge : g.Edge v w) : j ≤ i := by
  by_contra hlt
  exact rel_of_pairwise h.order (not_le.mp hlt) hi hj v hv w hw hedge

/-- What a component leads to came before it. -/
theorem le_of_reaches (h : SccOrder g sccs) (hi : sccs[i]? = some scc) (hj : sccs[j]? = some scc')
    (hv : v ∈ scc) (hw : w ∈ scc') (hreach : g.Reaches v w) : j ≤ i := by
  induction hreach using Relation.ReflTransGen.head_induction_on generalizing i scc with
  | refl => exact (h.index_eq hi hj hv hw).ge
  | head hedge _ ih =>
    obtain ⟨k, scc₁, hk, hmem⟩ := h.exists_index ((h.reaches hi hv).tail hedge)
    exact (ih hk hmem).trans (h.le_of_edge hi hk hv hmem hedge)

/-- The entry is a component of its own. -/
theorem none_notMem (h : SccOrder g sccs) (hi : sccs[i]? = some scc) (hv : v ∈ scc)
    (hne : v ≠ none) : none ∉ scc := fun hnone =>
  not_reaches_entry hne (h.connected scc (List.mem_of_getElem? hi) v hv none hnone)

/-- The components that the component at `i` leads to. -/
def Leads (g : InterProcCFG B) (sccs : List (List (Option B))) (i j : Nat) : Prop :=
  ∃ scc scc', sccs[i]? = some scc ∧ sccs[j]? = some scc' ∧ ∃ v ∈ scc, ∃ w ∈ scc', g.Reaches v w

/-- What a component leads to lies behind one of its edges. -/
theorem leads_iff (h : SccOrder g sccs) (hi : sccs[i]? = some scc) :
    j ≠ i ∧ Leads g sccs i j ↔
      ∃ v ∈ scc, ∃ w k scc', g.Edge v w ∧ w ∉ scc ∧ sccs[k]? = some scc' ∧ w ∈ scc' ∧
        (j = k ∨ j ≠ k ∧ Leads g sccs k j) := by
  constructor
  · rintro ⟨hne, scc₁, sccⱼ, hi₁, hj, v, hv, u, hu, hreach⟩
    obtain rfl := Option.some.inj (hi.symm.trans hi₁)
    -- The path goes on in the component, or leaves it.
    induction hreach using Relation.ReflTransGen.head_induction_on with
    | refl => exact absurd (h.index_eq hj hi hu hv) hne
    | @head v w hedge hrest ih =>
      by_cases hw : w ∈ scc
      · exact ih hw
      · obtain ⟨k, scc', hk, hmem⟩ := h.exists_index ((h.reaches hi hv).tail hedge)
        refine ⟨v, hv, w, k, scc', hedge, hw, hk, hmem, ?_⟩
        by_cases hjk : j = k
        · exact .inl hjk
        · exact .inr ⟨hjk, scc', sccⱼ, hk, hj, w, hmem, u, hu, hrest⟩
  · rintro ⟨v, hv, w, k, scc', hedge, hw, hk, hmem, hjk⟩
    have hki : k ≠ i := by
      rintro rfl
      obtain rfl := Option.some.inj (hk.symm.trans hi)
      exact hw hmem
    have hlt : k < i := lt_of_le_of_ne (h.le_of_edge hi hk hv hmem hedge) hki
    rcases hjk with rfl | ⟨-, scc₁, sccⱼ, hk₁, hj, x, hx, u, hu, hreach⟩
    · exact ⟨hki, scc, scc', hi, hk, v, hv, w, hmem, .single hedge⟩
    · obtain rfl := Option.some.inj (hk.symm.trans hk₁)
      have hwx := h.connected scc' (List.mem_of_getElem? hk) w hmem x hx
      exact ⟨((h.le_of_reaches hk hj hx hu hreach).trans_lt hlt).ne, scc, sccⱼ, hi, hj, v, hv, u,
        hu, .head hedge (hwx.trans hreach)⟩

end SccOrder

end Order

section FirstLoop

variable {B : Type} [DecidableEq B] {g : InterProcCFG B} {sccs : List (List (Option B))}
  {scc : List (Option B)} {v w : Option B} {c : Components B} {i j : Nat}

def ownStat (g : InterProcCFG B) (scc : List (Option B)) : BlockStat :=
  (scc.map fun v => v.elim 0 fun bb => .ofBlock (g.instructions bb)).sum

theorem mem_descend {edges : List B} {d : Finset Nat} : j ∈ descend c scc edges d ↔
    j ∈ d ∨ ∃ b ∈ edges, some b ∉ scc ∧
      (j = c.node_to_scc (some b) ∨ j ∈ c.scc_descs.getD (c.node_to_scc (some b)) ∅) := by
  rw [descend]
  induction edges generalizing d with
  | nil => simp
  | cons b edges ih =>
    rw [List.foldl_cons, ih]
    by_cases hb : some b ∈ scc
    · simp [hb]
    · simp only [hb, if_false, Finset.mem_union, Finset.mem_insert, List.exists_mem_cons_iff,
        not_false_eq_true, true_and]
      grind

/-- The loop over the nodes of a component of basic blocks. -/
theorem analyzeNodes_spec (g : InterProcCFG B) (hnone : none ∉ scc) {nodes : List (Option B)}
    (hsub : nodes ⊆ scc) (c : Components B) (d : Finset Nat) (s : BlockStat) :
    ∃ c' d' s', g.analyzeNodes scc i nodes c d s = (c', d', s') ∧
      c'.scc_descs = c.scc_descs ∧ c'.scc_stats = c.scc_stats ∧ s' = s + ownStat g nodes ∧
      (∀ v, c'.node_to_scc v = if v ∈ nodes then i else c.node_to_scc v) ∧
      ∀ j, j ∈ d' ↔ j ∈ d ∨ ∃ v ∈ nodes, ∃ b ∈ g.outEdges v, some b ∉ scc ∧
        (j = c.node_to_scc (some b) ∨ j ∈ c.scc_descs.getD (c.node_to_scc (some b)) ∅) := by
  induction nodes generalizing c d s with
  | nil => exact ⟨c, d, s, rfl, rfl, rfl, by simp [ownStat], by simp, by simp⟩
  | cons v rest ih =>
    cases v with
    | none => exact absurd (hsub List.mem_cons_self) hnone
    | some bb =>
      have hmem : some bb ∈ scc := hsub List.mem_cons_self
      obtain ⟨c', d', s', hrun, hdescs, hstats, hs, hidx, hd⟩ :=
        ih (fun v hv => hsub (List.mem_cons_of_mem _ hv))
          { c with node_to_scc := Function.update c.node_to_scc (some bb) i }
          (descend { c with node_to_scc := Function.update c.node_to_scc (some bb) i } scc
            (g.outEdges (some bb)) d) (s.analyze (g.instructions bb))
      refine ⟨c', d', s', hrun, hdescs, hstats, ?_, fun v => ?_, fun j => ?_⟩
      · rw [hs, BlockStat.analyze_eq, add_assoc, ownStat, ownStat, List.map_cons, List.sum_cons]
        rfl
      · rw [hidx]
        by_cases hv : v = some bb
        · simp [hv]
        · simp [hv]
      · -- Nodes of other components keep their index.
        have hkeep : ∀ b, some b ∉ scc →
            Function.update c.node_to_scc (some bb) i (some b) = c.node_to_scc (some b) :=
          fun b hb => Function.update_of_ne (fun h : some b = some bb => hb (h.symm ▸ hmem)) _ _
        rw [hd, mem_descend, List.exists_mem_cons_iff, or_assoc]
        refine or_congr Iff.rfl (or_congr ?_ ?_)
        · refine exists_congr fun b => and_congr_right fun _ => and_congr_right fun hb => ?_
          simp only [hkeep b hb]
        · refine exists_congr fun v => and_congr_right fun _ => exists_congr fun b =>
            and_congr_right fun _ => and_congr_right fun hb => ?_
          simp only [hkeep b hb]

structure Analyzed (g : InterProcCFG B) (sccs done : List (List (Option B))) (c : Components B) :
    Prop where
  length_descs : c.scc_descs.length = done.length
  length_stats : c.scc_stats.length = done.length
  node_to_scc : ∀ {i scc v}, done[i]? = some scc → v ∈ scc → c.node_to_scc v = i
  scc_stats : ∀ {i scc}, done[i]? = some scc → none ∉ scc → c.scc_stats.getD i 0 = ownStat g scc
  scc_descs : ∀ {i scc}, done[i]? = some scc → none ∉ scc →
    ∀ j, j ∈ c.scc_descs.getD i ∅ ↔ j ≠ i ∧ SccOrder.Leads g sccs i j

/-- The loop over the nodes of a component, which ends at the entry. -/
theorem exists_analyzeNodes (h : SccOrder g sccs) (hscc : sccs[i]? = some scc) (c : Components B) :
    ∃ c' d s, g.analyzeNodes scc i scc c ∅ 0 = (c', d, s) ∧
      c'.scc_descs = c.scc_descs ∧ c'.scc_stats = c.scc_stats ∧
      (∀ v, c'.node_to_scc v = if v ∈ scc then i else c.node_to_scc v) ∧
      (none ∉ scc → s = ownStat g scc ∧
        ∀ j, j ∈ d ↔ ∃ v ∈ scc, ∃ b ∈ g.outEdges v, some b ∉ scc ∧
          (j = c.node_to_scc (some b) ∨ j ∈ c.scc_descs.getD (c.node_to_scc (some b)) ∅)) := by
  by_cases hnone : none ∈ scc
  · have hall : ∀ v ∈ scc, v = none := fun v hv => by
      by_contra hne
      exact h.none_notMem hscc hv hne hnone
    cases scc with
    | nil => cases hnone
    | cons v rest =>
      obtain rfl := hall v List.mem_cons_self
      refine ⟨{ c with node_to_scc := Function.update c.node_to_scc none i }, _, _, rfl, rfl, rfl,
        fun v => ?_, fun h => absurd hnone h⟩
      by_cases hv : v = none
      · subst hv
        exact (Function.update_self none i c.node_to_scc).trans (if_pos List.mem_cons_self).symm
      · exact (Function.update_of_ne hv i c.node_to_scc).trans
          (if_neg fun hmem => hv (hall v hmem)).symm
  · obtain ⟨c', d, s, hrun, hdescs, hstats, hs, hidx, hd⟩ :=
      analyzeNodes_spec (i := i) g hnone (List.Subset.refl scc) c ∅ 0
    refine ⟨c', d, s, hrun, hdescs, hstats, hidx, fun _ => ⟨by rw [hs, zero_add], fun j => ?_⟩⟩
    rw [hd]
    simp

theorem getElem?_concat_eq_some {α : Type} {l : List α} {a b : α}
    (h : (l ++ [a])[i]? = some b) : i < l.length ∧ l[i]? = some b ∨ i = l.length ∧ a = b := by
  rcases lt_or_ge i l.length with hi | hi
  · rw [List.getElem?_append_left hi] at h
    exact .inl ⟨hi, h⟩
  · rw [List.getElem?_append_right hi, List.getElem?_singleton] at h
    obtain ⟨hi', hab⟩ := Option.ite_none_right_eq_some.mp h
    exact .inr ⟨by omega, Option.some.inj hab⟩

omit [DecidableEq B] in
theorem analyzed_nil : Analyzed g sccs [] ⟨fun _ => 0, [], []⟩ where
  length_descs := rfl
  length_stats := rfl
  node_to_scc hi := by cases hi
  scc_stats hi := by cases hi
  scc_descs hi := by cases hi

theorem Analyzed.step (h : SccOrder g sccs) {done rest : List (List (Option B))}
    (hc : Analyzed g sccs done c) (hsccs : sccs = done ++ scc :: rest) :
    Analyzed g sccs (done ++ [scc]) (g.analyzeScc c scc) := by
  have hlast : sccs[done.length]? = some scc := by
    rw [hsccs, List.getElem?_append_right le_rfl, Nat.sub_self]
    rfl
  have hdone {i : Nat} {scc' : List (Option B)} (hi : done[i]? = some scc') :
      sccs[i]? = some scc' := by
    rw [hsccs, List.getElem?_append_left (List.getElem?_eq_some_iff.mp hi).1, hi]
  obtain ⟨c', d, s, hrun, hdescs, hstats, hidx, hown⟩ := exists_analyzeNodes h hlast c
  have hstep : g.analyzeScc c scc = { c' with
      scc_descs := c'.scc_descs ++ [d], scc_stats := c'.scc_stats ++ [s] } := by
    rw [analyzeScc, hc.length_descs, hrun]
  rw [hstep]
  constructor
  · simp [hdescs, hc.length_descs]
  · simp [hstats, hc.length_stats]
  · intro i scc' v hi hv
    dsimp only
    rw [hidx]
    rcases getElem?_concat_eq_some hi with ⟨hlt, hi⟩ | ⟨rfl, rfl⟩
    · rw [if_neg fun hmem => hlt.ne (h.index_eq (hdone hi) hlast hv hmem)]
      exact hc.node_to_scc hi hv
    · exact if_pos hv
  · intro i scc' hi hnone
    dsimp only
    rw [hstats]
    rcases getElem?_concat_eq_some hi with ⟨hlt, hi⟩ | ⟨rfl, rfl⟩
    · rw [List.getD_append _ _ _ _ (hc.length_stats ▸ hlt)]
      exact hc.scc_stats hi hnone
    · rw [List.getD_append_right _ _ _ _ hc.length_stats.le, hc.length_stats, Nat.sub_self]
      exact (hown hnone).1
  · intro i scc' hi hnone j
    dsimp only
    rw [hdescs]
    rcases getElem?_concat_eq_some hi with ⟨hlt, hi⟩ | ⟨rfl, rfl⟩
    · rw [List.getD_append _ _ _ _ (hc.length_descs ▸ hlt)]
      exact hc.scc_descs hi hnone j
    · rw [List.getD_append_right _ _ _ _ hc.length_descs.le, hc.length_descs, Nat.sub_self,
        List.getD_cons_zero, (hown hnone).2, h.leads_iff hlast]
      -- The component behind an edge has been seen.
      have hbehind {v w : Option B} {k : Nat} {scc' : List (Option B)} (hv : v ∈ scc)
          (hedge : g.Edge v w) (hw : w ∉ scc) (hk : sccs[k]? = some scc') (hmem : w ∈ scc') :
          c.node_to_scc w = k ∧ (j ∈ c.scc_descs.getD k ∅ ↔ j ≠ k ∧ SccOrder.Leads g sccs k j) := by
        have hne : k ≠ done.length := by
          rintro rfl
          obtain rfl := Option.some.inj (hk.symm.trans hlast)
          exact hw hmem
        have hlt : k < done.length :=
          lt_of_le_of_ne (h.le_of_edge hlast hk hv hmem hedge) hne
        have hk' : done[k]? = some scc' := by
          rw [← hk, hsccs, List.getElem?_append_left hlt]
        obtain ⟨b, -, rfl⟩ := hedge
        have hnone' := h.none_notMem hk hmem (Option.some_ne_none b)
        exact ⟨hc.node_to_scc hk' hmem, hc.scc_descs hk' hnone' j⟩
      constructor
      · rintro ⟨v, hv, b, hb, hw, hj⟩
        have hedge : g.Edge v (some b) := ⟨b, hb, rfl⟩
        obtain ⟨k, scc', hk, hmem⟩ := h.exists_index ((h.reaches hlast hv).tail hedge)
        obtain ⟨hidx, hdesc⟩ := hbehind hv hedge hw hk hmem
        rw [hidx, hdesc] at hj
        exact ⟨v, hv, some b, k, scc', hedge, hw, hk, hmem, hj⟩
      · rintro ⟨v, hv, w, k, scc', hedge, hw, hk, hmem, hj⟩
        obtain ⟨hidx, hdesc⟩ := hbehind hv hedge hw hk hmem
        obtain ⟨b, hb, rfl⟩ := hedge
        exact ⟨v, hv, b, hb, hw, by rwa [hidx, hdesc]⟩

theorem Analyzed.run (h : SccOrder g sccs) {done rest : List (List (Option B))}
    (hc : Analyzed g sccs done c) (hsccs : sccs = done ++ rest) :
    Analyzed g sccs sccs (rest.foldl g.analyzeScc c) := by
  induction rest generalizing done c with
  | nil =>
    rw [List.append_nil] at hsccs
    exact hsccs ▸ hc
  | cons scc rest ih => exact ih (hc.step h hsccs) (by rw [hsccs, List.append_assoc]; rfl)

end FirstLoop

section SecondLoop

variable {B : Type} {g : InterProcCFG B} {sccs : List (List (Option B))}
  {scc : List (Option B)} {v : Option B} {i : Nat}

theorem foldl_add_eq_sum (s : BlockStat) (l : List Nat) (f : Nat → BlockStat) :
    l.foldl (fun s i => s + f i) s = s + (l.map f).sum := by
  induction l generalizing s with
  | nil => simp
  | cons i l ih => rw [List.foldl_cons, ih, List.map_cons, List.sum_cons, add_assoc]

theorem sccStat_eq (c : Components B) (i : Nat) : sccStat c i =
    c.scc_stats.getD i 0 + ∑ j ∈ c.scc_descs.getD i ∅, c.scc_stats.getD j 0 := by
  rw [sccStat, foldl_add_eq_sum, ← List.sum_toFinset _ (Finset.sort_nodup ..),
    Finset.sort_toFinset]

variable [DecidableEq B]

/-- A component's own statistics, as a sum over its basic blocks. -/
theorem ownStat_eq [Fintype B] (hnodup : scc.Nodup) : ownStat g scc =
    ∑ b : B with some b ∈ scc, BlockStat.ofBlock (g.instructions b) := by
  have hall : ∑ v ∈ scc.toFinset, v.elim 0 (fun b => BlockStat.ofBlock (g.instructions b)) =
      ownStat g scc := List.sum_toFinset _ hnodup
  rw [← hall]
  symm
  refine Finset.sum_of_injOn some (Option.some_injective B).injOn ?_ ?_ fun _ _ => rfl
  · intro b hb
    exact List.mem_toFinset.mpr (Finset.mem_filter.mp hb).2
  · intro v hv hnot
    cases v with
    | none => rfl
    | some b =>
      refine absurd ⟨b, ?_, rfl⟩ hnot
      simpa using hv

theorem foldl_setStat_of_notMem {f : Nat → BlockStat} {l : List (List (Option B))} {k : Nat}
    {stat : Option B → Option BlockStat} (hv : ∀ scc ∈ l, v ∉ scc) :
    (l.zipIdx k).foldl (fun stat (scc, j) => fun v => if v ∈ scc then some (f j) else stat v)
      stat v = stat v := by
  induction l generalizing k stat with
  | nil => rfl
  | cons scc l ih =>
    rw [List.zipIdx_cons, List.foldl_cons, ih fun scc' hmem => hv scc' (List.mem_cons_of_mem _ hmem)]
    exact if_neg (hv scc List.mem_cons_self)

/-- The loop over the components sets the statistics of a node at its own. -/
theorem foldl_setStat {f : Nat → BlockStat} {l : List (List (Option B))} {k : Nat}
    {stat : Option B → Option BlockStat} (hi : l[i]? = some scc) (hv : v ∈ scc)
    (honly : ∀ j scc', l[j]? = some scc' → v ∈ scc' → j = i) :
    (l.zipIdx k).foldl (fun stat (scc, j) => fun v => if v ∈ scc then some (f j) else stat v)
      stat v = some (f (k + i)) := by
  induction l generalizing k i stat with
  | nil => cases hi
  | cons scc₀ l ih =>
    rw [List.zipIdx_cons, List.foldl_cons]
    cases i with
    | zero =>
      obtain rfl := Option.some.inj hi
      rw [foldl_setStat_of_notMem]
      · exact if_pos hv
      · intro scc' hscc' hmem
        obtain ⟨j, hj⟩ := List.mem_iff_getElem?.mp hscc'
        exact absurd (honly (j + 1) scc' hj hmem) (Nat.succ_ne_zero j)
    | succ i =>
      rw [show k + (i + 1) = k + 1 + i by omega]
      exact ih hi fun j scc' hj hmem => Nat.succ_injective (honly (j + 1) scc' hj hmem)

theorem computeScoreSquare_eq (h : SccOrder g sccs) (hi : sccs[i]? = some scc) (hv : v ∈ scc) :
    g.computeScoreSquare sccs v =
      some (sccStat (sccs.foldl g.analyzeScc ⟨fun _ => 0, [], []⟩) i) := by
  rw [computeScoreSquare, ← Nat.zero_add i]
  exact foldl_setStat hi hv fun j scc' hj hv' => h.index_eq hj hi hv' hv

open Classical in
/-- Each basic block that is reached from the entry has the statistics of all basic blocks that it
leads to (those of its component and of those behind it), each counted once. -/
theorem computeScoreSquare_spec [Fintype B] (h : SccOrder g sccs) {bb : B}
    (hbb : g.Reaches none (some bb)) : g.computeScoreSquare sccs (some bb) =
      some (∑ b : B with g.Reaches (some bb) (some b), BlockStat.ofBlock (g.instructions b)) := by
  obtain ⟨i, scc, hi, hmem⟩ := h.exists_index hbb
  have hc := analyzed_nil.run (g := g) h (List.nil_append sccs).symm
  rw [computeScoreSquare_eq h hi hmem, sccStat_eq]
  generalize sccs.foldl g.analyzeScc ⟨fun _ => 0, [], []⟩ = c at hc
  have hnone := h.none_notMem hi hmem (Option.some_ne_none bb)
  have hdescs := hc.scc_descs hi hnone
  have hself : i ∉ c.scc_descs.getD i ∅ := fun hmem => ((hdescs i).mp hmem).1 rfl
  refine congrArg some
    ((Finset.sum_insert (f := fun j => c.scc_stats.getD j 0) hself).symm.trans ?_)
  -- The basic blocks are grouped by their components.
  have hmaps : ∀ b ∈ Finset.univ.filter fun b : B => g.Reaches (some bb) (some b),
      c.node_to_scc (some b) ∈ insert i (c.scc_descs.getD i ∅) := by
    intro b hb
    have hreach := (Finset.mem_filter.mp hb).2
    obtain ⟨j, scc', hj, hmem'⟩ := h.exists_index (hbb.trans hreach)
    rw [hc.node_to_scc hj hmem', Finset.mem_insert, hdescs]
    by_cases hji : j = i
    · exact .inl hji
    · exact .inr ⟨hji, scc, scc', hi, hj, some bb, hmem, some b, hmem', hreach⟩
  rw [← Finset.sum_fiberwise_of_maps_to hmaps]
  refine Finset.sum_congr rfl fun j hj => ?_
  obtain ⟨scc', hj', hto⟩ : ∃ scc', sccs[j]? = some scc' ∧
      ∀ v ∈ scc', g.Reaches (some bb) v := by
    rcases Finset.mem_insert.mp hj with rfl | hj
    · exact ⟨scc, hi, h.connected scc (List.mem_of_getElem? hi) (some bb) hmem⟩
    · obtain ⟨-, scc₁, scc', hi₁, hj', v, hv, w, hw, hreach⟩ := (hdescs j).mp hj
      obtain rfl := Option.some.inj (hi.symm.trans hi₁)
      refine ⟨scc', hj', fun u hu => ?_⟩
      have hbv := h.connected scc (List.mem_of_getElem? hi) (some bb) hmem v hv
      have hwu := h.connected scc' (List.mem_of_getElem? hj') w hw u hu
      exact hbv.trans (hreach.trans hwu)
  have hnone' : none ∉ scc' := fun hmem' =>
    not_reaches_entry (Option.some_ne_none bb) (hto none hmem')
  have hnodup' : scc'.Nodup := (List.nodup_flatten.mp h.nodup).1 scc' (List.mem_of_getElem? hj')
  rw [hc.scc_stats hj' hnone', ownStat_eq hnodup', Finset.filter_filter]
  refine Finset.sum_congr (Finset.filter_congr fun b _ => ?_) fun _ _ => rfl
  constructor
  · intro hb
    exact ⟨hto (some b) hb, hc.node_to_scc hj' hb⟩
  · rintro ⟨hreach, hidx⟩
    obtain ⟨k, scc₂, hk, hmem₂⟩ := h.exists_index (hbb.trans hreach)
    rw [hc.node_to_scc hk hmem₂] at hidx
    subst hidx
    obtain rfl := Option.some.inj (hk.symm.trans hj')
    exact hmem₂

def diamond : InterProcCFG (Fin 4) where
  instructions _ := [⟨none, some "__ubsan_handle_add_overflow"⟩]
  outEdges
    | none => [0]
    | some 0 => [1, 2]
    | some 1 => [3]
    | some 2 => [3]
    | some 3 => [3]

theorem sccOrder_diamond : SccOrder diamond [[some 3], [some 2], [some 1], [some 0], [none]] where
  nodup := by decide
  mem_iff v := by
    have h0 : diamond.Reaches none (some 0) := .single ⟨0, by decide, rfl⟩
    have h1 : diamond.Reaches none (some 1) := h0.tail ⟨1, by decide, rfl⟩
    have h2 : diamond.Reaches none (some 2) := h0.tail ⟨2, by decide, rfl⟩
    have h3 : diamond.Reaches none (some 3) := h1.tail ⟨3, by decide, rfl⟩
    refine iff_of_true (by revert v; decide) ?_
    match v with
    | none => exact .refl
    | some 0 => exact h0
    | some 1 => exact h1
    | some 2 => exact h2
    | some 3 => exact h3
  connected scc hscc v hv w hw := by
    have hone : ∀ scc ∈ [[some (3 : Fin 4)], [some 2], [some 1], [some 0], [none]],
        ∀ v ∈ scc, ∀ w ∈ scc, v = w := by decide
    rw [hone scc hscc v hv w hw]
    exact .refl
  order := by
    simp only [Edge]
    decide

open Classical in
theorem computeScoreSquare_diamond :
    diamond.computeScoreSquare [[some 3], [some 2], [some 1], [some 0], [none]] (some 0) =
      some (∑ b : Fin 4 with diamond.Reaches (some 0) (some b),
        BlockStat.ofBlock (diamond.instructions b)) :=
  computeScoreSquare_spec sccOrder_diamond (.single ⟨0, by decide, rfl⟩)

end SecondLoop

end InterProcCFG

end Klee
