import Klee.Core.PTreeHeap
import Klee.Lib.Fuel

/-! The leaves of the process tree are the live states, every node above them leads to one, and a
random path ends at one. -/
namespace Klee

def PTreeNode.Childless (c : PTreeNode) : Prop := c.left = none ∧ c.right = none

def PTreeNode.HasChild (c : PTreeNode) (m : PTreeRef) : Prop := c.left = some m ∨ c.right = some m

namespace PTreeHeap

structure Linked (h : PTreeHeap) : Prop where
  lt_next : ∀ {n c}, h.nodes n = some c → n < h.next
  root : ∃ c, h.nodes h.root = some c
  parent_eq_none : ∀ {n c}, h.nodes n = some c → (c.parent = none ↔ n = h.root)
  parent : ∀ {n c p}, h.nodes n = some c → c.parent = some p →
    ∃ pc, h.nodes p = some pc ∧ pc.HasChild n
  child : ∀ {n c m}, h.nodes n = some c → c.HasChild m →
    n < m ∧ ∃ d, h.nodes m = some d ∧ d.parent = some n
  apart : ∀ {n c m}, h.nodes n = some c → c.left = some m → c.right ≠ some m

/-- The links between nodes and states, where the node `x` is about to be deleted. -/
structure Carried (h : PTreeHeap) (live : Finset StateId) (x : Option PTreeRef) : Prop where
  state : ∀ {n c s}, h.nodes n = some c → some n ≠ x → c.state = some s →
    c.Childless ∧ s ∈ live ∧ h.ptreeNode s = some n
  inner : ∀ {n c}, h.nodes n = some c → some n ≠ x → c.state = none → c.Childless → n = h.root
  live : ∀ {s}, s ∈ live → ∃ n c, h.nodes n = some c ∧ some n ≠ x ∧ c.state = some s

section Attach

/-- What `attach` makes of the node `n`. -/
structure Attached (h : PTreeHeap) (n : PTreeRef) (c : PTreeNode) (l r : StateId) (h' : PTreeHeap) :
    Prop where
  root : h'.root = h.root
  next : h'.next = h.next + 2
  ptreeNode : h'.ptreeNode =
    Function.update (Function.update h.ptreeNode l (some h.next)) r (some (h.next + 1))
  node : h'.nodes n =
    some { c with state := none, left := some h.next, right := some (h.next + 1) }
  left : h'.nodes h.next = some ⟨some n, none, none, some l⟩
  right : h'.nodes (h.next + 1) = some ⟨some n, none, none, some r⟩
  rest : ∀ {m}, m ≠ n → m ≠ h.next → m ≠ h.next + 1 → h'.nodes m = h.nodes m

variable {h h' : PTreeHeap} {n : PTreeRef} {c : PTreeNode} {l r s : StateId} {live : Finset StateId}

theorem exists_attach (hc : h.nodes n = some c) (hn : n < h.next) (hchild : c.Childless)
    (l r : StateId) : ∃ h', h.attach n l r = some h' ∧ Attached h n c l r h' := by
  have h1 : n ≠ h.next := by grind
  have h2 : n ≠ h.next + 1 := by grind
  simp only [attach, hc, build, set, setPtreeNode, Option.bind_eq_bind, Option.bind_some,
    guard, hchild.1, hchild.2, and_self, if_true, Function.update_self,
    Function.update_of_ne h1, Function.update_of_ne h2]
  refine ⟨_, rfl, rfl, rfl, rfl, ?_, ?_, ?_, ?_⟩
  · simp
  · simp [h1.symm]
  · simp [h2.symm]
  · intro m hm hm1 hm2
    simp [hm, hm1, hm2]

/-- Each node afterwards is the forked one, one of its children, or one from before. -/
theorem Attached.cases (ha : Attached h n c l r h') {m : PTreeRef} {d : PTreeNode}
    (hd : h'.nodes m = some d) :
    (m = n ∧ d = { c with state := none, left := some h.next, right := some (h.next + 1) }) ∨
    (m = h.next ∧ d = ⟨some n, none, none, some l⟩) ∨
    (m = h.next + 1 ∧ d = ⟨some n, none, none, some r⟩) ∨ (m ≠ n ∧ h.nodes m = some d) := by
  by_cases hm : m = n
  · subst hm
    exact .inl ⟨rfl, Option.some.inj (hd.symm.trans ha.node)⟩
  by_cases hm1 : m = h.next
  · subst hm1
    exact .inr (.inl ⟨rfl, Option.some.inj (hd.symm.trans ha.left)⟩)
  by_cases hm2 : m = h.next + 1
  · subst hm2
    exact .inr (.inr (.inl ⟨rfl, Option.some.inj (hd.symm.trans ha.right)⟩))
  · exact .inr (.inr (.inr ⟨hm, (ha.rest hm hm1 hm2).symm.trans hd⟩))

/-- A node from before is still there, with its parent. -/
theorem Attached.exists_node (ha : Attached h n c l r h') (hl : Linked h) (hc : h.nodes n = some c)
    {m : PTreeRef} {d : PTreeNode} (hd : h.nodes m = some d) :
    ∃ d', h'.nodes m = some d' ∧ d'.parent = d.parent := by
  by_cases hm : m = n
  · subst hm
    obtain rfl := Option.some.inj (hc.symm.trans hd)
    exact ⟨_, ha.node, rfl⟩
  · have hlt := hl.lt_next hd
    exact ⟨d, (ha.rest hm (by grind) (by grind)).trans hd, rfl⟩

theorem Childless.not_hasChild (hchild : c.Childless) {m : PTreeRef} : ¬ c.HasChild m := by
  rintro (h | h)
  · rw [hchild.1] at h
    cases h
  · rw [hchild.2] at h
    cases h

theorem Attached.linked (ha : Attached h n c l r h') (hl : Linked h) (hc : h.nodes n = some c)
    (hchild : c.Childless) : Linked h' := by
  have hn := hl.lt_next hc
  obtain ⟨e, he⟩ := hl.root
  have hroot := hl.lt_next he
  constructor
  · intro m d hd
    rw [ha.next]
    rcases ha.cases hd with ⟨rfl, -⟩ | ⟨rfl, -⟩ | ⟨rfl, -⟩ | ⟨-, hd⟩
    · grind
    · grind
    · grind
    · exact (hl.lt_next hd).trans (by grind)
  · obtain ⟨d', hd', -⟩ := ha.exists_node hl hc he
    exact ⟨d', ha.root.symm ▸ hd'⟩
  · intro m d hd
    rw [ha.root]
    rcases ha.cases hd with ⟨rfl, rfl⟩ | ⟨rfl, rfl⟩ | ⟨rfl, rfl⟩ | ⟨-, hd⟩
    · exact hl.parent_eq_none (c := c) hc
    · exact iff_of_false (Option.some_ne_none _) hroot.ne'
    · exact iff_of_false (Option.some_ne_none _) (hroot.trans (Nat.lt_succ_self _)).ne'
    · exact hl.parent_eq_none hd
  · intro m d p hd hp
    -- A node with a parent from before.
    have hold : ∀ {m d}, h.nodes m = some d → d.parent = some p →
        ∃ pc, h'.nodes p = some pc ∧ pc.HasChild m := by
      intro m d hd hp
      obtain ⟨pc, hpc, hm⟩ := hl.parent hd hp
      have hpn : p ≠ n := by
        rintro rfl
        obtain rfl := Option.some.inj (hc.symm.trans hpc)
        exact Childless.not_hasChild hchild hm
      have hlt := hl.lt_next hpc
      exact ⟨pc, (ha.rest hpn hlt.ne (hlt.trans (Nat.lt_succ_self _)).ne).trans hpc, hm⟩
    rcases ha.cases hd with ⟨rfl, rfl⟩ | ⟨rfl, rfl⟩ | ⟨rfl, rfl⟩ | ⟨-, hd⟩
    · exact hold hc hp
    · obtain rfl := Option.some.inj hp
      exact ⟨_, ha.node, .inl rfl⟩
    · obtain rfl := Option.some.inj hp
      exact ⟨_, ha.node, .inr rfl⟩
    · exact hold hd hp
  · intro m d k hd hk
    rcases ha.cases hd with ⟨rfl, rfl⟩ | ⟨rfl, rfl⟩ | ⟨rfl, rfl⟩ | ⟨-, hd⟩
    · rcases hk with hk | hk
      · obtain rfl := Option.some.inj hk
        exact ⟨hn, _, ha.left, rfl⟩
      · obtain rfl := Option.some.inj hk
        exact ⟨hn.trans (Nat.lt_succ_self _), _, ha.right, rfl⟩
    · exact absurd hk (Childless.not_hasChild ⟨rfl, rfl⟩)
    · exact absurd hk (Childless.not_hasChild ⟨rfl, rfl⟩)
    · obtain ⟨hlt, e, he, hparent⟩ := hl.child hd hk
      obtain ⟨e', he', hsame⟩ := ha.exists_node hl hc he
      exact ⟨hlt, e', he', hsame.trans hparent⟩
  · intro m d k hd hk
    rcases ha.cases hd with ⟨rfl, rfl⟩ | ⟨rfl, rfl⟩ | ⟨rfl, rfl⟩ | ⟨-, hd⟩
    · obtain rfl := Option.some.inj hk
      exact fun hk' => (Nat.lt_succ_self _).ne' (Option.some.inj hk')
    · cases hk
    · cases hk
    · exact hl.apart hd hk

/-- The copy goes to one of the new leaves, and the state that forked to the other. -/
theorem Attached.carried (ha : Attached h n c l r h') (hl : Linked h) (hcar : Carried h live none)
    (hc : h.nodes n = some c) {copy : StateId} (hs : c.state = some s) (hcopy : copy ∉ live)
    (hlr : l = s ∧ r = copy ∨ l = copy ∧ r = s) : Carried h' (insert copy live) none := by
  obtain ⟨hchild, hmem, hptr⟩ := hcar.state hc (Option.some_ne_none n) hs
  have hne : l ≠ r := by
    rcases hlr with ⟨rfl, rfl⟩ | ⟨rfl, rfl⟩
    · exact fun h => hcopy (h ▸ hmem)
    · exact fun h => hcopy (h ▸ hmem)
  have hlive : ∀ {a}, a ∈ insert copy live ↔ a = l ∨ a = r ∨ a ∈ live.erase s := by
    intro a
    rw [Finset.mem_insert, Finset.mem_erase]
    rcases hlr with ⟨rfl, rfl⟩ | ⟨rfl, rfl⟩ <;> grind
  constructor
  · intro m d a hd _ hda
    rw [hlive, ha.ptreeNode]
    rcases ha.cases hd with ⟨rfl, rfl⟩ | ⟨rfl, rfl⟩ | ⟨rfl, rfl⟩ | ⟨hm, hd⟩
    · cases hda
    · obtain rfl := Option.some.inj hda
      exact ⟨⟨rfl, rfl⟩, .inl rfl, by rw [Function.update_of_ne hne, Function.update_self]⟩
    · obtain rfl := Option.some.inj hda
      exact ⟨⟨rfl, rfl⟩, .inr (.inl rfl), Function.update_self _ _ _⟩
    · obtain ⟨hchild', hmem', hptr'⟩ := hcar.state hd (Option.some_ne_none m) hda
      have has : a ≠ s := by
        rintro rfl
        exact hm (Option.some.inj (hptr'.symm.trans hptr))
      have hac : a ≠ copy := fun h => hcopy (h ▸ hmem')
      refine ⟨hchild', .inr (.inr (Finset.mem_erase.mpr ⟨has, hmem'⟩)), ?_⟩
      rw [Function.update_of_ne, Function.update_of_ne, hptr']
      · rcases hlr with ⟨rfl, rfl⟩ | ⟨rfl, rfl⟩ <;> assumption
      · rcases hlr with ⟨rfl, rfl⟩ | ⟨rfl, rfl⟩ <;> assumption
  · intro m d hd _ hda hchild'
    rw [ha.root]
    rcases ha.cases hd with ⟨rfl, rfl⟩ | ⟨rfl, rfl⟩ | ⟨rfl, rfl⟩ | ⟨-, hd⟩
    · cases hchild'.1
    · cases hda
    · cases hda
    · exact hcar.inner hd (Option.some_ne_none m) hda hchild'
  · intro a hmem'
    rcases hlive.mp hmem' with rfl | rfl | hold
    · exact ⟨_, _, ha.left, Option.some_ne_none _, rfl⟩
    · exact ⟨_, _, ha.right, Option.some_ne_none _, rfl⟩
    · obtain ⟨has, hold⟩ := Finset.mem_erase.mp hold
      obtain ⟨m, d, hd, -, hda⟩ := hcar.live hold
      have hlt := hl.lt_next hd
      refine ⟨m, d, (ha.rest ?_ hlt.ne (hlt.trans (Nat.lt_succ_self _)).ne).trans hd,
        Option.some_ne_none _, hda⟩
      rintro rfl
      obtain rfl := Option.some.inj (hc.symm.trans hd)
      exact has (Option.some.inj (hda.symm.trans hs))

end Attach

section Remove

/-- The node `n` is gone, and its parent `p` has become `pc'`. -/
structure Unlinked (h : PTreeHeap) (n p : PTreeRef) (pc pc' : PTreeNode) (h' : PTreeHeap) :
    Prop where
  root : h'.root = h.root
  next : h'.next = h.next
  ptreeNode : h'.ptreeNode = h.ptreeNode
  node : h'.nodes n = none
  above : h'.nodes p = some pc'
  rest : ∀ {m}, m ≠ n → m ≠ p → h'.nodes m = h.nodes m
  parent : pc'.parent = pc.parent
  state : pc'.state = pc.state
  hasChild : ∀ {m}, pc'.HasChild m ↔ pc.HasChild m ∧ m ≠ n
  apart : ∀ {m}, pc'.left = some m → pc'.right ≠ some m

variable {h h' : PTreeHeap} {n p : PTreeRef} {c pc pc' : PTreeNode} {s : StateId}
  {live : Finset StateId}

theorem exists_unlinked (hl : Linked h) (hc : h.nodes n = some c) (hp : c.parent = some p)
    (fuel : Nat) : ∃ pc pc' h', h.nodes p = some pc ∧ pc.HasChild n ∧ Unlinked h n p pc pc' h' ∧
      (pc'.Childless ∧ removeFrom (fuel + 1) h n = removeFrom fuel h' p ∨
        ¬ pc'.Childless ∧ removeFrom (fuel + 1) h n = some h') := by
  obtain ⟨pc, hpc, hchild⟩ := hl.parent hc hp
  have hne : n ≠ p := (hl.child hpc hchild).1.ne'
  have hunlinked {pc' : PTreeNode} (hparent : pc'.parent = pc.parent) (hstate : pc'.state = pc.state)
      (hhas : ∀ {m}, pc'.HasChild m ↔ pc.HasChild m ∧ m ≠ n)
      (hapart : ∀ {m}, pc'.left = some m → pc'.right ≠ some m) :
      Unlinked h n p pc pc' ((h.set p pc').delete n) := by
    refine ⟨rfl, rfl, rfl, Function.update_self _ _ _, ?_, ?_, hparent, hstate, hhas, hapart⟩
    · exact (Function.update_of_ne hne.symm _ _).trans (Function.update_self _ _ _)
    · intro m hm hmp
      exact (Function.update_of_ne hm _ _).trans (Function.update_of_ne hmp _ _)
  by_cases hleft : pc.left = some n
  · refine ⟨pc, { pc with left := none }, _, hpc, hchild, hunlinked rfl rfl ?_ ?_, ?_⟩
    · intro m
      have := hl.apart hpc hleft
      simp only [PTreeNode.HasChild, hleft]
      grind
    · intro m hm
      cases hm
    · rw [removeFrom]
      simp only [hc, hp, hpc, hleft, Option.bind_eq_bind, Option.bind_some, if_true]
      by_cases hright : pc.right = none
      · exact .inl ⟨⟨rfl, hright⟩, if_pos hright⟩
      · exact .inr ⟨fun h => hright h.2, if_neg hright⟩
  · have hright : pc.right = some n := hchild.resolve_left hleft
    refine ⟨pc, { pc with right := none }, _, hpc, hchild, hunlinked rfl rfl ?_ ?_, ?_⟩
    · intro m
      simp only [PTreeNode.HasChild, hright]
      grind
    · intro m _ hm
      cases hm
    · rw [removeFrom]
      simp only [hc, hp, hpc, hleft, hright, Option.bind_eq_bind, Option.bind_some, if_true,
        if_false]
      by_cases hleft : pc.left = none
      · exact .inl ⟨⟨hleft, rfl⟩, if_pos hleft⟩
      · exact .inr ⟨fun h => hleft h.1, if_neg hleft⟩

/-- Each node afterwards is the parent or one from before. -/
theorem Unlinked.cases (hu : Unlinked h n p pc pc' h') {m : PTreeRef} {d : PTreeNode}
    (hd : h'.nodes m = some d) : m ≠ n ∧ (m = p ∧ d = pc' ∨ m ≠ p ∧ h.nodes m = some d) := by
  have hm : m ≠ n := by
    rintro rfl
    cases hu.node.symm.trans hd
  by_cases hmp : m = p
  · subst hmp
    exact ⟨hm, .inl ⟨rfl, Option.some.inj (hd.symm.trans hu.above)⟩⟩
  · exact ⟨hm, .inr ⟨hmp, (hu.rest hm hmp).symm.trans hd⟩⟩

/-- A node from before, with the children that are left. -/
theorem Unlinked.exists_node (hu : Unlinked h n p pc pc' h') (hl : Linked h)
    (hc : h.nodes n = some c) (hp : c.parent = some p) (hpc : h.nodes p = some pc)
    {m : PTreeRef} {d : PTreeNode} (hm : m ≠ n) (hd : h.nodes m = some d) :
    ∃ d', h'.nodes m = some d' ∧ d'.parent = d.parent ∧ d'.state = d.state ∧
      ∀ {k}, d'.HasChild k ↔ d.HasChild k ∧ k ≠ n := by
  by_cases hmp : m = p
  · subst hmp
    obtain rfl := Option.some.inj (hpc.symm.trans hd)
    exact ⟨pc', hu.above, hu.parent, hu.state, hu.hasChild⟩
  · refine ⟨d, (hu.rest hm hmp).trans hd, rfl, rfl, fun {k} => ⟨fun hk => ⟨hk, ?_⟩, And.left⟩⟩
    rintro rfl
    obtain ⟨-, e, he, hparent⟩ := hl.child hd hk
    obtain rfl := Option.some.inj (hc.symm.trans he)
    exact hmp (Option.some.inj (hparent.symm.trans hp))

theorem Unlinked.exists_old (hu : Unlinked h n p pc pc' h') (hl : Linked h)
    (hc : h.nodes n = some c) (hp : c.parent = some p) (hpc : h.nodes p = some pc)
    {m : PTreeRef} {d : PTreeNode} (hd : h'.nodes m = some d) :
    m ≠ n ∧ ∃ e, h.nodes m = some e ∧ d.parent = e.parent ∧ d.state = e.state ∧
      ∀ {k}, d.HasChild k ↔ e.HasChild k ∧ k ≠ n := by
  obtain ⟨hmn, hcases⟩ := hu.cases hd
  obtain ⟨e, he⟩ : ∃ e, h.nodes m = some e := by
    rcases hcases with ⟨rfl, -⟩ | ⟨-, hd⟩
    · exact ⟨pc, hpc⟩
    · exact ⟨d, hd⟩
  obtain ⟨d', hd', hsame⟩ := hu.exists_node hl hc hp hpc hmn he
  obtain rfl := Option.some.inj (hd.symm.trans hd')
  exact ⟨hmn, e, he, hsame⟩

theorem Unlinked.linked (hu : Unlinked h n p pc pc' h') (hl : Linked h) (hc : h.nodes n = some c)
    (hp : c.parent = some p) (hpc : h.nodes p = some pc) (hchild : c.Childless) : Linked h' := by
  constructor
  · intro m d hd
    obtain ⟨-, e, he, -⟩ := hu.exists_old hl hc hp hpc hd
    exact hu.next.symm ▸ hl.lt_next he
  · obtain ⟨d, hd⟩ := hl.root
    have hne : h.root ≠ n := by
      rintro rfl
      rw [(hl.parent_eq_none hc).mpr rfl] at hp
      cases hp
    obtain ⟨d', hd', -⟩ := hu.exists_node hl hc hp hpc hne hd
    exact ⟨d', hu.root.symm ▸ hd'⟩
  · intro m d hd
    obtain ⟨-, e, he, hparent, -⟩ := hu.exists_old hl hc hp hpc hd
    rw [hu.root, hparent]
    exact hl.parent_eq_none he
  · intro m d q hd hq
    obtain ⟨hmn, e, he, hparent, -⟩ := hu.exists_old hl hc hp hpc hd
    obtain ⟨qc, hqc, hm⟩ := hl.parent he (hparent.symm.trans hq)
    have hqn : q ≠ n := by
      rintro rfl
      obtain rfl := Option.some.inj (hc.symm.trans hqc)
      exact Childless.not_hasChild hchild hm
    obtain ⟨qc', hqc', -, -, hhas⟩ := hu.exists_node hl hc hp hpc hqn hqc
    exact ⟨qc', hqc', hhas.mpr ⟨hm, hmn⟩⟩
  · intro m d k hd hk
    obtain ⟨-, e, he, -, -, hhas⟩ := hu.exists_old hl hc hp hpc hd
    obtain ⟨hek, hkn⟩ := hhas.mp hk
    obtain ⟨hlt, f, hf, hparent⟩ := hl.child he hek
    obtain ⟨f', hf', hsame, -⟩ := hu.exists_node hl hc hp hpc hkn hf
    exact ⟨hlt, f', hf', hsame.trans hparent⟩
  · intro m d k hd
    rcases (hu.cases hd).2 with ⟨rfl, rfl⟩ | ⟨-, hd⟩
    · exact hu.apart
    · exact hl.apart hd

/-- The loop goes on at `p` when that has no child left. -/
theorem Unlinked.carried (hu : Unlinked h n p pc pc' h') (hcar : Carried h live (some n))
    (hpc : h.nodes p = some pc) (hchild : pc.HasChild n) (hne : p ≠ n) :
    Carried h' live (some p) ∧ pc'.state = none := by
  have hnp : some p ≠ some n := fun h => hne (Option.some.inj h)
  have hnone : pc.state = none := by
    cases hs : pc.state with
    | none => rfl
    | some s => exact absurd hchild (Childless.not_hasChild (hcar.state hpc hnp hs).1)
  refine ⟨⟨?_, ?_, ?_⟩, hu.state.trans hnone⟩
  · intro m d s hd hm hs
    obtain ⟨hmn, ⟨rfl, -⟩ | ⟨-, hold⟩⟩ := hu.cases hd
    · exact absurd rfl hm
    · rw [hu.ptreeNode]
      exact hcar.state hold (fun h => hmn (Option.some.inj h)) hs
  · intro m d hd hm hs hd'
    obtain ⟨hmn, ⟨rfl, -⟩ | ⟨-, hold⟩⟩ := hu.cases hd
    · exact absurd rfl hm
    · rw [hu.root]
      exact hcar.inner hold (fun h => hmn (Option.some.inj h)) hs hd'
  · intro s hs
    obtain ⟨m, d, hd, hm, hds⟩ := hcar.live hs
    have hmp : m ≠ p := by
      rintro rfl
      obtain rfl := Option.some.inj (hpc.symm.trans hd)
      rw [hnone] at hds
      cases hds
    exact ⟨m, d, (hu.rest (fun h => hm (congrArg some h)) hmp).trans hd,
      fun h => hmp (Option.some.inj h), hds⟩

theorem Carried.keep (hcar : Carried h live (some n)) (hc : h.nodes n = some c)
    (hs : c.state = none) (hroot : c.Childless → n = h.root) : Carried h live none where
  state {m d s} hd _ hds := by
    refine hcar.state hd ?_ hds
    rintro ⟨⟩
    obtain rfl := Option.some.inj (hc.symm.trans hd)
    rw [hs] at hds
    cases hds
  inner {m d} hd _ hds hchild := by
    by_cases hm : m = n
    · subst hm
      obtain rfl := Option.some.inj (hc.symm.trans hd)
      exact hroot hchild
    · exact hcar.inner hd (fun h => hm (Option.some.inj h)) hds hchild
  live hs := by
    obtain ⟨m, d, hd, -, hds⟩ := hcar.live hs
    exact ⟨m, d, hd, Option.some_ne_none m, hds⟩

/-- The loop ends, at a node with another child or at the root. -/
theorem exists_removeFrom {fuel : Nat} (hl : Linked h) (hcar : Carried h live (some n))
    (hc : h.nodes n = some c) (hchild : c.Childless) (hroot : n = h.root → c.state = none)
    (hfuel : n < fuel) : ∃ h', removeFrom fuel h n = some h' ∧ Linked h' ∧ Carried h' live none ∧
      h'.root = h.root ∧ h'.ptreeNode = h.ptreeNode ∧
      ∀ {m d'}, h'.nodes m = some d' → ∃ d, h.nodes m = some d ∧ d'.state = d.state := by
  induction fuel generalizing h n c with
  | zero => exact absurd hfuel (Nat.not_lt_zero n)
  | succ fuel ih =>
    cases hp : c.parent with
    | none =>
      have hn := (hl.parent_eq_none hc).mp hp
      refine ⟨h, ?_, hl, hcar.keep hc (hroot hn) fun _ => hn, rfl, rfl, fun hd => ⟨_, hd, rfl⟩⟩
      rw [removeFrom]
      simp only [hc, hp, Option.bind_eq_bind, Option.bind_some]
    | some p =>
      obtain ⟨pc, pc', h', hpc, hhas, hu, hrun⟩ := exists_unlinked hl hc hp fuel
      have hlt := (hl.child hpc hhas).1
      have hl' := hu.linked hl hc hp hpc hchild
      obtain ⟨hcar', hstate⟩ := hu.carried hcar hpc hhas hlt.ne
      rcases hrun with ⟨hchild', hrun⟩ | ⟨hchild', hrun⟩
      · obtain ⟨h'', hrun', hl'', hcar'', hroot'', hptr, hold⟩ :=
          ih hl' hcar' hu.above hchild' (fun _ => hstate) (by grind)
        refine ⟨h'', hrun.trans hrun', hl'', hcar'', hroot''.trans hu.root,
          hptr.trans hu.ptreeNode, fun hd => ?_⟩
        obtain ⟨d', hd', hsame⟩ := hold hd
        obtain ⟨-, e, he, -, hsame', -⟩ := hu.exists_old hl hc hp hpc hd'
        exact ⟨e, he, hsame.trans hsame'⟩
      · refine ⟨h', hrun, hl', hcar'.keep hu.above hstate fun h => absurd h hchild', hu.root,
          hu.ptreeNode, fun hd => ?_⟩
        obtain ⟨-, e, he, -, hsame, -⟩ := hu.exists_old hl hc hp hpc hd
        exact ⟨e, he, hsame⟩

end Remove

section Paths

variable {h : PTreeHeap} {n m : PTreeRef} {c : PTreeNode} {s : StateId} {live : Finset StateId}

inductive Carries (h : PTreeHeap) : PTreeRef → StateId → Prop
  | self {n : PTreeRef} {c : PTreeNode} {s : StateId} :
    h.nodes n = some c → c.state = some s → Carries h n s
  | child {n m : PTreeRef} {c : PTreeNode} {s : StateId} :
    h.nodes n = some c → c.HasChild m → Carries h m s → Carries h n s

/-- Some node is below the root, where there is another one. -/
theorem Linked.exists_child (hl : Linked h) (hc : h.nodes n = some c) (hn : n ≠ h.root) :
    ∃ rc m, h.nodes h.root = some rc ∧ rc.HasChild m := by
  induction n using Nat.strong_induction_on generalizing c with
  | _ n ih =>
    cases hp : c.parent with
    | none => exact absurd ((hl.parent_eq_none hc).mp hp) hn
    | some p =>
      obtain ⟨pc, hpc, hchild⟩ := hl.parent hc hp
      by_cases hroot : p = h.root
      · exact ⟨pc, n, hroot ▸ hpc, hchild⟩
      · exact ih p (hl.child hpc hchild).1 hpc hroot

/-- A node without a state has a child. -/
theorem Carried.exists_child (hcar : Carried h live none) (hl : Linked h)
    (hc : h.nodes n = some c) (hs : c.state = none) (hlive : n = h.root → live.Nonempty) :
    ∃ m, c.HasChild m := by
  by_contra hnone
  have hchild : c.Childless :=
    ⟨Option.eq_none_iff_forall_ne_some.mpr fun m hm => hnone ⟨m, .inl hm⟩,
      Option.eq_none_iff_forall_ne_some.mpr fun m hm => hnone ⟨m, .inr hm⟩⟩
  have hroot := hcar.inner hc (Option.some_ne_none n) hs hchild
  obtain ⟨s, hmem⟩ := hlive hroot
  obtain ⟨m, d, hd, -, hds⟩ := hcar.live hmem
  have hm : m ≠ h.root := by
    rintro rfl
    subst hroot
    obtain rfl := Option.some.inj (hc.symm.trans hd)
    rw [hs] at hds
    cases hds
  obtain ⟨rc, k, hrc, hk⟩ := hl.exists_child hd hm
  subst hroot
  obtain rfl := Option.some.inj (hc.symm.trans hrc)
  exact Childless.not_hasChild hchild hk

theorem Carried.child_ne_root (hl : Linked h) (hc : h.nodes n = some c) (hm : c.HasChild m) :
    m ≠ h.root := by
  obtain ⟨-, d, hd, hparent⟩ := hl.child hc hm
  intro hroot
  rw [(hl.parent_eq_none hd).mpr hroot] at hparent
  cases hparent

/-- Every node leads to a live state. -/
theorem Carried.carries (hcar : Carried h live none) (hl : Linked h) (hc : h.nodes n = some c)
    (hlive : n = h.root → live.Nonempty) : ∃ s ∈ live, Carries h n s := by
  induction hk : h.next - n using Nat.strong_induction_on generalizing n c with
  | _ k ih =>
    cases hs : c.state with
    | some s => exact ⟨s, (hcar.state hc (Option.some_ne_none n) hs).2.1, .self hc hs⟩
    | none =>
      obtain ⟨m, hm⟩ := hcar.exists_child hl hc hs hlive
      obtain ⟨hlt, d, hd, -⟩ := hl.child hc hm
      have hnext := hl.lt_next hd
      obtain ⟨s, hmem, hcarries⟩ := ih (h.next - m) (by grind) hd
        (fun hroot => absurd hroot (Carried.child_ne_root hl hc hm)) rfl
      exact ⟨s, hmem, .child hc hm hcarries⟩

/-- The walk down ends at a live state, whatever the bits, in no more steps than there are nodes
further on. -/
theorem Carried.selectFrom_of_le (hcar : Carried h live none) (hl : Linked h)
    (getInt32 : Nat → BitVec 32) (f : Flips) (hc : h.nodes n = some c)
    (hlive : n = h.root → live.Nonempty) :
    ∃ s ∈ live, ∀ fuel, h.next - n ≤ fuel → h.selectFrom getInt32 fuel f (some n) = some s := by
  induction hk : h.next - n using Nat.strong_induction_on generalizing n c f with
  | _ k ih =>
    have hpos : 0 < k := hk ▸ Nat.sub_pos_of_lt (hl.lt_next hc)
    have hdown (f : Flips) {m : PTreeRef} (hm : c.HasChild m) :
        ∃ s ∈ live, ∀ fuel, k ≤ fuel + 1 → h.selectFrom getInt32 fuel f (some m) = some s := by
      obtain ⟨hlt, d, hd, -⟩ := hl.child hc hm
      have hnext := hl.lt_next hd
      obtain ⟨s, hmem, hs⟩ := ih (h.next - m) (by grind) f hd
        (fun hroot => absurd hroot (Carried.child_ne_root hl hc hm)) rfl
      exact ⟨s, hmem, fun fuel hfuel => hs fuel (by grind)⟩
    have hsucc {s : StateId} (hs : ∀ fuel, k ≤ fuel + 1 →
        h.selectFrom getInt32 (fuel + 1) f (some n) = some s) (fuel : Nat) (hfuel : k ≤ fuel) :
        h.selectFrom getInt32 fuel f (some n) = some s := by
      obtain ⟨fuel, rfl⟩ := Nat.exists_eq_add_one_of_ne_zero (hpos.trans_le hfuel).ne'
      exact hs fuel hfuel
    cases hs : c.state with
    | some s =>
      refine ⟨s, (hcar.state hc (Option.some_ne_none n) hs).2.1, hsucc fun fuel _ => ?_⟩
      simp only [PTreeHeap.selectFrom, hc, hs, Option.bind_eq_bind, Option.bind_some]
    | none =>
      have hstep (fuel : Nat) : h.selectFrom getInt32 (fuel + 1) f (some n) =
          if c.left = none then h.selectFrom getInt32 fuel f c.right
          else if c.right = none then h.selectFrom getInt32 fuel f c.left
          else h.selectFrom getInt32 fuel (f.flip getInt32).2
            (if (f.flip getInt32).1 then c.left else c.right) := by
        rw [PTreeHeap.selectFrom, hc, Option.bind_eq_bind, Option.bind_some, hs]
      obtain ⟨m, hm⟩ := hcar.exists_child hl hc hs hlive
      cases hleft : c.left with
      | none =>
        have hright : c.right = some m :=
          hm.resolve_left fun h => Option.some_ne_none m (h.symm.trans hleft)
        obtain ⟨s, hmem, hends⟩ := hdown f (.inr hright)
        refine ⟨s, hmem, hsucc fun fuel hfuel => ?_⟩
        rw [hstep, if_pos hleft, hright]
        exact hends fuel hfuel
      | some l =>
        have hne : c.left ≠ none := fun h => Option.some_ne_none l (hleft.symm.trans h)
        cases hright : c.right with
        | none =>
          obtain ⟨s, hmem, hends⟩ := hdown f (.inl hleft)
          refine ⟨s, hmem, hsucc fun fuel hfuel => ?_⟩
          rw [hstep, if_neg hne, if_pos hright, hleft]
          exact hends fuel hfuel
        | some r =>
          have hne' : c.right ≠ none := fun h => Option.some_ne_none r (hright.symm.trans h)
          cases hb : (f.flip getInt32).1 with
          | true =>
            obtain ⟨s, hmem, hends⟩ := hdown (f.flip getInt32).2 (.inl hleft)
            refine ⟨s, hmem, hsucc fun fuel hfuel => ?_⟩
            rw [hstep, if_neg hne, if_neg hne', hb, hleft]
            exact hends fuel hfuel
          | false =>
            obtain ⟨s, hmem, hends⟩ := hdown (f.flip getInt32).2 (.inr hright)
            refine ⟨s, hmem, hsucc fun fuel hfuel => ?_⟩
            rw [hstep, if_neg hne, if_neg hne', hb, hright]
            exact hends fuel hfuel

theorem Carried.selectFrom (hcar : Carried h live none) (hl : Linked h)
    (getInt32 : Nat → BitVec 32) (f : Flips) (hc : h.nodes n = some c)
    (hlive : n = h.root → live.Nonempty) :
    ∃ s ∈ live, Fuel.Ends (fun fuel => h.selectFrom getInt32 fuel f (some n)) s := by
  obtain ⟨s, hmem, hs⟩ := hcar.selectFrom_of_le hl getInt32 f hc hlive
  exact ⟨s, hmem, h.next - n, hs⟩

end Paths

section Run

variable {h h' : PTreeHeap} {n : PTreeRef} {s : StateId} {live live' : Finset StateId}

def RootForked (h : PTreeHeap) : Prop := ∀ {c}, h.nodes h.root = some c → c.state = none

theorem Carried.setPtreeNode (hcar : Carried h live none) (hs : s ∉ live) (p : Option PTreeRef) :
    Carried (h.setPtreeNode s p) live none where
  state hd hx hds := by
    obtain ⟨hchild, hmem, hptr⟩ := hcar.state hd hx hds
    refine ⟨hchild, hmem, (Function.update_of_ne ?_ _ _).trans hptr⟩
    rintro rfl
    exact hs hmem
  inner := hcar.inner
  live := hcar.live

theorem Linked.setPtreeNode (hl : Linked h) (p : Option PTreeRef) : Linked (h.setPtreeNode s p) :=
  ⟨hl.lt_next, hl.root, hl.parent_eq_none, hl.parent, hl.child, hl.apart⟩

theorem Carried.ptreeNode (hcar : Carried h live none) (hs : s ∈ live) :
    ∃ n c, h.ptreeNode s = some n ∧ h.nodes n = some c ∧ c.state = some s ∧ c.Childless := by
  obtain ⟨n, c, hc, -, hcs⟩ := hcar.live hs
  obtain ⟨hchild, -, hptr⟩ := hcar.state hc (Option.some_ne_none n) hcs
  exact ⟨n, c, hptr, hc, hcs, hchild⟩

theorem exists_fork (hl : Linked h) (hcar : Carried h live none) {copy : StateId} (hs : s ∈ live)
    (hcopy : copy ∉ live) (hroot : RootForked h ∨ h.ptreeNode s = some h.root)
    (copyOnLeft : Bool) : ∃ h', step h (.fork s copy copyOnLeft) = some h' ∧ Linked h' ∧
      Carried h' (insert copy live) none ∧ RootForked h' := by
  obtain ⟨n, c, hptr, hc, hcs, hchild⟩ := hcar.ptreeNode hs
  have hl₁ : Linked (h.setPtreeNode copy (h.ptreeNode s)) := hl.setPtreeNode _
  have hcar₁ := hcar.setPtreeNode hcopy (h.ptreeNode s)
  have hc₁ : (h.setPtreeNode copy (h.ptreeNode s)).nodes n = some c := hc
  have hptr₁ : (h.setPtreeNode copy (h.ptreeNode s)).ptreeNode s = some n := by
    refine (Function.update_of_ne ?_ _ _).trans hptr
    rintro rfl
    exact hcopy hs
  have hforked {l r : StateId} {h' : PTreeHeap}
      (ha : Attached (h.setPtreeNode copy (h.ptreeNode s)) n c l r h') : RootForked h' := by
    intro d hd
    rw [ha.root] at hd
    by_cases hn : n = h.root
    · subst hn
      obtain rfl := Option.some.inj (ha.node.symm.trans hd)
      rfl
    · obtain ⟨e, he⟩ := hl.root
      have hlt := hl.lt_next he
      have hold : h'.nodes h.root = h.nodes h.root :=
        ha.rest (Ne.symm hn) hlt.ne (hlt.trans (Nat.lt_succ_self _)).ne
      rcases hroot with hroot | hroot
      · exact hroot (hold.symm.trans hd)
      · exact absurd (Option.some.inj (hptr.symm.trans hroot)) hn
  cases copyOnLeft with
  | true =>
    obtain ⟨h', hattach, ha⟩ := exists_attach hc₁ (hl₁.lt_next hc₁) hchild copy s
    refine ⟨h', ?_, ha.linked hl₁ hc₁ hchild,
      ha.carried hl₁ hcar₁ hc₁ hcs hcopy (.inr ⟨rfl, rfl⟩), hforked ha⟩
    exact Option.bind_eq_some_iff.mpr ⟨n, hptr₁, hattach⟩
  | false =>
    obtain ⟨h', hattach, ha⟩ := exists_attach hc₁ (hl₁.lt_next hc₁) hchild s copy
    refine ⟨h', ?_, ha.linked hl₁ hc₁ hchild,
      ha.carried hl₁ hcar₁ hc₁ hcs hcopy (.inl ⟨rfl, rfl⟩), hforked ha⟩
    exact Option.bind_eq_some_iff.mpr ⟨n, hptr₁, hattach⟩

/-- The node of a state that ends is about to be deleted. -/
theorem Carried.erase (hcar : Carried h live none) {c : PTreeNode} (hc : h.nodes n = some c)
    (hs : c.state = some s) : Carried h (live.erase s) (some n) where
  state {m d a} hd hm hda := by
    obtain ⟨hchild, hmem, hptr⟩ := hcar.state hd (Option.some_ne_none m) hda
    refine ⟨hchild, Finset.mem_erase.mpr ⟨?_, hmem⟩, hptr⟩
    rintro rfl
    exact hm (hptr.symm.trans (hcar.state hc (Option.some_ne_none n) hs).2.2)
  inner {m d} hd _ := hcar.inner hd (Option.some_ne_none m)
  live {a} ha := by
    obtain ⟨hne, hmem⟩ := Finset.mem_erase.mp ha
    obtain ⟨m, d, hd, -, hda⟩ := hcar.live hmem
    refine ⟨m, d, hd, ?_, hda⟩
    rintro ⟨⟩
    obtain rfl := Option.some.inj (hc.symm.trans hd)
    exact hne (Option.some.inj (hda.symm.trans hs))

theorem exists_terminate (hl : Linked h) (hcar : Carried h live none) (hs : s ∈ live)
    (hroot : RootForked h) : ∃ h', step h (.terminate s) = some h' ∧ Linked h' ∧
      Carried h' (live.erase s) none ∧ RootForked h' := by
  obtain ⟨n, c, hptr, hc, hcs, hchild⟩ := hcar.ptreeNode hs
  have hcar₁ : Carried h (live.erase s) (some n) := hcar.erase hc hcs
  have hn : n = h.root → c.state = none := by
    rintro rfl
    exact hroot hc
  obtain ⟨h', hrun, hl', hcar', hroot', -, hold⟩ :=
    exists_removeFrom hl hcar₁ hc hchild hn (hl.lt_next hc)
  refine ⟨h'.setPtreeNode s none, ?_, hl'.setPtreeNode none,
    hcar'.setPtreeNode (Finset.notMem_erase s live) none, ?_⟩
  · simp only [step, remove, hptr, hc, hchild.1, hchild.2, hrun, guard, Option.bind_eq_bind,
      Option.bind_some, and_self, if_true]
    rfl
  · intro d hd
    obtain ⟨e, he, hsame⟩ := hold hd
    rw [hsame]
    rw [show (h'.setPtreeNode s none).root = h.root from hroot'] at he
    exact hroot he

theorem exists_run {ops : List Op} (hl : Linked h) (hcar : Carried h live none)
    (hroot : RootForked h) (hops : ops.foldlM Op.live live = some live') :
    ∃ h', run h ops = some h' ∧ Linked h' ∧ Carried h' live' none := by
  induction ops generalizing h live with
  | nil =>
    obtain rfl := Option.some.inj hops
    exact ⟨h, rfl, hl, hcar⟩
  | cons op ops ih =>
    rw [List.foldlM_cons] at hops
    obtain ⟨live₁, hop, hops⟩ := Option.bind_eq_some_iff.mp hops
    obtain ⟨h₁, hstep, hl₁, hcar₁, hroot₁⟩ : ∃ h₁, step h op = some h₁ ∧ Linked h₁ ∧
        Carried h₁ live₁ none ∧ RootForked h₁ := by
      cases op with
      | fork s copy copyOnLeft =>
        obtain ⟨⟨hs, hcopy⟩, ⟨⟩⟩ := Option.ite_none_right_eq_some.mp hop
        exact exists_fork hl hcar hs hcopy (.inl hroot) copyOnLeft
      | terminate s =>
        obtain ⟨hs, ⟨⟩⟩ := Option.ite_none_right_eq_some.mp hop
        exact exists_terminate hl hcar hs hroot
    obtain ⟨h', hrun, h⟩ := ih hl₁ hcar₁ hroot₁ hops
    refine ⟨h', ?_, h⟩
    rw [run, List.foldlM_cons, hstep]
    exact hrun

theorem new_nodes {s₀ : StateId} {c : PTreeNode} (hc : (new s₀).nodes n = some c) :
    n = 0 ∧ c = ⟨none, none, none, some s₀⟩ := by
  by_cases hn : n = 0
  · subst hn
    exact ⟨rfl, (Option.some.inj hc).symm⟩
  · rw [show (new s₀).nodes n = none from Function.update_of_ne hn _ _] at hc
    cases hc

theorem linked_new (s₀ : StateId) : Linked (new s₀) := by
  constructor
  · intro n c hc
    obtain ⟨rfl, -⟩ := new_nodes hc
    exact Nat.zero_lt_one
  · exact ⟨_, rfl⟩
  · intro n c hc
    obtain ⟨rfl, rfl⟩ := new_nodes hc
    exact iff_of_true rfl rfl
  · intro n c p hc hp
    obtain ⟨-, rfl⟩ := new_nodes hc
    cases hp
  · intro n c m hc hm
    obtain ⟨-, rfl⟩ := new_nodes hc
    exact absurd hm (Childless.not_hasChild ⟨rfl, rfl⟩)
  · intro n c m hc hm
    obtain ⟨-, rfl⟩ := new_nodes hc
    cases hm

theorem carried_new (s₀ : StateId) : Carried (new s₀) {s₀} none := by
  constructor
  · intro n c s hc _ hs
    obtain ⟨rfl, rfl⟩ := new_nodes hc
    obtain rfl := Option.some.inj hs
    exact ⟨⟨rfl, rfl⟩, Finset.mem_singleton_self _, Function.update_self _ _ _⟩
  · intro n c hc _ _ _
    exact (new_nodes hc).1
  · intro s hs
    obtain rfl := Finset.mem_singleton.mp hs
    exact ⟨0, ⟨none, none, none, some s⟩, rfl, Option.some_ne_none _, rfl⟩

/-- The root is not deleted. -/
theorem step_terminate_new (s : StateId) :
    step (new s) (.terminate s) = some ((new s).setPtreeNode s none) := by
  have hptr : (new s).ptreeNode s = some 0 := Function.update_self _ _ _
  rw [step, hptr]
  rfl

/-- The tree is that of the live states: its leaves carry them, every node above leads to one, the
links go both ways, and a random path ends at one. -/
structure Consistent (h : PTreeHeap) (live : Finset StateId) : Prop where
  leaf : ∀ s, s ∈ live ↔ ∃ n c, h.nodes n = some c ∧ c.Childless ∧ c.state = some s
  inner : ∀ {n c}, h.nodes n = some c → ¬ c.Childless →
    c.state = none ∧ ∃ m, c.HasChild m ∧ ∃ s ∈ live, Carries h m s
  linked : Linked h
  state : ∀ {n c s}, h.nodes n = some c → c.state = some s → h.ptreeNode s = some n
  ptreeNode : ∀ s ∈ live, ∃ n c, h.ptreeNode s = some n ∧ h.nodes n = some c ∧ c.state = some s
  selectState : live.Nonempty → ∀ getInt32, ∃ s ∈ live, Fuel.Ends (h.selectState getInt32) s

theorem Carried.consistent (hcar : Carried h live none) (hl : Linked h) : Consistent h live where
  leaf s := by
    constructor
    · intro hs
      obtain ⟨n, c, -, hc, hcs, hchild⟩ := hcar.ptreeNode hs
      exact ⟨n, c, hc, hchild, hcs⟩
    · rintro ⟨n, c, hc, -, hcs⟩
      exact (hcar.state hc (Option.some_ne_none n) hcs).2.1
  inner {n c} hc hchild := by
    have hs : c.state = none := by
      cases hs : c.state with
      | none => rfl
      | some s => exact absurd (hcar.state hc (Option.some_ne_none n) hs).1 hchild
    obtain ⟨m, hm⟩ : ∃ m, c.HasChild m := by
      by_contra hnone
      exact hchild ⟨Option.eq_none_iff_forall_ne_some.mpr fun m hm => hnone ⟨m, .inl hm⟩,
        Option.eq_none_iff_forall_ne_some.mpr fun m hm => hnone ⟨m, .inr hm⟩⟩
    obtain ⟨-, d, hd, -⟩ := hl.child hc hm
    exact ⟨hs, m, hm, hcar.carries hl hd fun hroot =>
      absurd hroot (Carried.child_ne_root hl hc hm)⟩
  linked := hl
  state {n c s} hc hs := (hcar.state hc (Option.some_ne_none n) hs).2.2
  ptreeNode s hs := by
    obtain ⟨n, c, hptr, hc, hcs, -⟩ := hcar.ptreeNode hs
    exact ⟨n, c, hptr, hc, hcs⟩
  selectState hlive getInt32 := by
    obtain ⟨c, hc⟩ := hl.root
    exact hcar.selectFrom hl getInt32 ⟨0, 0, 0⟩ hc fun _ => hlive

/-- After any forks and terminations the tree is that of the live states, unless the initial state
ended before it forked: then the root carries it still. -/
theorem run_consistent (s₀ : StateId) {ops : List Op} {live : Finset StateId}
    (hops : ops.foldlM Op.live {s₀} = some live) :
    ∃ h, run (new s₀) ops = some h ∧ (ops ≠ [.terminate s₀] → Consistent h live) ∧
      (ops = [.terminate s₀] → ∃ c, h.nodes h.root = some c ∧ c.state = some s₀) := by
  cases ops with
  | nil =>
    obtain rfl := Option.some.inj hops
    exact ⟨_, rfl, fun _ => (carried_new s₀).consistent (linked_new s₀), fun h => nomatch h⟩
  | cons op ops =>
    rw [List.foldlM_cons] at hops
    obtain ⟨live₁, hop, hops⟩ := Option.bind_eq_some_iff.mp hops
    cases op with
    | fork s copy copyOnLeft =>
      obtain ⟨⟨hs, hcopy⟩, ⟨⟩⟩ := Option.ite_none_right_eq_some.mp hop
      have hroot : (new s₀).ptreeNode s = some (new s₀).root := by
        rw [Finset.mem_singleton.mp hs]
        exact Function.update_self _ _ _
      obtain ⟨h₁, hstep, hl₁, hcar₁, hroot₁⟩ :=
        exists_fork (linked_new s₀) (carried_new s₀) hs hcopy (.inr hroot) copyOnLeft
      obtain ⟨h, hrun, hl, hcar⟩ := exists_run hl₁ hcar₁ hroot₁ hops
      refine ⟨h, ?_, fun _ => hcar.consistent hl, fun h => nomatch h⟩
      rw [run, List.foldlM_cons, hstep]
      exact hrun
    | terminate s =>
      obtain ⟨hs, ⟨⟩⟩ := Option.ite_none_right_eq_some.mp hop
      obtain rfl := Finset.mem_singleton.mp hs
      cases ops with
      | nil =>
        refine ⟨(new s).setPtreeNode s none, ?_, fun h => absurd rfl h,
          fun _ => ⟨⟨none, none, none, some s⟩, rfl, rfl⟩⟩
        rw [run, List.foldlM_cons, step_terminate_new]
        rfl
      | cons op ops =>
        -- Nothing is live any more.
        rw [Finset.erase_singleton, List.foldlM_cons] at hops
        cases op <;> cases hops

/-- The initial state forks and ends; its copy is left. -/
theorem run_consistent_fork : ∃ h, run (new 0) [.fork 0 1 true, .terminate 0] = some h ∧
    Consistent h {1} := by
  have hops : [Op.fork 0 1 true, .terminate 0].foldlM Op.live {0} = some {1} := rfl
  obtain ⟨h, hrun, hconsistent, -⟩ := run_consistent 0 hops
  exact ⟨h, hrun, hconsistent (by simp)⟩

/-- The initial state ends before it forked. -/
theorem run_not_consistent_terminate :
    ¬ ∃ h, run (new 0) [.terminate 0] = some h ∧ Consistent h ∅ := by
  rintro ⟨h, hrun, hconsistent⟩
  obtain rfl := Option.some.inj hrun
  have hmem := (hconsistent.leaf 0).mpr ⟨0, _, rfl, ⟨rfl, rfl⟩, rfl⟩
  exact Finset.notMem_empty 0 hmem

end Run

end PTreeHeap

end Klee
