import Klee.Support.DiscretePDFHeap

/-! What `split` and `lengthen` do to the tree of a `DiscretePDF`. -/
namespace Klee.DiscretePDF

open Zipper BinTree

variable {K W : Type}

section Colors

def recolor (x : Bool) : BinTree (Label K W) → BinTree (Label K W)
  | .nil => .nil
  | .node l a r => .node l { a with mark := x } r

abbrev blacken (t : BinTree (Label K W)) : BinTree (Label K W) := recolor false t

def rootRed : Bool → List (Frame (Label K W)) → Bool
  | m, [] => m
  | _, f :: path => rootRed f.label.mark path

section Splits

variable [AddCommMonoid W]

/-- How `split` changes the frames above a node that stays at its place, with the node's new mark. -/
inductive SplitsAbove : List (Frame (Label K W)) → Bool → List (Frame (Label K W)) → Prop
  | root : SplitsAbove [] false []
  | black (f : Frame (Label K W)) (path : List (Frame (Label K W))) (hp : f.label.mark = false) :
      SplitsAbove (f :: path) true (f :: path)
  | straight (d : Side) (p g : Label K W) (c c' : BinTree (Label K W))
      (path : List (Frame (Label K W))) (x : W) (hp : p.mark = true) :
      SplitsAbove (⟨d, p, c⟩ :: ⟨d, g, c'⟩ :: path) true (⟨d, { p with sum := x, mark := false },
        .on d { g with sum := g.weight + sumOf c + sumOf c', mark := true } c c'⟩ :: path)

/-- How `split` changes the tree around the node at a place. -/
inductive Splits : BinTree (Label K W) → List (Frame (Label K W)) → BinTree (Label K W) →
    List (Frame (Label K W)) → Prop
  | stay (l : BinTree (Label K W)) (a : Label K W) (r : BinTree (Label K W))
      (path : List (Frame (Label K W))) (x : Bool) (path' : List (Frame (Label K W)))
      (h : SplitsAbove path x path') :
      Splits (.node l a r) path (.node (blacken l) { a with mark := x } (blacken r)) path'
  | bent (near : BinTree (Label K W)) (a : Label K W) (far : BinTree (Label K W)) (d : Side)
      (p g : Label K W) (c c' : BinTree (Label K W)) (path : List (Frame (Label K W))) (x : W)
      (hp : p.mark = true) :
      Splits (.on d a near far) (⟨d, p, c⟩ :: ⟨d.flip, g, c'⟩ :: path)
        (.on d { a with sum := x, mark := false }
          (.on d.flip { g with sum := g.weight + sumOf (blacken near) + sumOf c', mark := true }
            (blacken near) c')
          (.on d { p with sum := p.weight + sumOf (blacken far) + sumOf c } (blacken far) c)) path

end Splits

end Colors

variable {o : Pointer → Option (Node K W)} {s s' : DiscretePDF K W}
  {t l r near far c c' : BinTree (Label K W)} {path : List (Frame (Label K W))}
  {f : Frame (Label K W)} {a b n p g : Label K W} {d e : Side}

section Moves

/-- The place can be moved to the other child. -/
theorem at_swap : At o s t (⟨d, p, c⟩ :: path) ↔ At o s c (⟨d.flip, p, t⟩ :: path) := by
  rw [at_cons, at_cons, Frame.fill, Frame.fill, on_flip]

theorem At.modify {u : Node K W → Node K W} (h : At o s (.on d a l r) path) (hid : b.id = a.id)
    (hu : ∀ p l r, u (a.toNode p l r) = b.toNode p l r) :
    ∃ s', s.modify a.id u = some s' ∧ At o s' (.on d b l r) path := by
  rw [At, pointer_on] at h
  obtain ⟨s', hs', h'⟩ := h.modify hid hu
  rw [← hid] at h'
  exact ⟨s', hs', by rwa [At, pointer_on]⟩

theorem At.modify_above {u : Node K W → Node K W} (h : At o s t (⟨d, a, c⟩ :: path))
    (hid : b.id = a.id) (hu : ∀ p l r, u (a.toNode p l r) = b.toNode p l r) :
    ∃ s', s.modify a.id u = some s' ∧ At o s' t (⟨d, b, c⟩ :: path) := by
  obtain ⟨s', hs', h'⟩ := (at_cons.mp h).modify (d := d) hid hu
  exact ⟨s', hs', at_cons.mpr h'⟩

theorem At.isBlack_above (h : At o s t (f :: path)) :
    s.isBlack f.label.id = some !f.label.mark := by
  rw [DiscretePDF.isBlack, h.above.1]
  rfl

theorem At.modify_sibling {u : Node K W → Node K W} (h : At o s t (⟨d, p, .on e a l r⟩ :: path))
    (hid : b.id = a.id) (hu : ∀ p l r, u (a.toNode p l r) = b.toNode p l r) :
    ∃ s', s.modify a.id u = some s' ∧ At o s' t (⟨d, p, .on e b l r⟩ :: path) := by
  obtain ⟨s', hs', h'⟩ := (at_swap.mp h).modify hid hu
  exact ⟨s', hs', at_swap.mpr h'⟩

variable [AddCommMonoid W]

theorem At.setSum (h : At o s (.on d a l r) path) : ∃ s', s.setSum a.id = some s' ∧
    At o s' (.on d { a with sum := a.weight + sumOf l + sumOf r } l r) path := by
  rw [At, pointer_on] at h
  obtain ⟨s', hs', h'⟩ := h.setSum
  exact ⟨s', hs', by rwa [At, pointer_on]⟩

/-- The node at the place is rotated. -/
theorem At.rotate_self (h : At o s (.on d n near far) (⟨d, p, c⟩ :: path)) :
    ∃ s' x, s.rotate n.id = some s' ∧ At o s' (.on d { n with sum := x } near
      (.on d { p with sum := p.weight + sumOf far + sumOf c } far c)) path :=
  (at_cons.mp h).rotate

theorem At.rotate_parent (h : At o s t (⟨d, p, c⟩ :: ⟨d, g, c'⟩ :: path)) :
    ∃ s' x, s.rotate p.id = some s' ∧ At o s' t (⟨d, { p with sum := x },
      .on d { g with sum := g.weight + sumOf c + sumOf c' } c c'⟩ :: path) := by
  obtain ⟨s', x, hs', h'⟩ := At.rotate_self (at_cons.mp h)
  exact ⟨s', x, hs', at_cons.mpr h'⟩

theorem At.rotate_sibling (h : At o s t (⟨d, p, .on d.flip n near far⟩ :: path)) :
    ∃ s' x, s.rotate n.id = some s' ∧ At o s' t (⟨d, { p with sum := p.weight + sumOf far + sumOf t },
      far⟩ :: ⟨d, { n with sum := x }, near⟩ :: path) := by
  obtain ⟨s', x, hs', h'⟩ := At.rotate_self (at_swap.mp h)
  rw [on_flip, on_flip] at h'
  exact ⟨s', x, hs', at_cons.mpr (at_cons.mpr h')⟩

end Moves

section Split

theorem recolor_on {x : Bool} : recolor x (.on d a l r) = .on d { a with mark := x } l r := by
  cases d <;> rfl

theorem red_plug : red (plug t path) = rootRed (red t) path := by
  induction path generalizing t with
  | nil => rfl
  | cons f path ih =>
    rw [plug_cons, ih, Frame.fill, red_on]
    rfl

theorem At.markChildBlack (h : At o s t path) :
    ∃ s', s.markChildBlack (pointer t) = some s' ∧ At o s' (blacken t) path := by
  cases t with
  | nil => exact ⟨s, rfl, h⟩
  | node l a r => exact At.modify (d := .left) h rfl fun _ _ _ => rfl

theorem At.markBlack_above (h : At o s t (⟨d, p, c⟩ :: path)) :
    ∃ s', s.markBlack p.id = some s' ∧ At o s' t (⟨d, p.black, c⟩ :: path) :=
  h.modify_above rfl fun _ _ _ => rfl

theorem At.markOtherBlack (h : At o s t (⟨d, p, c⟩ :: path)) :
    ∃ s', s.markChildBlack (pointer c) = some s' ∧ At o s' t (⟨d, p, blacken c⟩ :: path) := by
  obtain ⟨s', hs', h'⟩ := (at_swap.mp h).markChildBlack
  exact ⟨s', hs', at_swap.mpr h'⟩

theorem At.markChildrenBlack (h : At o s (.node l a r) path) :
    ∃ s₁ s₂, s.markChildBlack (pointer l) = some s₁ ∧ s₁.markChildBlack (pointer r) = some s₂ ∧
      At o s₂ (.node (blacken l) a (blacken r)) path := by
  have hleft : At o s l (⟨.left, a, r⟩ :: path) := at_cons.mpr h
  obtain ⟨s₁, hs₁, h₁⟩ := hleft.markChildBlack
  obtain ⟨s₂, hs₂, h₂⟩ := (at_swap.mp h₁).markChildBlack
  exact ⟨s₁, s₂, hs₁, hs₂, at_cons.mp h₂⟩

/-- `split` tells the two sides apart by the links. -/
theorem At.same_side_iff (h : At o s (.node l a r) (⟨d, p, c⟩ :: ⟨e, g, c'⟩ :: path)) :
    ∃ pc ppc, s.nodes p.id = some pc ∧ s.nodes g.id = some ppc ∧ pc.parent = some g.id ∧
      ((pc.left = some a.id ∧ ppc.left = some p.id) ∨
        (pc.right = some a.id ∧ ppc.right = some p.id) ↔ d = e) := by
  obtain ⟨pc, hpc, hleft, hright⟩ := h.left_eq_iff (i := a.id) (by simp)
  have hup : Holds o s (.on d p (.node l a r) c) (⟨e, g, c'⟩ :: path) (some p.id) := by
    simpa [At, Frame.fill] using at_cons.mp h
  obtain ⟨ppc, hppc, hleft', hright'⟩ := hup.left_eq_iff (mem_ids_of_pointer pointer_on)
  refine ⟨pc, ppc, hpc, hppc, ?_, ?_⟩
  · obtain rfl := Option.some.inj (hpc.symm.trans h.above.1)
    rfl
  · rw [hleft, hright, hleft', hright']
    cases d <;> cases e <;> simp

theorem exists_on_blacken (d : Side) (l r : BinTree (Label K W)) (a : Label K W) : ∃ near far,
    BinTree.node l a r = .on d a near far ∧
      BinTree.node (blacken l) a.red (blacken r) = .on d a.red (blacken near) (blacken far) := by
  cases d
  · exact ⟨l, r, rfl, rfl⟩
  · exact ⟨r, l, rfl, rfl⟩

theorem exists_on_red (d : Side) (l r : BinTree (Label K W)) (a : Label K W) : ∃ near far,
    BinTree.node l a r = .on d a near far ∧
      (red l = false ∧ red r = false ↔ red near = false ∧ red far = false) := by
  cases d
  · exact ⟨l, r, rfl, Iff.rfl⟩
  · exact ⟨r, l, rfl, and_comm⟩

theorem At.split [AddCommMonoid W] (h : At o s (.node l a r) path) (hroot : rootRed a.mark path = false) :
    ∃ s' t' path', s.split a.id = some s' ∧ At o s' t' path' ∧ Splits (.node l a r) path t' path' := by
  obtain ⟨s₁, s₂, hs₁, hs₂, h₂⟩ := h.markChildrenBlack
  have hnode : s.nodes a.id = some (a.toNode (parentOf path) (pointer l) (pointer r)) := h.rep.1
  rw [DiscretePDF.split, bind_of_eq hnode]
  simp only [Label.toNode]
  rw [bind_of_eq hs₁, bind_of_eq hs₂]
  cases path with
  | nil =>
    have ha : a = { a with mark := false } := by
      change a.mark = false at hroot
      rw [← hroot]
    rw [ha] at h₂
    exact ⟨s₂, _, _, rfl, h₂, .stay l a r [] false [] .root⟩
  | cons f path =>
    obtain ⟨s₃, hs₃, h₃⟩ := At.modify (d := .left) (b := a.red) (u := fun c => { c with mark := true })
      h₂ rfl fun _ _ _ => rfl
    change s₂.markRed a.id = some s₃ at hs₃
    have hblack := h₃.isBlack_above
    simp only [parentOf]
    rw [bind_of_eq hs₃, bind_of_eq hblack]
    obtain ⟨d, p, c⟩ := f
    cases hp : p.mark with
    | false => exact ⟨s₃, _, _, rfl, h₃, .stay l a r _ true _ (.black _ path hp)⟩
    | true =>
      cases path with
      | nil => exact absurd (hp.symm.trans hroot) Bool.noConfusion
      | cons f path =>
        obtain ⟨e, g, c'⟩ := f
        have hppc := h₃.above.1
        obtain ⟨s₄, hs₄, h₄⟩ := (at_cons.mp h₃).modify_above (b := g.red)
          (u := fun c => { c with mark := true }) rfl fun _ _ _ => rfl
        change s₃.markRed g.id = some s₄ at hs₄
        obtain ⟨pc, ppc, hpc, hppc', -, hside⟩ := At.same_side_iff (at_cons.mpr h₄)
        change (pc.left = some a.id ∧ ppc.left = some p.id) ∨
          (pc.right = some a.id ∧ ppc.right = some p.id) ↔ d = e at hside
        change s₄.nodes g.id = some ppc at hppc'
        simp only [hppc, Label.toNode, parentOf, hs₄, hpc, hppc', Option.bind_eq_bind,
          Option.bind_some, hside]
        by_cases hde : d = e
        · subst hde
          obtain ⟨s₅, x, hs₅, h₅⟩ := At.rotate_parent (at_cons.mpr h₄)
          obtain ⟨s₆, hs₆, h₆⟩ := h₅.modify_above (b := { p with sum := x, mark := false })
            (u := fun c => { c with mark := false }) rfl fun _ _ _ => rfl
          change s₅.markBlack p.id = some s₆ at hs₆
          simp only [hs₅, hs₆, not_true_eq_false, if_false, Option.bind_some]
          exact ⟨s₆, _, _, rfl, h₆, .stay l a r _ true _ (.straight d p g c c' path x hp)⟩
        · obtain rfl : e = d.flip := by
            cases d <;> cases e <;> first | rfl | exact absurd rfl hde
          obtain ⟨near, far, hnode', hblack'⟩ := exists_on_blacken d l r a
          have h₅ : At o s₄ (.on d a.red (blacken near) (blacken far))
              (⟨d, p, c⟩ :: ⟨d.flip, g.red, c'⟩ :: path) := by
            rw [← hblack']
            exact at_cons.mpr h₄
          obtain ⟨s₆, x, hs₆, h₆⟩ := h₅.rotate_self
          rw [← on_flip] at h₆
          obtain ⟨s₇, y, hs₇, h₇⟩ := h₆.rotate_self
          rw [on_flip] at h₇
          obtain ⟨s₈, hs₈, h₈⟩ := h₇.modify (b := { a with sum := y, mark := false })
            (u := fun c => { c with mark := false }) rfl fun _ _ _ => rfl
          change s₄.rotate a.id = some s₆ at hs₆
          change s₆.rotate a.id = some s₇ at hs₇
          change s₇.markBlack a.id = some s₈ at hs₈
          simp only [hde, hs₆, hs₇, hs₈, not_false_eq_true, if_true, Option.bind_some]
          refine ⟨s₈, _, _, rfl, h₈, ?_⟩
          rw [hnode']
          exact .bent near a far d p g c c' path y hp

theorem At.sibling (h : At o s (.node l a r) (⟨d, p, c⟩ :: path)) :
    s.sibling a.id = some (pointer c) := by
  have hnode : s.nodes a.id = some (a.toNode (some p.id) (pointer l) (pointer r)) := h.rep.1
  obtain ⟨pc, hpc, hleft, -⟩ := h.left_eq_iff (i := a.id) (by simp)
  change s.nodes p.id = some pc at hpc
  obtain rfl := Option.some.inj (hpc.symm.trans h.above.1)
  simp only [DiscretePDF.sibling, hnode, hpc, Option.bind_eq_bind, Option.bind_some,
    Label.toNode]
  simp only [Label.toNode] at hleft
  cases d with
  | left => rw [if_pos (hleft.mpr rfl)]; rfl
  | right => rw [if_neg fun heq => Side.noConfusion (hleft.mp heq)]; rfl

end Split

section Sums

variable [AddCommMonoid W]

def SumsOk : BinTree (Label K W) → Prop
  | .nil => True
  | .node l a r => a.sum = a.weight + sumOf l + sumOf r ∧ SumsOk l ∧ SumsOk r

def OthersOk (path : List (Frame (Label K W))) : Prop := ∀ f ∈ path, SumsOk f.other

theorem sumsOk_on : SumsOk (.on d a l r) ↔
    a.sum = a.weight + sumOf l + sumOf r ∧ SumsOk l ∧ SumsOk r := by
  cases d with
  | left => exact Iff.rfl
  | right =>
    rw [on, SumsOk, add_right_comm]
    exact and_congr_right fun _ => and_comm

@[simp] theorem sumOf_recolor {x : Bool} : sumOf (recolor x t) = sumOf t := by
  cases t <;> rfl

theorem SumsOk.recolor {x : Bool} (h : SumsOk t) : SumsOk (recolor x t) := by
  cases t with
  | nil => trivial
  | node l a r => exact h

@[simp] theorem othersOk_nil : OthersOk ([] : List (Frame (Label K W))) := by
  simp [OthersOk]

@[simp] theorem othersOk_cons : OthersOk (f :: path) ↔ SumsOk f.other ∧ OthersOk path :=
  List.forall_mem_cons

end Sums

section Entries

def Label.entry (a : Label K W) : K × W := (a.key, a.weight)

def entries (t : BinTree (Label K W)) : List (K × W) := t.toList.map Label.entry

def entriesBefore (path : List (Frame (Label K W))) : List (K × W) := (before path).map Label.entry

def entriesAfter (path : List (Frame (Label K W))) : List (K × W) := (after path).map Label.entry

@[simp] theorem entries_nil : entries (.nil : BinTree (Label K W)) = [] := rfl

theorem entries_on : entries (.on d a l r) =
    d.pick (entries l) (entries r) ++ a.entry :: d.pick (entries r) (entries l) := by
  cases d <;> simp [entries, on, toList, Side.pick]

@[simp] theorem entries_node : entries (.node l a r) = entries l ++ a.entry :: entries r :=
  entries_on (d := .left)

@[simp] theorem entries_recolor {x : Bool} : entries (recolor x t) = entries t := by
  cases t <;> simp [recolor, Label.entry]

@[simp] theorem entriesBefore_nil : entriesBefore ([] : List (Frame (Label K W))) = [] := rfl

@[simp] theorem entriesAfter_nil : entriesAfter ([] : List (Frame (Label K W))) = [] := rfl

@[simp] theorem entriesBefore_cons : entriesBefore (f :: path) =
    entriesBefore path ++ f.side.pick [] (entries f.other ++ [f.label.entry]) := by
  obtain ⟨d, b, other⟩ := f
  cases d <;> simp [entriesBefore, Frame.before, Side.pick, entries]

@[simp] theorem entriesAfter_cons : entriesAfter (f :: path) =
    f.side.pick (f.label.entry :: entries f.other) [] ++ entriesAfter path := by
  obtain ⟨d, b, other⟩ := f
  cases d <;> simp [entriesAfter, Frame.after, Side.pick, entries]

theorem entriesBefore_append {rest : List (Frame (Label K W))} :
    entriesBefore (path ++ rest) = entriesBefore rest ++ entriesBefore path := by
  rw [entriesBefore, before_append, List.map_append]
  rfl

theorem entriesAfter_append {rest : List (Frame (Label K W))} :
    entriesAfter (path ++ rest) = entriesAfter path ++ entriesAfter rest := by
  rw [entriesAfter, after_append, List.map_append]
  rfl

theorem entries_plug : entries (plug t path) = entriesBefore path ++ entries t ++ entriesAfter path := by
  rw [entries, toList_plug, List.map_append, List.map_append]
  rfl

end Entries

section Lengthen

variable [AddCommMonoid W] {t' : BinTree (Label K W)} {path' : List (Frame (Label K W))}

structure Kept (path path' : List (Frame (Label K W))) : Prop where
  parent : parentOf path' = parentOf path
  before : entriesBefore path' = entriesBefore path
  after : entriesAfter path' = entriesAfter path
  others : OthersOk path → OthersOk path'

theorem Kept.trans {path'' : List (Frame (Label K W))} (h : Kept path path')
    (h' : Kept path' path'') : Kept path path'' :=
  ⟨h'.parent.trans h.parent, h'.before.trans h.before, h'.after.trans h.after,
    fun hok => h'.others (h.others hok)⟩

/-- The frames above are as they were. -/
theorem Kept.refl (path : List (Frame (Label K W))) : Kept path path := ⟨rfl, rfl, rfl, id⟩

theorem Kept.cons (h : Kept path path') (hid : b.id = a.id) (hentry : b.entry = a.entry)
    (hc : entries c' = entries c) (hok : SumsOk c → SumsOk c') :
    Kept (⟨d, a, c⟩ :: path) (⟨d, b, c'⟩ :: path') := by
  refine ⟨congrArg some hid, ?_, ?_, ?_⟩
  · rw [entriesBefore_cons, entriesBefore_cons, h.before, hentry, hc]
  · rw [entriesAfter_cons, entriesAfter_cons, h.after, hentry, hc]
  · rw [othersOk_cons, othersOk_cons]
    exact And.imp hok h.others

theorem SplitsAbove.kept {m : Bool} (h : SplitsAbove path m path') : Kept path path' := by
  cases h with
  | root => exact .refl _
  | black f path hp => exact .refl _
  | straight d p g c c' path x hp =>
    refine ⟨rfl, ?_, ?_, ?_⟩
    · cases d <;> simp [Side.pick, entries_on, Label.entry]
    · cases d <;> simp [Side.pick, entries_on, Label.entry]
    · simp only [othersOk_cons, sumsOk_on]
      tauto

theorem SplitsAbove.rootRed {m : Bool} (h : SplitsAbove path m path')
    (hroot : DiscretePDF.rootRed a.mark path = false) :
    DiscretePDF.rootRed m path' = false := by
  cases h with
  | root => rfl
  | black f path hp => exact hroot
  | straight d p g c c' path x hp =>
    cases path with
    | nil => rfl
    | cons f path => exact hroot

theorem Splits.entries_eq (h : Splits t path t' path') :
    entriesBefore path' ++ entries t' ++ entriesAfter path' =
      entriesBefore path ++ entries t ++ entriesAfter path := by
  cases h with
  | stay l a r path x path' h =>
    rw [h.kept.before, h.kept.after]
    simp [Label.entry]
  | bent near a far d p g c c' path x hp =>
    cases d <;> simp [Side.pick, Side.flip, entries_on, Label.entry]

theorem Splits.rootRed (h : Splits t path t' path') (hroot : DiscretePDF.rootRed (red t) path = false) :
    DiscretePDF.rootRed (red t') path' = false := by
  cases h with
  | stay l a r path x path' h => exact h.rootRed hroot
  | bent near a far d p g c c' _ x hp =>
    rw [red_on]
    cases path' with
    | nil => rfl
    | cons f path' => exact hroot

/-- All sums are right but those of the node itself and above it. -/
theorem Splits.sums (h : Splits (.node l a r) path t' path') (hl : SumsOk l) (hr : SumsOk r)
    (hothers : OthersOk path) : ∃ e b u v, t' = .on e b u v ∧ b.id = a.id ∧ SumsOk u ∧ SumsOk v ∧
      OthersOk path' := by
  generalize ht : BinTree.node l a r = t at h
  cases h with
  | stay l₁ b r₁ path x path' h =>
    cases ht
    exact ⟨.left, { a with mark := x }, blacken l, blacken r, rfl, rfl, hl.recolor, hr.recolor,
      h.kept.others hothers⟩
  | bent near b far d p g c c' path x hp =>
    have hleft : on .left a l r = .on d b near far := ht
    have hsums : SumsOk near ∧ SumsOk far ∧ b = a := by
      obtain ⟨rfl, ⟨-, rfl, rfl⟩ | ⟨-, rfl, rfl⟩⟩ := on_inj hleft
      · exact ⟨hl, hr, rfl⟩
      · exact ⟨hr, hl, rfl⟩
    obtain ⟨hnear, hfar, rfl⟩ := hsums
    simp only [othersOk_cons] at hothers
    exact ⟨d, _, _, _, rfl, rfl, sumsOk_on.mpr ⟨rfl, hnear.recolor, hothers.2.1⟩,
      sumsOk_on.mpr ⟨rfl, hfar.recolor, hothers.1⟩, hothers.2.2⟩

theorem At.lengthenRedSibling (h : At o s (.node l a r) (⟨d, p, c⟩ :: path))
    (hroot : rootRed p.mark path = false) : ∃ s' p' c' path',
      s.lengthenRedSibling a.id p.id = some s' ∧ At o s' (.node l a r) (⟨d, p', c'⟩ :: path') ∧
      Kept (⟨d, p, c⟩ :: path) (⟨d, p', c'⟩ :: path') ∧ rootRed p'.mark path' = false ∧
      (p'.mark = true ∨ path' = path ∧ red c' = false) := by
  rw [DiscretePDF.lengthenRedSibling, h.sibling]
  cases hc : c with
  | nil =>
    subst hc
    exact ⟨s, p, .nil, path, rfl, h, .refl _, hroot, .inr ⟨rfl, rfl⟩⟩
  | node x b y =>
    have hblack : s.isBlack b.id = some !b.mark := by
      rw [hc] at h
      exact Holds.isBlack (d := .left) (at_swap.mp h)
    simp only [pointer, Option.bind_eq_bind, Option.bind_some, hblack]
    cases hb : b.mark with
    | false =>
      subst hc
      exact ⟨s, p, _, path, rfl, h, .refl _, hroot, .inr ⟨rfl, hb⟩⟩
    | true =>
      obtain ⟨near, far, hon⟩ := exists_on d.flip b x y
      rw [hc, hon] at h
      obtain ⟨s₁, hs₁, h₁⟩ := h.modify_above (b := p.red) (u := fun c => { c with mark := true })
        rfl fun _ _ _ => rfl
      obtain ⟨s₂, hs₂, h₂⟩ := h₁.modify_sibling (b := b.black)
        (u := fun c => { c with mark := false }) rfl fun _ _ _ => rfl
      obtain ⟨s₃, z, hs₃, h₃⟩ := h₂.rotate_sibling
      change s.markRed p.id = some s₁ at hs₁
      change s₁.markBlack b.id = some s₂ at hs₂
      change s₂.rotate b.id = some s₃ at hs₃
      refine ⟨s₃, _, _, _, ?_, h₃, ⟨rfl, ?_, ?_, ?_⟩, ?_, .inl rfl⟩
      · simp [hs₁, hs₂, hs₃]
      · rw [hon]
        cases d <;> simp [Side.pick, Side.flip, entries_on, Label.entry, Label.red, Label.black]
      · rw [hon]
        cases d <;> simp [Side.pick, Side.flip, entries_on, Label.entry, Label.red, Label.black]
      · rw [hon]
        simp only [othersOk_cons, sumsOk_on]
        tauto
      · cases path with
        | nil => rfl
        | cons f path => exact hroot

theorem At.raiseSibling (h : At o s (.node l a r) (⟨d, p, .on d.flip n near far⟩ :: path))
    (hnear : near ≠ .nil) : ∃ s' x y, s.raiseSibling a.id n.id = some s' ∧
      At o s' (.node l a r) (⟨d, { p with sum := x, mark := false }, far⟩ ::
        ⟨d, { n with sum := y, mark := p.mark || n.mark }, blacken near⟩ :: path) := by
  obtain ⟨s₁, y, hs₁, h₁⟩ := h.rotate_sibling
  generalize p.weight + sumOf far + sumOf (.node l a r) = x at h₁
  have hnode : s₁.nodes a.id = some (a.toNode (some p.id) (pointer l) (pointer r)) := h₁.rep.1
  have hblack : s₁.isBlack p.id = some !p.mark := h₁.isBlack_above
  obtain ⟨s₂, hs₂, h₂⟩ : ∃ s₂, (if !p.mark then some s₁ else s₁.markRed n.id) = some s₂ ∧
      At o s₂ (.node l a r) (⟨d, { p with sum := x }, far⟩ ::
        ⟨d, { n with sum := y, mark := p.mark || n.mark }, near⟩ :: path) := by
    rcases Bool.eq_false_or_eq_true p.mark with hp | hp
    · obtain ⟨s₂, hs₂, h₂⟩ := (at_cons.mp h₁).modify_above
        (b := { n with sum := y, mark := p.mark || n.mark }) (u := fun c => { c with mark := true })
        rfl fun _ _ _ => by rw [hp]; rfl
      exact ⟨s₂, by rw [hp]; exact hs₂, at_cons.mpr h₂⟩
    · have hmark : (p.mark || n.mark) = n.mark := by rw [hp, Bool.false_or]
      exact ⟨s₁, by rw [hp]; rfl, by rw [hmark]; exact h₁⟩
  set n' : Label K W := { n with sum := y, mark := p.mark || n.mark }
  have hn {s : DiscretePDF K W} {p' : Label K W} {c : BinTree (Label K W)}
      (h : At o s (.node l a r) (⟨d, p', far⟩ :: ⟨d, n', c⟩ :: path)) :
      s.nodes n.id = some (n'.toNode (parentOf path) (d.pick (some p'.id) (pointer c))
        (d.pick (pointer c) (some p'.id))) := h.above.2.2.1
  simp only [DiscretePDF.raiseSibling, hs₁, hnode, Label.toNode, hblack, hs₂,
    Option.bind_eq_bind, Option.bind_some, hn h₂]
  cases near with
  | nil => exact absurd rfl hnear
  | node u b v =>
    cases d with
    | left =>
      obtain ⟨s₃, hs₃, h₃⟩ := h₂.markBlack_above
      obtain ⟨s₄, hs₄, h₄⟩ := (at_cons.mp h₃).markOtherBlack
      change s₂.markBlack p.id = some s₃ at hs₃
      change s₃.markBlack b.id = some s₄ at hs₄
      refine ⟨s₄, x, y, ?_, at_cons.mpr h₄⟩
      simp [Side.pick, pointer, hs₃, hn h₃, Label.toNode, hs₄]
    | right =>
      obtain ⟨s₃, hs₃, h₃⟩ := (at_cons.mp h₂).markOtherBlack
      obtain ⟨s₄, hs₄, h₄⟩ := (at_cons.mpr h₃).markBlack_above
      change s₂.markBlack b.id = some s₃ at hs₃
      change s₃.markBlack p.id = some s₄ at hs₄
      refine ⟨s₄, x, y, ?_, h₄⟩
      simp [Side.pick, pointer, hs₃, hn (at_cons.mpr h₃), Label.toNode, hs₄]

variable {m : Label K W} {u v : BinTree (Label K W)}

theorem At.rotateAbove (h : At o s t (⟨d, p, .on d.flip n near (.on d m u v)⟩ :: path)) :
    ∃ s' x, s.rotateAbove m.id n.id = some (s', m.id) ∧ At o s' t (⟨d, p,
      .on d.flip { m with sum := x, mark := false }
        (.on d.flip { n with sum := n.weight + sumOf v + sumOf near, mark := true } near v) u⟩ ::
          path) := by
  have hfar : At o s (.on d m u v) (⟨d, n, near⟩ :: ⟨d.flip, p, t⟩ :: path) := by
    rw [at_cons, Frame.fill, ← on_flip]
    exact at_swap.mp h
  obtain ⟨s₁, x, hs₁, h₁⟩ := hfar.rotate_self
  set n' : Label K W := { n with sum := n.weight + sumOf v + sumOf near, mark := true }
  have h₁' : At o s₁ (.on d { n with sum := n.weight + sumOf v + sumOf near } v near)
      (⟨d.flip, { m with sum := x }, u⟩ :: ⟨d.flip, p, t⟩ :: path) := by
    rw [at_cons, Frame.fill, on_flip]
    exact h₁
  obtain ⟨s₂, hs₂, h₂⟩ := h₁'.modify (b := n') (u := fun c => { c with mark := true }) rfl
    fun _ _ _ => rfl
  have hparent : (s₂.nodes n.id).bind (·.parent) = some m.id := by
    rw [At, pointer_on] at h₂
    rw [show s₂.nodes n.id = _ from h₂.node]
    rfl
  obtain ⟨s₃, hs₃, h₃⟩ := h₂.markBlack_above
  change s₁.markRed n.id = some s₂ at hs₂
  change s₂.markBlack m.id = some s₃ at hs₃
  refine ⟨s₃, x, ?_, ?_⟩
  · obtain ⟨c, hc, hcp⟩ := Option.bind_eq_some_iff.mp hparent
    simp [DiscretePDF.rotateAbove, hs₁, hs₂, hc, hcp, hs₃]
  · have h₄ := at_cons.mp h₃
    rw [Frame.fill, on_flip] at h₄
    rw [at_swap, on_flip, on_flip]
    exact h₄

theorem At.reddenFarChild_eq (h : At o s (.node l a r) (⟨d, p, .on d.flip n near far⟩ :: path)) :
    s.reddenFarChild a.id n.id = if red near then some (s, n.id)
      else (pointer far).bind fun m => s.rotateAbove m n.id := by
  have hnode : s.nodes a.id = some (a.toNode (some p.id) (pointer l) (pointer r)) := h.rep.1
  obtain ⟨pc, hpc, hleft, hright⟩ := h.left_eq_iff (i := a.id) (by simp)
  change s.nodes p.id = some pc at hpc
  obtain ⟨hn, hnear, hfar⟩ := rep_on.mp (at_swap.mp h).rep
  simp only [DiscretePDF.reddenFarChild, hnode, hpc, hn, Label.toNode, Option.bind_eq_bind,
    Option.bind_some, hleft, hright]
  cases d with
  | left =>
    simp only [Side.flip, Side.pick, hnear.childIsBlack, hfar.childIsBlack, Option.bind_some]
    cases red near <;> simp
  | right =>
    simp only [Side.flip, Side.pick, hnear.childIsBlack, hfar.childIsBlack, Option.bind_some]
    cases red near <;> simp

/-- The sibling has its far child red in the end, and the same items below it. -/
theorem At.reddenFarChild (h : At o s (.node l a r) (⟨d, p, .on d.flip n near far⟩ :: path))
    (hred : ¬ (red near = false ∧ red far = false)) : ∃ s' n' near' far',
      s.reddenFarChild a.id n.id = some (s', n'.id) ∧
      At o s' (.node l a r) (⟨d, p, .on d.flip n' near' far'⟩ :: path) ∧ near' ≠ .nil ∧
      (n.mark = false → n'.mark = false) ∧
      entries (.on d.flip n' near' far') = entries (.on d.flip n near far) ∧
      (SumsOk (.on d.flip n near far) → SumsOk near' ∧ SumsOk far') := by
  rw [h.reddenFarChild_eq]
  cases hnear : red near with
  | true =>
    refine ⟨s, n, near, far, rfl, h, ?_, id, rfl, fun hok => (sumsOk_on.mp hok).2⟩
    rintro rfl
    cases hnear
  | false =>
    cases far with
    | nil => exact absurd ⟨hnear, rfl⟩ hred
    | node x m y =>
      obtain ⟨u, v, hon⟩ := exists_on d m x y
      rw [hon] at h ⊢
      obtain ⟨s', z, hs', h'⟩ := h.rotateAbove
      refine ⟨s', _, _, _, ?_, h', ?_, fun _ => rfl, ?_, fun hok => ?_⟩
      · rw [pointer_on]
        exact hs'
      · cases d <;> exact fun heq => nomatch heq
      · cases d <;> simp [entries_on, Side.pick, Side.flip, Label.entry]
      · obtain ⟨-, hnear', hfar⟩ := sumsOk_on.mp hok
        obtain ⟨-, hu, hv⟩ := sumsOk_on.mp hfar
        exact ⟨sumsOk_on.mpr ⟨add_right_comm _ _ _, hnear', hv⟩, hu⟩

/-- The last case of `lengthen`. -/
theorem At.lengthenRedChild (h : At o s (.node l a r) (⟨d, p, .on d.flip n near far⟩ :: path))
    (hred : ¬ (red near = false ∧ red far = false)) (hroot : rootRed p.mark path = false)
    (hn : p.mark = true ∨ n.mark = false) : ∃ s' path',
      ((s.reddenFarChild a.id n.id).bind fun x => x.1.raiseSibling a.id x.2) = some s' ∧
      At o s' (.node l a r) path' ∧ Kept (⟨d, p, .on d.flip n near far⟩ :: path) path' ∧
      rootRed a.mark path' = false := by
  obtain ⟨s₁, n', near', far', hs₁, h₁, hnear, hmark, hentries, hok⟩ := h.reddenFarChild hred
  obtain ⟨s₂, x, y, hs₂, h₂⟩ := h₁.raiseSibling hnear
  refine ⟨s₂, _, by rw [hs₁]; exact hs₂, h₂, ⟨rfl, ?_, ?_, ?_⟩, ?_⟩
  · simp only [entriesBefore_cons, ← hentries]
    cases d <;> simp [Side.pick, Side.flip, entries_on, Label.entry]
  · simp only [entriesAfter_cons, ← hentries]
    cases d <;> simp [Side.pick, Side.flip, entries_on, Label.entry]
  · simp only [othersOk_cons]
    rintro ⟨hother, hpath⟩
    exact ⟨(hok hother).2, (hok hother).1.recolor, hpath⟩
  · cases path with
    | nil =>
      have hp : p.mark = false := hroot
      have hn' : n'.mark = false := hmark (hn.resolve_left (by rw [hp]; exact Bool.noConfusion))
      change (p.mark || n'.mark) = false
      rw [hp, hn']
      rfl
    | cons f path => exact hroot

theorem At.lengthenFrom {fuel : Nat} {i : Pointer} (h : At o s t path) (ht : pointer t = some i)
    (hroot : rootRed (red t) path = false) (hfuel : 0 < fuel)
    (hlen : red t = true ∨ path.length < fuel) : ∃ s' x path',
      DiscretePDF.lengthenFrom fuel s i = some s' ∧ At o s' (recolor x t) path' ∧
      Kept path path' ∧ rootRed x path' = false := by
  induction fuel generalizing s t i path with
  | zero => exact absurd hfuel (lt_irrefl 0)
  | succ fuel ih =>
    cases t with
    | nil => cases ht
    | node l a r =>
    obtain rfl := Option.some.inj ht
    have hblack : s.isBlack a.id = some !a.mark := Holds.isBlack (d := .left) h
    rw [DiscretePDF.lengthenFrom]
    simp only [hblack, Option.bind_eq_bind, Option.bind_some]
    rcases Bool.eq_false_or_eq_true a.mark with ha | ha
    · obtain ⟨s', hs', h'⟩ := At.modify (d := .left) (b := a.black)
        (u := fun c => { c with mark := false }) h rfl fun _ _ _ => rfl
      refine ⟨s', false, path, ?_, h', .refl _, ?_⟩
      · rw [ha]
        exact hs'
      · cases path with
        | nil => rfl
        | cons f path => exact hroot
    · cases path with
      | nil =>
        have hnode : s.nodes a.id = some (a.toNode none (pointer l) (pointer r)) := h.rep.1
        refine ⟨s, a.mark, [], ?_, h, .refl _, hroot⟩
        simp [ha, hnode, Label.toNode]
      | cons f path =>
        obtain ⟨d, p, c⟩ := f
        have hnode : s.nodes a.id = some (a.toNode (some p.id) (pointer l) (pointer r)) := h.rep.1
        obtain ⟨s₁, p', c', path₁, hs₁, h₁, hkept, hroot₁, hred⟩ := h.lengthenRedSibling hroot
        have hp' : p'.id = p.id := Option.some.inj hkept.parent
        have hlen' : path.length < fuel := by
          rcases hlen with hmark | hlen
          · exact absurd (ha.symm.trans hmark) Bool.noConfusion
          · exact Nat.lt_of_succ_lt_succ hlen
        have hup {s : DiscretePDF K W} {c₁ : BinTree (Label K W)}
            (h : At o s (.node l a r) (⟨d, p', c₁⟩ :: path₁)) (hc : entries c₁ = entries c')
            (hok : SumsOk c' → SumsOk c₁) : ∃ s' x path',
              DiscretePDF.lengthenFrom fuel s p.id = some s' ∧
              At o s' (recolor x (.node l a r)) path' ∧ Kept (⟨d, p, c⟩ :: path) path' ∧
              rootRed x path' = false := by
          obtain ⟨s', x, path₂, hs', h', hkept', hroot'⟩ := ih (t := .on d p' (.node l a r) c₁)
            (at_cons.mp h) (pointer_on.trans (congrArg some hp')) (by rwa [red_on])
            (Nat.zero_lt_of_lt hlen') (by
              rw [red_on]
              rcases hred with hmark | ⟨heq, -⟩
              · exact .inl hmark
              · exact .inr (heq ▸ hlen'))
          rw [recolor_on] at h'
          exact ⟨s', a.mark, ⟨d, { p' with mark := x }, c₁⟩ :: path₂, hs', at_cons.mpr h',
            hkept.trans (hkept'.cons rfl rfl hc hok), hroot'⟩
        simp only [hnode, ha, hs₁, h₁.sibling, Label.toNode, Option.bind_some]
        cases hc' : c' with
        | nil =>
          subst hc'
          exact hup h₁ rfl id
        | node x b y =>
          rw [hc'] at h₁ hkept hred hup
          have hb : s₁.nodes b.id = some (b.toNode (some p'.id) (pointer x) (pointer y)) :=
            (at_swap.mp h₁).rep.1
          obtain ⟨-, hx, hy⟩ := (at_swap.mp h₁).rep
          have hp : s₁.isBlack p.id = some !p'.mark := hp' ▸ h₁.isBlack_above
          have hredden : ∃ s₂, s₁.markRed b.id = some s₂ ∧
              At o s₂ (.node l a r) (⟨d, p', .node x b.red y⟩ :: path₁) :=
            h₁.modify_sibling (e := .left) rfl fun _ _ _ => rfl
          obtain ⟨s₂, hs₂, h₂⟩ := hredden
          have hentries : entries (.node x b.red y) = entries (.node x b y) := by
            simp [Label.entry, Label.red]
          simp only [show pointer (.node x b y) = some b.id from rfl, hb, Label.toNode,
            hx.childIsBlack, hy.childIsBlack, hp, hs₂, Option.bind_some, Bool.not_false,
            not_true_eq_false, if_false]
          by_cases hkids : red x = false ∧ red y = false
          · rw [if_pos (by simp [hkids])]
            rcases Bool.eq_false_or_eq_true p'.mark with hmark | hmark
            · obtain ⟨s₃, hs₃, h₃⟩ := h₂.markBlack_above
              refine ⟨s₃, a.mark, _, ?_, h₃, hkept.trans ((Kept.refl path₁).cons rfl rfl hentries id), ?_⟩
              · change s₂.markBlack p'.id = some s₃ at hs₃
                rw [hp'] at hs₃
                simpa [hmark] using hs₃
              · cases path₁ with
                | nil => rfl
                | cons f path₁ => exact hroot₁
            · rw [if_pos (by simp [hmark])]
              exact hup h₂ hentries id
          · rw [if_neg (by simpa using hkids)]
            obtain ⟨near, far, hon, hiff⟩ := exists_on_red d.flip x y b
            rw [hon] at h₁ hkept
            obtain ⟨s₃, path₃, hs₃, h₃, hkept₃, hroot₃⟩ := h₁.lengthenRedChild
              (fun h => hkids (hiff.mpr h)) hroot₁ (hred.imp id And.right)
            exact ⟨s₃, a.mark, path₃, hs₃, h₃, hkept.trans hkept₃, hroot₃⟩

theorem At.lengthen_red {i : Pointer} (h : At o s t path) (ht : pointer t = some i)
    (hred : red t = true) : ∃ s', s.lengthen i = some s' ∧ At o s' (blacken t) path := by
  cases t with
  | nil => cases ht
  | node l a r =>
    obtain rfl := Option.some.inj ht
    have hblack : s.isBlack a.id = some !a.mark := Holds.isBlack (d := .left) h
    obtain ⟨s', hs', h'⟩ := At.modify (d := .left) (b := a.black)
      (u := fun c => { c with mark := false }) h rfl fun _ _ _ => rfl
    refine ⟨s', ?_, h'⟩
    change a.mark = true at hred
    simp only [DiscretePDF.lengthen, DiscretePDF.lengthenFrom, hblack, hred, Option.bind_eq_bind,
      Option.bind_some]
    exact hs'

theorem At.lengthen {i : Pointer} (h : At o s t path) (ht : pointer t = some i)
    (hroot : rootRed (red t) path = false) : ∃ s' x path', s.lengthen i = some s' ∧
      At o s' (recolor x t) path' ∧ Kept path path' ∧ rootRed x path' = false :=
  h.lengthenFrom ht hroot (Nat.zero_lt_succ _) (.inr (Nat.lt_succ_of_le h.length_le))

end Lengthen

end Klee.DiscretePDF
