import Klee.Support.DiscretePDFInsert

/-! `remove` and `update` of a `DiscretePDF`. -/
namespace Klee.DiscretePDF

open Zipper BinTree

variable {K W : Type} {o : Pointer → Option (Node K W)} {s s' : DiscretePDF K W}
  {t c l r : BinTree (Label K W)} {path : List (Frame (Label K W))} {a : Label K W} {d : Side}

section Detach

abbrev keep (o : Pointer → Option (Node K W)) (i : Pointer) (x : Node K W) :
    Pointer → Option (Node K W) := Function.update o i (some x)

/-- Only the child is left at the place; the node's record stays in memory. -/
theorem Holds.drop {q : Option Pointer} {x : Node K W} (h : Holds o s (.on d a .nil c) path q)
    (hroot : s'.root = s.root) (hnext : s'.next = s.next)
    (hrep : Rep s'.nodes (parentOf path) c) (hrest : ∀ i ∉ ids c, s'.nodes i = s.nodes i)
    (hx : s.nodes a.id = some x) : Holds (keep o a.id x) s' c path q := by
  obtain ⟨hnodup, hpath, hdisj⟩ := nodup_plug.mp h.nodup
  obtain ⟨-, hc, -, hac, -⟩ := nodup_on.mp hnodup
  have hcmem {i : Pointer} (hi : i ∈ ids c) : i ∈ ids (.on d a .nil c) :=
    mem_ids_on.mpr (.inr (.inr hi))
  have hself : a.id ∈ ids (.on d a .nil c) := mem_ids_on.mpr (.inr (.inl rfl))
  have hmem {i : Pointer} : i ∈ ids (plug (.on d a .nil c) path) ↔
      i = a.id ∨ i ∈ ids (plug c path) := by
    simp only [mem_ids_plug, mem_ids_on, ids_nil, List.not_mem_nil, false_or, or_assoc]
  have hne {i : Pointer} (hi : i ∈ ids (plug c path)) : i ≠ a.id := by
    rintro rfl
    rcases mem_ids_plug.mp hi with hi | hi
    · exact hac hi
    · exact hdisj _ hself hi
  refine ⟨hroot.trans h.root, hrep, h.above.congr fun i hi => hrest i fun hic =>
    hdisj i (hcmem hic) hi, nodup_plug.mpr ⟨hc, hpath, fun i hi => hdisj i (hcmem hi)⟩,
    fun i hi => hnext ▸ h.lt_next i (hmem.mpr (.inr hi)), fun i hi => ?_, fun i hi => ?_⟩
  · rw [hrest i fun hic => hi (mem_ids_plug.mpr (.inl hic))]
    by_cases hia : i = a.id
    · subst hia
      rw [hx, keep, Function.update_self]
    · rw [h.outside i fun hin => hi ((hmem.mp hin).resolve_left hia), keep,
        Function.update_of_ne hia]
  · rw [keep, Function.update_of_ne (hne hi)]
    exact h.apart i (hmem.mpr (.inr hi))

/-- A node's only child is put in its place. -/
theorem At.detach (h : At o s (.on d a .nil c) path) : ∃ x s₁ s₂, s.nodes a.id = some x ∧
    x.parent = parentOf path ∧ x.mark = a.mark ∧
    (if x.left.isSome then x.left else x.right) = pointer c ∧
    s.assign (linkOf path) (pointer c) = some s₁ ∧ s₁.nodes a.id = some x ∧
    s₁.setChildParent (pointer c) (parentOf path) = some s₂ ∧ At (keep o a.id x) s₂ c path := by
  rw [At, pointer_on] at h
  have h₁ : Holds o (s.linkAt path (pointer c)) (.on d a .nil c) path (pointer c) := h.linkAt
  obtain ⟨hnode, -, hrepc⟩ := rep_on.mp h₁.rep
  have hadopt : ∃ s₂, (s.linkAt path (pointer c)).setChildParent (pointer c) (parentOf path) =
      some s₂ ∧ Holds (keep o a.id (a.toNode (parentOf path) (d.pick none (pointer c))
        (d.pick (pointer c) none))) s₂ c path (pointer c) := by
    cases c with
    | nil => exact ⟨_, rfl, h₁.drop rfl rfl trivial (fun _ _ => rfl) hnode⟩
    | node x b y =>
      obtain ⟨-, hc, -⟩ := nodup_on.mp (nodup_plug.mp h₁.nodup).1
      obtain ⟨-, -, hbx, hby, -⟩ := (nodup_on (d := .left)).mp hc
      obtain ⟨hb, hx, hy⟩ := hrepc
      refine ⟨_, modify_eq hb, h₁.drop rfl rfl ⟨set_nodes_self, ?_, ?_⟩ ?_ hnode⟩
      · exact hx.congr fun i hi => set_nodes_of_ne fun heq => hbx (heq ▸ hi)
      · exact hy.congr fun i hi => set_nodes_of_ne fun heq => hby (heq ▸ hi)
      · exact fun i hi => set_nodes_of_ne fun heq => hi (by simp [heq])
  obtain ⟨s₂, hs₂, h₂⟩ := hadopt
  refine ⟨_, _, s₂, h.node, rfl, rfl, ?_, h.assign, hnode, hs₂, h₂⟩
  cases d with
  | left => rfl
  | right => cases c <;> rfl

end Detach

section TakeOut

/-- How `takeOut` changes the tree around a place. -/
structure TakenOut [AddCommMonoid W] (a : Label K W) (c : BinTree (Label K W)) (path : List (Frame (Label K W)))
    (c' : BinTree (Label K W)) (path' : List (Frame (Label K W))) : Prop where
  kept : Kept path path'
  black : rootRed (red c') path' = false
  recolored : ∃ x, c' = recolor x c
  -- without `lengthen`, and where it only recolors
  red_node : a.mark = true → c' = c ∧ path' = path
  no_child : c = .nil → c' = .nil ∧ path' = path
  red_child : a.mark = false → red c = true → c' = blacken c ∧ path' = path

theorem rootRed_of_ne {x y : Bool} (h : rootRed x path = false) (hy : path = [] → y = false) :
    rootRed y path = false := by
  cases path with
  | nil => exact hy rfl
  | cons f path => exact h

/-- The node's record is still what it was. -/
theorem Holds.kept_node {x : Node K W} {i : Pointer} {q : Option Pointer}
    (h : Holds (keep o i x) s t path q) : s.nodes i = some x ∧ i ∉ ids (plug t path) := by
  have hout : i ∉ ids (plug t path) := fun hi => by
    have := h.apart i hi
    rw [keep, Function.update_self] at this
    cases this
  exact ⟨by rw [h.outside i hout, keep, Function.update_self], hout⟩

variable [AddCommMonoid W]

theorem At.adopt (h : At o s (.on d a .nil c) path) (hroot : rootRed a.mark path = false) :
    ∃ x s₁ s₂ c' path', s.nodes a.id = some x ∧ x.parent = parentOf path ∧
      (if x.left.isSome then x.left else x.right) = pointer c ∧
      s.assign (linkOf path) (pointer c) = some s₁ ∧ s₁.adopt a.id (pointer c) = some s₂ ∧
      At (keep o a.id x) s₂ c' path' ∧ TakenOut a c path c' path' := by
  obtain ⟨x, s₁, s₂, hx, hparent, hmark, hchild, hs₁, hx₁, hs₂, h₂⟩ := h.detach
  cases c with
  | nil =>
    obtain rfl := Option.some.inj hs₂
    exact ⟨x, s₁, s₁, .nil, path, hx, hparent, hchild, hs₁, rfl, h₂, .refl path,
      rootRed_of_ne hroot fun _ => rfl, ⟨false, rfl⟩, fun _ => ⟨rfl, rfl⟩, fun _ => ⟨rfl, rfl⟩,
      fun _ hred => Bool.noConfusion hred⟩
  | node l b r =>
    obtain ⟨hx₂, -⟩ := h₂.kept_node
    have hne : BinTree.node l b r ≠ .nil := by rintro ⟨⟩
    have hadopt : s₁.adopt a.id (some b.id) = if !a.mark then s₂.lengthen b.id else some s₂ := by
      rw [← hparent] at hs₂
      change s₁.modify b.id _ = some s₂ at hs₂
      simp only [DiscretePDF.adopt, hx₁, hs₂, DiscretePDF.isBlack, hx₂, hmark, Option.map_some,
        Option.bind_eq_bind, Option.bind_some]
    rcases Bool.eq_false_or_eq_true a.mark with ha | ha
    · rw [ha] at hadopt
      refine ⟨x, s₁, s₂, _, path, hx, hparent, hchild, hs₁, hadopt, h₂, .refl path,
        rootRed_of_ne hroot ?_, ⟨b.mark, rfl⟩, fun _ => ⟨rfl, rfl⟩, fun h => absurd h hne, fun h => ?_⟩
      · rintro rfl
        exact absurd (ha.symm.trans hroot) Bool.noConfusion
      · exact absurd (ha.symm.trans h) Bool.noConfusion
    · rw [ha] at hadopt
      rcases Bool.eq_false_or_eq_true b.mark with hb | hb
      · obtain ⟨s₃, hs₃, h₃⟩ := h₂.lengthen_red rfl hb
        exact ⟨x, s₁, s₃, _, path, hx, hparent, hchild, hs₁, hadopt.trans hs₃, h₃, .refl path,
          rootRed_of_ne hroot fun _ => rfl, ⟨false, rfl⟩,
          fun h => absurd (ha.symm.trans h) Bool.noConfusion, fun h => absurd h hne, fun _ _ => ⟨rfl, rfl⟩⟩
      · obtain ⟨s₃, m, path', hs₃, h₃, hkept, hroot'⟩ := h₂.lengthen rfl
          (rootRed_of_ne hroot fun _ => hb)
        exact ⟨x, s₁, s₃, _, path', hx, hparent, hchild, hs₁, hadopt.trans hs₃, h₃, hkept, hroot',
          ⟨m, rfl⟩, fun h => absurd (ha.symm.trans h) Bool.noConfusion, fun h => absurd h hne,
          fun _ h => absurd (hb.symm.trans h) Bool.noConfusion⟩

/-- The node at a place is taken out of the tree. -/
theorem At.takeOut (h : At (fun _ => none) s (.on d a .nil c) path) (hc : SumsOk c)
    (hothers : OthersOk path) (hroot : rootRed a.mark path = false) : ∃ s' t' c' path',
      s.takeOut (linkOf path) = some s' ∧ At (fun _ => none) s' t' [] ∧ SumsOk t' ∧
      TakenOut a c path c' path' ∧ skeleton t' = skeleton (plug c' path') := by
  obtain ⟨x, s₁, s₂, c', path', hx, hparent, hchild, hs₁, hs₂, h₂, htaken⟩ := h.adopt hroot
  obtain ⟨m, rfl⟩ := htaken.recolored
  obtain ⟨s₃, t', hs₃, h₃, hsums, hskel⟩ := h₂.propagateSumsUp hc.recolor
    (htaken.kept.others hothers)
  have hx₂ := h₂.kept_node.1
  obtain ⟨hx₃, hout⟩ := h₃.kept_node
  refine ⟨{ s₃ with nodes := Function.update s₃.nodes a.id none }, t', _, path', ?_, ?_, hsums,
    htaken, hskel⟩
  · have hfollow : s.follow (linkOf path) = some (some a.id) := by
      rw [← pointer_on (d := d) (a := a) (l := .nil) (r := c)]
      exact h.follow
    rw [htaken.kept.parent, ← hparent] at hs₃
    simp only [DiscretePDF.takeOut, hfollow, hx, hchild, hs₁, hs₂, hx₂, hs₃, Option.bind_eq_bind,
      Option.bind_some]
  · have hne {i : Pointer} (hi : i ∈ ids t') : i ≠ a.id := fun heq => hout (heq ▸ hi)
    refine ⟨h₃.root, h₃.rep.congr fun i hi => Function.update_of_ne (hne hi) _ _, trivial, h₃.nodup,
      h₃.lt_next, fun i hi => ?_, fun _ _ => rfl⟩
    by_cases hia : i = a.id
    · rw [hia]
      exact Function.update_self _ _ _
    · refine (Function.update_of_ne hia _ _).trans ((h₃.outside i hi).trans ?_)
      exact Function.update_of_ne hia _ _

theorem TakenOut.entries_eq {a : Label K W} {c' : BinTree (Label K W)}
    {path' : List (Frame (Label K W))} (h : TakenOut a c path c' path') :
    entries (plug c' path') = entriesBefore path ++ entries c ++ entriesAfter path := by
  obtain ⟨x, hx⟩ := h.recolored
  rw [entries_plug, h.kept.before, h.kept.after, hx, entries_recolor]

omit [AddCommMonoid W] in
theorem linkOf_relabel {a b : Label K W} {inner : List (Frame (Label K W))} (hid : b.id = a.id) :
    linkOf (inner ++ ⟨d, b, c⟩ :: path) = linkOf (inner ++ ⟨d, a, c⟩ :: path) := by
  cases inner with
  | nil =>
    change d.pick (Link.left b.id) (.right b.id) = d.pick (.left a.id) (.right a.id)
    rw [hid]
  | cons f inner => rfl

end TakeOut

section Remove

variable [LinearOrder K] {item : K} {w : W}

/-- The place of an item that is in the tree. -/
theorem At.lookup_mem (h : At o s t []) (hsearch : Search t) (hmem : (item, w) ∈ entries t) :
    ∃ l a r path, s.lookup item = some (linkOf path) ∧ At o s (.node l a r) path ∧
      plug (.node l a r) path = t ∧ a.entry = (item, w) := by
  obtain ⟨t', path, hlink, h', hplug, hfits, hend⟩ := h.lookup hsearch item
  rw [← hplug, entries_plug] at hmem
  have hbefore : (item, w) ∉ entriesBefore path := fun hin => lt_irrefl _ (hfits.before _ hin)
  have hafter : (item, w) ∉ entriesAfter path := fun hin => lt_irrefl _ (hfits.after _ hin)
  simp only [List.mem_append, hbefore, hafter, false_or, or_false] at hmem
  rcases hend with rfl | ⟨l, a, r, rfl, hkey⟩
  · cases hmem
  · refine ⟨l, a, r, path, hlink, h', hplug, ?_⟩
    rw [← hplug, search_iff, entries_plug] at hsearch
    have hsorted := (List.pairwise_append.mp (List.pairwise_append.mp hsearch).1).2.1
    have hnode : Search (.node l a r) := search_iff.mpr hsorted
    obtain ⟨hl, hr, -, -⟩ := hnode
    rw [entries_node, List.mem_append, List.mem_cons] at hmem
    rcases hmem with hin | heq | hin
    · exact absurd hkey.symm (hl _ hin).ne
    · exact heq.symm
    · exact absurd hkey (hr _ hin).ne

variable [AddCommMonoid W]

/-- The node that `remove` takes out is red, has a child or is the root. -/
def removesSafely (s : DiscretePDF K W) (item : K) : Option Bool := do
  let n ← ← s.follow (← s.removedLink item)
  let c ← s.nodes n
  return c.mark || c.left.isSome || c.right.isSome || c.parent.isNone

/-- What `remove` makes of the tree, but for the sums. -/
def Removes (safe : Bool) (t t' : BinTree (Label K W)) : Prop :=
  ∃ d a c path c' path', safe = (a.mark || (pointer c).isSome || (parentOf path).isNone) ∧
    (plug (.on d a .nil c) path).map Label.mark = t.map Label.mark ∧
    TakenOut a c path c' path' ∧ skeleton t' = skeleton (plug c' path')

theorem At.remove (h : At (fun _ => none) s t []) (hsums : SumsOk t) (hsearch : Search t)
    (hroot : red t = false) (hmem : (item, w) ∈ entries t) : ∃ s' t' safe,
      s.remove item = some s' ∧ s.removesSafely item = some safe ∧ At (fun _ => none) s' t' [] ∧
      SumsOk t' ∧ red t' = false ∧ Removes safe t t' ∧ ∃ before after,
        entries t = before ++ (item, w) :: after ∧ entries t' = before ++ after := by
  obtain ⟨l, a, r, path, hlookup, h₁, hplug, hentry⟩ := h.lookup_mem hsearch hmem
  have hnode : s.nodes a.id = some (a.toNode (parentOf path) (pointer l) (pointer r)) := h₁.rep.1
  have hfollow : s.follow (linkOf path) = some (some a.id) := h₁.follow
  rw [← hplug] at hsums hroot
  obtain ⟨⟨-, hl, hr⟩, hothers⟩ := sumsOk_plug hsums
  rw [red_plug] at hroot
  have hentries : entries t = entriesBefore path ++ (entries l ++ (item, w) :: entries r) ++
      entriesAfter path := by
    rw [← hplug, entries_plug, entries_node, hentry]
  simp only [DiscretePDF.remove, DiscretePDF.removesSafely, DiscretePDF.removedLink, hlookup, hfollow, hnode, Label.toNode,
    Option.bind_eq_bind, Option.bind_some]
  cases l with
  | nil =>
    obtain ⟨s', t', c', path', hs', h', hsums', htaken, hskel⟩ := At.takeOut (d := .left) h₁ hr
      hothers hroot
    refine ⟨s', t', _, hs', ?_, h', hsums', ?_, ⟨.left, a, r, path, c', path', rfl, ?_,
      htaken, hskel⟩, entriesBefore path, entries r ++ entriesAfter path, ?_, ?_⟩
    · simp [pointer, hfollow, hnode, Label.toNode]
    · rw [red_eq_of_skeleton hskel, red_plug]
      exact htaken.black
    · rw [← hplug]
      rfl
    · rw [hentries]
      simp
    · rw [entries_eq_of_skeleton hskel, htaken.entries_eq, List.append_assoc]
  | node x b y =>
    have hdown : At (fun _ => none) s (.node x b y) (⟨.left, a, r⟩ :: path) := at_cons.mpr h₁
    obtain ⟨l', m, inner, hright, hinner, hafter⟩ := hdown.rightmostFrom s.next
      ((Nat.le_add_right _ _).trans ((size_plug _ _).trans hdown.size_le))
    have hmax : At (fun _ => none) s (.node l' m .nil) (inner ++ ⟨.left, a, r⟩ :: path) :=
      at_append.mpr (hinner ▸ hdown)
    have hmaxnode : s.nodes m.id = some (m.toNode _ (pointer l') none) := hmax.rep.1
    have hmaxfollow : s.follow (linkOf (inner ++ ⟨.left, a, r⟩ :: path)) = some (some m.id) :=
      hmax.follow
    set a' : Label K W := { a with key := m.key, weight := m.weight }
    obtain ⟨s₁, hs₁, h₂⟩ := At.modify (d := .left) (b := a')
      (u := fun c => { c with key := m.key, weight := m.weight }) h₁ rfl fun _ _ _ => rfl
    have hdown' : At (fun _ => none) s₁ (.node x b y) (⟨.left, a', r⟩ :: path) := at_cons.mpr h₂
    have hmax' : At (fun _ => none) s₁ (.node l' m .nil) (inner ++ ⟨.left, a', r⟩ :: path) :=
      at_append.mpr (hinner ▸ hdown')
    rw [hinner] at hl
    obtain ⟨⟨-, hl', -⟩, hinnerok⟩ := sumsOk_plug hl
    have hplace : plug (.node l' m .nil) (inner ++ ⟨.left, a', r⟩ :: path) =
        plug (.node (.node x b y) a' r) path := by
      rw [plug_append, ← hinner]
      rfl
    obtain ⟨s', t', c', path', hs', h', hsums', htaken, hskel⟩ := At.takeOut (d := .right) hmax' hl'
      (by
        simp only [OthersOk, List.forall_mem_append, List.forall_mem_cons]
        exact ⟨hinnerok, hr, hothers⟩)
      (by
        have hred := congrArg red hplace
        rw [red_plug, red_plug] at hred
        exact hred.trans hroot)
    have hlink : linkOf (inner ++ ⟨.left, a', r⟩ :: path) = linkOf (inner ++ ⟨.left, a, r⟩ :: path) :=
      linkOf_relabel rfl
    have hparent : (parentOf (inner ++ ⟨.left, a', r⟩ :: path)).isNone = false ∧
        (parentOf (inner ++ ⟨.left, a, r⟩ :: path)).isNone = false := by
      cases inner <;> exact ⟨rfl, rfl⟩
    refine ⟨s', t', _, ?_, ?_, h', hsums', ?_, ⟨.right, m, l', _, c', path', rfl, ?_, htaken,
      hskel⟩, entriesBefore path ++ entries (.node x b y), entries r ++ entriesAfter path,
      ?_, ?_⟩
    · rw [show pointer (.node x b y) = some b.id from rfl]
      change (s.rightmostFrom s.next (linkOf (⟨.left, a, r⟩ :: path))).bind _ = _
      rw [hright, Option.bind_some, hmaxfollow, Option.bind_some, Option.bind_some, hmaxnode,
        Option.bind_some]
      rw [← hlink]
      exact (congrArg (Option.bind · _) hs₁).trans hs'
    · rw [show pointer (.node x b y) = some b.id from rfl]
      change ((s.rightmostFrom s.next (linkOf (⟨.left, a, r⟩ :: path))).bind _) = _
      rw [hright, Option.bind_some, hmaxfollow, Option.bind_some, Option.bind_some, hmaxnode,
        Option.bind_some, hparent.1]
      simp [Label.toNode, hparent.2]
    · rw [red_eq_of_skeleton hskel, red_plug]
      exact htaken.black
    · rw [show BinTree.on .right m .nil l' = .node l' m .nil from rfl, hplace, ← hplug]
      refine map_plug_congr ?_ path
      rfl
    · rw [hentries]
      simp
    · rw [entries_eq_of_skeleton hskel, htaken.entries_eq, hinner, entries_plug,
        entriesBefore_append, entriesAfter_append, entriesBefore_cons, entriesAfter_cons,
        entries_node, show entriesAfter inner = [] from congrArg (List.map _) hafter]
      simp [Side.pick, Label.entry, a']

theorem At.update {w₀ : W} (h : At (fun _ => none) s t []) (hsums : SumsOk t) (hsearch : Search t)
    (hmem : (item, w₀) ∈ entries t) : ∃ s' t', s.update item w = some s' ∧
      At (fun _ => none) s' t' [] ∧ SumsOk t' ∧ t'.map Label.mark = t.map Label.mark ∧
      ∃ before after, entries t = before ++ (item, w₀) :: after ∧
        entries t' = before ++ (item, w) :: after := by
  obtain ⟨l, a, r, path, hlookup, h₁, hplug, hentry⟩ := h.lookup_mem hsearch hmem
  have hfollow : s.follow (linkOf path) = some (some a.id) := h₁.follow
  rw [← hplug] at hsums
  obtain ⟨⟨-, hl, hr⟩, hothers⟩ := sumsOk_plug hsums
  obtain ⟨s₁, hs₁, h₂⟩ := At.modify (d := .left) (b := { a with weight := w })
    (u := fun c => { c with weight := w }) h₁ rfl fun _ _ _ => rfl
  obtain ⟨s', t', hs', h', hsums', hskel⟩ := h₂.propagateSumsUp_on hl hr hothers
  refine ⟨s', t', ?_, h', hsums', ?_, entriesBefore path ++ entries l,
    entries r ++ entriesAfter path, ?_, ?_⟩
  · simp only [DiscretePDF.update, hlookup, hfollow, hs₁, Option.bind_eq_bind, Option.bind_some]
    exact hs'
  · rw [mark_eq_of_skeleton hskel, ← hplug]
    refine map_plug_congr ?_ path
    rfl
  · rw [← hplug, entries_plug, entries_node, hentry]
    simp
  · rw [entries_eq_of_skeleton hskel, entries_plug]
    have hkey : a.key = item := congrArg Prod.fst hentry
    simp [on, Label.entry, hkey]

end Remove

end Klee.DiscretePDF
