import Klee.Support.DiscretePDFFixup

/-! The items of a `DiscretePDF` in order: the way to an item, and the sums above a place. -/
namespace Klee.DiscretePDF

open Zipper BinTree

variable {K W : Type} {o : Pointer → Option (Node K W)} {s s' : DiscretePDF K W}
  {t l r near far : BinTree (Label K W)} {path : List (Frame (Label K W))} {a : Label K W}
  {d : Side}

section Sums

def skeleton (t : BinTree (Label K W)) : BinTree ((K × W) × Bool) :=
  t.map fun a => (a.entry, a.mark)

theorem entries_eq_of_skeleton {t' : BinTree (Label K W)} (h : skeleton t' = skeleton t) :
    entries t' = entries t := by
  have hlist (t : BinTree (Label K W)) : entries t = (skeleton t).toList.map Prod.fst := by
    rw [skeleton, toList_map, List.map_map]
    rfl
  rw [hlist, hlist, h]

theorem mark_eq_of_skeleton {t' : BinTree (Label K W)} (h : skeleton t' = skeleton t) :
    t'.map Label.mark = t.map Label.mark := by
  have hmap (t : BinTree (Label K W)) : t.map Label.mark = (skeleton t).map Prod.snd := by
    rw [skeleton, map_map]
    rfl
  rw [hmap, hmap, h]

theorem red_eq_of_mark {t' : BinTree (Label K W)} (h : t'.map Label.mark = t.map Label.mark) :
    red t' = red t := by
  cases t <;> cases t' <;> simp_all [BinTree.map, red]

theorem red_eq_of_skeleton {t' : BinTree (Label K W)} (h : skeleton t' = skeleton t) :
    red t' = red t := red_eq_of_mark (mark_eq_of_skeleton h)

variable [AddCommMonoid W]

theorem At.propagateSumsUpFrom {fuel : Nat} (h : At o s t path) (hsums : SumsOk t)
    (hothers : OthersOk path) (hfuel : path.length ≤ fuel) : ∃ s' t',
      DiscretePDF.propagateSumsUpFrom fuel s (parentOf path) = some s' ∧ At o s' t' [] ∧ SumsOk t' ∧
      skeleton t' = skeleton (plug t path) := by
  induction path generalizing s t fuel with
  | nil =>
    refine ⟨s, t, ?_, h, hsums, rfl⟩
    cases fuel <;> rfl
  | cons f path ih =>
    obtain ⟨d, a, c⟩ := f
    cases fuel with
    | zero => exact absurd hfuel (Nat.not_succ_le_zero _)
    | succ fuel =>
      obtain ⟨hc, hothers⟩ := othersOk_cons.mp hothers
      have hup : At o s (.on d a t c) path := at_cons.mp h
      obtain ⟨s₁, hs₁, h₁⟩ := hup.setSum
      have hnode : (s₁.nodes a.id).map (·.parent) = some (parentOf path) := by
        rw [At, pointer_on] at h₁
        exact congrArg (Option.map _) h₁.node
      obtain ⟨s', t', hs', h', hsums', hskel⟩ := ih h₁ (sumsOk_on.mpr ⟨rfl, hsums, hc⟩) hothers
        (Nat.le_of_succ_le_succ hfuel)
      refine ⟨s', t', ?_, h', hsums', hskel.trans (map_plug_congr ?_ path)⟩
      · obtain ⟨x, hx, hparent⟩ := Option.map_eq_some_iff.mp hnode
        rw [show parentOf (⟨d, a, c⟩ :: path) = some a.id from rfl]
        simp only [DiscretePDF.propagateSumsUpFrom, hs₁, hx, hparent, hs', Option.bind_eq_bind,
          Option.bind_some]
      · rw [map_on, Frame.fill, map_on]
        rfl

/-- The sums are made right from a place up. -/
theorem At.propagateSumsUp (h : At o s t path) (hsums : SumsOk t) (hothers : OthersOk path) :
    ∃ s' t', s.propagateSumsUp (parentOf path) = some s' ∧ At o s' t' [] ∧ SumsOk t' ∧
      skeleton t' = skeleton (plug t path) :=
  h.propagateSumsUpFrom hsums hothers h.length_le

/-- The sums above a node whose children are right. -/
theorem At.propagateSumsUp_on (h : At o s (.on d a l r) path) (hl : SumsOk l) (hr : SumsOk r)
    (hothers : OthersOk path) : ∃ s' t', s.propagateSumsUp (some a.id) = some s' ∧ At o s' t' [] ∧
      SumsOk t' ∧ skeleton t' = skeleton (plug (.on d a l r) path) := by
  have hdown : At o s l (⟨d, a, r⟩ :: path) := at_cons.mpr h
  exact hdown.propagateSumsUp hl (othersOk_cons.mpr ⟨hr, hothers⟩)

theorem sumsOk_plug (h : SumsOk (plug t path)) : SumsOk t ∧ OthersOk path := by
  induction path generalizing t with
  | nil => exact ⟨h, othersOk_nil⟩
  | cons f path ih =>
    obtain ⟨hfill, hpath⟩ := ih h
    obtain ⟨-, ht, hother⟩ := sumsOk_on.mp hfill
    exact ⟨ht, othersOk_cons.mpr ⟨hother, hpath⟩⟩

theorem SumsOk.sumOf_eq (h : SumsOk t) : sumOf t = ((entries t).map Prod.snd).sum := by
  induction t with
  | nil => rfl
  | node l a r ihl ihr =>
    obtain ⟨ha, hl, hr⟩ := h
    rw [sumOf, ha, ihl hl, ihr hr, entries_node]
    simp only [List.map_append, List.map_cons, List.sum_append, List.sum_cons, Label.entry]
    rw [← add_assoc, add_comm a.weight]

end Sums

section Rightmost

theorem at_append {rest : List (Frame (Label K W))} :
    At o s t (path ++ rest) ↔ At o s (plug t path) rest := by
  induction path generalizing t with
  | nil => exact Iff.rfl
  | cons f path ih => exact at_cons.trans ih

/-- The largest item of a tree is at the end of its right branch. -/
theorem At.rightmostFrom (h : At o s (.node l a r) path) (fuel : Nat)
    (hfuel : (node l a r).size ≤ fuel) : ∃ l' b inner,
      s.rightmostFrom fuel (linkOf path) = some (linkOf (inner ++ path)) ∧
      .node l a r = plug (.node l' b .nil) inner ∧ after inner = [] := by
  induction fuel generalizing l a r path with
  | zero => exact absurd hfuel (Nat.not_succ_le_zero _)
  | succ fuel ih =>
    have hnode : s.nodes a.id = some (a.toNode (parentOf path) (pointer l) (pointer r)) := h.rep.1
    simp only [DiscretePDF.rightmostFrom, h.follow, Option.bind_eq_bind, Option.bind_some,
      show pointer (.node l a r) = some a.id from rfl, hnode, Label.toNode]
    cases r with
    | nil => exact ⟨l, a, [], rfl, rfl, rfl⟩
    | node x b y =>
      have hdown : At o s (.node x b y) (⟨.right, a, l⟩ :: path) := at_cons.mpr h
      obtain ⟨l', b', inner, hs, hplug, hafter⟩ := ih hdown (by
        simp only [size] at hfuel ⊢
        omega)
      refine ⟨l', b', inner ++ [⟨.right, a, l⟩], ?_, ?_, ?_⟩
      · rw [List.append_assoc]
        exact hs
      · rw [plug_append, ← hplug]
        rfl
      · rw [after_append, hafter]
        rfl

end Rightmost

variable [LinearOrder K] {item : K}

section Order

def Sorted (L : List (K × W)) : Prop := L.Pairwise fun x y => x.1 < y.1

def Search : BinTree (Label K W) → Prop
  | .nil => True
  | .node l a r => (∀ x ∈ entries l, x.1 < a.key) ∧ (∀ x ∈ entries r, a.key < x.1) ∧
      Search l ∧ Search r

theorem search_iff : Search t ↔ Sorted (entries t) := by
  induction t with
  | nil => exact iff_of_true trivial List.Pairwise.nil
  | node l a r ihl ihr =>
    rw [Search, ihl, ihr, Sorted, Sorted, Sorted, entries_node, List.pairwise_append,
      List.pairwise_cons]
    constructor
    · rintro ⟨hl, hr, hsl, hsr⟩
      refine ⟨hsl, ⟨hr, hsr⟩, fun x hx y hy => ?_⟩
      rcases List.mem_cons.mp hy with rfl | hy
      · exact hl x hx
      · exact (hl x hx).trans (hr y hy)
    · rintro ⟨hsl, ⟨hr, hsr⟩, hdisj⟩
      exact ⟨fun x hx => hdisj x hx _ List.mem_cons_self, hr, hsl, hsr⟩

structure Fits (item : K) (path : List (Frame (Label K W))) : Prop where
  before : ∀ x ∈ entriesBefore path, x.1 < item
  after : ∀ x ∈ entriesAfter path, item < x.1

theorem fits_nil : Fits item ([] : List (Frame (Label K W))) := ⟨by simp, by simp⟩

def toward (item key : K) : Side := if item < key then .left else .right

theorem toward_pick {γ : Type} {key : K} {x y : γ} :
    (toward item key).pick x y = if item < key then x else y := by
  unfold toward
  split <;> rfl

theorem exists_toward (item : K) (l r : BinTree (Label K W)) (a : Label K W) : ∃ d near far,
    BinTree.node l a r = .on d a near far ∧ d = toward item a.key := by
  obtain ⟨near, far, h⟩ := exists_on (toward item a.key) a l r
  exact ⟨_, near, far, h, rfl⟩

theorem Fits.cons (h : Fits item path) (hsearch : Search (.on d a near far)) (hne : a.key ≠ item)
    (hd : d = toward item a.key) : Fits item (⟨d, a, far⟩ :: path) := by
  unfold toward at hd
  split at hd <;> subst hd
  · next hlt =>
    obtain ⟨-, hfar, -, -⟩ := hsearch
    refine ⟨by simpa [Side.pick] using h.before, ?_⟩
    simp only [entriesAfter_cons, Side.pick, List.cons_append, List.forall_mem_cons,
      List.forall_mem_append]
    exact ⟨hlt, fun x hx => hlt.trans (hfar x hx), h.after⟩
  · next hlt =>
    obtain ⟨hfar, -, -, -⟩ := hsearch
    have hlt' : a.key < item := lt_of_le_of_ne (not_lt.mp hlt) hne
    refine ⟨?_, by simpa [Side.pick] using h.after⟩
    simp only [entriesBefore_cons, Side.pick, List.forall_mem_append, List.forall_mem_singleton]
    exact ⟨h.before, fun x hx => (hfar x hx).trans hlt', hlt'⟩

/-- A frame above tells the side of the item. -/
theorem Fits.toward (h : Fits item (⟨d, a, far⟩ :: path)) :
    d = toward item a.key ∧ a.key ≠ item ∧ Fits item path := by
  obtain ⟨hbefore, hafter⟩ := h
  rw [entriesBefore_cons, List.forall_mem_append] at hbefore
  rw [entriesAfter_cons, List.forall_mem_append] at hafter
  unfold DiscretePDF.toward
  cases d with
  | left =>
    have hlt : item < a.key := hafter.1 a.entry List.mem_cons_self
    exact ⟨(if_pos hlt).symm, hlt.ne', hbefore.1, hafter.2⟩
  | right =>
    have hlt : a.key < item :=
      hbefore.2 a.entry (List.mem_append_right _ (List.mem_singleton_self _))
    exact ⟨(if_neg hlt.not_gt).symm, hlt.ne, hbefore.1, hafter.2⟩

theorem search_on : Search (.on d a l r) → Search l ∧ Search r := by
  cases d with
  | left => exact fun h => h.2.2
  | right => exact fun h => h.2.2.symm

end Order

section Lookup

theorem At.lookupFrom {fuel : Nat} (h : At o s t path) (hsearch : Search t)
    (hfits : Fits item path) (hfuel : t.size < fuel) : ∃ t' path',
      s.lookupFrom item fuel (linkOf path) = some (linkOf path') ∧ At o s t' path' ∧
      plug t' path' = plug t path ∧ Fits item path' ∧
      (t' = .nil ∨ ∃ l a r, t' = .node l a r ∧ a.key = item) := by
  induction fuel generalizing t path with
  | zero => exact absurd hfuel (Nat.not_lt_zero _)
  | succ fuel ih =>
    simp only [DiscretePDF.lookupFrom, h.follow, Option.bind_eq_bind, Option.bind_some]
    cases t with
    | nil => exact ⟨.nil, path, rfl, h, rfl, hfits, .inl rfl⟩
    | node l a r =>
      have hnode : s.nodes a.id = some (a.toNode (parentOf path) (pointer l) (pointer r)) := h.rep.1
      simp only [pointer, hnode, Label.toNode, Option.bind_some]
      by_cases hkey : a.key = item
      · exact ⟨_, path, if_pos hkey, h, rfl, hfits, .inr ⟨l, a, r, rfl, hkey⟩⟩
      · rw [if_neg hkey, ← toward_pick]
        obtain ⟨d, near, far, hon, hd⟩ := exists_toward item l r a
        rw [hon] at h hsearch hfuel ⊢
        have hdown : At o s near (⟨d, a, far⟩ :: path) := at_cons.mpr h
        obtain ⟨t', path', hs, h', hplug, hfits', hend⟩ := ih hdown (search_on hsearch).1
          (hfits.cons hsearch hkey hd) (by
            rw [size_on] at hfuel
            omega)
        exact ⟨t', path', hd ▸ hs, h', hplug, hfits', hend⟩

theorem At.lookup (h : At o s t []) (hsearch : Search t) (item : K) : ∃ t' path',
    s.lookup item = some (linkOf path') ∧ At o s t' path' ∧ plug t' path' = t ∧ Fits item path' ∧
      (t' = .nil ∨ ∃ l a r, t' = .node l a r ∧ a.key = item) :=
  h.lookupFrom hsearch fits_nil (Nat.lt_succ_of_le h.size_le)

theorem toward_link {p : Label K W} {c : BinTree (Label K W)} (hd : d = toward item p.key) :
    (if item < p.key then Link.left p.id else .right p.id) = linkOf (⟨d, p, c⟩ :: path) := by
  rw [← toward_pick, ← hd]
  rfl

end Lookup

end Klee.DiscretePDF
