import Klee.Support.DiscretePDFSearch
import Mathlib.Logic.Relation

/-! `insert` of a `DiscretePDF`: the loop goes down to where the item belongs, and splits on its
way. -/
namespace Klee.DiscretePDF

open Zipper BinTree

variable {K W : Type} [AddCommMonoid W]

section NewNode

/-- The new node, as `insert` links it. -/
def newLabel (s : DiscretePDF K W) (item : K) (w : W) : Label K W := ⟨s.next, item, w, 0, false⟩

def withNew (s : DiscretePDF K W) (p : Option Pointer) (item : K) (w : W) : DiscretePDF K W :=
  { s with
    nodes := Function.update s.nodes s.next (some ((newLabel s item w).toNode p none none))
    next := s.next + 1 }

variable {o : Pointer → Option (Node K W)} {s : DiscretePDF K W}
  {path : List (Frame (Label K W))}

/-- A new node is in no tree yet. -/
theorem At.new_node (h : At o s .nil path) (ho : o s.next = none) (item : K) (w : W) :
    Holds o (s.withNew (parentOf path) item w) (.node .nil (newLabel s item w) .nil) path none := by
  have hfresh : ∀ i ∈ ids (plug .nil path), i ≠ s.next := fun i hi => (h.lt_next i hi).ne
  have hmem {i : Pointer} : i ∈ ids (plug (.node .nil (newLabel s item w) .nil) path) ↔
      i = s.next ∨ i ∈ ids (plug .nil path) := by
    simp only [mem_ids_plug, mem_ids_node, ids_nil, List.not_mem_nil, newLabel]
    tauto
  obtain ⟨-, haround, -⟩ := nodup_plug.mp h.nodup
  have hnew : s.next ∉ around path := fun hi => hfresh _ (mem_ids_plug.mpr (.inr hi)) rfl
  refine ⟨h.root, ⟨Function.update_self _ _ _, trivial, trivial⟩,
    h.above.congr fun i hi => Function.update_of_ne
      (fun (heq : i = s.next) => hnew (heq ▸ hi)) _ _,
    nodup_plug.mpr ⟨by simp [ids, toList], haround, fun i hi => ?_⟩, fun i hi => ?_, fun i hi => ?_,
    fun i hi => ?_⟩
  · obtain rfl : i = s.next := by simpa [ids, toList, newLabel] using hi
    exact hnew
  · rcases hmem.mp hi with rfl | hi
    · exact Nat.lt_succ_self _
    · exact Nat.lt_succ_of_lt (h.lt_next i hi)
  · rw [hmem, not_or] at hi
    exact (Function.update_of_ne hi.1 _ _).trans (h.outside i hi.2)
  · rcases hmem.mp hi with rfl | hi
    · exact ho
    · exact h.apart i hi

end NewNode

variable [LinearOrder K]

section Descent

abbrev Place (K W : Type) := BinTree (Label K W) × List (Frame (Label K W))

inductive Descends (item : K) : Place K W → Place K W → Prop
  | pass (d : Side) (near : BinTree (Label K W)) (a : Label K W) (far : BinTree (Label K W))
      (path : List (Frame (Label K W))) (hd : d = toward item a.key)
      (hkids : ¬ (red near = true ∧ red far = true)) :
      Descends item (.on d a near far, path) (near, ⟨d, a, far⟩ :: path)
  | split (d : Side) (near : BinTree (Label K W)) (a : Label K W) (far : BinTree (Label K W))
      (path : List (Frame (Label K W))) (x : Bool) (path' : List (Frame (Label K W)))
      (hd : d = toward item a.key) (hkids : red near = true ∧ red far = true)
      (h : SplitsAbove path x path') :
      Descends item (.on d a near far, path)
        (blacken near, ⟨d, { a with mark := x }, blacken far⟩ :: path')
  | bentNear (d : Side) (near : BinTree (Label K W)) (a : Label K W) (far : BinTree (Label K W))
      (p g : Label K W) (c c' : BinTree (Label K W)) (path : List (Frame (Label K W))) (x y z : W)
      (hd : d = toward item a.key) (hkids : red near = true ∧ red far = true) (hp : p.mark = true)
      (hy : y = g.weight + sumOf near + sumOf c') (hz : z = p.weight + sumOf far + sumOf c) :
      Descends item (.on d a near far, ⟨d, p, c⟩ :: ⟨d.flip, g, c'⟩ :: path)
        (blacken near, ⟨d.flip, { g with sum := y, mark := true }, c'⟩ ::
          ⟨d, { a with sum := x, mark := false }, .on d { p with sum := z } (blacken far) c⟩ :: path)
  | bentFar (d : Side) (near : BinTree (Label K W)) (a : Label K W) (far : BinTree (Label K W))
      (p g : Label K W) (c c' : BinTree (Label K W)) (path : List (Frame (Label K W))) (x y z : W)
      (hd : d.flip = toward item a.key) (hkids : red near = true ∧ red far = true)
      (hp : p.mark = true) (hy : y = g.weight + sumOf near + sumOf c')
      (hz : z = p.weight + sumOf far + sumOf c) :
      Descends item (.on d a near far, ⟨d, p, c⟩ :: ⟨d.flip, g, c'⟩ :: path)
        (blacken far, ⟨d, { p with sum := z }, c⟩ :: ⟨d.flip, { a with sum := x, mark := false },
          .on d.flip { g with sum := y, mark := true } (blacken near) c'⟩ :: path)

structure Seeks (item : K) (x : Place K W) : Prop where
  black : rootRed (red x.1) x.2 = false
  sums : SumsOk x.1
  others : OthersOk x.2
  sorted : Sorted (entriesBefore x.2 ++ entries x.1 ++ entriesAfter x.2)
  fits : Fits item x.2
  absent : ∀ y ∈ entries x.1, y.1 ≠ item

variable {item : K} {near far c c' : BinTree (Label K W)} {path path' : List (Frame (Label K W))}
  {a p g : Label K W} {d : Side} {x y : Place K W}

/-- In the order of the items, a step goes to a child. -/
theorem Descends.order (h : Descends item x y) : ∃ e b near far, x.1 = .on e b near far ∧
    e = toward item b.key ∧ entries y.1 = entries near ∧
    entriesBefore y.2 = entriesBefore (⟨e, b, far⟩ :: x.2) ∧
    entriesAfter y.2 = entriesAfter (⟨e, b, far⟩ :: x.2) := by
  cases h with
  | pass d near a far path hd hkids => exact ⟨d, a, near, far, rfl, hd, rfl, rfl, rfl⟩
  | split d near a far path m path' hd hkids h =>
    have hkept := h.kept.cons (d := d) (b := { a with mark := m }) (a := a) rfl rfl
      (entries_recolor (x := false) (t := far)) SumsOk.recolor
    exact ⟨d, a, near, far, rfl, hd, entries_recolor, hkept.before, hkept.after⟩
  | bentNear d near a far p g c c' path x y z hd hkids hp hy hz =>
    refine ⟨d, a, near, far, rfl, hd, entries_recolor, ?_, ?_⟩
    · cases d <;> simp [Side.pick, Side.flip, entries_on, Label.entry]
    · cases d <;> simp [Side.pick, Side.flip, entries_on, Label.entry]
  | bentFar d near a far p g c c' path x y z hd hkids hp hy hz =>
    refine ⟨d.flip, a, far, near, (on_flip d a near far).symm, hd, entries_recolor, ?_, ?_⟩
    · cases d <;> simp [Side.pick, Side.flip, entries_on, Label.entry]
    · cases d <;> simp [Side.pick, Side.flip, entries_on, Label.entry]

theorem Descends.black (h : Descends item x y) (hx : rootRed (red x.1) x.2 = false) :
    rootRed (red y.1) y.2 = false := by
  cases h with
  | pass d near a far path hd hkids => rwa [red_on] at hx
  | split d near a far path m path' hd hkids h => exact h.rootRed (by rwa [red_on] at hx)
  | bentNear d near a far p g c c' path x y z hd hkids hp hy hz =>
    cases path with
    | nil => rfl
    | cons f path => exact hx
  | bentFar d near a far p g c c' path x y z hd hkids hp hy hz =>
    cases path with
    | nil => rfl
    | cons f path => exact hx

theorem Descends.sums (h : Descends item x y) (hsums : SumsOk x.1) (hothers : OthersOk x.2) :
    SumsOk y.1 ∧ OthersOk y.2 := by
  cases h with
  | pass d near a far path hd hkids =>
    obtain ⟨-, hnear, hfar⟩ := sumsOk_on.mp hsums
    exact ⟨hnear, othersOk_cons.mpr ⟨hfar, hothers⟩⟩
  | split d near a far path m path' hd hkids h =>
    obtain ⟨-, hnear, hfar⟩ := sumsOk_on.mp hsums
    exact ⟨hnear.recolor, othersOk_cons.mpr ⟨hfar.recolor, h.kept.others hothers⟩⟩
  | bentNear d near a far p g c c' path x y z hd hkids hp hy hz =>
    obtain ⟨-, hnear, hfar⟩ := sumsOk_on.mp hsums
    simp only [othersOk_cons, sumsOk_on, sumOf_recolor] at hothers ⊢
    exact ⟨hnear.recolor, hothers.2.1, ⟨hz, hfar.recolor, hothers.1⟩, hothers.2.2⟩
  | bentFar d near a far p g c c' path x y z hd hkids hp hy hz =>
    obtain ⟨-, hnear, hfar⟩ := sumsOk_on.mp hsums
    simp only [othersOk_cons, sumsOk_on, sumOf_recolor] at hothers ⊢
    exact ⟨hfar.recolor, hothers.1, ⟨hy, hnear.recolor, hothers.2.1⟩, hothers.2.2⟩

theorem Descends.size_lt (h : Descends item x y) : y.1.size < x.1.size := by
  have hsize (t : BinTree (Label K W)) : (blacken t).size = t.size := by
    cases t <;> rfl
  cases h <;> simp only [size_on, hsize] <;> omega

theorem Descends.seeks (h : Descends item x y) (hx : Seeks item x) : Seeks item y := by
  obtain ⟨hsums, hothers⟩ := h.sums hx.sums hx.others
  obtain ⟨e, b, near, far, ht, he, hentries, hbefore, hafter⟩ := h.order
  have habsent := hx.absent
  have hsorted := hx.sorted
  have hsearch : Search x.1 :=
    search_iff.mpr (List.pairwise_append.mp (List.pairwise_append.mp hsorted).1).2.1
  rw [ht] at hsearch habsent
  have hkey : b.key ≠ item := habsent b.entry (by simp [entries_on])
  have hfits := hx.fits.cons hsearch hkey he
  refine ⟨h.black hx.black, hsums, hothers, ?_, ⟨?_, ?_⟩, ?_⟩
  · rw [hentries, hbefore, hafter, ← entries_plug, plug_cons]
    rw [ht, ← entries_plug] at hsorted
    exact hsorted
  · rw [hbefore]
    exact hfits.before
  · rw [hafter]
    exact hfits.after
  · rw [hentries]
    intro z hz
    refine habsent z ?_
    rw [entries_on]
    cases e <;> simp [Side.pick, hz]

theorem Descends.entries_eq (h : Descends item x y) : entriesBefore y.2 ++ entries y.1 ++
    entriesAfter y.2 = entriesBefore x.2 ++ entries x.1 ++ entriesAfter x.2 := by
  obtain ⟨e, b, near, far, ht, -, hentries, hbefore, hafter⟩ := h.order
  rw [hentries, hbefore, hafter, ht, ← entries_plug, ← entries_plug, plug_cons]
  rfl

end Descent

section Loop

variable {o : Pointer → Option (Node K W)} {s : DiscretePDF K W} {item : K}
  {t near far : BinTree (Label K W)} {path : List (Frame (Label K W))} {a : Label K W} {d : Side}
  {fuel : Nat} {q : Option Pointer}

/-- The rest of a round of the loop, after `split`. -/
def insertRest (item : K) (fuel : Nat) (s : DiscretePDF K W) (n : Pointer) :
    Option (DiscretePDF K W × Option Pointer) := do
  let c ← s.nodes n
  if c.key = item then none
  else insertLoop item fuel s (some n) (if item < c.key then c.left else c.right)

theorem At.insertLoop_eq (h : At o s (.on d a near far) path) :
    insertLoop item (fuel + 1) s q (some a.id) =
      (if red near && red far then s.split a.id else some s).bind
        fun s => insertRest item fuel s a.id := by
  rw [At, pointer_on] at h
  obtain ⟨hnode, hnear, hfar⟩ := rep_on.mp h.rep
  simp only [insertLoop, hnode, Label.toNode, Option.bind_eq_bind, Option.bind_some]
  cases d <;> simp only [Side.pick, hnear.childIsBlack, hfar.childIsBlack, Option.bind_some,
    Bool.not_not]
  · rfl
  · rw [Bool.and_comm]
    rfl

theorem At.insertRest_eq (h : At o s (.on d a near far) path) (hkey : a.key ≠ item)
    (hd : d = toward item a.key) :
    insertRest item fuel s a.id = insertLoop item fuel s (some a.id) (pointer near) := by
  rw [At, pointer_on] at h
  simp only [insertRest, h.node, Label.toNode, Option.bind_eq_bind, Option.bind_some]
  rw [if_neg hkey, ← toward_pick, ← hd]
  cases d <;> rfl

/-- A round that does not split. -/
theorem At.insertLoop_pass (h : At o s (.on d a near far) path) (hkey : a.key ≠ item)
    (hd : d = toward item a.key) (hkids : ¬ (red near = true ∧ red far = true)) :
    insertLoop item (fuel + 1) s q (some a.id) =
      insertLoop item fuel s (some a.id) (pointer near) := by
  rw [h.insertLoop_eq, if_neg (by simpa using hkids), Option.bind_some, h.insertRest_eq hkey hd]

theorem At.insertLoop_split {s' : DiscretePDF K W} {near' far' : BinTree (Label K W)}
    {path' : List (Frame (Label K W))} {b : Label K W} {e : Side}
    (h : At o s (.on d a near far) path) (hkids : red near = true ∧ red far = true)
    (hs : s.split a.id = some s') (h' : At o s' (.on e b near' far') path') (hid : b.id = a.id)
    (hkey : b.key ≠ item) (he : e = toward item b.key) :
    insertLoop item (fuel + 1) s q (some a.id) =
      insertLoop item fuel s' (some a.id) (pointer near') := by
  rw [h.insertLoop_eq, if_pos (by simp [hkids]), hs, Option.bind_some, ← hid,
    h'.insertRest_eq hkey he]

/-- Two rounds, past the node that `split` has put below; its child on the way is black. -/
theorem At.insertLoop_bent {s' : DiscretePDF K W} {u v w : BinTree (Label K W)}
    {path' : List (Frame (Label K W))} {b m : Label K W} {e e' : Side}
    (h : At o s (.on d a near far) path) (hkids : red near = true ∧ red far = true)
    (hs : s.split a.id = some s') (h' : At o s' (.on e b (.on e' m (blacken u) v) w) path')
    (hid : b.id = a.id) (hb : e = toward item b.key ∧ b.key ≠ item)
    (hm : e' = toward item m.key ∧ m.key ≠ item) :
    insertLoop item (fuel + 2) s q (some a.id) =
      insertLoop item fuel s' (some m.id) (pointer (blacken u)) := by
  have hm' : At o s' (.on e' m (blacken u) v) (⟨e, b, w⟩ :: path') := at_cons.mpr h'
  have hblack : ¬ (red (blacken u) = true ∧ red v = true) := by
    cases u with
    | nil => exact fun h => Bool.noConfusion h.1
    | node l a r => exact fun h => Bool.noConfusion h.1
  rw [h.insertLoop_split hkids hs h' hid hb.2 hb.1, pointer_on,
    hm'.insertLoop_pass hm.2 hm.1 hblack]

theorem At.insertLoop_step (h : At o s (.on d a near far) path)
    (hseek : Seeks item (.on d a near far, path)) (hd : d = toward item a.key) : ∃ s' y j,
      Descends item (.on d a near far, path) y ∧ At o s' y.1 y.2 ∧ j ≤ 2 ∧ ∀ fuel q,
        insertLoop item (fuel + j) s q (some a.id) =
          insertLoop item fuel s' (parentOf y.2) (pointer y.1) := by
  have hkey : a.key ≠ item := hseek.absent a.entry (by simp [entries_on])
  by_cases hkids : red near = true ∧ red far = true
  · obtain ⟨l, r, hon⟩ : ∃ l r, on d a near far = .node l a r := by
      cases d
      · exact ⟨near, far, rfl⟩
      · exact ⟨far, near, rfl⟩
    have hroot : rootRed a.mark path = false := by
      have := hseek.black
      rwa [red_on] at this
    obtain ⟨s', t', path', hs, h', hsplit⟩ := At.split (hon ▸ h) hroot
    rw [← hon] at hsplit
    generalize ht : on d a near far = t at hsplit
    cases hsplit with
    | stay l b r path x path' habove =>
      have hleft : on d a near far = .on .left b l r := ht
      obtain ⟨rfl, hsides⟩ := on_inj hleft
      have hstay : node (blacken l) { a with mark := x } (blacken r) =
          .on d { a with mark := x } (blacken near) (blacken far) := by
        rcases hsides with ⟨rfl, rfl, rfl⟩ | ⟨rfl, rfl, rfl⟩ <;> rfl
      rw [hstay] at h'
      rw [← ht]
      exact ⟨s', _, 1, .split d near a far path x path' hd hkids habove, at_cons.mpr h', by decide,
        fun fuel q => h.insertLoop_split hkids hs h' rfl hkey hd⟩
    | bent near' b far' e p g c c' path x hp =>
      obtain ⟨rfl, hsides⟩ := on_inj ht
      obtain ⟨hp', hpkey, hfits⟩ := hseek.fits.toward
      obtain ⟨hg', hgkey, -⟩ := hfits.toward
      rcases hsides with ⟨rfl, rfl, rfl⟩ | ⟨rfl, rfl, rfl⟩
      · refine ⟨s', _, 2, .bentNear d near a far p g c c' path' x _ _ hd hkids hp ?_ ?_,
          at_cons.mpr (at_cons.mpr h'), le_rfl,
          fun fuel q => h.insertLoop_bent hkids hs h' rfl ⟨hd, hkey⟩ ⟨hg', hgkey⟩⟩
        · rw [sumOf_recolor]
        · rw [sumOf_recolor]
      · rw [← on_flip] at h'
        refine ⟨s', _, 2, .bentFar e far a near p g c c' path' x _ _ hd hkids.symm hp ?_ ?_,
          at_cons.mpr (at_cons.mpr h'), le_rfl,
          fun fuel q => h.insertLoop_bent hkids hs h' rfl ⟨hd, hkey⟩ ⟨hp', hpkey⟩⟩
        · rw [sumOf_recolor]
        · rw [sumOf_recolor]
  · exact ⟨s, _, 1, .pass d near a far path hd hkids, at_cons.mpr h, by decide,
      fun fuel q => h.insertLoop_pass hkey hd hkids⟩

/-- The loop ends where the item belongs. -/
theorem At.insertLoop {t : BinTree (Label K W)} (h : At o s t path) (hseek : Seeks item (t, path))
    (hfuel : 2 * t.size ≤ fuel) : ∃ s' path',
      DiscretePDF.insertLoop item fuel s (parentOf path) (pointer t) = some (s', parentOf path') ∧
      At o s' .nil path' ∧ Relation.ReflTransGen (Descends item) (t, path) (.nil, path') := by
  induction hn : t.size using Nat.strong_induction_on generalizing s t path fuel with
  | _ n ih =>
    cases t with
    | nil =>
      refine ⟨s, path, ?_, h, .refl⟩
      cases fuel <;> rfl
    | node l a r =>
      obtain ⟨d, near, far, hon, hd⟩ := exists_toward item l r a
      rw [hon] at h hseek hfuel hn ⊢
      obtain ⟨s₁, y, j, hdesc, h₁, hj, hloop⟩ := h.insertLoop_step hseek hd
      have hlt : y.1.size < n := hn ▸ hdesc.size_lt
      obtain ⟨fuel', rfl, hfuel'⟩ : ∃ fuel', fuel = fuel' + j ∧ 2 * y.1.size ≤ fuel' :=
        ⟨fuel - j, by omega, by omega⟩
      obtain ⟨s₂, path₂, hs₂, h₂, hrun⟩ := ih y.1.size hlt h₁ (hdesc.seeks hseek) hfuel' rfl
      exact ⟨s₂, path₂, by rw [pointer_on, hloop, hs₂], h₂, .head hdesc hrun⟩

theorem descends_seeks {x y : Place K W} (h : Relation.ReflTransGen (Descends item) x y)
    (hx : Seeks item x) : Seeks item y ∧ entriesBefore y.2 ++ entries y.1 ++ entriesAfter y.2 =
      entriesBefore x.2 ++ entries x.1 ++ entriesAfter x.2 := by
  induction h with
  | refl => exact ⟨hx, rfl⟩
  | tail _ hstep ih => exact ⟨hstep.seeks ih.1, hstep.entries_eq.trans ih.2⟩

end Loop

section Insert

variable {o : Pointer → Option (Node K W)} {s : DiscretePDF K W} {item : K} {w : W}
  {t t' l r : BinTree (Label K W)} {path path' : List (Frame (Label K W))} {a : Label K W} {d : Side}

theorem insertAt_some {p : Pointer} : s.insertAt (some p) item w =
    ((s.withNew (some p) item w).nodes p).bind fun pc =>
      ((s.withNew (some p) item w).assign (if item < pc.key then .left p else .right p)
        (some s.next)).bind fun s₁ => (s₁.split s.next).bind fun s₁ =>
          s₁.propagateSumsUp (some s.next) := rfl

/-- What `insert` makes of the tree, but for the sums. -/
def Inserts (item : K) (a : Label K W) (t t' : BinTree (Label K W)) : Prop :=
  ∃ path u path', Relation.ReflTransGen (Descends item) (t, []) (.nil, path) ∧
    Splits (.node .nil a .nil) path u path' ∧ skeleton t' = skeleton (plug u path')

theorem At.insertAt (h : At (fun _ => none) s .nil path) (hfits : Fits item path)
    (hroot : rootRed false path = false) (hothers : OthersOk path) : ∃ s' u path' t',
      s.insertAt (parentOf path) item w = some s' ∧ At (fun _ => none) s' t' [] ∧ SumsOk t' ∧
      Splits (.node .nil (newLabel s item w) .nil) path u path' ∧
      skeleton t' = skeleton (plug u path') := by
  have hnode := h.new_node rfl item w
  have hnew : At (fun _ => none) _ (.node .nil (newLabel s item w) .nil) path := hnode.linkAt
  cases path with
  | nil =>
    obtain ⟨s', t', hs', h', hsums, hskel⟩ := At.propagateSumsUp_on (d := .left) hnew trivial
      trivial hothers
    exact ⟨s', _, [], t', hs', h', hsums, .stay .nil _ .nil [] false [] .root, hskel⟩
  | cons f path =>
    obtain ⟨d, p, c⟩ := f
    obtain ⟨hd, hkey, -⟩ := hfits.toward
    obtain ⟨s₁, u, path₁, hs₁, h₁, hsplit⟩ := At.split hnew hroot
    obtain ⟨e, b, x, y, rfl, hid, hx, hy, hothers₁⟩ := hsplit.sums trivial trivial hothers
    obtain ⟨s', t', hs', h', hsums, hskel⟩ := h₁.propagateSumsUp_on hx hy hothers₁
    refine ⟨s', _, path₁, t', ?_, h', hsums, hsplit, hskel⟩
    obtain ⟨pc, hpc, hpkey⟩ : ∃ pc, (s.withNew (some p.id) item w).nodes p.id = some pc ∧
        pc.key = p.key := ⟨_, hnode.above.1, rfl⟩
    have hassign : (s.withNew (some p.id) item w).assign (linkOf (⟨d, p, c⟩ :: path))
        (some s.next) = _ := hnode.assign
    change s.insertAt (some p.id) item w = _
    rw [insertAt_some, hpc, Option.bind_some, hpkey, toward_link hd, hassign, Option.bind_some]
    rw [hid] at hs'
    exact (congrArg (Option.bind · _) hs₁).trans hs'

theorem At.insert {t : BinTree (Label K W)} (h : At (fun _ => none) s t [])
    (hseek : Seeks item (t, [])) : ∃ s' t' a, s.insert item w = some s' ∧
      At (fun _ => none) s' t' [] ∧ SumsOk t' ∧ a.entry = (item, w) ∧ a.mark = false ∧ Inserts item a t t' := by
  obtain ⟨s₁, path, hs₁, h₁, hrun⟩ := h.insertLoop hseek
    ((Nat.mul_le_mul_left 2 h.size_le).trans (Nat.le_succ _))
  have hend := (descends_seeks hrun hseek).1
  obtain ⟨s', u, path', t', hs', h', hsums, hsplit, hskel⟩ := h₁.insertAt hend.fits hend.black
    hend.others
  refine ⟨s', t', newLabel s₁ item w, ?_, h', hsums, rfl, rfl, path, u, path', hrun, hsplit, hskel⟩
  rw [DiscretePDF.insert, h.root]
  exact (congrArg (Option.bind · _) hs₁).trans hs'

/-- The item is put where it belongs in the order. -/
theorem Inserts.entries_eq {t t' : BinTree (Label K W)} (h : Inserts item a t t')
    (hseek : Seeks item (t, [])) : ∃ before after, entries t = before ++ after ∧
      entries t' = before ++ a.entry :: after ∧ (∀ x ∈ before, x.1 < item) ∧
      ∀ x ∈ after, item < x.1 := by
  obtain ⟨path, u, path', hrun, hsplit, hskel⟩ := h
  obtain ⟨hend, hentries⟩ := descends_seeks hrun hseek
  refine ⟨entriesBefore path, entriesAfter path, ?_, ?_, hend.fits.before, hend.fits.after⟩
  · simpa using hentries.symm
  · rw [entries_eq_of_skeleton hskel, entries_plug, hsplit.entries_eq]
    simp

theorem Inserts.black {t t' : BinTree (Label K W)} (h : Inserts item a t t')
    (hseek : Seeks item (t, [])) (ha : a.mark = false) : red t' = false := by
  obtain ⟨path, u, path', hrun, hsplit, hskel⟩ := h
  rw [red_eq_of_skeleton hskel, red_plug]
  refine hsplit.rootRed ?_
  change rootRed a.mark path = false
  rw [ha]
  exact (descends_seeks hrun hseek).1.black

end Insert

end Klee.DiscretePDF
