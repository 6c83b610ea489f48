import Klee.Lib.RedBlack
import Klee.Support.DiscretePDFSpec

/-! The balance of a `DiscretePDF`. -/
namespace Klee.DiscretePDF

open Zipper BinTree

variable {K W : Type} {t t' l r c c' near far : BinTree (Label K W)}
  {path path' : List (Frame (Label K W))} {a p g : Label K W} {d : Side} {n : Nat}

section Places

theorem rootMark_eq : rootMark Label.mark t = red t := by
  cases t <;> rfl

def BalancedAt (t : BinTree (Label K W)) (path : List (Frame (Label K W))) (n : Nat) : Prop :=
  Balanced Label.mark t n ∧ BalancedPath Label.mark path n ∧
    (red t = true → parentMark Label.mark path = false)

theorem balancedAt_iff : (∃ n, Balanced Label.mark (plug t path) n) ↔ ∃ n, BalancedAt t path n := by
  rw [balanced_plug]
  simp only [rootMark_eq, BalancedAt]

theorem balanced_on' : Balanced Label.mark (.on d a near far) n ↔
    (a.mark = true → red near = false ∧ red far = false) ∧
      ∃ k, n = k + (!a.mark).toNat ∧ Balanced Label.mark near k ∧ Balanced Label.mark far k := by
  rw [balanced_on, rootMark_eq, rootMark_eq]

theorem balanced_of_mark (h : t'.map Label.mark = t.map Label.mark) :
    Balanced Label.mark t' n ↔ Balanced Label.mark t n := by
  have hmap (t : BinTree (Label K W)) : Balanced id (t.map Label.mark) n ↔
      Balanced Label.mark t n := balanced_map fun _ => rfl
  rw [← hmap, h, hmap]

def siblingRed : List (Frame (Label K W)) → Bool
  | [] => false
  | f :: _ => red f.other

def uncleRed : List (Frame (Label K W)) → Bool
  | [] => false
  | _ :: path => siblingRed path

def AllBlack : BinTree (Label K W) → Prop
  | .nil => False
  | .node l a r => a.mark = false ∧ red l = false ∧ red r = false

/-- A red child that is made black brings a black node more. -/
theorem balanced_blacken (h : Balanced Label.mark t n) (hred : red t = true) :
    Balanced Label.mark (blacken t) (n + 1) ∧ AllBlack (blacken t) := by
  cases t with
  | nil => cases hred
  | node l a r =>
    obtain ⟨hkids, k, rfl, hl, hr⟩ := h
    change a.mark = true at hred
    obtain ⟨hl₀, hr₀⟩ := hkids hred
    rw [rootMark_eq] at hl₀ hr₀
    refine ⟨⟨nofun, k, ?_, hl, hr⟩, rfl, hl₀, hr₀⟩
    rw [hred]
    rfl

theorem red_blacken : red (blacken t) = false := by
  cases t <;> rfl

/-- A node that the loop splits. -/
theorem balanced_two_red (h : Balanced Label.mark (.on d a near far) n)
    (hkids : red near = true ∧ red far = true) :
    Balanced Label.mark (blacken near) n ∧ Balanced Label.mark (blacken far) n ∧
      AllBlack (blacken near) ∧ AllBlack (blacken far) ∧ ¬ AllBlack (.on d a near far) := by
  obtain ⟨hred, k, rfl, hnear, hfar⟩ := balanced_on'.mp h
  have ha : a.mark = false := by
    by_contra ha
    rw [(hred (by simpa using ha)).1] at hkids
    cases hkids.1
  obtain ⟨hnear', hblack⟩ := balanced_blacken hnear hkids.1
  obtain ⟨hfar', hblack'⟩ := balanced_blacken hfar hkids.2
  rw [ha]
  refine ⟨hnear', hfar', hblack, hblack', ?_⟩
  cases d with
  | left => exact fun hall => Bool.noConfusion (hkids.1.symm.trans hall.2.1)
  | right => exact fun hall => Bool.noConfusion (hkids.2.symm.trans hall.2.1)

/-- The frames above a red node. -/
theorem balancedPath_above_red {e : Side} (hp : p.mark = true)
    (h : BalancedPath Label.mark (⟨d, p, c⟩ :: ⟨e, g, c'⟩ :: path) n) :
    Balanced Label.mark c n ∧ red c = false ∧ Balanced Label.mark c' n ∧
      BalancedPath Label.mark path (n + 1) := by
  obtain ⟨hc, hred, hc', hgred, hpath⟩ := h
  obtain ⟨hc₀, hg⟩ := hred hp
  change g.mark = false at hg
  rw [rootMark_eq] at hc₀
  simp only [hp, hg, Bool.not_true, Bool.not_false, Bool.toNat_false, Bool.toNat_true,
    Nat.add_zero] at hc' hpath
  exact ⟨hc, hc₀, hc', hpath⟩

/-- What holds on the way of the loop of `insert`. -/
structure Descending (x : Place K W) : Prop where
  balanced : ∃ n, BalancedAt x.1 x.2 n
  sibling : red x.1 = true → siblingRed x.2 = false
  uncle : parentMark Label.mark x.2 = true → uncleRed x.2 = false ∨ AllBlack x.1

end Places

section Insert

variable [AddCommMonoid W]

/-- The frames around a node that `split` has made red, and its children of height `n` black. -/
theorem SplitsAbove.balanced {x : Bool} (h : SplitsAbove path x path')
    (hpath : BalancedPath Label.mark path n)
    (huncle : parentMark Label.mark path = true → uncleRed path = false) :
    BalancedPath Label.mark path' (n + (!x).toNat) ∧
      (x = true → parentMark Label.mark path' = false) := by
  cases h with
  | root => exact ⟨trivial, nofun⟩
  | black f path hp => exact ⟨hpath, fun _ => hp⟩
  | straight d p g c c' path x hp =>
    obtain ⟨hc, hc₀, hc', hpath⟩ := balancedPath_above_red hp hpath
    have huncle₀ : red c' = false := huncle hp
    refine ⟨⟨balanced_on'.mpr ⟨fun _ => ⟨hc₀, huncle₀⟩, n, rfl, hc, hc'⟩, nofun, hpath⟩, fun _ => rfl⟩

theorem Descends.descending [LinearOrder K] {item : K} {x y : Place K W} (h : Descends item x y)
    (hx : Descending x) : Descending y := by
  cases h with
  | pass d near a far path hd hkids =>
    obtain ⟨⟨n, hbal, hpath, hparent⟩, hsibling, -⟩ := hx
    obtain ⟨hred, k, rfl, hnear, hfar⟩ := balanced_on'.mp hbal
    simp only [red_on] at hparent hsibling
    refine ⟨⟨k, hnear, ⟨hfar, fun ha => ⟨rootMark_eq.trans (hred ha).2, hparent ha⟩, hpath⟩,
      fun hn => ?_⟩, fun hn => ?_, fun ha => .inl (hsibling ha)⟩
    · by_contra ha
      rw [(hred (by simpa [parentMark] using ha)).1] at hn
      cases hn
    · by_contra hf
      exact hkids ⟨hn, by simpa [siblingRed] using hf⟩
  | split d near a far path m path' hd hkids h =>
    obtain ⟨⟨n, hbal, hpath, -⟩, -, huncle⟩ := hx
    obtain ⟨hnear, hfar, hblack, -, hnot⟩ := balanced_two_red hbal hkids
    obtain ⟨hpath', hparent⟩ := h.balanced hpath fun hp => (huncle hp).resolve_right hnot
    have hnear₀ := red_blacken (t := near)
    refine ⟨⟨n, hnear, ⟨hfar, fun hm => ⟨rootMark_eq.trans red_blacken, hparent hm⟩, hpath'⟩,
      fun hn => ?_⟩, fun hn => ?_, fun _ => .inr hblack⟩
    · exact absurd (hnear₀.symm.trans hn) Bool.noConfusion
    · exact absurd (hnear₀.symm.trans hn) Bool.noConfusion
  | bentNear d near a far p g c c' path x y z hd hkids hp hy hz =>
    obtain ⟨⟨n, hbal, hpath, -⟩, -, huncle⟩ := hx
    obtain ⟨hnear, hfar, hblack, -, hnot⟩ := balanced_two_red hbal hkids
    obtain ⟨hc, hc₀, hc', hpath⟩ := balancedPath_above_red hp hpath
    have huncle₀ : red c' = false := (huncle hp).resolve_right hnot
    have hnear₀ := red_blacken (t := near)
    refine ⟨⟨n, hnear, ⟨hc', fun _ => ⟨rootMark_eq.trans huncle₀, rfl⟩, ?_, Bool.noConfusion, hpath⟩,
      fun hn => ?_⟩, fun hn => ?_, fun _ => .inr hblack⟩
    · refine balanced_on'.mpr ⟨fun _ => ⟨red_blacken, hc₀⟩, n, ?_, hfar, hc⟩
      rw [hp]
    · exact absurd (hnear₀.symm.trans hn) Bool.noConfusion
    · exact absurd (hnear₀.symm.trans hn) Bool.noConfusion
  | bentFar d near a far p g c c' path x y z hd hkids hp hy hz =>
    obtain ⟨⟨n, hbal, hpath, -⟩, -, huncle⟩ := hx
    obtain ⟨hnear, hfar, -, hblack, hnot⟩ := balanced_two_red hbal hkids
    obtain ⟨hc, hc₀, hc', hpath⟩ := balancedPath_above_red hp hpath
    have huncle₀ : red c' = false := (huncle hp).resolve_right hnot
    have hfar₀ := red_blacken (t := far)
    have hheight : n + (!p.mark).toNat = n := by
      rw [hp]
      rfl
    refine ⟨⟨n, hfar, ⟨hc, fun _ => ⟨rootMark_eq.trans hc₀, rfl⟩, ?_, Bool.noConfusion, ?_⟩, fun hn => ?_⟩,
      fun hn => ?_, fun _ => .inr hblack⟩
    · rw [hheight]
      exact balanced_on'.mpr ⟨fun _ => ⟨red_blacken, huncle₀⟩, n, rfl, hnear, hc'⟩
    · rw [hheight]
      exact hpath
    · exact absurd (hfar₀.symm.trans hn) Bool.noConfusion
    · exact absurd (hfar₀.symm.trans hn) Bool.noConfusion

theorem Splits.balanced_leaf {u : BinTree (Label K W)} (h : Splits (.node .nil a .nil) path u path')
    (hpath : BalancedPath Label.mark path 0)
    (huncle : parentMark Label.mark path = true → uncleRed path = false) :
    ∃ n, Balanced Label.mark (plug u path') n := by
  refine balancedAt_iff.mpr ?_
  generalize ht : BinTree.node .nil a .nil = t at h
  cases h with
  | stay l b r path x path' h =>
    cases ht
    obtain ⟨hpath', hparent⟩ := h.balanced hpath huncle
    exact ⟨0 + (!x).toNat, ⟨fun _ => ⟨rfl, rfl⟩, 0, rfl, rfl, rfl⟩, hpath', hparent⟩
  | bent near b far d p g c c' path x hp =>
    have hleft : on .left a .nil .nil = .on d b near far := ht
    obtain ⟨rfl, hsides⟩ := on_inj hleft
    obtain ⟨rfl, rfl⟩ : near = .nil ∧ far = .nil := by
      rcases hsides with ⟨-, h, h'⟩ | ⟨-, h, h'⟩
      · exact ⟨h.symm, h'.symm⟩
      · exact ⟨h'.symm, h.symm⟩
    obtain ⟨hc, hc₀, hc', hpath⟩ := balancedPath_above_red hp hpath
    have huncle₀ : red c' = false := huncle hp
    have hnil : Balanced Label.mark (blacken (.nil : BinTree (Label K W))) 0 := (rfl : 0 = 0)
    refine ⟨1, balanced_on'.mpr ⟨nofun, 0, rfl, balanced_on'.mpr ?_, balanced_on'.mpr ?_⟩, hpath,
      fun hred => ?_⟩
    · exact ⟨fun _ => ⟨red_blacken, huncle₀⟩, 0, rfl, hnil, hc'⟩
    · exact ⟨fun _ => ⟨red_blacken, hc₀⟩, 0, by rw [hp]; rfl, hnil, hc⟩
    · rw [red_on] at hred
      cases hred

theorem Inserts.balanced [LinearOrder K] {item : K} (h : Inserts item a t t')
    (ht : ∃ n, Balanced Label.mark t n) : ∃ n, Balanced Label.mark t' n := by
  obtain ⟨path, u, path', hrun, hsplit, hskel⟩ := h
  have hstart : Descending (t, ([] : List (Frame (Label K W)))) := by
    obtain ⟨n, hn⟩ := ht
    exact ⟨⟨n, hn, trivial, fun _ => rfl⟩, fun _ => rfl, nofun⟩
  have hend : Descending ((.nil, path) : Place K W) := by
    generalize (BinTree.nil, path) = y at hrun ⊢
    induction hrun with
    | refl => exact hstart
    | tail _ hstep ih => exact hstep.descending ih
  obtain ⟨⟨n, hnil, hpath, -⟩, -, huncle⟩ := hend
  obtain rfl : n = 0 := hnil
  obtain ⟨n, hn⟩ := hsplit.balanced_leaf hpath fun hp => (huncle hp).resolve_right id
  exact ⟨n, (balanced_of_mark (mark_eq_of_skeleton hskel)).mpr hn⟩

end Insert

section Remove

/-- Where the node that is taken out is red, has a child or is the root, no black node gets lost. -/
theorem TakenOut.balanced [AddCommMonoid W] (h : TakenOut a c path c' path')
    (hbal : ∃ n, Balanced Label.mark (plug (.on d a .nil c) path) n)
    (hsafe : a.mark = true ∨ c ≠ .nil ∨ path = []) :
    ∃ n, Balanced Label.mark (plug c' path') n := by
  obtain ⟨n, hplace, hpath, hparent⟩ := balancedAt_iff.mp hbal
  obtain ⟨hred, k, rfl, hnil, hc⟩ := balanced_on'.mp hplace
  obtain rfl : k = 0 := hnil
  rw [red_on] at hparent
  refine balancedAt_iff.mpr ?_
  cases ha : a.mark with
  | true =>
    obtain ⟨rfl, rfl⟩ := h.red_node ha
    rw [ha] at hpath
    exact ⟨0, hc, hpath, fun hc₀ => absurd ((hred ha).2.symm.trans hc₀) Bool.noConfusion⟩
  | false =>
    cases c with
    | nil =>
      obtain ⟨rfl, rfl⟩ := h.no_child rfl
      obtain rfl : path' = [] := by
        rcases hsafe with hm | hne | hpath
        · exact absurd (ha.symm.trans hm) Bool.noConfusion
        · exact absurd rfl hne
        · exact hpath
      exact ⟨0, rfl, trivial, nofun⟩
    | node l b r =>
      -- the child of a node with one child is red
      have hb : b.mark = true := by
        obtain ⟨-, j, hj, -⟩ := hc
        cases hb : b.mark with
        | true => rfl
        | false =>
          rw [hb] at hj
          cases hj
      obtain ⟨rfl, rfl⟩ := h.red_child ha hb
      rw [ha] at hpath
      refine ⟨1, (balanced_blacken hc hb).1, hpath, fun hred => ?_⟩
      exact absurd (red_blacken.symm.trans hred) Bool.noConfusion

theorem Removes.balanced [AddCommMonoid W] (h : Removes true t t')
    (hbal : ∃ n, Balanced Label.mark t n) : ∃ n, Balanced Label.mark t' n := by
  obtain ⟨d, a, c, path, c', path', hsafe, hmark, htaken, hskel⟩ := h
  obtain ⟨n, hn⟩ := hbal
  obtain ⟨k, hk⟩ := htaken.balanced ⟨n, (balanced_of_mark hmark).mpr hn⟩ (by
    rcases Bool.eq_false_or_eq_true a.mark with ha | ha
    · exact .inl ha
    · refine .inr ?_
      rw [ha, Bool.false_or] at hsafe
      cases c with
      | node l b r => exact .inl nofun
      | nil =>
        cases path with
        | nil => exact .inr rfl
        | cons f path => cases hsafe)
  exact ⟨k, (balanced_of_mark (mark_eq_of_skeleton hskel)).mpr hk⟩

end Remove

section Runs

variable [LinearOrder K] [AddCommMonoid W] [LinearOrder W]

/-- Every `remove` of the calls finds a node that it takes out safely. -/
def SafeRun : DiscretePDF K W → List (Op K W) → Prop
  | _, [] => True
  | s, op :: ops => (∀ item, op = .remove item → s.removesSafely item = some true) ∧
      ∀ s', op.run s = some s' → SafeRun s' ops

omit [LinearOrder W] in
theorem Changes.balanced {s : DiscretePDF K W} {op : Op K W} (h : Changes s t t' op)
    (hsafe : ∀ item, op = .remove item → s.removesSafely item = some true)
    (hbal : ∃ n, Balanced Label.mark t n) : ∃ n, Balanced Label.mark t' n := by
  cases op with
  | insert item weight =>
    obtain ⟨a, -, -, hins⟩ := h
    exact hins.balanced hbal
  | update item weight =>
    obtain ⟨n, hn⟩ := hbal
    exact ⟨n, (balanced_of_mark h).mpr hn⟩
  | remove item =>
    obtain ⟨safe, hs, hrem⟩ := h
    obtain rfl : true = safe := Option.some.inj ((hsafe item rfl).symm.trans hs)
    exact hrem.balanced hbal

theorem Represents.safeRun {s : DiscretePDF K W} {m m' : Live K W} {ops : List (Op K W)}
    (h : Represents s m t) (hbal : ∃ n, Balanced Label.mark t n)
    (hops : ops.foldlM Op.live m = some m') (hsafe : SafeRun s ops) : ∃ s' t',
      ops.foldlM Op.run s = some s' ∧ Represents s' m' t' ∧ ∃ n, Balanced Label.mark t' n := by
  induction ops generalizing s m t with
  | nil =>
    obtain rfl := Option.some.inj hops
    exact ⟨s, t, rfl, h, hbal⟩
  | cons op ops ih =>
    rw [List.foldlM_cons] at hops
    obtain ⟨m₁, hop, hops⟩ := Option.bind_eq_some_iff.mp hops
    obtain ⟨s₁, t₁, hs₁, h₁, hchange⟩ := h.run hop
    obtain ⟨s', t', hs', h', hbal'⟩ := ih h₁ (hchange.balanced hsafe.1 hbal) hops (hsafe.2 s₁ hs₁)
    exact ⟨s', t', by rw [List.foldlM_cons, hs₁]; exact hs', h', hbal'⟩

/-- Where every removed node is red, has a child or is the root, the tree stays balanced, and its
depth is logarithmic in the number of live items. -/
theorem safeRun_balanced (ops : List (Op K W)) {m : Live K W}
    (hops : ops.foldlM Op.live (fun _ => none) = some m) (hsafe : SafeRun new ops) : ∃ s t,
      ops.foldlM Op.run new = some s ∧ At (fun _ => none) s t [] ∧ Items (entries t) m ∧
      (∃ n, Balanced Label.mark t n) ∧ t.depth ≤ 2 * Nat.log 2 ((entries t).length + 1) := by
  obtain ⟨s, t, hs, h, n, hn⟩ := represents_new.safeRun ⟨0, rfl⟩ hops hsafe
  refine ⟨s, t, hs, h.place, h.items, ⟨n, hn⟩, ?_⟩
  rw [entries, List.length_map, length_toList]
  exact hn.depth_le_log (rootMark_eq.trans h.black)

theorem safeRun_balanced_red_child : ∃ (s : DiscretePDF ℕ ℕ) (t : BinTree (Label ℕ ℕ)),
    [Op.insert 1 1, .insert 2 1, .remove 2].foldlM Op.run new = some s ∧
      At (fun _ => none) s t [] ∧ ∃ n, Balanced Label.mark t n := by
  have hsafe : SafeRun (new : DiscretePDF ℕ ℕ) [Op.insert 1 1, .insert 2 1, .remove 2] := by
    refine ⟨nofun, fun s₁ h₁ => ⟨nofun, fun s₂ h₂ => ⟨fun item hitem => ?_, fun _ _ => trivial⟩⟩⟩
    obtain rfl : 2 = item := by simpa using hitem
    have hrun : ((Op.insert 1 1).run (new : DiscretePDF ℕ ℕ)).bind (fun s =>
        ((Op.insert 2 1).run s).bind (removesSafely · 2)) = some true := by decide
    rwa [h₁, Option.bind_some, h₂, Option.bind_some] at hrun
  obtain ⟨s, t, hs, hplace, -, hbal, -⟩ :=
    safeRun_balanced [Op.insert 1 1, .insert 2 1, .remove 2] rfl hsafe
  exact ⟨s, t, hs, hplace, hbal⟩

/-- The removal of a black leaf leaves one way down with a black node less. -/
theorem remove_black_leaf_not_balanced : ∃ (ops : List (Op ℕ ℕ)) (m : Live ℕ ℕ)
    (s : DiscretePDF ℕ ℕ) (t : BinTree (Label ℕ ℕ)),
    ops.foldlM Op.live (fun _ => none) = some m ∧ ops.foldlM Op.run new = some s ∧
      At (fun _ => none) s t [] ∧ ¬ ∃ n, Balanced Label.mark t n := by
  have hlive : [Op.insert 1 1, .insert 2 1, .insert 3 1, .insert 4 1, .remove 1].foldlM Op.live
      (fun _ => none : Live ℕ ℕ) = some _ := rfl
  obtain ⟨s, t, hs, h⟩ := represents_run hlive
  refine ⟨_, _, s, t, hlive, hs, h.place, ?_⟩
  have hnodes : ([Op.insert 1 1, .insert 2 1, .insert 3 1, .insert 4 1, .remove 1].foldlM Op.run
      (new : DiscretePDF ℕ ℕ)).map (fun s => (s.root, (s.nodes 1).map fun c => (c.left, c.right),
        (s.nodes 2).map (·.mark))) = some (some 1, some (none, some 2), some false) := by decide
  rw [hs, Option.map_some, Option.some_inj, Prod.mk.injEq, Prod.mk.injEq] at hnodes
  obtain ⟨hroot, hone, htwo⟩ := hnodes
  rintro ⟨n, hbal⟩
  have hplace : s.root = pointer t := h.place.root
  cases t with
  | nil => cases hplace.symm.trans hroot
  | node l a r =>
    have hid : a.id = 1 := Option.some.inj (hplace.symm.trans hroot)
    have hnode := h.place.rep
    obtain ⟨ha, hl, hr⟩ := hnode
    rw [hid] at ha
    rw [ha, Option.map_some, Option.some_inj] at hone
    obtain ⟨hl₀, hr₀⟩ : pointer l = none ∧ pointer r = some 2 := Prod.mk.inj hone
    cases r with
    | nil => cases hr₀
    | node u b v =>
      have hb : b.id = 2 := Option.some.inj hr₀
      have hmark := hr.1
      rw [hb] at hmark
      rw [hmark, Option.map_some, Option.some_inj] at htwo
      have hblack : b.mark = false := htwo
      obtain ⟨-, k, -, hkl, -, j, hj, -⟩ := hbal
      cases l with
      | node x c y => cases hl₀
      | nil =>
        obtain rfl : k = 0 := hkl
        rw [hblack] at hj
        cases hj

end Runs

end Klee.DiscretePDF
