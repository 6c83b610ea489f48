import Klee.Support.DiscretePDFRemove

/-! Runs of a `DiscretePDF`: the tree holds the live items with their weights, and `choose` picks
the item whose weights contain the point. -/
namespace Klee.DiscretePDF

open Zipper BinTree

variable {K W : Type}

section Weights

variable [AddCommMonoid W]

def total (L : List (K × W)) : W := (L.map Prod.snd).sum

theorem total_append (L L' : List (K × W)) : total (L ++ L') = total L + total L' := by
  rw [total, List.map_append, List.sum_append]
  rfl

/-- The weights of the items before `k`, and that of `k`, enclose `x`. -/
def Encloses [LinearOrder W] (L : List (K × W)) (x : W) (k : K) : Prop :=
  ∃ before w after, L = before ++ (k, w) :: after ∧ total before ≤ x ∧ x ≤ total before + w ∧
    (x < total L → x < total before + w)

end Weights

section Choose

variable [Field W] [LinearOrder W] {o : Pointer → Option (Node K W)}
  {s : DiscretePDF K W} {t l r : BinTree (Label K W)} {path : List (Frame (Label K W))}
  {a : Label K W}

theorem Encloses.append_right {L L' : List (K × W)} {x : W} {k : K} (h : Encloses L x k)
    (hx : x < total L) : Encloses (L ++ L') x k := by
  obtain ⟨before, w, after, rfl, hle, hge, hlt⟩ := h
  exact ⟨before, w, after ++ L', by rw [List.append_assoc, List.cons_append], hle, hge,
    fun _ => hlt hx⟩

def chooseRest (s : DiscretePDF K W) (fuel : Nat) (c : Node K W) (w : W) : Option K :=
  match c.right with
  | none => some c.key
  | some r => if w < c.weight then some c.key else chooseFrom s fuel (w - c.weight) r

theorem chooseFrom_succ {fuel : Nat} {x : W} {n : Pointer} {c : Node K W} (hc : s.nodes n = some c) :
    s.chooseFrom (fuel + 1) x n = match c.left with
      | none => s.chooseRest fuel c x
      | some l => (s.nodes l).bind fun d =>
          if x < d.sumWeights then s.chooseFrom fuel x l
          else s.chooseRest fuel c (x - d.sumWeights) := by
  rw [DiscretePDF.chooseFrom, hc]
  rfl

variable [IsStrictOrderedRing W]

theorem Encloses.append_left {L L' : List (K × W)} {x : W} {k : K} (h : Encloses L' x k) :
    Encloses (L ++ L') (total L + x) k := by
  obtain ⟨before, w, after, rfl, hle, hge, hlt⟩ := h
  refine ⟨L ++ before, w, after, by rw [List.append_assoc], ?_, ?_, ?_⟩
  · rw [total_append]
    exact add_le_add_right hle _
  · rw [total_append, add_assoc]
    exact add_le_add_right hge _
  · rw [total_append L, total_append L, add_assoc, add_lt_add_iff_left, add_lt_add_iff_left]
    exact hlt

/-- The choice in a tree, for a point of its weights. -/
theorem At.chooseFrom {fuel : Nat} {x : W} (h : At o s (.node l a r) path)
    (hsums : SumsOk (.node l a r)) (hx : 0 ≤ x) (hle : x ≤ total (entries (.node l a r)))
    (hfuel : (node l a r).size ≤ fuel) :
    ∃ k, s.chooseFrom fuel x a.id = some k ∧ Encloses (entries (.node l a r)) x k := by
  induction fuel generalizing l a r path x with
  | zero => exact absurd hfuel (Nat.not_succ_le_zero _)
  | succ fuel ih =>
    have hnode : s.nodes a.id = some (a.toNode (parentOf path) (pointer l) (pointer r)) := h.rep.1
    obtain ⟨-, hl, hr⟩ := hsums
    have hleft : At o s l (⟨.left, a, r⟩ :: path) := at_cons.mpr h
    have hright : At o s r (⟨.right, a, l⟩ :: path) := at_cons.mpr h
    rw [size] at hfuel
    have hrest {y : W} (hy : 0 ≤ y) (hyle : y ≤ a.weight + total (entries r)) : ∃ k,
        s.chooseRest fuel (a.toNode (parentOf path) (pointer l) (pointer r)) y = some k ∧
        Encloses (a.entry :: entries r) y k := by
      have hown (hlt : y ≤ a.weight) (hlt' : y < a.weight + total (entries r) → y < a.weight) :
          Encloses (a.entry :: entries r) y a.key := by
        refine ⟨[], a.weight, entries r, rfl, hy, ?_, ?_⟩
        · simpa [total] using hlt
        · simpa [total, Label.entry] using hlt'
      cases r with
      | nil => exact ⟨a.key, rfl, hown (by simpa [total] using hyle) (by simp [total])⟩
      | node u b v =>
        simp only [chooseRest, Label.toNode, show pointer (.node u b v) = some b.id from rfl]
        by_cases hlt : y < a.weight
        · exact ⟨a.key, if_pos hlt, hown hlt.le fun _ => hlt⟩
        · obtain ⟨k, hk, henc⟩ := ih hright hr (sub_nonneg.mpr (not_lt.mp hlt))
            (sub_le_iff_le_add'.mpr hyle) (by omega)
          refine ⟨k, by rw [if_neg hlt, hk], ?_⟩
          have hshift := henc.append_left (L := [a.entry])
          rw [show total [a.entry] = a.weight by simp [total, Label.entry],
            add_sub_cancel] at hshift
          exact hshift
    rw [chooseFrom_succ hnode]
    have hentries : total (entries (.node l a r)) =
        total (entries l) + (a.weight + total (entries r)) := by
      rw [entries_node, total_append]
      simp [total, Label.entry]
    rw [hentries] at hle
    cases l with
    | nil =>
      obtain ⟨k, hk, henc⟩ := hrest hx (by simpa [total] using hle)
      exact ⟨k, hk, by simpa using henc⟩
    | node u b v =>
      have hb : s.nodes b.id = some (b.toNode _ (pointer u) (pointer v)) := hleft.rep.1
      have hsum : b.sum = total (entries (.node u b v)) := hl.sumOf_eq
      simp only [Label.toNode, show pointer (.node u b v) = some b.id from rfl, hb,
        Option.bind_some, hsum]
      rw [show entries (.node (.node u b v) a r) = entries (.node u b v) ++ a.entry :: entries r
        from entries_node]
      by_cases hlt : x < total (entries (.node u b v))
      · obtain ⟨k, hk, henc⟩ := ih hleft hl hx hlt.le (by omega)
        exact ⟨k, by rw [if_pos hlt, hk], henc.append_right hlt⟩
      · obtain ⟨k, hk, henc⟩ := hrest (sub_nonneg.mpr (not_lt.mp hlt)) (sub_le_iff_le_add'.mpr hle)
        refine ⟨k, by rw [if_neg hlt]; exact hk, ?_⟩
        have hshift := henc.append_left (L := entries (.node u b v))
        rwa [add_sub_cancel] at hshift

theorem At.choose {p : W} (h : At o s t []) (hsums : SumsOk t) (hne : t ≠ .nil)
    (hpos : 0 ≤ total (entries t)) (hp : 0 ≤ p) (hp' : p < 1) :
    ∃ k, s.choose p = some k ∧ Encloses (entries t) (p * total (entries t)) k := by
  cases t with
  | nil => exact absurd rfl hne
  | node l a r =>
    have hroot : s.root = some a.id := h.root
    have hnode : s.nodes a.id = some (a.toNode none (pointer l) (pointer r)) := h.rep.1
    have hsum : a.sum = total (entries (.node l a r)) := hsums.sumOf_eq
    obtain ⟨k, hk, henc⟩ := h.chooseFrom hsums (mul_nonneg hp hpos)
      (mul_le_of_le_one_left hpos hp'.le) h.size_le
    refine ⟨k, ?_, henc⟩
    have hguard : ¬ (p < 0 ∨ p ≥ 1) := not_or.mpr ⟨not_lt.mpr hp, not_le.mpr hp'⟩
    simp only [DiscretePDF.choose, hguard, not_false_eq_true, guard_true, hroot, hnode,
      Label.toNode, hsum, Option.bind_eq_bind, Option.pure_def, Option.bind_some, mul_comm _ p]
    exact hk

end Choose

section Runs

inductive Op (K W : Type) where
  | insert (item : K) (weight : W)
  | update (item : K) (weight : W)
  | remove (item : K)

abbrev Live (K W : Type) := K → Option W

variable [LinearOrder K]

/-- What a call means; `none` where its assertion fails, or a weight is negative. -/
def Op.live [Zero W] [LE W] [DecidableLE W] (m : Live K W) : Op K W → Option (Live K W)
  | .insert item weight =>
    if m item = none ∧ 0 ≤ weight then some (Function.update m item (some weight)) else none
  | .update item weight =>
    if m item ≠ none ∧ 0 ≤ weight then some (Function.update m item (some weight)) else none
  | .remove item => if m item ≠ none then some (Function.update m item none) else none

def Op.run [Zero W] [Add W] (s : DiscretePDF K W) : Op K W → Option (DiscretePDF K W)
  | .insert item weight => s.insert item weight
  | .update item weight => s.update item weight
  | .remove item => s.remove item

def Items (L : List (K × W)) (m : Live K W) : Prop := ∀ k w, (k, w) ∈ L ↔ m k = some w

variable {m : Live K W} {before after : List (K × W)} {item : K} {w w' : W}

theorem Items.insert (h : Items (before ++ after) m) (hm : m item = none) :
    Items (before ++ (item, w) :: after) (Function.update m item (some w)) := by
  intro k v
  by_cases hk : k = item
  · subst hk
    have hbefore : (k, v) ∉ before ++ after := fun hin => by
      rw [(h k v).mp hin] at hm
      cases hm
    rw [List.mem_append, not_or] at hbefore
    rw [Function.update_self, List.mem_append, List.mem_cons]
    simp [hbefore, eq_comm]
  · rw [Function.update_of_ne hk, ← h k v]
    simp [hk]

theorem Items.remove (h : Items (before ++ (item, w) :: after) m)
    (hsorted : Sorted (before ++ (item, w) :: after)) :
    Items (before ++ after) (Function.update m item none) := by
  obtain ⟨-, hafter, hdisj⟩ := List.pairwise_append.mp hsorted
  rw [List.pairwise_cons] at hafter
  intro k v
  by_cases hk : k = item
  · subst hk
    have hout : (k, v) ∉ before ++ after := by
      rw [List.mem_append, not_or]
      exact ⟨fun hin => lt_irrefl k (hdisj (k, v) hin (k, w) List.mem_cons_self),
        fun hin => lt_irrefl k (hafter.1 (k, v) hin)⟩
    simp [Function.update_self, hout]
  · rw [Function.update_of_ne hk, ← h k v]
    simp [hk]

theorem Sorted.drop (h : Sorted (before ++ (item, w) :: after)) : Sorted (before ++ after) :=
  h.sublist ((List.sublist_cons_self _ _).append_left before)

theorem Sorted.relabel (h : Sorted (before ++ (item, w) :: after)) :
    Sorted (before ++ (item, w') :: after) := by
  obtain ⟨hb, ha, hdisj⟩ := List.pairwise_append.mp h
  rw [List.pairwise_cons] at ha
  refine List.pairwise_append.mpr ⟨hb, List.pairwise_cons.mpr ha, fun x hx y hy => ?_⟩
  rcases List.mem_cons.mp hy with rfl | hy
  · exact hdisj x hx (item, w) List.mem_cons_self
  · exact hdisj x hx y (List.mem_cons_of_mem _ hy)

theorem Sorted.insert (h : Sorted (before ++ after)) (hbefore : ∀ x ∈ before, x.1 < item)
    (hafter : ∀ x ∈ after, item < x.1) : Sorted (before ++ (item, w) :: after) := by
  obtain ⟨hb, ha, hdisj⟩ := List.pairwise_append.mp h
  refine List.pairwise_append.mpr ⟨hb, List.pairwise_cons.mpr ⟨hafter, ha⟩, fun x hx y hy => ?_⟩
  rcases List.mem_cons.mp hy with rfl | hy
  · exact hbefore x hx
  · exact hdisj x hx y hy

structure Represents [AddCommMonoid W] [LE W] (s : DiscretePDF K W) (m : Live K W)
    (t : BinTree (Label K W)) : Prop where
  place : At (fun _ => none) s t []
  sums : SumsOk t
  search : Search t
  black : red t = false
  items : Items (entries t) m
  nonneg : ∀ x ∈ entries t, 0 ≤ x.2

variable [AddCommMonoid W] [LinearOrder W]

theorem represents_new : Represents (new : DiscretePDF K W) (fun _ => none) .nil where
  place := ⟨rfl, trivial, trivial, List.nodup_nil, by simp [ids, toList], fun _ _ => rfl,
    fun _ _ => rfl⟩
  sums := trivial
  search := trivial
  black := rfl
  items := by simp [Items]
  nonneg := by simp

variable {s : DiscretePDF K W} {t : BinTree (Label K W)} {m' : Live K W} {op : Op K W}

theorem Represents.seeks (h : Represents s m t) (hm : m item = none) : Seeks item (t, []) where
  black := h.black
  sums := h.sums
  others := othersOk_nil
  sorted := by simpa using search_iff.mp h.search
  fits := fits_nil
  absent := fun x hx heq => by
    have hx' := (h.items x.1 x.2).mp hx
    rw [heq, hm] at hx'
    cases hx'

def Changes (s : DiscretePDF K W) (t t' : BinTree (Label K W)) : Op K W → Prop
  | .insert item weight => ∃ a, a.entry = (item, weight) ∧ a.mark = false ∧ Inserts item a t t'
  | .update _ _ => t'.map Label.mark = t.map Label.mark
  | .remove item => ∃ safe, s.removesSafely item = some safe ∧ Removes safe t t'

theorem Represents.of_entries {L : List (K × W)} (h : At (fun _ => none) s t [])
    (hsums : SumsOk t) (hblack : red t = false) (ht : entries t = L) (hsorted : Sorted L)
    (hitems : Items L m) (hnonneg : ∀ x ∈ L, 0 ≤ x.2) : Represents s m t := by
  subst ht
  exact ⟨h, hsums, search_iff.mpr hsorted, hblack, hitems, hnonneg⟩

theorem Represents.run (h : Represents s m t) (hop : op.live m = some m') :
    ∃ s' t', op.run s = some s' ∧ Represents s' m' t' ∧ Changes s t t' op := by
  have hsorted := search_iff.mp h.search
  have hitems := h.items
  have hnonneg := h.nonneg
  cases op with
  | insert item weight =>
    rw [Op.live] at hop
    split at hop
    · next hguard =>
      obtain rfl := Option.some.inj hop
      have hseek := h.seeks hguard.1
      obtain ⟨s', t', a, hs', h', hsums, hentry, hmark, hins⟩ := h.place.insert (w := weight) hseek
      obtain ⟨before, after, ht, ht', hbefore, hafter⟩ := hins.entries_eq hseek
      rw [hentry] at ht'
      rw [ht] at hsorted hitems hnonneg
      refine ⟨s', t', hs', .of_entries h' hsums (hins.black hseek hmark) ht'
        (hsorted.insert hbefore hafter) (hitems.insert hguard.1) ?_, a, hentry, hmark, hins⟩
      simp only [List.forall_mem_append, List.forall_mem_cons] at hnonneg ⊢
      exact ⟨hnonneg.1, hguard.2, hnonneg.2⟩
    · cases hop
  | update item weight =>
    rw [Op.live] at hop
    split at hop
    · next hguard =>
      obtain rfl := Option.some.inj hop
      obtain ⟨w₀, hw₀⟩ := Option.ne_none_iff_exists'.mp hguard.1
      obtain ⟨s', t', hs', h', hsums, hmark, before, after, ht, ht'⟩ := h.place.update (w := weight)
        h.sums h.search ((h.items _ _).mpr hw₀)
      rw [ht] at hsorted hitems hnonneg
      have hremoved := (hitems.remove hsorted).insert (w := weight) (Function.update_self _ _ _)
      rw [Function.update_idem] at hremoved
      refine ⟨s', t', hs', .of_entries h' hsums ((red_eq_of_mark hmark).trans h.black) ht' ?_
        hremoved ?_, hmark⟩
      · exact hsorted.relabel
      · simp only [List.forall_mem_append, List.forall_mem_cons] at hnonneg ⊢
        exact ⟨hnonneg.1, hguard.2, hnonneg.2.2⟩
    · cases hop
  | remove item =>
    rw [Op.live] at hop
    split at hop
    · next hguard =>
      obtain rfl := Option.some.inj hop
      obtain ⟨w₀, hw₀⟩ := Option.ne_none_iff_exists'.mp hguard
      obtain ⟨s', t', safe, hs', hsafe, h', hsums, hblack, hrem, before, after, ht, ht'⟩ :=
        h.place.remove h.sums h.search h.black ((h.items _ _).mpr hw₀)
      rw [ht] at hsorted hitems hnonneg
      refine ⟨s', t', hs', .of_entries h' hsums hblack ht' hsorted.drop (hitems.remove hsorted) ?_,
        safe, hsafe, hrem⟩
      simp only [List.forall_mem_append, List.forall_mem_cons] at hnonneg ⊢
      exact ⟨hnonneg.1, hnonneg.2.2⟩
    · cases hop

theorem represents_run {ops : List (Op K W)} (hops : ops.foldlM Op.live (fun _ => none) = some m) :
    ∃ s t, ops.foldlM Op.run new = some s ∧ Represents s m t := by
  induction ops using List.reverseRecOn generalizing m with
  | nil =>
    obtain rfl := Option.some.inj hops
    exact ⟨new, .nil, rfl, represents_new⟩
  | append_singleton ops op ih =>
    rw [List.foldlM_append] at hops ⊢
    obtain ⟨m₁, hm₁, hop⟩ := Option.bind_eq_some_iff.mp hops
    obtain ⟨s, t, hs, h⟩ := ih hm₁
    have hop' : op.live m₁ = some m := by simpa using hop
    obtain ⟨s', t', hs', h', -⟩ := h.run hop'
    exact ⟨s', t', by simp [hs, hs'], h'⟩

end Runs

section Claims

variable [LinearOrder K] [Field W] [LinearOrder W] [IsStrictOrderedRing W]

/-- After any calls the tree holds the live items in order, with right sums and links, and `choose`
picks the item whose weights enclose the point, by its cumulative weight. -/
theorem run_live_items (ops : List (Op K W)) {m : Live K W}
    (hops : ops.foldlM Op.live (fun _ => none) = some m) : ∃ s t,
      ops.foldlM Op.run new = some s ∧ At (fun _ => none) s t [] ∧ Search t ∧ Items (entries t) m ∧
      SumsOk t ∧ ∀ p, 0 ≤ p → p < 1 → (∃ k, m k ≠ none) → ∃ k before w after,
        s.choose p = some k ∧ entries t = before ++ (k, w) :: after ∧
        total before ≤ p * total (entries t) ∧ p * total (entries t) ≤ total before + w ∧
        (0 < total (entries t) → p * total (entries t) < total before + w ∧ 0 < w) := by
  obtain ⟨s, t, hs, h⟩ := represents_run hops
  refine ⟨s, t, hs, h.place, h.search, h.items, h.sums, fun p hp hp' hlive => ?_⟩
  obtain ⟨k₀, hk₀⟩ := hlive
  obtain ⟨w₀, hw₀⟩ := Option.ne_none_iff_exists'.mp hk₀
  have hne : t ≠ .nil := by
    rintro rfl
    cases (h.items k₀ w₀).mpr hw₀
  have hpos : 0 ≤ total (entries t) := List.sum_nonneg fun x hx => by
    obtain ⟨y, hy, rfl⟩ := List.mem_map.mp hx
    exact h.nonneg y hy
  obtain ⟨k, hk, before, w, after, ht, hle, hge, hlt⟩ := h.place.choose h.sums hne hpos hp hp'
  refine ⟨k, before, w, after, hk, ht, hle, hge, fun htotal => ?_⟩
  have hlt' := hlt (mul_lt_of_lt_one_left htotal hp')
  exact ⟨hlt', pos_of_lt_add_right (hle.trans_lt hlt')⟩

theorem run_live_items_four_calls : ∃ (s : DiscretePDF ℕ ℚ) (t : BinTree (Label ℕ ℚ)),
    [Op.insert 1 2, .insert 2 3, .update 1 4, .remove 2].foldlM Op.run new = some s ∧
      At (fun _ => none) s t [] ∧ Search t ∧ SumsOk t := by
  obtain ⟨s, t, hs, hplace, hsearch, -, hsums, -⟩ :=
    run_live_items [Op.insert 1 (2 : ℚ), .insert 2 3, .update 1 4, .remove 2] rfl
  exact ⟨s, t, hs, hplace, hsearch, hsums⟩

end Claims

end Klee.DiscretePDF
