import Klee.Lib.Zipper
import Klee.Support.DiscretePDF

/-! The tree that the nodes of a `DiscretePDF` form, and what its operations on single nodes do to
it. -/
namespace Klee.DiscretePDF

open Zipper

variable {K W : Type}

structure Label (K W : Type) where
  id : Pointer
  key : K
  weight : W
  sum : W
  mark : Bool

def Label.toNode (a : Label K W) (parent left right : Option Pointer) : Node K W :=
  ⟨parent, left, right, a.key, a.weight, a.sum, a.mark⟩

section Representation

def pointer : BinTree (Label K W) → Option Pointer
  | .nil => none
  | .node _ a _ => some a.id

def parentOf : List (Frame (Label K W)) → Option Pointer
  | [] => none
  | f :: _ => some f.label.id

def Rep (nodes : Pointer → Option (Node K W)) : Option Pointer → BinTree (Label K W) → Prop
  | _, .nil => True
  | p, .node l a r => nodes a.id = some (a.toNode p (pointer l) (pointer r)) ∧
      Rep nodes (some a.id) l ∧ Rep nodes (some a.id) r

/-- The nodes around a place that is filled with `t`. -/
def RepPath (nodes : Pointer → Option (Node K W)) : Option Pointer →
    List (Frame (Label K W)) → Prop
  | _, [] => True
  | t, f :: path => nodes f.label.id = some (f.label.toNode (parentOf path)
        (f.side.pick t (pointer f.other)) (f.side.pick (pointer f.other) t)) ∧
      Rep nodes (some f.label.id) f.other ∧ RepPath nodes (some f.label.id) path

def ids (t : BinTree (Label K W)) : List Pointer := t.toList.map Label.id

def around (path : List (Frame (Label K W))) : List Pointer :=
  (before path ++ after path).map Label.id

variable {nodes nodes' : Pointer → Option (Node K W)} {p : Option Pointer}
  {t l r : BinTree (Label K W)} {path : List (Frame (Label K W))} {f : Frame (Label K W)}
  {a : Label K W} {i : Pointer}

@[simp] theorem ids_nil : ids (.nil : BinTree (Label K W)) = [] := rfl

@[simp] theorem mem_ids_node : i ∈ ids (.node l a r) ↔ i ∈ ids l ∨ i = a.id ∨ i ∈ ids r := by
  simp [ids, BinTree.toList, eq_comm]

@[simp] theorem around_nil : around ([] : List (Frame (Label K W))) = [] := rfl

@[simp] theorem mem_around_cons :
    i ∈ around (f :: path) ↔ i = f.label.id ∨ i ∈ ids f.other ∨ i ∈ around path := by
  obtain ⟨side, b, other⟩ := f
  cases side <;>
  · simp only [around, before_cons, after_cons, Frame.before, Frame.after, Side.pick, ids,
      List.map_append, List.map_cons, List.map_nil, List.mem_append, List.mem_cons,
      List.not_mem_nil]
    tauto

theorem nodup_plug : (ids (plug t path)).Nodup ↔
    (ids t).Nodup ∧ (around path).Nodup ∧ ∀ i ∈ ids t, i ∉ around path := by
  have hperm : (ids (plug t path)).Perm (ids t ++ around path) := by
    rw [ids, ids, around, ← List.map_append, toList_plug, List.append_assoc]
    exact (List.perm_append_comm_assoc _ _ _).map _
  rw [hperm.nodup_iff, List.nodup_append]
  refine and_congr_right fun _ => and_congr_right fun _ => ?_
  exact ⟨fun h i hi hi' => h i hi i hi' rfl, fun h i hi j hj hij => h i hi (hij ▸ hj)⟩

theorem mem_ids_plug : i ∈ ids (plug t path) ↔ i ∈ ids t ∨ i ∈ around path := by
  rw [ids, ids, around, toList_plug]
  simp only [List.map_append, List.mem_append]
  tauto

theorem pointer_fill : pointer (f.fill t) = some f.label.id := by
  obtain ⟨side, b, other⟩ := f
  cases side <;> rfl

theorem rep_fill : Rep nodes p (f.fill t) ↔ nodes f.label.id = some (f.label.toNode p
      (f.side.pick (pointer t) (pointer f.other)) (f.side.pick (pointer f.other) (pointer t))) ∧
    Rep nodes (some f.label.id) t ∧ Rep nodes (some f.label.id) f.other := by
  obtain ⟨side, b, other⟩ := f
  cases side
  · exact Iff.rfl
  · exact and_congr_right fun _ => and_comm

theorem Rep.congr (h : Rep nodes p t) (heq : ∀ i ∈ ids t, nodes' i = nodes i) :
    Rep nodes' p t := by
  induction t generalizing p with
  | nil => trivial
  | node l a r ihl ihr =>
    obtain ⟨hnode, hl, hr⟩ := h
    exact ⟨(heq _ (by simp)).trans hnode, ihl hl fun i hi => heq i (by simp [hi]),
      ihr hr fun i hi => heq i (by simp [hi])⟩

theorem RepPath.congr (h : RepPath nodes p path) (heq : ∀ i ∈ around path, nodes' i = nodes i) :
    RepPath nodes' p path := by
  induction path generalizing p with
  | nil => trivial
  | cons f path ih =>
    obtain ⟨hnode, hother, hpath⟩ := h
    exact ⟨(heq _ (by simp)).trans hnode, hother.congr fun i hi => heq i (by simp [hi]),
      ih hpath fun i hi => heq i (by simp [hi])⟩

theorem rep_on {d : Side} : Rep nodes p (.on d a l r) ↔
    nodes a.id = some (a.toNode p (d.pick (pointer l) (pointer r)) (d.pick (pointer r) (pointer l))) ∧
      Rep nodes (some a.id) l ∧ Rep nodes (some a.id) r :=
  rep_fill (f := ⟨d, a, r⟩)

@[simp] theorem pointer_on {d : Side} : pointer (.on d a l r) = some a.id :=
  pointer_fill (f := ⟨d, a, r⟩)

@[simp] theorem mem_ids_on {d : Side} : i ∈ ids (.on d a l r) ↔ i ∈ ids l ∨ i = a.id ∨ i ∈ ids r := by
  cases d <;> simp only [BinTree.on, mem_ids_node]
  tauto

theorem mem_ids_of_pointer (h : pointer t = some i) : i ∈ ids t := by
  cases t with
  | nil => cases h
  | node l a r =>
    obtain rfl := Option.some.inj h
    simp

theorem nodup_on {d : Side} : (ids (.on d a l r)).Nodup ↔ (ids l).Nodup ∧ (ids r).Nodup ∧
    a.id ∉ ids l ∧ a.id ∉ ids r ∧ ∀ i ∈ ids l, i ∉ ids r := by
  have hnode (l r : BinTree (Label K W)) : (ids (.node l a r)).Nodup ↔ (ids l).Nodup ∧
      (ids r).Nodup ∧ a.id ∉ ids l ∧ a.id ∉ ids r ∧ ∀ i ∈ ids l, i ∉ ids r := by
    have hlist : ids (.node l a r) = ids l ++ a.id :: ids r := by
      rw [ids, BinTree.toList, List.map_append, List.map_cons]
      rfl
    rw [hlist, List.nodup_append, List.nodup_cons]
    constructor
    · rintro ⟨hl, ⟨ha, hr⟩, hdisj⟩
      exact ⟨hl, hr, fun h => hdisj _ h _ List.mem_cons_self rfl, ha,
        fun i hi hi' => hdisj i hi i (List.mem_cons_of_mem _ hi') rfl⟩
    · rintro ⟨hl, hr, hal, har, hdisj⟩
      refine ⟨hl, ⟨har, hr⟩, fun i hi j hj hij => ?_⟩
      subst hij
      rcases List.mem_cons.mp hj with rfl | hj
      · exact hal hi
      · exact hdisj i hi hj
  cases d
  · exact hnode l r
  · rw [BinTree.on, hnode]
    constructor
    · rintro ⟨hr, hl, har, hal, hdisj⟩
      exact ⟨hl, hr, hal, har, fun i hi hi' => hdisj i hi' hi⟩
    · rintro ⟨hl, hr, hal, har, hdisj⟩
      exact ⟨hr, hl, har, hal, fun i hi hi' => hdisj i hi' hi⟩

end Representation

section Memory

variable {s : DiscretePDF K W} {n m : Pointer} {c d : Node K W} {f : Node K W → Node K W}

def set (s : DiscretePDF K W) (n : Pointer) (c : Node K W) : DiscretePDF K W :=
  { s with nodes := Function.update s.nodes n (some c) }

@[simp] theorem set_nodes_self : (s.set n c).nodes n = some c := Function.update_self _ _ _

@[simp] theorem set_nodes_of_ne (h : m ≠ n) : (s.set n c).nodes m = s.nodes m :=
  Function.update_of_ne h _ _

@[simp] theorem set_root : (s.set n c).root = s.root := rfl

@[simp] theorem set_next : (s.set n c).next = s.next := rfl

theorem bind_of_eq {α β : Type} {x : Option α} {a : α} (h : x = some a) (k : α → Option β) :
    x >>= k = k a := by
  rw [h]
  rfl

theorem modify_eq (h : s.nodes n = some c) : s.modify n f = some (s.set n (f c)) := by
  rw [modify, h]
  rfl

end Memory

section Places

/-- The root where the link at a place is `q`. -/
def rootOf : Option Pointer → List (Frame (Label K W)) → Option Pointer
  | q, [] => q
  | _, f :: path => rootOf (some f.label.id) path

/-- The nodes are those of `t` at the place `path`, where the link is `q`, with what is in memory
otherwise. -/
structure Holds (rest : Pointer → Option (Node K W)) (s : DiscretePDF K W)
    (t : BinTree (Label K W)) (path : List (Frame (Label K W))) (q : Option Pointer) : Prop where
  root : s.root = rootOf q path
  rep : Rep s.nodes (parentOf path) t
  above : RepPath s.nodes q path
  nodup : (ids (plug t path)).Nodup
  lt_next : ∀ i ∈ ids (plug t path), i < s.next
  outside : ∀ i, i ∉ ids (plug t path) → s.nodes i = rest i
  apart : ∀ i ∈ ids (plug t path), rest i = none

abbrev At (outside : Pointer → Option (Node K W)) (s : DiscretePDF K W)
    (t : BinTree (Label K W)) (path : List (Frame (Label K W))) : Prop :=
  Holds outside s t path (pointer t)

variable {o : Pointer → Option (Node K W)} {s s' : DiscretePDF K W} {t l r : BinTree (Label K W)}
  {path : List (Frame (Label K W))} {f : Frame (Label K W)} {a b : Label K W} {i : Pointer}
  {q : Option Pointer} {d : Side}

/-- The place can be moved up and down. -/
theorem at_cons : At o s t (f :: path) ↔ At o s (f.fill t) path := by
  have hrep : Rep s.nodes (parentOf (f :: path)) t ∧ RepPath s.nodes (pointer t) (f :: path) ↔
      Rep s.nodes (parentOf path) (f.fill t) ∧ RepPath s.nodes (pointer (f.fill t)) path := by
    rw [rep_fill, pointer_fill, RepPath]
    simp only [parentOf]
    tauto
  constructor
  · rintro ⟨hroot, h, h', hnodup, hlt, hout, hapart⟩
    obtain ⟨h, h'⟩ := hrep.mp ⟨h, h'⟩
    exact ⟨by rw [pointer_fill]; exact hroot, h, h', hnodup, hlt, hout, hapart⟩
  · rintro ⟨hroot, h, h', hnodup, hlt, hout, hapart⟩
    obtain ⟨h, h'⟩ := hrep.mpr ⟨h, h'⟩
    exact ⟨by rw [pointer_fill] at hroot; exact hroot, h, h', hnodup, hlt, hout, hapart⟩

theorem Holds.size_le (h : Holds o s t path q) : (plug t path).size ≤ s.next := by
  have hsub : (ids (plug t path)).toFinset ⊆ Finset.range s.next := fun i hi =>
    Finset.mem_range.mpr (h.lt_next i (List.mem_toFinset.mp hi))
  have hcard := Finset.card_le_card hsub
  rwa [List.toFinset_card_of_nodup h.nodup, Finset.card_range, ids, List.length_map,
    BinTree.length_toList] at hcard

theorem Holds.length_le (h : Holds o s t path q) : path.length ≤ s.next :=
  (Nat.le_add_left _ _).trans ((size_plug t path).trans h.size_le)

/-- The tree at the place is rebuilt from its own nodes. -/
theorem Holds.replace {t' : BinTree (Label K W)} (h : Holds o s t path q) (hroot : s'.root = s.root)
    (hnext : s'.next = s.next) (hids : ∀ i, i ∈ ids t' ↔ i ∈ ids t) (hnodup : (ids t').Nodup)
    (hrep : Rep s'.nodes (parentOf path) t') (hrest : ∀ i ∉ ids t, s'.nodes i = s.nodes i) :
    Holds o s' t' path q := by
  obtain ⟨-, hpath, hdisj⟩ := nodup_plug.mp h.nodup
  have hplug : ∀ i, i ∈ ids (plug t' path) ↔ i ∈ ids (plug t path) := by
    intro i
    rw [mem_ids_plug, mem_ids_plug, hids]
  refine ⟨hroot.trans h.root, hrep, h.above.congr fun i hi => hrest i fun hit => hdisj i hit hi,
    nodup_plug.mpr ⟨hnodup, hpath, fun i hi => hdisj i ((hids i).mp hi)⟩,
    fun i hi => hnext ▸ h.lt_next i ((hplug i).mp hi), fun i hi => ?_,
    fun i hi => h.apart i ((hplug i).mp hi)⟩
  rw [hplug] at hi
  exact (hrest i fun hit => hi (mem_ids_plug.mpr (.inl hit))).trans (h.outside i hi)

/-- Only the label at the root changes. -/
theorem Rep.set {parent : Option Pointer} (h : Rep s.nodes parent (.on d a l r))
    (hnodup : (ids (.on d a l r)).Nodup) (hid : b.id = a.id) :
    Rep (s.set a.id (b.toNode parent (d.pick (pointer l) (pointer r))
      (d.pick (pointer r) (pointer l)))).nodes parent (.on d b l r) := by
  obtain ⟨-, -, hal, har, -⟩ := nodup_on.mp hnodup
  obtain ⟨-, hl, hr⟩ := rep_on.mp h
  rw [rep_on, hid]
  exact ⟨set_nodes_self, hl.congr fun i hi => set_nodes_of_ne fun heq => hal (heq ▸ hi),
    hr.congr fun i hi => set_nodes_of_ne fun heq => har (heq ▸ hi)⟩

theorem nodup_relabel (h : (ids (.on d a l r)).Nodup) (hid : b.id = a.id) :
    (ids (.on d b l r)).Nodup := by
  rw [nodup_on, hid]
  exact nodup_on.mp h

theorem mem_ids_relabel (hid : b.id = a.id) : i ∈ ids (.on d b l r) ↔ i ∈ ids (.on d a l r) := by
  rw [mem_ids_on, mem_ids_on, hid]

/-- Only the label at the place changes. -/
theorem Holds.set (h : Holds o s (.on d a l r) path q) (hid : b.id = a.id) :
    Holds o (s.set a.id (b.toNode (parentOf path) (d.pick (pointer l) (pointer r))
      (d.pick (pointer r) (pointer l)))) (.on d b l r) path q := by
  have hnodup := (nodup_plug.mp h.nodup).1
  refine h.replace rfl rfl (fun i => mem_ids_relabel hid) (nodup_relabel hnodup hid)
    (h.rep.set hnodup hid) fun i hi => set_nodes_of_ne fun heq => hi ?_
  rw [mem_ids_on]
  exact .inr (.inl heq)

variable {n p : Label K W} {near far c : BinTree (Label K W)}

/-- The links inside the subtree are turned; the link from above still leads to `p`. -/
theorem Holds.turn (h : Holds o s (.on d p (.on d n near far) c) path q)
    (hroot : s'.root = s.root) (hnext : s'.next = s.next)
    (hn : s'.nodes n.id = some (n.toNode (parentOf path) (d.pick (pointer near) (some p.id))
      (d.pick (some p.id) (pointer near))))
    (hp : s'.nodes p.id = some (p.toNode (some n.id) (d.pick (pointer far) (pointer c))
      (d.pick (pointer c) (pointer far))))
    (hfar : ∀ l b r, far = .node l b r →
      s'.nodes b.id = some (b.toNode (some p.id) (pointer l) (pointer r)))
    (hrest : ∀ i, i ≠ n.id → i ≠ p.id → some i ≠ pointer far → s'.nodes i = s.nodes i) :
    Holds o s' (.on d n near (.on d p far c)) path q := by
  obtain ⟨hnn, hc, hpn, hpc, hnc⟩ := nodup_on.mp (nodup_plug.mp h.nodup).1
  obtain ⟨hnear, hfarn, hnnear, hnfar, hnf⟩ := nodup_on.mp hnn
  obtain ⟨-, hrepn, hrepc⟩ := rep_on.mp h.rep
  obtain ⟨-, hrepnear, hrepfar⟩ := rep_on.mp hrepn
  simp only [mem_ids_on, not_or] at hpn hnc
  have hfarid {i : Pointer} (hi : some i = pointer far) : i ∈ ids far :=
    mem_ids_of_pointer hi.symm
  refine h.replace hroot hnext (fun i => ?_) ?_ (rep_on.mpr ⟨?_, ?_, rep_on.mpr ⟨hp, ?_, ?_⟩⟩) ?_
  · simp only [mem_ids_on]
    simp only [or_assoc, or_left_comm]
  · refine nodup_on.mpr ⟨hnear, nodup_on.mpr ⟨hfarn, hc, hpn.2.2, hpc, ?_⟩, hnnear, ?_, ?_⟩
    · exact fun i hi => hnc i (.inr (.inr hi))
    · simp only [mem_ids_on, not_or]
      exact ⟨hnfar, fun heq => hpn.2.1 heq.symm, hnc _ (.inr (.inl rfl))⟩
    · intro i hi
      simp only [mem_ids_on, not_or]
      exact ⟨hnf i hi, fun heq => hpn.1 (heq ▸ hi), hnc i (.inl hi)⟩
  · rw [hn, pointer_on]
  · refine hrepnear.congr fun i hi => hrest i ?_ ?_ ?_
    · exact fun heq => hnnear (heq ▸ hi)
    · exact fun heq => hpn.1 (heq ▸ hi)
    · exact fun heq => hnf i hi (hfarid heq)
  · cases far with
    | nil => trivial
    | node l b r =>
      obtain ⟨-, -, hbl, hbr, -⟩ := nodup_on (d := .left).mp hfarn
      obtain ⟨-, hrepl, hrepr⟩ := hrepfar
      have hinner {i : Pointer} (hi : i ∈ ids l ∨ i ∈ ids r) : s'.nodes i = s.nodes i := by
        have hmem : i ∈ ids (.node l b r) := by
          rw [mem_ids_node]
          tauto
        refine hrest i (fun heq => hnfar (heq ▸ hmem)) (fun heq => hpn.2.2 (heq ▸ hmem)) ?_
        intro heq
        obtain rfl := Option.some.inj heq
        exact hi.elim hbl hbr
      exact ⟨hfar l b r rfl, hrepl.congr fun i hi => hinner (.inl hi),
        hrepr.congr fun i hi => hinner (.inr hi)⟩
  · refine hrepc.congr fun i hi => hrest i ?_ ?_ ?_
    · exact fun heq => hnc i (.inr (.inl heq)) hi
    · exact fun heq => hpc (heq ▸ hi)
    · exact fun heq => hnc i (.inr (.inr (hfarid heq))) hi
  · intro i hi
    simp only [mem_ids_on, not_or] at hi
    exact hrest i hi.1.2.1 hi.2.1 fun heq => hi.1.2.2 (hfarid heq)

/-- Only the label of the far child changes. -/
theorem Holds.set_far (h : Holds o s (.on d n near (.on d p far c)) path q) (hid : b.id = p.id) :
    Holds o (s.set p.id (b.toNode (some n.id) (d.pick (pointer far) (pointer c))
      (d.pick (pointer c) (pointer far)))) (.on d n near (.on d b far c)) path q := by
  have hnodup := (nodup_plug.mp h.nodup).1
  obtain ⟨hnear, hpt, hnnear, hnp, hdisj⟩ := nodup_on.mp hnodup
  obtain ⟨hnode, hrepnear, hrepp⟩ := rep_on.mp h.rep
  have hpmem : p.id ∈ ids (.on d p far c) := by simp
  have hne : n.id ≠ p.id := fun heq => hnp (heq ▸ hpmem)
  refine h.replace rfl rfl (fun i => ?_) ?_ (rep_on.mpr ⟨?_, ?_, hrepp.set hpt hid⟩) fun i hi => ?_
  · simp only [mem_ids_on, hid]
  · refine nodup_on.mpr ⟨hnear, nodup_relabel hpt hid, hnnear, ?_, fun i hi => ?_⟩
    · rwa [mem_ids_relabel hid]
    · rw [mem_ids_relabel hid]
      exact hdisj i hi
  · rw [set_nodes_of_ne hne, hnode, pointer_on, pointer_on, hid]
  · exact hrepnear.congr fun i hi => set_nodes_of_ne fun heq => hdisj i hi (heq ▸ hpmem)
  · rw [mem_ids_on, not_or, not_or] at hi
    exact set_nodes_of_ne fun heq => hi.2.2 (heq ▸ hpmem)

def linkAt (s : DiscretePDF K W) (path : List (Frame (Label K W))) (q : Option Pointer) :
    DiscretePDF K W :=
  match path with
  | [] => { s with root := q }
  | f :: rest => s.set f.label.id (f.label.toNode (parentOf rest)
      (f.side.pick q (pointer f.other)) (f.side.pick (pointer f.other) q))

theorem linkAt_nodes {i : Pointer} (h : some i ≠ parentOf path) :
    (s.linkAt path q).nodes i = s.nodes i := by
  cases path with
  | nil => rfl
  | cons f rest => exact set_nodes_of_ne fun heq => h (congrArg some heq)

theorem mem_around_parentOf {i : Pointer} (h : some i = parentOf path) : i ∈ around path := by
  cases path with
  | nil => cases h
  | cons f rest =>
    obtain rfl := Option.some.inj h
    simp

theorem Holds.linkAt {q' : Option Pointer} (h : Holds o s t path q) :
    Holds o (s.linkAt path q') t path q' := by
  obtain ⟨-, hpath, hdisj⟩ := nodup_plug.mp h.nodup
  have hrep : Rep (s.linkAt path q').nodes (parentOf path) t :=
    h.rep.congr fun i hi => linkAt_nodes fun heq => hdisj i hi (mem_around_parentOf heq)
  have hout : ∀ i, i ∉ ids (plug t path) → (s.linkAt path q').nodes i = o i := fun i hi =>
    (linkAt_nodes fun heq => hi (mem_ids_plug.mpr (.inr (mem_around_parentOf heq)))).trans
      (h.outside i hi)
  cases path with
  | nil => exact ⟨rfl, hrep, trivial, h.nodup, h.lt_next, hout, h.apart⟩
  | cons f rest =>
    obtain ⟨-, hother, habove⟩ := h.above
    have hnodup : (ids (plug (f.fill t) rest)).Nodup := h.nodup
    obtain ⟨hfill, -, hrest⟩ := nodup_plug.mp hnodup
    obtain ⟨-, -, -, hfother, -⟩ := (nodup_on (d := f.side)).mp hfill
    have hfrest := hrest _ ((mem_ids_on (d := f.side)).mpr (.inr (.inl rfl)))
    refine ⟨h.root, hrep, ⟨set_nodes_self, hother.congr fun i hi => set_nodes_of_ne ?_,
      habove.congr fun i hi => set_nodes_of_ne ?_⟩, h.nodup, h.lt_next, hout, h.apart⟩
    · exact fun heq => hfother (heq ▸ hi)
    · exact fun heq => hfrest (heq ▸ hi)

def linkOf (path : List (Frame (Label K W))) : Link :=
  match path with
  | [] => .root
  | f :: _ => f.side.pick (.left f.label.id) (.right f.label.id)

theorem Holds.follow (h : Holds o s t path q) : s.follow (linkOf path) = some q := by
  cases path with
  | nil => exact congrArg some h.root
  | cons f rest =>
    have hnode := h.above.1
    obtain ⟨side, b, other⟩ := f
    cases side <;> exact congrArg (Option.map _) hnode

theorem Holds.assign {q' : Option Pointer} (h : Holds o s t path q) :
    s.assign (linkOf path) q' = some (s.linkAt path q') := by
  cases path with
  | nil => rfl
  | cons f rest =>
    have hnode := h.above.1
    obtain ⟨side, b, other⟩ := f
    cases side <;> exact modify_eq hnode

/-- The child that is `q` tells the side of the place. -/
theorem Holds.left_eq_iff {f : Frame (Label K W)} {rest : List (Frame (Label K W))} {i : Pointer}
    (h : Holds o s t (f :: rest) (some i)) (hi : i ∈ ids t) :
    ∃ c, s.nodes f.label.id = some c ∧ (c.left = some i ↔ f.side = .left) ∧
      (c.right = some i ↔ f.side = .right) := by
  refine ⟨_, h.above.1, ?_⟩
  have hnodup : (ids (plug (f.fill t) rest)).Nodup := h.nodup
  obtain ⟨-, -, -, -, hdisj⟩ := (nodup_on (d := f.side)).mp (nodup_plug.mp hnodup).1
  have hne : pointer f.other ≠ some i := fun heq => hdisj i hi (mem_ids_of_pointer heq)
  obtain ⟨side, b, other⟩ := f
  cases side <;> simp [Label.toNode, Side.pick] <;> exact hne

end Places

section Primitives

variable {o : Pointer → Option (Node K W)} {s s' : DiscretePDF K W}
  {t l r near far c : BinTree (Label K W)} {path : List (Frame (Label K W))}
  {f : Frame (Label K W)} {a b n p : Label K W} {q parent : Option Pointer} {d : Side}

theorem Holds.node (h : Holds o s (.on d a l r) path q) : s.nodes a.id =
    some (a.toNode (parentOf path) (d.pick (pointer l) (pointer r))
      (d.pick (pointer r) (pointer l))) := (rep_on.mp h.rep).1

/-- A change of the label in memory. -/
theorem Holds.modify {g : Node K W → Node K W} (h : Holds o s (.on d a l r) path q)
    (hid : b.id = a.id) (hg : ∀ p l r, g (a.toNode p l r) = b.toNode p l r) :
    ∃ s', s.modify a.id g = some s' ∧ Holds o s' (.on d b l r) path q := by
  refine ⟨_, modify_eq h.node, ?_⟩
  rw [hg]
  exact h.set hid

def red : BinTree (Label K W) → Bool
  | .nil => false
  | .node _ a _ => a.mark

@[simp] theorem red_on : red (.on d a l r) = a.mark := by
  cases d <;> rfl

def Label.red (a : Label K W) : Label K W := { a with mark := true }

def Label.black (a : Label K W) : Label K W := { a with mark := false }

theorem Holds.isBlack (h : Holds o s (.on d a l r) path q) : s.isBlack a.id = some !a.mark := by
  rw [DiscretePDF.isBlack, h.node]
  rfl

theorem Rep.childIsBlack (h : Rep s.nodes parent t) :
    s.childIsBlack (pointer t) = some !red t := by
  cases t with
  | nil => rfl
  | node l a r =>
    change (s.nodes a.id).map _ = _
    rw [h.1]
    rfl

variable [AddCommMonoid W]

def sumOf : BinTree (Label K W) → W
  | .nil => 0
  | .node _ a _ => a.sum

@[simp] theorem sumOf_on : sumOf (.on d a l r) = a.sum := by
  cases d <;> rfl

theorem Rep.childSum (h : Rep s.nodes parent t) : s.childSum (pointer t) = some (sumOf t) := by
  cases t with
  | nil => rfl
  | node l a r =>
    change (s.nodes a.id).map _ = _
    rw [h.1]
    rfl

theorem Holds.setSum (h : Holds o s (.on d a l r) path q) : ∃ s', s.setSum a.id = some s' ∧
    Holds o s' (.on d { a with sum := a.weight + sumOf l + sumOf r } l r) path q := by
  obtain ⟨hnode, hl, hr⟩ := rep_on.mp h.rep
  cases d with
  | left =>
    obtain ⟨s', hs', h'⟩ := h.modify (b := { a with sum := a.weight + sumOf l + sumOf r })
      (g := fun c => { c with sumWeights := c.weight + sumOf l + sumOf r }) rfl fun _ _ _ => rfl
    refine ⟨s', ?_, h'⟩
    rw [DiscretePDF.setSum, hnode]
    change (s.childSum (pointer l)).bind (fun x => (s.childSum (pointer r)).bind _) = _
    rw [hl.childSum, hr.childSum]
    exact hs'
  | right =>
    obtain ⟨s', hs', h'⟩ := h.modify (b := { a with sum := a.weight + sumOf l + sumOf r })
      (g := fun c => { c with sumWeights := c.weight + sumOf r + sumOf l }) rfl fun _ _ _ => by
        simp only [Label.toNode, add_right_comm]
    refine ⟨s', ?_, h'⟩
    rw [DiscretePDF.setSum, hnode]
    change (s.childSum (pointer r)).bind (fun x => (s.childSum (pointer l)).bind _) = _
    rw [hl.childSum, hr.childSum]
    exact hs'

theorem setSum_eq {i : Pointer} {x : Node K W} {y z : W} (hx : s.nodes i = some x)
    (hy : s.childSum x.left = some y) (hz : s.childSum x.right = some z) :
    s.setSum i = some (s.set i { x with sumWeights := x.weight + y + z }) := by
  rw [DiscretePDF.setSum, hx]
  change (s.childSum x.left).bind (fun y => (s.childSum x.right).bind _) = _
  rw [hy, hz]
  exact modify_eq hx

/-- The end of `rotate`: the sums, and the link from above. -/
def finishRotate (s : DiscretePDF K W) (n p : Pointer) (pp : Option Pointer) :
    Option (DiscretePDF K W) := do
  let s ← s.setSum n
  let s ← s.setSum p
  match pp with
  | none => some { s with root := some n }
  | some pp => do
    if (← s.nodes pp).left = some p then s.modify pp fun c => { c with left := some n }
    else s.modify pp fun c => { c with right := some n }

theorem Holds.finishRotate (h : Holds o s (.on d n near (.on d p far c)) path (some p.id)) :
    ∃ s' x, DiscretePDF.finishRotate s n.id p.id (parentOf path) = some s' ∧
      At o s' (.on d { n with sum := x } near
        (.on d { p with sum := p.weight + sumOf far + sumOf c } far c)) path := by
  obtain ⟨s₁, hs₁, h₁⟩ := h.setSum
  set n' : Label K W := { n with sum := n.weight + sumOf near + sumOf (.on d p far c) }
  set p' : Label K W := { p with sum := p.weight + sumOf far + sumOf c }
  obtain ⟨hnode, hfar, hc⟩ := rep_on.mp (rep_on.mp h₁.rep).2.2
  obtain ⟨s₂, hs₂, h₂⟩ : ∃ s₂, s₁.setSum p.id = some s₂ ∧
      Holds o s₂ (.on d n' near (.on d p' far c)) path (some p.id) := by
    refine ⟨_, ?_, h₁.set_far (b := p') rfl⟩
    cases d with
    | left => exact setSum_eq hnode hfar.childSum hc.childSum
    | right =>
      rw [setSum_eq hnode hc.childSum hfar.childSum]
      simp only [Label.toNode, p', add_right_comm]
  refine ⟨s₂.linkAt path (some n.id), n'.sum, ?_, by
    rw [At, pointer_on]
    exact h₂.linkAt⟩
  rw [DiscretePDF.finishRotate, hs₁, Option.bind_eq_bind, Option.bind_some, hs₂,
    Option.bind_some]
  cases path with
  | nil => rfl
  | cons f rest =>
    have hp : p.id ∈ ids (.on d n' near (.on d p' far c)) := by
      simp only [mem_ids_on]
      exact .inr (.inr (.inr (.inl rfl)))
    have hnode := h₂.above.1
    obtain ⟨e, he, hleft, -⟩ := h₂.left_eq_iff hp
    obtain rfl := Option.some.inj (he.symm.trans hnode)
    obtain ⟨side, b, other⟩ := f
    cases side with
    | left =>
      change (s₂.nodes b.id).bind _ = _
      rw [he, Option.bind_some, if_pos (hleft.mpr rfl)]
      exact modify_eq he
    | right =>
      change (s₂.nodes b.id).bind _ = _
      rw [he, Option.bind_some, if_neg fun h => Side.noConfusion (hleft.mp h)]
      exact modify_eq he

def turned (s : DiscretePDF K W) (d : Side) (n p : Label K W) (pp near far c : Option Pointer) :
    DiscretePDF K W :=
  ((((s.set n.id (n.toNode pp (d.pick near far) (d.pick far near))).set p.id
    (p.toNode (some n.id) (d.pick (some n.id) c) (d.pick c (some n.id)))).set p.id
    (p.toNode (some n.id) (d.pick far c) (d.pick c far))).set n.id
    (n.toNode pp (d.pick near (some p.id)) (d.pick (some p.id) near)))

theorem rotate_eq {pp near far c : Option Pointer} (hnp : n.id ≠ p.id) (hc : c ≠ some n.id)
    (hn : s.nodes n.id = some (n.toNode (some p.id) (d.pick near far) (d.pick far near)))
    (hp : s.nodes p.id = some (p.toNode pp (d.pick (some n.id) c) (d.pick c (some n.id)))) :
    s.rotate n.id = ((s.turned d n p pp near far c).setChildParent far (some p.id)).bind
      fun s => finishRotate s n.id p.id pp := by
  have h₁ : (s.set n.id (n.toNode pp (d.pick near far) (d.pick far near))).nodes p.id =
      some (p.toNode pp (d.pick (some n.id) c) (d.pick c (some n.id))) := by
    rw [set_nodes_of_ne hnp.symm, hp]
  have h₂ (x : Node K W) : ((s.set n.id (n.toNode pp (d.pick near far) (d.pick far near))).set p.id
      x).nodes n.id = some (n.toNode pp (d.pick near far) (d.pick far near)) := by
    rw [set_nodes_of_ne hnp, set_nodes_self]
  cases d with
  | left =>
    have h₃ (x y : Node K W) : (((s.set n.id (n.toNode pp near far)).set p.id x).set p.id
        y).nodes n.id = some (n.toNode pp near far) := by
      rw [set_nodes_of_ne hnp]
      exact h₂ x
    simp only [Side.pick, Label.toNode, turned] at hn hp h₁ h₂ h₃ ⊢
    unfold DiscretePDF.rotate
    refine (bind_of_eq hn _).trans ?_
    refine (bind_of_eq rfl _).trans ?_
    refine (bind_of_eq hp _).trans ?_
    refine (bind_of_eq (modify_eq hn) _).trans ?_
    refine (bind_of_eq (modify_eq h₁) _).trans ?_
    refine (bind_of_eq (h₂ _) _).trans ?_
    refine (bind_of_eq set_nodes_self _).trans ?_
    refine (if_pos rfl).trans ?_
    refine (bind_of_eq (modify_eq set_nodes_self) _).trans ?_
    exact bind_of_eq (modify_eq (h₃ _ _)) _
  | right =>
    have h₃ (x y : Node K W) : (((s.set n.id (n.toNode pp far near)).set p.id x).set p.id
        y).nodes n.id = some (n.toNode pp far near) := by
      rw [set_nodes_of_ne hnp]
      exact h₂ x
    simp only [Side.pick, Label.toNode, turned] at hn hp h₁ h₂ h₃ ⊢
    unfold DiscretePDF.rotate
    refine (bind_of_eq hn _).trans ?_
    refine (bind_of_eq rfl _).trans ?_
    refine (bind_of_eq hp _).trans ?_
    refine (bind_of_eq (modify_eq hn) _).trans ?_
    refine (bind_of_eq (modify_eq h₁) _).trans ?_
    refine (bind_of_eq (h₂ _) _).trans ?_
    refine (bind_of_eq set_nodes_self _).trans ?_
    refine (if_neg hc).trans ?_
    refine (bind_of_eq (modify_eq set_nodes_self) _).trans ?_
    exact bind_of_eq (modify_eq (h₃ _ _)) _

theorem Holds.rotate_turn (h : Holds o s (.on d p (.on d n near far) c) path (some p.id)) :
    ∃ s₁, s.rotate n.id = DiscretePDF.finishRotate s₁ n.id p.id (parentOf path) ∧
      Holds o s₁ (.on d n near (.on d p far c)) path (some p.id) := by
  obtain ⟨hp, hrepn, hrepc⟩ := rep_on.mp h.rep
  obtain ⟨hn, hrepnear, hrepfar⟩ := rep_on.mp hrepn
  obtain ⟨hnn, -, hpn, -, hnc⟩ := nodup_on.mp (nodup_plug.mp h.nodup).1
  obtain ⟨-, -, -, hnfar, -⟩ := nodup_on.mp hnn
  simp only [mem_ids_on, not_or] at hpn
  have hnp : n.id ≠ p.id := fun heq => hpn.2.1 heq.symm
  have hc : pointer c ≠ some n.id := fun heq =>
    hnc n.id (mem_ids_on.mpr (.inr (.inl rfl))) (mem_ids_of_pointer heq)
  rw [pointer_on] at hp
  have hrot := rotate_eq hnp hc hn hp
  have hnode : (s.turned d n p (parentOf path) (pointer near) (pointer far) (pointer c)).nodes n.id =
      some (n.toNode (parentOf path) (d.pick (pointer near) (some p.id))
        (d.pick (some p.id) (pointer near))) := set_nodes_self
  have hpode : (s.turned d n p (parentOf path) (pointer near) (pointer far) (pointer c)).nodes p.id =
      some (p.toNode (some n.id) (d.pick (pointer far) (pointer c))
        (d.pick (pointer c) (pointer far))) := by
    rw [turned, set_nodes_of_ne hnp.symm, set_nodes_self]
  have hrest (i : Pointer) (hin : i ≠ n.id) (hip : i ≠ p.id) :
      (s.turned d n p (parentOf path) (pointer near) (pointer far) (pointer c)).nodes i =
        s.nodes i := by
    rw [turned, set_nodes_of_ne hin, set_nodes_of_ne hip, set_nodes_of_ne hip, set_nodes_of_ne hin]
  cases far with
  | nil =>
    exact ⟨_, hrot, h.turn rfl rfl hnode hpode (fun _ _ _ hfar => nomatch hfar)
      fun i hin hip _ => hrest i hin hip⟩
  | node l b r =>
    have hb : b.id ∈ ids (.node l b r) := by simp
    have hbn : b.id ≠ n.id := fun heq => hnfar (heq ▸ hb)
    have hbp : b.id ≠ p.id := fun heq => hpn.2.2 (heq ▸ hb)
    have hmodify := modify_eq (f := fun c => { c with parent := some p.id })
      ((hrest b.id hbn hbp).trans hrepfar.1)
    refine ⟨_, hrot.trans (congrArg (Option.bind · _) hmodify), h.turn rfl rfl ?_ ?_ ?_ ?_⟩
    · rw [set_nodes_of_ne hbn.symm]
      exact hnode
    · rw [set_nodes_of_ne hbp.symm]
      exact hpode
    · intro l' b' r' heq
      cases heq
      exact set_nodes_self
    · intro i hin hip hib
      rw [set_nodes_of_ne fun heq => hib (congrArg some heq)]
      exact hrest i hin hip

theorem At.rotate (h : At o s (.on d p (.on d n near far) c) path) :
    ∃ s' x, s.rotate n.id = some s' ∧ At o s' (.on d { n with sum := x } near
      (.on d { p with sum := p.weight + sumOf far + sumOf c } far c)) path := by
  rw [At, pointer_on] at h
  obtain ⟨s₁, hs₁, h₁⟩ := h.rotate_turn
  obtain ⟨s', x, hs', h'⟩ := h₁.finishRotate
  exact ⟨s', x, hs₁.trans hs', h'⟩

end Primitives

end Klee.DiscretePDF
