import Klee.Support.ImmutableTreeIterator
import Klee.Support.ImmutableTreeRun

/-! The iterators of `ImmutableTree` are positions in the order of the elements. -/
namespace Klee.ImmutableTree

open Node

variable {K V : Type} {h : Heap V} {n m : Pointer} {t left right : Node V} {c : Cell V} {i : Nat}
  {elts : List Pointer}

section Holds

def Heap.Descending (h : Heap V) : Prop :=
  ∀ n c, n ≠ terminator → h.cells n = some c → c.left < n ∧ c.right < n

theorem Heap.Holds.of_terminator (ht : h.Holds ImmutableTree.terminator t) :
    t = .terminator := by
  cases ht with
  | terminator => rfl
  | node hn => exact absurd rfl hn

theorem Heap.Holds.eq_terminator (ht : h.Holds n .terminator) :
    n = ImmutableTree.terminator := by
  cases ht
  rfl

theorem Heap.Holds.exists_cell (ht : h.Holds n t) (hn : n ≠ ImmutableTree.terminator) :
    ∃ c left right, h.cells n = some c ∧ t = .node left right c.value c.height ∧
      h.Holds c.left left ∧ h.Holds c.right right := by
  cases ht with
  | terminator => exact absurd rfl hn
  | node _ hc hl hr => exact ⟨_, _, _, hc, rfl, hl, hr⟩

/-- A node is the root of one tree. -/
theorem Heap.Holds.unique {t' : Node V} (ht : h.Holds n t) (ht' : h.Holds n t') : t = t' := by
  induction ht generalizing t' with
  | terminator => exact ht'.of_terminator.symm
  | node hn hc _ _ ihl ihr =>
    cases ht' with
    | terminator => exact absurd rfl hn
    | node _ hc' hl hr =>
      obtain rfl := Option.some.inj (hc.symm.trans hc')
      rw [ihl hl, ihr hr]

theorem toList_eq_nil : t.toList = [] ↔ t = .terminator := by
  cases t with
  | terminator => simp
  | node => simp

variable {lt : K → K → Prop} {key : V → K}

/-- The two children of a node are not the same node. -/
theorem children_ne [IsStrictOrder K lt] {value : V} (hl : h.Holds c.left left)
    (hr : h.Holds c.right right) (ho : Ordered lt key (left.toList ++ value :: right.toList))
    (hne : right.toList ≠ []) : c.left ≠ c.right := by
  intro heq
  rw [heq] at hl
  obtain rfl := hl.unique hr
  obtain ⟨u, hu⟩ := List.exists_mem_of_ne_nil _ hne
  obtain ⟨-, -, hlv, hvr⟩ := ordered_append_cons.mp ho
  exact irrefl_of lt _ (trans_of lt (hlv u hu) (hvr u hu))

end Holds

section Paths

/-- The nodes from the element `i` up to the root `n`. -/
def path (h : Heap V) : Node V → Pointer → Nat → List Pointer
  | .terminator, _, _ => []
  | .node left right _ _, n, i =>
    (h.cells n).elim [] fun c =>
      if i < left.toList.length then path h left c.left i ++ [n]
      else if i = left.toList.length then [n]
      else path h right c.right (i - left.toList.length - 1) ++ [n]

variable {value : V} {height : Nat}

theorem path_left (hc : h.cells n = some c) (hi : i < left.toList.length) (elts : List Pointer) :
    path h (.node left right value height) n i ++ elts = path h left c.left i ++ n :: elts := by
  rw [path, hc, Option.elim_some, if_pos hi, List.append_assoc, List.singleton_append]

theorem path_root (hc : h.cells n = some c) (hi : i = left.toList.length) (elts : List Pointer) :
    path h (.node left right value height) n i ++ elts = n :: elts := by
  rw [path, hc, Option.elim_some, hi, if_neg (lt_irrefl _), if_pos rfl, List.singleton_append]

theorem path_right (hc : h.cells n = some c) (i : Nat) (elts : List Pointer) :
    path h (.node left right value height) n (left.toList.length + 1 + i) ++ elts =
      path h right c.right i ++ n :: elts := by
  have hi : left.toList.length + 1 + i - left.toList.length - 1 = i := by omega
  rw [path, hc, Option.elim_some, if_neg (by omega), if_neg (by omega), hi,
    List.append_assoc, List.singleton_append]

theorem path_first (hc : h.cells n = some c) (elts : List Pointer) :
    path h (.node left right value height) n 0 ++ elts = path h left c.left 0 ++ n :: elts := by
  by_cases hi : left.toList.length = 0
  · rw [path_root hc hi.symm, toList_eq_nil.mp (List.length_eq_zero_iff.mp hi)]
    rfl
  · exact path_left hc (Nat.pos_of_ne_zero hi) elts

theorem path_last (hc : h.cells n = some c) (elts : List Pointer) :
    path h (.node left right value height) n (left.toList.length + right.toList.length) ++ elts =
      path h right c.right (right.toList.length - 1) ++ n :: elts := by
  by_cases hi : right.toList.length = 0
  · rw [path_root hc (by omega), toList_eq_nil.mp (List.length_eq_zero_iff.mp hi)]
    rfl
  · rw [← path_right hc]
    congr 2
    omega

/-- On top is the node of the element. -/
theorem path_top (ht : h.Holds n t) (hi : i < t.toList.length) (elts : List Pointer) :
    ∃ m c rest, path h t n i ++ elts = m :: rest ∧ h.cells m = some c ∧
      t.toList[i]? = some c.value := by
  induction ht generalizing i elts with
  | terminator => cases hi
  | @node n c left right hn hc hl hr ihl ihr =>
    rw [toList_node, List.length_append, List.length_cons] at hi
    rw [toList_node, List.getElem?_append]
    rcases lt_trichotomy i left.toList.length with hlt | rfl | hgt
    · rw [path_left hc hlt, if_pos hlt]
      exact ihl hlt _
    · rw [path_root hc rfl, if_neg (lt_irrefl _), Nat.sub_self]
      exact ⟨n, c, elts, rfl, hc, rfl⟩
    · obtain ⟨j, rfl⟩ := Nat.exists_eq_add_of_lt hgt
      have hj : left.toList.length + j + 1 = left.toList.length + 1 + j := by omega
      rw [hj, path_right hc, if_neg (by omega)]
      have hsub : left.toList.length + 1 + j - left.toList.length = j + 1 := by omega
      rw [hsub, List.getElem?_cons_succ]
      exact ihr (by omega) _

/-- Different elements have different paths. -/
theorem path_ne_nil (ht : h.Holds n t) (hi : i < t.toList.length) : path h t n i ≠ [] := by
  obtain ⟨m, c, rest, hpath, -⟩ := path_top ht hi []
  rw [List.append_nil] at hpath
  rw [hpath]
  simp

end Paths

section Moves

/-- Every tree in memory is deep enough for the stack that it is walked with. -/
def Room (stack : FixedStack) (elts : List Pointer) (t : Node V) : Prop :=
  elts.length + t.height ≤ stack.max

variable {stack : FixedStack} {fuel : Nat}

theorem pushBack_of_lt (stack : FixedStack) (hlt : stack.elts.length < stack.max) (n : Pointer) :
    stack.pushBack n = some { stack with elts := n :: stack.elts } :=
  if_pos hlt

theorem pushAll_left (stack : FixedStack) (hd : h.Descending) (ht : h.Holds n t)
    (hb : t.Balanced) (hfuel : n < fuel) (hroom : Room stack stack.elts t) :
    pushAll h Cell.left fuel n stack =
      some { stack with elts := path h t n 0 ++ stack.elts } := by
  induction ht generalizing fuel stack with
  | terminator =>
    obtain ⟨fuel, rfl⟩ := Nat.exists_eq_succ_of_ne_zero hfuel.ne_bot
    rfl
  | @node n c left right hn hc hl hr ihl ihr =>
    obtain ⟨fuel, rfl⟩ := Nat.exists_eq_succ_of_ne_zero (Nat.zero_lt_of_lt hfuel).ne'
    obtain ⟨hbl, -, hheight, -⟩ := hb
    unfold Room at hroom
    rw [height_node] at hroom
    have hpush := pushBack_of_lt stack (by omega) n
    rw [pushAll, if_neg hn, hc, Option.bind_eq_bind, Option.bind_some, hpush, Option.bind_eq_bind,
      Option.bind_some, path_first hc]
    refine ihl _ hbl (Nat.lt_of_lt_of_le (hd n c hn hc).1 (Nat.le_of_lt_succ hfuel)) ?_
    change (n :: stack.elts).length + left.height ≤ stack.max
    rw [List.length_cons]
    omega

theorem pushAll_right (stack : FixedStack) (hd : h.Descending) (ht : h.Holds n t)
    (hb : t.Balanced) (hfuel : n < fuel) (hroom : Room stack stack.elts t) :
    pushAll h Cell.right fuel n stack =
      some { stack with elts := path h t n (t.toList.length - 1) ++ stack.elts } := by
  induction ht generalizing fuel stack with
  | terminator =>
    obtain ⟨fuel, rfl⟩ := Nat.exists_eq_succ_of_ne_zero hfuel.ne_bot
    rfl
  | @node n c left right hn hc hl hr ihl ihr =>
    obtain ⟨fuel, rfl⟩ := Nat.exists_eq_succ_of_ne_zero (Nat.zero_lt_of_lt hfuel).ne'
    obtain ⟨-, hbr, hheight, -⟩ := hb
    unfold Room at hroom
    rw [height_node] at hroom
    have hpush := pushBack_of_lt stack (by omega) n
    have hlast : (node left right c.value c.height).toList.length - 1 =
        left.toList.length + right.toList.length := by
      rw [toList_node, List.length_append, List.length_cons]
      omega
    rw [pushAll, if_neg hn, hc, Option.bind_eq_bind, Option.bind_some, hpush, Option.bind_eq_bind,
      Option.bind_some, hlast, path_last hc]
    refine ihr _ hbr (Nat.lt_of_lt_of_le (hd n c hn hc).2 (Nat.le_of_lt_succ hfuel)) ?_
    change (n :: stack.elts).length + right.height ≤ stack.max
    rw [List.length_cons]
    omega

def Iterator.withElts (it : Iterator) (elts : List Pointer) : Iterator :=
  { it with stack := { it.stack with elts := elts } }

variable {it : Iterator} {lt : K → K → Prop} {key : V → K} [IsStrictOrder K lt]

/-- A step forwards, inside a tree below the nodes `elts`: to the next element of the tree, or from
its last one to the first ancestor that has the tree on its left. -/
theorem next_path (elts : List Pointer) (hd : h.Descending) (ht : h.Holds n t) (hb : t.Balanced)
    (ho : Ordered lt key t.toList) (hi : i < t.toList.length)
    (helts : it.stack.elts = path h t n i ++ elts) (hroom : Room it.stack elts t) :
    it.next h = if i + 1 < t.toList.length then some (it.withElts (path h t n (i + 1) ++ elts))
      else (climb h Cell.left n elts).map it.withElts := by
  induction ht generalizing i elts with
  | terminator => cases hi
  | @node n c left right hn hc hl hr ihl ihr =>
    obtain ⟨hbl, hbr, hheight, -⟩ := hb
    have ho' := ordered_append_cons.mp ho
    unfold Room at hroom
    rw [height_node] at hroom
    rw [toList_node, List.length_append, List.length_cons] at hi ⊢
    rcases lt_trichotomy i left.toList.length with hlt | rfl | hgt
    · rw [path_left hc hlt] at helts
      have hroom' : Room it.stack (n :: elts) left := by
        unfold Room
        rw [List.length_cons]
        omega
      rw [ihl _ hbl ho'.1 hlt helts hroom',
        if_pos (by omega : i + 1 < left.toList.length + (right.toList.length + 1))]
      split
      case isTrue hlt' => rw [path_left hc hlt']
      case isFalse hge =>
        rw [path_root hc (by omega), climb, hc, Option.bind_eq_bind, Option.bind_some, if_pos rfl]
        rfl
    · rw [path_root hc rfl] at helts
      rw [Iterator.next, helts]
      dsimp only
      rw [move, hc, Option.bind_eq_bind, Option.bind_some]
      by_cases hright : c.right = ImmutableTree.terminator
      · rw [hright] at hr
        rw [if_pos hright, hr.of_terminator, if_neg (by simp)]
        cases climb h Cell.left n elts <;> rfl
      · rw [if_neg hright]
        obtain ⟨c', left', right', hc', rfl, hl', -⟩ := hr.exists_cell hright
        obtain ⟨hbl', -, hheight', -⟩ := hbr
        have hpush := pushBack_of_lt it.stack (by
          rw [helts, List.length_cons]
          rw [height_node] at hheight
          omega) c.right
        have hroom' : Room it.stack (c.right :: n :: elts) left' := by
          unfold Room
          rw [List.length_cons, List.length_cons]
          rw [height_node] at hheight
          omega
        rw [hpush, Option.bind_eq_bind, Option.bind_some, hc', Option.bind_some,
          pushAll_left _ hd hl' hbl'
            ((hd _ c' hright hc').1.trans (Nat.lt_succ_self _)) (helts ▸ hroom'),
          if_pos (by simp), ← Nat.add_zero (left.toList.length + 1), path_right hc,
          path_first hc', helts]
        rfl
    · obtain ⟨j, rfl⟩ := Nat.exists_eq_add_of_lt hgt
      have hj : left.toList.length + j + 1 = left.toList.length + 1 + j := by omega
      rw [hj] at helts hi ⊢
      rw [path_right hc] at helts
      have hroom' : Room it.stack (n :: elts) right := by
        unfold Room
        rw [List.length_cons]
        omega
      rw [ihr _ hbr ho'.2.1 (by omega) helts hroom']
      by_cases hlast : j + 1 < right.toList.length
      · rw [if_pos hlast, if_pos (by omega), Nat.add_assoc (left.toList.length + 1), path_right hc]
      · have hne : right.toList ≠ [] := by
          rw [← List.length_pos_iff]
          omega
        rw [if_neg hlast, if_neg (by omega), climb, hc, Option.bind_eq_bind, Option.bind_some,
          if_neg (children_ne hl hr ho hne).symm]

/-- A step backwards. -/
theorem prev_path (elts : List Pointer) (hd : h.Descending) (ht : h.Holds n t) (hb : t.Balanced)
    (ho : Ordered lt key t.toList) (hi : i < t.toList.length)
    (helts : it.stack.elts = path h t n i ++ elts) (hroom : Room it.stack elts t) :
    it.prev h = if 0 < i then some (it.withElts (path h t n (i - 1) ++ elts))
      else (climb h Cell.right n elts).map it.withElts := by
  induction ht generalizing i elts with
  | terminator => cases hi
  | @node n c left right hn hc hl hr ihl ihr =>
    obtain ⟨hbl, hbr, hheight, -⟩ := hb
    have ho' := ordered_append_cons.mp ho
    unfold Room at hroom
    rw [height_node] at hroom
    rw [toList_node, List.length_append, List.length_cons] at hi
    rcases lt_trichotomy i left.toList.length with hlt | rfl | hgt
    · rw [path_left hc hlt] at helts
      have hroom' : Room it.stack (n :: elts) left := by
        unfold Room
        rw [List.length_cons]
        omega
      rw [ihl _ hbl ho'.1 hlt helts hroom']
      split
      case isTrue hpos => rw [path_left hc (by omega)]
      case isFalse hzero =>
        by_cases hright : right.toList = []
        · rw [climb, hc, Option.bind_eq_bind, Option.bind_some, if_neg]
          intro heq
          rw [← heq, toList_eq_nil.mp hright] at hr
          rw [hr.eq_terminator] at hl
          rw [hl.of_terminator] at hlt
          cases hlt
        · rw [climb, hc, Option.bind_eq_bind, Option.bind_some,
            if_neg (children_ne hl hr ho hright)]
    · rw [path_root hc rfl] at helts
      rw [Iterator.prev, helts]
      dsimp only
      rw [move, hc, Option.bind_eq_bind, Option.bind_some]
      by_cases hleft : c.left = ImmutableTree.terminator
      · rw [hleft] at hl
        rw [if_pos hleft, hl.of_terminator, if_neg (by simp)]
        cases climb h Cell.right n elts <;> rfl
      · rw [if_neg hleft]
        obtain ⟨c', left', right', hc', rfl, -, hr'⟩ := hl.exists_cell hleft
        obtain ⟨-, hbr', hheight', -⟩ := hbl
        have hpush := pushBack_of_lt it.stack (by
          rw [helts, List.length_cons]
          rw [height_node] at hheight
          omega) c.left
        have hroom' : Room it.stack (c.left :: n :: elts) right' := by
          unfold Room
          rw [List.length_cons, List.length_cons]
          rw [height_node] at hheight
          omega
        have hlast : (node left' right' c'.value c'.height).toList.length - 1 =
            left'.toList.length + right'.toList.length := by
          rw [toList_node, List.length_append, List.length_cons]
          omega
        rw [hpush, Option.bind_eq_bind, Option.bind_some, hc', Option.bind_some,
          pushAll_right _ hd hr' hbr'
            ((hd _ c' hleft hc').2.trans (Nat.lt_succ_self _)) (helts ▸ hroom'),
          if_pos (by simp), path_left hc (by simp), hlast, path_last hc', helts]
        rfl
    · obtain ⟨j, rfl⟩ := Nat.exists_eq_add_of_lt hgt
      have hj : left.toList.length + j + 1 = left.toList.length + 1 + j := by omega
      rw [hj] at helts hi ⊢
      rw [path_right hc] at helts
      have hroom' : Room it.stack (n :: elts) right := by
        unfold Room
        rw [List.length_cons]
        omega
      rw [ihr _ hbr ho'.2.1 (by omega) helts hroom',
        if_pos (by omega : 0 < left.toList.length + 1 + j)]
      split
      case isTrue hpos =>
        rw [Nat.add_sub_assoc hpos, path_right hc]
      case isFalse hzero =>
        rw [climb, hc, Option.bind_eq_bind, Option.bind_some, if_pos rfl, path_root hc (by omega)]
        rfl

end Moves

section Bounds

variable {lt : K → K → Prop} [DecidableRel lt] {key : V → K} {k : K} {v : V}

def rank (lt : K → K → Prop) [DecidableRel lt] (key : V → K) (k : K) : Node V → Nat
  | .terminator => 0
  | .node left right value _ =>
    if lt k (key value) then rank lt key k left
    else if lt (key value) k then left.toList.length + 1 + rank lt key k right
    else left.toList.length

theorem rank_le (lt : K → K → Prop) [DecidableRel lt] (key : V → K) (k : K) (t : Node V) :
    rank lt key k t ≤ t.toList.length := by
  induction t with
  | terminator => exact le_rfl
  | node left right value height ihl ihr =>
    rw [rank, toList_node, List.length_append, List.length_cons]
    split
    · omega
    split
    · omega
    · omega

/-- The elements below the key come first. -/
theorem lt_iff_lt_rank [IsStrictWeakOrder K lt] (ho : Ordered lt key t.toList)
    (hv : t.toList[i]? = some v) :
    lt (key v) k ↔ i < rank lt key k t := by
  induction t generalizing i with
  | terminator => cases hv
  | node left right value height ihl ihr =>
    obtain ⟨hol, hor, hlv, hvr⟩ := ordered_append_cons.mp ho
    have hmem {l : List V} {j : Nat} (h : l[j]? = some v) : v ∈ l := List.mem_of_getElem? h
    rw [toList_node, List.getElem?_append] at hv
    rw [rank]
    rcases lt_trichotomy i left.toList.length with hlt | rfl | hgt
    · rw [if_pos hlt] at hv
      split
      · exact ihl hol hv
      split
      case isTrue hk => exact iff_of_true (trans_of lt (hlv v (hmem hv)) hk) (by omega)
      case isFalse hge hle =>
        exact iff_of_true (lt_of_lt_of_incompRel (hlv v (hmem hv)) ⟨hle, hge⟩) hlt
    · rw [if_neg (lt_irrefl _), Nat.sub_self] at hv
      obtain rfl : value = v := Option.some.inj hv
      split
      case isTrue hk => exact iff_of_false (asymm_of lt hk) (not_lt.mpr (rank_le lt key k left))
      split
      case isTrue hk => exact iff_of_true hk (by omega)
      case isFalse hle => exact iff_of_false hle (lt_irrefl _)
    · obtain ⟨j, rfl⟩ := Nat.exists_eq_add_of_lt hgt
      have hsub : left.toList.length + j + 1 - left.toList.length = j + 1 := by omega
      rw [if_neg (by omega), hsub, List.getElem?_cons_succ] at hv
      have hvv := hvr v (hmem hv)
      split
      case isTrue hk =>
        have hle := rank_le lt key k left
        exact iff_of_false (asymm_of lt (trans_of lt hk hvv)) (by omega)
      split
      case isTrue hk =>
        rw [ihr hor hv]
        omega
      case isFalse hge hle =>
        refine iff_of_false (fun hvk => ?_) (by omega)
        exact hle (trans_of lt hvv hvk)

/-- Where the search of `lower_bound` ends: at the element with the key, at the first element above
the key, or at the last element below it. -/
def LowerEnds (h : Heap V) (lt : K → K → Prop) [DecidableRel lt] (key : V → K) (k : K) (t : Node V)
    (n : Pointer) (elts : List Pointer) (found : Bool) (elts' : List Pointer) : Prop :=
  (found = true ∧ ∃ v, t.toList[rank lt key k t]? = some v ∧ ¬ lt k (key v) ∧
    elts' = path h t n (rank lt key k t) ++ elts) ∨
  (found = false ∧ ((t.toList = [] ∧ elts' = elts) ∨
    (∃ v, t.toList[rank lt key k t]? = some v ∧ lt k (key v) ∧
      elts' = path h t n (rank lt key k t) ++ elts) ∨
    ∃ j v, rank lt key k t = j + 1 ∧ t.toList[j]? = some v ∧ lt (key v) k ∧
      elts' = path h t n j ++ elts))

theorem lowerBoundFrom_spec (lt : K → K → Prop) [DecidableRel lt] (key : V → K) (k : K) {fuel : Nat}
    (stack : FixedStack) (hd : h.Descending)
    (ht : h.Holds n t) (hb : t.Balanced) (hfuel : n < fuel) (hroom : Room stack stack.elts t) :
    ∃ found elts', lowerBoundFrom h lt key k fuel n stack = some (found, ⟨stack.max, elts'⟩) ∧
      LowerEnds h lt key k t n stack.elts found elts' := by
  induction ht generalizing fuel stack with
  | terminator =>
    obtain ⟨fuel, rfl⟩ := Nat.exists_eq_succ_of_ne_zero hfuel.ne_bot
    exact ⟨false, stack.elts, rfl, .inr ⟨rfl, .inl ⟨rfl, rfl⟩⟩⟩
  | @node n c left right hn hc hl hr ihl ihr =>
    obtain ⟨fuel, rfl⟩ := Nat.exists_eq_succ_of_ne_zero (Nat.zero_lt_of_lt hfuel).ne'
    obtain ⟨hbl, hbr, hheight, -⟩ := hb
    unfold Room at hroom
    rw [height_node] at hroom
    have hpush := pushBack_of_lt stack (by omega) n
    have hfuels := hd n c hn hc
    have hrooms : Room ⟨stack.max, n :: stack.elts⟩ (n :: stack.elts) left ∧
        Room ⟨stack.max, n :: stack.elts⟩ (n :: stack.elts) right := by
      unfold Room
      rw [List.length_cons]
      dsimp only
      omega
    rw [lowerBoundFrom, if_neg hn, hc, Option.bind_eq_bind, Option.bind_some, hpush,
      Option.bind_eq_bind, Option.bind_some]
    unfold LowerEnds
    rw [rank, toList_node]
    by_cases hlt : lt k (key c.value)
    · rw [if_pos hlt, if_pos hlt]
      have hhere : (left.toList ++ c.value :: right.toList)[left.toList.length]? =
          some c.value := by
        rw [List.getElem?_append_right le_rfl, Nat.sub_self]
        rfl
      have hinside {j : Nat} {v : V} (hv : left.toList[j]? = some v) :
          (left.toList ++ c.value :: right.toList)[j]? = some v ∧
            path h left c.left j ++ n :: stack.elts =
              path h (node left right c.value c.height) n j ++ stack.elts := by
        have hj := (List.getElem?_eq_some_iff.mp hv).1
        exact ⟨by rw [List.getElem?_append_left hj, hv], (path_left hc hj _).symm⟩
      obtain ⟨found, elts', hrun, hends⟩ := ihl _ hbl
        (Nat.lt_of_lt_of_le hfuels.1 (Nat.le_of_lt_succ hfuel)) hrooms.1
      refine ⟨found, elts', hrun, ?_⟩
      rcases hends with ⟨hfound, v, hv, hvk, helts⟩ | ⟨hfound, ⟨hnil, helts⟩ | ⟨v, hv, hvk, helts⟩ |
        ⟨j, v, hj, hv, hvk, helts⟩⟩
      · exact .inl ⟨hfound, v, (hinside hv).1, hvk, helts.trans (hinside hv).2⟩
      · rw [toList_eq_nil.mp hnil] at hhere ⊢
        exact .inr ⟨hfound, .inr (.inl ⟨c.value, hhere, hlt,
          helts.trans (path_root hc rfl stack.elts).symm⟩)⟩
      · exact .inr ⟨hfound, .inr (.inl ⟨v, (hinside hv).1, hvk, helts.trans (hinside hv).2⟩)⟩
      · exact .inr ⟨hfound, .inr (.inr ⟨j, v, hj, (hinside hv).1, hvk,
          helts.trans (hinside hv).2⟩)⟩
    rw [if_neg hlt, if_neg hlt]
    have hhere : (left.toList ++ c.value :: right.toList)[left.toList.length]? = some c.value := by
      rw [List.getElem?_append_right le_rfl, Nat.sub_self]
      rfl
    by_cases hgt : lt (key c.value) k
    · rw [if_pos hgt, if_pos hgt]
      have hinside {j : Nat} {v : V} (hv : right.toList[j]? = some v) :
          (left.toList ++ c.value :: right.toList)[left.toList.length + 1 + j]? = some v ∧
            path h right c.right j ++ n :: stack.elts =
              path h (node left right c.value c.height) n (left.toList.length + 1 + j) ++
                stack.elts := by
        refine ⟨?_, (path_right hc j _).symm⟩
        rw [List.getElem?_append_right (by omega), Nat.add_assoc, Nat.add_sub_cancel_left,
          Nat.add_comm 1, List.getElem?_cons_succ, hv]
      obtain ⟨found, elts', hrun, hends⟩ := ihr _ hbr
        (Nat.lt_of_lt_of_le hfuels.2 (Nat.le_of_lt_succ hfuel)) hrooms.2
      refine ⟨found, elts', hrun, ?_⟩
      rcases hends with ⟨hfound, v, hv, hvk, helts⟩ | ⟨hfound, ⟨hnil, helts⟩ | ⟨v, hv, hvk, helts⟩ |
        ⟨j, v, hj, hv, hvk, helts⟩⟩
      · exact .inl ⟨hfound, v, (hinside hv).1, hvk, helts.trans (hinside hv).2⟩
      · rw [toList_eq_nil.mp hnil]
        refine .inr ⟨hfound, .inr (.inr ⟨left.toList.length, c.value, rfl, ?_, hgt,
          helts.trans (path_root hc rfl stack.elts).symm⟩)⟩
        rw [← toList_eq_nil.mp hnil]
        exact hhere
      · exact .inr ⟨hfound, .inr (.inl ⟨v, (hinside hv).1, hvk, helts.trans (hinside hv).2⟩)⟩
      · exact .inr ⟨hfound, .inr (.inr ⟨left.toList.length + 1 + j, v, by rw [hj]; rfl,
          (hinside hv).1, hvk, helts.trans (hinside hv).2⟩)⟩
    · rw [if_neg hgt, if_neg hgt]
      exact ⟨true, n :: stack.elts, rfl, .inl ⟨rfl, c.value, hhere, hlt,
        (path_root hc rfl stack.elts).symm⟩⟩

end Bounds

section Positions

/-- The iterator at the element `i`, and behind the last one. -/
def position (h : Heap V) (t : Node V) (n : Pointer) (i : Nat) : Iterator :=
  ⟨n, t.height, if i < t.toList.length then path h t n i else []⟩

/-- What is promised of the iterators of a tree at `n` with the elements `l`: they are the positions
in `l` and the one behind it, and no step needs more room than the stack has. -/
structure Iterates (h : Heap V) (lt : K → K → Prop) [DecidableRel lt] (key : V → K) (n : Pointer)
    (l : List V) (position : Nat → Iterator) : Prop where
  atBegin : atBegin h n = some (position 0)
  atEnd : atEnd h n = some (position l.length)
  /-- Only the position behind the last element is the end. -/
  position_ne : ∀ i < l.length, position i ≠ position l.length
  deref : ∀ i v, l[i]? = some v → (position i).deref h = some v
  next : ∀ i < l.length, (position i).next h = some (position (i + 1))
  prev : ∀ i < l.length, (position (i + 1)).prev h = some (position i)
  lowerBound : ∀ k, ∃ j ≤ l.length, lowerBound h lt key n k = some (position j) ∧
    ∀ i v, l[i]? = some v → (lt (key v) k ↔ i < j)
  upperBound : ∀ k, ∃ j ≤ l.length, upperBound h lt key n k = some (position j) ∧
    ∀ i v, l[i]? = some v → (¬ lt k (key v) ↔ i < j)
  find : ∀ k, (∃ i v, l[i]? = some v ∧ IncompRel lt (key v) k ∧
      find h lt key n k = some (position i)) ∨
    (∀ v ∈ l, ¬ IncompRel lt (key v) k) ∧ find h lt key n k = some (position l.length)

structure Heap.Built (h : Heap V) : Prop where
  static : ∃ c, h.cells ImmutableTree.terminator = some c ∧ c.height = 0
  descending : h.Descending

theorem Heap.Inv.built [Inhabited V] {tree : Pointer → Node V} {own : Multiset Pointer}
    (hi : h.Inv tree own) : h.Built where
  static := hi.static.elim fun _ hc => ⟨_, hc, rfl⟩
  descending := hi.children_lt

variable {lt : K → K → Prop} {key : V → K} {v : V} {k : K}

theorem position_of_lt (hi : i < t.toList.length) :
    position h t n i = ⟨n, t.height, path h t n i⟩ := by
  rw [position, if_pos hi]

theorem position_end : position h t n t.toList.length = ⟨n, t.height, []⟩ := by
  rw [position, if_neg (lt_irrefl _)]

theorem atEnd_eq (hbuilt : h.Built) (ht : h.Holds n t) :
    atEnd h n = some (position h t n t.toList.length) := by
  have hheight : ∃ c, h.cells n = some c ∧ c.height = t.height := by
    cases ht with
    | terminator => exact hbuilt.static
    | node _ hc => exact ⟨_, hc, rfl⟩
  obtain ⟨c, hc, hheight⟩ := hheight
  rw [atEnd, Iterator.make, hc, position_end, ← hheight]
  rfl

theorem atBegin_eq (hbuilt : h.Built) (ht : h.Holds n t) (hb : t.Balanced) :
    atBegin h n = some (position h t n 0) := by
  have hheight : ∃ c, h.cells n = some c ∧ c.height = t.height := by
    cases ht with
    | terminator => exact hbuilt.static
    | node _ hc => exact ⟨_, hc, rfl⟩
  obtain ⟨c, hc, hheight⟩ := hheight
  have hpush := pushAll_left ⟨c.height, []⟩ hbuilt.descending ht hb
    (Nat.lt_succ_self n) (by rw [Room, hheight, List.length_nil, Nat.zero_add])
  have hpath : (if 0 < t.toList.length then path h t n 0 else []) = path h t n 0 := by
    split
    · rfl
    case isFalse hzero =>
      rw [Nat.not_lt, Nat.le_zero, List.length_eq_zero_iff, toList_eq_nil] at hzero
      rw [hzero]
      rfl
  rw [atBegin, Iterator.make, hc, Option.bind_eq_bind, Option.bind_some, if_pos rfl, hpush,
    Option.bind_eq_bind, Option.bind_some, List.append_nil, position, hpath, ← hheight]
  rfl

theorem position_deref (ht : h.Holds n t) (hv : t.toList[i]? = some v) :
    (position h t n i).deref h = some v := by
  have hi := (List.getElem?_eq_some_iff.mp hv).1
  obtain ⟨m, c, rest, hpath, hc, hv'⟩ := path_top ht hi []
  rw [List.append_nil] at hpath
  rw [position_of_lt hi, Iterator.deref, hpath, List.head?_cons, Option.bind_some, hc,
    Option.map_some, ← hv', hv]

section Steps

variable [IsStrictOrder K lt]

theorem position_next (hbuilt : h.Built) (ht : h.Holds n t) (hb : t.Balanced)
    (ho : Ordered lt key t.toList) (hi : i < t.toList.length) :
    (position h t n i).next h = some (position h t n (i + 1)) := by
  rw [next_path [] hbuilt.descending ht hb ho hi
    (by rw [position_of_lt hi, List.append_nil]) (by simp [Room, position])]
  split
  case isTrue hlt => rw [position_of_lt hi, position_of_lt hlt, List.append_nil]; rfl
  case isFalse hge =>
    obtain hlast : i + 1 = t.toList.length := by omega
    rw [position_of_lt hi, hlast, position_end]
    rfl

theorem position_prev (hbuilt : h.Built) (ht : h.Holds n t) (hb : t.Balanced)
    (ho : Ordered lt key t.toList) (hi : i < t.toList.length) :
    (position h t n (i + 1)).prev h = some (position h t n i) := by
  rcases Nat.lt_or_eq_of_le (Nat.succ_le_of_lt hi) with hlt | hlast
  · rw [prev_path [] hbuilt.descending ht hb ho hlt
      (by rw [position_of_lt hlt, List.append_nil]) (by simp [Room, position]),
      if_pos (Nat.succ_pos i), position_of_lt hlt, position_of_lt hi, List.append_nil]
    rfl
  · have hpush := pushAll_right ⟨t.height, []⟩ hbuilt.descending ht hb
      (Nat.lt_succ_self n) (by rw [Room, List.length_nil, Nat.zero_add])
    have hi' : t.toList.length - 1 = i := by omega
    rw [hi', List.append_nil] at hpush
    change i + 1 = t.toList.length at hlast
    rw [hlast, position_end, Iterator.prev]
    dsimp only
    rw [hpush, position_of_lt hi]
    rfl

end Steps

theorem ordered_get {l : List V} {u : V} {j : Nat} (ho : Ordered lt key l) (hu : l[i]? = some u)
    (hv : l[j]? = some v) (hij : i < j) : lt (key u) (key v) := by
  obtain ⟨hi, rfl⟩ := List.getElem?_eq_some_iff.mp hu
  obtain ⟨hj, rfl⟩ := List.getElem?_eq_some_iff.mp hv
  exact List.pairwise_iff_getElem.mp ho i j hi hj hij

variable [DecidableRel lt] [IsStrictWeakOrder K lt]

theorem lowerBound_eq (hbuilt : h.Built) (ht : h.Holds n t) (hb : t.Balanced)
    (ho : Ordered lt key t.toList) (k : K) :
    lowerBound h lt key n k = some (position h t n (rank lt key k t)) := by
  obtain ⟨found, elts', hrun, hends⟩ := lowerBoundFrom_spec lt key k ⟨t.height, []⟩
    hbuilt.descending ht hb (Nat.lt_succ_self n)
    (by rw [Room, List.length_nil, Nat.zero_add])
  have hend := atEnd_eq hbuilt ht
  rw [atEnd, position_end] at hend
  rw [lowerBound, hend, Option.bind_eq_bind, Option.bind_some, hrun,
    Option.bind_eq_bind, Option.bind_some]
  dsimp only
  rcases hends with ⟨rfl, v, hv, -, helts⟩ | ⟨rfl, ⟨hnil, helts⟩ | ⟨v, hv, hvk, helts⟩ |
    ⟨j, v, hj, hv, hvk, helts⟩⟩
  · rw [if_pos rfl, position_of_lt (List.getElem?_eq_some_iff.mp hv).1, helts, List.append_nil]
    rfl
  · have hrank := rank_le lt key k t
    rw [hnil, List.length_nil, Nat.le_zero] at hrank
    rw [helts, position, hrank, hnil]
    rfl
  · have hi := (List.getElem?_eq_some_iff.mp hv).1
    obtain ⟨m, c, rest, hpath, hc, hv'⟩ := path_top ht hi []
    obtain rfl := Option.some.inj (hv.symm.trans hv')
    rw [List.append_nil] at helts hpath
    rw [position_of_lt hi, ← helts]
    rw [← helts] at hpath
    rw [hpath]
    simp [hc, asymm_of lt hvk]
  · have hi := (List.getElem?_eq_some_iff.mp hv).1
    obtain ⟨m, c, rest, hpath, hc, hv'⟩ := path_top ht hi []
    obtain rfl := Option.some.inj (hv.symm.trans hv')
    have hnext := position_next hbuilt ht hb ho hi
    rw [List.append_nil] at helts hpath
    rw [position_of_lt hi, ← helts] at hnext
    rw [← helts] at hpath
    rw [hpath] at hnext ⊢
    simp [hc, hvk, hj, hnext]

theorem upperBound_eq (hbuilt : h.Built) (ht : h.Holds n t) (hb : t.Balanced)
    (ho : Ordered lt key t.toList) (k : K) : ∃ j ≤ t.toList.length,
    upperBound h lt key n k = some (position h t n j) ∧
      ∀ i v, t.toList[i]? = some v → (¬ lt k (key v) ↔ i < j) := by
  have hend := atEnd_eq hbuilt ht
  rw [atEnd] at hend
  have hlt {i : Nat} {v : V} (hv : t.toList[i]? = some v) := lt_iff_lt_rank (k := k) ho hv
  obtain ⟨r, hr⟩ : ∃ r, r = rank lt key k t := ⟨_, rfl⟩
  have hle := rank_le lt key k t
  rw [upperBound, hend, Option.bind_eq_bind, Option.bind_some, lowerBound_eq hbuilt ht hb ho,
    Option.bind_eq_bind, Option.bind_some]
  rw [← hr] at hle ⊢
  rcases Nat.lt_or_eq_of_le hle with hr' | hr'
  · obtain ⟨v, hv⟩ : ∃ v, t.toList[r]? = some v := ⟨_, List.getElem?_eq_getElem hr'⟩
    have hne : (position h t n r).stack ≠ (position h t n t.toList.length).stack := by
      rw [position_of_lt hr', position_end]
      simp [path_ne_nil ht hr']
    rw [if_pos hne, position_deref ht hv, Option.bind_some]
    by_cases hk : lt k (key v)
    · rw [if_neg (not_not.mpr hk)]
      refine ⟨r, hle, rfl, fun i w hw => ?_⟩
      rcases lt_or_ge i r with hi | hi
      · exact iff_of_true (asymm_of lt ((hlt hw).mpr (hr ▸ hi))) hi
      · refine iff_of_false (not_not.mpr ?_) (not_lt.mpr hi)
        rcases Nat.eq_or_lt_of_le hi with rfl | hi
        · exact Option.some.inj (hv.symm.trans hw) ▸ hk
        · exact trans_of lt hk (ordered_get ho hv hw hi)
    · rw [if_pos hk, position_next hbuilt ht hb ho hr']
      refine ⟨r + 1, hr', rfl, fun i w hw => ?_⟩
      have hge : ¬ lt (key v) k := fun h => lt_irrefl r (hr ▸ (hlt hv).mp h)
      rcases lt_trichotomy i r with hi | rfl | hi
      · exact iff_of_true (asymm_of lt ((hlt hw).mpr (hr ▸ hi))) (Nat.lt_succ_of_lt hi)
      · exact iff_of_true (Option.some.inj (hv.symm.trans hw) ▸ hk) (Nat.lt_succ_self i)
      · refine iff_of_false (not_not.mpr ?_) (by omega)
        exact lt_of_incompRel_of_lt ⟨hk, hge⟩ (ordered_get ho hv hw hi)
  · rw [hr', if_neg (not_not.mpr rfl)]
    refine ⟨t.toList.length, le_rfl, rfl, fun i w hw => ?_⟩
    have hi := (List.getElem?_eq_some_iff.mp hw).1
    exact iff_of_true (asymm_of lt ((hlt hw).mpr (by omega))) hi

theorem find_eq (hbuilt : h.Built) (ht : h.Holds n t) (hb : t.Balanced)
    (ho : Ordered lt key t.toList) (k : K) :
    (∃ i v, t.toList[i]? = some v ∧ IncompRel lt (key v) k ∧
      find h lt key n k = some (position h t n i)) ∨
    (∀ v ∈ t.toList, ¬ IncompRel lt (key v) k) ∧
      find h lt key n k = some (position h t n t.toList.length) := by
  have hend := atEnd_eq hbuilt ht
  rw [atEnd] at hend
  have hlt {i : Nat} {v : V} (hv : t.toList[i]? = some v) := lt_iff_lt_rank (k := k) ho hv
  obtain ⟨r, hr⟩ : ∃ r, r = rank lt key k t := ⟨_, rfl⟩
  have hle := rank_le lt key k t
  rw [find, hend, Option.bind_eq_bind, Option.bind_some, lowerBound_eq hbuilt ht hb ho,
    Option.bind_eq_bind, Option.bind_some]
  rw [← hr] at hle ⊢
  -- no element has the key where the first one that is not below it is above it
  have hnone (habove : ∀ v, t.toList[r]? = some v → lt k (key v)) :
      ∀ v ∈ t.toList, ¬ IncompRel lt (key v) k := by
    intro w hw hwk
    obtain ⟨i, hi⟩ := List.getElem?_of_mem hw
    have hri : r ≤ i := not_lt.mp fun hir => hwk.1 ((hlt hi).mpr (hr ▸ hir))
    have hr' : r < t.toList.length := hri.trans_lt (List.getElem?_eq_some_iff.mp hi).1
    have hv := habove _ (List.getElem?_eq_getElem hr')
    rcases Nat.eq_or_lt_of_le hri with rfl | hri
    · exact hwk.2 (habove w hi)
    · exact hwk.2 (trans_of lt hv (ordered_get ho (List.getElem?_eq_getElem hr') hi hri))
  rcases Nat.lt_or_eq_of_le hle with hr' | hr'
  · obtain ⟨v, hv⟩ : ∃ v, t.toList[r]? = some v := ⟨_, List.getElem?_eq_getElem hr'⟩
    have hne : (position h t n r).stack ≠ (position h t n t.toList.length).stack := by
      rw [position_of_lt hr', position_end]
      simp [path_ne_nil ht hr']
    rw [if_neg hne, position_deref ht hv, Option.bind_some]
    by_cases hk : lt k (key v)
    · rw [if_pos hk]
      exact .inr ⟨hnone fun w hw => Option.some.inj (hv.symm.trans hw) ▸ hk, rfl⟩
    · rw [if_neg hk]
      refine .inl ⟨r, v, hv, ⟨fun h => lt_irrefl r (hr ▸ (hlt hv).mp h), hk⟩, rfl⟩
  · rw [hr', if_pos rfl]
    refine .inr ⟨hnone fun v hv => ?_, rfl⟩
    exact absurd (List.getElem?_eq_some_iff.mp hv).1 (by omega)

theorem iterates (hbuilt : h.Built) (ht : h.Holds n t) (hb : t.Balanced)
    (ho : Ordered lt key t.toList) : Iterates h lt key n t.toList (position h t n) where
  atBegin := atBegin_eq hbuilt ht hb
  atEnd := atEnd_eq hbuilt ht
  position_ne i hi := by
    rw [position_of_lt hi, position_end]
    simp [path_ne_nil ht hi]
  deref i v := position_deref ht
  next i := position_next hbuilt ht hb ho
  prev i := position_prev hbuilt ht hb ho
  lowerBound k := ⟨_, rank_le lt key k t, lowerBound_eq hbuilt ht hb ho k,
    fun _ _ => lt_iff_lt_rank ho⟩
  upperBound := upperBound_eq hbuilt ht hb ho
  find := find_eq hbuilt ht hb ho

variable (lt key) in
/-- After any run, the iterators of every version go through the elements in order, in both
directions and from every bound, and their stacks have room enough. -/
theorem versions_iterate [Inhabited V] (ops : List (Op K V)) :
    ∃ s, (State.initial.bind (·.run lt key ops)) = some s ∧
      ∀ n ∈ s.versions, ∃ t : Tree lt key, s.heap.Holds n t.node ∧
        ∃ position, Iterates s.heap lt key n t.node.toList position := by
  obtain ⟨s₀, tree₀, hinitial, h₀⟩ := sim_initial lt key
  obtain ⟨s, tree, hrun, hsim⟩ := run_steps h₀ ops
  refine ⟨s, by rw [hinitial]; exact hrun, fun n hn => ?_⟩
  obtain ⟨i, hi⟩ := List.getElem?_of_mem hn
  rcases forall₂_getElem? i (sim_represents hsim) with ⟨hnone, -⟩ | ⟨m, map, hm, -, t, ht, -⟩
  · rw [hi] at hnone
    cases hnone
  · obtain rfl := Option.some.inj (hi.symm.trans hm)
    exact ⟨t, ht, _, iterates hsim.inv.built ht t.balanced t.ordered⟩

theorem versions_iterate_pop : ∃ s, (State.initial.bind (·.run (· < ·) (fun v : Nat => v)
      [.insert 0 5, .insert 1 3, .popMin 2])) = some s ∧
    ∀ n ∈ s.versions, ∃ t : Tree (· < ·) fun v : Nat => v, s.heap.Holds n t.node ∧
      ∃ position, Iterates s.heap (· < ·) (fun v : Nat => v) n t.node.toList position :=
  have : IsStrictWeakOrder Nat (· < ·) := isStrictWeakOrder_of_isOrderConnected
  versions_iterate (· < ·) (fun v : Nat => v) [.insert 0 5, .insert 1 3, .popMin 2]

end Positions

end Klee.ImmutableTree
