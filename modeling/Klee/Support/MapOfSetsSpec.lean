import Klee.Support.MapOfSetsSearch
import Mathlib.Data.List.Sort

/-! `MapOfSets` is a map from finite sets, its searches are exact, and its iterator goes over each
entry once. -/
namespace Klee.MapOfSets

variable {K V : Type} [LinearOrder K] {x y : V} {k : K} {S T : List K}

section Sorted

def Children.keyList : Children K V → List K
  | .nil => []
  | .cons key _ rest => key :: rest.keyList

mutual

/-- Keys ascend from one child to the next and from a node to its children. -/
def Sorted : MapOfSets K V → Prop
  | node _ children => children.Sorted

def Children.Sorted : Children K V → Prop
  | .nil => True
  | .cons key child rest => child.Sorted ∧ rest.Sorted ∧ (∀ k ∈ rest.keyList, key < k) ∧
      ∀ k ∈ child.children.keyList, key < k

end

abbrev IsSet (S : List K) : Prop := S.Pairwise (· < ·)

omit [LinearOrder K] in
theorem Children.mem_keyList_of_has : ∀ {c : Children K V}, c.Has k T x → k ∈ c.keyList
  | .nil, h => h.elim
  | .cons _ _ _, h => by
    rcases h with ⟨rfl, -⟩ | h
    · exact List.mem_cons_self
    · exact List.mem_cons_of_mem _ (mem_keyList_of_has h)

omit [LinearOrder K] in
theorem mem_keyList_of_has_cons {m : MapOfSets K V} (h : m.Has (k :: T) x) :
    k ∈ m.children.keyList := by
  obtain ⟨value, children⟩ := m
  exact Children.mem_keyList_of_has h

mutual

theorem isSet_of_has : ∀ {m : MapOfSets K V} {T : List K}, m.Sorted → m.Has T x → IsSet T
  | node _ _, [], _, _ => List.Pairwise.nil
  | node _ _, _ :: _, hs, h => Children.isSet_of_has hs h

theorem Children.isSet_of_has : ∀ {c : Children K V} {k : K} {T : List K}, c.Sorted →
    c.Has k T x → IsSet (k :: T)
  | .nil, _, _, _, h => h.elim
  | .cons key child rest, k, T, hs, h => by
    obtain ⟨hchild, hrest, -, habove⟩ := hs
    rcases h with ⟨rfl, h⟩ | h
    · have hT := MapOfSets.isSet_of_has hchild h
      cases T with
      | nil => exact List.pairwise_singleton _ _
      | cons t T =>
        have hkt := habove t (mem_keyList_of_has_cons h)
        refine List.pairwise_cons.mpr ⟨fun a ha => ?_, hT⟩
        rcases List.mem_cons.mp ha with rfl | ha
        · exact hkt
        · exact hkt.trans ((List.pairwise_cons.mp hT).1 a ha)
    · exact Children.isSet_of_has hrest h

end

/-- A child is the only one with its key. -/
theorem Children.has_cons {key : K} {child : MapOfSets K V} {rest : Children K V}
    (hs : (Children.cons key child rest).Sorted) :
    (Children.cons key child rest).Has k T x ↔
      if k = key then child.Has T x else rest.Has k T x := by
  have hrest (h : rest.Has key T x) : False :=
    lt_irrefl _ (hs.2.2.1 key (mem_keyList_of_has h))
  split
  case isTrue h =>
    subst h
    exact ⟨fun h => h.elim And.right fun h => (hrest h).elim, fun h => .inl ⟨rfl, h⟩⟩
  case isFalse h =>
    exact ⟨fun h' => h'.resolve_left fun h' => h h'.1, .inr⟩

mutual

theorem has_iff_lookup : ∀ {m : MapOfSets K V} {T : List K}, m.Sorted →
    (m.Has T x ↔ m.lookup T = some x)
  | node _ _, [], _ => Iff.rfl
  | node _ _, _ :: _, hs => Children.has_iff_lookup hs

theorem Children.has_iff_lookup : ∀ {c : Children K V} {k : K} {T : List K}, c.Sorted →
    (c.Has k T x ↔ c.lookup k T = some x)
  | .nil, _, _, _ => ⟨fun h => h.elim, fun h => by cases h⟩
  | .cons key child rest, k, T, hs => by
    rw [Children.has_cons hs, Children.lookup]
    split
    · exact MapOfSets.has_iff_lookup hs.1
    · exact Children.has_iff_lookup hs.2.1

end

end Sorted

section Insert

theorem Children.mem_keyList_insert : ∀ {c : Children K V} {k' : K},
    k' ∈ (c.insert x k S).keyList ↔ k' = k ∨ k' ∈ c.keyList
  | .nil, _ => by simp [Children.insert, keyList]
  | .cons key child rest, k' => by
    rw [Children.insert]
    split
    · rw [keyList, List.mem_cons]
    split
    case isTrue h =>
      subst h
      simp only [keyList, List.mem_cons, or_self_left]
    case isFalse =>
      simp only [keyList, List.mem_cons, mem_keyList_insert]
      exact or_left_comm

theorem mem_keyList_insert {m : MapOfSets K V} {k' : K}
    (h : k' ∈ (m.insert x S).children.keyList) : k' ∈ S ∨ k' ∈ m.children.keyList := by
  obtain ⟨value, children⟩ := m
  cases S with
  | nil => exact .inr h
  | cons k S =>
    rcases Children.mem_keyList_insert.mp h with rfl | h
    · exact .inl List.mem_cons_self
    · exact .inr h

theorem sorted_path {S : List K} (hS : IsSet S) : (path x S : MapOfSets K V).Sorted := by
  induction S with
  | nil => exact trivial
  | cons k S ih =>
    obtain ⟨habove, hS⟩ := List.pairwise_cons.mp hS
    refine ⟨ih hS, trivial, by simp [Children.keyList], ?_⟩
    cases S with
    | nil => simp [path, children, Children.keyList]
    | cons k' S => simpa [path, children, Children.keyList] using habove k' List.mem_cons_self

mutual

theorem sorted_insert : ∀ {m : MapOfSets K V} {S : List K}, m.Sorted → IsSet S →
    (m.insert x S).Sorted
  | node _ _, [], hs, _ => hs
  | node _ _, _ :: _, hs, hS => Children.sorted_insert hs hS

theorem Children.sorted_insert : ∀ {c : Children K V} {k : K} {S : List K}, c.Sorted →
    IsSet (k :: S) → (c.insert x k S).Sorted
  | .nil, _, _, _, hS => sorted_path hS
  | .cons key child rest, k, S, hs, hS => by
    have hnew : (Children.cons k (path x S) .nil : Children K V).Sorted :=
      sorted_path hS
    obtain ⟨hchild, hrest, hlt, habove⟩ := hs
    obtain ⟨haboveS, hS'⟩ := List.pairwise_cons.mp hS
    rw [Children.insert]
    split
    case isTrue hk =>
      refine ⟨hnew.1, ⟨hchild, hrest, hlt, habove⟩, fun k' hk' => ?_, hnew.2.2.2⟩
      rcases List.mem_cons.mp hk' with rfl | hk'
      · exact hk
      · exact hk.trans (hlt k' hk')
    split
    case isTrue hk =>
      subst hk
      refine ⟨MapOfSets.sorted_insert hchild hS', hrest, hlt, fun k' hk' => ?_⟩
      exact (mem_keyList_insert hk').elim (haboveS k') (habove k')
    case isFalse hle hne =>
      refine ⟨hchild, Children.sorted_insert hrest hS, fun k' hk' => ?_, habove⟩
      rcases Children.mem_keyList_insert.mp hk' with rfl | hk'
      · exact lt_of_le_of_ne (not_lt.mp hle) fun h => hne h.symm
      · exact hlt k' hk'

end

theorem lookup_path {S T : List K} :
    (path x S : MapOfSets K V).lookup T = if T = S then some x else none := by
  induction S generalizing T with
  | nil => cases T <;> rfl
  | cons k S ih =>
    cases T with
    | nil => rfl
    | cons t T =>
      simp only [path, lookup, Children.lookup, ih, List.cons.injEq]
      by_cases ht : t = k <;> simp [ht]

theorem Children.lookup_eq_none : ∀ {c : Children K V}, k ∉ c.keyList → c.lookup k T = none
  | .nil, _ => rfl
  | .cons _ _ _, h => by
    rw [keyList, List.mem_cons, not_or] at h
    rw [lookup, if_neg h.1, lookup_eq_none h.2]

mutual

theorem lookup_insert : ∀ {m : MapOfSets K V} {S T : List K}, m.Sorted →
    (m.insert x S).lookup T = if T = S then some x else m.lookup T
  | node _ _, [], [], _ => rfl
  | node _ _, [], _ :: _, _ => rfl
  | node _ _, _ :: _, [], _ => rfl
  | node _ _, _ :: _, _ :: _, hs => Children.lookup_insert hs

theorem Children.lookup_insert : ∀ {c : Children K V} {k t : K} {S T : List K}, c.Sorted →
    (c.insert x k S).lookup t T = if t :: T = k :: S then some x else c.lookup t T
  | .nil, k, t, S, T, _ => lookup_path (S := k :: S) (T := t :: T)
  | .cons key child rest, k, t, S, T, hs => by
    obtain ⟨hchild, hrest, hlt, -⟩ := hs
    rw [Children.insert]
    split
    case isTrue hk =>
      have hnone (h : t = k) : (Children.cons key child rest).lookup t T = none := by
        refine Children.lookup_eq_none fun hmem => ?_
        rcases List.mem_cons.mp hmem with rfl | hmem
        · exact lt_irrefl _ (h ▸ hk)
        · exact lt_asymm (h ▸ hk) (hlt t hmem)
      rw [Children.lookup]
      by_cases ht : t = k
      · rw [if_pos ht, lookup_path, hnone ht]
        simp [ht]
      · rw [if_neg ht, if_neg fun h => ht (List.cons.inj h).1]
    split
    case isTrue hk =>
      subst hk
      rw [Children.lookup, Children.lookup]
      by_cases ht : t = k
      · rw [if_pos ht, if_pos ht, MapOfSets.lookup_insert hchild]
        simp [ht]
      · rw [if_neg ht, if_neg ht, if_neg fun h => ht (List.cons.inj h).1]
    case isFalse hle hne =>
      rw [Children.lookup, Children.lookup, Children.lookup_insert hrest]
      by_cases ht : t = key
      · rw [if_pos ht, if_pos ht, if_neg]
        intro h
        exact hne ((List.cons.inj h).1.symm.trans ht)
      · rw [if_neg ht, if_neg ht]

end

end Insert

section Find

variable {p : V → Bool}

theorem orElse_isSome_left {a b : Option V} (h : a.isSome) : (a <|> b).isSome := by
  cases a with
  | none => cases h
  | some a => rfl

theorem orElse_isSome_right {a b : Option V} (h : b.isSome) : (a <|> b).isSome := by
  cases a with
  | none => exact h
  | some a => rfl

/-- What is left of a subset below its first element. -/
theorem sublist_of_cons_sublist {s t : K} (hT : IsSet (t :: T)) (h : (s :: S).Sublist (t :: T)) :
    (s = t ∧ S.Sublist T) ∨ (t < s ∧ (s :: S).Sublist T) := by
  obtain ⟨hlt, -⟩ := List.pairwise_cons.mp hT
  cases h with
  | cons _ h => exact .inr ⟨hlt s (h.subset List.mem_cons_self), h⟩
  | cons_cons _ h => exact .inl ⟨rfl, h⟩

mutual

theorem findSuperset_isSome : ∀ {m : MapOfSets K V} {S T : List K}, m.Sorted → m.Has T x →
    p x = true → S.Sublist T → (m.findSuperset p S).isSome
  | node _ _, [], [], _, h, hp, _ => by
    rw [findSuperset]
    refine orElse_isSome_left ?_
    obtain rfl : _ = some x := h
    rw [Option.filter_some, if_pos hp]
    rfl
  | node _ _, [], _ :: T, hs, h, hp, hST => by
    rw [findSuperset]
    exact orElse_isSome_right (Children.findSuperset_isSome hs h hp (List.nil_sublist T))
  | node _ _, _ :: _, [], _, _, _, hST => by cases hST
  | node _ _, s :: S, t :: T, hs, h, hp, hST => by
    rw [findSuperset]
    rcases sublist_of_cons_sublist (Children.isSet_of_has hs h) hST with ⟨rfl, hST'⟩ | ⟨-, hST⟩
    · exact orElse_isSome_right (Children.findSupersetAt_isSome hs h hp hST')
    · exact orElse_isSome_left (Children.findSuperset_isSome hs h hp hST)

theorem Children.findSuperset_isSome : ∀ {c : Children K V} {k : K} {S T : List K}, c.Sorted →
    c.Has k T x → p x = true → S.Sublist T → (c.findSuperset p S).isSome
  | .nil, _, _, _, _, h, _, _ => h.elim
  | .cons key child rest, k, S, T, hs, h, hp, hST => by
    rw [Children.findSuperset]
    rcases h with ⟨-, h⟩ | h
    · exact orElse_isSome_left (MapOfSets.findSuperset_isSome hs.1 h hp hST)
    · exact orElse_isSome_right (Children.findSuperset_isSome hs.2.1 h hp hST)

theorem Children.findSupersetAt_isSome : ∀ {c : Children K V} {k : K} {S T : List K}, c.Sorted →
    c.Has k T x → p x = true → S.Sublist T → (c.findSupersetAt p k S).isSome
  | .nil, _, _, _, _, h, _, _ => h.elim
  | .cons key child rest, k, S, T, hs, h, hp, hST => by
    rw [Children.has_cons hs] at h
    rw [Children.findSupersetAt]
    by_cases hk : k = key
    · rw [if_pos hk] at h
      rw [if_neg (hk ▸ lt_irrefl k), if_pos hk]
      exact MapOfSets.findSuperset_isSome hs.1 h hp hST
    · rw [if_neg hk] at h
      rw [if_pos (hs.2.2.1 k (Children.mem_keyList_of_has h))]
      exact Children.findSupersetAt_isSome hs.2.1 h hp hST

end

/-- Skipping elements below a key loses nothing of a set that begins no lower. -/
theorem sublist_dropWhile {key : K} (hT : ∀ t ∈ T, key ≤ t) (h : T.Sublist S) :
    T.Sublist (S.dropWhile (· < key)) := by
  induction S with
  | nil => exact h
  | cons s S ih =>
    rw [List.dropWhile_cons]
    split
    case isTrue hlt =>
      cases h with
      | cons _ h => exact ih h
      | cons_cons _ h =>
        exact absurd (hT s List.mem_cons_self) (not_le.mpr (of_decide_eq_true hlt))
    case isFalse => exact h

mutual

theorem findSubset_isSome : ∀ {m : MapOfSets K V} {S T : List K}, m.Sorted → m.Has T x →
    p x = true → IsSet S → T.Sublist S → (m.findSubset p S).isSome
  | node _ _, S, [], _, h, hp, _, _ => by
    rw [findSubset]
    refine orElse_isSome_left ?_
    obtain rfl : _ = some x := h
    rw [Option.filter_some, if_pos hp]
    rfl
  | node _ _, S, _ :: T, hs, h, hp, hS, hTS => by
    rw [findSubset]
    exact orElse_isSome_right (Children.findSubset_isSome hs h hp hS hTS)

theorem Children.findSubset_isSome : ∀ {c : Children K V} {k : K} {S T : List K}, c.Sorted →
    c.Has k T x → p x = true → IsSet S → (k :: T).Sublist S → (c.findSubset p S).isSome
  | .nil, _, _, _, _, h, _, _, _ => h.elim
  | .cons key child rest, k, S, T, hs, h, hp, hS, hTS => by
    have hT := List.pairwise_cons.mp (Children.isSet_of_has hs h)
    rw [Children.has_cons hs] at h
    have hkey : key ≤ k := by
      split at h
      case isTrue hk => exact hk.ge
      case isFalse => exact (hs.2.2.1 k (Children.mem_keyList_of_has h)).le
    have hle : ∀ t ∈ k :: T, key ≤ t := fun t ht =>
      (List.mem_cons.mp ht).elim (fun ht => ht ▸ hkey) fun ht => hkey.trans (hT.1 t ht).le
    have hTS := sublist_dropWhile hle hTS
    have hS : IsSet (S.dropWhile (· < key)) := hS.sublist (List.dropWhile_sublist _)
    rw [Children.findSubset]
    cases hdrop : S.dropWhile (· < key) with
    | nil =>
      rw [hdrop] at hTS
      cases hTS
    | cons s S' =>
      rw [hdrop] at hTS hS
      dsimp only
      by_cases hk : k = key
      · rw [if_pos hk] at h
        have hs' : s = key := by
          rcases sublist_of_cons_sublist hS hTS with ⟨hks, -⟩ | ⟨hlt, -⟩
          · exact hks ▸ hk
          · have hge : ¬ (s < key) := by
              have := List.head?_dropWhile_not (· < key) S
              rw [hdrop] at this
              simpa using this
            exact absurd (hk ▸ hlt) hge
        rw [if_pos hs']
        rcases sublist_of_cons_sublist hS hTS with ⟨-, hTS⟩ | ⟨hlt, -⟩
        · exact orElse_isSome_left
            (MapOfSets.findSubset_isSome hs.1 h hp (List.pairwise_cons.mp hS).2 hTS)
        · exact absurd (hs' ▸ hlt) (hk ▸ lt_irrefl k)
      · rw [if_neg hk] at h
        split
        case isTrue hs' =>
          rcases sublist_of_cons_sublist hS hTS with ⟨hks, -⟩ | ⟨-, hTS⟩
          · exact absurd (hks.trans hs') hk
          · exact orElse_isSome_right
              (Children.findSubset_isSome hs.2.1 h hp (List.pairwise_cons.mp hS).2 hTS)
        case isFalse => exact Children.findSubset_isSome hs.2.1 h hp hS hTS

end

end Find

section Collect

variable {accum U : Finset K} {m : MapOfSets K V} {c : Children K V}

omit [LinearOrder K] in
theorem mem_entry : (U, y) ∈ m.entry accum ↔ U = accum ∧ m.Has [] y := by
  obtain ⟨value, children⟩ := m
  cases value with
  | none => simp [entry, Has]
  | some x => simp [entry, Has, eq_comm]

theorem Children.has_iff_find : ∀ {c : Children K V}, c.Sorted →
    (c.Has k T x ↔ ∃ child, c.find k = some child ∧ child.Has T x)
  | .nil, _ => by simp [Children.Has, find]
  | .cons key child rest, hs => by
    rw [has_cons hs, find]
    split
    · simp
    · exact has_iff_find hs.2.1

theorem Children.sorted_of_find : ∀ {c : Children K V} {child : MapOfSets K V}, c.Sorted →
    c.find k = some child → child.Sorted
  | .nil, _, _, h => by cases h
  | .cons key child rest, _, hs, h => by
    rw [find] at h
    split at h
    · exact Option.some.inj h ▸ hs.1
    · exact sorted_of_find hs.2.1 h

omit [LinearOrder K] in
theorem has_cons_iff : m.Has (k :: T) x ↔ m.children.Has k T x := by
  obtain ⟨value, children⟩ := m
  rfl

theorem sorted_children (hs : m.Sorted) : m.children.Sorted := by
  obtain ⟨value, children⟩ := m
  exact hs

theorem mem_findSubsetsFrom (hs : c.Sorted) : (U, y) ∈ findSubsetsFrom S c accum ↔
    ∃ k T, c.Has k T y ∧ (k :: T).Sublist S ∧ U = accum ∪ (k :: T).toFinset := by
  induction S generalizing c accum with
  | nil => simp [findSubsetsFrom]
  | cons s S ih =>
    rw [findSubsetsFrom, List.mem_append, ih hs]
    constructor
    · rintro (h | ⟨k, T, h, hTS, hU⟩)
      · cases hfind : c.find s with
        | none =>
          rw [hfind] at h
          cases h
        | some child =>
          rw [hfind, List.mem_append, mem_entry,
            ih (sorted_children (Children.sorted_of_find hs hfind))] at h
          rcases h with ⟨rfl, h⟩ | ⟨k, T, h, hTS, rfl⟩
          · exact ⟨s, [], (Children.has_iff_find hs).mpr ⟨child, hfind, h⟩,
              List.singleton_sublist.mpr List.mem_cons_self, by simp⟩
          · refine ⟨s, k :: T, (Children.has_iff_find hs).mpr ⟨child, hfind, ?_⟩,
              List.cons_sublist_cons.mpr hTS, ?_⟩
            · exact has_cons_iff.mpr h
            · rw [List.toFinset_cons (a := s), Finset.union_insert, Finset.insert_union]
      · exact ⟨k, T, h, List.sublist_cons_of_sublist s hTS, hU⟩
    · rintro ⟨k, T, h, hTS, rfl⟩
      rcases hTS with _ | ⟨_, hTS⟩ | ⟨_, hTS⟩
      · exact .inr ⟨k, T, h, ‹_›, rfl⟩
      · obtain ⟨child, hfind, h⟩ := (Children.has_iff_find hs).mp h
        rw [hfind]
        refine .inl (List.mem_append.mpr ?_)
        cases T with
        | nil => exact .inl (mem_entry.mpr ⟨by simp, h⟩)
        | cons k' T =>
          refine .inr ((ih (sorted_children (Children.sorted_of_find hs hfind))).mpr
            ⟨k', T, has_cons_iff.mp h, hTS, ?_⟩)
          rw [List.toFinset_cons (a := s), Finset.union_insert, Finset.insert_union]

theorem mem_findSubsets (hs : m.Sorted) : (U, y) ∈ m.findSubsets accum S ↔
    ∃ T, m.Has T y ∧ T.Sublist S ∧ U = accum ∪ T.toFinset := by
  rw [findSubsets, List.mem_append, mem_entry, mem_findSubsetsFrom (sorted_children hs)]
  constructor
  · rintro (⟨rfl, h⟩ | ⟨k, T, h, hTS, hU⟩)
    · exact ⟨[], h, List.nil_sublist S, by simp⟩
    · exact ⟨k :: T, has_cons_iff.mpr h, hTS, hU⟩
  · rintro ⟨T, h, hTS, rfl⟩
    cases T with
    | nil => exact .inl ⟨by simp, h⟩
    | cons k T => exact .inr ⟨k, T, has_cons_iff.mp h, hTS, rfl⟩

mutual

theorem mem_findSupersets : ∀ {m : MapOfSets K V} {accum : Finset K} {S : List K}, m.Sorted →
    ((U, y) ∈ m.findSupersets accum S ↔
      ∃ T, m.Has T y ∧ S.Sublist T ∧ U = accum ∪ T.toFinset)
  | node value children, accum, [], hs => by
    rw [findSupersets, List.mem_append, mem_entry, Children.mem_findSupersets hs]
    constructor
    · rintro (⟨rfl, h⟩ | ⟨k, T, h, hST, hU⟩)
      · exact ⟨[], h, List.nil_sublist [], by simp⟩
      · exact ⟨k :: T, h, hST, hU⟩
    · rintro ⟨T, h, hST, rfl⟩
      cases T with
      | nil => exact .inl ⟨by simp, h⟩
      | cons k T => exact .inr ⟨k, T, h, hST, rfl⟩
  | node value children, accum, s :: S, hs => by
    rw [findSupersets, Children.mem_findSupersets hs]
    constructor
    · rintro ⟨k, T, h, hST, hU⟩
      exact ⟨k :: T, h, hST, hU⟩
    · rintro ⟨T, h, hST, rfl⟩
      cases T with
      | nil => cases hST
      | cons k T => exact ⟨k, T, h, hST, rfl⟩

theorem Children.mem_findSupersets : ∀ {c : Children K V} {accum : Finset K} {S : List K},
    c.Sorted → ((U, y) ∈ c.findSupersets accum S ↔
      ∃ k T, c.Has k T y ∧ S.Sublist (k :: T) ∧ U = accum ∪ (k :: T).toFinset)
  | .nil, _, _, _ => by simp [Children.findSupersets, Children.Has]
  | .cons key child rest, accum, S, hs => by
    have hunion (T : List K) :
        Insert.insert key accum ∪ T.toFinset = accum ∪ (key :: T).toFinset := by
      rw [List.toFinset_cons, Finset.union_insert, Finset.insert_union]
    -- the sets of the first child, where what is left of `S` below it is `S'`
    have hboth {S' : List K} (hS : ∀ T, child.Has T y → (S.Sublist (key :: T) ↔ S'.Sublist T)) :
        ((∃ T, child.Has T y ∧ S'.Sublist T ∧ U = Insert.insert key accum ∪ T.toFinset) ∨
          ∃ k T, rest.Has k T y ∧ S.Sublist (k :: T) ∧ U = accum ∪ (k :: T).toFinset) ↔
        ∃ k T, (Children.cons key child rest).Has k T y ∧ S.Sublist (k :: T) ∧
          U = accum ∪ (k :: T).toFinset := by
      constructor
      · rintro (⟨T, h, hST, rfl⟩ | ⟨k, T, h, hST, hU⟩)
        · exact ⟨key, T, .inl ⟨rfl, h⟩, (hS T h).mpr hST, hunion T⟩
        · exact ⟨k, T, .inr h, hST, hU⟩
      · rintro ⟨k, T, ⟨rfl, h⟩ | h, hST, rfl⟩
        · exact .inl ⟨T, h, (hS T h).mp hST, (hunion T).symm⟩
        · exact .inr ⟨k, T, h, hST, rfl⟩
    cases S with
    | nil =>
      rw [Children.findSupersets, List.mem_append, MapOfSets.mem_findSupersets hs.1,
        Children.mem_findSupersets hs.2.1]
      exact hboth fun T _ => iff_of_true (List.nil_sublist _) (List.nil_sublist _)
    | cons elt next =>
      have hset {k : K} {T : List K} (h : (Children.cons key child rest).Has k T y) :
          IsSet (k :: T) :=
        Children.isSet_of_has hs h
      rw [Children.findSupersets]
      split
      case isTrue heq =>
        subst heq
        rw [List.mem_append, MapOfSets.mem_findSupersets hs.1, Children.mem_findSupersets hs.2.1]
        exact hboth fun T _ => List.cons_sublist_cons
      split
      case isTrue hne hlt =>
        rw [List.mem_append, MapOfSets.mem_findSupersets hs.1, Children.mem_findSupersets hs.2.1]
        refine hboth fun T h => ⟨fun hST => ?_, List.sublist_cons_of_sublist key⟩
        rcases sublist_of_cons_sublist (hset (.inl ⟨rfl, h⟩)) hST with ⟨heq, -⟩ | ⟨-, hST⟩
        · exact absurd heq hne
        · exact hST
      case isFalse hne hge =>
        -- all keys from here on are above the first element
        refine iff_of_false (List.not_mem_nil) ?_
        rintro ⟨k, T, h, hST, -⟩
        have hkey : key ≤ k := by
          rcases List.mem_cons.mp (Children.mem_keyList_of_has h) with rfl | hk
          · exact le_rfl
          · exact (hs.2.2.1 k hk).le
        have hlt : elt < key := lt_of_le_of_ne (not_lt.mp hge) hne
        rcases sublist_of_cons_sublist (hset h) hST with ⟨rfl, -⟩ | ⟨hk, -⟩
        · exact absurd hkey (not_le.mpr hlt)
        · exact lt_asymm (hlt.trans_le hkey) hk

end

def Once (l : List (Finset K × V)) : Prop := (l.map Prod.fst).Nodup

omit [LinearOrder K] in
theorem once_append {l l' : List (Finset K × V)} (hl : Once l) (hl' : Once l')
    (h : ∀ U x y, (U, x) ∈ l → (U, y) ∉ l') : Once (l ++ l') := by
  unfold Once
  rw [List.map_append]
  refine List.nodup_append.mpr ⟨hl, hl', ?_⟩
  rintro U hU _ hU' rfl
  obtain ⟨⟨_, x⟩, hmem, rfl⟩ := List.mem_map.mp hU
  obtain ⟨⟨_, y⟩, hmem', rfl⟩ := List.mem_map.mp hU'
  exact h _ x y hmem hmem'

omit [LinearOrder K] in
theorem once_entry : Once (m.entry accum) := by
  obtain ⟨_ | x, children⟩ := m
  · exact List.nodup_nil
  · exact List.nodup_singleton _

theorem once_findSubsetsFrom (hs : c.Sorted) (hS : S.Nodup) (hdisjoint : ∀ s ∈ S, s ∉ accum) :
    Once (findSubsetsFrom S c accum) := by
  induction S generalizing c accum with
  | nil => exact List.nodup_nil
  | cons s S ih =>
    obtain ⟨hsS, hS⟩ := List.nodup_cons.mp hS
    have hrest := ih hs hS fun t ht => hdisjoint t (List.mem_cons_of_mem s ht)
    have hs_notMem {U : Finset K} {y : V} (h : (U, y) ∈ findSubsetsFrom S c accum) : s ∉ U := by
      obtain ⟨k, T, -, hTS, rfl⟩ := (mem_findSubsetsFrom hs).mp h
      rw [Finset.mem_union, List.mem_toFinset, not_or]
      exact ⟨hdisjoint s List.mem_cons_self, fun h => hsS (hTS.subset h)⟩
    rw [findSubsetsFrom]
    cases hfind : c.find s with
    | none => exact hrest
    | some child =>
      have hchild := sorted_children (Children.sorted_of_find hs hfind)
      have hdisjoint' : ∀ t ∈ S, t ∉ Insert.insert s accum := by
        intro t ht hmem
        rcases Finset.mem_insert.mp hmem with rfl | hmem
        · exact hsS ht
        · exact hdisjoint t (List.mem_cons_of_mem s ht) hmem
      have hs_mem {U : Finset K} {y : V} (h : (U, y) ∈ child.entry (Insert.insert s accum) ++
          findSubsetsFrom S child.children (Insert.insert s accum)) : s ∈ U := by
        rcases List.mem_append.mp h with h | h
        · obtain ⟨rfl, -⟩ := mem_entry.mp h
          exact Finset.mem_insert_self _ _
        · obtain ⟨k, T, -, -, rfl⟩ := (mem_findSubsetsFrom hchild).mp h
          exact Finset.mem_union_left _ (Finset.mem_insert_self _ _)
      refine once_append (once_append once_entry (ih hchild hS hdisjoint') ?_) hrest ?_
      · intro U x y hentry hmem
        obtain ⟨rfl, -⟩ := mem_entry.mp hentry
        obtain ⟨k, T, -, hTS, hU⟩ := (mem_findSubsetsFrom hchild).mp hmem
        have hk := hTS.subset List.mem_cons_self
        refine hdisjoint' k hk ?_
        rw [hU]
        exact Finset.mem_union_right _ (List.mem_toFinset.mpr List.mem_cons_self)
      · exact fun U x y hmem hmem' => hs_notMem hmem' (hs_mem hmem)

theorem once_findSubsets (hs : m.Sorted) (hS : S.Nodup) (hdisjoint : ∀ s ∈ S, s ∉ accum) :
    Once (m.findSubsets accum S) := by
  refine once_append once_entry (once_findSubsetsFrom (sorted_children hs) hS hdisjoint) ?_
  intro U x y hentry hmem
  obtain ⟨rfl, -⟩ := mem_entry.mp hentry
  obtain ⟨k, T, -, hTS, hU⟩ := (mem_findSubsetsFrom (sorted_children hs)).mp hmem
  refine hdisjoint k (hTS.subset List.mem_cons_self) ?_
  rw [hU]
  exact Finset.mem_union_right _ (List.mem_toFinset.mpr List.mem_cons_self)

mutual

theorem once_findSupersets : ∀ {m : MapOfSets K V} {accum : Finset K} {S : List K}, m.Sorted →
    (∀ a ∈ accum, ∀ k ∈ m.children.keyList, a < k) → Once (m.findSupersets accum S)
  | node value children, accum, [], hs, habove => by
    rw [findSupersets]
    refine once_append once_entry (Children.once_findSupersets hs habove) ?_
    intro U x y hentry hmem
    obtain ⟨rfl, -⟩ := mem_entry.mp hentry
    obtain ⟨k, T, h, -, hU⟩ := (Children.mem_findSupersets hs).mp hmem
    have hk : k ∈ U := by
      rw [hU]
      exact Finset.mem_union_right _ (List.mem_toFinset.mpr List.mem_cons_self)
    exact lt_irrefl k (habove k hk k (Children.mem_keyList_of_has h))
  | node value children, accum, s :: S, hs, habove => by
    rw [findSupersets]
    exact Children.once_findSupersets hs habove

theorem Children.once_findSupersets : ∀ {c : Children K V} {accum : Finset K} {S : List K},
    c.Sorted → (∀ a ∈ accum, ∀ k ∈ c.keyList, a < k) → Once (c.findSupersets accum S)
  | .nil, _, _, _, _ => by
    rw [Children.findSupersets]
    exact List.nodup_nil
  | .cons key child rest, accum, S, hs, habove => by
    have hchild : ∀ a ∈ Insert.insert key accum, ∀ k ∈ child.children.keyList, a < k := by
      intro a ha k hk
      rcases Finset.mem_insert.mp ha with rfl | ha
      · exact hs.2.2.2 k hk
      · exact (habove a ha key List.mem_cons_self).trans (hs.2.2.2 k hk)
    have hrest : ∀ a ∈ accum, ∀ k ∈ rest.keyList, a < k := fun a ha k hk =>
      habove a ha k (List.mem_cons_of_mem key hk)
    -- the key is in every set of its child, and in none of the other children
    have hboth (S' : List K) : Once (child.findSupersets (Insert.insert key accum) S' ++
        rest.findSupersets accum S) := by
      refine once_append (MapOfSets.once_findSupersets hs.1 hchild)
        (Children.once_findSupersets hs.2.1 hrest) ?_
      intro U x y hmem hmem'
      obtain ⟨T, -, -, hU⟩ := (MapOfSets.mem_findSupersets hs.1).mp hmem
      obtain ⟨k, T', h, -, hU'⟩ := (Children.mem_findSupersets hs.2.1).mp hmem'
      have hkey : key ∈ U := by
        rw [hU]
        exact Finset.mem_union_left _ (Finset.mem_insert_self _ _)
      rw [hU', Finset.mem_union, List.mem_toFinset] at hkey
      rcases hkey with hkey | hkey
      · exact lt_irrefl key (habove key hkey key List.mem_cons_self)
      · have hk := hs.2.2.1 k (Children.mem_keyList_of_has h)
        rcases List.mem_cons.mp hkey with rfl | hkey
        · exact lt_irrefl _ hk
        · exact lt_asymm hk ((List.pairwise_cons.mp (Children.isSet_of_has hs.2.1 h)).1 key hkey)
    cases S with
    | nil =>
      rw [Children.findSupersets]
      exact hboth []
    | cons elt next =>
      rw [Children.findSupersets]
      split
      · exact hboth next
      split
      · exact hboth (elt :: next)
      · exact List.nodup_nil

end

end Collect

section Ends

mutual

def Ends : MapOfSets K V → Prop
  | node value children => (value = none → children ≠ .nil) ∧ children.Ends

def Children.Ends : Children K V → Prop
  | .nil => True
  | .cons _ child rest => child.Ends ∧ rest.Ends

end

omit [LinearOrder K] in
theorem ends_children {m : MapOfSets K V} (h : m.Ends) : m.children.Ends := by
  obtain ⟨value, children⟩ := m
  exact h.2

omit [LinearOrder K] in
theorem ends_path : (path x S : MapOfSets K V).Ends := by
  induction S with
  | nil => exact ⟨fun h => (by cases h), trivial⟩
  | cons k S ih => exact ⟨fun _ h => (by cases h), ih, trivial⟩

mutual

theorem ends_children_insert : ∀ {m : MapOfSets K V} {S : List K}, m.children.Ends →
    (m.insert x S).children.Ends
  | node _ _, [], h => h
  | node _ _, _ :: _, h => Children.ends_insert h

theorem Children.ends_insert : ∀ {c : Children K V} {k : K} {S : List K}, c.Ends →
    (c.insert x k S).Ends
  | .nil, _, _, _ => ⟨ends_path, trivial⟩
  | .cons key child rest, k, S, h => by
    rw [Children.insert]
    split
    · exact ⟨ends_path, h⟩
    split
    · refine ⟨?_, h.2⟩
      have hchildren := MapOfSets.ends_children_insert (S := S) (ends_children h.1)
      obtain ⟨value, children⟩ := child
      cases S with
      | nil => exact ⟨fun hnone => (by cases hnone), hchildren⟩
      | cons s S =>
        refine ⟨fun _ hnil => ?_, hchildren⟩
        have hmem := (Children.mem_keyList_insert (x := x) (S := S) (c := children)).mpr
          (.inl (rfl : s = s))
        rw [hnil] at hmem
        cases hmem
    · exact ⟨h.1, Children.ends_insert h.2⟩

end

end Ends

section Iterator

variable {r : MapOfSets K V} {stack : Stack K V}

def pending : Stack K V → List (Finset K × V)
  | [] => []
  | .nil :: stack => pending stack
  | .cons _ _ rest :: stack => rest.findSupersets (keys stack) [] ++ pending stack

def Live (stack : Stack K V) : Prop := ∀ c ∈ stack, c ≠ .nil ∧ c.Ends

/-- The iterator is at the first of the entries `l`. -/
def IsAt (r : MapOfSets K V) (stack : Stack K V) (l : List (Finset K × V)) : Prop :=
  Live stack ∧ ∃ n, r.nodeAt stack = some n ∧ n.isEndOfSet = true ∧ n.children.Ends ∧
    l = n.findSupersets (keys stack) [] ++ pending stack

omit [LinearOrder K] in
theorem live_cons {key : K} {child : MapOfSets K V} {rest : Children K V} (h : Live stack)
    (hends : (Children.cons key child rest).Ends) : Live (.cons key child rest :: stack) := by
  intro c hc
  rcases List.mem_cons.mp hc with rfl | hc
  · exact ⟨by simp, hends⟩
  · exact h c hc

theorem findSupersets_children (n : MapOfSets K V) (accum : Finset K) :
    n.findSupersets accum [] = n.entry accum ++ n.children.findSupersets accum [] := by
  obtain ⟨value, children⟩ := n
  rw [findSupersets]
  rfl

omit [LinearOrder K] in
theorem entry_of_not_isEndOfSet {n : MapOfSets K V} {accum : Finset K}
    (h : n.isEndOfSet = false) : n.entry accum = [] := by
  obtain ⟨_ | x, children⟩ := n
  · rfl
  · cases h

mutual

/-- Down to the first entry below a node. -/
theorem descendToEnd_spec : ∀ {n : MapOfSets K V} {stack : Stack K V}, n.Ends → Live stack →
    r.nodeAt stack = some n → ∃ stack', n.descendToEnd stack = some stack' ∧
      IsAt r stack' (n.findSupersets (keys stack) [] ++ pending stack)
  | node (some x) children, stack, hends, hlive, hat =>
    ⟨stack, by rw [descendToEnd], hlive, _, hat, rfl, hends.2, rfl⟩
  | node none children, stack, hends, hlive, hat => by
    rw [descendToEnd, findSupersets]
    exact Children.descendToEnd_spec (hends.1 rfl) hends.2 hlive

theorem Children.descendToEnd_spec : ∀ {c : Children K V} {stack : Stack K V}, c ≠ .nil →
    c.Ends → Live stack → ∃ stack', c.descendToEnd stack = some stack' ∧
      IsAt r stack' (c.findSupersets (keys stack) [] ++ pending stack)
  | .nil, _, hne, _, _ => absurd rfl hne
  | .cons key child rest, stack, _, hends, hlive => by
    obtain ⟨stack', hdescend, hat⟩ := MapOfSets.descendToEnd_spec hends.1
      (live_cons hlive hends) rfl
    refine ⟨stack', by rw [Children.descendToEnd, hdescend], ?_⟩
    rw [Children.findSupersets, List.append_assoc]
    exact hat

end

/-- On to the next position that is left. -/
theorem advance_spec (hlive : Live stack) : ∃ it, advance stack = some it ∧
    ((pending stack = [] ∧ it = last) ∨ (it.onEntry = true ∧ IsAt r it.stack (pending stack))) := by
  induction stack with
  | nil => exact ⟨last, rfl, .inl ⟨rfl, rfl⟩⟩
  | cons c stack ih =>
    have hrest : Live stack := fun c hc => hlive c (List.mem_cons_of_mem _ hc)
    obtain ⟨hne, hends⟩ := hlive c List.mem_cons_self
    match c, hne, hends with
    | .cons key child .nil, _, _ =>
      rw [advance, pending, Children.findSupersets]
      exact ih hrest
    | .cons key child (.cons key' child' rest), _, ⟨_, hends⟩ =>
      obtain ⟨stack', hdescend, hat⟩ := descendToEnd_spec (r := r) hends.1
        (live_cons hrest hends) rfl
      refine ⟨⟨true, stack'⟩, by rw [advance, hdescend]; rfl, .inr ⟨rfl, ?_⟩⟩
      rw [pending, Children.findSupersets, List.append_assoc]
      exact hat

mutual

/-- Down to the first entry below the children of an entry. -/
theorem Children.descend_spec : ∀ {c : Children K V} {stack : Stack K V}, c.Ends → Live stack →
    (c = .nil ∧ c.descend stack = (false, stack)) ∨ ∃ stack', c.descend stack = (true, stack') ∧
      IsAt r stack' (c.findSupersets (keys stack) [] ++ pending stack)
  | .nil, stack, _, _ => .inl ⟨rfl, rfl⟩
  | .cons key child rest, stack, hends, hlive => by
    have hlive' := live_cons hlive hends
    rw [Children.descend, Children.findSupersets, List.append_assoc]
    refine .inr ?_
    split
    case isTrue hend => exact ⟨_, rfl, hlive', child, rfl, hend, ends_children hends.1, rfl⟩
    case isFalse hnot => exact MapOfSets.descend_spec hends.1 hlive' (by simpa using hnot)

theorem descend_spec : ∀ {n : MapOfSets K V} {stack : Stack K V}, n.Ends → Live stack →
    n.isEndOfSet = false → ∃ stack', n.descend stack = (true, stack') ∧
      IsAt r stack' (n.findSupersets (keys stack) [] ++ pending stack)
  | node none children, stack, hends, hlive, _ => by
    rw [descend, findSupersets]
    rcases Children.descend_spec hends.2 hlive with ⟨hnil, -⟩ | h
    · exact absurd hnil (hends.1 rfl)
    · exact h
  | node (some _) _, _, _, _, h => by cases h

end

/-- From an entry to the next one, or to the end. -/
theorem step_spec {it : Iterator K V} {e : Finset K × V} {l : List (Finset K × V)}
    (hentry : it.onEntry = true) (h : IsAt r it.stack (e :: l)) :
    it.deref r = some e ∧ ∃ it', it.step r = some it' ∧
      ((l = [] ∧ it' = last) ∨ (it'.onEntry = true ∧ IsAt r it'.stack l)) := by
  obtain ⟨hlive, n, hat, hend, hends, hl⟩ := h
  rw [findSupersets_children] at hl
  obtain ⟨x, hx⟩ : ∃ x, n.entry (keys it.stack) = [(keys it.stack, x)] := by
    obtain ⟨_ | x, children⟩ := n
    · cases hend
    · exact ⟨x, rfl⟩
  rw [hx] at hl
  obtain ⟨rfl, rfl⟩ := List.cons.inj hl
  refine ⟨by rw [Iterator.deref, if_pos (.inl hentry), hat, Option.bind_some, hx]; rfl, ?_⟩
  rw [Iterator.step, if_pos hentry, hat, Option.bind_some]
  have hdescend : n.descend it.stack = n.children.descend it.stack := by
    obtain ⟨value, children⟩ := n
    rw [descend]
    rfl
  rw [hdescend]
  rcases Children.descend_spec (r := r) hends hlive with ⟨hnil, hd⟩ | ⟨stack', hd, hat'⟩
  · rw [hd, hnil, Children.findSupersets]
    exact advance_spec hlive
  · rw [hd]
    exact ⟨_, rfl, .inr ⟨rfl, hat'⟩⟩

/-- The iterator after some steps from `begin()`. -/
def walk (r : MapOfSets K V) : Nat → Option (Iterator K V)
  | 0 => r.first
  | n + 1 => (r.walk n).bind fun it => it.step r

theorem first_spec (hends : r.children.Ends) : ∃ it, r.first = some it ∧
    ((r.supersets [] = [] ∧ it = last) ∨
      (it.onEntry = true ∧ IsAt r it.stack (r.supersets []))) := by
  have hlive : Live ([] : Stack K V) := fun c hc => by cases hc
  rw [first, supersets]
  split
  case isTrue hend =>
    exact ⟨_, rfl, .inr ⟨rfl, hlive, r, rfl, hend, hends, by simp [pending, keys]⟩⟩
  case isFalse hnot =>
    rw [findSupersets_children, entry_of_not_isEndOfSet (by simpa using hnot), List.nil_append]
    rw [Iterator.step, if_pos rfl, nodeAt, Option.bind_some]
    have hdescend : r.descend [] = r.children.descend [] := by
      obtain ⟨value, children⟩ := r
      rw [descend]
      rfl
    dsimp only
    rw [hdescend]
    rcases Children.descend_spec (r := r) hends hlive with ⟨hnil, hd⟩ | ⟨stack', hd, hat⟩
    · rw [hd, hnil]
      exact ⟨last, rfl, .inl ⟨by rw [Children.findSupersets], rfl⟩⟩
    · rw [hd]
      refine ⟨_, rfl, .inr ⟨rfl, ?_⟩⟩
      rw [pending, List.append_nil] at hat
      exact hat

/-- After `n` steps the iterator is at the entry `n`, and at the end after all of them. -/
theorem walk_spec (hends : r.children.Ends) {n : Nat} (hn : n ≤ (r.supersets []).length) :
    ∃ it, r.walk n = some it ∧
      (((r.supersets []).drop n = [] ∧ it = last) ∨
        (it.onEntry = true ∧ IsAt r it.stack ((r.supersets []).drop n))) := by
  induction n with
  | zero => exact first_spec hends
  | succ n ih =>
    obtain ⟨it, hwalk, h⟩ := ih (by omega)
    rw [walk, hwalk, Option.bind_some]
    have hdrop := List.drop_eq_getElem_cons (by omega : n < (r.supersets []).length)
    rcases h with ⟨hnil, -⟩ | ⟨hentry, hat⟩
    · rw [hdrop] at hnil
      cases hnil
    · rw [hdrop] at hat
      exact (step_spec hentry hat).2

end Iterator

section Contents

/-- The map after the insertions `inserts`. -/
def build (inserts : List (Finset K × V)) : MapOfSets K V :=
  inserts.foldl (fun m e => m.insert e.2 e.1.sort) empty

def contents (inserts : List (Finset K × V)) : Finset K → Option V :=
  inserts.foldl (fun stored e => Function.update stored e.1 (some e.2)) fun _ => none

theorem isSet_sort (S : Finset K) : IsSet S.sort := by
  have hne : S.sort.Pairwise (· ≠ ·) := S.sort_nodup (· ≤ ·)
  exact ((S.pairwise_sort (· ≤ ·)).and hne).imp fun h => lt_of_le_of_ne h.1 h.2

theorem sort_toFinset_of_isSet (hT : IsSet T) : T.toFinset.sort = T :=
  (List.toFinset_sort _ (hT.imp fun h => h.ne)).mpr (hT.imp fun h => h.le)

theorem sublist_sort_iff {S T : Finset K} : S.sort.Sublist T.sort ↔ S ⊆ T := by
  constructor
  · intro h k hk
    exact (Finset.mem_sort _).mp (h.subset ((Finset.mem_sort _).mpr hk))
  · intro h
    refine List.sublist_of_subperm_of_pairwise ?_ (S.pairwise_sort (· ≤ ·))
      (T.pairwise_sort (· ≤ ·))
    exact List.subperm_of_subset (S.sort_nodup _) fun k hk =>
      (Finset.mem_sort _).mpr (h ((Finset.mem_sort _).mp hk))

/-- The trie is in order, and holds what `stored` says. -/
structure Holds (m : MapOfSets K V) (stored : Finset K → Option V) : Prop where
  sorted : m.Sorted
  ends : m.children.Ends
  lookup : ∀ S, m.lookup S.sort = stored S

variable {m : MapOfSets K V} {stored : Finset K → Option V}

theorem holds_empty : Holds (empty : MapOfSets K V) fun _ => none where
  sorted := trivial
  ends := trivial
  lookup S := by cases S.sort <;> rfl

theorem Holds.insert (h : Holds m stored) (S : Finset K) (x : V) :
    Holds (m.insert x S.sort) (Function.update stored S (some x)) where
  sorted := sorted_insert h.sorted (isSet_sort S)
  ends := ends_children_insert h.ends
  lookup T := by
    rw [lookup_insert h.sorted, h.lookup, Function.update_apply]
    refine if_congr ⟨fun hTS => ?_, fun hTS => by rw [hTS]⟩ rfl rfl
    rw [← Finset.sort_toFinset T (· ≤ ·), hTS, Finset.sort_toFinset]

theorem holds_build (inserts : List (Finset K × V)) : Holds (build inserts) (contents inserts) := by
  unfold build contents
  suffices h : ∀ {m : MapOfSets K V} {stored : Finset K → Option V}, Holds m stored →
      Holds (inserts.foldl (fun m e => m.insert e.2 e.1.sort) m)
        (inserts.foldl (fun stored e => Function.update stored e.1 (some e.2)) stored) from
    h holds_empty
  induction inserts with
  | nil => exact id
  | cons e inserts ih => exact fun h => ih (h.insert e.1 e.2)

theorem Holds.has_iff (h : Holds m stored) :
    m.Has T x ↔ ∃ U : Finset K, U.sort = T ∧ stored U = some x := by
  constructor
  · intro hhas
    have hT := sort_toFinset_of_isSet (isSet_of_has h.sorted hhas)
    refine ⟨T.toFinset, hT, ?_⟩
    rw [← h.lookup, hT]
    exact (has_iff_lookup h.sorted).mp hhas
  · rintro ⟨U, rfl, hU⟩
    rw [has_iff_lookup h.sorted, h.lookup, hU]

/-- What is promised of a map of sets that holds `stored`. -/
structure Answers (m : MapOfSets K V) (stored : Finset K → Option V) : Prop where
  lookup : ∀ S, m.lookup S.sort = stored S
  findSubset_eq : ∀ p S x, m.findSubset p S.sort = some x →
    p x = true ∧ ∃ T ⊆ S, stored T = some x
  findSubset_isSome : ∀ p S, (∃ T ⊆ S, ∃ x, stored T = some x ∧ p x = true) →
    (m.findSubset p S.sort).isSome
  findSuperset_eq : ∀ p S x, m.findSuperset p S.sort = some x →
    p x = true ∧ ∃ T, S ⊆ T ∧ stored T = some x
  findSuperset_isSome : ∀ p S, (∃ T, S ⊆ T ∧ ∃ x, stored T = some x ∧ p x = true) →
    (m.findSuperset p S.sort).isSome
  once_subsets : ∀ S : Finset K, Once (m.subsets S.sort)
  mem_subsets : ∀ S T x, (T, x) ∈ m.subsets S.sort ↔ T ⊆ S ∧ stored T = some x
  once_supersets : ∀ S : Finset K, Once (m.supersets S.sort)
  mem_supersets : ∀ S T x, (T, x) ∈ m.supersets S.sort ↔ S ⊆ T ∧ stored T = some x
  iterator : ∃ l : List (Finset K × V), Once l ∧ (∀ T x, (T, x) ∈ l ↔ stored T = some x) ∧
    (∀ n, n < l.length → ∃ it, m.walk n = some it ∧ it ≠ last ∧ it.deref m = l[n]?) ∧
    m.walk l.length = some last

theorem Holds.mem_subsets (h : Holds m stored) (S T : Finset K) :
    (T, x) ∈ m.subsets S.sort ↔ T ⊆ S ∧ stored T = some x := by
  rw [subsets, mem_findSubsets h.sorted]
  constructor
  · rintro ⟨T, hhas, hTS, rfl⟩
    obtain ⟨U, rfl, hU⟩ := h.has_iff.mp hhas
    rw [Finset.sort_toFinset, Finset.empty_union]
    exact ⟨sublist_sort_iff.mp hTS, hU⟩
  · rintro ⟨hTS, hT⟩
    exact ⟨T.sort, h.has_iff.mpr ⟨T, rfl, hT⟩, sublist_sort_iff.mpr hTS, by simp⟩

theorem Holds.mem_supersets (h : Holds m stored) (S T : Finset K) :
    (T, x) ∈ m.supersets S.sort ↔ S ⊆ T ∧ stored T = some x := by
  rw [supersets, mem_findSupersets h.sorted]
  constructor
  · rintro ⟨T, hhas, hST, rfl⟩
    obtain ⟨U, rfl, hU⟩ := h.has_iff.mp hhas
    rw [Finset.sort_toFinset, Finset.empty_union]
    exact ⟨sublist_sort_iff.mp hST, hU⟩
  · rintro ⟨hST, hT⟩
    exact ⟨T.sort, h.has_iff.mpr ⟨T, rfl, hT⟩, sublist_sort_iff.mpr hST, by simp⟩

theorem Holds.once_supersets (h : Holds m stored) (S : List K) : Once (m.supersets S) :=
  once_findSupersets h.sorted fun _ ha => absurd ha (Finset.notMem_empty _)

theorem Holds.iterator (h : Holds m stored) :
    ∃ l : List (Finset K × V), Once l ∧ (∀ T x, (T, x) ∈ l ↔ stored T = some x) ∧
      (∀ n, n < l.length → ∃ it, m.walk n = some it ∧ it ≠ last ∧ it.deref m = l[n]?) ∧
      m.walk l.length = some last := by
  refine ⟨m.supersets [], h.once_supersets [], fun T x => ?_, fun n hn => ?_, ?_⟩
  · have hmem := h.mem_supersets (x := x) ∅ T
    rw [Finset.sort_empty] at hmem
    rw [hmem]
    simp
  · obtain ⟨it, hwalk, hit⟩ := walk_spec h.ends hn.le
    have hdrop := List.drop_eq_getElem_cons hn
    rcases hit with ⟨hnil, -⟩ | ⟨hentry, hat⟩
    · rw [hdrop] at hnil
      cases hnil
    · rw [hdrop] at hat
      refine ⟨it, hwalk, fun hlast => ?_, ?_⟩
      · rw [hlast] at hentry
        cases hentry
      · rw [(step_spec hentry hat).1, List.getElem?_eq_getElem hn]
  · obtain ⟨it, hwalk, hit⟩ := walk_spec h.ends le_rfl
    rcases hit with ⟨-, rfl⟩ | ⟨-, -, n, -, hend, -, hl⟩
    · exact hwalk
    · rw [List.drop_length, findSupersets_children] at hl
      obtain ⟨_ | x, children⟩ := n
      · cases hend
      · cases hl

theorem build_answers (inserts : List (Finset K × V)) :
    Answers (build inserts) (contents inserts) := by
  have h := holds_build inserts
  refine ⟨h.lookup, ?_, ?_, ?_, ?_, ?_, fun S T _ => h.mem_subsets S T,
    fun S => h.once_supersets _, fun S T _ => h.mem_supersets S T, h.iterator⟩
  · intro p S x hfind
    obtain ⟨hp, T, hTS, hhas⟩ := has_of_findSubset _ _ hfind
    obtain ⟨U, rfl, hU⟩ := h.has_iff.mp hhas
    exact ⟨hp, U, fun k hk => (Finset.mem_sort _).mp (hTS ((Finset.mem_sort _).mpr hk)), hU⟩
  · rintro p S ⟨T, hTS, x, hT, hp⟩
    exact findSubset_isSome h.sorted (h.has_iff.mpr ⟨T, rfl, hT⟩) hp (isSet_sort S)
      (sublist_sort_iff.mpr hTS)
  · intro p S x hfind
    obtain ⟨hp, T, hST, hhas⟩ := has_of_findSuperset _ _ hfind
    obtain ⟨U, rfl, hU⟩ := h.has_iff.mp hhas
    exact ⟨hp, U, fun k hk => (Finset.mem_sort _).mp (hST ((Finset.mem_sort _).mpr hk)), hU⟩
  · rintro p S ⟨T, hST, x, hT, hp⟩
    exact findSuperset_isSome h.sorted (h.has_iff.mpr ⟨T, rfl, hT⟩) hp (sublist_sort_iff.mpr hST)
  · exact fun S => once_findSubsets h.sorted (S.sort_nodup _) fun s _ => Finset.notMem_empty s

end Contents

end Klee.MapOfSets
