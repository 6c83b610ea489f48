import Mathlib

/-! `MapOfSets`: a map whose keys are sets, as a tree over the sorted elements of the keys. -/
namespace Klee

mutual

/-- `value` is there at the end of a set (`isEndOfSet`). -/
inductive MapOfSets (K V : Type) where
  | node (value : Option V) (children : MapOfSets.Children K V)

/-- `std::map<K, Node>`, sorted. -/
inductive MapOfSets.Children (K V : Type) where
  | nil
  | cons (key : K) (child : MapOfSets K V) (rest : MapOfSets.Children K V)

end

namespace MapOfSets

variable {K V : Type}

def empty : MapOfSets K V := node none .nil

def path (x : V) : List K → MapOfSets K V
  | [] => node (some x) .nil
  | k :: set => node none (.cons k (path x set) .nil)

section Operations

variable [LinearOrder K]

mutual

def insert (x : V) : MapOfSets K V → List K → MapOfSets K V
  | node _ children, [] => node (some x) children
  | node value children, k :: set => node value (children.insert x k set)

def Children.insert (x : V) : Children K V → K → List K → Children K V
  | .nil, k, set => .cons k (path x set) .nil
  | .cons key child rest, k, set =>
    if k < key then .cons k (path x set) (.cons key child rest)
    else if k = key then .cons key (child.insert x set) rest
    else .cons key child (rest.insert x k set)

end

mutual

def lookup : MapOfSets K V → List K → Option V
  | node value _, [] => value
  | node _ children, k :: set => children.lookup k set

def Children.lookup : Children K V → K → List K → Option V
  | .nil, _, _ => none
  | .cons key child rest, k, set => if k = key then child.lookup set else rest.lookup k set

end

variable (p : V → Bool)

mutual

/-- The value of a set with all elements of `set`. -/
def findSuperset : MapOfSets K V → List K → Option V
  | node value children, [] => value.filter p <|> children.findSuperset []
  | node _ children, k :: set =>
    children.findSuperset (k :: set) <|> children.findSupersetAt k set

def Children.findSuperset : Children K V → List K → Option V
  | .nil, _ => none
  | .cons _ child rest, set => child.findSuperset set <|> rest.findSuperset set

/-- The child at `lower_bound(k)`, if its key is `k`. -/
def Children.findSupersetAt : Children K V → K → List K → Option V
  | .nil, _, _ => none
  | .cons key child rest, k, set =>
    if key < k then rest.findSupersetAt k set
    else if k = key then child.findSuperset set
    else none

end

mutual

/-- The value of a set whose elements are all in `set`. -/
def findSubset : MapOfSets K V → List K → Option V
  | node value children, set => value.filter p <|> children.findSubset set

def Children.findSubset : Children K V → List K → Option V
  | .nil, _ => none
  | .cons key child rest, set =>
    match set.dropWhile (· < key) with
    | [] => none
    | k :: set =>
      if k = key then child.findSubset set <|> rest.findSubset set
      else rest.findSubset (k :: set)

end

end Operations

section Entries

/-- One of two searches has found it. -/
theorem orElse_cases {a b : Option V} {x : V} (h : (a <|> b) = some x) :
    a = some x ∨ b = some x := by
  cases a with
  | none => exact Or.inr h
  | some y => exact Or.inl h

mutual

def Has : MapOfSets K V → List K → V → Prop
  | node value _, [], x => value = some x
  | node _ children, k :: set, x => children.Has k set x

def Children.Has : Children K V → K → List K → V → Prop
  | .nil, _, _, _ => False
  | .cons key child rest, k, set, x => k = key ∧ child.Has set x ∨ rest.Has k set x

end

theorem not_has_empty (set : List K) (x : V) : ¬ (empty : MapOfSets K V).Has set x := by
  cases set with
  | nil => exact fun h => by cases h
  | cons k set => exact fun h => h

theorem has_path {x y : V} {set set' : List K} (h : (path x set).Has set' y) :
    set' = set ∧ y = x := by
  induction set generalizing set' with
  | nil =>
    cases set' with
    | nil => exact ⟨rfl, (Option.some.inj h).symm⟩
    | cons k set' => exact h.elim
  | cons k set ih =>
    cases set' with
    | nil => cases h
    | cons k' set' =>
      have hchild : k' = k ∧ (path x set).Has set' y := h.resolve_right fun h => h
      obtain ⟨hset, hy⟩ := ih hchild.2
      exact ⟨by rw [hchild.1, hset], hy⟩

variable [LinearOrder K] {x y : V}

mutual

/-- What is in the tree after an insertion is new or old. -/
theorem has_insert : ∀ (m : MapOfSets K V) (set set' : List K), (m.insert x set).Has set' y →
    set' = set ∧ y = x ∨ m.Has set' y
  | node value children, [], set', h => by
    cases set' with
    | nil => exact Or.inl ⟨rfl, (Option.some.inj h).symm⟩
    | cons k set' => exact Or.inr h
  | node value children, k :: set, set', h => by
    cases set' with
    | nil => exact Or.inr h
    | cons k' set' =>
      cases children.has_insert k set k' set' h with
      | inl hnew => exact Or.inl ⟨by rw [hnew.1, hnew.2.1], hnew.2.2⟩
      | inr hold => exact Or.inr hold

theorem Children.has_insert : ∀ (c : Children K V) (k : K) (set : List K) (k' : K)
    (set' : List K), (c.insert x k set).Has k' set' y →
    (k' = k ∧ set' = set ∧ y = x) ∨ c.Has k' set' y
  | .nil, k, set, k', set', h => by
    have hpath : k' = k ∧ (path x set).Has set' y := h.resolve_right fun h => h
    exact Or.inl ⟨hpath.1, has_path hpath.2⟩
  | .cons key child rest, k, set, k', set', h => by
    rw [Children.insert] at h
    by_cases hlt : k < key
    · rw [if_pos hlt] at h
      cases h with
      | inl hpath => exact Or.inl ⟨hpath.1, has_path hpath.2⟩
      | inr hold => exact Or.inr hold
    · rw [if_neg hlt] at h
      by_cases heq : k = key
      · rw [if_pos heq] at h
        cases h with
        | inl hchild =>
          cases child.has_insert set set' hchild.2 with
          | inl hnew => exact Or.inl ⟨hchild.1.trans heq.symm, hnew⟩
          | inr hold => exact Or.inr (Or.inl ⟨hchild.1, hold⟩)
        | inr hrest => exact Or.inr (Or.inr hrest)
      · rw [if_neg heq] at h
        cases h with
        | inl hchild => exact Or.inr (Or.inl hchild)
        | inr hrest =>
          cases rest.has_insert k set k' set' hrest with
          | inl hnew => exact Or.inl hnew
          | inr hold => exact Or.inr (Or.inr hold)

end

mutual

theorem has_of_lookup : ∀ (m : MapOfSets K V) (set : List K), m.lookup set = some x → m.Has set x
  | node _ _, [], h => h
  | node _ children, k :: set, h => children.has_of_lookup k set h

theorem Children.has_of_lookup : ∀ (c : Children K V) (k : K) (set : List K),
    c.lookup k set = some x → c.Has k set x
  | .nil, k, set, h => by cases h
  | .cons key child rest, k, set, h => by
    rw [Children.lookup] at h
    by_cases heq : k = key
    · rw [if_pos heq] at h
      exact Or.inl ⟨heq, child.has_of_lookup set h⟩
    · rw [if_neg heq] at h
      exact Or.inr (rest.has_of_lookup k set h)

end

variable {p : V → Bool}

mutual

theorem has_of_findSuperset : ∀ (m : MapOfSets K V) (set : List K),
    m.findSuperset p set = some x → p x = true ∧ ∃ set', set ⊆ set' ∧ m.Has set' x
  | node value children, [], h => by
    rw [findSuperset] at h
    cases orElse_cases h with
    | inl hvalue =>
      obtain ⟨hvalue, hp⟩ := Option.filter_eq_some_iff.mp hvalue
      exact ⟨hp, [], List.nil_subset _, hvalue⟩
    | inr hchildren =>
      obtain ⟨hp, k, set', -, hhas⟩ := children.has_of_findSuperset [] hchildren
      exact ⟨hp, k :: set', List.nil_subset _, hhas⟩
  | node value children, k :: set, h => by
    rw [findSuperset] at h
    cases orElse_cases h with
    | inl hall =>
      obtain ⟨hp, k', set', hsub, hhas⟩ := children.has_of_findSuperset (k :: set) hall
      exact ⟨hp, k' :: set', List.subset_cons_of_subset k' hsub, hhas⟩
    | inr hmid =>
      obtain ⟨hp, set', hsub, hhas⟩ := children.has_of_findSupersetAt k set hmid
      exact ⟨hp, k :: set', List.cons_subset_cons k hsub, hhas⟩

theorem Children.has_of_findSuperset : ∀ (c : Children K V) (set : List K),
    c.findSuperset p set = some x →
      p x = true ∧ ∃ k set', set ⊆ set' ∧ c.Has k set' x
  | .nil, set, h => by cases h
  | .cons key child rest, set, h => by
    rw [Children.findSuperset] at h
    cases orElse_cases h with
    | inl hchild =>
      obtain ⟨hp, set', hsub, hhas⟩ := child.has_of_findSuperset set hchild
      exact ⟨hp, key, set', hsub, Or.inl ⟨rfl, hhas⟩⟩
    | inr hrest =>
      obtain ⟨hp, k, set', hsub, hhas⟩ := rest.has_of_findSuperset set hrest
      exact ⟨hp, k, set', hsub, Or.inr hhas⟩

theorem Children.has_of_findSupersetAt : ∀ (c : Children K V) (k : K) (set : List K),
    c.findSupersetAt p k set = some x →
      p x = true ∧ ∃ set', set ⊆ set' ∧ c.Has k set' x
  | .nil, k, set, h => by cases h
  | .cons key child rest, k, set, h => by
    rw [Children.findSupersetAt] at h
    by_cases hlt : key < k
    · rw [if_pos hlt] at h
      obtain ⟨hp, set', hsub, hhas⟩ := rest.has_of_findSupersetAt k set h
      exact ⟨hp, set', hsub, Or.inr hhas⟩
    · rw [if_neg hlt] at h
      by_cases heq : k = key
      · rw [if_pos heq] at h
        obtain ⟨hp, set', hsub, hhas⟩ := child.has_of_findSuperset set h
        exact ⟨hp, set', hsub, Or.inl ⟨heq, hhas⟩⟩
      · rw [if_neg heq] at h
        cases h

end

mutual

theorem has_of_findSubset : ∀ (m : MapOfSets K V) (set : List K),
    m.findSubset p set = some x → p x = true ∧ ∃ set', set' ⊆ set ∧ m.Has set' x
  | node value children, set, h => by
    rw [findSubset] at h
    cases orElse_cases h with
    | inl hvalue =>
      obtain ⟨hvalue, hp⟩ := Option.filter_eq_some_iff.mp hvalue
      exact ⟨hp, [], List.nil_subset _, hvalue⟩
    | inr hchildren =>
      obtain ⟨hp, k, set', hsub, hhas⟩ := children.has_of_findSubset set hchildren
      exact ⟨hp, k :: set', hsub, hhas⟩

theorem Children.has_of_findSubset : ∀ (c : Children K V) (set : List K),
    c.findSubset p set = some x →
      p x = true ∧ ∃ k set', k :: set' ⊆ set ∧ c.Has k set' x
  | .nil, set, h => by cases h
  | .cons key child rest, set, h => by
    rw [Children.findSubset] at h
    have hdrop : set.dropWhile (· < key) ⊆ set := (List.dropWhile_sublist _).subset
    cases hset : set.dropWhile (· < key) with
    | nil =>
      rw [hset] at h
      cases h
    | cons k tail =>
      rw [hset] at h hdrop
      by_cases heq : k = key
      · simp only [heq, if_true] at h
        cases orElse_cases h with
        | inl hchild =>
          obtain ⟨hp, set', hsub, hhas⟩ := child.has_of_findSubset tail hchild
          exact ⟨hp, key, set', List.Subset.trans (List.cons_subset_cons key hsub) (heq ▸ hdrop),
            Or.inl ⟨rfl, hhas⟩⟩
        | inr hrest =>
          obtain ⟨hp, k', set', hsub, hhas⟩ := rest.has_of_findSubset tail hrest
          exact ⟨hp, k', set', List.Subset.trans (List.subset_cons_of_subset k hsub) hdrop,
            Or.inr hhas⟩
      · simp only [heq, if_false] at h
        obtain ⟨hp, k', set', hsub, hhas⟩ := rest.has_of_findSubset (k :: tail) h
        exact ⟨hp, k', set', List.Subset.trans hsub hdrop, Or.inr hhas⟩

end

end Entries

end MapOfSets

end Klee
