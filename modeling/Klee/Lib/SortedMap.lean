import Mathlib.Data.List.Basic
import Mathlib.Order.Compare
import Mathlib.Tactic

/-! Maps as lists of entries in the order of a comparison, where the first entry for a key
stays. -/
namespace SortedMap

variable {K V : Type} (cmp : K → K → Ordering)

def insert (k : K) (v : V) : List (K × V) → List (K × V)
  | [] => [(k, v)]
  | (k', v') :: l =>
    match cmp k k' with
    | .lt => (k, v) :: (k', v') :: l
    | .eq => (k', v') :: l
    | .gt => (k', v') :: insert k v l

def ofList (l : List (K × V)) : List (K × V) := l.foldl (fun m p => insert cmp p.1 p.2 m) []

def Sorted (l : List (K × V)) : Prop := l.Pairwise fun p q => cmp p.1 q.1 = .lt

variable {cmp} {k : K} {v : V} {l m : List (K × V)} {p : K × V}

section Insert

variable [Std.TransCmp cmp] [Std.LawfulEqCmp cmp]

omit [Std.TransCmp cmp] in
theorem ne_of_lt {a b : K} (h : cmp a b = .lt) : a ≠ b := by
  rintro rfl
  have heq : cmp a a = .eq := Std.ReflCmp.compare_self
  cases h.symm.trans heq

theorem mem_insert (hl : Sorted cmp l) :
    p ∈ insert cmp k v l ↔ p ∈ l ∨ p = (k, v) ∧ ∀ q ∈ l, q.1 ≠ k := by
  induction l with
  | nil => simp [insert]
  | cons q l ih =>
    obtain ⟨k', v'⟩ := q
    obtain ⟨hfirst, hrest⟩ := List.pairwise_cons.mp hl
    rw [insert]
    cases hcmp : cmp k k' with
    | lt =>
      -- the key is below all others
      have hnew (q : K × V) (hq : q ∈ (k', v') :: l) : q.1 ≠ k := by
        cases List.mem_cons.mp hq with
        | inl heq =>
          rw [heq]
          exact (ne_of_lt hcmp).symm
        | inr hq => exact (ne_of_lt (Std.TransCmp.lt_trans hcmp (hfirst q hq))).symm
      rw [List.mem_cons]
      constructor
      · rintro (rfl | hmem)
        · exact .inr ⟨rfl, hnew⟩
        · exact .inl hmem
      · rintro (hmem | ⟨rfl, -⟩)
        · exact .inr hmem
        · exact .inl rfl
    | eq =>
      obtain rfl := Std.LawfulEqCmp.compare_eq_iff_eq.mp hcmp
      refine (or_iff_left ?_).symm
      rintro ⟨-, hnew⟩
      exact hnew _ List.mem_cons_self rfl
    | gt =>
      have hne : k' ≠ k := ne_of_lt (Std.OrientedCmp.gt_iff_lt.mp hcmp)
      rw [List.mem_cons, List.mem_cons, ih hrest, List.forall_mem_cons, or_assoc]
      refine or_congr_right (or_congr_right (and_congr_right fun _ => ?_))
      exact (and_iff_right hne).symm

theorem sorted_insert (hl : Sorted cmp l) : Sorted cmp (insert cmp k v l) := by
  induction l with
  | nil => exact List.pairwise_singleton _ _
  | cons q l ih =>
    obtain ⟨k', v'⟩ := q
    obtain ⟨hfirst, hrest⟩ := List.pairwise_cons.mp hl
    rw [insert]
    cases hcmp : cmp k k' with
    | lt =>
      refine List.pairwise_cons.mpr ⟨fun q hq => ?_, hl⟩
      cases List.mem_cons.mp hq with
      | inl heq => rwa [heq]
      | inr hq => exact Std.TransCmp.lt_trans hcmp (hfirst q hq)
    | eq => exact hl
    | gt =>
      refine List.pairwise_cons.mpr ⟨fun q hq => ?_, ih hrest⟩
      cases (mem_insert hrest).mp hq with
      | inl hq => exact hfirst q hq
      | inr hq =>
        rw [hq.1]
        exact Std.OrientedCmp.gt_iff_lt.mp hcmp

end Insert

section OfList

variable [Std.TransCmp cmp] [Std.LawfulEqCmp cmp]

omit [Std.TransCmp cmp] [Std.LawfulEqCmp cmp] in
theorem ofList_concat (l : List (K × V)) (p : K × V) :
    ofList cmp (l ++ [p]) = insert cmp p.1 p.2 (ofList cmp l) := by
  rw [ofList, ofList, List.foldl_append]
  rfl

theorem sorted_ofList (l : List (K × V)) : Sorted cmp (ofList cmp l) := by
  induction l using List.reverseRecOn with
  | nil => exact .nil
  | append_singleton l p ih =>
    rw [ofList_concat]
    exact sorted_insert ih

/-- The entries are the first ones for their keys. -/
theorem mem_ofList [DecidableEq K] (l : List (K × V)) :
    p ∈ ofList cmp l ↔ l.find? (fun q => decide (q.1 = p.1)) = some p := by
  induction l using List.reverseRecOn generalizing p with
  | nil => simp [ofList]
  | append_singleton l q ih =>
    have hkeys : (∀ r ∈ ofList cmp l, r.1 ≠ q.1) ↔
        l.find? (fun r => decide (r.1 = q.1)) = none := by
      rw [List.find?_eq_none]
      constructor
      · intro hnone r hr hkey
        have hkey : r.1 = q.1 := of_decide_eq_true hkey
        have hfound : (l.find? fun r => decide (r.1 = q.1)).isSome = true :=
          List.find?_isSome.mpr ⟨r, hr, decide_eq_true hkey⟩
        obtain ⟨u, hu⟩ := Option.isSome_iff_exists.mp hfound
        have hukey : decide (u.1 = q.1) = true :=
          List.find?_some (p := fun r : K × V => decide (r.1 = q.1)) hu
        have hukey : u.1 = q.1 := of_decide_eq_true hukey
        refine hnone u (ih.mpr ?_) hukey
        rwa [hukey]
      · intro hnone r hr hkey
        exact hnone r (List.mem_of_find?_eq_some (ih.mp hr)) (decide_eq_true hkey)
    rw [ofList_concat, mem_insert (sorted_ofList l), hkeys, ih, List.find?_append, Option.or_eq_some_iff]
    refine or_congr_right ?_
    constructor
    · rintro ⟨rfl, hnone⟩
      exact ⟨hnone, by simp⟩
    · rintro ⟨hnone, hfind⟩
      obtain rfl : q = p := List.mem_singleton.mp (List.mem_of_find?_eq_some hfind) |>.symm
      exact ⟨rfl, hnone⟩

end OfList

end SortedMap
