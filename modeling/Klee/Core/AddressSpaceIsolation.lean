import Klee.Core.AddressSpace

/-! Address spaces are isolated: each behaves as if it had a memory of its own, as long as
no `cowKey` wraps around. -/
namespace Klee.Configuration

variable {α : Type} {c c' : Configuration α} {i mo os : Nat}

section Steps

theorem step_fork (h : c.step (.fork i) = some c') :
    ∃ s, c.spaces[i]? = some s ∧ c' = ⟨c.heap, c.spaces.set i s.copy.1 ++ [s.copy.2]⟩ := by
  simp only [step, Option.bind_eq_bind, Option.bind_eq_some_iff] at h
  obtain ⟨s, hs, hc⟩ := h
  exact ⟨s, hs, (Option.some.inj hc).symm⟩

theorem step_setReadOnly {ro : Bool} (h : c.step (.setReadOnly os ro) = some c') :
    ∃ cell, c.heap[os]? = some cell ∧
      c' = ⟨c.heap.set os { cell with readOnly := ro }, c.spaces⟩ := by
  simp only [step, Option.bind_eq_bind, Option.bind_eq_some_iff] at h
  obtain ⟨cell, hcell, hc⟩ := h
  exact ⟨cell, hcell, (Option.some.inj hc).symm⟩

theorem step_bindObject (h : c.step (.bindObject i mo os) = some c') :
    ∃ s cell, c.spaces[i]? = some s ∧ c.heap[os]? = some cell ∧ cell.copyOnWriteOwner = 0 ∧
      c' = ⟨c.heap.set os { cell with copyOnWriteOwner := s.cowKey },
        c.spaces.set i (s.replace mo os)⟩ := by
  simp only [step, AddressSpace.bindObject, Option.bind_eq_bind, Option.bind_eq_some_iff] at h
  obtain ⟨s, hs, ⟨heap, s'⟩, ⟨cell, hcell, _, hguard, hpair⟩, hc⟩ := h
  obtain ⟨rfl, rfl⟩ := Prod.mk.inj (Option.some.inj hpair)
  exact ⟨s, cell, hs, hcell, (Option.guard_eq_some' _).mp hguard, (Option.some.inj hc).symm⟩

theorem step_unbindObject (h : c.step (.unbindObject i mo) = some c') :
    ∃ s, c.spaces[i]? = some s ∧ c' = ⟨c.heap, c.spaces.set i (s.unbindObject mo)⟩ := by
  simp only [step, Option.bind_eq_bind, Option.bind_eq_some_iff] at h
  obtain ⟨s, hs, hc⟩ := h
  exact ⟨s, hs, (Option.some.inj hc).symm⟩

/-- A write either goes to an object that the space owns or makes a copy of it. -/
theorem step_write {f : α → α} (h : c.step (.write i mo f) = some c') :
    ∃ s os cell, c.spaces[i]? = some s ∧ s.objects mo = some os ∧ c.heap[os]? = some cell ∧
      ((s.cowKey = cell.copyOnWriteOwner ∧
          c' = ⟨c.heap.set os { cell with contents := f cell.contents }, c.spaces⟩) ∨
        c' = ⟨c.heap ++ [⟨s.cowKey, false, f cell.contents⟩],
          c.spaces.set i (s.replace mo c.heap.length)⟩) := by
  simp only [step, AddressSpace.getWriteable, AddressSpace.findObject, Option.bind_eq_bind,
    Option.bind_eq_some_iff] at h
  obtain ⟨s, hs, os, hos, ⟨heap, s', a⟩, ⟨cell, hcell, _, -, hw⟩, cell', hcell', hc⟩ := h
  refine ⟨s, os, cell, hs, hos, hcell, ?_⟩
  obtain rfl := Option.some.inj hc
  split at hw
  case isTrue hk =>
    simp only [Option.some.injEq, Prod.mk.injEq] at hw
    obtain ⟨rfl, rfl, rfl⟩ := hw
    obtain rfl := Option.some.inj (hcell.symm.trans hcell')
    refine .inl ⟨hk, ?_⟩
    obtain ⟨hi, rfl⟩ := List.getElem?_eq_some_iff.mp hs
    rw [List.set_getElem_self]
  case isFalse =>
    simp only [Option.some.injEq, Prod.mk.injEq] at hw
    obtain ⟨rfl, rfl, rfl⟩ := hw
    simp only [List.getElem?_concat_length, Option.some.injEq] at hcell'
    subst hcell'
    refine .inr ?_
    simp

end Steps

section Abstract

/-- The abstract model: `n` spaces, each with a memory of its own. `objects` gives what an
object contains when it is bound. -/
def privateStep (n : Nat) (objects : Nat → Option α) (m : Nat → Nat → Option α) :
    Op α → Nat → Nat → Option α
  | .fork i => Function.update m n (m i)
  | .alloc _ => m
  | .setReadOnly _ _ => m
  | .bindObject i mo os => Function.update m i (Function.update (m i) mo (objects os))
  | .unbindObject i mo => Function.update m i (Function.update (m i) mo none)
  | .write i mo f => Function.update m i (Function.update (m i) mo ((m i mo).map f))

end Abstract

section Invariant

def owner (c : Configuration α) (os : Nat) : Option (BitVec 32) :=
  c.heap[os]?.map (·.copyOnWriteOwner)

def contents (c : Configuration α) (os : Nat) : Option α := c.heap[os]?.map (·.contents)

structure Inv (c : Configuration α) : Prop where
  /-- The owner of an object never exceeds the key of a space that holds it. -/
  owner_le : ∀ {i mo os : Nat} {s : AddressSpace}, c.spaces[i]? = some s →
    s.objects mo = some os → ∃ o, c.owner os = some o ∧ 0 < o ∧ o ≤ s.cowKey
  /-- An object of a space that carries the key of the space is bound nowhere else. -/
  exclusive : ∀ {i mo os : Nat} {s : AddressSpace}, c.spaces[i]? = some s →
    s.objects mo = some os → c.owner os = some s.cowKey →
    ∀ {j mo' : Nat} {t : AddressSpace}, c.spaces[j]? = some t → t.objects mo' = some os →
      j = i ∧ mo' = mo
  key_pos : ∀ {i : Nat} {s : AddressSpace}, c.spaces[i]? = some s → 0 < s.cowKey

/-- The step leaves every `cowKey` in range: a fork does not wrap the key of the original. -/
def KeyInRange (c : Configuration α) : Op α → Prop
  | .fork i => ∀ s, c.spaces[i]? = some s → s.cowKey ≠ BitVec.allOnes 32
  | _ => True

theorem getElem?_set_cases {β : Type} {l : List β} {i j : Nat} {x y : β}
    (h : (l.set i x)[j]? = some y) : (j = i ∧ y = x) ∨ (j ≠ i ∧ l[j]? = some y) := by
  rw [List.getElem?_set] at h
  split at h
  case isTrue hij =>
    split at h
    · exact .inl ⟨hij.symm, (Option.some.inj h).symm⟩
    · cases h
  case isFalse hij => exact .inr ⟨Ne.symm hij, h⟩

theorem inv_init : Inv (init : Configuration α) := by
  have hempty {i : Nat} {s : AddressSpace}
      (hs : (init : Configuration α).spaces[i]? = some s) : s = .empty := by
    simpa [init] using List.mem_of_getElem? hs
  refine ⟨fun hs ho => ?_, fun hs ho => ?_, fun hs => ?_⟩
  · rw [hempty hs] at ho
    cases ho
  · rw [hempty hs] at ho
    cases ho
  · rw [hempty hs]
    decide

/-- Steps that keep the spaces and the owners keep the invariant. -/
theorem Inv.of_owner (h : Inv c) (hs : c'.spaces = c.spaces)
    (ho : ∀ os o, c.owner os = some o → c'.owner os = some o) : Inv c' where
  owner_le hi hmo := by
    rw [hs] at hi
    obtain ⟨o, ho', hpos⟩ := h.owner_le hi hmo
    exact ⟨o, ho _ o ho', hpos⟩
  exclusive hi hmo hown _ _ _ hj hmo' := by
    rw [hs] at hi hj
    obtain ⟨o, ho', hpos⟩ := h.owner_le hi hmo
    obtain rfl := Option.some.inj ((ho _ o ho').symm.trans hown)
    exact h.exclusive hi hmo ho' hj hmo'
  key_pos hi := h.key_pos (hs ▸ hi)

/-- Binding an object that is bound nowhere and carries the key of the space. -/
theorem Inv.replace (h : Inv c) {s : AddressSpace} (hs : c.spaces[i]? = some s)
    (hfree : ∀ {j mo' : Nat} {t : AddressSpace}, c.spaces[j]? = some t → t.objects mo' ≠ some os)
    (hs' : c'.spaces = c.spaces.set i (s.replace mo os)) (hos : c'.owner os = some s.cowKey)
    (ho : ∀ a o, a ≠ os → c.owner a = some o → c'.owner a = some o) : Inv c' := by
  -- what is bound now was bound before, but for the new binding
  have hcases {j mo' a : Nat} {t : AddressSpace} (hj : c'.spaces[j]? = some t)
      (ha : t.objects mo' = some a) :
      (j = i ∧ mo' = mo ∧ a = os ∧ t.cowKey = s.cowKey) ∨
        (a ≠ os ∧ ∃ t', c.spaces[j]? = some t' ∧ t'.objects mo' = some a ∧
          t.cowKey = t'.cowKey) := by
    rw [hs'] at hj
    rcases getElem?_set_cases hj with ⟨rfl, rfl⟩ | ⟨_, hj⟩
    · simp only [AddressSpace.replace, Function.update_apply] at ha
      by_cases hmo : mo' = mo
      · rw [if_pos hmo] at ha
        exact .inl ⟨rfl, hmo, (Option.some.inj ha).symm, rfl⟩
      · rw [if_neg hmo] at ha
        refine .inr ⟨fun hao => hfree hs (hao ▸ ha), s, hs, ha, rfl⟩
    · exact .inr ⟨fun hao => hfree hj (hao ▸ ha), t, hj, ha, rfl⟩
  have howner {j mo' a : Nat} {t : AddressSpace} (hj : c.spaces[j]? = some t)
      (ha : t.objects mo' = some a) (hne : a ≠ os) :
      ∃ o, c.owner a = some o ∧ c'.owner a = some o ∧ 0 < o ∧ o ≤ t.cowKey := by
    obtain ⟨o, hown, hle⟩ := h.owner_le hj ha
    exact ⟨o, hown, ho a o hne hown, hle⟩
  refine ⟨fun hj ha => ?_, fun hj ha hown _ _ _ hk hb => ?_, fun hj => ?_⟩
  · rcases hcases hj ha with ⟨rfl, rfl, rfl, hkey⟩ | ⟨hne, t', hj', ha', hkey⟩
    · exact ⟨s.cowKey, hos, h.key_pos hs, hkey ▸ BitVec.le_refl _⟩
    · obtain ⟨o, -, hown, hle⟩ := howner hj' ha' hne
      exact ⟨o, hown, hkey ▸ hle⟩
  · rcases hcases hj ha with ⟨rfl, rfl, rfl, -⟩ | ⟨hne, t', hj', ha', hkey⟩
    · rcases hcases hk hb with ⟨rfl, rfl, -, -⟩ | ⟨hne, -⟩
      · exact ⟨rfl, rfl⟩
      · exact absurd rfl hne
    · rcases hcases hk hb with ⟨rfl, rfl, rfl, -⟩ | ⟨-, t'', hk', hb', -⟩
      · exact absurd rfl hne
      · obtain ⟨o, hold, hnew, -⟩ := howner hj' ha' hne
        rw [hnew.symm.trans hown, hkey] at hold
        exact h.exclusive hj' ha' hold hk' hb'
  · rw [hs'] at hj
    rcases getElem?_set_cases hj with ⟨rfl, rfl⟩ | ⟨-, hj⟩
    · have hpos := h.key_pos hs
      exact hpos
    · exact h.key_pos hj

/-- After a fork every key of the two spaces is above the owners of what they hold. -/
theorem Inv.fork (h : Inv c) (hk : KeyInRange c (.fork i)) (hc : c.step (.fork i) = some c') :
    Inv c' := by
  obtain ⟨s, hs, rfl⟩ := step_fork hc
  have hlt : s.cowKey < s.cowKey + 1 := by
    have hne : s.cowKey ≠ 4294967295#32 := hk s hs
    bv_omega
  -- a space after the fork is an old one, or the original or the copy with the new key
  have hcases {j : Nat} {t : AddressSpace}
      (hj : (c.spaces.set i s.copy.1 ++ [s.copy.2])[j]? = some t) :
      (j ≠ i ∧ c.spaces[j]? = some t) ∨ (t.cowKey = s.cowKey + 1 ∧ t.objects = s.objects) := by
    rw [List.getElem?_append] at hj
    split at hj
    case isTrue =>
      rcases getElem?_set_cases hj with ⟨rfl, rfl⟩ | hj
      · exact .inr ⟨rfl, rfl⟩
      · exact .inl hj
    case isFalse =>
      have ht : t = s.copy.2 := by simpa using List.mem_of_getElem? hj
      exact .inr ⟨ht ▸ rfl, ht ▸ rfl⟩
  refine ⟨fun hj ha => ?_, fun {j mo a t} hj ha hown k mo' t' hk hb => ?_, fun hj => ?_⟩
  · rcases hcases hj with ⟨-, hj⟩ | ⟨hkey, hobj⟩
    · exact h.owner_le hj ha
    · obtain ⟨o, hown, hpos, hle⟩ := h.owner_le hs (hobj ▸ ha)
      refine ⟨o, hown, hpos, ?_⟩
      rw [hkey]
      bv_omega
  · rcases hcases hj with ⟨hji, hj⟩ | ⟨hkey, hobj⟩
    · rcases hcases hk with ⟨-, hk⟩ | ⟨-, hobj⟩
      · exact h.exclusive hj ha hown hk hb
      · have heq := (h.exclusive hj ha hown hs (hobj ▸ hb)).1
        exact absurd heq.symm hji
    · -- the owner is at most the old key, so it is not the new one
      obtain ⟨o, hown', -, hle⟩ := h.owner_le hs (hobj ▸ ha)
      have ho : o = t.cowKey := Option.some.inj (hown'.symm.trans hown)
      rw [ho, hkey] at hle
      bv_omega
  · rcases hcases hj with ⟨-, hj⟩ | ⟨hkey, -⟩
    · exact h.key_pos hj
    · have hpos := h.key_pos hs
      rw [hkey]
      bv_omega

section Heap

variable {β : Type} {heap : List (ObjectCell α)} {cell cell' : ObjectCell α} {a : Nat}

theorem map_getElem?_set (g : ObjectCell α → β) (hos : heap[os]? = some cell') :
    (heap.set os cell)[a]?.map g = if a = os then some (g cell) else heap[a]?.map g := by
  have hlt : os < heap.length := (List.getElem?_eq_some_iff.mp hos).1
  rw [List.getElem?_set]
  by_cases ha : a = os
  · rw [if_pos ha.symm, if_pos hlt, if_pos ha]
    rfl
  · rw [if_neg (Ne.symm ha), if_neg ha]

theorem map_getElem?_concat (g : ObjectCell α → β) :
    (heap ++ [cell])[a]?.map g = if a = heap.length then some (g cell) else heap[a]?.map g := by
  by_cases hlt : a < heap.length
  · rw [if_neg (Nat.ne_of_lt hlt), List.getElem?_append_left hlt]
  · by_cases ha : a = heap.length
    · simp [ha]
    · rw [if_neg ha, List.getElem?_eq_none (by simp; omega), List.getElem?_eq_none (by omega)]

end Heap

theorem owner_set {cell cell' : ObjectCell α} {a : Nat} (hos : c.heap[os]? = some cell')
    (hc : c'.heap = c.heap.set os cell) :
    c'.owner a = if a = os then some cell.copyOnWriteOwner else c.owner a := by
  rw [owner, hc]
  exact map_getElem?_set _ hos

theorem owner_append {cell : ObjectCell α} {a : Nat} (hc : c'.heap = c.heap ++ [cell]) :
    c'.owner a = if a = c.heap.length then some cell.copyOnWriteOwner else c.owner a := by
  rw [owner, hc]
  exact map_getElem?_concat _

theorem contents_set {cell cell' : ObjectCell α} {a : Nat} (hos : c.heap[os]? = some cell')
    (hc : c'.heap = c.heap.set os cell) :
    c'.contents a = if a = os then some cell.contents else c.contents a := by
  rw [contents, hc]
  exact map_getElem?_set _ hos

theorem contents_append {cell : ObjectCell α} {a : Nat} (hc : c'.heap = c.heap ++ [cell]) :
    c'.contents a = if a = c.heap.length then some cell.contents else c.contents a := by
  rw [contents, hc]
  exact map_getElem?_concat _

theorem owner_lt {a : Nat} {o : BitVec 32} (h : c.owner a = some o) : a < c.heap.length := by
  unfold owner at h
  obtain ⟨cell, hcell, -⟩ := Option.map_eq_some_iff.mp h
  exact (List.getElem?_eq_some_iff.mp hcell).1

theorem owner_of_getElem? {cell : ObjectCell α} (h : c.heap[os]? = some cell) :
    c.owner os = some cell.copyOnWriteOwner := by
  unfold owner
  rw [h]
  rfl

/-- What `unbindObject` leaves bound was bound before. -/
theorem Inv.unbind (h : Inv c) {s : AddressSpace} (hs : c.spaces[i]? = some s)
    (hheap : c'.heap = c.heap) (hs' : c'.spaces = c.spaces.set i (s.unbindObject mo)) :
    Inv c' := by
  have hcases {j : Nat} {t : AddressSpace} (hj : c'.spaces[j]? = some t) :
      ∃ t', c.spaces[j]? = some t' ∧ t.cowKey = t'.cowKey ∧
        ∀ mo' a, t.objects mo' = some a → t'.objects mo' = some a := by
    rw [hs'] at hj
    rcases getElem?_set_cases hj with ⟨rfl, rfl⟩ | ⟨-, hj⟩
    · refine ⟨s, hs, rfl, fun mo' a ha => ?_⟩
      simp only [AddressSpace.unbindObject, Function.update_apply] at ha
      split at ha
      · cases ha
      · exact ha
    · exact ⟨t, hj, rfl, fun _ _ ha => ha⟩
  have howner (a : Nat) : c'.owner a = c.owner a := by
    unfold owner
    rw [hheap]
  refine ⟨fun hj ha => ?_, fun hj ha hown _ _ _ hk hb => ?_, fun hj => ?_⟩
  · obtain ⟨t, hj, hkey, hobj⟩ := hcases hj
    rw [hkey, howner]
    exact h.owner_le hj (hobj _ _ ha)
  · obtain ⟨t, hj, hkey, hobj⟩ := hcases hj
    obtain ⟨t', hk, -, hobj'⟩ := hcases hk
    rw [hkey, howner] at hown
    exact h.exclusive hj (hobj _ _ ha) hown hk (hobj' _ _ hb)
  · obtain ⟨t, hj, hkey, -⟩ := hcases hj
    rw [hkey]
    exact h.key_pos hj

/-- Every step that does not wrap a key keeps the invariant. -/
theorem Inv.step (h : Inv c) {op : Op α} (hk : KeyInRange c op) (hc : c.step op = some c') :
    Inv c' := by
  cases op with
  | fork i => exact h.fork hk hc
  | alloc x =>
    obtain rfl := Option.some.inj hc
    refine h.of_owner rfl fun a o ha => ?_
    rw [owner_append rfl, if_neg (Nat.ne_of_lt (owner_lt ha)), ha]
  | setReadOnly os ro =>
    obtain ⟨cell, hcell, rfl⟩ := step_setReadOnly hc
    refine h.of_owner rfl fun a o ha => ?_
    rw [owner_set hcell rfl]
    by_cases hao : a = os
    · rw [if_pos hao, ← ha, hao, owner_of_getElem? hcell]
    · rw [if_neg hao, ha]
  | bindObject i mo os =>
    obtain ⟨s, cell, hs, hcell, hzero, rfl⟩ := step_bindObject hc
    -- an object without an owner is bound nowhere
    refine h.replace hs (fun hj ha => ?_) rfl ?_ fun a o hne ha => ?_
    · obtain ⟨o, hown, hpos, -⟩ := h.owner_le hj ha
      rw [owner_of_getElem? hcell, hzero] at hown
      obtain rfl := Option.some.inj hown
      exact absurd hpos (BitVec.lt_irrefl _)
    · rw [owner_set hcell rfl, if_pos rfl]
    · rw [owner_set hcell rfl, if_neg hne, ha]
  | unbindObject i mo =>
    obtain ⟨s, hs, rfl⟩ := step_unbindObject hc
    exact h.unbind hs rfl rfl
  | write i mo f =>
    obtain ⟨s, os, cell, hs, -, hcell, ⟨-, rfl⟩ | rfl⟩ := step_write hc
    · refine h.of_owner rfl fun a o ha => ?_
      rw [owner_set hcell rfl]
      by_cases hao : a = os
      · rw [if_pos hao, ← ha, hao, owner_of_getElem? hcell]
      · rw [if_neg hao, ha]
    · -- the copy is a new object
      refine h.replace hs (fun hj ha => ?_) rfl ?_ fun a o hne ha => ?_
      · obtain ⟨o, hown, -⟩ := h.owner_le hj ha
        exact absurd (owner_lt hown) (Nat.lt_irrefl _)
      · rw [owner_append rfl, if_pos rfl]
      · rw [owner_append rfl, if_neg hne, ha]

end Invariant

section Refinement

/-- The object that space `i` holds for `mo`. -/
def binding (c : Configuration α) (i mo : Nat) : Option Nat := do
  let s ← c.spaces[i]?
  s.objects mo

theorem read_eq (c : Configuration α) (i mo : Nat) :
    c.read i mo = (c.binding i mo).bind c.contents := by
  unfold read binding contents AddressSpace.findObject
  cases c.spaces[i]? with
  | none => rfl
  | some s =>
    cases hmo : s.objects mo with
    | none => simp [hmo]
    | some os => cases hos : c.heap[os]? <;> simp [hmo, hos]

theorem binding_eq_some : c.binding i mo = some os ↔
    ∃ s, c.spaces[i]? = some s ∧ s.objects mo = some os := by
  simp [binding, Option.bind_eq_some_iff]

theorem binding_set {s s' : AddressSpace} (hs : c.spaces[i]? = some s)
    (hc : c'.spaces = c.spaces.set i s') (j mo' : Nat) :
    c'.binding j mo' = if j = i then s'.objects mo' else c.binding j mo' := by
  have hlt : i < c.spaces.length := (List.getElem?_eq_some_iff.mp hs).1
  unfold binding
  rw [hc, List.getElem?_set]
  by_cases hj : j = i
  · simp [hj, hlt]
  · simp [hj, Ne.symm hj]

/-- A new binding changes what one space holds for one object. -/
theorem binding_set_update {s : AddressSpace} (hs : c.spaces[i]? = some s) {b : Option Nat}
    (hc : c'.spaces = c.spaces.set i { s with objects := Function.update s.objects mo b })
    (j mo' : Nat) :
    c'.binding j mo' = if j = i ∧ mo' = mo then b else c.binding j mo' := by
  rw [binding_set hs hc]
  by_cases hj : j = i
  · simp [hj, binding, hs, Function.update_apply]
  · simp [hj]

/-- A fork keeps every binding, and the copy gets those of the original. -/
theorem binding_fork {s : AddressSpace} (hs : c.spaces[i]? = some s)
    (hc : c'.spaces = c.spaces.set i s.copy.1 ++ [s.copy.2]) (j mo' : Nat) :
    c'.binding j mo' = c.binding (if j = c.spaces.length then i else j) mo' := by
  have hlen : (c.spaces.set i s.copy.1).length = c.spaces.length := List.length_set
  unfold binding
  rw [hc]
  by_cases hj : j = c.spaces.length
  · rw [if_pos hj, hj, ← hlen, List.getElem?_concat_length, hs]
    rfl
  · rw [if_neg hj]
    by_cases hlt : j < c.spaces.length
    · rw [List.getElem?_append_left (hlen ▸ hlt), List.getElem?_set]
      by_cases hi : i = j
      · rw [if_pos hi, if_pos (hi ▸ hlt), ← hi, hs]
        rfl
      · rw [if_neg hi]
    · rw [List.getElem?_eq_none (by simp; omega), List.getElem?_eq_none (by omega)]

theorem Inv.lt_of_binding (h : Inv c) (hb : c.binding i mo = some os) :
    os < c.heap.length := by
  obtain ⟨s, hs, hmo⟩ := binding_eq_some.mp hb
  obtain ⟨o, hown, -⟩ := h.owner_le hs hmo
  exact owner_lt hown

/-- Steps that keep the bindings and the contents of what is bound keep every read. -/
theorem read_congr (hb : c'.binding i mo = c.binding i mo)
    (hcon : ∀ os, c.binding i mo = some os → c'.contents os = c.contents os) :
    c'.read i mo = c.read i mo := by
  rw [read_eq, read_eq, hb]
  cases hos : c.binding i mo with
  | none => rfl
  | some os => exact hcon os hos

theorem update_update_apply {β : Type} (m : Nat → Nat → β) (i mo : Nat) (x : β) (j mo' : Nat) :
    Function.update m i (Function.update (m i) mo x) j mo' =
      if j = i ∧ mo' = mo then x else m j mo' := by
  by_cases hj : j = i
  · subst hj
    simp [Function.update_apply]
  · simp [hj]

/-- One step does to the reads what it does to private memories. -/
theorem Inv.step_read (h : Inv c) {op : Op α} (hc : c.step op = some c') :
    c'.read = privateStep c.spaces.length c.contents c.read op := by
  funext j mo'
  cases op with
  | fork i =>
    obtain ⟨s, hs, hc'⟩ := step_fork hc
    have hcon : c'.contents = c.contents := by rw [hc']; rfl
    have hbind := binding_fork hs (congrArg spaces hc') j mo'
    rw [privateStep, Function.update_apply]
    by_cases hj : j = c.spaces.length
    · rw [if_pos hj] at hbind ⊢
      rw [read_eq, read_eq, hbind, hcon]
    · rw [if_neg hj] at hbind ⊢
      exact read_congr hbind fun a _ => congrFun hcon a
  | alloc x =>
    obtain rfl := Option.some.inj hc
    refine read_congr rfl fun a ha => ?_
    rw [contents_append rfl, if_neg (Nat.ne_of_lt (h.lt_of_binding ha))]
  | setReadOnly os ro =>
    obtain ⟨cell, hcell, rfl⟩ := step_setReadOnly hc
    refine read_congr rfl fun a ha => ?_
    rw [contents_set hcell rfl]
    by_cases hao : a = os
    · simp [hao, contents, hcell]
    · rw [if_neg hao]
  | bindObject i mo os =>
    obtain ⟨s, cell, hs, hcell, -, hc'⟩ := step_bindObject hc
    have hcon (a : Nat) : c'.contents a = c.contents a := by
      rw [contents_set hcell (congrArg heap hc')]
      by_cases hao : a = os
      · simp [hao, contents, hcell]
      · rw [if_neg hao]
    have hbind := binding_set_update hs (congrArg spaces hc') j mo'
    rw [privateStep, update_update_apply]
    by_cases hmo : j = i ∧ mo' = mo
    · rw [if_pos hmo] at hbind ⊢
      rw [read_eq, hbind]
      exact hcon os
    · rw [if_neg hmo] at hbind ⊢
      exact read_congr hbind fun a _ => hcon a
  | unbindObject i mo =>
    obtain ⟨s, hs, hc'⟩ := step_unbindObject hc
    have hcon : c'.contents = c.contents := by rw [hc']; rfl
    have hbind := binding_set_update hs (congrArg spaces hc') j mo'
    rw [privateStep, update_update_apply]
    by_cases hmo : j = i ∧ mo' = mo
    · rw [if_pos hmo] at hbind ⊢
      rw [read_eq, hbind]
      rfl
    · rw [if_neg hmo] at hbind ⊢
      exact read_congr hbind fun a _ => congrFun hcon a
  | write i mo f =>
    obtain ⟨s, os, cell, hs, hos, hcell, hc'⟩ := step_write hc
    have hbind : c.binding i mo = some os := binding_eq_some.mpr ⟨s, hs, hos⟩
    have hread : c.read i mo = some cell.contents := by
      rw [read_eq, hbind]
      simp [contents, hcell]
    rw [privateStep]
    obtain ⟨hkey, rfl⟩ | hcopy := hc'
    · -- in place: nothing else is bound to the object
      rw [update_update_apply, hread]
      by_cases hmo : j = i ∧ mo' = mo
      · have hos' : contents ⟨c.heap.set os { cell with contents := f cell.contents }, c.spaces⟩
            os = some (f cell.contents) := (contents_set hcell rfl).trans (if_pos rfl)
        rw [if_pos hmo, hmo.1, hmo.2, read_eq]
        exact (congrArg (Option.bind · _) hbind).trans hos'
      · rw [if_neg hmo]
        refine read_congr rfl fun a ha => ?_
        obtain ⟨t, ht, hta⟩ := binding_eq_some.mp ha
        rw [contents_set hcell rfl]
        by_cases hao : a = os
        · rw [hao] at hta
          have hown := (owner_of_getElem? hcell).trans (congrArg some hkey.symm)
          exact absurd (h.exclusive hs hos hown ht hta) hmo
        · rw [if_neg hao]
    · -- through a copy
      have hcon (a : Nat) := contents_append (a := a) (congrArg heap hcopy)
      have hbind' := binding_set_update hs (congrArg spaces hcopy) j mo'
      rw [update_update_apply, hread]
      by_cases hmo : j = i ∧ mo' = mo
      · rw [if_pos hmo] at hbind' ⊢
        rw [read_eq, hbind']
        exact (hcon _).trans (if_pos rfl)
      · rw [if_neg hmo] at hbind' ⊢
        refine read_congr hbind' fun a ha => ?_
        rw [hcon, if_neg (Nat.ne_of_lt (h.lt_of_binding ha))]

end Refinement

section Runs

/-- The operation is about what space `i` holds for `mo`. -/
def Op.Targets (i mo : Nat) : Op α → Prop
  | .bindObject j mo' _ => j = i ∧ mo' = mo
  | .unbindObject j mo' => j = i ∧ mo' = mo
  | .write j mo' _ => j = i ∧ mo' = mo
  | _ => False

theorem Inv.run (h : Inv c) (hr : Steps KeyInRange c c') : Inv c' := by
  induction hr with
  | refl => exact h
  | step _ hk hc ih => exact ih.step hk hc

theorem Steps.mono {P Q : Configuration α → Op α → Prop} (hPQ : ∀ c op, P c op → Q c op)
    (hr : Steps P c c') : Steps Q c c' := by
  induction hr with
  | refl => exact .refl
  | step _ hP hc ih => exact .step ih (hPQ _ _ hP) hc

theorem privateStep_of_not_targets {n : Nat} {objects : Nat → Option α}
    {m : Nat → Nat → Option α} {op : Op α} (hop : ¬ op.Targets i mo) (hn : i ≠ n) :
    privateStep n objects m op i mo = m i mo := by
  cases op with
  | fork j => simp [privateStep, hn]
  | alloc x => rfl
  | setReadOnly os ro => rfl
  | bindObject j mo' os =>
    rw [privateStep, update_update_apply, if_neg fun h => hop ⟨h.1.symm, h.2.symm⟩]
  | unbindObject j mo' =>
    rw [privateStep, update_update_apply, if_neg fun h => hop ⟨h.1.symm, h.2.symm⟩]
  | write j mo' f =>
    rw [privateStep, update_update_apply, if_neg fun h => hop ⟨h.1.symm, h.2.symm⟩]

theorem lt_of_read {x : α} (h : c.read i mo = some x) : i < c.spaces.length := by
  rw [read_eq, Option.bind_eq_some_iff] at h
  obtain ⟨os, hb, -⟩ := h
  obtain ⟨s, hs, -⟩ := binding_eq_some.mp hb
  exact (List.getElem?_eq_some_iff.mp hs).1

/-- What a space sees for an object stays until an operation targets it. -/
theorem Inv.run_read (h : Inv c) {x : α} (hx : c.read i mo = some x)
    (hr : Steps (fun c op => KeyInRange c op ∧ ¬ op.Targets i mo) c c') :
    c'.read i mo = some x := by
  induction hr with
  | refl => exact hx
  | step hr hk hc ih =>
    have hinv := h.run (hr.mono fun _ _ hP => hP.1)
    rw [hinv.step_read hc, privateStep_of_not_targets hk.2 (Nat.ne_of_lt (lt_of_read ih)), ih]

theorem read_of_step_write {f : α → α} (hc : c.step (.write i mo f) = some c') :
    ∃ x, c.read i mo = some x := by
  obtain ⟨s, os, cell, hs, hos, hcell, -⟩ := step_write hc
  refine ⟨cell.contents, ?_⟩
  rw [read_eq, binding_eq_some.mpr ⟨s, hs, hos⟩]
  simp [contents, hcell]

/-- In every run in which no fork wraps a `cowKey`, the ownership invariant holds, a write
through one space changes what that space sees for that object and nothing else, and the
space sees the written value until it writes or binds again. -/
theorem isolation (h : Steps KeyInRange init c) :
    c.Inv ∧ ∀ (i mo : Nat) (f : α → α) (c' : Configuration α),
      c.step (.write i mo f) = some c' →
      ∃ x, c.read i mo = some x ∧
        (∀ j mo', c'.read j mo' = if j = i ∧ mo' = mo then some (f x) else c.read j mo') ∧
        ∀ c'', Steps (fun c op => KeyInRange c op ∧ ¬ op.Targets i mo) c' c'' →
          c''.read i mo = some (f x) := by
  have hinv : c.Inv := inv_init.run h
  refine ⟨hinv, fun i mo f c' hc => ?_⟩
  obtain ⟨x, hx⟩ := read_of_step_write hc
  have hread (j mo' : Nat) :
      c'.read j mo' = if j = i ∧ mo' = mo then some (f x) else c.read j mo' := by
    rw [hinv.step_read hc, privateStep, update_update_apply, hx]
    rfl
  have hself : c'.read i mo = some (f x) := (hread i mo).trans (if_pos ⟨rfl, rfl⟩)
  have hkey : KeyInRange c (.write i mo f) := trivial
  exact ⟨x, hx, hread, fun c'' hr => (hinv.step hkey hc).run_read hself hr⟩

def forkedOnce : Configuration Nat :=
  ⟨[⟨1, false, 7⟩], [⟨2, Function.update (fun _ => none) 0 (some 0)⟩,
    ⟨2, Function.update (fun _ => none) 0 (some 0)⟩]⟩

theorem isolation_forkedOnce : ∃ c', forkedOnce.step (.write 1 0 (· + 1)) = some c' ∧
    c'.read 1 0 = some 8 ∧ c'.read 0 0 = some 7 := by
  have halloc : Steps KeyInRange init (⟨[⟨0, false, 7⟩], [.empty]⟩ : Configuration Nat) :=
    .step .refl (show KeyInRange _ (.alloc 7) from trivial) rfl
  have hbind : Steps KeyInRange init
      (⟨[⟨1, false, 7⟩], [AddressSpace.empty.replace 0 0]⟩ : Configuration Nat) :=
    .step halloc (show KeyInRange _ (.bindObject 0 0 0) from trivial) rfl
  have hkey : KeyInRange (⟨[⟨1, false, 7⟩], [AddressSpace.empty.replace 0 0]⟩ : Configuration Nat)
      (.fork 0) := by
    intro s hs
    obtain rfl : AddressSpace.empty.replace 0 0 = s := Option.some.inj hs
    decide
  have hrun : Steps KeyInRange init forkedOnce := .step hbind hkey rfl
  obtain ⟨x, hx, hread, -⟩ := (isolation hrun).2 1 0 (· + 1) _ rfl
  obtain rfl : 7 = x := Option.some.inj hx
  exact ⟨_, rfl, hread 1 0, hread 0 0⟩

/-- Forks of one space leave the heap alone and move its key on, around at `2 ^ 32`. -/
theorem forks_run (n : Nat) {s : AddressSpace} (hs : c.spaces[0]? = some s)
    (hobj : ∀ t ∈ c.spaces, t.objects = s.objects) :
    ∃ c', List.foldlM step c (List.replicate n (.fork 0)) = some c' ∧ c'.heap = c.heap ∧
      c'.spaces.length = c.spaces.length + n ∧
      c'.spaces[0]? = some ⟨s.cowKey + BitVec.ofNat 32 n, s.objects⟩ ∧
      ∀ t ∈ c'.spaces, t.objects = s.objects := by
  induction n generalizing c s with
  | zero =>
    refine ⟨c, rfl, rfl, rfl, ?_, hobj⟩
    simpa using hs
  | succ n ih =>
    have hlt : 0 < c.spaces.length := (List.getElem?_eq_some_iff.mp hs).1
    have hstep : c.step (.fork 0) = some ⟨c.heap, c.spaces.set 0 s.copy.1 ++ [s.copy.2]⟩ := by
      simp [step, hs]
    have hs' : (c.spaces.set 0 s.copy.1 ++ [s.copy.2])[0]? = some s.copy.1 := by
      simp [hlt]
    have hobj' : ∀ t ∈ c.spaces.set 0 s.copy.1 ++ [s.copy.2], t.objects = s.copy.1.objects := by
      intro t ht
      rcases List.mem_append.mp ht with ht | ht
      · rcases List.mem_or_eq_of_mem_set ht with ht | rfl
        · exact hobj t ht
        · rfl
      · rw [List.mem_singleton.mp ht]
        rfl
    obtain ⟨c', hrun, hheap, hlen, hkey, hobj''⟩ := ih (c := ⟨_, _⟩) hs' hobj'
    refine ⟨c', ?_, hheap, ?_, ?_, hobj''⟩
    · rw [List.replicate_succ, List.foldlM_cons, hstep]
      exact hrun
    · rw [hlen, List.length_append, List.length_set]
      simp only [List.length_singleton]
      omega
    · rw [hkey]
      have hnat : s.cowKey + 1 + BitVec.ofNat 32 n = s.cowKey + BitVec.ofNat 32 (n + 1) := by
        rw [BitVec.ofNat_add, BitVec.add_assoc, BitVec.add_comm 1]
        rfl
      exact congrArg some (congrArg₂ AddressSpace.mk hnat rfl)

/-- When the forks take the key of the original back to where it was when the object was
bound, a write goes in place and the first copy sees it. -/
theorem write_after_forks {n : Nat} (hn : 0 < n) (hz : BitVec.ofNat 32 n = 0) :
    ∃ c c' : Configuration Nat,
      List.foldlM step init ([.alloc 0, .bindObject 0 0 0] ++ List.replicate n (.fork 0)) =
        some c ∧
      c.step (.write 0 0 (· + 1)) = some c' ∧ c.read 1 0 = some 0 ∧ c'.read 1 0 = some 1 := by
  have hpre : List.foldlM step init [.alloc 0, .bindObject 0 0 0] =
      some (⟨[⟨1, false, 0⟩], [AddressSpace.empty.replace 0 0]⟩ : Configuration Nat) := rfl
  obtain ⟨c, hrun, hheap, hlen, hkey, hobj⟩ := forks_run n
    (c := ⟨[⟨1, false, 0⟩], [AddressSpace.empty.replace 0 0]⟩) rfl (by simp)
  replace hkey : c.spaces[0]? = some (AddressSpace.empty.replace 0 0) := by
    rw [hkey, hz]
    rfl
  have hone : 1 < c.spaces.length := by
    rw [hlen, List.length_singleton]
    omega
  obtain ⟨t, ht⟩ : ∃ t, c.spaces[1]? = some t := ⟨_, List.getElem?_eq_getElem hone⟩
  have htobj : t.objects 0 = some 0 := by
    rw [hobj t (List.mem_of_getElem? ht)]
    rfl
  have hread : c.read 1 0 = some 0 := by
    simp [read, ht, AddressSpace.findObject, htobj, hheap]
  have hstep : c.step (.write 0 0 (· + 1)) = some ⟨[⟨1, false, 1⟩], c.spaces⟩ := by
    have hself : c.spaces.set 0 (AddressSpace.empty.replace 0 0) = c.spaces := by
      obtain ⟨h0, heq⟩ := List.getElem?_eq_some_iff.mp hkey
      rw [← heq, List.set_getElem_self]
    simp only [AddressSpace.replace, AddressSpace.empty] at hkey hself
    simp [step, hkey, AddressSpace.findObject, AddressSpace.getWriteable, hheap]
    exact hself
  refine ⟨c, _, ?_, hstep, hread, ?_⟩
  · rw [List.foldlM_append, hpre]
    exact hrun
  · simp [read, ht, AddressSpace.findObject, htobj]

theorem write_after_wrap : ∃ c c' : Configuration Nat,
    List.foldlM step init ([.alloc 0, .bindObject 0 0 0] ++ List.replicate (2 ^ 32) (.fork 0)) =
      some c ∧
    c.step (.write 0 0 (· + 1)) = some c' ∧ c.read 1 0 = some 0 ∧ c'.read 1 0 = some 1 :=
  write_after_forks (by decide) (by decide)

end Runs

end Klee.Configuration
