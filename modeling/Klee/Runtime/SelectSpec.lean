import Klee.Runtime.Select

/-! When `select` reports what it should. -/
namespace Klee.Posix

section Meaning

inductive Descriptor
  | closed
  | symbolic
  /-- An open descriptor that the operating system knows by the number -/
  | system (fd : Int)
deriving DecidableEq

def Env.descriptor (e : Env) (i : ℕ) : Descriptor :=
  match e.getFile i with
  | none => .closed
  | some j => if (e.fds j).dfile.isSome then .symbolic else .system (e.fds j).fd

namespace Descriptor

def isSystem : Descriptor → Bool
  | system _ => true
  | _ => false

def number : Descriptor → ℕ
  | system fd => fd.toNat
  | _ => 0

def Addressable : Descriptor → Prop
  | closed => False
  | symbolic => True
  | system fd => (fdBit fd).isSome

end Descriptor

def total (f : SetKind → ℕ) : ℕ := f .read + f .write + f .except

/-- What is relied on for the `select` of the operating system -/
structure OsSelect.Reports (os : OsSelect) : Prop where
  subset : ∀ n sets r ready, os n sets = some (r, ready) → ∀ k, ready k ⊆ sets k
  count : ∀ n sets r ready, os n sets = some (r, ready) → r = total fun k => (ready k).card

variable (e : Env) (ins : SetKind → FdSet) (n : ℕ)

abbrev Selected (i : ℕ) : Prop := i ∈ ins .read ∨ i ∈ ins .write ∨ i ∈ ins .except

def asked (k : SetKind) : FdSet :=
  ((ins k).filter fun i => i < n ∧ (e.descriptor i).isSystem).image fun i => (e.descriptor i).number

def askedNfds : ℕ :=
  ((Finset.range n).filter fun i => Selected ins i ∧ (e.descriptor i).isSystem).sup fun i =>
    (e.descriptor i).number + 1

def report (os : OsSelect) : Option (ℕ × (SetKind → FdSet)) :=
  if 0 < askedNfds e ins n then os (askedNfds e ins n) (asked e ins n) else none

def reported (os : OsSelect) (k : SetKind) : FdSet :=
  match report e ins n os with
  | none => ∅
  | some (_, ready) => ready k

/-- The sets have the selected descriptors that are symbolic or reported, and the count is that of
their bits. An error is no report. -/
def SelectRight (os : OsSelect) : Except SelectStop (ℕ × (SetKind → FdSet)) → Prop
  | .error .undefined => False
  | .error .EBADF => True
  | .error .system => True
  | .ok (count, out) =>
    (∀ k i, i ∈ out k ↔ i ∈ ins k ∧ i < n ∧ (e.descriptor i = .symbolic ∨
      ∃ fd, e.descriptor i = .system fd ∧ fd.toNat ∈ reported e ins n os k)) ∧
    count = total fun k => (out k).card

/-- The first loop goes on after `i`. -/
def Passes (i : ℕ) : Prop :=
  (fdBit i).isSome ∧ (Selected ins i → (e.descriptor i).Addressable)

def Refused : Prop :=
  ∃ i < n, (∀ j < i, Passes e ins j) ∧ (fdBit i).isSome ∧ Selected ins i ∧
    e.descriptor i = .closed

/-- Every number is one for the macros, a symbolic descriptor is in one set only, and no number that
is reported is that of two descriptors. -/
structure SelectFine (os : OsSelect) : Prop where
  nfds : n ≤ 31
  selected : ∀ i < n, Selected ins i → (e.descriptor i).Addressable
  symbolic : ∀ i < n, e.descriptor i = .symbolic → ∀ k k', i ∈ ins k → i ∈ ins k' → k = k'
  system : ∀ r ready, report e ins n os = some (r, ready) →
    (∀ i < n, ∀ fd, e.descriptor i = .system fd → (fdBit fd).isSome) ∧
    ∀ i < n, ∀ j < n, ∀ fd, e.descriptor i = .system fd → e.descriptor j = .system fd →
      (∃ k, fd.toNat ∈ ready k) → i = j

end Meaning

section FirstLoop

variable {e : Env} {ins : SetKind → FdSet} {n i : ℕ}

theorem fdBit_eq_some {fd : Int} {m : ℕ} (h : fdBit fd = some m) : fd = m := by
  unfold fdBit at h
  split_ifs at h with hbit
  cases h
  exact (Int.toNat_of_nonneg hbit.1).symm

theorem fdBit_natCast (h : (fdBit i).isSome) : fdBit i = some i := by
  obtain ⟨m, hm⟩ := Option.isSome_iff_exists.mp h
  rw [hm]
  exact congrArg some (Int.ofNat_inj.mp (fdBit_eq_some hm)).symm

theorem forall_isSome_fdBit_iff : (∀ i < n, (fdBit i).isSome) ↔ n ≤ 31 := by
  constructor
  · intro h
    by_contra hn
    exact absurd (h 31 (by omega)) (by decide)
  · intro hn i hi
    unfold fdBit
    rw [if_pos (by unfold FD_SETSIZE NFDBITS; omega)]
    rfl

/-- `selectOne`, by what the descriptor is -/
theorem selectOne_eq (s : SelectState) (hbit : (fdBit i).isSome) : selectOne e ins s i =
    if Selected ins i then
      match e.descriptor i with
      | .closed => .error .EBADF
      | .symbolic => .ok { s with out := setWhere ins s.out i i, count := s.count + 1 }
      | .system fd =>
        match fdBit fd with
        | none => .error .undefined
        | some m => .ok { s with
            os := setWhere ins s.os i m
            osNfds := if s.osNfds ≤ fd then fd + 1 else s.osNfds }
    else .ok s := by
  unfold selectOne Env.descriptor
  rw [fdBit_natCast hbit]
  dsimp only
  refine if_congr Iff.rfl ?_ rfl
  cases e.getFile i with
  | none => rfl
  | some j =>
    by_cases hfile : (e.fds j).dfile.isSome
    · simp only [hfile, if_true]
    · cases hfd : fdBit (e.fds j).fd <;> simp [hfile, hfd]

/-- What the first loop has made before `n` -/
def stateAt (e : Env) (ins : SetKind → FdSet) (n : ℕ) : SelectState where
  out k := (ins k).filter fun i => i < n ∧ e.descriptor i = .symbolic
  os := asked e ins n
  osNfds := askedNfds e ins n
  count := ((Finset.range n).filter fun i => Selected ins i ∧ e.descriptor i = .symbolic).card

theorem filter_lt_succ (s : Finset ℕ) (P : ℕ → Prop) [DecidablePred P] :
    (s.filter fun i => i < n + 1 ∧ P i) =
      if n ∈ s ∧ P n then insert n (s.filter fun i => i < n ∧ P i)
      else s.filter fun i => i < n ∧ P i := by
  ext i
  by_cases hi : i = n
  · subst hi
    split_ifs with h <;> simp [h]
  · have hlt : i ≤ n ↔ i < n := by omega
    split_ifs <;> simp [hlt, hi]

theorem stateAt_zero : stateAt e ins 0 = ⟨fun _ => ∅, fun _ => ∅, 0, 0⟩ := by
  simp [stateAt, funext_iff, asked, askedNfds]

theorem out_succ (k : SetKind) : (stateAt e ins (n + 1)).out k =
    if n ∈ ins k ∧ e.descriptor n = .symbolic then insert n ((stateAt e ins n).out k)
    else (stateAt e ins n).out k :=
  filter_lt_succ _ _

theorem asked_succ (k : SetKind) : asked e ins (n + 1) k =
    if n ∈ ins k ∧ (e.descriptor n).isSystem then
      insert (e.descriptor n).number (asked e ins n k)
    else asked e ins n k := by
  unfold asked
  rw [filter_lt_succ]
  split_ifs
  · exact Finset.image_insert _ _ _
  · rfl

theorem askedNfds_succ : askedNfds e ins (n + 1) =
    if Selected ins n ∧ (e.descriptor n).isSystem then
      max ((e.descriptor n).number + 1) (askedNfds e ins n)
    else askedNfds e ins n := by
  unfold askedNfds
  rw [Finset.range_add_one, Finset.filter_insert]
  split_ifs
  · exact Finset.sup_insert
  · rfl

theorem count_succ : (stateAt e ins (n + 1)).count =
    (stateAt e ins n).count +
      if Selected ins n ∧ e.descriptor n = .symbolic then 1 else 0 := by
  unfold stateAt
  dsimp only
  rw [Finset.range_add_one, Finset.filter_insert]
  split_ifs
  · exact Finset.card_insert_of_notMem (by simp)
  · rfl

theorem stateAt_ext {s s' : SelectState} (hout : ∀ k, s.out k = s'.out k)
    (hos : ∀ k, s.os k = s'.os k) (hnfds : s.osNfds = s'.osNfds) (hcount : s.count = s'.count) :
    s = s' := by
  obtain ⟨out, os, nfds, count⟩ := s
  obtain rfl : out = s'.out := funext hout
  obtain rfl : os = s'.os := funext hos
  obtain rfl : nfds = s'.osNfds := hnfds
  obtain rfl : count = s'.count := hcount
  rfl

/-- One more descriptor -/
theorem selectOne_stateAt (h : Passes e ins n) :
    selectOne e ins (stateAt e ins n) n = .ok (stateAt e ins (n + 1)) := by
  obtain ⟨hbit, hselected⟩ := h
  rw [selectOne_eq _ hbit]
  by_cases hsel : Selected ins n
  · rw [if_pos hsel]
    have haddress := hselected hsel
    cases hdescr : e.descriptor n with
    | closed =>
      rw [hdescr] at haddress
      exact haddress.elim
    | symbolic =>
      refine congrArg Except.ok (stateAt_ext (fun k => ?_) (fun k => ?_) ?_ ?_)
      · simp [out_succ, hdescr, setWhere]
      · simp [stateAt, asked_succ, hdescr, Descriptor.isSystem]
      · simp [stateAt, askedNfds_succ, hdescr, Descriptor.isSystem]
      · simp [count_succ, hsel, hdescr]
    | system fd =>
      rw [hdescr] at haddress
      obtain ⟨m, hm⟩ := Option.isSome_iff_exists.mp haddress
      obtain rfl := fdBit_eq_some hm
      dsimp only
      rw [hm]
      refine congrArg Except.ok (stateAt_ext (fun k => ?_) (fun k => ?_) ?_ ?_)
      · simp [out_succ, hdescr]
      · simp [stateAt, asked_succ, hdescr, Descriptor.isSystem, Descriptor.number, setWhere]
      · dsimp only [stateAt]
        rw [askedNfds_succ, if_pos ⟨hsel, by rw [hdescr]; rfl⟩, hdescr]
        simp only [Descriptor.number, Int.toNat_natCast]
        split_ifs <;> omega
      · simp [count_succ, hdescr]
  · rw [if_neg hsel]
    have hnone (k : SetKind) : n ∉ ins k := by
      intro hk
      cases k
      · exact hsel (.inl hk)
      · exact hsel (.inr (.inl hk))
      · exact hsel (.inr (.inr hk))
    refine congrArg Except.ok (stateAt_ext (fun k => ?_) (fun k => ?_) ?_ ?_)
    · simp [out_succ, hnone]
    · simp [stateAt, asked_succ, hnone]
    · simp [stateAt, askedNfds_succ, hsel]
    · simp [count_succ, hsel]

def stopAt (e : Env) (ins : SetKind → FdSet) (i : ℕ) : SelectStop :=
  if (fdBit i).isSome ∧ Selected ins i ∧ e.descriptor i = .closed then .EBADF else .undefined

theorem selectOne_of_not_passes (h : ¬ Passes e ins n) (s : SelectState) :
    selectOne e ins s n = .error (stopAt e ins n) := by
  unfold stopAt
  cases hbit : fdBit n with
  | none =>
    rw [if_neg (by simp)]
    unfold selectOne
    rw [hbit]
  | some m =>
    have hsome : (fdBit n).isSome := by rw [hbit]; rfl
    have hsel : Selected ins n := by
      by_contra hsel
      exact h ⟨hsome, fun hs => absurd hs hsel⟩
    have haddress : ¬ (e.descriptor n).Addressable := fun ha => h ⟨hsome, fun _ => ha⟩
    rw [selectOne_eq _ hsome, if_pos hsel]
    cases hdescr : e.descriptor n with
    | closed => rw [if_pos ⟨rfl, hsel, rfl⟩]
    | symbolic =>
      rw [hdescr] at haddress
      exact absurd trivial haddress
    | system fd =>
      rw [hdescr] at haddress
      rw [if_neg (by simp)]
      dsimp only
      rw [Option.not_isSome_iff_eq_none.mp haddress]

def selectLoop (e : Env) (ins : SetKind → FdSet) (n : ℕ) : Except SelectStop SelectState :=
  (List.range n).foldlM (selectOne e ins) ⟨fun _ => ∅, fun _ => ∅, 0, 0⟩

theorem selectLoop_succ : selectLoop e ins (n + 1) =
    selectLoop e ins n >>= fun s => selectOne e ins s n := by
  simp [selectLoop, List.range_succ]

theorem selectLoop_of_passes (h : ∀ i < n, Passes e ins i) :
    selectLoop e ins n = .ok (stateAt e ins n) := by
  induction n with
  | zero =>
    rw [stateAt_zero]
    rfl
  | succ n ih =>
    rw [selectLoop_succ, ih fun i hi => h i (hi.trans n.lt_succ_self)]
    simp only [bind, Except.bind]
    exact selectOne_stateAt (h n n.lt_succ_self)

/-- The first descriptor that stops the loop decides how it ends. -/
theorem selectLoop_of_not_passes (hi : i < n) (hbefore : ∀ j < i, Passes e ins j)
    (h : ¬ Passes e ins i) : selectLoop e ins n = .error (stopAt e ins i) := by
  induction n with
  | zero => exact absurd hi (Nat.not_lt_zero i)
  | succ n ih =>
    rw [selectLoop_succ]
    rcases Nat.lt_succ_iff_lt_or_eq.mp hi with hi | rfl
    · rw [ih hi]
      rfl
    · rw [selectLoop_of_passes hbefore]
      simp only [bind, Except.bind]
      exact selectOne_of_not_passes h _

end FirstLoop

section SecondLoop

variable {e : Env} {given : SetKind → Option FdSet} {ready out : SetKind → FdSet} {n i : ℕ}

/-- The descriptors that are put in the sets for what the operating system reports -/
def backAt (e : Env) (given : SetKind → Option FdSet) (ready : SetKind → FdSet) (n : ℕ)
    (k : SetKind) : FdSet :=
  (Finset.range n).filter fun i =>
    (given k).isSome ∧ (e.descriptor i).isSystem ∧ (e.descriptor i).number ∈ ready k

theorem backAt_succ (k : SetKind) : backAt e given ready (n + 1) k =
    if (given k).isSome ∧ (e.descriptor n).isSystem ∧ (e.descriptor n).number ∈ ready k then
      insert n (backAt e given ready n k)
    else backAt e given ready n k := by
  unfold backAt
  rw [Finset.range_add_one, Finset.filter_insert]

theorem selectBack_eq (hbit : (fdBit i).isSome) : selectBack e given ready out i =
    match e.descriptor i with
    | .closed => .ok out
    | .symbolic => .ok out
    | .system fd =>
      if given .read = none ∧ given .write = none ∧ given .except = none then .ok out
      else
        match fdBit fd with
        | none => .error .undefined
        | some m => .ok fun k =>
          if (given k).isSome ∧ m ∈ ready k then insert i (out k) else out k := by
  unfold selectBack Env.descriptor
  rw [fdBit_natCast hbit]
  cases e.getFile i with
  | none => rfl
  | some j =>
    by_cases hfile : (e.fds j).dfile.isSome
    · simp only [hfile, if_true]
    · cases hfd : fdBit (e.fds j).fd <;> simp [hfile, hfd]

def backLoop (e : Env) (given : SetKind → Option FdSet) (ready out : SetKind → FdSet) (n : ℕ) :
    Except SelectStop (SetKind → FdSet) :=
  (List.range n).foldlM (selectBack e given ready) out

theorem backLoop_succ : backLoop e given ready out (n + 1) =
    backLoop e given ready out n >>= fun out => selectBack e given ready out n := by
  simp [backLoop, List.range_succ]

theorem backLoop_of_addressable (hbit : ∀ i < n, (fdBit i).isSome)
    (h : ∀ i < n, ∀ fd, e.descriptor i = .system fd → (fdBit fd).isSome) :
    backLoop e given ready out n = .ok fun k => out k ∪ backAt e given ready n k := by
  induction n with
  | zero =>
    have hback : (fun k => out k ∪ backAt e given ready 0 k) = out := by
      simp [backAt]
    rw [hback]
    rfl
  | succ n ih =>
    rw [backLoop_succ, ih (fun i hi => hbit i (hi.trans n.lt_succ_self))
      fun i hi => h i (hi.trans n.lt_succ_self)]
    simp only [bind, Except.bind]
    rw [selectBack_eq (hbit n n.lt_succ_self)]
    have hn := h n n.lt_succ_self
    cases hdescr : e.descriptor n with
    | closed => simp [backAt_succ, hdescr, Descriptor.isSystem]
    | symbolic => simp [backAt_succ, hdescr, Descriptor.isSystem]
    | system fd =>
      obtain ⟨m, hm⟩ := Option.isSome_iff_exists.mp (hn fd hdescr)
      obtain rfl := fdBit_eq_some hm
      dsimp only
      rw [hm]
      split_ifs with hnull
      · refine congrArg Except.ok (funext fun k => ?_)
        have hk : given k = none := by
          cases k
          · exact hnull.1
          · exact hnull.2.1
          · exact hnull.2.2
        rw [backAt_succ, if_neg (by simp [hk])]
      · refine congrArg Except.ok (funext fun k => ?_)
        rw [backAt_succ, hdescr]
        simp only [Descriptor.isSystem, Descriptor.number, Int.toNat_natCast, true_and]
        split_ifs
        · exact (Finset.union_insert _ _ _).symm
        · rfl

/-- A number that the macros are not for is not passed over. -/
theorem backLoop_of_not_addressable (hgiven : ∃ k, given k ≠ none)
    (hbit : ∀ i < n, (fdBit i).isSome)
    (h : ∃ i < n, ∃ fd, e.descriptor i = .system fd ∧ fdBit fd = none) :
    backLoop e given ready out n = .error .undefined := by
  induction n with
  | zero =>
    obtain ⟨i, hi, -⟩ := h
    exact absurd hi (Nat.not_lt_zero i)
  | succ n ih =>
    have hbit' : ∀ i < n, (fdBit i).isSome := fun i hi => hbit i (hi.trans n.lt_succ_self)
    rw [backLoop_succ]
    by_cases hbefore : ∃ i < n, ∃ fd, e.descriptor i = .system fd ∧ fdBit fd = none
    · rw [ih hbit' hbefore]
      rfl
    · obtain ⟨i, hi, fd, hdescr, hfd⟩ := h
      obtain rfl : i = n := by
        by_contra hne
        exact hbefore ⟨i, by omega, fd, hdescr, hfd⟩
      rw [backLoop_of_addressable hbit' fun j hj fd' hdescr' => by
        by_contra hnone
        exact hbefore ⟨j, hj, fd', hdescr', Option.not_isSome_iff_eq_none.mp hnone⟩]
      simp only [bind, Except.bind]
      rw [selectBack_eq (hbit i i.lt_succ_self), hdescr]
      dsimp only
      rw [hfd, if_neg]
      rintro ⟨hread, hwrite, hexcept⟩
      obtain ⟨k, hk⟩ := hgiven
      cases k
      · exact hk hread
      · exact hk hwrite
      · exact hk hexcept

end SecondLoop

section Counts

theorem card_union_three (A B D : Finset ℕ) : (A ∪ B ∪ D).card ≤ A.card + B.card + D.card ∧
    ((A ∪ B ∪ D).card = A.card + B.card + D.card ↔ Disjoint A B ∧ Disjoint (A ∪ B) D) := by
  have hAB := Finset.card_union_add_card_inter A B
  have hABD := Finset.card_union_add_card_inter (A ∪ B) D
  rw [Finset.disjoint_iff_inter_eq_empty, Finset.disjoint_iff_inter_eq_empty,
    ← Finset.card_eq_zero, ← Finset.card_eq_zero]
  omega

variable {e : Env} {ins : SetKind → FdSet} {given : SetKind → Option FdSet}
  {ready : SetKind → FdSet} {n i : ℕ} {k : SetKind}

theorem mem_out : i ∈ (stateAt e ins n).out k ↔ i ∈ ins k ∧ i < n ∧ e.descriptor i = .symbolic :=
  Finset.mem_filter

theorem count_eq_card : (stateAt e ins n).count = ((stateAt e ins n).out .read ∪
    (stateAt e ins n).out .write ∪ (stateAt e ins n).out .except).card := by
  have hunion : ((Finset.range n).filter fun i =>
      Selected ins i ∧ e.descriptor i = .symbolic) = (stateAt e ins n).out .read ∪
        (stateAt e ins n).out .write ∪ (stateAt e ins n).out .except := by
    ext i
    simp only [Finset.mem_union, mem_out, Finset.mem_filter, Finset.mem_range]
    tauto
  exact congrArg Finset.card hunion

theorem count_le_total :
    (stateAt e ins n).count ≤ total fun k => ((stateAt e ins n).out k).card := by
  rw [count_eq_card]
  exact (card_union_three _ _ _).1

/-- The symbolic descriptors are counted right if each is in one set only. -/
theorem count_eq_total_iff :
    (stateAt e ins n).count = (total fun k => ((stateAt e ins n).out k).card) ↔
      ∀ i < n, e.descriptor i = .symbolic → ∀ k k', i ∈ ins k → i ∈ ins k' → k = k' := by
  rw [count_eq_card]
  refine (card_union_three _ _ _).2.trans ?_
  rw [Finset.disjoint_union_left]
  simp only [Finset.disjoint_left, mem_out]
  constructor
  · rintro ⟨hreadWrite, hreadExcept, hwriteExcept⟩ i hi hdescr k k' hk hk'
    cases k <;> cases k'
    case read.read | write.write | except.except => rfl
    case read.write => exact absurd ⟨hk', hi, hdescr⟩ (hreadWrite ⟨hk, hi, hdescr⟩)
    case read.except => exact absurd ⟨hk', hi, hdescr⟩ (hreadExcept ⟨hk, hi, hdescr⟩)
    case write.read => exact absurd ⟨hk, hi, hdescr⟩ (hreadWrite ⟨hk', hi, hdescr⟩)
    case write.except => exact absurd ⟨hk', hi, hdescr⟩ (hwriteExcept ⟨hk, hi, hdescr⟩)
    case except.read => exact absurd ⟨hk, hi, hdescr⟩ (hreadExcept ⟨hk', hi, hdescr⟩)
    case except.write => exact absurd ⟨hk, hi, hdescr⟩ (hwriteExcept ⟨hk', hi, hdescr⟩)
  · intro h
    refine ⟨fun i hi hi' => ?_, fun i hi hi' => ?_, fun i hi hi' => ?_⟩
    · cases h i hi.2.1 hi.2.2 _ _ hi.1 hi'.1
    · cases h i hi.2.1 hi.2.2 _ _ hi.1 hi'.1
    · cases h i hi.2.1 hi.2.2 _ _ hi.1 hi'.1

theorem mem_asked {m : ℕ} : m ∈ asked e ins n k ↔
    ∃ i ∈ ins k, i < n ∧ ∃ fd, e.descriptor i = .system fd ∧ fd.toNat = m := by
  unfold asked
  simp only [Finset.mem_image, Finset.mem_filter]
  constructor
  · rintro ⟨i, ⟨hk, hi, hsystem⟩, rfl⟩
    cases hdescr : e.descriptor i with
    | closed | symbolic => simp [hdescr, Descriptor.isSystem] at hsystem
    | system fd => exact ⟨i, hk, hi, fd, hdescr, rfl⟩
  · rintro ⟨i, hk, hi, fd, hdescr, rfl⟩
    exact ⟨i, ⟨hk, hi, by rw [hdescr]; rfl⟩, by rw [hdescr]; rfl⟩

theorem mem_backAt : i ∈ backAt e given ready n k ↔
    i < n ∧ (given k).isSome ∧ ∃ fd, e.descriptor i = .system fd ∧ fd.toNat ∈ ready k := by
  unfold backAt
  rw [Finset.mem_filter, Finset.mem_range]
  refine and_congr_right fun _ => and_congr_right fun _ => ?_
  cases e.descriptor i with
  | closed | symbolic => simp [Descriptor.isSystem]
  | system fd => simp [Descriptor.isSystem, Descriptor.number]

theorem isSome_given_of_mem (h : i ∈ selectIn given k) : (given k).isSome := by
  cases hk : given k with
  | none => simp [selectIn, hk] at h
  | some s => rfl

/-- What is reported are the numbers of the descriptors that are put back. -/
theorem image_backAt (hsub : ready k ⊆ asked e (selectIn given) n k) :
    (backAt e given ready n k).image (fun i => (e.descriptor i).number) = ready k := by
  ext m
  simp only [Finset.mem_image, mem_backAt]
  constructor
  · rintro ⟨i, ⟨-, -, fd, hdescr, hfd⟩, rfl⟩
    rw [hdescr]
    exact hfd
  · intro hm
    obtain ⟨i, hk, hi, fd, hdescr, rfl⟩ := mem_asked.mp (hsub hm)
    exact ⟨i, ⟨hi, isSome_given_of_mem hk, fd, hdescr, hm⟩, by rw [hdescr]; rfl⟩

theorem card_ready (hsub : ready k ⊆ asked e (selectIn given) n k) :
    (ready k).card ≤ (backAt e given ready n k).card ∧
      ((ready k).card = (backAt e given ready n k).card ↔
        Set.InjOn (fun i => (e.descriptor i).number) (backAt e given ready n k)) := by
  rw [← image_backAt hsub]
  exact ⟨Finset.card_image_le, Finset.card_image_iff⟩

theorem card_out_union_backAt : ((stateAt e ins n).out k ∪ backAt e given ready n k).card =
    ((stateAt e ins n).out k).card + (backAt e given ready n k).card := by
  refine Finset.card_union_of_disjoint (Finset.disjoint_left.mpr fun i hi hi' => ?_)
  obtain ⟨-, -, fd, hdescr, -⟩ := mem_backAt.mp hi'
  cases hdescr.symm.trans (mem_out.mp hi).2.2

end Counts

section Select

variable {e : Env} {given : SetKind → Option FdSet} {os : OsSelect} {ready : SetKind → FdSet}
  {n i r : ℕ}

theorem exists_given_of_asked (h : 0 < askedNfds e (selectIn given) n) :
    ∃ k, given k ≠ none := by
  obtain ⟨i, hi, -⟩ := Finset.lt_sup_iff.mp h
  obtain ⟨-, hsel, -⟩ := Finset.mem_filter.mp hi
  rcases hsel with hk | hk | hk
  · exact ⟨_, Option.isSome_iff_ne_none.mp (isSome_given_of_mem hk)⟩
  · exact ⟨_, Option.isSome_iff_ne_none.mp (isSome_given_of_mem hk)⟩
  · exact ⟨_, Option.isSome_iff_ne_none.mp (isSome_given_of_mem hk)⟩

/-- Without a report, all depends on the symbolic descriptors. -/
theorem right_unreported (hreport : report e (selectIn given) n os = none) :
    SelectRight e (selectIn given) n os
        (.ok ((stateAt e (selectIn given) n).count, (stateAt e (selectIn given) n).out)) ↔
      ∀ i < n, e.descriptor i = .symbolic →
        ∀ k k', i ∈ selectIn given k → i ∈ selectIn given k' → k = k' := by
  have hnone (k : SetKind) : reported e (selectIn given) n os k = ∅ := by
    rw [reported, hreport]
  rw [← count_eq_total_iff]
  refine and_iff_right fun k i => ?_
  rw [mem_out, hnone]
  simp

/-- The same number for two descriptors -/
theorem eq_of_toNat_eq {fd fd' : Int} (h : (fdBit fd).isSome) (h' : (fdBit fd').isSome)
    (heq : fd.toNat = fd'.toNat) : fd = fd' := by
  obtain ⟨m, hm⟩ := Option.isSome_iff_exists.mp h
  obtain ⟨m', hm'⟩ := Option.isSome_iff_exists.mp h'
  rw [fdBit_eq_some hm, fdBit_eq_some hm'] at heq ⊢
  exact congrArg _ heq

/-- With a report, the numbers that are reported must be those of one descriptor each. -/
theorem right_reported (hreport : report e (selectIn given) n os = some (r, ready))
    (hsub : ∀ k, ready k ⊆ asked e (selectIn given) n k)
    (hr : r = total fun k => (ready k).card)
    (hall : ∀ i < n, ∀ fd, e.descriptor i = .system fd → (fdBit fd).isSome) :
    SelectRight e (selectIn given) n os
        (.ok ((stateAt e (selectIn given) n).count + r, fun k =>
          (stateAt e (selectIn given) n).out k ∪ backAt e given ready n k)) ↔
      (∀ i < n, e.descriptor i = .symbolic →
        ∀ k k', i ∈ selectIn given k → i ∈ selectIn given k' → k = k') ∧
      ∀ i < n, ∀ j < n, ∀ fd, e.descriptor i = .system fd → e.descriptor j = .system fd →
        (∃ k, fd.toNat ∈ ready k) → i = j := by
  have hreported (k : SetKind) : reported e (selectIn given) n os k = ready k := by
    rw [reported, hreport]
  have hle : (stateAt e (selectIn given) n).count ≤ total _ := count_le_total
  have hread := card_ready (hsub .read)
  have hwrite := card_ready (hsub .write)
  have hexcept := card_ready (hsub .except)
  rw [← count_eq_total_iff]
  simp only [SelectRight, hreported, card_out_union_backAt, total] at hle hr ⊢
  constructor
  · rintro ⟨-, hcount⟩
    refine ⟨by omega, fun i hi j hj fd hdi hdj hk => ?_⟩
    obtain ⟨k, hk⟩ := hk
    have hinj : Set.InjOn (fun i => (e.descriptor i).number) (backAt e given ready n k) := by
      cases k
      · exact hread.2.mp (by omega)
      · exact hwrite.2.mp (by omega)
      · exact hexcept.2.mp (by omega)
    obtain ⟨j', hj', -⟩ := mem_asked.mp (hsub k hk)
    have hgiven := isSome_given_of_mem hj'
    refine hinj (mem_backAt.mpr ⟨hi, hgiven, fd, hdi, hk⟩)
      (mem_backAt.mpr ⟨hj, hgiven, fd, hdj, hk⟩) ?_
    dsimp only
    rw [hdi, hdj]
  · rintro ⟨hsymbolic, hshared⟩
    have hinj (k : SetKind) :
        Set.InjOn (fun i => (e.descriptor i).number) (backAt e given ready n k) := by
      intro i hi j hj heq
      obtain ⟨hi, -, fd, hdi, hk⟩ := mem_backAt.mp hi
      obtain ⟨hj, -, fd', hdj, -⟩ := mem_backAt.mp hj
      dsimp only at heq
      rw [hdi, hdj] at heq
      obtain rfl := eq_of_toNat_eq (hall i hi fd hdi) (hall j hj fd' hdj) heq
      exact hshared i hi j hj fd hdi hdj ⟨k, hk⟩
    refine ⟨fun k i => ?_, ?_⟩
    · rw [Finset.mem_union, mem_out, mem_backAt]
      constructor
      · rintro (⟨hk, hi, hdescr⟩ | ⟨hi, -, fd, hdescr, hk⟩)
        · exact ⟨hk, hi, .inl hdescr⟩
        · obtain ⟨j, hj, hjn, fd', hdescr', heq⟩ := mem_asked.mp (hsub k hk)
          obtain rfl := eq_of_toNat_eq (hall j hjn fd' hdescr') (hall i hi fd hdescr) heq
          obtain rfl := hshared i hi j hjn fd' hdescr hdescr' ⟨k, hk⟩
          exact ⟨hj, hi, .inr ⟨fd', hdescr, hk⟩⟩
      · rintro ⟨hk, hi, hdescr | ⟨fd, hdescr, hfd⟩⟩
        · exact .inl ⟨hk, hi, hdescr⟩
        · exact .inr ⟨hi, isSome_given_of_mem hk, fd, hdescr, hfd⟩
    · have := hread.2.mpr (hinj .read)
      have := hwrite.2.mpr (hinj .write)
      have := hexcept.2.mpr (hinj .except)
      omega

theorem select_eq (nfds : Int) : select e given nfds os =
    selectLoop e (selectIn given) nfds.toNat >>= fun s =>
      if 0 < s.osNfds then
        match os s.osNfds s.os with
        | none => if s.count = 0 then .error .system else .ok (s.count, s.out)
        | some (r, ready) => backLoop e given ready s.out nfds.toNat >>= fun out =>
          .ok (s.count + r, out)
      else .ok (s.count, s.out) := rfl

/-- Every selected descriptor is symbolic or known to the operating system, and asked for. -/
theorem select_of_passes (nfds : Int) (h : ∀ i < nfds.toNat, Passes e (selectIn given) i) :
    select e given nfds os =
      match report e (selectIn given) nfds.toNat os with
      | none =>
        if 0 < askedNfds e (selectIn given) nfds.toNat ∧
            (stateAt e (selectIn given) nfds.toNat).count = 0 then .error .system
        else .ok ((stateAt e (selectIn given) nfds.toNat).count,
          (stateAt e (selectIn given) nfds.toNat).out)
      | some (r, ready) =>
        backLoop e given ready (stateAt e (selectIn given) nfds.toNat).out nfds.toNat >>= fun out =>
          .ok ((stateAt e (selectIn given) nfds.toNat).count + r, out) := by
  rw [select_eq, selectLoop_of_passes h]
  simp only [bind, Except.bind]
  have hnfds : 0 < (stateAt e (selectIn given) nfds.toNat).osNfds ↔
      0 < askedNfds e (selectIn given) nfds.toNat := Int.ofNat_lt
  unfold report
  by_cases hasked : 0 < askedNfds e (selectIn given) nfds.toNat
  · rw [if_pos hasked, if_pos (hnfds.mpr hasked)]
    simp only [hasked, true_and]
    rfl
  · rw [if_neg hasked, if_neg (fun h => hasked (hnfds.mp h))]
    simp only [hasked, false_and, if_false]

theorem SelectFine.passes {ins : SetKind → FdSet} (h : SelectFine e ins n os) : ∀ i < n, Passes e ins i :=
  fun i hi => ⟨forall_isSome_fdBit_iff.mpr h.nfds i hi, h.selected i hi⟩

theorem not_refused {ins : SetKind → FdSet} (h : ∀ i < n, Passes e ins i) : ¬ Refused e ins n := by
  rintro ⟨i, hi, -, -, hsel, hclosed⟩
  have haddress := (h i hi).2 hsel
  rw [hclosed] at haddress
  exact haddress

/-- Where the loop stops, it is right to stop only for a closed descriptor. -/
theorem right_stopAt_iff {ins : SetKind → FdSet} (hi : i < n) (hbefore : ∀ j < i, Passes e ins j)
    (h : ¬ Passes e ins i) :
    SelectRight e ins n os (.error (stopAt e ins i)) ↔ Refused e ins n := by
  unfold stopAt
  split_ifs with hclosed
  · exact iff_of_true trivial ⟨i, hi, hbefore, hclosed⟩
  · refine iff_of_false id ?_
    rintro ⟨j, -, hbefore', hbit, hsel, hdescr⟩
    rcases Nat.lt_trichotomy i j with hij | rfl | hji
    · exact h (hbefore' i hij)
    · exact hclosed ⟨hbit, hsel, hdescr⟩
    · have haddress := (hbefore j hji).2 hsel
      rw [hdescr] at haddress
      exact haddress

theorem symbolic_of_count_eq_zero {ins : SetKind → FdSet} (h : (stateAt e ins n).count = 0) :
    ∀ i < n, e.descriptor i = .symbolic → ∀ k k', i ∈ ins k → i ∈ ins k' → k = k' := by
  rw [← count_eq_total_iff, h]
  have hcard := count_eq_card.symm.trans h
  have hempty := Finset.card_eq_zero.mp hcard
  simp only [Finset.union_eq_empty] at hempty
  simp [total, hempty]

theorem noBytes_lt : ([] : List (BitVec 8)).length < 2 ^ 32 := by decide

def symbolicStdin : Env :=
  InitArgs.init ⟨0, true, false, false, 0, 0, 0, 0, fun _ => ⟨[], noBytes_lt, 0, 0⟩⟩

def nothingReady : OsSelect := fun _ _ => some (0, fun _ => ∅)

theorem reports_nothingReady : nothingReady.Reports where
  subset n sets r ready h k := by
    cases h
    exact Finset.empty_subset _
  count n sets r ready h := by
    cases h
    rfl

def stdinTwice (k : SetKind) : Option FdSet := if k = .except then none else some {0}

/-- A symbolic descriptor in two sets is counted once. -/
theorem not_selectRight_twoSets : ¬ SelectRight symbolicStdin (selectIn stdinTwice) 1 nothingReady
    (select symbolicStdin stdinTwice 1 nothingReady) := by
  intro h
  have hselect : ∃ out, select symbolicStdin stdinTwice 1 nothingReady = .ok (1, out) ∧
      (total fun k => (out k).card) = 2 := ⟨_, rfl, by decide⟩
  obtain ⟨out, hselect, htotal⟩ := hselect
  rw [hselect] at h
  cases h.2.trans htotal

/-- `select` is right where it gives up for a closed descriptor, and where each bit of its result is
one of its count. -/
theorem select_right_iff (hos : os.Reports) (nfds : Int) :
    SelectRight e (selectIn given) nfds.toNat os (select e given nfds os) ↔
      Refused e (selectIn given) nfds.toNat ∨ SelectFine e (selectIn given) nfds.toNat os := by
  by_cases hpass : ∀ i < nfds.toNat, Passes e (selectIn given) i
  · have hn := forall_isSome_fdBit_iff.mp fun i hi => (hpass i hi).1
    have hselected := fun i hi => (hpass i hi).2
    rw [or_iff_right (not_refused hpass), select_of_passes nfds hpass]
    cases hreport : report e (selectIn given) nfds.toNat os with
    | none =>
      have hsystem (r : ℕ) (ready : SetKind → FdSet)
          (h : report e (selectIn given) nfds.toNat os = some (r, ready)) : False := by
        cases hreport.symm.trans h
      dsimp only
      split_ifs with hfailed
      · refine iff_of_true trivial ⟨hn, hselected, symbolic_of_count_eq_zero hfailed.2, ?_⟩
        exact fun r ready h => (hsystem r ready h).elim
      · rw [right_unreported hreport]
        exact ⟨fun h => ⟨hn, hselected, h, fun r ready h => (hsystem r ready h).elim⟩,
          fun h => h.symbolic⟩
    | some p =>
      obtain ⟨r, ready⟩ := p
      have hasked : 0 < askedNfds e (selectIn given) nfds.toNat := by
        by_contra hzero
        rw [report, if_neg hzero] at hreport
        cases hreport
      have hanswer := hreport
      rw [report, if_pos hasked] at hanswer
      dsimp only
      by_cases hall : ∀ i < nfds.toNat, ∀ fd, e.descriptor i = .system fd → (fdBit fd).isSome
      · rw [backLoop_of_addressable (fun i hi => (hpass i hi).1) hall]
        refine (right_reported hreport (hos.subset _ _ _ _ hanswer) (hos.count _ _ _ _ hanswer)
          hall).trans ?_
        constructor
        · rintro ⟨hsymbolic, hshared⟩
          refine ⟨hn, hselected, hsymbolic, fun r' ready' h => ?_⟩
          cases hreport.symm.trans h
          exact ⟨hall, hshared⟩
        · exact fun h => ⟨h.symbolic, (h.system r ready hreport).2⟩
      · rw [backLoop_of_not_addressable (exists_given_of_asked hasked) fun i hi => (hpass i hi).1]
        · exact iff_of_false id fun h => hall (h.system r ready hreport).1
        · push Not at hall
          obtain ⟨i, hi, fd, hdescr, hfd⟩ := hall
          exact ⟨i, hi, fd, hdescr, Option.not_isSome_iff_eq_none.mp hfd⟩
  · classical
    have hstop : ∃ i, i < nfds.toNat ∧ ¬ Passes e (selectIn given) i := by
      push Not at hpass
      exact hpass
    obtain ⟨hi, hnot⟩ := Nat.find_spec hstop
    have hbefore (j : ℕ) (hj : j < Nat.find hstop) : Passes e (selectIn given) j := by
      by_contra hj'
      exact Nat.find_min hstop hj ⟨hj.trans hi, hj'⟩
    rw [or_iff_left fun h => hnot (h.passes _ hi), select_eq,
      selectLoop_of_not_passes hi hbefore hnot]
    exact right_stopAt_iff hi hbefore hnot

def stdinAndStdout (k : SetKind) : Option FdSet :=
  if k = .read then some {0} else if k = .write then some {1} else none

theorem select_right_iff_twoFds :
    SelectRight symbolicStdin (selectIn stdinAndStdout) 2 nothingReady
      (select symbolicStdin stdinAndStdout 2 nothingReady) := by
  have hstdin : symbolicStdin.descriptor 0 = .symbolic := by decide
  have hstdout : symbolicStdin.descriptor 1 = .system 1 := by decide
  have hfd : (fdBit 1).isSome := by decide
  refine (select_right_iff reports_nothingReady 2).mpr (.inr ⟨by decide, ?_, ?_, ?_⟩)
  · intro i (hi : i < 2) _
    interval_cases i
    · rw [hstdin]
      trivial
    · rw [hstdout]
      exact hfd
  · intro i (hi : i < 2) hdescr k k' hk hk'
    interval_cases i
    · cases k <;> cases k' <;> simp [selectIn, stdinAndStdout] at hk hk' ⊢
    · cases hstdout.symm.trans hdescr
  · intro r ready hreport
    unfold report nothingReady at hreport
    split_ifs at hreport
    cases hreport
    refine ⟨fun i (hi : i < 2) fd hdescr => ?_, fun i _ j _ fd _ _ hk => ?_⟩
    · interval_cases i
      · cases hstdin.symm.trans hdescr
      · cases hstdout.symm.trans hdescr
        exact hfd
    · obtain ⟨k, hk⟩ := hk
      exact absurd hk (Finset.notMem_empty _)

end Select

end Klee.Posix
