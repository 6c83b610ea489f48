import Mathlib.Tactic

/-! `TreeStreamWriter`: byte streams that fork. All streams share one file of records, and
reading a stream follows the records of its ancestors up to the points where it was opened. -/
namespace Klee

/-- A record of the file: the two words of its header, and the data of a record that is not
a fork. -/
structure TreeStreamRecord where
  id : BitVec 32
  tag : BitVec 32
  data : List UInt8
deriving DecidableEq

namespace TreeStreamRecord

/-- `1<<31` -/
def forkBit : BitVec 32 := 1#32 <<< 31

def isFork (r : TreeStreamRecord) : Bool := r.tag &&& forkBit != 0
def child (r : TreeStreamRecord) : BitVec 32 := r.tag ^^^ forkBit

/-- The record that `open` writes. -/
def fork (parent child : BitVec 32) : TreeStreamRecord := ⟨parent, child ||| forkBit, []⟩

def bytes (id : BitVec 32) (s : List UInt8) : TreeStreamRecord := ⟨id, BitVec.ofNat 32 s.length, s⟩

end TreeStreamRecord

/-- `output` is the file; the buffer holds bytes of the stream `lastID`. -/
structure TreeStreamWriter where
  lastID : BitVec 32
  buffer : List UInt8
  output : List TreeStreamRecord
  ids : BitVec 32

namespace TreeStreamWriter

def bufferSize : Nat := 4 * 4096

/-- `TreeStreamWriter(path)` -/
def empty : TreeStreamWriter := ⟨0, [], [], 1⟩

def flushBuffer (w : TreeStreamWriter) : TreeStreamWriter :=
  if w.buffer = [] then w
  else { w with output := w.output ++ [.bytes w.lastID w.buffer], buffer := [] }

/-- `open(os)`, with the identifier of the new stream. -/
def openFrom (w : TreeStreamWriter) (os : BitVec 32) : TreeStreamWriter × BitVec 32 :=
  let w := w.flushBuffer
  ({ w with output := w.output ++ [.fork os w.ids], ids := w.ids + 1 }, w.ids)

def write (w : TreeStreamWriter) (os : BitVec 32) (s : List UInt8) : TreeStreamWriter :=
  let w := if w.buffer ≠ [] ∧ (os ≠ w.lastID ∨ s.length + w.buffer.length > bufferSize)
    then w.flushBuffer else w
  if w.buffer ≠ [] then { w with buffer := w.buffer ++ s }
  else if s.length < bufferSize then { w with lastID := os, buffer := s }
  else { w with output := w.output ++ [.bytes os s] }

/-- The loop that climbs from `id` to a root; the bound is the number of known parents. -/
def climb (parents : List (BitVec 32 × BitVec 32)) : Nat → BitVec 32 → Option (List (BitVec 32))
  | 0, id => if id = 0 then some [] else none
  | n + 1, id =>
    if id = 0 then some []
    else match parents.lookup id with
      | none => none
      | some parent => (climb parents n parent).map (id :: ·)

/-- The first pass of `readStream`: the stream and its ancestors, from the stream upwards.
The stream has to be found before the file ends. -/
def findRoots (streamID : BitVec 32) (parents : List (BitVec 32 × BitVec 32)) :
    List TreeStreamRecord → Option (List (BitVec 32))
  | [] => none
  | r :: rest =>
    if r.isFork then
      if r.child = streamID then (climb parents parents.length r.id).map (streamID :: ·)
      else findRoots streamID (parents ++ [(r.child, r.id)]) rest
    else findRoots streamID parents rest

/-- The second pass: the bytes of the current root, which is the last one of the list. -/
def collect : List (BitVec 32) → List TreeStreamRecord → List UInt8
  | _, [] => []
  | roots, r :: rest =>
    if r.isFork then
      if some r.id = roots.getLast? ∧ roots.length > 1 ∧ some r.child = roots.dropLast.getLast? then
        collect roots.dropLast rest
      else collect roots rest
    else if some r.id = roots.getLast? then r.data ++ collect roots rest
    else collect roots rest

def readStream (w : TreeStreamWriter) (streamID : BitVec 32) : Option (List UInt8) :=
  let file := w.flushBuffer.output
  (findRoots streamID [] file).map fun roots => collect roots file

end TreeStreamWriter

namespace TreeStreamRecord

variable {parent child id : BitVec 32} {s : List UInt8}

theorem forkBit_getLsbD (i : Nat) : forkBit.getLsbD i = decide (i = 31) := by
  have hbit : forkBit = BitVec.twoPow 32 31 := by decide
  rw [hbit, BitVec.getLsbD_twoPow]
  by_cases h : i = 31
  · simp [h]
  · simp [Ne.symm h, h]

@[simp] theorem isFork_fork : (fork parent child).isFork = true := by
  have h : (child ||| forkBit) &&& forkBit = forkBit := by
    refine BitVec.eq_of_getLsbD_eq fun i hi => ?_
    rw [BitVec.getLsbD_and, BitVec.getLsbD_or]
    cases forkBit.getLsbD i <;> simp
  rw [isFork, fork, h]
  decide

theorem child_fork (h : child.toNat < 2 ^ 31) : (fork parent child).child = child := by
  refine BitVec.eq_of_getLsbD_eq fun i hi => ?_
  rw [TreeStreamRecord.child, fork, BitVec.getLsbD_xor, BitVec.getLsbD_or, forkBit_getLsbD]
  by_cases hi' : i = 31
  · subst hi'
    simp [BitVec.getLsbD, Nat.testBit_lt_two_pow h]
  · simp [hi']

theorem isFork_bytes (h : s.length < 2 ^ 31) : (bytes id s).isFork = false := by
  have hzero : BitVec.ofNat 32 s.length &&& forkBit = 0 := by
    refine BitVec.eq_of_getLsbD_eq fun i hi => ?_
    rw [BitVec.getLsbD_and, forkBit_getLsbD]
    by_cases hi' : i = 31
    · subst hi'
      rw [BitVec.getLsbD_ofNat, Nat.testBit_lt_two_pow h]
      simp
    · simp [hi']
  rw [isFork, bytes, hzero]
  rfl

end TreeStreamRecord

namespace TreeStreamWriter

section File

/-- The bytes of every stream after the records; a fork copies the bytes of its parent. -/
def contents (rs : List TreeStreamRecord) : BitVec 32 → List UInt8 :=
  rs.foldl (fun m r =>
    if r.isFork then Function.update m r.child (m r.id)
    else Function.update m r.id (m r.id ++ r.data)) fun _ => []

def forks (rs : List TreeStreamRecord) : List (BitVec 32 × BitVec 32) :=
  (rs.filter (·.isFork)).map fun r => (r.child, r.id)

def opened (rs : List TreeStreamRecord) : List (BitVec 32) := (forks rs).map (·.1)

/-- Streams are opened once, from a stream that is open or from none, and then written. -/
inductive WellFormed : List TreeStreamRecord → Prop
  | nil : WellFormed []
  | fork {rs : List TreeStreamRecord} {p c : BitVec 32} : WellFormed rs →
      (p = 0 ∨ p ∈ opened rs) → c ∉ opened rs → c ≠ 0 → c.toNat < 2 ^ 31 → WellFormed (rs ++ [.fork p c])
  | bytes {rs : List TreeStreamRecord} {id : BitVec 32} {s : List UInt8} : WellFormed rs →
      id ∈ opened rs → s.length < 2 ^ 31 → WellFormed (rs ++ [.bytes id s])

variable {rs rs' : List TreeStreamRecord} {id c p : BitVec 32} {roots : List (BitVec 32)}

theorem forks_append : forks (rs ++ rs') = forks rs ++ forks rs' := by simp [forks]

theorem opened_append : opened (rs ++ rs') = opened rs ++ opened rs' := by
  simp [opened, forks_append]

theorem forks_fork (hc : c.toNat < 2 ^ 31) : forks [.fork p c] = [(c, p)] := by
  rw [forks, List.filter_cons_of_pos TreeStreamRecord.isFork_fork, List.filter_nil, List.map_cons,
    TreeStreamRecord.child_fork hc]
  rfl

theorem forks_bytes {s : List UInt8} (hs : s.length < 2 ^ 31) : forks [.bytes id s] = [] := by
  simp [forks, TreeStreamRecord.isFork_bytes hs]

theorem contents_fork (hc : c.toNat < 2 ^ 31) : contents (rs ++ [.fork p c]) =
    Function.update (contents rs) c (contents rs p) := by
  rw [contents, List.foldl_append, ← contents, List.foldl_cons, List.foldl_nil,
    TreeStreamRecord.isFork_fork, if_pos rfl, TreeStreamRecord.child_fork hc]
  rfl

theorem contents_bytes {s : List UInt8} (hs : s.length < 2 ^ 31) :
    contents (rs ++ [.bytes id s]) = Function.update (contents rs) id (contents rs id ++ s) := by
  rw [contents, List.foldl_append, ← contents, List.foldl_cons, List.foldl_nil,
    TreeStreamRecord.isFork_bytes hs]
  rfl

/-- Nothing is in a stream that is not open. -/
theorem WellFormed.contents_eq_nil (h : WellFormed rs) (hid : id ∉ opened rs) :
    contents rs id = [] := by
  induction h with
  | nil => rfl
  | @fork rs p c h hp hc h0 hlt ih =>
    rw [opened_append, opened, opened, forks_fork hlt] at hid
    simp only [List.map_cons, List.map_nil, List.mem_append, List.mem_singleton, not_or] at hid
    rw [contents_fork hlt, Function.update_of_ne hid.2]
    exact ih hid.1
  | @bytes rs id' s h hid' hs ih =>
    rw [opened_append, opened, opened, forks_bytes hs, List.map_nil, List.append_nil] at hid
    have hne : id ≠ id' := by
      intro heq
      exact hid (heq ▸ hid')
    rw [contents_bytes hs, Function.update_of_ne hne]
    exact ih hid

/-- The first pass stops at the fork of the stream. -/
theorem findRoots_append (parents : List (BitVec 32 × BitVec 32)) :
    findRoots id parents (rs ++ rs') = if id ∈ opened rs then findRoots id parents rs
      else findRoots id (parents ++ forks rs) rs' := by
  induction rs generalizing parents with
  | nil => simp [forks, opened]
  | cons r rs ih =>
    rw [List.cons_append, findRoots, findRoots]
    by_cases hr : r.isFork = true
    · have hforks : forks (r :: rs) = (r.child, r.id) :: forks rs := by simp [forks, hr]
      rw [if_pos hr, if_pos hr]
      by_cases hc : r.child = id
      · simp [hc, opened, hforks]
      · rw [if_neg hc, if_neg hc, ih, hforks]
        simp [opened, hforks, Ne.symm hc]
    · have hforks : forks (r :: rs) = forks rs := by simp [forks, hr]
      rw [if_neg hr, if_neg hr, ih, hforks]
      simp [opened, hforks]

/-- Climbing only needs the parents that it meets. -/
theorem climb_append {parents more : List (BitVec 32 × BitVec 32)} {n : Nat}
    (h : climb parents n id = some roots) (k : Nat) :
    climb (parents ++ more) (n + k) id = some roots := by
  induction n generalizing id roots with
  | zero =>
    rw [climb] at h
    split at h
    case isTrue hid =>
      rw [Nat.zero_add]
      cases k with
      | zero => rw [climb, if_pos hid, h]
      | succ k => rw [climb, if_pos hid, h]
    case isFalse => cases h
  | succ n ih =>
    rw [climb] at h
    rw [Nat.succ_add, climb]
    split at h
    case isTrue hid => rw [if_pos hid, h]
    case isFalse hid =>
      rw [if_neg hid]
      cases hp : parents.lookup id with
      | none => rw [hp] at h; cases h
      | some parent =>
        rw [hp] at h
        obtain ⟨up, hup, rfl⟩ := Option.map_eq_some_iff.mp h
        have hlookup : (parents ++ more).lookup id = some parent := by
          rw [List.lookup_append, hp]
          rfl
        rw [hlookup]
        simp only [ih hup, Option.map_some]

def scan : List (BitVec 32) → List TreeStreamRecord → List (BitVec 32)
  | roots, [] => roots
  | roots, r :: rest =>
    if r.isFork ∧ some r.id = roots.getLast? ∧ roots.length > 1 ∧
        some r.child = roots.dropLast.getLast? then scan roots.dropLast rest
    else scan roots rest

theorem collect_append (roots : List (BitVec 32)) :
    collect roots (rs ++ rs') = collect roots rs ++ collect (scan roots rs) rs' := by
  induction rs generalizing roots with
  | nil => rfl
  | cons r rs ih =>
    rw [List.cons_append, collect, collect, scan]
    by_cases hr : r.isFork = true
    · simp only [hr, if_true, true_and]
      split
      · exact ih _
      · exact ih _
    · simp only [hr, if_false, false_and, Bool.false_eq_true]
      split
      · rw [ih, List.append_assoc]
      · exact ih _

theorem scan_append (roots : List (BitVec 32)) :
    scan roots (rs ++ rs') = scan (scan roots rs) rs' := by
  induction rs generalizing roots with
  | nil => rfl
  | cons r rs ih =>
    rw [List.cons_append, scan, scan]
    split
    · exact ih _
    · exact ih _

/-- A stream below the roots that is not open yet is not reached. -/
theorem collect_cons (hc : c ∉ opened rs) (hroots : roots ≠ []) :
    collect (c :: roots) rs = collect roots rs ∧ scan (c :: roots) rs = c :: scan roots rs := by
  induction rs generalizing roots with
  | nil => exact ⟨rfl, rfl⟩
  | cons r rs ih =>
    have hlast : (c :: roots).getLast? = roots.getLast? := by
      rw [List.getLast?_cons_of_ne_nil hroots]
    have hdrop : (c :: roots).dropLast = c :: roots.dropLast := List.dropLast_cons_of_ne_nil hroots
    by_cases hr : r.isFork = true
    · have hforks : forks (r :: rs) = (r.child, r.id) :: forks rs := by simp [forks, hr]
      rw [opened, hforks, List.map_cons, List.mem_cons, not_or] at hc
      by_cases hpop : some r.id = roots.getLast? ∧ roots.length > 1 ∧
          some r.child = roots.dropLast.getLast?
      · have hne : roots.dropLast ≠ [] := by
          intro h
          have := congrArg List.length h
          simp only [List.length_dropLast, List.length_nil] at this
          omega
        have hpop' : some r.id = (c :: roots).getLast? ∧ (c :: roots).length > 1 ∧
            some r.child = (c :: roots).dropLast.getLast? := by
          rw [hlast, hdrop, List.getLast?_cons_of_ne_nil hne]
          exact ⟨hpop.1, by simp; omega, hpop.2.2⟩
        rw [collect, collect, scan, scan, if_pos hr, if_pos hr, if_pos hpop, if_pos hpop',
          if_pos ⟨hr, hpop'⟩, if_pos ⟨hr, hpop⟩, hdrop]
        exact ih hc.2 hne
      · have hpop' : ¬ (some r.id = (c :: roots).getLast? ∧ (c :: roots).length > 1 ∧
            some r.child = (c :: roots).dropLast.getLast?) := by
          rw [hlast, hdrop]
          rintro ⟨hid, -, hchild⟩
          by_cases hne : roots.dropLast = []
          · rw [hne] at hchild
            exact hc.1 (Option.some.inj hchild).symm
          · rw [List.getLast?_cons_of_ne_nil hne] at hchild
            refine hpop ⟨hid, ?_, hchild⟩
            have := List.length_pos_iff.mpr hne
            rw [List.length_dropLast] at this
            omega
        rw [collect, collect, scan, scan, if_pos hr, if_pos hr, if_neg hpop, if_neg hpop',
          if_neg fun h => hpop' h.2, if_neg fun h => hpop h.2]
        exact ih hc.2 hroots
    · have hforks : forks (r :: rs) = forks rs := by simp [forks, hr]
      rw [opened, hforks] at hc
      obtain ⟨hcollect, hscan⟩ := ih hc hroots
      rw [collect, collect, scan, scan, if_neg hr, if_neg hr, hlast, hcollect]
      simp only [hr, false_and, if_false, Bool.false_eq_true]
      exact ⟨trivial, hscan⟩

theorem lookup_forks_eq_none (h : id ∉ opened rs) : (forks rs).lookup id = none := by
  rw [List.lookup_eq_none_iff]
  intro p hp
  have hne : id ≠ p.1 := by
    intro heq
    exact h (List.mem_map.mpr ⟨p, hp, heq.symm⟩)
  exact bne_iff_ne.mpr hne

structure Readable (rs : List TreeStreamRecord) (id : BitVec 32) (roots : List (BitVec 32)) :
    Prop where
  ne_zero : id ≠ 0
  find : findRoots id [] rs = some roots
  climb : climb (forks rs) (forks rs).length id = some roots
  nonempty : roots ≠ []
  scan : scan roots rs = [id]
  collect : collect roots rs = contents rs id

theorem Readable.bytes {s : List UInt8} {id' : BitVec 32} (h : Readable rs id roots)
    (hid : id ∈ opened rs) (hs : s.length < 2 ^ 31) :
    Readable (rs ++ [.bytes id' s]) id roots where
  ne_zero := h.ne_zero
  find := by rw [findRoots_append, if_pos hid, h.find]
  climb := by rw [forks_append, forks_bytes hs, List.append_nil, h.climb]
  nonempty := h.nonempty
  scan := by
    rw [scan_append, h.scan, TreeStreamWriter.scan, if_neg, TreeStreamWriter.scan]
    rintro ⟨hfork, -⟩
    rw [TreeStreamRecord.isFork_bytes hs] at hfork
    cases hfork
  collect := by
    rw [collect_append, h.scan, h.collect, contents_bytes hs, TreeStreamWriter.collect,
      TreeStreamWriter.collect, TreeStreamRecord.isFork_bytes hs]
    by_cases heq : id = id'
    · subst heq
      simp [TreeStreamRecord.bytes, TreeStreamWriter.collect]
    · rw [Function.update_of_ne heq]
      simp [TreeStreamRecord.bytes, TreeStreamWriter.collect, Ne.symm heq]

theorem Readable.fork (h : Readable rs id roots) (hid : id ∈ opened rs) (hc : c ∉ opened rs)
    (hlt : c.toNat < 2 ^ 31) : Readable (rs ++ [.fork p c]) id roots where
  ne_zero := h.ne_zero
  find := by rw [findRoots_append, if_pos hid, h.find]
  climb := by
    rw [forks_append, forks_fork hlt, List.length_append]
    exact climb_append h.climb _
  nonempty := h.nonempty
  scan := by
    rw [scan_append, h.scan, TreeStreamWriter.scan, if_neg (by simp), TreeStreamWriter.scan]
  collect := by
    have hne : id ≠ c := by
      intro heq
      exact hc (heq ▸ hid)
    rw [collect_append, h.scan, h.collect, contents_fork hlt, Function.update_of_ne hne]
    simp [TreeStreamWriter.collect]

/-- A new stream starts with the bytes of the one that it is opened from. -/
theorem Readable.open (h : Readable rs p roots) (hc : c ∉ opened rs) (h0 : c ≠ 0)
    (hlt : c.toNat < 2 ^ 31) : Readable (rs ++ [.fork p c]) c (c :: roots) where
  ne_zero := h0
  find := by
    rw [findRoots_append, if_neg hc, List.nil_append, findRoots, TreeStreamRecord.isFork_fork,
      if_pos rfl, TreeStreamRecord.child_fork hlt, if_pos rfl]
    exact congrArg (Option.map (c :: ·)) h.climb
  climb := by
    have hlookup : (forks rs ++ [(c, p)]).lookup c = some p := by
      rw [List.lookup_append, lookup_forks_eq_none hc]
      simp
    rw [forks_append, forks_fork hlt, List.length_append, List.length_singleton,
      TreeStreamWriter.climb, if_neg h0, hlookup]
    exact congrArg (Option.map (c :: ·)) (climb_append h.climb 0)
  nonempty := List.cons_ne_nil _ _
  scan := by
    have hpop : some c = ([c, p].dropLast).getLast? := rfl
    rw [scan_append, (collect_cons hc h.nonempty).2, h.scan, TreeStreamWriter.scan,
      TreeStreamRecord.child_fork hlt, if_pos ⟨TreeStreamRecord.isFork_fork, rfl, by simp, hpop⟩]
    rfl
  collect := by
    rw [collect_append, (collect_cons hc h.nonempty).1, (collect_cons hc h.nonempty).2, h.scan,
      h.collect, contents_fork hlt, Function.update_self]
    simp [TreeStreamWriter.collect]

theorem scan_singleton : scan [id] rs = [id] := by
  induction rs with
  | nil => rfl
  | cons r rs ih => rw [scan, if_neg (by simp), ih]

/-- Nothing is read for a stream that is not open yet. -/
theorem WellFormed.collect_eq_nil (h : WellFormed rs) (hc : c ∉ opened rs) :
    collect [c] rs = [] := by
  induction h with
  | nil => rfl
  | @fork rs p c' h hp hc' h0 hlt ih =>
    rw [opened_append, List.mem_append, not_or] at hc
    rw [collect_append, ih hc.1, scan_singleton]
    simp [collect]
  | @bytes rs id s h hid hs ih =>
    rw [opened_append, List.mem_append, not_or] at hc
    have hne : id ≠ c := by
      intro heq
      exact hc.1 (heq ▸ hid)
    rw [collect_append, ih hc.1, scan_singleton]
    simp [collect, TreeStreamRecord.bytes, hne]

/-- A new stream without a parent is empty. -/
theorem readable_root (hrs : WellFormed rs) (hc : c ∉ opened rs) (h0 : c ≠ 0)
    (hlt : c.toNat < 2 ^ 31) (hzero : 0 ∉ opened rs) :
    Readable (rs ++ [.fork 0 c]) c [c] where
  ne_zero := h0
  find := by
    rw [findRoots_append, if_neg hc, List.nil_append, findRoots, TreeStreamRecord.isFork_fork,
      if_pos rfl, TreeStreamRecord.child_fork hlt, if_pos rfl]
    cases hn : (forks rs).length with
    | zero => simp [TreeStreamRecord.fork, TreeStreamWriter.climb]
    | succ n => simp [TreeStreamRecord.fork, TreeStreamWriter.climb]
  climb := by
    have hlookup : (forks rs ++ [(c, (0 : BitVec 32))]).lookup c = some 0 := by
      rw [List.lookup_append, lookup_forks_eq_none hc]
      simp
    rw [forks_append, forks_fork hlt, List.length_append, List.length_singleton,
      TreeStreamWriter.climb, if_neg h0, hlookup]
    cases hn : (forks rs).length with
    | zero => simp [TreeStreamWriter.climb]
    | succ n => simp [TreeStreamWriter.climb]
  nonempty := List.cons_ne_nil _ _
  scan := scan_singleton
  collect := by
    rw [collect_append, hrs.collect_eq_nil hc, contents_fork hlt, Function.update_self,
      hrs.contents_eq_nil hzero]
    simp [TreeStreamWriter.collect]

theorem WellFormed.zero_notMem (h : WellFormed rs) : 0 ∉ opened rs := by
  induction h with
  | nil => simp [opened, forks]
  | @fork rs p c h hp hc h0 hlt ih =>
    rw [opened_append, List.mem_append, not_or]
    refine ⟨ih, ?_⟩
    rw [opened, forks_fork hlt, List.map_singleton, List.mem_singleton]
    exact Ne.symm h0
  | @bytes rs id s h hid hs ih => rwa [opened_append, opened, opened, forks_bytes hs, List.map_nil,
      List.append_nil]

/-- Every open stream can be read back, with the bytes that were written to it and, before it
was opened, to its ancestors. -/
theorem WellFormed.readable (h : WellFormed rs) (hid : id ∈ opened rs) :
    ∃ roots, Readable rs id roots := by
  induction h generalizing id with
  | nil => simp [opened, forks] at hid
  | @fork rs p c h hp hc h0 hlt ih =>
    rw [opened_append, List.mem_append] at hid
    by_cases hold : id ∈ opened rs
    · obtain ⟨roots, hroots⟩ := ih hold
      exact ⟨roots, hroots.fork hold hc hlt⟩
    · obtain rfl : id = c := by
        simpa [opened, forks_fork hlt] using hid.resolve_left hold
      rcases hp with rfl | hp
      · exact ⟨[id], readable_root h hc h0 hlt h.zero_notMem⟩
      · obtain ⟨roots, hroots⟩ := ih hp
        exact ⟨id :: roots, hroots.open hc h0 hlt⟩
  | @bytes rs id' s h hid' hs ih =>
    rw [opened_append, opened, opened, forks_bytes hs, List.map_nil, List.append_nil] at hid
    obtain ⟨roots, hroots⟩ := ih hid
    exact ⟨roots, hroots.bytes hid hs⟩

end File

section Writer

variable {w : TreeStreamWriter} {id os : BitVec 32} {s : List UInt8}

def IsOpen (w : TreeStreamWriter) (id : BitVec 32) : Prop := id ∈ opened w.output

def streams (w : TreeStreamWriter) : BitVec 32 → List UInt8 := contents w.flushBuffer.output

structure Inv (w : TreeStreamWriter) : Prop where
  file : WellFormed w.output
  buffer : w.buffer ≠ [] → w.IsOpen w.lastID
  small : w.buffer.length ≤ bufferSize
  ids_pos : 0 < w.ids.toNat
  lt_ids : ∀ id, w.IsOpen id → id.toNat < w.ids.toNat

theorem inv_empty : empty.Inv where
  file := .nil
  buffer h := absurd rfl h
  small := Nat.zero_le _
  ids_pos := by decide
  lt_ids id h := by simp [IsOpen, opened, forks, empty] at h

theorem lt_of_le_bufferSize {n : Nat} (h : n ≤ bufferSize) : n < 2 ^ 31 := by
  unfold bufferSize at h
  omega

@[simp] theorem buffer_flushBuffer (w : TreeStreamWriter) : w.flushBuffer.buffer = [] := by
  unfold flushBuffer
  split
  · assumption
  · rfl

@[simp] theorem ids_flushBuffer (w : TreeStreamWriter) : w.flushBuffer.ids = w.ids := by
  unfold flushBuffer
  split <;> rfl

@[simp] theorem flushBuffer_flushBuffer (w : TreeStreamWriter) :
    w.flushBuffer.flushBuffer = w.flushBuffer := by
  rw [flushBuffer, if_pos w.buffer_flushBuffer]

theorem Inv.opened_flushBuffer (h : w.Inv) : opened w.flushBuffer.output = opened w.output := by
  unfold flushBuffer
  split
  · rfl
  · rw [opened_append, opened, opened, forks_bytes (lt_of_le_bufferSize h.small)]
    simp

theorem Inv.flushBuffer (h : w.Inv) : w.flushBuffer.Inv where
  file := by
    unfold TreeStreamWriter.flushBuffer
    split
    · exact h.file
    case isFalse hne => exact h.file.bytes (h.buffer hne) (lt_of_le_bufferSize h.small)
  buffer hne := absurd w.buffer_flushBuffer hne
  small := by simp
  ids_pos := by
    rw [ids_flushBuffer]
    exact h.ids_pos
  lt_ids id hid := by
    rw [IsOpen, h.opened_flushBuffer] at hid
    rw [ids_flushBuffer]
    exact h.lt_ids id hid

/-- Opening a stream copies the stream that it is opened from. -/
theorem Inv.openFrom (h : w.Inv) (hos : os = 0 ∨ w.IsOpen os) (hlt : w.ids.toNat < 2 ^ 31) :
    (w.openFrom os).1.Inv ∧ ¬ w.IsOpen w.ids ∧
      (∀ id, (w.openFrom os).1.IsOpen id ↔ w.IsOpen id ∨ id = w.ids) ∧
      (w.openFrom os).1.streams = Function.update w.streams w.ids (w.streams os) := by
  have hnew : ¬ w.IsOpen w.ids := fun hid => Nat.lt_irrefl _ (h.lt_ids _ hid)
  have h0 : w.ids ≠ 0 := by
    intro heq
    have hpos := h.ids_pos
    rw [heq] at hpos
    exact absurd hpos (by decide)
  have hids' : (w.ids + 1).toNat = w.ids.toNat + 1 := by
    rw [BitVec.toNat_add]
    simp
    omega
  have hout : (w.openFrom os).1.output = w.flushBuffer.output ++ [.fork os w.ids] := by
    simp [TreeStreamWriter.openFrom]
  have hbuf : (w.openFrom os).1.buffer = [] := by simp [TreeStreamWriter.openFrom]
  have hnext : (w.openFrom os).1.ids = w.ids + 1 := by simp [TreeStreamWriter.openFrom]
  have hopen (id : BitVec 32) : (w.openFrom os).1.IsOpen id ↔ w.IsOpen id ∨ id = w.ids := by
    rw [IsOpen, hout, opened_append, h.opened_flushBuffer, List.mem_append]
    simp [IsOpen, opened, forks_fork hlt]
  refine ⟨⟨?_, fun hne => absurd hbuf hne, by simp [hbuf], ?_, fun id hid => ?_⟩, hnew, hopen, ?_⟩
  · rw [hout]
    refine h.flushBuffer.file.fork ?_ ?_ h0 hlt
    · rwa [h.opened_flushBuffer]
    · rwa [h.opened_flushBuffer]
  · rw [hnext, hids']
    omega
  · rw [hnext, hids']
    rcases (hopen id).mp hid with hid | rfl
    · exact Nat.lt_succ_of_lt (h.lt_ids id hid)
    · exact Nat.lt_succ_self _
  · rw [streams, TreeStreamWriter.flushBuffer, if_pos hbuf, hout, contents_fork hlt]
    rfl

theorem snd_openFrom (w : TreeStreamWriter) (os : BitVec 32) : (w.openFrom os).2 = w.ids := by
  simp [TreeStreamWriter.openFrom]

theorem streams_eq (h : w.buffer.length ≤ bufferSize) : w.streams =
    Function.update (contents w.output) w.lastID (contents w.output w.lastID ++ w.buffer) := by
  unfold streams TreeStreamWriter.flushBuffer
  split
  case isTrue hnil => rw [hnil, List.append_nil, Function.update_eq_self]
  case isFalse => rw [contents_bytes (lt_of_le_bufferSize h)]

/-- Writing to a writer whose buffer is empty. -/
theorem Inv.write_flushed (h : w.Inv) (hnil : w.buffer = []) (hos : w.IsOpen os)
    (hs : s.length < 2 ^ 31) :
    (w.write os s).Inv ∧ (∀ id, (w.write os s).IsOpen id ↔ w.IsOpen id) ∧
      (w.write os s).ids = w.ids ∧
      (w.write os s).streams = Function.update w.streams os (w.streams os ++ s) := by
  have hstreams : w.streams = contents w.output := by
    rw [streams_eq h.small, hnil, List.append_nil, Function.update_eq_self]
  have hwrite : w.write os s = if s.length < bufferSize then { w with lastID := os, buffer := s }
      else { w with output := w.output ++ [.bytes os s] } := by
    simp [TreeStreamWriter.write, hnil]
  rw [hwrite, hstreams]
  split
  case isTrue hlt =>
    exact ⟨⟨h.file, fun _ => hos, hlt.le, h.ids_pos, h.lt_ids⟩, fun _ => Iff.rfl, rfl,
      streams_eq hlt.le⟩
  case isFalse =>
    have hopen (id : BitVec 32) : id ∈ opened (w.output ++ [.bytes os s]) ↔ w.IsOpen id := by
      rw [opened_append, opened, opened, forks_bytes hs, List.map_nil, List.append_nil]
      exact Iff.rfl
    refine ⟨⟨h.file.bytes hos hs, fun hne => absurd hnil hne, h.small, h.ids_pos,
      fun id hid => h.lt_ids id ((hopen id).mp hid)⟩, hopen, rfl, ?_⟩
    have hstreams' := streams_eq (w := { w with output := w.output ++ [.bytes os s] }) h.small
    simp only [hnil, List.append_nil, Function.update_eq_self] at hstreams'
    rw [hnil, hstreams', contents_bytes hs]

/-- Writing appends to one stream. -/
theorem Inv.write (h : w.Inv) (hos : w.IsOpen os) (hs : s.length < 2 ^ 31) :
    (w.write os s).Inv ∧ (∀ id, (w.write os s).IsOpen id ↔ w.IsOpen id) ∧
      (w.write os s).ids = w.ids ∧
      (w.write os s).streams = Function.update w.streams os (w.streams os ++ s) := by
  by_cases hflush : w.buffer ≠ [] ∧ (os ≠ w.lastID ∨ s.length + w.buffer.length > bufferSize)
  · have hwrite : w.write os s = w.flushBuffer.write os s := by
      unfold TreeStreamWriter.write
      rw [if_pos hflush]
      simp
    have hos' : w.flushBuffer.IsOpen os := by rwa [IsOpen, h.opened_flushBuffer]
    have hstreams : w.flushBuffer.streams = w.streams := by
      rw [streams, flushBuffer_flushBuffer, streams]
    obtain ⟨hinv, hopen, hids, hnew⟩ := h.flushBuffer.write_flushed (by simp) hos' hs
    rw [hwrite]
    refine ⟨hinv, fun id => (hopen id).trans ?_, by rw [hids, ids_flushBuffer], ?_⟩
    · rw [IsOpen, h.opened_flushBuffer, IsOpen]
    · rw [hnew, hstreams]
  · by_cases hnil : w.buffer = []
    · exact h.write_flushed hnil hos hs
    · -- the bytes join those of the same stream in the buffer
      have hsame : os = w.lastID ∧ s.length + w.buffer.length ≤ bufferSize := by
        by_cases heq : os = w.lastID
        · exact ⟨heq, by_contra fun hgt => hflush ⟨hnil, .inr (by omega)⟩⟩
        · exact absurd ⟨hnil, .inl heq⟩ hflush
      have hwrite : w.write os s = { w with buffer := w.buffer ++ s } := by
        unfold TreeStreamWriter.write
        rw [if_neg hflush, if_pos hnil]
      have hsmall : (w.buffer ++ s).length ≤ bufferSize := by
        rw [List.length_append]
        omega
      rw [hwrite]
      refine ⟨⟨h.file, fun _ => h.buffer hnil, hsmall, h.ids_pos, h.lt_ids⟩, fun _ => Iff.rfl,
        rfl, ?_⟩
      rw [streams_eq hsmall, streams_eq h.small, hsame.1, Function.update_self,
        Function.update_idem, List.append_assoc]

/-- Reading a stream gives what was written to it. -/
theorem Inv.readStream_eq (h : w.Inv) (hid : w.IsOpen id) :
    w.readStream id = some (w.streams id) := by
  have hopen : id ∈ opened w.flushBuffer.output := by rwa [h.opened_flushBuffer]
  obtain ⟨roots, hroots⟩ := h.flushBuffer.file.readable hopen
  rw [readStream, hroots.find]
  exact congrArg some hroots.collect

end Writer

end TreeStreamWriter

end Klee
