import Klee.Expr.Basic
import Mathlib.Data.List.TakeWhile
import Mathlib.Tactic

/-! The arrays of the solvers: how `Z3Builder` and `STPBuilder` name the array constant that
stands for an array of the program. -/
namespace Klee

inductive SolverArray where
  | symbol (name : List Char)
  | write (array : SolverArray) (index : BitVec 32) (value : BitVec 8)
deriving DecidableEq, Repr

def SolverArray.base : SolverArray → List Char
  | symbol name => name
  | write array _ _ => array.base

/-- `c_str()`, as the solver reads it. -/
def cString (s : List Char) : List Char := s.takeWhile (· ≠ '\x00')

def itostr (n : Nat) : List Char := Nat.toDigits 10 n

def keptName (name : List Char) (count : Nat) : List Char :=
  name.take (32 - (itostr count).length)

/-- `unique_name`, with the size of the array hash as a counter. -/
def uniqueName (name : List Char) (count : Nat) : List Char := keptName name count ++ itostr count

def buildArray (name : List Char) : SolverArray := .symbol (cString name)

abbrev ArrayHash := List (Array × SolverArray)

/-- `eqExpr(readExpr(array, index), value)` -/
structure ArrayAssertion where
  array : SolverArray
  index : BitVec 32
  value : BitVec 8

structure Z3Builder where
  arrHash : ArrayHash
  constantArrayAssertions : List (Array × List ArrayAssertion)

structure STPBuilder where
  arrHash : ArrayHash

def Array.indexedValues (root : Array) : List (BitVec 32 × BitVec 8) :=
  (List.range root.size).map fun i => (BitVec.ofNat 32 i, root.constantValues.getD i 0)

namespace Z3Builder

def empty : Z3Builder := ⟨[], []⟩

def getInitialArray (b : Z3Builder) (root : Array) : SolverArray × Z3Builder :=
  match b.arrHash.lookup root with
  | some array => (array, b)
  | none =>
    let array := buildArray (uniqueName root.name.toList b.arrHash.length)
    let assertions := root.indexedValues.map fun v => ArrayAssertion.mk array v.1 v.2
    (array, {
      arrHash := b.arrHash ++ [(root, array)]
      constantArrayAssertions :=
        if root.isConstantArray ∧ b.constantArrayAssertions.lookup root = none then
          b.constantArrayAssertions ++ [(root, assertions)]
        else b.constantArrayAssertions })

def run (b : Z3Builder) (roots : List Array) : Z3Builder :=
  roots.foldl (fun b root => (b.getInitialArray root).2) b

end Z3Builder

namespace STPBuilder

def empty : STPBuilder := ⟨[]⟩

def getInitialArray (b : STPBuilder) (root : Array) : SolverArray × STPBuilder :=
  match b.arrHash.lookup root with
  | some array => (array, b)
  | none =>
    let symbol := buildArray (uniqueName root.name.toList b.arrHash.length)
    let array :=
      if root.isConstantArray then
        root.indexedValues.foldl (fun array v => .write array v.1 v.2) symbol
      else symbol
    (array, { arrHash := b.arrHash ++ [(root, array)] })

def run (b : STPBuilder) (roots : List Array) : STPBuilder :=
  roots.foldl (fun b root => (b.getInitialArray root).2) b

end STPBuilder

section Names

variable {n m : List Char} {i j : Nat}

theorem itostr_injective (h : itostr i = itostr j) : i = j := by
  have hdigits := congrArg (fun ds => Nat.ofDigitChars 10 ds 0) h
  simpa [itostr] using hdigits

theorem zero_notMem_itostr : '\x00' ∉ itostr i := by
  intro hmem
  have hdigit := Nat.isDigit_of_mem_toDigits (by decide) (by decide) hmem
  exact absurd hdigit (by decide)

theorem itostr_length_mono (h : i ≤ j) : (itostr i).length ≤ (itostr j).length := by
  have hpos : 0 < (itostr j).length := Nat.length_toDigits_pos
  refine (Nat.length_toDigits_le_iff (by decide) hpos).mpr ?_
  have hj := (Nat.length_toDigits_le_iff (b := 10) (n := j) (by decide) hpos).mp le_rfl
  exact lt_of_le_of_lt h hj

/-- The counter is cut off with the name when the name ends before it. -/
theorem cString_append {s d : List Char} (hd : '\x00' ∉ d) :
    cString (s ++ d) = if '\x00' ∈ s then cString s else s ++ d := by
  induction s with
  | nil =>
    rw [if_neg List.not_mem_nil]
    refine List.takeWhile_eq_self_iff.mpr fun c hc => ?_
    exact decide_eq_true fun heq => hd (heq ▸ hc)
  | cons c s ih =>
    by_cases hc : c = '\x00'
    · simp [cString, hc]
    · have hcons (l : List Char) : cString (c :: l) = c :: cString l := by simp [cString, hc]
      rw [List.cons_append, hcons, hcons, ih]
      by_cases hs : '\x00' ∈ s
      · rw [if_pos hs, if_pos (List.mem_cons_of_mem c hs)]
      · rw [if_neg hs, if_neg fun h => hs ((List.mem_cons.mp h).resolve_left (Ne.symm hc))]

/-- Two names with counters `i < j` become one symbol: the rest of the second counter is the
first one, and its beginning ends the first name. A name may also end early. -/
def Collides (n : List Char) (i : Nat) (m : List Char) (j : Nat) : Prop :=
  if '\x00' ∈ keptName n i then
    if '\x00' ∈ keptName m j then cString (keptName n i) = cString (keptName m j)
    else cString (keptName n i) = keptName m j ++ itostr j
  else
    if '\x00' ∈ keptName m j then cString (keptName m j) = keptName n i ++ itostr i
    else ∃ piece, itostr j = piece ++ itostr i ∧ keptName n i = keptName m j ++ piece

theorem uniqueName_eq_iff (hij : i < j) :
    cString (uniqueName n i) = cString (uniqueName m j) ↔ Collides n i m j := by
  unfold uniqueName Collides
  rw [cString_append zero_notMem_itostr, cString_append zero_notMem_itostr]
  by_cases hn : '\x00' ∈ keptName n i
  · by_cases hm : '\x00' ∈ keptName m j
    · rw [if_pos hn, if_pos hm, if_pos hn, if_pos hm]
    · rw [if_pos hn, if_neg hm, if_pos hn, if_neg hm]
  · by_cases hm : '\x00' ∈ keptName m j
    · rw [if_neg hn, if_pos hm, if_neg hn, if_pos hm]
      exact eq_comm
    · rw [if_neg hn, if_neg hm, if_neg hn, if_neg hm]
      constructor
      · intro h
        cases List.append_eq_append_iff.mp h with
        | inl hleft =>
          -- the first counter cannot be the longer one
          obtain ⟨piece, -, hpiece⟩ := hleft
          have hlen := congrArg List.length hpiece
          rw [List.length_append] at hlen
          have hmono := itostr_length_mono hij.le
          have hnil : piece = [] := List.length_eq_zero_iff.mp (by omega)
          rw [hnil, List.nil_append] at hpiece
          exact absurd (itostr_injective hpiece) hij.ne
        | inr hright =>
          obtain ⟨piece, hname, hpiece⟩ := hright
          exact ⟨piece, hpiece, hname⟩
      · rintro ⟨piece, hpiece, hname⟩
        rw [hname, hpiece, List.append_assoc]

end Names

section Run

variable {hash hash' : ArrayHash} {root a b : Array} {e f : SolverArray} {roots : List Array}

def Array.SameContents (a b : Array) : Prop :=
  a.isConstantArray = true ∧ b.isConstantArray = true ∧ a.constantValues = b.constantValues

def hashedRoots (hash : ArrayHash) : List Array := hash.map (·.1)

def addRoot (known : List Array) (root : Array) : List Array :=
  if root ∈ known then known else known ++ [root]

structure Named (hash : ArrayHash) : Prop where
  nodup : (hashedRoots hash).Nodup
  base : ∀ i a e, hash[i]? = some (a, e) → e.base = cString (uniqueName a.name.toList i)

inductive HashStep (hash : ArrayHash) (root : Array) : ArrayHash → Prop
  | found (h : root ∈ hashedRoots hash) : HashStep hash root hash
  | added (h : root ∉ hashedRoots hash) (e : SolverArray)
      (he : e.base = cString (uniqueName root.name.toList hash.length)) :
      HashStep hash root (hash ++ [(root, e)])

theorem mem_roots_of_lookup (h : hash.lookup root = some e) : root ∈ hashedRoots hash := by
  obtain ⟨before, after, hsplit, -⟩ := List.lookup_eq_some_iff.mp h
  rw [hashedRoots, hsplit]
  simp

theorem notMem_roots_of_lookup (h : hash.lookup root = none) : root ∉ hashedRoots hash := by
  intro hmem
  obtain ⟨entry, hentry, rfl⟩ := List.mem_map.mp hmem
  have hne := List.lookup_eq_none_iff.mp h entry hentry
  simp at hne

theorem HashStep.hashedRoots_eq (h : HashStep hash root hash') : hashedRoots hash' = addRoot (hashedRoots hash) root := by
  cases h with
  | found h => exact (if_pos h).symm
  | added h e he =>
    rw [addRoot, if_neg h]
    exact List.map_append

theorem HashStep.named (h : HashStep hash root hash') (hnamed : Named hash) : Named hash' := by
  cases h with
  | found => exact hnamed
  | added h e he =>
    refine ⟨?_, fun i a e' hi => ?_⟩
    · show ((hash ++ [(root, e)]).map (·.1)).Nodup
      rw [List.map_append, List.nodup_append]
      refine ⟨hnamed.nodup, List.nodup_singleton _, fun x hx y hy heq => h ?_⟩
      have hy : y = root := by simpa using hy
      exact hy ▸ heq ▸ hx
    · by_cases hlt : i < hash.length
      · rw [List.getElem?_append_left hlt] at hi
        exact hnamed.base i a e' hi
      · rw [List.getElem?_append_right (Nat.le_of_not_lt hlt)] at hi
        obtain ⟨hzero, heq⟩ := List.getElem?_eq_some_iff.mp hi
        have hi : i = hash.length := by
          have hzero : i - hash.length < 1 := hzero
          omega
        subst hi
        have heq : (root, e) = (a, e') := by simpa using heq
        obtain ⟨rfl, rfl⟩ := Prod.mk.inj heq
        exact he

theorem Z3Builder.hashStep (b : Z3Builder) (root : Array) :
    HashStep b.arrHash root (b.getInitialArray root).2.arrHash := by
  unfold Z3Builder.getInitialArray
  cases h : b.arrHash.lookup root with
  | some e => exact .found (mem_roots_of_lookup h)
  | none => exact .added (notMem_roots_of_lookup h) _ rfl

theorem base_foldl_write (values : List (BitVec 32 × BitVec 8)) (e : SolverArray) :
    (values.foldl (fun array v => .write array v.1 v.2) e).base = e.base := by
  induction values generalizing e with
  | nil => rfl
  | cons v values ih => exact ih _

theorem STPBuilder.hashStep (b : STPBuilder) (root : Array) :
    HashStep b.arrHash root (b.getInitialArray root).2.arrHash := by
  unfold STPBuilder.getInitialArray
  cases h : b.arrHash.lookup root with
  | some e => exact .found (mem_roots_of_lookup h)
  | none =>
    refine .added (notMem_roots_of_lookup h) _ ?_
    by_cases hconst : root.isConstantArray = true
    · rw [if_pos hconst, base_foldl_write]
      rfl
    · rw [if_neg hconst]
      rfl

section Builders

variable {B : Type} {next : B → Array → B} {hashOf : B → ArrayHash}

/-- What the builders have in common: a run hashes the arrays in the order of their first use. -/
theorem named_run (hstep : ∀ b root, HashStep (hashOf b) root (hashOf (next b root)))
    (roots : List Array) (b : B) (hnamed : Named (hashOf b)) :
    Named (hashOf (roots.foldl next b)) ∧
      hashedRoots (hashOf (roots.foldl next b)) = roots.foldl addRoot (hashedRoots (hashOf b)) := by
  induction roots generalizing b with
  | nil => exact ⟨hnamed, rfl⟩
  | cons root roots ih =>
    have hfirst := hstep b root
    obtain ⟨hlast, hroots⟩ := ih (next b root) (hfirst.named hnamed)
    refine ⟨hlast, hroots.trans ?_⟩
    rw [hfirst.hashedRoots_eq, List.foldl_cons]

end Builders

theorem named_nil : Named [] where
  nodup := List.nodup_nil
  base _ _ _ h := nomatch h

def inOrder (roots : List Array) : List Array := roots.foldl addRoot []

theorem mem_foldl_addRoot (known : List Array) :
    a ∈ roots.foldl addRoot known ↔ a ∈ known ∨ a ∈ roots := by
  induction roots generalizing known with
  | nil => simp
  | cons root roots ih =>
    rw [List.foldl_cons, ih, addRoot, List.mem_cons]
    by_cases hroot : root ∈ known
    · rw [if_pos hroot]
      constructor
      · exact fun h => h.imp_right .inr
      · rintro (h | rfl | h)
        · exact .inl h
        · exact .inl hroot
        · exact .inr h
    · rw [if_neg hroot, List.mem_append, List.mem_singleton, or_assoc]

theorem mem_inOrder : a ∈ inOrder roots ↔ a ∈ roots := by
  rw [inOrder, mem_foldl_addRoot]
  exact or_iff_right List.not_mem_nil

theorem hashedRoots_getElem? {i : Nat} : (hashedRoots hash)[i]? = some a ↔
    ∃ e, hash[i]? = some (a, e) := by
  rw [hashedRoots, List.getElem?_map, Option.map_eq_some_iff]
  constructor
  · rintro ⟨⟨a', e⟩, h, rfl⟩
    exact ⟨e, h⟩
  · rintro ⟨e, h⟩
    exact ⟨(a, e), h, rfl⟩

theorem Named.lookup {i : Nat} (hnamed : Named hash) (h : hash[i]? = some (a, e)) :
    hash.lookup a = some e := by
  cases hfound : hash.lookup a with
  | none =>
    have hmem := List.mem_of_getElem? (hashedRoots_getElem?.mpr ⟨e, h⟩)
    exact absurd hmem (notMem_roots_of_lookup hfound)
  | some f =>
    obtain ⟨before, after, hsplit, -⟩ := List.lookup_eq_some_iff.mp hfound
    have hmem : (a, f) ∈ hash := by
      rw [hsplit]
      exact List.mem_append_right _ List.mem_cons_self
    obtain ⟨j, hj⟩ := List.getElem?_of_mem hmem
    have hi := hashedRoots_getElem?.mpr ⟨e, h⟩
    have hlt := (List.getElem?_eq_some_iff.mp hi).1
    have heq := (List.getElem?_inj hlt hnamed.nodup).mp
      (hi.trans (hashedRoots_getElem?.mpr ⟨f, hj⟩).symm)
    rw [← heq, h] at hj
    obtain ⟨-, rfl⟩ := Prod.mk.inj (Option.some.inj hj)
    rfl

/-- Different arrays get different symbols, but for constant arrays with the same contents. -/
def ArraysApart (translate : Array → SolverArray) (roots : List Array) : Prop :=
  ∀ a ∈ roots, ∀ b ∈ roots, a ≠ b → ¬ a.SameContents b → (translate a).base ≠ (translate b).base

/-- No name collides with a later one, each with its place in the order of first use. -/
def NoCollision (roots : List Array) : Prop :=
  ∀ i j a b, i < j → (inOrder roots)[i]? = some a → (inOrder roots)[j]? = some b →
    ¬ a.SameContents b → ¬ Collides a.name.toList i b.name.toList j

theorem arraysApart_iff_noCollision {translate : Array → SolverArray} (hnamed : Named hash)
    (hroots : hashedRoots hash = inOrder roots)
    (htranslate : ∀ a e, hash.lookup a = some e → translate a = e) :
    ArraysApart translate roots ↔ NoCollision roots := by
  have hbase {i : Nat} {a : Array} (h : (inOrder roots)[i]? = some a) :
      (translate a).base = cString (uniqueName a.name.toList i) := by
    rw [← hroots] at h
    obtain ⟨e, he⟩ := hashedRoots_getElem?.mp h
    rw [htranslate a e (hnamed.lookup he)]
    exact hnamed.base i a e he
  have hnodup : (inOrder roots).Nodup := hroots ▸ hnamed.nodup
  constructor
  · intro hapart i j a b hij ha hb hsame hcollides
    have hne : a ≠ b := by
      rintro rfl
      have hlt := (List.getElem?_eq_some_iff.mp ha).1
      exact hij.ne ((List.getElem?_inj hlt hnodup).mp (ha.trans hb.symm))
    refine hapart a (mem_inOrder.mp (List.mem_of_getElem? ha)) b
      (mem_inOrder.mp (List.mem_of_getElem? hb)) hne hsame ?_
    rw [hbase ha, hbase hb]
    exact (uniqueName_eq_iff hij).mpr hcollides
  · intro hno a ha b hb hne hsame heq
    obtain ⟨i, hi⟩ := List.getElem?_of_mem (mem_inOrder.mpr ha)
    obtain ⟨j, hj⟩ := List.getElem?_of_mem (mem_inOrder.mpr hb)
    rw [hbase hi, hbase hj] at heq
    cases Nat.lt_trichotomy i j with
    | inl hij => exact hno i j a b hij hi hj hsame ((uniqueName_eq_iff hij).mp heq)
    | inr h =>
      cases h with
      | inl hij =>
        subst hij
        exact hne (Option.some.inj (hi.symm.trans hj))
      | inr hji =>
        have hsame' : ¬ b.SameContents a := fun h => hsame ⟨h.2.1, h.1, h.2.2.symm⟩
        exact hno j i b a hji hj hi hsame' ((uniqueName_eq_iff hji).mp heq.symm)

theorem Z3Builder.getInitialArray_of_lookup {b : Z3Builder} (h : b.arrHash.lookup root = some e) :
    (b.getInitialArray root).1 = e := by
  unfold Z3Builder.getInitialArray
  rw [h]

theorem STPBuilder.getInitialArray_of_lookup {b : STPBuilder}
    (h : b.arrHash.lookup root = some e) : (b.getInitialArray root).1 = e := by
  unfold STPBuilder.getInitialArray
  rw [h]

/-- After any sequence of translations, the symbols are apart exactly when no names collide. -/
theorem symbols_apart_iff_noCollision (roots : List Array) :
    (ArraysApart (fun a => ((Z3Builder.empty.run roots).getInitialArray a).1) roots ↔
      NoCollision roots) ∧
    (ArraysApart (fun a => ((STPBuilder.empty.run roots).getInitialArray a).1) roots ↔
      NoCollision roots) := by
  constructor
  · obtain ⟨hnamed, hroots⟩ := named_run Z3Builder.hashStep roots Z3Builder.empty named_nil
    exact arraysApart_iff_noCollision hnamed hroots fun a e he =>
      Z3Builder.getInitialArray_of_lookup he
  · obtain ⟨hnamed, hroots⟩ := named_run STPBuilder.hashStep roots STPBuilder.empty named_nil
    exact arraysApart_iff_noCollision hnamed hroots fun a e he =>
      STPBuilder.getInitialArray_of_lookup he

def namedByte (id : Nat) (name : String) : Array := .symbolic id name 1

/-- The third array is named `a1`, the thirteenth `a`. -/
def thirteen : List Array :=
  ["b", "c", "a1", "d", "e", "f", "g", "h", "i", "j", "k", "l", "a"].zipIdx.map fun n =>
    namedByte n.2 n.1

/-- Both are `a12` for the solver. -/
theorem not_symbols_apart :
    ¬ (∀ roots, ArraysApart (fun a => ((Z3Builder.empty.run roots).getInitialArray a).1) roots) ∧
    ¬ ∀ roots, ArraysApart (fun a => ((STPBuilder.empty.run roots).getInitialArray a).1) roots := by
  have hmem2 : namedByte 2 "a1" ∈ thirteen := by decide
  have hmem12 : namedByte 12 "a" ∈ thirteen := by decide
  have hne : namedByte 2 "a1" ≠ namedByte 12 "a" := by decide
  have hsame : ¬ (namedByte 2 "a1").SameContents (namedByte 12 "a") := fun h => by
    exact absurd h.1 (by decide)
  constructor
  · intro hall
    exact hall thirteen _ hmem2 _ hmem12 hne hsame (by decide)
  · intro hall
    exact hall thirteen _ hmem2 _ hmem12 hne hsame (by decide)

end Run

end Klee
