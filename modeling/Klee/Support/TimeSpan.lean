import Mathlib.Data.BitVec
import Mathlib.Data.List.TakeWhile
import Mathlib.Tactic

/-! `time::Span` from a string. -/
namespace Klee.Time

inductive TimeUnit where
  | h
  | min
  | s
  | ms
  | us
  | ns
deriving DecidableEq, Repr

namespace TimeUnit

def text : TimeUnit → List Char
  | h => ['h']
  | min => ['m', 'i', 'n']
  | s => ['s']
  | ms => ['m', 's']
  | us => ['u', 's']
  | ns => ['n', 's']

def nanoseconds : TimeUnit → ℕ
  | h => 3600000000000
  | min => 60000000000
  | s => 1000000000
  | ms => 1000000
  | us => 1000
  | ns => 1

end TimeUnit

/-- `klee_error`, and the exception of `stoull` that nobody catches -/
inductive SpanError where
  | illegalNumberFormat
  | outOfRange
deriving DecidableEq, Repr

section Parse

def isDigit (c : Char) : Bool := '0' ≤ c && c ≤ '9'

/-- `h|min|s|ms|us|ns` -/
def matchUnit : List Char → Option (TimeUnit × List Char)
  | 'h' :: rest => some (.h, rest)
  | 'm' :: 'i' :: 'n' :: rest => some (.min, rest)
  | 's' :: rest => some (.s, rest)
  | 'm' :: 's' :: rest => some (.ms, rest)
  | 'u' :: 's' :: rest => some (.us, rest)
  | 'n' :: 's' :: rest => some (.ns, rest)
  | _ => none

/-- `([0-9]+)(h|min|s|ms|us|ns)` at the begin of a string, with what follows. No unit starts with a
digit, so that the number has all digits. -/
def matchPart (str : List Char) : Option (List Char × TimeUnit × List Char) :=
  let digits := str.takeWhile isDigit
  if digits = [] then none
  else (matchUnit (str.dropWhile isDigit)).map fun (unit, rest) => (digits, unit, rest)

theorem length_matchUnit_lt {str rest : List Char} {unit : TimeUnit}
    (h : matchUnit str = some (unit, rest)) : rest.length < str.length := by
  unfold matchUnit at h
  split at h <;> cases h <;> simp only [List.length_cons] <;> omega

theorem length_matchPart_lt {str digits rest : List Char} {unit : TimeUnit}
    (h : matchPart str = some (digits, unit, rest)) : rest.length < str.length := by
  unfold matchPart at h
  dsimp only at h
  split_ifs at h
  obtain ⟨⟨unit', rest'⟩, hunit, heq⟩ := Option.map_eq_some_iff.mp h
  cases heq
  exact (length_matchUnit_lt hunit).trans_le (List.length_dropWhile_le _ _)

/-- `regex_match` with `(([0-9]+)(h|min|s|ms|us|ns))+` -/
def matchesParts (str : List Char) : Bool :=
  match h : matchPart str with
  | none => false
  | some (_, _, rest) => rest.isEmpty || matchesParts rest
termination_by str.length
decreasing_by exact length_matchPart_lt h

/-- `regex_match` with `[0-9]*\.?[0-9]+` -/
def matchesNumber (str : List Char) : Bool :=
  match str.dropWhile isDigit with
  | [] => !str.isEmpty
  | '.' :: rest => !rest.isEmpty && rest.all isDigit
  | _ => false

/-- `regex_search` for a part: the first one in the string, with what follows -/
def searchPart : List Char → Option (List Char × TimeUnit × List Char)
  | [] => none
  | c :: str =>
    match matchPart (c :: str) with
    | some found => some found
    | none => searchPart str

theorem length_searchPart_lt {str digits rest : List Char} {unit : TimeUnit}
    (h : searchPart str = some (digits, unit, rest)) : rest.length < str.length := by
  induction str with
  | nil => cases h
  | cons c str ih =>
    rw [searchPart] at h
    split at h
    · next hfound =>
      cases h
      exact length_matchPart_lt hfound
    · exact (ih h).trans (Nat.lt_succ_self _)

end Parse

section Constructor

def decimal (digits : List Char) : ℕ := digits.foldl (fun n c => 10 * n + (c.toNat - 48)) 0

def stoull (digits : List Char) : Except SpanError (BitVec 64) :=
  if 2 ^ 64 ≤ decimal digits then .error .outOfRange else .ok (BitVec.ofNat 64 (decimal digits))

/-- A count of a unit, as a `Duration`: 64 bits that count nanoseconds -/
def toDuration (value : BitVec 64) (unit : TimeUnit) : BitVec 64 :=
  value * BitVec.ofNat 64 unit.nanoseconds

def addParts (duration : BitVec 64) (submatch : List Char) : Except SpanError (BitVec 64) :=
  match h : searchPart submatch with
  | none => .ok duration
  | some (digits, unit, suffix) =>
    match stoull digits with
    | .error e => .error e
    | .ok value => addParts (duration + toDuration value unit) suffix
termination_by submatch.length
decreasing_by exact length_searchPart_lt h

/-- The constructor. `oldFormat` is what becomes of a number without a unit: it is a `double`. -/
def ofString (oldFormat : List Char → Except SpanError (BitVec 64)) (str : List Char) :
    Except SpanError (BitVec 64) :=
  if str = [] then .ok 0
  else if matchesNumber str then oldFormat str
  else if matchesParts str then addParts 0 str
  else .error .illegalNumberFormat

end Constructor

section Parts

structure Part where
  digits : List Char
  unit : TimeUnit
  ne_nil : digits ≠ []
  isDigit : ∀ c ∈ digits, isDigit c

def Part.text (p : Part) : List Char := p.digits ++ p.unit.text

def Part.value (p : Part) : ℕ := decimal p.digits

def Part.nanoseconds (p : Part) : ℕ := p.value * p.unit.nanoseconds

def text (parts : List Part) : List Char := parts.flatMap Part.text

def nanoseconds (parts : List Part) : ℕ := (parts.map Part.nanoseconds).sum

variable {p : Part} {parts : List Part} {rest : List Char}

theorem matchUnit_text (unit : TimeUnit) (rest : List Char) :
    matchUnit (unit.text ++ rest) = some (unit, rest) := by
  cases unit <;> rfl

theorem takeWhile_text (unit : TimeUnit) (rest : List Char) :
    (unit.text ++ rest).takeWhile isDigit = [] := by
  cases unit <;> rfl

theorem dropWhile_text (unit : TimeUnit) (rest : List Char) :
    (unit.text ++ rest).dropWhile isDigit = unit.text ++ rest := by
  cases unit <;> rfl

theorem Part.text_append (p : Part) (rest : List Char) :
    p.text ++ rest = p.digits ++ (p.unit.text ++ rest) := List.append_assoc _ _ _

theorem Part.text_append_ne_nil (p : Part) (rest : List Char) : p.text ++ rest ≠ [] := fun h =>
  p.ne_nil (List.append_eq_nil_iff.mp (List.append_eq_nil_iff.mp h).1).1

theorem matchPart_text (p : Part) (rest : List Char) :
    matchPart (p.text ++ rest) = some (p.digits, p.unit, rest) := by
  unfold matchPart
  rw [p.text_append, List.takeWhile_append_of_pos p.isDigit, takeWhile_text, List.append_nil,
    List.dropWhile_append_of_pos p.isDigit, dropWhile_text, matchUnit_text]
  exact if_neg p.ne_nil

theorem searchPart_text (p : Part) (rest : List Char) :
    searchPart (p.text ++ rest) = some (p.digits, p.unit, rest) := by
  have hpart := matchPart_text p rest
  cases htext : p.text ++ rest with
  | nil => exact absurd htext (p.text_append_ne_nil rest)
  | cons c str =>
    rw [htext] at hpart
    rw [searchPart, hpart]

theorem text_cons : text (p :: parts) = p.text ++ text parts := rfl

/-- A part is no number of the old format. -/
theorem matchesNumber_text : matchesNumber (text (p :: parts)) = false := by
  unfold matchesNumber
  rw [text_cons, p.text_append, List.dropWhile_append_of_pos p.isDigit, dropWhile_text]
  cases p.unit <;> rfl

theorem matchesParts_of_some {str digits : List Char} {unit : TimeUnit}
    (h : matchPart str = some (digits, unit, rest)) :
    matchesParts str = (rest.isEmpty || matchesParts rest) := by
  rw [matchesParts.eq_def]
  split
  · next hnone => cases h.symm.trans hnone
  · next hsome =>
    cases h.symm.trans hsome
    rfl

theorem matchesParts_text : matchesParts (text (p :: parts)) = true := by
  induction parts generalizing p with
  | nil => rw [text_cons, matchesParts_of_some (matchPart_text p _)]; rfl
  | cons q parts ih => rw [text_cons, matchesParts_of_some (matchPart_text p _), ih, Bool.or_true]

theorem eq_text_of_matchUnit {str : List Char} {unit : TimeUnit}
    (h : matchUnit str = some (unit, rest)) : str = unit.text ++ rest := by
  unfold matchUnit at h
  split at h <;> cases h <;> rfl

theorem exists_part_of_matchPart {str digits : List Char} {unit : TimeUnit}
    (h : matchPart str = some (digits, unit, rest)) : ∃ p : Part, str = p.text ++ rest := by
  unfold matchPart at h
  dsimp only at h
  split_ifs at h with hne
  obtain ⟨⟨unit', rest'⟩, hunit, heq⟩ := Option.map_eq_some_iff.mp h
  cases heq
  refine ⟨⟨str.takeWhile Time.isDigit, unit', hne, fun c hc => List.mem_takeWhile_imp hc⟩, ?_⟩
  rw [Part.text_append, ← eq_text_of_matchUnit hunit, List.takeWhile_append_dropWhile]

/-- The expression matches what consists of parts, and nothing else. -/
theorem matchesParts_iff {str : List Char} :
    matchesParts str = true ↔ ∃ p parts, str = text (p :: parts) := by
  constructor
  · induction hlength : str.length using Nat.strong_induction_on generalizing str with
    | _ n ih =>
      intro h
      rw [matchesParts.eq_def] at h
      split at h
      · cases h
      · next digits unit rest hsome =>
        obtain ⟨p, rfl⟩ := exists_part_of_matchPart hsome
        cases rest with
        | nil => exact ⟨p, [], rfl⟩
        | cons c rest =>
          obtain ⟨q, parts, hrest⟩ := ih _ (hlength ▸ length_matchPart_lt hsome) rfl h
          exact ⟨p, q :: parts, by rw [text_cons, ← hrest]⟩
  · rintro ⟨p, parts, rfl⟩
    exact matchesParts_text

end Parts

section Sum

variable {p : Part} {parts : List Part}

theorem addParts_nil (duration : BitVec 64) : addParts duration [] = .ok duration := by
  rw [addParts.eq_def]
  rfl

theorem addParts_of_some {str digits suffix : List Char} {unit : TimeUnit} (duration : BitVec 64)
    (h : searchPart str = some (digits, unit, suffix)) :
    addParts duration str = match stoull digits with
      | .error e => .error e
      | .ok value => addParts (duration + toDuration value unit) suffix := by
  rw [addParts.eq_def]
  split
  · next hnone => cases h.symm.trans hnone
  · next hsome =>
    cases h.symm.trans hsome
    rfl

theorem toDuration_ofNat (n : ℕ) (unit : TimeUnit) :
    toDuration (BitVec.ofNat 64 n) unit = BitVec.ofNat 64 (n * unit.nanoseconds) :=
  (BitVec.ofNat_mul _ _).symm

/-- The loop adds up all parts, unless a number does not fit. -/
theorem addParts_text (duration : BitVec 64) : addParts duration (text parts) =
    if ∃ q ∈ parts, 2 ^ 64 ≤ q.value then .error .outOfRange
    else .ok (duration + BitVec.ofNat 64 (nanoseconds parts)) := by
  induction parts generalizing duration with
  | nil =>
    rw [if_neg (by rintro ⟨q, hq, -⟩; cases hq)]
    exact (addParts_nil duration).trans (by simp [nanoseconds])
  | cons p parts ih =>
    rw [text_cons, addParts_of_some duration (searchPart_text p _)]
    unfold stoull
    by_cases hvalue : 2 ^ 64 ≤ p.value
    · rw [if_pos (show 2 ^ 64 ≤ decimal p.digits from hvalue), if_pos ⟨p, .head _, hvalue⟩]
    · rw [if_neg (show ¬ 2 ^ 64 ≤ decimal p.digits from hvalue)]
      dsimp only
      rw [ih, toDuration_ofNat, add_assoc, ← BitVec.ofNat_add]
      refine if_congr ?_ rfl rfl
      rw [List.exists_mem_cons_iff]
      exact (or_iff_right hvalue).symm

theorem ofString_text (oldFormat : List Char → Except SpanError (BitVec 64)) (p : Part)
    (parts : List Part) : ofString oldFormat (text (p :: parts)) =
      if ∃ q ∈ p :: parts, 2 ^ 64 ≤ q.value then .error .outOfRange
      else .ok (BitVec.ofNat 64 (nanoseconds (p :: parts))) := by
  unfold ofString
  have hne : text (p :: parts) ≠ [] := p.text_append_ne_nil _
  rw [if_neg hne, matchesNumber_text, if_neg (by decide), matchesParts_text, if_pos rfl,
    addParts_text, zero_add]

def Exact (parts : List Part) (result : Except SpanError (BitVec 64)) : Prop :=
  ∀ duration, result = .ok duration → duration.toInt = nanoseconds parts

theorem toInt_ofNat_eq_iff (n : ℕ) : (BitVec.ofNat 64 n).toInt = n ↔ n < 2 ^ 63 := by
  constructor
  · intro h
    have hlt := (BitVec.ofNat 64 n).toInt_lt
    omega
  · intro h
    rw [BitVec.toInt_eq_toNat_of_lt (by rw [BitVec.toNat_ofNat]; omega), BitVec.toNat_ofNat,
      Nat.mod_eq_of_lt (by omega)]

def manyHours : Part :=
  ⟨['2', '5', '6', '2', '0', '4', '8'], .h, by decide, by simp [Time.isDigit]⟩

theorem not_exact_manyHours :
    ¬ Exact [manyHours] (ofString (fun _ => .error .illegalNumberFormat) "2562048h".toList) := by
  intro h
  have htext : "2562048h".toList = text [manyHours] := by decide
  have hsmall : ¬ ∃ q ∈ [manyHours], 2 ^ 64 ≤ q.value := by decide
  rw [htext, ofString_text, if_neg hsmall] at h
  exact absurd (h _ rfl) (by decide)

theorem ofString_exact_iff (oldFormat : List Char → Except SpanError (BitVec 64)) (p : Part)
    (parts : List Part) : Exact (p :: parts) (ofString oldFormat (text (p :: parts))) ↔
      (∃ q ∈ p :: parts, 2 ^ 64 ≤ q.value) ∨ nanoseconds (p :: parts) < 2 ^ 63 := by
  rw [ofString_text]
  unfold Exact
  by_cases hvalue : ∃ q ∈ p :: parts, 2 ^ 64 ≤ q.value
  · rw [if_pos hvalue]
    exact iff_of_true nofun (.inl hvalue)
  · rw [if_neg hvalue, or_iff_right hvalue, ← toInt_ofNat_eq_iff]
    constructor
    · exact fun h => h _ rfl
    · rintro h duration heq
      cases heq
      exact h

end Sum

end Klee.Time
