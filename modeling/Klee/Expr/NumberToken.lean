import Mathlib.Data.Nat.Digits.Lemmas
import Mathlib.Data.Nat.ModEq
import Mathlib.Tactic.Ring

/-! The numbers of the query language: the tokens of the lexer, and the constants that the parser
makes of them. -/
namespace Klee.Parser

section Lexer

/-- `isalnum`, or an underscore -/
def isNumberChar (c : Char) : Bool := c.isAlphanum || c == '_'

/-- The number that the lexer takes from the front of the buffer, with what is left. -/
def lexNumber : List Char → Option (List Char × List Char)
  | [] => none
  | c :: rest =>
    if c = '+' ∨ c = '-' then
      match rest with
      | d :: _ => if d.isDigit then some (c :: rest.takeWhile isNumberChar, rest.dropWhile isNumberChar)
        else none
      | [] => none
    else if c.isDigit then some (c :: rest.takeWhile isNumberChar, rest.dropWhile isNumberChar)
    else none

end Lexer

section Parser

/-- What `ParseNumberToken` ends with; the assertion is that of an `APInt` with no bits. -/
inductive NumberResult (width : Nat) where
  | error (message : String)
  | assertion
  | constant (value : BitVec width)
deriving DecidableEq

def digitOf (c : Char) : Option Nat :=
  if '0' ≤ c ∧ c ≤ '9' then some (c.toNat - '0'.toNat)
  else if 'a' ≤ c ∧ c ≤ 'z' then some (c.toNat - 'a'.toNat + 10)
  else if 'A' ≤ c ∧ c ≤ 'Z' then some (c.toNat - 'A'.toNat + 10)
  else none

def parseDigits (radix : Nat) {bits : Nat} : List Char → BitVec bits → Except String (BitVec bits)
  | [], val => .ok val
  | c :: cs, val =>
    if c = '_' then parseDigits radix cs val
    else match digitOf c with
      | none => .error "invalid character in numeric token."
      | some digit =>
        if radix ≤ digit then .error "invalid character in numeric token (out of range)."
        else parseDigits radix cs (val * BitVec.ofNat bits radix + BitVec.ofNat bits digit)

/-- `Radix` and `RadixBits` for the letter after the zero. -/
def radixOf (c : Char) : Option (Nat × Nat) :=
  if c = 'b' then some (2, 1) else if c = 'o' then some (8, 3)
  else if c = 'x' then some (16, 4) else none

/-- The sign, the characters from `S` to the end of the buffer, and `N`, how many of
them are of the token. -/
def detectSign (s : List Char) (n : Nat) : Bool × List Char × Nat :=
  match s with
  | '+' :: s => (false, s, (n + (2 ^ 32 - 1)) % 2 ^ 32)
  | '-' :: s => (true, s, (n + (2 ^ 32 - 1)) % 2 ^ 32)
  | s => (false, s, n)

/-- `Detect 0[box]`, with the length of the token. -/
def detectRadix (length : Nat) (s : List Char) (n : Nat) : Option (Nat × Nat) × List Char × Nat :=
  match s with
  | '0' :: c :: rest =>
    if 2 ≤ length then
      match radixOf c with
      | some r => (some r, rest, (n + (2 ^ 32 - 2)) % 2 ^ 32)
      | none => (none, s, n)
    else (none, s, n)
  | s => (none, s, n)

def parseValue (width : Nat) (hasMinus : Bool) (radix radixBits : Nat) (s : List Char) (n : Nat) :
    NumberResult width :=
  let bits := radixBits * n % 2 ^ 32
  if bits = 0 then .assertion
  else match parseDigits radix (s.take n) (0 : BitVec bits) with
    | .error message => .error message
    | .ok val => .constant ((if hasMinus then -val else val).setWidth width)

def parseUnsigned (width : Nat) (hasMinus : Bool) (length : Nat) (s : List Char) (n : Nat) :
    NumberResult width :=
  match detectRadix length s n with
  | (some (radix, radixBits), s, n) =>
    if n = 0 then .error "invalid numeric token (no digits)."
    else parseValue width hasMinus radix radixBits s n
  | (none, s, n) => parseValue width hasMinus 10 4 s n

/-- `ParseNumberToken` for the token `text`, with the rest of the buffer. The length of a token is
unsigned. -/
def parseNumberToken (width : Nat) (text rest : List Char) : NumberResult width :=
  let length := text.length % 2 ^ 32
  let (hasMinus, s, n) := detectSign (text ++ rest) length
  parseUnsigned width hasMinus length s n

end Parser

section Literal

/-- The sign of a literal, its radix with the bits of a digit, and its digits. -/
structure Literal where
  negative : Bool
  radix : Nat
  radixBits : Nat
  digits : List Char
deriving DecidableEq

/-- A literal without its sign: with a prefix for its radix, or a decimal one. -/
def unsignedLiteral (negative : Bool) : List Char → Literal
  | '0' :: 'b' :: digits => ⟨negative, 2, 1, digits⟩
  | '0' :: 'o' :: digits => ⟨negative, 8, 3, digits⟩
  | '0' :: 'x' :: digits => ⟨negative, 16, 4, digits⟩
  | digits => ⟨negative, 10, 4, digits⟩

def literalOf : List Char → Literal
  | '+' :: text => unsignedLiteral false text
  | '-' :: text => unsignedLiteral true text
  | text => unsignedLiteral false text

/-- The values of the digits, unless one is no digit of the radix. Underscores are skipped. -/
def digitValues (radix : Nat) (digits : List Char) : Option (List Nat) :=
  (digits.filter (· ≠ '_')).mapM fun c => (digitOf c).filter (· < radix)

def Literal.magnitude (l : Literal) : Option Nat :=
  if l.digits = [] then none
  else (digitValues l.radix l.digits).map fun ds => Nat.ofDigits l.radix ds.reverse

def Literal.value (l : Literal) : Option ℤ :=
  l.magnitude.map fun v : Nat => if l.negative then -(v : ℤ) else (v : ℤ)

end Literal

end Klee.Parser

/-! When the constant of a literal is its value in the type: the digits are read in a width of their
own, which must not lose the sign. -/
namespace Klee.Parser

section Digits

variable {radix bits : Nat} {c : Char} {cs : List Char} {val : BitVec bits} {ds : List Nat}

theorem digitValues_cons (hc : c ≠ '_') : digitValues radix (c :: cs) =
    ((digitOf c).filter (· < radix)).bind fun d => (digitValues radix cs).map (d :: ·) := by
  unfold digitValues
  rw [List.filter_cons_of_pos (by simpa using hc), List.mapM_cons]
  cases (digitOf c).filter (· < radix) with
  | none => rfl
  | some d =>
    cases (cs.filter (· ≠ '_')).mapM fun c => (digitOf c).filter (· < radix) with
    | none => rfl
    | some ds => rfl

/-- The digits in the order in which they are read. -/
theorem ofDigits_reverse_cons (d : Nat) :
    Nat.ofDigits radix (d :: ds).reverse = d * radix ^ ds.length + Nat.ofDigits radix ds.reverse := by
  rw [List.reverse_cons, Nat.ofDigits_append, Nat.ofDigits_singleton, List.length_reverse]
  ring

/-- The loop reads the digits modulo the width. -/
theorem parseDigits_some (h : digitValues radix cs = some ds) : parseDigits radix cs val =
    .ok (BitVec.ofNat bits (val.toNat * radix ^ ds.length + Nat.ofDigits radix ds.reverse)) := by
  induction cs generalizing val ds with
  | nil =>
    obtain rfl : [] = ds := Option.some.inj h
    simp [parseDigits]
  | cons c cs ih =>
    unfold parseDigits
    by_cases hc : c = '_'
    · subst hc
      rw [if_pos rfl]
      exact ih h
    · rw [digitValues_cons hc] at h
      obtain ⟨d, hd, hrest⟩ := Option.bind_eq_some_iff.mp h
      obtain ⟨ds, hds, rfl⟩ := Option.map_eq_some_iff.mp hrest
      obtain ⟨hd, hlt⟩ := Option.filter_eq_some_iff.mp hd
      rw [if_neg hc, hd]
      dsimp only
      rw [if_neg (Nat.not_le.mpr (of_decide_eq_true hlt)), ih hds, ofDigits_reverse_cons]
      have hstep : (val * BitVec.ofNat bits radix + BitVec.ofNat bits d).toNat ≡
          val.toNat * radix + d [MOD 2 ^ bits] := by
        rw [BitVec.toNat_add, BitVec.toNat_mul, BitVec.toNat_ofNat, BitVec.toNat_ofNat]
        exact (Nat.mod_modEq _ _).trans (((Nat.mod_modEq _ _).trans
          ((Nat.mod_modEq _ _).mul_left _)).add (Nat.mod_modEq _ _))
      have hall := (hstep.mul_right (radix ^ ds.length)).add_right (Nat.ofDigits radix ds.reverse)
      refine congrArg _ (BitVec.eq_of_toNat_eq ?_)
      rw [BitVec.toNat_ofNat, BitVec.toNat_ofNat, List.length_cons]
      refine Eq.trans hall (congrArg (· % 2 ^ bits) ?_)
      ring

theorem parseDigits_none (h : digitValues radix cs = none) :
    ∃ message, parseDigits radix cs val = .error message := by
  induction cs generalizing val with
  | nil => cases h
  | cons c cs ih =>
    unfold parseDigits
    by_cases hc : c = '_'
    · subst hc
      rw [if_pos rfl]
      exact ih h
    · rw [digitValues_cons hc] at h
      rw [if_neg hc]
      cases hd : digitOf c with
      | none => exact ⟨_, rfl⟩
      | some d =>
        dsimp only
        split
        · exact ⟨_, rfl⟩
        · rename_i hlt
          rw [hd, Option.filter_some, if_pos (decide_eq_true (Nat.not_le.mp hlt)), Option.bind_some,
            Option.map_eq_none_iff] at h
          exact ih h

end Digits

section Value

variable {width w : Nat} {l : Literal} {x : ℤ}

def Literal.bits (l : Literal) : Nat := l.radixBits * l.digits.length % 2 ^ 32

def Literal.parse (width : Nat) (l : Literal) : NumberResult width :=
  if l.digits = [] then .error "invalid numeric token (no digits)."
  else parseValue width l.negative l.radix l.radixBits l.digits l.digits.length

/-- An error is reported, or the constant is the value of the literal in the type. -/
def NumberRight (width : Nat) (l : Literal) : NumberResult width → Prop
  | .error _ => True
  | .assertion => False
  | .constant value => ∃ x, l.value = some x ∧ value = BitVec.ofInt width x

def Fits (width : Nat) (l : Literal) : Prop :=
  l.digits = [] ∨ l.bits ≠ 0 ∧ ∀ x, l.value = some x →
    width ≤ l.bits ∨ x % 2 ^ width < 2 ^ l.bits

/-- A value goes through another width unharmed if it fits into that one. -/
theorem setWidth_ofInt_iff : (BitVec.ofInt w x).setWidth width = BitVec.ofInt width x ↔
    width ≤ w ∨ x % 2 ^ width < 2 ^ w := by
  have hwidth : (0 : ℤ) < 2 ^ width := by positivity
  have hbits : (0 : ℤ) < 2 ^ w := by positivity
  rw [BitVec.toNat_inj.symm, BitVec.toNat_setWidth, BitVec.toNat_ofInt, BitVec.toNat_ofInt,
    ← Int.natCast_inj, Int.natCast_mod, Int.toNat_of_nonneg (Int.emod_nonneg _ (by positivity)),
    Int.toNat_of_nonneg (Int.emod_nonneg _ (by positivity))]
  push_cast
  by_cases hle : width ≤ w
  · have hdvd : (2 : ℤ) ^ width ∣ 2 ^ w := pow_dvd_pow 2 hle
    rw [Int.emod_emod_of_dvd x hdvd]
    exact iff_of_true rfl (.inl hle)
  · have hdvd : (2 : ℤ) ^ w ∣ 2 ^ width := pow_dvd_pow 2 (Nat.le_of_not_le hle)
    have hlt := Int.emod_lt_of_pos x hbits
    have hle' : (2 : ℤ) ^ w ≤ 2 ^ width := Int.le_of_dvd hwidth hdvd
    rw [Int.emod_eq_of_lt (Int.emod_nonneg x hbits.ne') (hlt.trans_le hle'), or_iff_right hle]
    constructor
    · exact fun heq => heq ▸ hlt
    · intro hfits
      rw [← Int.emod_emod_of_dvd x hdvd, Int.emod_eq_of_lt (Int.emod_nonneg x hwidth.ne') hfits]

theorem parseValue_right_iff (hdigits : l.digits ≠ []) :
    NumberRight width l (parseValue width l.negative l.radix l.radixBits l.digits l.digits.length) ↔
      Fits width l := by
  have hmagnitude : l.magnitude = (digitValues l.radix l.digits).map fun ds =>
      Nat.ofDigits l.radix ds.reverse := if_neg hdigits
  unfold parseValue
  rw [Fits, or_iff_right hdigits, ← Literal.bits, List.take_length]
  dsimp only
  by_cases hbits : l.bits = 0
  · rw [if_pos hbits]
    exact iff_of_false id fun h => h.1 hbits
  · rw [if_neg hbits, and_iff_right hbits]
    cases hvalues : digitValues l.radix l.digits with
    | none =>
      obtain ⟨message, hmessage⟩ := @parseDigits_none l.radix l.bits l.digits 0 hvalues
      rw [hmessage]
      refine iff_of_true trivial fun x hx => ?_
      rw [Literal.value, hmagnitude, hvalues] at hx
      cases hx
    | some ds =>
      obtain ⟨m, hm⟩ : ∃ m, Nat.ofDigits l.radix ds.reverse = m := ⟨_, rfl⟩
      have hvalue : l.value = some (if l.negative then -(m : ℤ) else (m : ℤ)) := by
        rw [Literal.value, hmagnitude, hvalues, Option.map_some, hm]
        rfl
      have hval : (if l.negative then -BitVec.ofNat l.bits m else BitVec.ofNat l.bits m) =
          BitVec.ofInt l.bits (if l.negative then -(m : ℤ) else (m : ℤ)) := by
        cases l.negative with
        | false => exact (BitVec.ofInt_natCast _ _).symm
        | true => exact (BitVec.ofInt_neg.trans (congrArg _ (BitVec.ofInt_natCast _ _))).symm
      have hzero : (0 : BitVec l.bits).toNat * l.radix ^ ds.length + m = m := by simp
      rw [parseDigits_some hvalues, hm, hzero, hvalue]
      simp only [NumberRight, hvalue, Option.some.injEq, forall_eq', exists_eq_left', hval,
        setWidth_ofInt_iff]

theorem Literal.parse_right_iff : NumberRight width l (l.parse width) ↔ Fits width l := by
  unfold Literal.parse
  by_cases hdigits : l.digits = []
  · rw [if_pos hdigits]
    exact iff_of_true trivial (.inl hdigits)
  · rw [if_neg hdigits]
    exact parseValue_right_iff hdigits

end Value

section Token

variable {text rest buffer cs : List Char} {c : Char} {width : Nat} {negative : Bool}

structure Unsigned (text rest : List Char) : Prop where
  exists_cons : ∃ c cs, text = c :: cs ∧ c.isDigit = true
  last : ∀ c ∈ rest.head?, isNumberChar c = false

theorem last_dropWhile : ∀ c ∈ (cs.dropWhile isNumberChar).head?, isNumberChar c = false := by
  intro c hc
  have hfirst := List.head?_dropWhile_not isNumberChar cs
  rwa [Option.mem_def.mp hc] at hfirst

/-- A token is a number with a sign or without one. -/
theorem lexNumber_cases (h : lexNumber buffer = some (text, rest)) : Unsigned text rest ∨
    ∃ sign text', (sign = '+' ∨ sign = '-') ∧ text = sign :: text' ∧ Unsigned text' rest := by
  unfold lexNumber at h
  split at h
  · cases h
  · split at h
    · rename_i c cs hsign
      split at h
      · rename_i d ds
        split at h
        · rename_i hd
          obtain ⟨rfl, rfl⟩ := Prod.mk.inj (Option.some.inj h)
          have hnumber : isNumberChar d = true := by simp [isNumberChar, Char.isAlphanum, hd]
          refine .inr ⟨c, _, hsign, rfl, ⟨d, ds.takeWhile isNumberChar, ?_, hd⟩, last_dropWhile⟩
          rw [List.takeWhile_cons, if_pos hnumber]
        · cases h
      · cases h
    · split at h
      · rename_i hd
        obtain ⟨rfl, rfl⟩ := Prod.mk.inj (Option.some.inj h)
        exact .inl ⟨⟨_, _, rfl, hd⟩, last_dropWhile⟩
      · cases h

theorem radixOf_eq_none (h : isNumberChar c = false) : radixOf c = none := by
  unfold radixOf
  rw [if_neg, if_neg, if_neg]
  all_goals
    rintro rfl
    revert h
    decide

theorem unsignedLiteral_zero (ds : List Char) : unsignedLiteral negative ('0' :: c :: ds) =
    match radixOf c with
    | some (radix, radixBits) => ⟨negative, radix, radixBits, ds⟩
    | none => ⟨negative, 10, 4, '0' :: c :: ds⟩ := by
  unfold radixOf
  by_cases hb : c = 'b'
  · subst hb
    rfl
  by_cases ho : c = 'o'
  · subst ho
    rfl
  by_cases hx : c = 'x'
  · subst hx
    rfl
  rw [if_neg hb, if_neg ho, if_neg hx]
  simp [unsignedLiteral, hb, ho, hx]

theorem parseValue_append {radix radixBits : Nat} :
    parseValue width negative radix radixBits (text ++ rest) text.length =
      parseValue width negative radix radixBits text text.length := by
  unfold parseValue
  rw [List.take_left, List.take_length]

theorem parse_decimal (hne : text ≠ []) : (⟨negative, 10, 4, text⟩ : Literal).parse width =
    parseValue width negative 10 4 text text.length := if_neg hne

/-- Without a prefix the number is a decimal one. -/
theorem parseUnsigned_decimal {length : Nat} (hne : text ≠ [])
    (hdetect : detectRadix length (text ++ rest) text.length = (none, text ++ rest, text.length)) :
    parseUnsigned width negative length (text ++ rest) text.length =
      (⟨negative, 10, 4, text⟩ : Literal).parse width := by
  unfold parseUnsigned
  rw [hdetect, parse_decimal hne]
  exact parseValue_append

/-- With a prefix the digits follow that. -/
theorem parseUnsigned_prefixed {radix radixBits length : Nat} {ds : List Char}
    (hlength : ds.length + 2 < 2 ^ 32)
    (hdetect : detectRadix length (('0' :: c :: ds) ++ rest) (ds.length + 2) =
      (some (radix, radixBits), ds ++ rest, (ds.length + 2 + (2 ^ 32 - 2)) % 2 ^ 32)) :
    parseUnsigned width negative length (('0' :: c :: ds) ++ rest) (ds.length + 2) =
      (⟨negative, radix, radixBits, ds⟩ : Literal).parse width := by
  have hn : (ds.length + 2 + (2 ^ 32 - 2)) % 2 ^ 32 = ds.length := by omega
  unfold parseUnsigned Literal.parse
  rw [hdetect, hn]
  dsimp only
  by_cases hds : ds = []
  · rw [if_pos hds, if_pos (List.length_eq_zero_iff.mpr hds)]
  · rw [if_neg hds, if_neg (mt List.length_eq_zero_iff.mp hds)]
    exact parseValue_append

/-- After the sign the parser reads the literal, and nothing behind the token. -/
theorem parseUnsigned_eq (h : Unsigned text rest) (hlength : text.length < 2 ^ 32) {length : Nat}
    (hle : text.length ≤ length) :
    parseUnsigned width negative length (text ++ rest) text.length =
      (unsignedLiteral negative text).parse width := by
  obtain ⟨⟨c, cs, rfl, hc⟩, hlast⟩ := h
  by_cases hzero : c = '0'
  · subst hzero
    cases cs with
    | nil =>
      have hliteral : unsignedLiteral negative ['0'] = ⟨negative, 10, 4, ['0']⟩ := by
        simp [unsignedLiteral]
      rw [hliteral]
      refine parseUnsigned_decimal (by simp) ?_
      cases rest with
      | nil => simp [detectRadix]
      | cons d rest => simp [detectRadix, radixOf_eq_none (hlast d rfl)]
    | cons d ds =>
      have htwo : 2 ≤ length := le_trans (by simp) hle
      rcases hradix : radixOf d with - | ⟨radix, radixBits⟩
      · rw [unsignedLiteral_zero, hradix]
        refine parseUnsigned_decimal (by simp) ?_
        simp [detectRadix, hradix]
      · rw [unsignedLiteral_zero, hradix]
        refine parseUnsigned_prefixed hlength ?_
        simp [detectRadix, hradix, htwo]
  · have hliteral : unsignedLiteral negative (c :: cs) = ⟨negative, 10, 4, c :: cs⟩ := by
      simp [unsignedLiteral, hzero]
    rw [hliteral]
    refine parseUnsigned_decimal (by simp) ?_
    simp [detectRadix, hzero]

/-- For a token the parser reads the literal. -/
theorem parseNumberToken_eq (h : lexNumber buffer = some (text, rest)) (hlength : text.length < 2 ^ 32) :
    parseNumberToken width text rest = (literalOf text).parse width := by
  unfold parseNumberToken
  rw [Nat.mod_eq_of_lt hlength]
  rcases lexNumber_cases h with hu | ⟨sign, text', hsign, rfl, hu⟩
  · have hu' := hu
    obtain ⟨⟨c, cs, rfl, hc⟩, -⟩ := hu'
    have hplus : c ≠ '+' := by rintro rfl; revert hc; decide
    have hminus : c ≠ '-' := by rintro rfl; revert hc; decide
    have hliteral : literalOf (c :: cs) = unsignedLiteral false (c :: cs) := by
      simp [literalOf, hplus, hminus]
    have hsign : detectSign ((c :: cs) ++ rest) (c :: cs).length =
        (false, (c :: cs) ++ rest, (c :: cs).length) := by
      simp [detectSign, hplus, hminus]
    dsimp only
    rw [hsign, hliteral]
    exact parseUnsigned_eq hu hlength le_rfl
  · have hn : (text'.length + 1 + (2 ^ 32 - 1)) % 2 ^ 32 = text'.length := by
      rw [List.length_cons] at hlength
      omega
    have hdetect : detectSign (sign :: text' ++ rest) (sign :: text').length =
        (sign == '-', text' ++ rest, text'.length) := by
      rcases hsign with rfl | rfl <;> simp only [List.cons_append, detectSign, List.length_cons, hn] <;> rfl
    have hliteral : literalOf (sign :: text') = unsignedLiteral (sign == '-') text' := by
      rcases hsign with rfl | rfl <;> rfl
    dsimp only
    rw [hdetect, hliteral]
    exact parseUnsigned_eq hu (Nat.lt_of_succ_lt hlength) (Nat.le_succ _)

theorem digitValues_spec {radix : Nat} {ds : List Nat} (h : digitValues radix cs = some ds) :
    ds.length ≤ cs.length ∧ ∀ d ∈ ds, d < radix := by
  induction cs generalizing ds with
  | nil =>
    obtain rfl : [] = ds := Option.some.inj h
    exact ⟨le_rfl, nofun⟩
  | cons c cs ih =>
    by_cases hc : c = '_'
    · subst hc
      exact (ih h).imp_left Nat.le_succ_of_le
    · rw [digitValues_cons hc] at h
      obtain ⟨d, hd, hrest⟩ := Option.bind_eq_some_iff.mp h
      obtain ⟨ds, hds, rfl⟩ := Option.map_eq_some_iff.mp hrest
      obtain ⟨hlen, hall⟩ := ih hds
      have hlt := of_decide_eq_true (Option.filter_eq_some_iff.mp hd).2
      exact ⟨Nat.succ_le_succ hlen, List.forall_mem_cons.mpr ⟨hlt, hall⟩⟩

/-- The magnitude of the digits fits into the estimated width. -/
theorem Literal.magnitude_lt {l : Literal} {v : Nat} (hradix : 2 ≤ l.radix)
    (hle : l.radix ≤ 2 ^ l.radixBits) (h : l.magnitude = some v) :
    v < 2 ^ (l.radixBits * l.digits.length) := by
  unfold Literal.magnitude at h
  split at h
  · cases h
  · obtain ⟨ds, hds, rfl⟩ := Option.map_eq_some_iff.mp h
    obtain ⟨hlen, hall⟩ := digitValues_spec hds
    calc Nat.ofDigits l.radix ds.reverse
        < l.radix ^ ds.reverse.length :=
          Nat.ofDigits_lt_base_pow_length hradix fun d hd => hall d (List.mem_reverse.mp hd)
      _ ≤ (2 ^ l.radixBits) ^ l.digits.length := by
          rw [List.length_reverse]
          exact (Nat.pow_le_pow_left hle _).trans (Nat.pow_le_pow_right (by positivity) hlen)
      _ = 2 ^ (l.radixBits * l.digits.length) := (pow_mul _ _ _).symm

/-- While the estimated width does not overflow, only a sign can be lost. -/
theorem fits_iff {l : Literal} (hradix : 2 ≤ l.radix) (hle : l.radix ≤ 2 ^ l.radixBits)
    (hlength : l.radixBits * l.digits.length < 2 ^ 32) :
    Fits width l ↔ ∀ x, l.value = some x → 0 ≤ x ∨ width ≤ l.bits := by
  have hbits : l.bits = l.radixBits * l.digits.length := Nat.mod_eq_of_lt hlength
  by_cases hdigits : l.digits = []
  · refine iff_of_true (.inl hdigits) fun x hx => ?_
    have hnone : l.magnitude = none := if_pos hdigits
    rw [Literal.value, hnone] at hx
    cases hx
  · have hpos : l.bits ≠ 0 := by
      have hone : l.radixBits ≠ 0 := by
        intro hzero
        rw [hzero] at hle
        exact absurd (hradix.trans hle) (by decide)
      rw [hbits]
      exact Nat.mul_ne_zero hone (mt List.length_eq_zero_iff.mp hdigits)
    rw [Fits, or_iff_right hdigits, and_iff_right hpos]
    refine forall₂_congr fun x hx => ?_
    obtain ⟨v, hv, rfl⟩ := Option.map_eq_some_iff.mp hx
    have hlt : (v : ℤ) < 2 ^ l.bits := by
      rw [hbits]
      exact_mod_cast Literal.magnitude_lt hradix hle hv
    by_cases hwidth : width ≤ l.bits
    · exact iff_of_true (.inl hwidth) (.inr hwidth)
    · rw [or_iff_right hwidth, or_iff_left hwidth]
      have hdouble : (2 : ℤ) * 2 ^ l.bits ≤ 2 ^ width := by
        rw [← pow_succ']
        exact pow_le_pow_right₀ (by decide) (Nat.lt_of_not_le hwidth)
      have hnonneg : (0 : ℤ) ≤ v := Int.natCast_nonneg v
      cases l.negative with
      | false =>
        rw [if_neg Bool.false_ne_true]
        have hmod : (v : ℤ) % 2 ^ width ≤ v := by exact_mod_cast Nat.mod_le v (2 ^ width)
        exact iff_of_true (hmod.trans_lt hlt) hnonneg
      | true =>
        rw [if_pos rfl]
        by_cases hzero : v = 0
        · subst hzero
          simp
        · have hmod : -(v : ℤ) % 2 ^ width = 2 ^ width - v := by
            rw [← Int.add_emod_right, Int.emod_eq_of_lt (by omega) (by omega)]
            ring
          rw [hmod]
          omega

/-- A token of the lexer gives the value of the literal, if and only if that fits into the width
that is estimated for its characters. -/
theorem parseNumberToken_right_iff (width : Nat) (buffer text rest : List Char)
    (h : lexNumber buffer = some (text, rest)) (hlength : text.length < 2 ^ 32) :
    NumberRight width (literalOf text) (parseNumberToken width text rest) ↔
      Fits width (literalOf text) := by
  rw [parseNumberToken_eq h hlength]
  exact Literal.parse_right_iff

/-- `0x1f` -/
theorem parseNumberToken_right_hex :
    NumberRight 8 (literalOf "0x1f".toList) (parseNumberToken 8 "0x1f".toList [')']) :=
  (parseNumberToken_right_iff 8 "0x1f)".toList "0x1f".toList [')'] (by decide) (by decide)).mpr
    (.inr ⟨by decide, fun x hx => .inl (by decide)⟩)

/-- `-1` is 15 in a byte. -/
theorem not_parseNumberToken_right : lexNumber "-1)".toList = some ("-1".toList, [')']) ∧
    parseNumberToken 8 "-1".toList [')'] = .constant 15 ∧
    ¬ NumberRight 8 (literalOf "-1".toList) (parseNumberToken 8 "-1".toList [')']) := by
  have hparse : parseNumberToken 8 "-1".toList [')'] = .constant 15 := by decide
  refine ⟨by decide, hparse, fun hright => ?_⟩
  rw [hparse] at hright
  obtain ⟨x, hx, hvalue⟩ := hright
  have hminus : (literalOf "-1".toList).value = some (-1) := by decide
  obtain rfl := Option.some.inj (hx.symm.trans hminus)
  exact absurd hvalue (by decide)

end Token

end Klee.Parser
