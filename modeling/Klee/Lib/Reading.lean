import Mathlib.Tactic

/-! Readers of a list that take from its front. A reader may fail in several ways; `short` is the
failure that more input can mend. -/
namespace Reading

universe u

/-- A reader of tokens `τ` that may fail with `ε`. -/
abbrev Reader (τ ε : Type u) := StateT (List τ) (Except ε)

variable {τ ε α β : Type u} {short : ε}

/-- More input changes nothing but what is left over, except where the input was too short. -/
structure Local (short : ε) (r : Reader τ ε α) : Prop where
  ok : ∀ {xs a rest}, r.run xs = .ok (a, rest) → ∀ ys, r.run (xs ++ ys) = .ok (a, rest ++ ys)
  error : ∀ {xs e}, r.run xs = .error e → e ≠ short → ∀ ys, r.run (xs ++ ys) = .error e

/-- The first `n` tokens; there is at least one. -/
def take (short : ε) (n : Nat) : Reader τ ε { l : List τ // l.length = n } := fun xs =>
  if h : n = 0 ∨ xs.length < n then .error short
  else .ok (⟨xs.take n, by
    rw [List.length_take]
    omega⟩, xs.drop n)

/-- `n` readings in a row. -/
def many (r : Reader τ ε α) : (n : Nat) → Reader τ ε { l : List α // l.length = n }
  | 0 => pure ⟨[], rfl⟩
  | n + 1 => do
    let a ← r
    let l ← many r n
    return ⟨a :: l.1, by rw [List.length_cons, l.2]⟩

theorem bind_run (r : Reader τ ε α) (f : α → Reader τ ε β) (xs : List τ) :
    (r >>= f).run xs = (r.run xs).bind fun p => (f p.1).run p.2 := rfl

theorem local_pure (a : α) : Local short (pure a : Reader τ ε α) where
  ok h ys := by
    cases h
    rfl
  error h := by cases h

theorem local_throw (e : ε) : Local short (throw e : Reader τ ε α) where
  ok h := by cases h
  error h _ ys := by
    cases h
    rfl

theorem Local.bind {r : Reader τ ε α} {f : α → Reader τ ε β} (hr : Local short r)
    (hf : ∀ a, Local short (f a)) : Local short (r >>= f) where
  ok {xs b rest} h ys := by
    rw [bind_run] at h ⊢
    cases hrun : r.run xs with
    | error e =>
      rw [hrun] at h
      cases h
    | ok p =>
      rw [hrun] at h
      rw [hr.ok hrun]
      exact (hf p.1).ok h ys
  error {xs e} h hne ys := by
    rw [bind_run] at h ⊢
    cases hrun : r.run xs with
    | error e' =>
      rw [hrun] at h
      cases h
      rw [hr.error hrun hne]
      rfl
    | ok p =>
      rw [hrun] at h
      rw [hr.ok hrun]
      exact (hf p.1).error h hne ys

theorem take_of_le {n : Nat} {xs : List τ} (hn : n ≠ 0) (h : n ≤ xs.length) :
    (take short n).run xs = .ok (⟨xs.take n, List.length_take_of_le h⟩, xs.drop n) :=
  dif_neg (by omega)

theorem take_of_lt {n : Nat} {xs : List τ} (h : n = 0 ∨ xs.length < n) :
    (take short n).run xs = .error short :=
  dif_pos h

theorem local_take (n : Nat) :
    Local short (take short n : Reader τ ε { l : List τ // l.length = n }) where
  ok {xs a rest} h ys := by
    by_cases hn : n = 0 ∨ xs.length < n
    · rw [take_of_lt hn] at h
      cases h
    · rw [not_or, not_lt] at hn
      rw [take_of_le hn.1 hn.2] at h
      cases h
      rw [take_of_le hn.1 (by rw [List.length_append]; omega)]
      simp only [List.take_append_of_le_length hn.2, List.drop_append_of_le_length hn.2]
  error {xs e} h hne := by
    by_cases hn : n = 0 ∨ xs.length < n
    · rw [take_of_lt hn] at h
      cases h
      exact absurd rfl hne
    · rw [not_or, not_lt] at hn
      rw [take_of_le hn.1 hn.2] at h
      cases h

theorem local_many {r : Reader τ ε α} (hr : Local short r) (n : Nat) : Local short (many r n) := by
  induction n with
  | zero => exact local_pure _
  | succ n ih => exact hr.bind fun a => ih.bind fun l => local_pure _

/-- The reader takes `xs` from the front, for `a`. -/
def Reads (r : Reader τ ε α) (xs : List τ) (a : α) : Prop :=
  ∀ rest, r.run (xs ++ rest) = .ok (a, rest)

theorem reads_pure (a : α) : Reads (pure a : Reader τ ε α) [] a := fun _ => rfl

theorem Reads.bind {r : Reader τ ε α} {f : α → Reader τ ε β} {xs ys : List τ} {a : α} {b : β}
    (hr : Reads r xs a) (hf : Reads (f a) ys b) : Reads (r >>= f) (xs ++ ys) b := fun rest => by
  rw [bind_run, List.append_assoc, hr]
  exact hf rest

/-- A step that takes nothing. -/
theorem Reads.nil_bind {r : Reader τ ε α} {f : α → Reader τ ε β} {xs : List τ} {a : α} {b : β}
    (hr : Reads r [] a) (hf : Reads (f a) xs b) : Reads (r >>= f) xs b := hr.bind hf

theorem Reads.bind_pure {r : Reader τ ε α} {xs : List τ} {a : α} {f : α → Reader τ ε β} {b : β}
    (hr : Reads r xs a) (hf : f a = pure b) : Reads (r >>= f) xs b := by
  rw [← List.append_nil xs]
  exact hr.bind (hf ▸ reads_pure b)

theorem reads_take {xs : List τ} (hne : xs ≠ []) {n : Nat} (hn : xs.length = n) :
    Reads (take short n : Reader τ ε _) xs ⟨xs, hn⟩ := fun rest => by
  subst hn
  rw [take_of_le (mt List.length_eq_zero_iff.mp hne) (by rw [List.length_append]; omega)]
  simp only [List.take_left, List.drop_left]

/-- Where the reader succeeds on what begins with `xs`, it takes `xs` for a value with `Q`. -/
def Yields (r : Reader τ ε α) (xs : List τ) (Q : α → Prop) : Prop :=
  ∀ rest a rest', r.run (xs ++ rest) = .ok (a, rest') → Q a ∧ rest' = rest

theorem Reads.yields {r : Reader τ ε α} {xs : List τ} {a : α} (hr : Reads r xs a) :
    Yields r xs (· = a) := fun rest a' rest' h => by
  rw [hr] at h
  cases h
  exact ⟨rfl, rfl⟩

theorem Yields.mono {r : Reader τ ε α} {xs : List τ} {Q R : α → Prop} (hr : Yields r xs Q)
    (h : ∀ a, Q a → R a) : Yields r xs R := fun rest a rest' hrun =>
  ⟨h a (hr rest a rest' hrun).1, (hr rest a rest' hrun).2⟩

theorem Yields.bind {r : Reader τ ε α} {f : α → Reader τ ε β} {xs ys : List τ} {Q : α → Prop}
    {R : β → Prop} (hr : Yields r xs Q) (hf : ∀ a, Q a → Yields (f a) ys R) :
    Yields (r >>= f) (xs ++ ys) R := fun rest b rest' h => by
  rw [bind_run, List.append_assoc] at h
  cases hrun : r.run (xs ++ (ys ++ rest)) with
  | error e =>
    rw [hrun] at h
    cases h
  | ok p =>
    obtain ⟨hQ, hrest⟩ := hr _ _ _ hrun
    rw [hrun] at h
    change (f p.1).run p.2 = _ at h
    rw [hrest] at h
    exact hf p.1 hQ rest b rest' h

theorem Yields.nil_bind {r : Reader τ ε α} {f : α → Reader τ ε β} {xs : List τ} {Q : α → Prop}
    {R : β → Prop} (hr : Yields r [] Q) (hf : ∀ a, Q a → Yields (f a) xs R) :
    Yields (r >>= f) xs R := hr.bind hf

theorem Yields.bind_pure {r : Reader τ ε α} {f : α → Reader τ ε β} {g : α → β} {xs : List τ}
    {Q : α → Prop} (hr : Yields r xs Q) (hf : ∀ a, f a = pure (g a)) :
    Yields (r >>= f) xs fun b => ∃ a, Q a ∧ g a = b := by
  rw [← List.append_nil xs]
  refine hr.bind fun a hQ => ?_
  rw [hf]
  exact (reads_pure (g a)).yields.mono fun b hb => ⟨a, hQ, hb.symm⟩

/-- Where the whole input is read, each shorter beginning of it is too short. -/
theorem Local.error_of_prefix {r : Reader τ ε α} (hr : Local short r) {xs p : List τ} {a : α}
    (h : r.run xs = .ok (a, [])) (hp : p <+: xs) (hne : p ≠ xs) : r.run p = .error short := by
  obtain ⟨ys, rfl⟩ := hp
  cases hrun : r.run p with
  | ok q =>
    have hq := hr.ok hrun ys
    rw [h] at hq
    obtain ⟨-, hrest⟩ := Prod.mk.inj (Except.ok.inj hq)
    have hys : ys = [] := (List.append_eq_nil_iff.mp hrest.symm).2
    exact absurd (by rw [hys, List.append_nil]) hne
  | error e =>
    by_cases he : e = short
    · rw [he]
    · rw [hr.error hrun he] at h
      cases h

end Reading
