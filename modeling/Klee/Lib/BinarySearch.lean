import Mathlib.Order.Bounds.Basic

/-! Bisection for the least number with a monotone property, by an oracle that may fail. -/
namespace BinarySearch

/-- The loop `while (lo < hi)` over the window from `lo` to `hi`. -/
def search (ask : Nat → Option Bool) (lo hi : Nat) : Option Nat :=
  if lo < hi then
    let mid := lo + (hi - lo) / 2
    match ask mid with
    | none => none
    | some true => search ask lo mid
    | some false => search ask (mid + 1) hi
  else some lo
termination_by hi - lo

/-- The oracle decides `P` at every number of the window. -/
def Decides (ask : Nat → Option Bool) (P : Nat → Prop) (lo hi : Nat) : Prop :=
  ∀ m, lo ≤ m → m < hi → ∃ b, ask m = some b ∧ (b = true ↔ P m)

variable {ask : Nat → Option Bool} {P : Nat → Prop} {lo hi : Nat}

theorem Decides.mono {lo' hi' : Nat} (h : Decides ask P lo hi) (hlo : lo ≤ lo') (hhi : hi' ≤ hi) :
    Decides ask P lo' hi' :=
  fun m hl hh => h m (hlo.trans hl) (hh.trans_le hhi)

/-- A window whose upper end has the monotone property is narrowed to the least number that
has it. Every probe is below `hi`. -/
theorem search_isLeast (hask : Decides ask P lo hi) (hmono : Monotone P) (hle : lo ≤ hi)
    (hhi : P hi) : ∃ k, search ask lo hi = some k ∧ IsLeast {m | lo ≤ m ∧ P m} k := by
  fun_induction search ask lo hi with
  | case1 lo hi hlt mid hnone =>
    obtain ⟨b, hb, -⟩ := hask mid (by omega) (by omega)
    rw [hb] at hnone
    cases hnone
  | case2 lo hi hlt mid htrue ih =>
    obtain ⟨b, hb, hP⟩ := hask mid (by omega) (by omega)
    obtain rfl : b = true := Option.some.inj (hb.symm.trans htrue)
    exact ih (hask.mono le_rfl (by omega)) (by omega) (hP.mp rfl)
  | case3 lo hi hlt mid hfalse ih =>
    obtain ⟨b, hb, hP⟩ := hask mid (by omega) (by omega)
    obtain rfl : b = false := Option.some.inj (hb.symm.trans hfalse)
    have hnot : ¬ P mid := fun h => by cases hP.mpr h
    obtain ⟨k, hk, ⟨hlow, hPk⟩, hleast⟩ := ih (hask.mono (by omega) le_rfl) (by omega) hhi
    refine ⟨k, hk, ⟨by omega, hPk⟩, fun m ⟨hm, hPm⟩ => hleast ⟨?_, hPm⟩⟩
    -- a number up to `mid` with the property would give it to `mid`
    by_contra hlt'
    exact hnot (hmono (by omega : m ≤ mid) hPm)
  | case4 lo hi hlt =>
    obtain rfl : lo = hi := by omega
    exact ⟨lo, rfl, ⟨le_rfl, hhi⟩, fun m hm => hm.1⟩

section Sets

variable {S : Set Nat} {k : Nat}

/-- The least number with an element of `S` below it is the least element. -/
theorem isLeast_of_isLeast_le (h : IsLeast {m | lo ≤ m ∧ ∃ v ∈ S, v ≤ m} k)
    (hlo : ∀ v ∈ S, lo ≤ v) : IsLeast S k := by
  obtain ⟨⟨hk, v, hv, hvk⟩, hleast⟩ := h
  have hbelow : ∀ u ∈ S, k ≤ u := fun u hu => hleast ⟨hlo u hu, u, hu, le_rfl⟩
  obtain rfl : v = k := le_antisymm hvk (hbelow v hv)
  exact ⟨hv, hbelow⟩

/-- The least upper bound from an element of `S` on is the greatest element. -/
theorem isGreatest_of_isLeast_ge (h : IsLeast {m | lo ≤ m ∧ ∀ v ∈ S, v ≤ m} k)
    (hlo : lo ∈ S) : IsGreatest S k := by
  obtain ⟨⟨hk, hbound⟩, hleast⟩ := h
  refine ⟨?_, fun v hv => hbound v hv⟩
  by_contra hnot
  -- without `k` in the set `k - 1` is a bound too
  have hlt : ∀ v ∈ S, v < k := fun v hv =>
    lt_of_le_of_ne (hbound v hv) fun he => hnot (he ▸ hv)
  have hlok : lo < k := hlt lo hlo
  have hpred : k ≤ k - 1 := hleast ⟨by omega, fun v hv => by have := hlt v hv; omega⟩
  omega

end Sets

end BinarySearch
