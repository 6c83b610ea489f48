import Mathlib.Tactic

/-! Programs that are given a number of steps: what they end with when that is enough. -/
namespace Fuel

variable {α β : Type} {f g : Nat → Option α} {a b : α}

/-- With enough fuel, `f` ends with `a`. -/
def Ends (f : Nat → Option α) (a : α) : Prop := ∃ n, ∀ m ≥ n, f m = some a

theorem ends_some : Ends (fun _ => some a) a := ⟨0, fun _ _ => rfl⟩

/-- A program ends in one way. -/
theorem Ends.unique (ha : Ends f a) (hb : Ends f b) : a = b := by
  obtain ⟨n, hn⟩ := ha
  obtain ⟨m, hm⟩ := hb
  have heq := (hn (max n m) (le_max_left n m)).symm.trans (hm (max n m) (le_max_right n m))
  exact Option.some.inj heq

theorem Ends.bind {k : Nat → α → Option β} {b : β} (hf : Ends f a)
    (hk : Ends (fun n => k n a) b) : Ends (fun n => (f n).bind (k n)) b := by
  obtain ⟨n, hn⟩ := hf
  obtain ⟨m, hm⟩ := hk
  refine ⟨max n m, fun i hi => ?_⟩
  have hfi := hn i (le_trans (le_max_left n m) hi)
  have hki := hm i (le_trans (le_max_right n m) hi)
  simpa only [hfi, Option.bind_some] using hki

/-- One step of fuel is spent. -/
theorem Ends.of_succ (hg : Ends g a) (h : ∀ n, f (n + 1) = g n) : Ends f a := by
  obtain ⟨n, hn⟩ := hg
  refine ⟨n + 1, fun m hm => ?_⟩
  obtain ⟨k, rfl⟩ : ∃ k, m = k + 1 := ⟨m - 1, by omega⟩
  rw [h]
  exact hn k (by omega)

end Fuel
