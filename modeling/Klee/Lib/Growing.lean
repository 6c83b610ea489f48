import Mathlib.Tactic

/-! Programs that only add to their state. An interpretation that explains what is in a later
state explains what was in the earlier ones, so what a program says of its result under the
interpretations of its last state is never taken back. -/
namespace Growing

/-- What holds of every state, and when an interpretation explains a state. -/
structure Setting (σ ι : Type) where
  Inv : σ → Prop
  Fits : ι → σ → Prop

namespace Setting

variable {σ ι α β κ : Type} {S : Setting σ ι} {x : StateT σ Option α}
  {f : α → StateT σ Option β} {P P' : α → Prop} {Q Q' : ι → α → Prop} {R : β → Prop}
  {T : ι → β → Prop}

/-- A program runs on from where the first part ends. -/
theorem run_bind {s s' : σ} {a : α} (h : x s = some (a, s')) : (x >>= f) s = f a s' := by
  change (x s).bind (fun r => f r.1 r.2) = _
  rw [h, Option.bind_some]

/-- From every state `x` ends with a result that meets `P`, and `Q` under each interpretation
of the state it leaves. -/
def Runs (S : Setting σ ι) (x : StateT σ Option α) (P : α → Prop) (Q : ι → α → Prop) : Prop :=
  ∀ s, S.Inv s → ∃ a s', x s = some (a, s') ∧ S.Inv s' ∧ (∀ i, S.Fits i s' → S.Fits i s) ∧
    P a ∧ ∀ i, S.Fits i s' → Q i a

theorem runs_pure {a : α} (hP : P a) (hQ : ∀ i, Q i a) :
    S.Runs (pure a : StateT σ Option α) P Q :=
  fun s hs => ⟨a, s, rfl, hs, fun _ h => h, hP, fun i _ => hQ i⟩

/-- What the first program says of its result is still true when the second one has ended. -/
theorem Runs.bind (hx : S.Runs x P Q)
    (hf : ∀ a, P a → S.Runs (f a) R fun i b => Q i a → T i b) :
    S.Runs (x >>= f) R T := by
  intro s hs
  obtain ⟨a, s₁, hrun, hs₁, hfits, hP, hQ⟩ := hx s hs
  obtain ⟨b, s₂, hrun', hs₂, hfits', hR, hT⟩ := hf a hP s₁ hs₁
  exact ⟨b, s₂, (run_bind hrun).trans hrun', hs₂, fun i hi => hfits i (hfits' i hi), hR,
    fun i hi => hT i hi (hQ i (hfits' i hi))⟩

theorem Runs.weaken (hx : S.Runs x P Q) (hP : ∀ a, P a → P' a)
    (hQ : ∀ i a, P a → Q i a → Q' i a) : S.Runs x P' Q' := by
  intro s hs
  obtain ⟨a, s', hrun, hs', hfits, ha, hQa⟩ := hx s hs
  exact ⟨a, s', hrun, hs', hfits, hP a ha, fun i hi => hQ i a ha (hQa i hi)⟩

theorem Runs.map {g : α → β} (hx : S.Runs x P Q) (hR : ∀ a, P a → R (g a))
    (hT : ∀ i a, P a → Q i a → T i (g a)) : S.Runs (g <$> x) R T := by
  rw [map_eq_pure_bind]
  exact hx.bind fun a ha => runs_pure (hR a ha) fun i hQ => hT i a ha hQ

theorem runs_ite {c : Prop} [Decidable c] {y : StateT σ Option α} (hx : c → S.Runs x P Q)
    (hy : ¬ c → S.Runs y P Q) : S.Runs (if c then x else y) P Q := by
  by_cases hc : c
  · rw [if_pos hc]
    exact hx hc
  · rw [if_neg hc]
    exact hy hc

/-- What is built of every element is still true of all of them in the end. -/
theorem runs_mapM {f : κ → StateT σ Option α} {P : κ → α → Prop} {Q : ι → κ → α → Prop}
    {l : List κ} (h : ∀ k ∈ l, S.Runs (f k) (P k) fun i => Q i k) :
    S.Runs (l.mapM f) (List.Forall₂ P l) fun i => List.Forall₂ (Q i) l := by
  induction l with
  | nil => exact runs_pure .nil fun _ => .nil
  | cons k l ih =>
    rw [List.mapM_cons]
    refine (h k List.mem_cons_self).bind fun a ha => ?_
    refine (ih fun k' hk' => h k' (List.mem_cons_of_mem k hk')).bind fun as has => ?_
    exact runs_pure (.cons ha has) fun i has ha => .cons ha has

section Failing

def ofOption (o : Option α) : StateT σ Option α := fun s => o.map (·, s)

theorem runs_ofOption {o : Option α} {a : α} (ho : o = some a) (hP : P a) (hQ : ∀ i, Q i a) :
    S.Runs (ofOption o) P Q :=
  fun s hs =>
    ⟨a, s, by rw [ofOption, ho, Option.map_some], hs, fun _ h => h, hP, fun i _ => hQ i⟩

/-- The program ends where `p` fails. -/
def require (p : Prop) [Decidable p] : StateT σ Option Unit :=
  ofOption (if p then some () else none)

theorem runs_ofOption_bind {o : Option α} {a : α} {f : α → StateT σ Option β} (ho : o = some a)
    (h : S.Runs (f a) R T) : S.Runs (ofOption o >>= f) R T :=
  (runs_ofOption (P := fun b => b = a) (Q := fun _ _ => True) ho rfl fun _ => trivial).bind
    fun _ hb => (hb ▸ h).weaken (fun _ hR => hR) fun _ _ _ hT _ => hT

theorem runs_require_bind {p : Prop} [Decidable p] {f : Unit → StateT σ Option β} (hp : p)
    (h : S.Runs (f ()) R T) : S.Runs (require p >>= f) R T :=
  runs_ofOption_bind (if_pos hp) h

end Failing

section Memo

variable [BEq κ]

def memo (table : σ → List (κ × α)) (add : κ → α → σ → σ) (key : κ) (x : StateT σ Option α) :
    StateT σ Option α := do
  match (table (← get)).lookup key with
  | some a => return a
  | none =>
    let a ← x
    modify (add key a)
    return a

theorem Runs.memo {table : σ → List (κ × α)} {add : κ → α → σ → σ} {key : κ}
    (hx : S.Runs x P Q)
    (hfound : ∀ s a, S.Inv s → (table s).lookup key = some a →
      P a ∧ ∀ i, S.Fits i s → Q i a)
    (hadd : ∀ s a, S.Inv s → P a → (∀ i, S.Fits i s → Q i a) →
      S.Inv (add key a s) ∧ ∀ i, S.Fits i (add key a s) ↔ S.Fits i s) :
    S.Runs (memo table add key x) P Q := by
  intro s hs
  have hmemo : Setting.memo table add key x s = match (table s).lookup key with
      | some a => some (a, s)
      | none => (x s).bind fun r => some (r.1, add key r.1 r.2) := by
    unfold Setting.memo
    change (match (table s).lookup key with
      | some a => (pure a : StateT σ Option α)
      | none => x >>= fun a => modify (add key a) >>= fun _ => pure a) s = _
    cases (table s).lookup key with
    | some a => rfl
    | none => rfl
  cases h : (table s).lookup key with
  | some a =>
    rw [h] at hmemo
    obtain ⟨hP, hQ⟩ := hfound s a hs h
    exact ⟨a, s, hmemo, hs, fun _ hi => hi, hP, hQ⟩
  | none =>
    rw [h] at hmemo
    obtain ⟨a, s', hrun, hs', hfits, hP, hQ⟩ := hx s hs
    obtain ⟨hinv, hiff⟩ := hadd s' a hs' hP hQ
    refine ⟨a, add key a s', ?_, hinv, fun i hi => hfits i ((hiff i).mp hi), hP,
      fun i hi => hQ i ((hiff i).mp hi)⟩
    rw [hmemo, hrun]
    rfl

end Memo

end Setting

end Growing
