import Mathlib.Logic.Relation
import Mathlib.Tactic

/-! Chains of pointers, one out of each node, and what becomes of them when nodes are redirected. -/
namespace Redirect

open Relation

variable {α : Type*} {g : α → Option α} {a b c f r x : α} {ms : List α}

section Chains

/-- `b` comes after `a` on the chain. -/
def Reaches (g : α → Option α) : α → α → Prop := ReflTransGen fun a b => g a = some b

/-- The chain of `a` ends at `f`. -/
def Resolves (g : α → Option α) (a f : α) : Prop := Reaches g a f ∧ g f = none

def Acyclic (g : α → Option α) : Prop := ∃ rank : α → Nat, ∀ a b, g a = some b → rank b < rank a

def HasCycle (g : α → Option α) : Prop := ∃ a, TransGen (fun a b => g a = some b) a a

theorem next_unique (g : α → Option α) : Relator.RightUnique fun a b => g a = some b :=
  fun _ _ _ hb hc => Option.some.inj (hb.symm.trans hc)

theorem Reaches.total (hb : Reaches g a b) (hc : Reaches g a c) : Reaches g b c ∨ Reaches g c b :=
  ReflTransGen.total_of_right_unique (next_unique g) hb hc

theorem eq_of_reaches_end (h : Reaches g f b) (hf : g f = none) : b = f := by
  rcases h.cases_head with rfl | ⟨c, hc, -⟩
  · rfl
  · rw [hf] at hc
    cases hc

/-- A node resolves as the ones that come after it. -/
theorem resolves_iff_of_reaches (h : Reaches g a b) : Resolves g a x ↔ Resolves g b x := by
  refine ⟨fun ⟨hax, hx⟩ => ⟨?_, hx⟩, fun ⟨hbx, hx⟩ => ⟨h.trans hbx, hx⟩⟩
  rcases h.total hax with hbx | hxb
  · exact hbx
  · rw [eq_of_reaches_end hxb hx]
    exact .refl

theorem Acyclic.not_hasCycle (h : Acyclic g) : ¬ HasCycle g := by
  obtain ⟨rank, hrank⟩ := h
  rintro ⟨a, ha⟩
  have hlt : ∀ {b}, TransGen (fun a b => g a = some b) a b → rank b < rank a := by
    intro b hb
    induction hb with
    | single hstep => exact hrank _ _ hstep
    | tail _ hstep ih => exact (hrank _ _ hstep).trans ih
  exact lt_irrefl _ (hlt ha)

/-- What comes after a node of a cycle is on a cycle. -/
theorem cycle_of_reaches (ha : TransGen (fun a b => g a = some b) a a) (h : Reaches g a b) :
    TransGen (fun a b => g a = some b) b b := by
  induction h with
  | refl => exact ha
  | tail _ hstep ih =>
    obtain ⟨d, hd, hrest⟩ := TransGen.head'_iff.mp ih
    obtain rfl := next_unique g hd hstep
    exact TransGen.tail' hrest hstep

theorem not_cycle_of_resolves (h : Resolves g a f) :
    ¬ TransGen (fun a b => g a = some b) a a := by
  intro ha
  obtain ⟨d, hd, -⟩ := TransGen.head'_iff.mp (cycle_of_reaches ha h.1)
  rw [h.2] at hd
  cases hd

end Chains

section Redirect

variable [DecidableEq α]

/-- The nodes `ms` point to `r` from now on. -/
def redirect (g : α → Option α) (ms : List α) (r : α) (a : α) : Option α :=
  if a ∈ ms then some r else g a

theorem redirect_of_notMem (h : a ∉ ms) : redirect g ms r a = g a := if_neg h

theorem redirect_of_mem (h : a ∈ ms) : redirect g ms r a = some r := if_pos h

theorem redirect_nil (g : α → Option α) (r : α) : redirect g [] r = g := by
  funext a
  exact redirect_of_notMem List.not_mem_nil

/-- One node after the other -/
theorem redirect_cons (g : α → Option α) (m : α) (ms : List α) (r : α) :
    redirect g (m :: ms) r = redirect (redirect g [m] r) ms r := by
  funext a
  simp only [redirect, List.mem_cons, List.not_mem_nil, or_false]
  split_ifs <;> simp_all

/-- A chain without a redirected node stays. -/
theorem reaches_redirect_iff (h : ∀ m ∈ ms, ¬ Reaches g a m) :
    Reaches (redirect g ms r) a b ↔ Reaches g a b := by
  constructor
  · intro hab
    induction hab with
    | refl => exact .refl
    | @tail c d _ hstep ih =>
      have hc : c ∉ ms := fun hmem => h c hmem ih
      exact ih.tail ((redirect_of_notMem hc).symm.trans hstep)
  · intro hab
    induction hab with
    | refl => exact .refl
    | @tail c d hac hstep ih =>
      have hc : c ∉ ms := fun hmem => h c hmem hac
      exact ih.tail ((redirect_of_notMem hc).trans hstep)

/-- A chain gets to the first redirected node as before. -/
theorem exists_reaches_redirect {m : α} (h : Reaches g a m) (hm : m ∈ ms) :
    ∃ m' ∈ ms, Reaches (redirect g ms r) a m' := by
  induction h using ReflTransGen.head_induction_on with
  | refl => exact ⟨m, hm, .refl⟩
  | @head a b hstep _ ih =>
    by_cases ha : a ∈ ms
    · exact ⟨a, ha, .refl⟩
    · obtain ⟨m', hm', hb⟩ := ih
      exact ⟨m', hm', hb.head ((redirect_of_notMem ha).trans hstep)⟩

theorem acyclic_redirect (hg : Acyclic g) (h : ∀ m ∈ ms, ¬ Reaches g r m) :
    Acyclic (redirect g ms r) := by
  classical
  obtain ⟨rank, hrank⟩ := hg
  have hr : ∀ m ∈ ms, ¬ Reaches (redirect g ms r) r m := fun m hm hreach =>
    h m hm ((reaches_redirect_iff h).mp hreach)
  -- what gets to a redirected node is put above `r`
  refine ⟨fun a => rank a + if ∃ m ∈ ms, Reaches (redirect g ms r) a m then rank r + 1 else 0,
    fun a b hab => ?_⟩
  by_cases ha : a ∈ ms
  · obtain rfl : r = b := Option.some.inj ((redirect_of_mem ha).symm.trans hab)
    have hbelow : ¬ ∃ m ∈ ms, Reaches (redirect g ms r) r m := fun ⟨m, hm, hreach⟩ =>
      hr m hm hreach
    have habove : ∃ m ∈ ms, Reaches (redirect g ms r) a m := ⟨a, ha, .refl⟩
    dsimp only
    rw [if_neg hbelow, if_pos habove]
    omega
  · have hlt := hrank a b ((redirect_of_notMem ha).symm.trans hab)
    have hiff : (∃ m ∈ ms, Reaches (redirect g ms r) a m) ↔
        ∃ m ∈ ms, Reaches (redirect g ms r) b m := by
      refine exists_congr fun m => and_congr_right fun hm => ⟨fun hreach => ?_, .head hab⟩
      rcases hreach.cases_head with rfl | ⟨c, hc, hrest⟩
      · exact absurd hm ha
      · rwa [next_unique _ hab hc]
    simp only [hiff]
    omega

theorem hasCycle_redirect {m : α} (hm : m ∈ ms) (h : Reaches g r m) :
    HasCycle (redirect g ms r) := by
  obtain ⟨m', hm', hreach⟩ := exists_reaches_redirect h hm
  exact ⟨r, TransGen.tail' hreach (redirect_of_mem hm')⟩

/-- A cycle is not broken by redirecting nodes that resolve. -/
theorem HasCycle.redirect (hg : HasCycle g) (h : ∀ m ∈ ms, ∃ f, Resolves g m f) :
    HasCycle (redirect g ms r) := by
  obtain ⟨a, ha⟩ := hg
  have hout : ∀ m ∈ ms, ¬ Reaches g a m := by
    intro m hm hreach
    obtain ⟨f, hf⟩ := h m hm
    exact not_cycle_of_resolves hf (cycle_of_reaches ha hreach)
  obtain ⟨b, hab, hba⟩ := TransGen.head'_iff.mp ha
  have ha' : a ∉ ms := fun hmem => hout a hmem .refl
  have hout' : ∀ m ∈ ms, ¬ Reaches g b m := fun m hm hreach => hout m hm (hreach.head hab)
  exact ⟨a, TransGen.head' ((redirect_of_notMem ha').trans hab)
    ((reaches_redirect_iff hout').mpr hba)⟩

end Redirect

section Runs

variable [DecidableEq α] {steps later : List (List α × α)}

def redirects (g : α → Option α) : List (List α × α) → α → Option α
  | [] => g
  | (ms, r) :: steps => redirects (redirect g ms r) steps

def sources (steps : List (List α × α)) : List α := steps.flatMap Prod.fst

def Apart (g : α → Option α) : List (List α × α) → Prop
  | [] => True
  | (ms, r) :: steps => (∀ m ∈ ms, ¬ Reaches g r m) ∧ Apart (redirect g ms r) steps

theorem redirects_append (g : α → Option α) (steps later : List (List α × α)) :
    redirects g (steps ++ later) = redirects (redirects g steps) later := by
  induction steps generalizing g with
  | nil => rfl
  | cons step steps ih => exact ih _

theorem redirects_of_notMem (h : a ∉ sources steps) : redirects g steps a = g a := by
  induction steps generalizing g with
  | nil => rfl
  | cons step steps ih =>
    rw [sources, List.flatMap_cons, List.mem_append, not_or] at h
    exact (ih h.2).trans (redirect_of_notMem h.1)

theorem acyclic_redirects (hg : Acyclic g) (h : Apart g steps) : Acyclic (redirects g steps) := by
  induction steps generalizing g with
  | nil => exact hg
  | cons step steps ih => exact ih (acyclic_redirect hg h.1) h.2

theorem Apart.split {before after : List (List α × α)}
    (h : Apart g (before ++ (ms, r) :: after)) : ∀ m ∈ ms, ¬ Reaches (redirects g before) r m := by
  induction before generalizing g with
  | nil => exact h.1
  | cons step before ih => exact ih h.2

/-- `a` resolves in `g'` as `b` did in `g`, up to the nodes that were redirected since. -/
def ResolvesAs (g : α → Option α) (later : List (List α × α)) (g' : α → Option α) (a b : α) :
    Prop :=
  ∀ f, Resolves g b f → ∃ s, Reaches g b s ∧ (s = f ∨ s ∈ sources later) ∧
    ∀ x, Resolves g' a x ↔ Resolves g' s x

/-- The chain of `a` is followed to its end or to the first node that is redirected. -/
theorem resolvesAs_self (g : α → Option α) (later : List (List α × α)) (a : α) :
    ResolvesAs g later (redirects g later) a a := by
  rintro f ⟨hreach, hf⟩
  induction hreach using ReflTransGen.head_induction_on with
  | refl => exact ⟨f, .refl, .inl rfl, fun x => Iff.rfl⟩
  | @head a b hstep _ ih =>
    by_cases ha : a ∈ sources later
    · exact ⟨a, .refl, .inr ha, fun x => Iff.rfl⟩
    · obtain ⟨s, hbs, hs, hiff⟩ := ih
      have hnext : redirects g later a = some b := (redirects_of_notMem ha).trans hstep
      exact ⟨s, hbs.head hstep, hs, fun x =>
        (resolves_iff_of_reaches (.single hnext)).trans (hiff x)⟩

/-- A node that is redirected for the last time resolves as the target does. -/
theorem resolvesAs_target {before after : List (List α × α)} {m : α}
    (h : Apart g (before ++ (ms, r) :: after)) (hm : m ∈ ms) (hlast : m ∉ sources after) :
    ResolvesAs (redirects g before) after (redirects g (before ++ (ms, r) :: after)) m r := by
  have hapart := h.split
  rintro f ⟨hreach, hf⟩
  have hfms : f ∉ ms := fun hmem => hapart f hmem hreach
  have hstepped : Resolves (redirect (redirects g before) ms r) r f :=
    ⟨(reaches_redirect_iff hapart).mpr hreach, (redirect_of_notMem hfms).trans hf⟩
  obtain ⟨s, hrs, hs, hiff⟩ := resolvesAs_self _ after r f hstepped
  refine ⟨s, (reaches_redirect_iff hapart).mp hrs, hs, fun x => ?_⟩
  rw [redirects_append, redirects]
  have hnext : redirects (redirect (redirects g before) ms r) after m = some r :=
    (redirects_of_notMem hlast).trans (redirect_of_mem hm)
  exact (resolves_iff_of_reaches (.single hnext)).trans (hiff x)

end Runs

end Redirect
