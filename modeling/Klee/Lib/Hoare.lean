import Mathlib.Tactic

/-! Pre- and postconditions for programs with a state and errors. -/
namespace Hoare

universe u

variable {σ ε α β : Type}

/-- From a state that meets `P`, `x` ends with a result and a state that meet `Q`, or with
an error that meets `E`. -/
def Triple (P : σ → Prop) (x : StateT σ (Except ε) α) (Q : α → σ → Prop) (E : ε → Prop) : Prop :=
  ∀ s, P s → match x s with
    | .ok (a, s') => Q a s'
    | .error e => E e

variable {P P' : σ → Prop} {Q Q' : α → σ → Prop} {E E' : ε → Prop}

theorem triple_pure {a : α} (h : ∀ s, P s → Q a s) :
    Triple P (pure a : StateT σ (Except ε) α) Q E := h

theorem triple_throw {e : ε} (h : E e) :
    Triple P (throw e : StateT σ (Except ε) α) Q E := fun _ _ => h

/-- After `get`, the program runs from the state it was given. -/
theorem triple_get_bind {R : β → σ → Prop} {f : σ → StateT σ (Except ε) β}
    (h : ∀ s, P s → Triple (· = s) (f s) R E) :
    Triple P (get >>= f : StateT σ (Except ε) β) R E := fun s hs => h s hs s rfl

theorem triple_set {R : Unit → σ → Prop} {s' : σ} (h : ∀ s, P s → R () s') :
    Triple P (set s' : StateT σ (Except ε) Unit) R E := h

theorem triple_modify {R : Unit → σ → Prop} {f : σ → σ} (h : ∀ s, P s → R () (f s)) :
    Triple P (modify f : StateT σ (Except ε) Unit) R E := h

theorem Triple.bind {R : β → σ → Prop} {x : StateT σ (Except ε) α}
    {f : α → StateT σ (Except ε) β} (hx : Triple P x Q E) (hf : ∀ a, Triple (Q a) (f a) R E) :
    Triple P (x >>= f) R E := by
  intro s hs
  have hxs := hx s hs
  show match (x s >>= fun r => f r.1 r.2 : Except ε (β × σ)) with
    | .ok (b, s') => R b s'
    | .error e => E e
  cases hr : x s with
  | error e =>
    rw [hr] at hxs
    exact hxs
  | ok r =>
    rw [hr] at hxs
    exact hf r.1 r.2 hxs

theorem Triple.weaken {x : StateT σ (Except ε) α} (h : Triple P x Q E)
    (hP : ∀ s, P' s → P s) (hQ : ∀ a s, Q a s → Q' a s) (hE : ∀ e, E e → E' e) :
    Triple P' x Q' E' := by
  intro s hs
  have h' := h s (hP s hs)
  cases hr : x s with
  | error e =>
    rw [hr] at h'
    exact hE e h'
  | ok r =>
    rw [hr] at h'
    exact hQ r.1 r.2 h'

theorem Triple.pre {x : StateT σ (Except ε) α} (h : Triple P x Q E) (hP : ∀ s, P' s → P s) :
    Triple P' x Q E := h.weaken hP (fun _ _ h => h) fun _ h => h

theorem Triple.post {x : StateT σ (Except ε) α} (h : Triple P x Q E)
    (hQ : ∀ a s, Q a s → Q' a s) : Triple P x Q' E := h.weaken (fun _ h => h) hQ fun _ h => h

theorem Triple.error {x : StateT σ (Except ε) α} (h : Triple P x Q E)
    (hE : ∀ e, E e → E' e) : Triple P x Q E' := h.weaken (fun _ h => h) (fun _ _ h => h) hE

/-- A fact of the precondition that does not depend on the state. -/
theorem triple_and {p : Prop} {x : StateT σ (Except ε) α} (h : p → Triple P x Q E) :
    Triple (fun s => P s ∧ p) x Q E := fun s hs => h hs.2 s hs.1

theorem triple_ite {c : Prop} [Decidable c] {x y : StateT σ (Except ε) α}
    (hx : c → Triple P x Q E) (hy : ¬ c → Triple P y Q E) :
    Triple P (if c then x else y) Q E := by
  by_cases hc : c
  · rw [if_pos hc]
    exact hx hc
  · rw [if_neg hc]
    exact hy hc

/-- A loop over consecutive numbers keeps what each round keeps. -/
theorem triple_forM_range' {f : Nat → StateT σ (Except ε) PUnit} {I : Nat → σ → Prop}
    (n k : Nat) (h : ∀ i, k ≤ i → i < k + n → Triple (I i) (f i) (fun _ => I (i + 1)) E) :
    Triple (I k) ((List.range' k n).forM f) (fun _ => I (k + n)) E := by
  induction n generalizing k with
  | zero => exact triple_pure fun _ hs => hs
  | succ n ih =>
    have hfirst := h k le_rfl (by omega)
    have hrest := ih (k + 1) fun i hk hi => h i (by omega) (by omega)
    rw [show k + 1 + n = k + (n + 1) by omega] at hrest
    exact hfirst.bind fun _ => hrest

theorem triple_forM_range {f : Nat → StateT σ (Except ε) PUnit} {I : Nat → σ → Prop} (n : Nat)
    (h : ∀ i < n, Triple (I i) (f i) (fun _ => I (i + 1)) E) :
    Triple (I 0) ((List.range n).forM f) (fun _ => I n) E := by
  have hloop := triple_forM_range' n 0 fun i _ hi => h i (by omega)
  rw [Nat.zero_add, ← List.range_eq_range'] at hloop
  exact hloop

theorem Triple.of_ok {x : StateT σ (Except ε) α} (h : Triple P x Q E) {s s' : σ} {a : α}
    (hs : P s) (hr : x s = .ok (a, s')) : Q a s' := by
  have hxs := h s hs
  rw [hr] at hxs
  exact hxs

theorem Triple.of_error {x : StateT σ (Except ε) α} (h : Triple P x Q E) {s : σ} {e : ε}
    (hs : P s) (hr : x s = .error e) : E e := by
  have hxs := h s hs
  rw [hr] at hxs
  exact hxs

section WeakestPrecondition

/-- The states from which `x` ends with a result and a state that meet `Q`, or with an error
that meets `E`. -/
def wp (x : StateT σ (Except ε) α) (Q : α → σ → Prop) (E : ε → Prop) (s : σ) : Prop :=
  match x s with
  | .ok (a, s') => Q a s'
  | .error e => E e

variable {x : StateT σ (Except ε) α} {f : α → StateT σ (Except ε) β} {R : β → σ → Prop} {s : σ}

@[simp] theorem wp_pure {a : α} : wp (pure a : StateT σ (Except ε) α) Q E s ↔ Q a s := Iff.rfl

@[simp] theorem wp_throw {e : ε} : wp (throw e : StateT σ (Except ε) α) Q E s ↔ E e := Iff.rfl

@[simp] theorem wp_get {S : σ → σ → Prop} :
    wp (get : StateT σ (Except ε) σ) S E s ↔ S s s := Iff.rfl

@[simp] theorem wp_set {S : PUnit → σ → Prop} {s' : σ} :
    wp (set s' : StateT σ (Except ε) PUnit) S E s ↔ S ⟨⟩ s' := Iff.rfl

@[simp] theorem wp_modify {S : PUnit → σ → Prop} {g : σ → σ} :
    wp (modify g : StateT σ (Except ε) PUnit) S E s ↔ S ⟨⟩ (g s) := Iff.rfl

@[simp] theorem wp_bind : wp (x >>= f) R E s ↔ wp x (fun a => wp (f a) R E) E s := by
  show (match (x s >>= fun r => f r.1 r.2 : Except ε (β × σ)) with
    | .ok (b, s') => R b s'
    | .error e => E e) ↔ _
  unfold wp
  cases x s with
  | error e => exact Iff.rfl
  | ok r => exact Iff.rfl

@[simp] theorem wp_map {g : α → β} : wp (g <$> x) R E s ↔ wp x (fun a => R (g a)) E s := by
  show (match (x s >>= fun r => Except.ok (g r.1, r.2) : Except ε (β × σ)) with
    | .ok (b, s') => R b s'
    | .error e => E e) ↔ _
  unfold wp
  cases x s with
  | error e => exact Iff.rfl
  | ok r => exact Iff.rfl

theorem wp_ite {c : Prop} [Decidable c] {y : StateT σ (Except ε) α} :
    wp (if c then x else y) Q E s ↔ (c → wp x Q E s) ∧ (¬ c → wp y Q E s) := by
  by_cases hc : c
  · simp [hc]
  · simp [hc]

/-- Consequence. -/
theorem wp_mono (h : wp x Q E s) (hQ : ∀ a s', Q a s' → Q' a s') (hE : ∀ e, E e → E' e) :
    wp x Q' E' s := by
  unfold wp at h ⊢
  cases hx : x s with
  | error e =>
    rw [hx] at h
    exact hE e h
  | ok r =>
    rw [hx] at h
    exact hQ r.1 r.2 h

theorem wp_post (h : wp x Q E s) (hQ : ∀ a s', Q a s' → Q' a s') : wp x Q' E s :=
  wp_mono h hQ fun _ he => he

/-- What is known of every run is known of a run that ends well. -/
theorem wp_ok (h : wp x Q E s) {a : α} {s' : σ} (hx : x s = .ok (a, s')) : Q a s' := by
  rwa [wp, hx] at h

/-- Without an error that is allowed, a program ends with a result. -/
theorem exists_ok (h : wp x Q (fun _ => False) s) : ∃ a s', x s = .ok (a, s') ∧ Q a s' := by
  unfold wp at h
  split at h
  case h_1 a s' heq => exact ⟨a, s', heq, h⟩
  case h_2 => exact h.elim

/-- The run of a program is all there is to its precondition. -/
theorem wp_iff_of_ok {a : α} {s' : σ} (hx : x s = .ok (a, s')) : wp x Q E s ↔ Q a s' := by
  rw [wp, hx]

theorem run_bind_of_error {e : ε} (hx : x s = .error e) : (x >>= f) s = .error e := by
  change (x s >>= fun r => f r.1 r.2 : Except ε (β × σ)) = _
  rw [hx]
  rfl

theorem run_bind_of_ok {a : α} {s' : σ} (hx : x s = .ok (a, s')) : (x >>= f) s = f a s' := by
  change (x s >>= fun r => f r.1 r.2 : Except ε (β × σ)) = _
  rw [hx]
  rfl

theorem run_map_of_ok {g : α → β} {a : α} {s' : σ} (hx : x s = .ok (a, s')) :
    (g <$> x) s = .ok (g a, s') := by
  change (x s >>= fun r => Except.ok (g r.1, r.2) : Except ε (β × σ)) = _
  rw [hx]
  rfl

theorem run_map_of_error {g : α → β} {e : ε} (hx : x s = .error e) : (g <$> x) s = .error e := by
  change (x s >>= fun r => Except.ok (g r.1, r.2) : Except ε (β × σ)) = _
  rw [hx]
  rfl

/-- A program without errors ends. -/
theorem exists_ok_of_wp (h : wp x Q (fun _ => False) s) : ∃ a s', x s = .ok (a, s') ∧ Q a s' := by
  unfold wp at h
  cases hx : x s with
  | error e =>
    rw [hx] at h
    exact h.elim
  | ok r =>
    rw [hx] at h
    exact ⟨r.1, r.2, rfl, h⟩

theorem wp_forM {γ : Type} {g : γ → StateT σ (Except ε) PUnit} {I : List γ → σ → Prop}
    (l : List γ) (hs : I l s) (hstep : ∀ c rest s, I (c :: rest) s →
      wp (g c) (fun _ => I rest) E s) : wp (l.forM g) (fun _ => I []) E s := by
  induction l generalizing s with
  | nil => exact hs
  | cons c rest ih =>
    have hfirst := wp_post (hstep c rest s hs) fun _ _ h => ih h
    exact wp_bind.mpr hfirst

/-- Two postconditions of one run. -/
theorem wp_and (h : wp x Q E s) (h' : wp x Q' E' s) :
    wp x (fun a s' => Q a s' ∧ Q' a s') (fun e => E e ∧ E' e) s := by
  unfold wp at h h' ⊢
  split
  case h_1 heq => exact ⟨by rwa [heq] at h, by rwa [heq] at h'⟩
  case h_2 heq => exact ⟨by rwa [heq] at h, by rwa [heq] at h'⟩

/-- The errors that `x` may end with. -/
def Faults (E : ε → Prop) (x : StateT σ (Except ε) α) : Prop := ∀ s, wp x (fun _ _ => True) E s

theorem faults_pure (a : α) : Faults E (pure a : StateT σ (Except ε) α) := fun _ => trivial

theorem faults_throw {e : ε} (h : E e) : Faults E (throw e : StateT σ (Except ε) α) := fun _ => h

theorem Faults.bind (hx : Faults E x) (hf : ∀ a, Faults E (f a)) : Faults E (x >>= f) :=
  fun s => wp_bind.mpr (wp_post (hx s) fun a s' _ => hf a s')

theorem Faults.ite {c : Prop} [Decidable c] {y : StateT σ (Except ε) α} (hx : Faults E x)
    (hy : Faults E y) : Faults E (if c then x else y) := by
  by_cases hc : c
  · rwa [if_pos hc]
  · rwa [if_neg hc]

theorem faults_foldlM {γ : Type} {g : β → γ → StateT σ (Except ε) β}
    (hg : ∀ b c, Faults E (g b c)) (l : List γ) (b : β) : Faults E (l.foldlM g b) := by
  induction l generalizing b with
  | nil => exact faults_pure b
  | cons c l ih =>
    rw [List.foldlM_cons]
    exact (hg b c).bind ih

theorem faults_mapM {γ : Type} {g : γ → StateT σ (Except ε) β} (hg : ∀ c, Faults E (g c))
    (l : List γ) : Faults E (l.mapM g) := by
  induction l with
  | nil =>
    rw [List.mapM_nil]
    exact faults_pure []
  | cons c l ih =>
    rw [List.mapM_cons]
    exact (hg c).bind fun b => ih.bind fun bs => faults_pure (b :: bs)

/-- `x` does not change the state. -/
def Keeps (x : StateT σ (Except ε) α) : Prop :=
  ∀ s, wp x (fun _ s' => s' = s) (fun _ => True) s

theorem keeps_pure (a : α) : Keeps (pure a : StateT σ (Except ε) α) := fun _ => rfl

theorem keeps_throw (e : ε) : Keeps (throw e : StateT σ (Except ε) α) := fun _ => trivial

theorem Keeps.bind (hx : Keeps x) (hf : ∀ a, Keeps (f a)) : Keeps (x >>= f) := by
  intro s
  refine wp_bind.mpr (wp_post (hx s) fun a s' hs' => ?_)
  subst hs'
  exact hf a s'

theorem Keeps.ite {c : Prop} [Decidable c] {y : StateT σ (Except ε) α} (hx : Keeps x)
    (hy : Keeps y) : Keeps (if c then x else y) := by
  by_cases hc : c
  · rwa [if_pos hc]
  · rwa [if_neg hc]

theorem keeps_foldlM {γ : Type} {g : β → γ → StateT σ (Except ε) β} (hg : ∀ b c, Keeps (g b c))
    (l : List γ) (b : β) : Keeps (l.foldlM g b) := by
  induction l generalizing b with
  | nil => exact keeps_pure b
  | cons c l ih =>
    rw [List.foldlM_cons]
    exact (hg b c).bind ih

theorem Keeps.wp (h : Keeps x) (hQ : ∀ a, Q a s) : wp x Q (fun _ => True) s :=
  wp_post (h s) fun a s' hs' => by
    subst hs'
    exact hQ a

end WeakestPrecondition

end Hoare
