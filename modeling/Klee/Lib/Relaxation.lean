import Mathlib.Data.DFinsupp.WellFounded
import Mathlib.Data.ENat.Basic
import Mathlib.Tactic

/-! Tables of distances that are relaxed in place until a sweep changes nothing. The distance 0
stands for none. -/
namespace Relaxation

section Distance

def toENat (n : Nat) : ℕ∞ := if n = 0 then ⊤ else n

theorem toENat_le_iff {a b : Nat} : toENat a ≤ toENat b ↔ (b ≠ 0 → a ≠ 0 ∧ a ≤ b) := by
  unfold toENat
  split_ifs with ha hb hb
  · simp [ha, hb]
  · simp [ha, hb]
  · simp [hb]
  · simp [ha, hb]

theorem toENat_inj {a b : Nat} : toENat a = toENat b ↔ a = b := by
  refine ⟨fun h => ?_, fun h => h ▸ rfl⟩
  have hle := toENat_le_iff.mp h.le
  have hge := toENat_le_iff.mp h.ge
  by_cases hb : b = 0
  · by_contra ha
    exact (hge (hb ▸ ha)).1 hb
  · exact le_antisymm (hle hb).2 (hge (hle hb).1).2

theorem toENat_le_coe {d k : Nat} : toENat d ≤ (k : ℕ∞) ↔ d ≠ 0 ∧ d ≤ k := by
  unfold toENat
  split_ifs with hd
  · simp [hd]
  · simp [hd]

theorem toENat_lt_top {d : Nat} : toENat d < ⊤ ↔ d ≠ 0 := by
  unfold toENat
  split_ifs with hd
  · simp [hd]
  · simp [hd]

def improve (best val : Nat) : Nat := if best = 0 ∨ val < best then val else best

def further (through dist : Nat) : Nat := if dist = 0 then 0 else through + dist

def best {α : Type} (val : α → Nat) (cur : Nat) (l : List α) : Nat :=
  l.foldl (fun best a => if val a ≠ 0 then improve best (val a) else best) cur

variable {α : Type}

theorem toENat_improve {a b : Nat} (hb : b ≠ 0) :
    toENat (improve a b) ≤ toENat a ∧ toENat (improve a b) ≤ toENat b := by
  rw [toENat_le_iff, toENat_le_iff]
  unfold improve
  split_ifs with h
  · exact ⟨fun ha => ⟨hb, (h.resolve_left ha).le⟩, fun _ => ⟨hb, le_rfl⟩⟩
  · rw [not_or, not_lt] at h
    exact ⟨fun ha => ⟨ha, le_rfl⟩, fun _ => h⟩

theorem further_ne_zero {through dist : Nat} : further through dist ≠ 0 ↔ dist ≠ 0 := by
  unfold further
  split_ifs with h
  · simp [h]
  · exact ⟨fun _ => h, fun _ => by omega⟩

theorem further_of_ne {through dist : Nat} (h : dist ≠ 0) :
    further through dist = through + dist := if_neg h

theorem toENat_further_le {through dist a b : Nat} (ha : through ≤ a)
    (hb : toENat dist ≤ (b : ℕ∞)) : toENat (further through dist) ≤ ((a + b : ℕ) : ℕ∞) := by
  obtain ⟨hdist, hle⟩ := toENat_le_coe.mp hb
  rw [further_of_ne hdist]
  exact toENat_le_coe.mpr ⟨by omega, Nat.add_le_add ha hle⟩

/-- The best distance is one of those that are given, and none of them is better. -/
theorem best_spec (val : α → Nat) (cur : Nat) (l : List α) : toENat (best val cur l) ≤ toENat cur ∧
    (∀ a ∈ l, toENat (best val cur l) ≤ toENat (val a)) ∧
    (best val cur l = cur ∨ ∃ a ∈ l, val a ≠ 0 ∧ best val cur l = val a) := by
  induction l generalizing cur with
  | nil => exact ⟨le_rfl, by simp, .inl rfl⟩
  | cons a l ih =>
    have hcons : best val cur (a :: l) =
        best val (if val a ≠ 0 then improve cur (val a) else cur) l := rfl
    obtain ⟨hcur, hall, hone⟩ := ih (if val a ≠ 0 then improve cur (val a) else cur)
    rw [hcons]
    by_cases ha : val a = 0
    · rw [if_neg (not_not.mpr ha)] at hcur hall hone ⊢
      refine ⟨hcur, fun b hb => ?_, hone.imp_right fun ⟨b, hb, h⟩ =>
        ⟨b, List.mem_cons_of_mem a hb, h⟩⟩
      rcases List.mem_cons.mp hb with rfl | hb
      · rw [ha]
        exact le_top
      · exact hall b hb
    · rw [if_pos ha] at hcur hall hone ⊢
      obtain ⟨hle, hle'⟩ := toENat_improve (a := cur) ha
      refine ⟨hcur.trans hle, fun b hb => ?_, ?_⟩
      · rcases List.mem_cons.mp hb with rfl | hb
        · exact hcur.trans hle'
        · exact hall b hb
      · rcases hone with hone | ⟨b, hb, h⟩
        · by_cases hsame : cur = 0 ∨ val a < cur
          · exact .inr ⟨a, List.mem_cons_self, ha, hone.trans (if_pos hsame)⟩
          · exact .inl (hone.trans (if_neg hsame))
        · exact .inr ⟨b, List.mem_cons_of_mem a hb, h⟩

/-- A distance is the least number with a property, or 0 if there is none. -/
def Shortest (P : Nat → Prop) (d : Nat) : Prop := (d ≠ 0 → P d) ∧ ∀ k, P k → d ≠ 0 ∧ d ≤ k

theorem Shortest.unique {P : Nat → Prop} {d e : Nat} (hd : Shortest P d) (he : Shortest P e) :
    d = e := by
  by_cases h : d = 0
  · by_contra hne
    exact (hd.2 e (he.1 fun h' => hne (h.trans h'.symm))).1 h
  · have hle := he.2 d (hd.1 h)
    exact le_antisymm (hd.2 e (he.1 hle.1)).2 hle.2

theorem shortest_of_le {P : Nat → Prop} {d : Nat} (hd : d ≠ 0 → P d)
    (hle : ∀ k, P k → toENat d ≤ (k : ℕ∞)) : Shortest P d :=
  ⟨hd, fun k hk => toENat_le_coe.mp (hle k hk)⟩

theorem Shortest.le {P : Nat → Prop} {d k : Nat} (hd : Shortest P d) (hk : P k) :
    toENat d ≤ (k : ℕ∞) := toENat_le_coe.mpr (hd.2 k hk)

end Distance

section Table

variable {ι : Type}

def setAll (id val : ι → Nat) (l : List ι) (table : Nat → Nat) : Nat → Nat :=
  l.foldl (fun table i => Function.update table (id i) (val i)) table

variable {id : ι → Nat} {l : List ι}

theorem setAll_of_forall_ne (val : ι → Nat) (table : Nat → Nat) {k : Nat}
    (hk : ∀ i ∈ l, id i ≠ k) : setAll id val l table k = table k := by
  induction l generalizing table with
  | nil => rfl
  | cons i l ih =>
    have hrest := ih (Function.update table (id i) (val i)) fun j hj => hk j (List.mem_cons_of_mem i hj)
    exact hrest.trans (Function.update_of_ne (hk i List.mem_cons_self).symm _ _)

theorem setAll_of_mem (val : ι → Nat) (table : Nat → Nat)
    (hid : ∀ i ∈ l, ∀ j ∈ l, id i = id j → i = j) {i : ι} (hi : i ∈ l) :
    setAll id val l table (id i) = val i := by
  induction l generalizing table with
  | nil => cases hi
  | cons j l ih =>
    have htail : ∀ i ∈ l, ∀ j ∈ l, id i = id j → i = j := fun i hi j hj =>
      hid i (List.mem_cons_of_mem _ hi) j (List.mem_cons_of_mem _ hj)
    by_cases hmem : i ∈ l
    · exact ih (Function.update table (id j) (val j)) htail hmem
    · have hij : i = j := (List.mem_cons.mp hi).resolve_right hmem
      have hne : ∀ k ∈ l, id k ≠ id i := fun k hk hid' =>
        hmem (hid k (List.mem_cons_of_mem _ hk) i hi hid' ▸ hk)
      have hrest := setAll_of_forall_ne val (Function.update table (id j) (val j)) hne
      subst hij
      exact hrest.trans (Function.update_self _ _ _)

end Table

section Sweep

variable {ι σ β : Type} (visit : ι → σ → σ × Bool)

def sweep : List ι → σ → σ × Bool
  | [], s => (s, false)
  | i :: l, s =>
    let (s, changed) := visit i s
    let (s, changed') := sweep l s
    (s, changed || changed')

def loop (l : List ι) : Nat → σ → Option σ
  | 0, _ => none
  | n + 1, s =>
    match sweep visit l s with
    | (s, true) => loop l n s
    | (s, false) => some s

def Along (P : ι → σ → Prop) : List ι → σ → Prop
  | [], _ => True
  | i :: l, s => P i s ∧ Along P l (visit i s).1

def Always (P : ι → σ → Prop) (l : List ι) (s : σ) : Prop :=
  ∀ n, Along visit P l ((fun s => (sweep visit l s).1)^[n] s)

variable {visit} {P : ι → σ → Prop} {Inv : σ → Prop} {μ : σ → β} [Preorder β] {l : List ι}

def Lowers (visit : ι → σ → σ × Bool) (P : ι → σ → Prop) (Inv : σ → Prop) (μ : σ → β)
    (l : List ι) : Prop :=
  ∀ i ∈ l, ∀ s, P i s → Inv s → visit i s = (s, false) ∨
    (visit i s).2 = true ∧ Inv (visit i s).1 ∧ μ (visit i s).1 < μ s

theorem sweep_cases (h : Lowers visit P Inv μ l) {s : σ} (halong : Along visit P l s)
    (hs : Inv s) : (sweep visit l s = (s, false) ∧ ∀ i ∈ l, P i s ∧ visit i s = (s, false)) ∨
      (sweep visit l s).2 = true ∧ Inv (sweep visit l s).1 ∧ μ (sweep visit l s).1 < μ s := by
  induction l generalizing s with
  | nil => exact .inl ⟨rfl, by simp⟩
  | cons i l ih =>
    have htail : Lowers visit P Inv μ l := fun j hj => h j (List.mem_cons_of_mem i hj)
    have hsweep : sweep visit (i :: l) s = ((sweep visit l (visit i s).1).1,
        (visit i s).2 || (sweep visit l (visit i s).1).2) := rfl
    rw [hsweep]
    rcases h i List.mem_cons_self s halong.1 hs with hsame | ⟨hchanged, hinv, hlt⟩
    · have halong' := halong.2
      rw [hsame] at halong' ⊢
      rcases ih htail halong' hs with ⟨hrest, hall⟩ | hrest
      · refine .inl ⟨by rw [hrest]; rfl, fun j hj => ?_⟩
        rcases List.mem_cons.mp hj with rfl | hj
        · exact ⟨halong.1, hsame⟩
        · exact hall j hj
      · exact .inr (by simpa using hrest)
    · rw [hchanged]
      rcases ih htail halong.2 hinv with ⟨hrest, -⟩ | ⟨-, hinv', hlt'⟩
      · rw [hrest]
        exact .inr ⟨rfl, hinv, hlt⟩
      · exact .inr ⟨rfl, hinv', hlt'.trans hlt⟩

instance decidableAlong [∀ i s, Decidable (P i s)] :
    (l : List ι) → (s : σ) → Decidable (Along visit P l s)
  | [], _ => isTrue trivial
  | i :: l, s =>
    have := decidableAlong l (visit i s).1
    inferInstanceAs (Decidable (P i s ∧ Along visit P l (visit i s).1))

theorem always_of_forall (h : ∀ i s, P i s) (l : List ι) (s : σ) : Always visit P l s := by
  have halong (l : List ι) (s : σ) : Along visit P l s := by
    induction l generalizing s with
    | nil => trivial
    | cons i l ih => exact ⟨h i s, ih _⟩
  exact fun _ => halong l _

/-- After a sweep that changes nothing there is no other to look at. -/
theorem always_of_fixed {s : σ} {k : Nat}
    (halong : ∀ n ≤ k, Along visit P l ((fun s => (sweep visit l s).1)^[n] s))
    (hfixed : (sweep visit l ((fun s => (sweep visit l s).1)^[k] s)).1 =
      (fun s => (sweep visit l s).1)^[k] s) : Always visit P l s := by
  have hiter (n : Nat) : (fun s => (sweep visit l s).1)^[k + n] s =
      (fun s => (sweep visit l s).1)^[k] s := by
    induction n with
    | zero => rfl
    | succ n ih =>
      rw [← Nat.add_assoc, Function.iterate_succ_apply', ih]
      exact hfixed
  intro n
  rcases le_total n k with hn | hn
  · exact halong n hn
  · obtain ⟨j, rfl⟩ := Nat.exists_eq_add_of_le hn
    rw [hiter]
    exact halong k le_rfl

/-- The loop ends in a state that no visit changes. -/
theorem exists_loop [WellFoundedLT β] (h : Lowers visit P Inv μ l) {s : σ}
    (halways : Always visit P l s) (hs : Inv s) :
    ∃ n s', loop visit l n s = some s' ∧ Inv s' ∧ ∀ i ∈ l, P i s' ∧ visit i s' = (s', false) := by
  induction hμ : μ s using WellFoundedLT.induction generalizing s with
  | _ b ih =>
    subst hμ
    have hfirst : Along visit P l s := halways 0
    rcases sweep_cases h hfirst hs with ⟨hsame, hall⟩ | ⟨hchanged, hinv, hlt⟩
    · exact ⟨1, s, by rw [loop, hsame], hs, hall⟩
    · have hrest : Always visit P l (sweep visit l s).1 := fun n => halways (n + 1)
      obtain ⟨n, s', hloop, hs', hall⟩ := ih _ hlt hrest hinv rfl
      refine ⟨n + 1, s', ?_, hs', hall⟩
      have hsweep : sweep visit l s = ((sweep visit l s).1, true) := Prod.ext rfl hchanged
      rw [loop, hsweep]
      exact hloop

/-- How often the loop may sweep makes no difference to where it ends. -/
theorem loop_unique {n n' : Nat} {s s₁ s₂ : σ} (h₁ : loop visit l n s = some s₁)
    (h₂ : loop visit l n' s = some s₂) : s₁ = s₂ := by
  induction n generalizing n' s with
  | zero => cases h₁
  | succ n ih =>
    cases n' with
    | zero => cases h₂
    | succ n' =>
      rw [loop] at h₁ h₂
      split at h₁
      · rename_i s' heq
        rw [heq] at h₂
        exact ih h₁ h₂
      · rename_i s' heq
        rw [heq] at h₂
        exact Option.some.inj (h₁.symm.trans h₂)

/-- What every visit keeps holds of the state that the loop ends in. -/
theorem loop_inv {Q : σ → Prop} (hvisit : ∀ i s, Q s → Q (visit i s).1) {n : Nat} {s s' : σ}
    (hloop : loop visit l n s = some s') (hs : Q s) : Q s' := by
  have hsweep (l : List ι) (s : σ) (hs : Q s) : Q (sweep visit l s).1 := by
    induction l generalizing s with
    | nil => exact hs
    | cons i l ih => exact ih (visit i s).1 (hvisit i s hs)
  induction n generalizing s with
  | zero => cases hloop
  | succ n ih =>
    have hnext := hsweep l s hs
    rw [loop] at hloop
    split at hloop
    · rename_i s₁ heq
      rw [heq] at hnext
      exact ih hloop hnext
    · rename_i s₁ heq
      rw [heq] at hnext
      exact Option.some.inj hloop ▸ hnext

end Sweep

end Relaxation
