import Klee.Lib.Zipper

/-! Red-black balance of a tree, and of the frames around a place in it. -/
namespace Zipper

variable {α β : Type} (mark : α → Bool)

namespace BinTree

def rootMark : BinTree α → Bool
  | nil => false
  | node _ a _ => mark a

/-- No red node has a red child, and every way down from the root has `n` black nodes. -/
def Balanced : BinTree α → Nat → Prop
  | nil, n => n = 0
  | node l a r, n => (mark a = true → rootMark mark l = false ∧ rootMark mark r = false) ∧
      ∃ k, n = k + (!mark a).toNat ∧ Balanced l k ∧ Balanced r k

variable {mark} {t l r near far : BinTree α} {a : α} {n k : Nat} {s : Side}

@[simp] theorem rootMark_on : rootMark mark (on s a l r) = mark a := by
  cases s <;> rfl

theorem balanced_on : Balanced mark (on s a near far) n ↔
    (mark a = true → rootMark mark near = false ∧ rootMark mark far = false) ∧
      ∃ k, n = k + (!mark a).toNat ∧ Balanced mark near k ∧ Balanced mark far k := by
  cases s with
  | left => exact Iff.rfl
  | right =>
    rw [on, Balanced, and_comm (a := rootMark mark far = false)]
    simp only [and_comm (a := Balanced mark far _)]

/-- The balance is one of the marks. -/
theorem balanced_map {f : α → β} {m : β → Bool} (h : ∀ a, m (f a) = mark a) :
    Balanced m (t.map f) n ↔ Balanced mark t n := by
  have hroot (t : BinTree α) : rootMark m (t.map f) = rootMark mark t := by
    cases t with
    | nil => rfl
    | node l a r => exact h a
  induction t generalizing n with
  | nil => exact Iff.rfl
  | node l a r ihl ihr => simp only [map, Balanced, h, hroot, ihl, ihr]

theorem Balanced.depth_le (h : Balanced mark t n) : t.depth ≤ 2 * n + (rootMark mark t).toNat := by
  induction t generalizing n with
  | nil => exact Nat.zero_le _
  | node l a r ihl ihr =>
    obtain ⟨hred, k, rfl, hl, hr⟩ := h
    have hl' := ihl hl
    have hr' := ihr hr
    rw [depth, rootMark]
    cases ha : mark a with
    | false =>
      have hbool (b : Bool) : b.toNat ≤ 1 := Bool.toNat_le b
      have := hbool (rootMark mark l)
      have := hbool (rootMark mark r)
      simp only [Bool.not_false, Bool.toNat_true, Bool.toNat_false]
      omega
    | true =>
      obtain ⟨hl₀, hr₀⟩ := hred ha
      rw [hl₀] at hl'
      rw [hr₀] at hr'
      simp only [Bool.not_true, Bool.toNat_true, Bool.toNat_false] at *
      omega

theorem Balanced.two_pow_le (h : Balanced mark t n) : 2 ^ n ≤ t.size + 1 := by
  induction t generalizing n with
  | nil =>
    obtain rfl : n = 0 := h
    exact le_rfl
  | node l a r ihl ihr =>
    obtain ⟨-, k, rfl, hl, hr⟩ := h
    have hl' := ihl hl
    have hr' := ihr hr
    rw [size]
    cases mark a with
    | false =>
      rw [Bool.not_false, Bool.toNat_true, pow_succ]
      omega
    | true =>
      rw [Bool.not_true, Bool.toNat_false, Nat.add_zero]
      omega

/-- The depth of a balanced tree with a black root is logarithmic in its size. -/
theorem Balanced.depth_le_log (h : Balanced mark t n) (hroot : rootMark mark t = false) :
    t.depth ≤ 2 * Nat.log 2 (t.size + 1) := by
  have hdepth := h.depth_le
  rw [hroot] at hdepth
  have hlog : n ≤ Nat.log 2 (t.size + 1) := Nat.le_log_of_pow_le (by decide) h.two_pow_le
  simp only [Bool.toNat_false] at hdepth
  omega

end BinTree

section Paths

open BinTree

def parentMark : List (Frame α) → Bool
  | [] => false
  | f :: _ => mark f.label

/-- The frames are balanced around a tree of black height `n`. -/
def BalancedPath : List (Frame α) → Nat → Prop
  | [], _ => True
  | f :: path, n => Balanced mark f.other n ∧
      (mark f.label = true → rootMark mark f.other = false ∧ parentMark mark path = false) ∧
      BalancedPath path (n + (!mark f.label).toNat)

variable {mark} {t : BinTree α} {path : List (Frame α)}

/-- Balance of a tree at its place. -/
theorem balanced_plug : (∃ n, Balanced mark (plug t path) n) ↔ ∃ n, Balanced mark t n ∧
    BalancedPath mark path n ∧ (rootMark mark t = true → parentMark mark path = false) := by
  induction path generalizing t with
  | nil => simp [BalancedPath, parentMark]
  | cons f path ih =>
    rw [plug_cons, ih]
    simp only [Frame.fill, balanced_on, rootMark_on, BalancedPath, parentMark]
    constructor
    · rintro ⟨n, ⟨hred, k, rfl, ht, hother⟩, hpath, hparent⟩
      refine ⟨k, ht, ⟨hother, fun hf => ⟨(hred hf).2, hparent hf⟩, hpath⟩, fun hm => ?_⟩
      by_contra hf
      rw [(hred (by simpa using hf)).1] at hm
      cases hm
    · rintro ⟨k, ht, ⟨hother, hred, hpath⟩, hm⟩
      refine ⟨_, ⟨fun hf => ⟨?_, (hred hf).1⟩, k, rfl, ht, hother⟩, hpath, fun hf => (hred hf).2⟩
      by_contra hroot
      rw [hm (by simpa using hroot)] at hf
      cases hf

end Paths

end Zipper
