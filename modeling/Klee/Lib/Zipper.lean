import Mathlib.Tactic

/-! Binary trees with a place in them: the subtree there and the frames above it. -/
namespace Zipper

variable {α β : Type}

inductive Side where
  | left | right
deriving DecidableEq

def Side.flip : Side → Side
  | left => right
  | right => left

def Side.pick {γ : Type} (s : Side) (l r : γ) : γ :=
  match s with
  | left => l
  | right => r

inductive BinTree (α : Type) where
  | nil
  | node (l : BinTree α) (a : α) (r : BinTree α)

namespace BinTree

/-- The node with `near` on the side `s`. -/
def on (s : Side) (a : α) (near far : BinTree α) : BinTree α :=
  match s with
  | .left => node near a far
  | .right => node far a near

def toList : BinTree α → List α
  | nil => []
  | node l a r => l.toList ++ a :: r.toList

def size : BinTree α → Nat
  | nil => 0
  | node l _ r => l.size + r.size + 1

def depth : BinTree α → Nat
  | nil => 0
  | node l _ r => max l.depth r.depth + 1

def map (f : α → β) : BinTree α → BinTree β
  | nil => nil
  | node l a r => node (l.map f) (f a) (r.map f)

theorem map_map {γ : Type} (g : β → γ) (f : α → β) (t : BinTree α) :
    (t.map f).map g = t.map (g ∘ f) := by
  induction t with
  | nil => rfl
  | node l a r ihl ihr =>
    simp only [map, ihl, ihr, Function.comp_apply]

theorem map_on (f : α → β) (s : Side) (a : α) (l r : BinTree α) :
    (on s a l r).map f = on s (f a) (l.map f) (r.map f) := by
  cases s <;> rfl

theorem toList_map (f : α → β) (t : BinTree α) : (t.map f).toList = t.toList.map f := by
  induction t with
  | nil => rfl
  | node l a r ihl ihr =>
    simp only [map, toList, ihl, ihr, List.map_append, List.map_cons]

theorem size_on (s : Side) (a : α) (l r : BinTree α) : (on s a l r).size = l.size + r.size + 1 := by
  cases s
  · rfl
  · rw [on, size, Nat.add_comm r.size]

theorem length_toList (t : BinTree α) : t.toList.length = t.size := by
  induction t with
  | nil => rfl
  | node l a r ihl ihr =>
    rw [toList, List.length_append, List.length_cons, ihl, ihr, size]
    omega

theorem on_pick (s : Side) (a : α) (l r : BinTree α) :
    on s a (s.pick l r) (s.flip.pick l r) = node l a r := by
  cases s <;> rfl

theorem on_flip (s : Side) (a : α) (near far : BinTree α) : on s.flip a far near = on s a near far := by
  cases s <;> rfl

theorem exists_on (s : Side) (a : α) (l r : BinTree α) : ∃ near far, node l a r = on s a near far :=
  ⟨s.pick l r, s.flip.pick l r, (on_pick s a l r).symm⟩

theorem on_inj {s s' : Side} {a a' : α} {l r l' r' : BinTree α} (h : on s a l r = on s' a' l' r') :
    a = a' ∧ (s = s' ∧ l = l' ∧ r = r' ∨ s = s'.flip ∧ l = r' ∧ r = l') := by
  cases s <;> cases s' <;> simp_all [on, Side.flip]

end BinTree

structure Frame (α : Type) where
  side : Side
  label : α
  other : BinTree α

namespace Frame

def fill (f : Frame α) (t : BinTree α) : BinTree α := .on f.side f.label t f.other

theorem map_fill (g : α → β) (f : Frame α) (t : BinTree α) :
    (f.fill t).map g = (Frame.mk f.side (g f.label) (f.other.map g)).fill (t.map g) :=
  BinTree.map_on g f.side f.label t f.other

def before (f : Frame α) : List α := f.side.pick [] (f.other.toList ++ [f.label])

def after (f : Frame α) : List α := f.side.pick (f.label :: f.other.toList) []

end Frame

def plug : BinTree α → List (Frame α) → BinTree α
  | t, [] => t
  | t, f :: path => plug (f.fill t) path

def before (path : List (Frame α)) : List α := (path.reverse.map Frame.before).flatten

def after (path : List (Frame α)) : List α := (path.map Frame.after).flatten

@[simp] theorem plug_nil (t : BinTree α) : plug t [] = t := rfl

@[simp] theorem plug_cons (t : BinTree α) (f : Frame α) (path : List (Frame α)) :
    plug t (f :: path) = plug (f.fill t) path := rfl

@[simp] theorem before_nil : before ([] : List (Frame α)) = [] := rfl

@[simp] theorem after_nil : after ([] : List (Frame α)) = [] := rfl

@[simp] theorem before_cons (f : Frame α) (path : List (Frame α)) :
    before (f :: path) = before path ++ f.before := by
  simp [before]

@[simp] theorem after_cons (f : Frame α) (path : List (Frame α)) :
    after (f :: path) = f.after ++ after path := by
  simp [after]

theorem plug_append (t : BinTree α) (path rest : List (Frame α)) :
    plug t (path ++ rest) = plug (plug t path) rest := by
  induction path generalizing t with
  | nil => rfl
  | cons f path ih => exact ih (f.fill t)

theorem before_append (path rest : List (Frame α)) :
    before (path ++ rest) = before rest ++ before path := by
  simp [before]

theorem after_append (path rest : List (Frame α)) :
    after (path ++ rest) = after path ++ after rest := by
  simp [after]

theorem toList_fill (f : Frame α) (t : BinTree α) :
    (f.fill t).toList = f.before ++ t.toList ++ f.after := by
  obtain ⟨side, a, other⟩ := f
  cases side <;> simp [Frame.fill, Frame.before, Frame.after, BinTree.on, BinTree.toList, Side.pick]

theorem toList_plug (t : BinTree α) (path : List (Frame α)) :
    (plug t path).toList = before path ++ t.toList ++ after path := by
  induction path generalizing t with
  | nil => simp
  | cons f path ih =>
    rw [plug_cons, ih, toList_fill, before_cons, after_cons]
    simp only [List.append_assoc]

/-- A map sees the tree at a place only through what it makes of it. -/
theorem map_plug_congr {g : α → β} {t t' : BinTree α} (h : t.map g = t'.map g)
    (path : List (Frame α)) : (plug t path).map g = (plug t' path).map g := by
  induction path generalizing t t' with
  | nil => exact h
  | cons f path ih =>
    rw [plug_cons, plug_cons]
    exact ih (by rw [Frame.map_fill, Frame.map_fill, h])

theorem size_plug (t : BinTree α) (path : List (Frame α)) :
    t.size + path.length ≤ (plug t path).size := by
  induction path generalizing t with
  | nil => exact le_rfl
  | cons f path ih =>
    have hfill : t.size + 1 ≤ (f.fill t).size := by
      obtain ⟨side, a, other⟩ := f
      cases side <;> simp only [Frame.fill, BinTree.on, BinTree.size] <;> omega
    have hrest := ih (f.fill t)
    rw [plug_cons, List.length_cons]
    omega

end Zipper
