import Klee.Lib.Fuel
import Klee.Module.CallTarget
import Mathlib.Data.List.GetD
import Mathlib.Logic.Relation

/-! What a call site can enter, and when the call targets cover it. -/
namespace Klee.CallTarget

open Fuel Relation

variable {m : Module} {stripPointerCasts : Nat → Nat} {c d e f v : Nat}

section Meaning

/-- The address that a pointer constant stands for. Functions differ in their addresses, and no
variable has the address of a function. -/
structure Valuation (m : Module) where
  value : Nat → BitVec 64
  injective : ∀ f g, m.isFunction f = true → m.isFunction g = true → value f = value g → f = g
  globalAlias : ∀ c aliasee interposable, m.constant c = .globalAlias aliasee interposable →
    value c = value aliasee
  pointerCast : ∀ c opcode operand operands,
    m.constant c = .constantExpr opcode operand operands → opcode.isPointerCast = true →
      value c = value operand
  otherPointer : ∀ c f, (m.constant c).isPointer = true → m.isFunction f = true →
    value c = value f → m.isFunction c = true ∨
      (∃ aliasee interposable, m.constant c = .globalAlias aliasee interposable) ∨
      ∃ opcode operand operands, m.constant c = .constantExpr opcode operand operands

/-- `c` is made of `v`: its value may hold the address that `v` stands for. -/
def MadeOf (m : Module) : Nat → Nat → Prop :=
  ReflTransGen fun part c => part ∈ (m.constant c).parts

def Initial (m : Module) (f : Nat) : Prop :=
  ∃ d c, ((∃ initializer, m.constant d = .globalVariable initializer) ∨ m.isFunction d = true) ∧
    c ∈ (m.constant d).operands ∧ MadeOf m f c

/-- An instruction of the module is executed: the addresses in its operands may be stored, returned
or computed with. What a call calls is not one of them. -/
inductive Step (m : Module) : (Nat → Prop) → (Nat → Prop) → Prop
  | execute (held : Nat → Prop) (i : Instruction) : i ∈ m.instructions →
    Step m held fun f => held f ∨ ∃ c, .constant c ∈ i.dataOperands ∧ MadeOf m f c

/-- The functions whose addresses the registers and the memory may hold after a run -/
def Reachable (m : Module) : (Nat → Prop) → Prop := ReflTransGen (Step m) (Initial m)

def Enters (V : Valuation m) (held : Nat → Prop) (calledValue : Value) (f : Nat) : Prop :=
  m.isFunction f = true ∧
    match calledValue with
    | .constant c => V.value c = V.value f
    | .register _ => held f
    | .inlineAsm => False

def Covered (stripPointerCasts : Nat → Nat) (V : Valuation m) (held : Nat → Prop)
    (calledValue : Value) : Prop :=
  ∃ target, Ends (getDirectCallTarget stripPointerCasts m true · calledValue) (.ok target) ∧
    (∀ f, Enters V held calledValue f →
      target = some f ∨ target = none ∧ Ends (functionEscapes m · f) true) ∧
    ∀ g, target = some g → ∀ f, Enters V held calledValue f → f = g

def AliasStep (m : Module) (c d : Nat) : Prop :=
  ∃ interposable, m.constant c = .globalAlias d interposable

/-- From an alias to its aliasee, and from an expression to its first operand -/
def FirstStep (m : Module) (c d : Nat) : Prop :=
  AliasStep m c d ∨ ∃ opcode operands, m.constant c = .constantExpr opcode d operands

/-- Where the called value is an alias of a constant expression, the first operand of all stands for
a function, and the expression is not the address of another one. -/
def FirstOperandCalled (V : Valuation m) (calledValue : Value) : Prop :=
  ∀ c e opcode operand operands, calledValue = .constant c → ReflTransGen (AliasStep m) c e →
    m.constant e = .constantExpr opcode operand operands →
      ∃ g, ReflTransGen (FirstStep m) e g ∧ m.isFunction g = true ∧
        ∀ f, m.isFunction f = true → V.value e = V.value f → f = g

def CastStep (m : Module) (c d : Nat) : Prop :=
  AliasStep m c d ∨ ∃ opcode operands, m.constant c = .constantExpr opcode d operands ∧
    opcode.isPointerCast = true

/-- What is relied on for `stripPointerCasts`: it goes through casts and aliases. -/
def Strips (m : Module) (stripPointerCasts : Nat → Nat) : Prop :=
  ∀ c, ReflTransGen (CastStep m) c (stripPointerCasts c)

end Meaning

section Users

theorem lt_of_constant_ne (h : m.constant c ≠ .null) : c < m.constants.length := by
  by_contra hle
  exact h (List.getD_eq_default _ _ (not_lt.mp hle))

theorem mem_users_constant (h : v ∈ (m.constant c).operands) :
    .constant c ∈ users m v := by
  have hc : c < m.constants.length := lt_of_constant_ne fun hnull => by
    rw [hnull] at h
    exact List.not_mem_nil h
  refine List.mem_append_right _ (List.mem_map.mpr ⟨c, List.mem_filter.mpr ⟨?_, ?_⟩, rfl⟩)
  · exact List.mem_range.mpr hc
  · exact decide_eq_true h

theorem mem_users_instruction {i : Instruction} (hi : i ∈ m.instructions)
    (h : .constant v ∈ i.operands) : .instruction i ∈ users m v :=
  List.mem_append_left _ (List.mem_map.mpr ⟨i, List.mem_filter.mpr ⟨hi, decide_eq_true h⟩, rfl⟩)

theorem operands_of_mem_users (h : .constant c ∈ users m v) :
    c < m.constants.length ∧ v ∈ (m.constant c).operands := by
  rcases List.mem_append.mp h with h | h
  · obtain ⟨i, -, hi⟩ := List.mem_map.mp h
    cases hi
  · obtain ⟨d, hd, hc⟩ := List.mem_map.mp h
    cases hc
    obtain ⟨hrange, hmem⟩ := List.mem_filter.mp hd
    exact ⟨List.mem_range.mp hrange, of_decide_eq_true hmem⟩

variable {check : User → Option Bool} {us : List User}

theorem isSome_allUsers (h : ∀ user ∈ us, (check user).isSome = true) :
    (allUsers check us).isSome = true := by
  induction us with
  | nil => rfl
  | cons user us ih =>
    rw [List.forall_mem_cons] at h
    obtain ⟨b, hb⟩ := Option.isSome_iff_exists.mp h.1
    rw [allUsers, hb]
    cases b with
    | false => rfl
    | true => exact ih h.2

theorem allUsers_false (h : ∀ user ∈ us, (check user).isSome = true)
    (hfalse : ∃ user ∈ us, check user = some false) : allUsers check us = some false := by
  induction us with
  | nil => simp at hfalse
  | cons user us ih =>
    rw [List.forall_mem_cons] at h
    obtain ⟨b, hb⟩ := Option.isSome_iff_exists.mp h.1
    rw [allUsers, hb]
    cases b with
    | false => rfl
    | true =>
      obtain ⟨user', hmem, hcheck⟩ := hfalse
      rcases List.mem_cons.mp hmem with rfl | hmem
      · rw [hb] at hcheck
        cases hcheck
      · exact ih h.2 ⟨user', hmem, hcheck⟩

end Users

section Escapes

/-- What is made of `v` ranks higher, and the ranks of the constants of a module are bounded. -/
theorem exists_rank (m : Module) : ∃ (rank : Nat → Nat) (bound : Nat),
    (∀ c, ∀ part ∈ (m.constant c).parts, rank part < rank c) ∧
      ∀ c < m.constants.length, rank c ≤ bound := by
  obtain ⟨rank, hrank⟩ := m.acyclic
  refine ⟨rank, ((List.range m.constants.length).map rank).sum, hrank, fun c hc => ?_⟩
  exact List.le_sum_of_mem (List.mem_map_of_mem (List.mem_range.mpr hc))

theorem isSome_userOnlyCalls {onlyCalled : Nat → Option Bool}
    (hrec : ∀ c < m.constants.length, v ∈ (m.constant c).parts → (onlyCalled c).isSome = true) :
    ∀ user ∈ users m v, (userOnlyCalls m onlyCalled v user).isSome = true := by
  intro user huser
  cases user with
  | instruction i => cases i <;> rfl
  | constant c =>
    obtain ⟨hc, hmem⟩ := operands_of_mem_users huser
    have hpart := hrec c hc
    rw [userOnlyCalls]
    cases hnode : m.constant c with
    | globalAlias aliasee interposable =>
      rw [hnode] at hmem hpart
      simp only
      split_ifs
      · exact hpart hmem
      · rfl
    | constantExpr opcode operand operands =>
      rw [hnode] at hmem hpart
      cases opcode with
      | bitCast => exact hpart hmem
      | _ => rfl
    | _ => rfl

theorem isSome_valueIsOnlyCalled {rank : Nat → Nat} {bound : Nat}
    (hrank : ∀ c, ∀ part ∈ (m.constant c).parts, rank part < rank c)
    (hbound : ∀ c < m.constants.length, rank c ≤ bound) (fuel : Nat) :
    ∀ v, bound - rank v < fuel → (valueIsOnlyCalled m fuel v).isSome = true := by
  induction fuel with
  | zero => exact fun v h => absurd h (Nat.not_lt_zero _)
  | succ fuel ih =>
    refine fun v hv => isSome_allUsers (isSome_userOnlyCalls fun c hc hpart => ih c ?_)
    have hlt := hrank c v hpart
    have hle := hbound c hc
    omega

/-- One user that does more than to call `v` -/
theorem ends_onlyCalled_false {user : User} (huser : user ∈ users m v)
    (hcheck : ∃ n, ∀ fuel ≥ n, userOnlyCalls m (valueIsOnlyCalled m fuel) v user = some false) :
    Ends (valueIsOnlyCalled m · v) false := by
  obtain ⟨rank, bound, hrank, hbound⟩ := exists_rank m
  obtain ⟨n, hn⟩ := hcheck
  refine ⟨n + bound + 2, fun fuel hfuel => ?_⟩
  obtain ⟨k, rfl⟩ : ∃ k, fuel = k + 1 := ⟨fuel - 1, by omega⟩
  have hall : ∀ c < m.constants.length, v ∈ (m.constant c).parts →
      (valueIsOnlyCalled m k c).isSome = true :=
    fun c _ _ => isSome_valueIsOnlyCalled hrank hbound k c (by omega)
  exact allUsers_false (isSome_userOnlyCalls hall) ⟨user, huser, hn k (by omega)⟩

/-- What something that escapes is made of escapes. -/
theorem ends_false_of_part (hpart : v ∈ (m.constant c).parts)
    (h : Ends (valueIsOnlyCalled m · c) false) : Ends (valueIsOnlyCalled m · v) false := by
  have hoperand : v ∈ (m.constant c).operands := by
    cases hnode : m.constant c <;> simp_all [Constant.parts, Constant.operands]
  refine ends_onlyCalled_false (mem_users_constant hoperand) ?_
  obtain ⟨n, hn⟩ := h
  refine ⟨n, fun fuel hfuel => ?_⟩
  rw [userOnlyCalls]
  cases hnode : m.constant c with
  | globalAlias aliasee interposable =>
    rw [hnode] at hpart
    simp only [if_pos (List.mem_singleton.mp hpart), hn fuel hfuel]
  | constantExpr opcode operand operands =>
    cases opcode with
    | bitCast => exact hn fuel hfuel
    | _ => rfl
  | blockAddress f =>
    rw [hnode] at hpart
    exact absurd hpart List.not_mem_nil
  | _ => rfl

theorem ends_false_of_madeOf (hmade : MadeOf m v c)
    (h : Ends (valueIsOnlyCalled m · c) false) : Ends (valueIsOnlyCalled m · v) false := by
  induction hmade using ReflTransGen.head_induction_on with
  | refl => exact h
  | head hpart _ ih => exact ends_false_of_part hpart ih

theorem ends_false_of_data {i : Instruction} (hi : i ∈ m.instructions)
    (hc : .constant c ∈ i.dataOperands) : Ends (valueIsOnlyCalled m · c) false := by
  cases i with
  | call calledValue args =>
    refine ends_onlyCalled_false (mem_users_instruction hi (List.mem_cons_of_mem _ hc)) ⟨0, ?_⟩
    intro fuel _
    have hargs : .constant c ∈ args := hc
    simp [userOnlyCalls, hargs]
  | other operands =>
    exact ends_onlyCalled_false (mem_users_instruction hi hc) ⟨0, fun _ _ => rfl⟩

/-- What the memory holds at first -/
theorem ends_false_of_initial (h : Initial m f) : Ends (valueIsOnlyCalled m · f) false := by
  obtain ⟨d, c, hd, hc, hmade⟩ := h
  refine ends_false_of_madeOf hmade (ends_onlyCalled_false (mem_users_constant hc) ⟨0, ?_⟩)
  intro fuel _
  rw [userOnlyCalls]
  rcases hd with ⟨initializer, hnode⟩ | hfunction
  · rw [hnode]
  · rw [Module.isFunction] at hfunction
    cases hnode : m.constant d with
    | function attached => rfl
    | _ => simp [hnode, Constant.isFunction] at hfunction

/-- The invariant of a run: what is held escapes. -/
theorem escapes_of_reachable {held : Nat → Prop} (h : Reachable m held) :
    ∀ f, held f → Ends (valueIsOnlyCalled m · f) false := by
  induction h with
  | refl => exact fun f => ends_false_of_initial
  | tail _ hstep ih =>
    cases hstep with
    | execute i hi =>
      rintro f (hheld | ⟨c, hc, hmade⟩)
      · exact ih f hheld
      · exact ends_false_of_madeOf hmade (ends_false_of_data hi hc)

theorem functionEscapes_of_ends (h : Ends (valueIsOnlyCalled m · f) false) :
    Ends (functionEscapes m · f) true := by
  obtain ⟨n, hn⟩ := h
  exact ⟨n, fun fuel hfuel => congrArg (Option.map not) (hn fuel hfuel)⟩

end Escapes

section Walk

variable {rank : Nat → Nat} {via : Bool} {r : Except Unit (Option Nat)}

def Terminal (m : Module) (c : Nat) : Prop := ∀ d, ¬ FirstStep m c d

theorem aliasStep_unique : Relator.RightUnique (AliasStep m) := by
  rintro c d d' ⟨_, h⟩ ⟨_, h'⟩
  rw [h] at h'
  exact (Constant.globalAlias.inj h').1

theorem firstStep_unique : Relator.RightUnique (FirstStep m) := by
  rintro c d d' (⟨_, h⟩ | ⟨_, _, h⟩) (⟨_, h'⟩ | ⟨_, _, h'⟩) <;> rw [h] at h'
  · exact (Constant.globalAlias.inj h').1
  · cases h'
  · cases h'
  · exact (Constant.constantExpr.inj h').2.1

/-- Two ends of one way are the same. -/
theorem end_unique {step : Nat → Nat → Prop} (hunique : Relator.RightUnique step)
    (hd : ReflTransGen step c d) (he : ReflTransGen step c e) (hend : ∀ x, ¬ step d x)
    (hend' : ∀ x, ¬ step e x) : d = e := by
  rcases ReflTransGen.total_of_right_unique hunique hd he with h | h
  · exact (h.cases_head.resolve_right fun ⟨x, hx, _⟩ => hend x hx)
  · exact (h.cases_head.resolve_right fun ⟨x, hx, _⟩ => hend' x hx).symm

theorem part_of_firstStep (h : FirstStep m c d) : d ∈ (m.constant c).parts := by
  rcases h with ⟨_, h⟩ | ⟨_, _, h⟩
  · rw [h]
    exact List.mem_singleton_self d
  · rw [h]
    exact List.mem_cons_self

theorem rank_le_of_firstSteps (hrank : ∀ c, ∀ part ∈ (m.constant c).parts, rank part < rank c)
    (h : ReflTransGen (FirstStep m) c d) : rank d ≤ rank c := by
  induction h with
  | refl => exact le_rfl
  | tail _ hstep ih => exact (hrank _ _ (part_of_firstStep hstep)).le.trans ih

theorem firstSteps_of_casts (h : ReflTransGen (CastStep m) c d) :
    ReflTransGen (FirstStep m) c d :=
  h.lift id fun _ _ hstep => hstep.imp_right fun ⟨opcode, operands, hnode, _⟩ =>
    ⟨opcode, operands, hnode⟩

/-- Behind a constant expression -/
theorem walk_via (hstrips : Strips m stripPointerCasts)
    (hrank : ∀ c, ∀ part ∈ (m.constant c).parts, rank part < rank c) (n : Nat) :
    ∀ c, rank c < n → ∃ x, ReflTransGen (FirstStep m) c x ∧ Terminal m x ∧
      Ends (walk stripPointerCasts m true · (.constant c) true)
        (if m.isFunction x = true then .ok (some x) else .error ()) := by
  induction n with
  | zero => exact fun c h => absurd h (Nat.not_lt_zero _)
  | succ n ih =>
    intro c hc
    cases hnode : m.constant c with
    | globalAlias aliasee interposable =>
      have hstep : FirstStep m c aliasee := .inl ⟨interposable, hnode⟩
      have hlt := hrank c aliasee (part_of_firstStep hstep)
      obtain ⟨x, hx, hend, hends⟩ := ih aliasee (by omega)
      refine ⟨x, hx.head hstep, hend, hends.of_succ fun fuel => ?_⟩
      simp only [walk, hnode, Bool.true_or, if_true]
    | constantExpr opcode operand operands =>
      have hstep : FirstStep m c operand := .inr ⟨opcode, operands, hnode⟩
      have hlt := hrank c operand (part_of_firstStep hstep)
      have hstripped := firstSteps_of_casts (hstrips operand)
      have hle := rank_le_of_firstSteps hrank hstripped
      obtain ⟨x, hx, hend, hends⟩ := ih (stripPointerCasts operand) (by omega)
      refine ⟨x, (hstripped.trans hx).head hstep, hend, hends.of_succ fun fuel => ?_⟩
      simp only [walk, hnode]
    | _ =>
      refine ⟨c, .refl, ?_, ⟨1, fun fuel hfuel => ?_⟩⟩
      · rintro d (⟨_, h⟩ | ⟨_, _, h⟩) <;> simp [hnode] at h
      · obtain ⟨k, rfl⟩ : ∃ k, fuel = k + 1 := ⟨fuel - 1, by omega⟩
        simp [walk, hnode, unresolved, Module.isFunction, Constant.isFunction]

/-- Through aliases -/
theorem exists_unaliased
    (hrank : ∀ c, ∀ part ∈ (m.constant c).parts, rank part < rank c) (n : Nat) :
    ∀ c, rank c < n → ∃ e, ReflTransGen (AliasStep m) c e ∧ (∀ d, ¬ AliasStep m e d) ∧
      ∀ {r}, Ends (walk stripPointerCasts m true · (.constant e) false) r →
        Ends (walk stripPointerCasts m true · (.constant c) false) r := by
  induction n with
  | zero => exact fun c h => absurd h (Nat.not_lt_zero _)
  | succ n ih =>
    intro c hc
    by_cases hstep : ∃ d, AliasStep m c d
    · obtain ⟨d, interposable, hnode⟩ := hstep
      have hlt := hrank c d (part_of_firstStep (.inl ⟨interposable, hnode⟩))
      obtain ⟨e, he, hend, hends⟩ := ih d (by omega)
      refine ⟨e, he.head ⟨interposable, hnode⟩, hend, fun h => (hends h).of_succ fun fuel => ?_⟩
      simp only [walk, hnode, Bool.true_or, if_true]
    · exact ⟨c, .refl, fun d hd => hstep ⟨d, hd⟩, id⟩

theorem value_of_aliases {V : Valuation m} (h : ReflTransGen (AliasStep m) c e) :
    V.value c = V.value e := by
  induction h with
  | refl => rfl
  | tail _ hstep ih =>
    obtain ⟨interposable, hnode⟩ := hstep
    exact ih.trans (V.globalAlias _ _ interposable hnode)

theorem value_of_casts {V : Valuation m} (h : ReflTransGen (CastStep m) c d) :
    V.value c = V.value d := by
  induction h with
  | refl => rfl
  | tail _ hstep ih =>
    rcases hstep with ⟨interposable, hnode⟩ | ⟨opcode, operands, hnode, hcast⟩
    · exact ih.trans (V.globalAlias _ _ interposable hnode)
    · exact ih.trans (V.pointerCast _ opcode _ operands hnode hcast)

theorem isPointer_of_aliases (h : ReflTransGen (AliasStep m) c e)
    (hc : (m.constant c).isPointer = true) : (m.constant e).isPointer = true := by
  induction h with
  | refl => exact hc
  | tail _ hstep _ =>
    obtain ⟨interposable, hnode⟩ := hstep
    exact m.aliasee_isPointer _ _ interposable hnode

end Walk

section Covered

variable {V : Valuation m} {held : Nat → Prop}

/-- Nothing is called, or what is held. -/
theorem covered_other (hheld : Reachable m held) {calledValue : Value}
    (hvalue : ∀ c, calledValue ≠ .constant c) :
    Covered stripPointerCasts V held calledValue := by
  refine ⟨none, ⟨1, fun fuel hfuel => ?_⟩, fun f hf => .inr ⟨rfl, ?_⟩, by simp⟩
  · obtain ⟨k, rfl⟩ : ∃ k, fuel = k + 1 := ⟨fuel - 1, by omega⟩
    cases calledValue with
    | constant c => exact absurd rfl (hvalue c)
    | register r => rfl
    | inlineAsm => rfl
  · obtain ⟨-, hf⟩ := hf
    cases calledValue with
    | constant c => exact absurd rfl (hvalue c)
    | register r => exact functionEscapes_of_ends (escapes_of_reachable hheld f hf)
    | inlineAsm => exact hf.elim

/-- A constant that is no alias of a constant expression -/
theorem covered_pointer (hc : (m.constant c).isPointer = true)
    (hce : ReflTransGen (AliasStep m) c e) (hends : ∀ {r},
      Ends (walk stripPointerCasts m true · (.constant e) false) r →
        Ends (walk stripPointerCasts m true · (.constant c) false) r)
    (hend : ∀ d, ¬ AliasStep m e d)
    (hexpr : ∀ opcode operand operands, m.constant e ≠ .constantExpr opcode operand operands) :
    Covered stripPointerCasts V held (.constant c) := by
  have henters : ∀ f, Enters V held (.constant c) f → m.isFunction e = true ∧ f = e := by
    rintro f ⟨hf, hcalled⟩
    have hvalue : V.value e = V.value f := (value_of_aliases hce).symm.trans hcalled
    rcases V.otherPointer e f (isPointer_of_aliases hce hc) hf hvalue with
      he | ⟨aliasee, interposable, hnode⟩ | ⟨opcode, operand, operands, hnode⟩
    · exact ⟨he, V.injective f e hf he hvalue.symm⟩
    · exact absurd ⟨interposable, hnode⟩ (hend aliasee)
    · exact absurd hnode (hexpr opcode operand operands)
  have hone : ∀ fuel ≥ 1, walk stripPointerCasts m true fuel (.constant e) false =
      some (.ok (if m.isFunction e = true then some e else none)) := by
    intro fuel hfuel
    obtain ⟨k, rfl⟩ : ∃ k, fuel = k + 1 := ⟨fuel - 1, by omega⟩
    cases hnode : m.constant e with
    | globalAlias aliasee interposable => exact absurd ⟨interposable, hnode⟩ (hend aliasee)
    | constantExpr opcode operand operands => exact absurd hnode (hexpr opcode operand operands)
    | _ => simp [walk, hnode, unresolved, Module.isFunction, Constant.isFunction]
  refine ⟨_, hends ⟨1, hone⟩, fun f hf => .inl ?_, fun g hg f hf => ?_⟩
  · obtain ⟨he, rfl⟩ := henters f hf
    rw [if_pos he]
  · obtain ⟨he, rfl⟩ := henters f hf
    rw [if_pos he] at hg
    exact Option.some.inj hg

theorem terminal_of_isFunction (hf : m.isFunction f = true) : Terminal m f := by
  rw [Module.isFunction] at hf
  rintro d (⟨_, h⟩ | ⟨_, _, h⟩) <;> simp [h, Constant.isFunction] at hf

/-- An alias of a constant expression, or the expression itself -/
theorem covered_expr_iff (hstrips : Strips m stripPointerCasts)
    (hce : ReflTransGen (AliasStep m) c e) (hends : ∀ {r},
      Ends (walk stripPointerCasts m true · (.constant e) false) r →
        Ends (walk stripPointerCasts m true · (.constant c) false) r)
    {opcode : Opcode} {operand : Nat} {operands : List Nat}
    (hnode : m.constant e = .constantExpr opcode operand operands) :
    Covered stripPointerCasts V held (.constant c) ↔ FirstOperandCalled V (.constant c) := by
  obtain ⟨rank, hrank⟩ := m.acyclic
  obtain ⟨x, hx, hterminal, hwalk⟩ :=
    walk_via hstrips hrank _ (stripPointerCasts operand) (Nat.lt_succ_self _)
  have hex : ReflTransGen (FirstStep m) e x :=
    ((firstSteps_of_casts (hstrips operand)).trans hx).head (.inr ⟨opcode, operands, hnode⟩)
  have hresult := hends (hwalk.of_succ fun fuel => by simp only [walk, hnode])
  have hvalue : ∀ f, m.isFunction f = true → V.value e = V.value f →
      Enters V held (.constant c) f := fun f hf h => ⟨hf, (value_of_aliases hce).trans h⟩
  constructor
  · rintro ⟨target, htarget, -, honly⟩
    have heq := htarget.unique hresult
    split_ifs at heq with hfunction
    · rintro _ e' opcode' operand' operands' ⟨⟩ hce' hnode'
      have hnoAlias : ∀ {e opcode operand operands},
          m.constant e = .constantExpr opcode operand operands → ∀ d, ¬ AliasStep m e d := by
        rintro e opcode operand operands hnode d ⟨interposable, h⟩
        rw [hnode] at h
        cases h
      obtain rfl := end_unique aliasStep_unique hce hce' (hnoAlias hnode) (hnoAlias hnode')
      exact ⟨x, hex, hfunction, fun f hf h => honly x (Except.ok.inj heq) f (hvalue f hf h)⟩
  · intro h
    obtain ⟨g, hg, hfunction, honly⟩ := h c e opcode operand operands rfl hce hnode
    obtain rfl := end_unique firstStep_unique hg hex (terminal_of_isFunction hfunction) hterminal
    rw [if_pos hfunction] at hresult
    have henters : ∀ f, Enters V held (.constant c) f → f = g := fun f ⟨hf, hcalled⟩ =>
      honly f hf ((value_of_aliases hce).symm.trans hcalled)
    refine ⟨some g, hresult, fun f hf => .inl (congrArg some (henters f hf).symm), ?_⟩
    rintro _ ⟨⟩ f hf
    exact henters f hf

/-- The casts and aliases of a function are fine. -/
theorem firstOperandCalled_of_casts (V : Valuation m) (hcf : ReflTransGen (CastStep m) c f)
    (hf : m.isFunction f = true) : FirstOperandCalled V (.constant c) := by
  rintro _ e opcode operand operands ⟨⟩ hce hnode
  have hfirst : ReflTransGen (FirstStep m) c e := hce.lift id fun _ _ hstep => .inl hstep
  have hef : ReflTransGen (FirstStep m) e f := by
    rcases ReflTransGen.total_of_right_unique firstStep_unique hfirst (firstSteps_of_casts hcf) with
      h | h
    · exact h
    · rcases h.cases_head with rfl | ⟨x, hx, -⟩
      · exact .refl
      · exact absurd hx (terminal_of_isFunction hf x)
  refine ⟨f, hef, hf, fun g hg hvalue => ?_⟩
  have hcalled : V.value f = V.value g :=
    (value_of_casts hcf).symm.trans ((value_of_aliases hce).trans hvalue)
  exact V.injective g f hg hf hcalled.symm

/-- Every module, every run, every call site of it -/
theorem covered_iff (hstrips : Strips m stripPointerCasts) (V : Valuation m)
    (hheld : Reachable m held) (calledValue : Value) (args : List Value)
    (hcall : .call calledValue args ∈ m.instructions) :
    Covered stripPointerCasts V held calledValue ↔ FirstOperandCalled V calledValue := by
  cases hvalue : calledValue with
  | register r =>
    refine iff_of_true (covered_other hheld (by simp)) ?_
    rintro c e opcode operand operands ⟨⟩
  | inlineAsm =>
    refine iff_of_true (covered_other hheld (by simp)) ?_
    rintro c e opcode operand operands ⟨⟩
  | constant c =>
    obtain ⟨rank, hrank⟩ := m.acyclic
    obtain ⟨e, hce, hend, hends⟩ := exists_unaliased hrank _ c (Nat.lt_succ_self _)
    by_cases hexpr : ∃ opcode operand operands, m.constant e = .constantExpr opcode operand operands
    · obtain ⟨opcode, operand, operands, hnode⟩ := hexpr
      exact covered_expr_iff hstrips hce hends hnode
    · have hno : ∀ opcode operand operands,
          m.constant e ≠ .constantExpr opcode operand operands :=
        fun opcode operand operands h => hexpr ⟨opcode, operand, operands, h⟩
      refine iff_of_true
        (covered_pointer (m.called_isPointer c args (hvalue ▸ hcall)) hce hends hend hno) ?_
      rintro _ e' opcode operand operands ⟨⟩ hce' hnode'
      have heq := end_unique aliasStep_unique hce hce' hend fun d ⟨interposable, h⟩ => by
        rw [hnode'] at h
        cases h
      exact absurd hnode' (heq ▸ hno opcode operand operands)

def castCall : Module where
  constants := [.function [], .constantExpr .bitCast 0 []]
  instructions := [.call (.constant 1) []]
  acyclic := ⟨id, by rintro (_ | _ | c) <;> simp [Constant.parts]⟩
  aliasee_isPointer := by rintro (_ | _ | c) <;> simp
  called_isPointer := by simp [Constant.isPointer]

def castCallValuation : Valuation castCall where
  value c := if c < 2 then 4096 else 0
  injective := by
    have hzero : ∀ f, castCall.isFunction f = true → f = 0 := by
      rintro (_ | _ | f) hf
      · rfl
      · cases hf
      · cases hf
    exact fun f g hf hg _ => (hzero f hf).trans (hzero g hg).symm
  globalAlias := by
    rintro (_ | _ | c) aliasee interposable h <;> cases h
  pointerCast := by
    rintro (_ | _ | c) opcode operand operands h _ <;> cases h
    rfl
  otherPointer := by
    rintro (_ | _ | c) f hc hf hvalue
    · exact .inl rfl
    · exact .inr (.inr ⟨.bitCast, 0, [], rfl⟩)
    · rcases f with _ | _ | f <;> cases hf
      simp at hvalue

theorem covered_castCall :
    Covered id castCallValuation (Initial castCall) (.constant 1) :=
  (covered_iff (fun _ => .refl) castCallValuation .refl (.constant 1) []
    (List.mem_singleton_self _)).mpr
    (firstOperandCalled_of_casts castCallValuation
      (.single (.inr ⟨.bitCast, [], rfl, rfl⟩)) rfl)

def addressCall : Module where
  constants := [.constantInt 4096, .constantExpr .intToPtr 0 [], .function []]
  instructions := [.call (.constant 1) []]
  acyclic := ⟨id, by rintro (_ | _ | _ | c) <;> simp [Constant.parts]⟩
  aliasee_isPointer := by rintro (_ | _ | _ | c) <;> simp
  called_isPointer := by simp [Constant.isPointer]

def addressCallValuation : Valuation addressCall where
  value c := if c < 3 then 4096 else 0
  injective := by
    have htwo : ∀ f, addressCall.isFunction f = true → f = 2 := by
      rintro (_ | _ | _ | f) hf
      · cases hf
      · cases hf
      · rfl
      · cases hf
    exact fun f g hf hg _ => (htwo f hf).trans (htwo g hg).symm
  globalAlias := by
    rintro (_ | _ | _ | c) aliasee interposable h <;> cases h
  pointerCast := by
    rintro (_ | _ | _ | c) opcode operand operands h hcast <;> cases h
    cases hcast
  otherPointer := by
    rintro (_ | _ | _ | c) f hc hf hvalue
    · cases hc
    · exact .inr (.inr ⟨.intToPtr, 0, [], rfl⟩)
    · exact .inl rfl
    · rcases f with _ | _ | _ | f <;> cases hf
      simp at hvalue

def selectCall : Module where
  constants := [.function [], .null, .constantExpr (.other 0) 0 [1], .function [], .function [],
    .constantExpr .select 2 [3, 4]]
  instructions := [.call (.constant 5) []]
  acyclic := ⟨id, by rintro (_ | _ | _ | _ | _ | _ | c) <;> simp [Constant.parts]⟩
  aliasee_isPointer := by rintro (_ | _ | _ | _ | _ | _ | c) <;> simp
  called_isPointer := by simp [Constant.isPointer]

/-- The assertion fails on the number, and of the selection the function that is compared is
returned. -/
theorem getDirectCallTarget_constantExpr :
    getDirectCallTarget id addressCall true 2 (.constant 1) = some (.error ()) ∧
      Enters addressCallValuation (Initial addressCall) (.constant 1) 2 ∧
      getDirectCallTarget id selectCall true 4 (.constant 5) = some (.ok (some 0)) :=
  ⟨rfl, ⟨rfl, rfl⟩, rfl⟩

end Covered

end Klee.CallTarget
