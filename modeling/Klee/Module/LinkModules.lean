import Mathlib.Data.Finset.Basic
import Mathlib.Data.List.ReduceOption
import Mathlib.Tactic

/-! `linkModules`, with the linker of LLVM as a parameter. -/
namespace Klee.LinkModules

structure Module where
  identifier : String
  defined : Finset String
  declared : Finset String
  disjoint : Disjoint defined declared

namespace Module

def defines (m : Module) (symbol : String) : Bool := symbol ∈ m.defined

/-- `getNamedValue` finds definitions and declarations. -/
def hasNamedValue (m : Module) (symbol : String) : Bool :=
  symbol ∈ m.defined || symbol ∈ m.declared

def llvmIntrinsicPrefix : String := "llvm."

def isIntrinsic (symbol : String) : Bool :=
  llvmIntrinsicPrefix.toList.isPrefixOf symbol.toList

def GetAllUndefinedSymbols (m : Module) : Finset String :=
  m.declared.filter fun symbol => symbol ∉ m.defined ∧ isIntrinsic symbol = false

end Module

/-- What `errorMsg` says. Modules are named by their identifiers. -/
inductive Error where
  | definedInDifferentModules (module composite : String)
  | notFound
  | linkingFailed (module : String)
deriving DecidableEq, Repr

def Error.errorMsg (entryFunction : String) : Error → String
  | definedInDifferentModules module composite =>
    "Function " ++ entryFunction ++ " defined in different modules (" ++ module ++
      " already defined in: " ++ composite ++ ")"
  | notFound => "Entry function '" ++ entryFunction ++ "' not found in module."
  | linkingFailed module =>
    "Linking archive module with composite failed:" ++ "Linking module " ++ module ++ " failed"

/-- The composite module, and the modules with those that are linked in set to null. -/
structure State where
  composite : Module
  modules : List (Option Module)

variable (link : Module → Module → Option Module)

def findComposite (entryFunction : String) :
    Option Module → List Module → Except Error (Option Module × List (Option Module))
  | composite, [] => .ok (composite, [])
  | composite, module :: modules =>
    if module.hasNamedValue entryFunction then
      match composite with
      | some composite =>
        .error (.definedInDifferentModules module.identifier composite.identifier)
      | none => (findComposite entryFunction (some module) modules).map fun r => (r.1, none :: r.2)
    else (findComposite entryFunction composite modules).map fun r => (r.1, some module :: r.2)

/-- One pass over the modules, with the symbols that were undefined before it. The last result is
`merged`. -/
def pass (undefinedSymbols : Finset String) :
    Module → List (Option Module) → Except Error (State × Bool)
  | composite, [] => .ok (⟨composite, []⟩, false)
  | composite, none :: modules =>
    (pass undefinedSymbols composite modules).map fun r =>
      (⟨r.1.composite, none :: r.1.modules⟩, r.2)
  | composite, some module :: modules =>
    if ∃ symbol ∈ undefinedSymbols, module.defines symbol then
      match link composite module with
      | some composite =>
        (pass undefinedSymbols composite modules).map fun r =>
          (⟨r.1.composite, none :: r.1.modules⟩, true)
      | none => .error (.linkingFailed module.identifier)
    else
      (pass undefinedSymbols composite modules).map fun r =>
        (⟨r.1.composite, some module :: r.1.modules⟩, r.2)

/-- `while (true)`, with a number of passes. -/
def loop : Nat → State → Option (Except Error State)
  | 0, _ => none
  | fuel + 1, st =>
    if st.composite.GetAllUndefinedSymbols = ∅ then some (.ok st)
    else
      match pass link st.composite.GetAllUndefinedSymbols st.composite st.modules with
      | .error e => some (.error e)
      | .ok (st, merged) => if merged then loop fuel st else some (.ok st)

def linkAll : Module → List Module → Except Error Module
  | composite, [] => .ok composite
  | composite, module :: modules =>
    match link composite module with
    | some composite => linkAll composite modules
    | none => .error (.linkingFailed module.identifier)

/-- The composite module and the modules that are left. That there is a module is asserted. -/
def linkModules (modules : List Module) (nonempty : modules ≠ []) (entryFunction : String)
    (fuel : Nat) : Option (Except Error (Module × List Module)) :=
  if entryFunction = "" then
    some ((linkAll link (modules.getLast nonempty) modules.dropLast).map fun composite =>
      (composite, []))
  else
    match findComposite entryFunction none modules with
    | .error e => some (.error e)
    | .ok (none, _) => some (.error .notFound)
    | .ok (some composite, modules) =>
      (loop link fuel ⟨composite, modules⟩).map fun r =>
        r.map fun st => (st.composite, st.modules.reduceOption)

end Klee.LinkModules

/-! The rule by which `linkModules` links. -/
namespace Klee.LinkModules

variable {link : Module → Module → Option Module} {entryFunction : String}

/-- What the linker is relied on for: it unites the definitions, fails on duplicates and forgets
no name of the composite module. -/
structure Linker (link : Module → Module → Option Module) : Prop where
  defined : ∀ {dest src composite}, link dest src = some composite →
    composite.defined = dest.defined ∪ src.defined
  duplicate : ∀ {dest src}, ¬ Disjoint dest.defined src.defined → link dest src = none
  keeps : ∀ {dest src composite}, link dest src = some composite →
    dest.declared ⊆ composite.defined ∪ composite.declared

section Rule

/-- A module is linked in that defines a symbol that is undefined in the composite module at that
moment. -/
inductive Links (link : Module → Module → Option Module) : State → State → Prop
  | refl (st : State) : Links link st st
  | step {composite composite' module : Module} {before after : List (Option Module)} {st : State} :
    (∃ symbol ∈ composite.GetAllUndefinedSymbols, symbol ∈ module.defined) →
    link composite module = some composite' →
    Links link ⟨composite', before ++ none :: after⟩ st →
    Links link ⟨composite, before ++ some module :: after⟩ st

/-- Either no module is left that defines an undefined symbol, or a module cannot be linked in:
one that defines an undefined symbol, or one that defines a symbol again. -/
def Resolves (link : Module → Module → Option Module) (st : State) :
    Except Error (Module × List Module) → Prop
  | .ok (composite, modules) => ∃ slots, Links link st ⟨composite, slots⟩ ∧
      modules = slots.reduceOption ∧
      ∀ module ∈ modules, ∀ symbol ∈ composite.GetAllUndefinedSymbols, symbol ∉ module.defined
  | .error e => ∃ st' module, Links link st st' ∧ some module ∈ st'.modules ∧
      link st'.composite module = none ∧ e = .linkingFailed module.identifier ∧
      ((∃ symbol ∈ st'.composite.GetAllUndefinedSymbols, symbol ∈ module.defined) ∨
        ¬ Disjoint st'.composite.defined module.defined)

/-- What linking is for: it starts from the one module that defines the entry function. -/
def Correct (link : Module → Module → Option Module) (modules : List Module)
    (entryFunction : String) (r : Except Error (Module × List Module)) : Prop :=
  if modules.countP (·.defines entryFunction) = 1 then
    ∃ before module after, modules = before ++ module :: after ∧
      entryFunction ∈ module.defined ∧
      Resolves link ⟨module, before.map some ++ none :: after.map some⟩ r
  else r = .error .notFound ∨ ∃ module composite,
    r = .error (.definedInDifferentModules module composite)

end Rule

section Links

variable {st st' st'' : State} {slot : Option Module}

theorem Links.trans (h : Links link st st') (h' : Links link st' st'') : Links link st st'' := by
  induction h with
  | refl => exact h'
  | step hundefined hlink _ ih => exact .step hundefined hlink (ih h')

theorem Links.cons (slot : Option Module) (h : Links link st st') :
    Links link ⟨st.composite, slot :: st.modules⟩ ⟨st'.composite, slot :: st'.modules⟩ := by
  induction h with
  | refl => exact .refl _
  | @step composite composite' module before after _ hundefined hlink _ ih =>
    change Links link ⟨composite, (slot :: before) ++ some module :: after⟩ _
    exact .step hundefined hlink ih

def left (st : State) : Nat := st.modules.countP Option.isSome

theorem Links.left_le (h : Links link st st') : left st' ≤ left st := by
  induction h with
  | refl => exact le_rfl
  | step _ _ _ ih =>
    simp only [left, List.countP_append, List.countP_cons, Option.isSome_none, Option.isSome_some,
      if_true] at ih ⊢
    simp only [Bool.false_eq_true, if_false] at ih
    omega

end Links

section Pass

variable {undefinedSymbols : Finset String} {composite composite' module : Module}
  {modules : List (Option Module)} {st : State} {merged : Bool}

/-- The symbols that were undefined before the pass are undefined or defined by now. -/
def Covers (undefinedSymbols : Finset String) (composite : Module) : Prop :=
  undefinedSymbols ⊆ composite.defined ∪ composite.GetAllUndefinedSymbols

theorem Covers.of_link (hlinker : Linker link) (h : Covers undefinedSymbols composite)
    (hlink : link composite module = some composite') : Covers undefinedSymbols composite' := by
  intro symbol hsymbol
  have hdefined := hlinker.defined hlink
  rcases Finset.mem_union.mp (h hsymbol) with hold | hold
  · exact Finset.mem_union_left _ (hdefined ▸ Finset.mem_union_left _ hold)
  · obtain ⟨hdeclared, -, hintrinsic⟩ := Finset.mem_filter.mp hold
    by_cases hnew : symbol ∈ composite'.defined
    · exact Finset.mem_union_left _ hnew
    · have hstill := (Finset.mem_union.mp (hlinker.keeps hlink hdeclared)).resolve_left hnew
      exact Finset.mem_union_right _ (Finset.mem_filter.mpr ⟨hstill, hnew, hintrinsic⟩)

theorem exists_defines_iff : (∃ symbol ∈ undefinedSymbols, module.defines symbol) ↔
    ∃ symbol ∈ undefinedSymbols, symbol ∈ module.defined := by
  simp only [Module.defines, decide_eq_true_eq]

/-- A symbol of the pass that the module defines is still undefined, or the module defines it
again. -/
theorem Covers.wanted (h : Covers undefinedSymbols composite)
    (hmatch : ∃ symbol ∈ undefinedSymbols, symbol ∈ module.defined) :
    (∃ symbol ∈ composite.GetAllUndefinedSymbols, symbol ∈ module.defined) ∨
      ¬ Disjoint composite.defined module.defined := by
  obtain ⟨symbol, hsymbol, hdefined⟩ := hmatch
  rcases Finset.mem_union.mp (h hsymbol) with hold | hold
  · exact .inr fun hdisjoint => Finset.disjoint_left.mp hdisjoint hold hdefined
  · exact .inl ⟨symbol, hold, hdefined⟩

/-- The linker does not link a module that defines a symbol again, so one that is linked in was
wanted at that moment. -/
theorem Covers.wanted_of_link (hlinker : Linker link) (h : Covers undefinedSymbols composite)
    (hmatch : ∃ symbol ∈ undefinedSymbols, symbol ∈ module.defined)
    (hlink : link composite module = some composite') :
    ∃ symbol ∈ composite.GetAllUndefinedSymbols, symbol ∈ module.defined := by
  refine (h.wanted hmatch).resolve_right fun hdisjoint => ?_
  rw [hlinker.duplicate hdisjoint] at hlink
  cases hlink

theorem Links.head {slots : List (Option Module)}
    (hundefined : ∃ symbol ∈ composite.GetAllUndefinedSymbols, symbol ∈ module.defined)
    (hlink : link composite module = some composite')
    (h : Links link ⟨composite', modules⟩ ⟨st.composite, slots⟩) :
    Links link ⟨composite, some module :: modules⟩ ⟨st.composite, none :: slots⟩ := by
  change Links link ⟨composite, [] ++ some module :: modules⟩ _
  exact .step hundefined hlink (h.cons none)

theorem map_ok {α β : Type} {f : α → β} {x : Except Error α} {b : β} (h : x.map f = .ok b) :
    ∃ a, x = .ok a ∧ f a = b := by
  cases x with
  | error e => cases h
  | ok a => exact ⟨a, rfl, Except.ok.inj h⟩

theorem map_error {α β : Type} {f : α → β} {x : Except Error α} {e : Error}
    (h : x.map f = .error e) : x = .error e := by
  cases x with
  | error e' => exact congrArg _ (Except.error.inj h)
  | ok a => cases h

theorem pass_ok (hlinker : Linker link) (hcovers : Covers undefinedSymbols composite)
    (h : pass link undefinedSymbols composite modules = .ok (st, merged)) :
    Links link ⟨composite, modules⟩ st ∧
      (merged = true → left st < left ⟨composite, modules⟩) ∧
      (merged = false → st = ⟨composite, modules⟩ ∧ ∀ module, some module ∈ modules →
        ∀ symbol ∈ undefinedSymbols, symbol ∉ module.defined) := by
  induction modules generalizing composite st merged with
  | nil =>
    obtain ⟨rfl, rfl⟩ := Prod.mk.inj (Except.ok.inj h)
    exact ⟨.refl _, by simp, by simp⟩
  | cons slot modules ih =>
    cases slot with
    | none =>
      obtain ⟨⟨st', merged'⟩, hrest, heq⟩ := map_ok h
      obtain ⟨rfl, rfl⟩ := Prod.mk.inj heq
      obtain ⟨hlinks, hless, hsame⟩ := ih hcovers hrest
      refine ⟨hlinks.cons none, fun hmerged => ?_, fun hmerged => ?_⟩
      · simpa [left] using hless hmerged
      · obtain ⟨rfl, hnone⟩ := hsame hmerged
        exact ⟨rfl, by simpa using hnone⟩
    | some module =>
      rw [pass] at h
      split_ifs at h with hmatch
      · rw [exists_defines_iff] at hmatch
        cases hlink : link composite module with
        | none => simp [hlink] at h
        | some composite' =>
          rw [hlink] at h
          obtain ⟨⟨st', merged'⟩, hrest, heq⟩ := map_ok h
          obtain ⟨rfl, rfl⟩ := Prod.mk.inj heq
          obtain ⟨hlinks, -, -⟩ := ih (hcovers.of_link hlinker hlink) hrest
          refine ⟨hlinks.head (hcovers.wanted_of_link hlinker hmatch hlink) hlink, fun _ => ?_,
            fun hmerged => Bool.noConfusion hmerged⟩
          have hle := hlinks.left_le
          simp only [left, List.countP_cons, Option.isSome_none, Option.isSome_some] at hle ⊢
          simp only [Bool.false_eq_true, if_false, if_true]
          omega
      · rw [exists_defines_iff] at hmatch
        obtain ⟨⟨st', merged'⟩, hrest, heq⟩ := map_ok h
        obtain ⟨rfl, rfl⟩ := Prod.mk.inj heq
        obtain ⟨hlinks, hless, hsame⟩ := ih hcovers hrest
        refine ⟨hlinks.cons (some module), fun hmerged => ?_, fun hmerged => ?_⟩
        · simpa [left] using hless hmerged
        · obtain ⟨rfl, hnone⟩ := hsame hmerged
          refine ⟨rfl, fun module' hmodule' symbol hsymbol hdefined => ?_⟩
          rcases List.mem_cons.mp hmodule' with heq | hmem
          · rw [Option.some.inj heq] at hdefined
            exact hmatch ⟨symbol, hsymbol, hdefined⟩
          · exact hnone module' hmem symbol hsymbol hdefined

theorem pass_error (hlinker : Linker link) (hcovers : Covers undefinedSymbols composite)
    {e : Error} (h : pass link undefinedSymbols composite modules = .error e) :
    Resolves link ⟨composite, modules⟩ (.error e) := by
  induction modules generalizing composite with
  | nil => cases h
  | cons slot modules ih =>
    cases slot with
    | none =>
      obtain ⟨st', module, hlinks, hmem, hrest⟩ := ih hcovers (map_error h)
      exact ⟨_, module, hlinks.cons none, List.mem_cons_of_mem _ hmem, hrest⟩
    | some module =>
      rw [pass] at h
      split_ifs at h with hmatch
      · rw [exists_defines_iff] at hmatch
        cases hlink : link composite module with
        | none =>
          rw [hlink] at h
          exact ⟨_, module, .refl _, List.mem_cons_self, hlink, (Except.error.inj h).symm,
            hcovers.wanted hmatch⟩
        | some composite' =>
          rw [hlink] at h
          obtain ⟨st', module', hlinks, hmem, hrest⟩ :=
            ih (hcovers.of_link hlinker hlink) (map_error h)
          exact ⟨_, module', hlinks.head (hcovers.wanted_of_link hlinker hmatch hlink) hlink,
            List.mem_cons_of_mem _ hmem, hrest⟩
      · obtain ⟨st', module', hlinks, hmem, hrest⟩ := ih hcovers (map_error h)
        exact ⟨_, module', hlinks.cons (some module), List.mem_cons_of_mem _ hmem, hrest⟩

end Pass

section Loop

variable {st st' : State}

theorem Resolves.after {r : Except Error (Module × List Module)} (h : Links link st st')
    (hr : Resolves link st' r) : Resolves link st r := by
  cases r with
  | ok result =>
    obtain ⟨slots, hlinks, hrest⟩ := hr
    exact ⟨slots, h.trans hlinks, hrest⟩
  | error e =>
    obtain ⟨st'', module, hlinks, hrest⟩ := hr
    exact ⟨st'', module, h.trans hlinks, hrest⟩

def State.result (st : State) : Module × List Module := (st.composite, st.modules.reduceOption)

theorem resolves_done (h : ∀ module, some module ∈ st.modules →
    ∀ symbol ∈ st.composite.GetAllUndefinedSymbols, symbol ∉ module.defined) :
    Resolves link st (.ok st.result) :=
  ⟨st.modules, .refl st, rfl, fun module hmodule => h module (List.reduceOption_mem_iff.mp hmodule)⟩

/-- Each pass but the last links a module in. -/
theorem loop_resolves (hlinker : Linker link) (n : Nat) : ∀ st, left st < n →
    ∃ r : Except Error State, (∀ fuel ≥ n, loop link fuel st = some r) ∧
      Resolves link st (r.map State.result) := by
  induction n with
  | zero => exact fun _ h => absurd h (Nat.not_lt_zero _)
  | succ n ih =>
    intro st hleft
    have hcovers : Covers st.composite.GetAllUndefinedSymbols st.composite :=
      Finset.subset_union_right
    have hfuel : ∀ r, (∀ fuel ≥ n, loop link (fuel + 1) st = some r) →
        ∀ fuel ≥ n + 1, loop link fuel st = some r := by
      intro r h fuel hle
      obtain ⟨k, rfl⟩ : ∃ k, fuel = k + 1 := ⟨fuel - 1, by omega⟩
      exact h k (by omega)
    by_cases hnone : st.composite.GetAllUndefinedSymbols = ∅
    · refine ⟨.ok st, hfuel _ fun fuel _ => ?_, resolves_done fun module _ symbol hsymbol => ?_⟩
      · rw [loop, if_pos hnone]
      · simp [hnone] at hsymbol
    cases hpass : pass link st.composite.GetAllUndefinedSymbols st.composite st.modules with
    | error e =>
      refine ⟨.error e, hfuel _ fun fuel _ => ?_, pass_error hlinker hcovers hpass⟩
      rw [loop, if_neg hnone, hpass]
    | ok result =>
      obtain ⟨st', merged⟩ := result
      obtain ⟨hlinks, hless, hsame⟩ := pass_ok hlinker hcovers hpass
      cases merged with
      | false =>
        obtain ⟨rfl, hrest⟩ := hsame rfl
        refine ⟨.ok ⟨st.composite, st.modules⟩, hfuel _ fun fuel _ => ?_, resolves_done hrest⟩
        rw [loop, if_neg hnone, hpass]
        rfl
      | true =>
        obtain ⟨r, hr, hresolves⟩ := ih st' ((hless rfl).trans_le (Nat.le_of_lt_succ hleft))
        refine ⟨r, hfuel _ fun fuel hle => ?_, hresolves.after hlinks⟩
        rw [loop, if_neg hnone, hpass]
        exact hr fuel hle

end Loop

section Search

variable {modules : List Module} {composite : Module}

theorem findComposite_named {module : Module} (h : module.hasNamedValue entryFunction = true) :
    findComposite entryFunction none (module :: modules) =
      (findComposite entryFunction (some module) modules).map fun r => (r.1, none :: r.2) :=
  if_pos h

theorem findComposite_unnamed {module : Module} (found : Option Module)
    (h : module.hasNamedValue entryFunction = false) :
    findComposite entryFunction found (module :: modules) =
      (findComposite entryFunction found modules).map fun r => (r.1, some module :: r.2) := by
  cases found <;> exact if_neg (Bool.eq_false_iff.mp h)

theorem findComposite_absent (found : Option Module)
    (h : ∀ module ∈ modules, module.hasNamedValue entryFunction = false) :
    findComposite entryFunction found modules = .ok (found, modules.map some) := by
  induction modules with
  | nil => cases found <;> rfl
  | cons module modules ih =>
    rw [List.forall_mem_cons] at h
    rw [findComposite_unnamed found h.1, ih h.2]
    rfl

theorem findComposite_twice (composite : Module)
    (h : ∃ module ∈ modules, module.hasNamedValue entryFunction = true) :
    ∃ identifier, findComposite entryFunction (some composite) modules =
      .error (.definedInDifferentModules identifier composite.identifier) := by
  induction modules with
  | nil => simp at h
  | cons module modules ih =>
    cases hnamed : module.hasNamedValue entryFunction with
    | true => exact ⟨_, if_pos hnamed⟩
    | false =>
      obtain ⟨identifier, hrest⟩ := ih (by simpa [hnamed] using h)
      exact ⟨identifier, by rw [findComposite_unnamed _ hnamed, hrest]; rfl⟩

/-- The search, by the number of modules that have a value of that name. -/
theorem findComposite_none (entryFunction : String) (modules : List Module) :
    (modules.countP (·.hasNamedValue entryFunction) = 0 ∧
      findComposite entryFunction none modules = .ok (none, modules.map some)) ∨
    (modules.countP (·.hasNamedValue entryFunction) = 1 ∧ ∃ before module after,
      modules = before ++ module :: after ∧ module.hasNamedValue entryFunction = true ∧
      findComposite entryFunction none modules =
        .ok (some module, before.map some ++ none :: after.map some)) ∨
    (1 < modules.countP (·.hasNamedValue entryFunction) ∧ ∃ module composite,
      findComposite entryFunction none modules =
        .error (.definedInDifferentModules module composite)) := by
  induction modules with
  | nil => exact .inl ⟨rfl, rfl⟩
  | cons module modules ih =>
    rw [List.countP_cons]
    cases hnamed : module.hasNamedValue entryFunction with
    | true =>
      rw [findComposite_named hnamed, if_pos rfl]
      rcases Nat.eq_zero_or_pos (modules.countP (·.hasNamedValue entryFunction)) with hzero | hpos
      · have habsent := findComposite_absent (some module) fun m hm =>
          Bool.eq_false_iff.mpr (List.countP_eq_zero.mp hzero m hm)
        exact .inr (.inl ⟨by omega, [], module, modules, rfl, hnamed, by rw [habsent]; rfl⟩)
      · obtain ⟨identifier, htwice⟩ := findComposite_twice module (List.countP_pos_iff.mp hpos)
        exact .inr (.inr ⟨by omega, identifier, module.identifier, by rw [htwice]; rfl⟩)
    | false =>
      rw [findComposite_unnamed _ hnamed, if_neg Bool.false_ne_true]
      rcases ih with ⟨hcount, h⟩ | ⟨hcount, before, m, after, rfl, hm, h⟩ | ⟨hcount, m, c, h⟩
      · exact .inl ⟨hcount, by rw [h]; rfl⟩
      · exact .inr (.inl ⟨hcount, module :: before, m, after, rfl, hm, by rw [h]; rfl⟩)
      · exact .inr (.inr ⟨hcount, m, c, by rw [h]; rfl⟩)

end Search

section Entry

variable {modules : List Module}

theorem countP_defines_le (modules : List Module) (symbol : String) :
    modules.countP (·.defines symbol) ≤ modules.countP (·.hasNamedValue symbol) := by
  refine List.countP_mono_left fun module _ h => ?_
  rw [Module.hasNamedValue, Bool.or_eq_true]
  exact .inl h

/-- Every list of modules, every entry function -/
theorem linkModules_correct_iff (hlinker : Linker link) (modules : List Module)
    (nonempty : modules ≠ []) (hentry : entryFunction ≠ "") :
    (∃ r, (∀ fuel > modules.length,
        linkModules link modules nonempty entryFunction fuel = some r) ∧
      Correct link modules entryFunction r) ↔
    (modules.countP (·.hasNamedValue entryFunction) = 1 ↔
      modules.countP (·.defines entryFunction) = 1) := by
  have hle := countP_defines_le modules entryFunction
  rcases findComposite_none entryFunction modules with
    ⟨hcount, h⟩ | ⟨hcount, before, module, after, hsplit, hnamed, h⟩ | ⟨hcount, m, c, h⟩
  · -- no module has the name
    refine iff_of_true ⟨.error .notFound, fun fuel _ => ?_, ?_⟩ (by omega)
    · rw [linkModules, if_neg hentry, h]
    · rw [Correct, if_neg (by omega)]
      exact .inl rfl
  · have hleft : left ⟨module, before.map some ++ none :: after.map some⟩ < modules.length + 1 := by
      rw [left, hsplit]
      have hall : ∀ ms : List Module, (ms.map some).countP Option.isSome = ms.length := by
        intro ms
        rw [List.countP_map]
        exact List.countP_eq_length.mpr fun _ _ => rfl
      simp only [List.countP_append, List.countP_cons, hall, List.length_append, List.length_cons]
      simp only [Option.isSome_none, Bool.false_eq_true, if_false]
      omega
    obtain ⟨r, hloop, hresolves⟩ := loop_resolves hlinker _ _ hleft
    have hrun : ∀ fuel > modules.length, linkModules link modules nonempty entryFunction fuel =
        some (r.map State.result) := by
      intro fuel hfuel
      rw [linkModules, if_neg hentry, h]
      simp only [hloop fuel hfuel]
      rfl
    have hdefines : modules.countP (·.defines entryFunction) =
        if module.defines entryFunction then 1 else 0 := by
      have hbefore := countP_defines_le before entryFunction
      have hafter := countP_defines_le after entryFunction
      rw [hsplit, List.countP_append, List.countP_cons] at hcount ⊢
      rw [hnamed, if_pos rfl] at hcount
      omega
    by_cases hdefined : module.defines entryFunction = true
    · rw [if_pos hdefined] at hdefines
      refine iff_of_true ⟨_, hrun, ?_⟩ (by omega)
      rw [Correct, if_pos hdefines]
      exact ⟨before, module, after, hsplit, of_decide_eq_true hdefined, hresolves⟩
    · -- the module only declares the entry function, and linking starts from it
      rw [if_neg hdefined] at hdefines
      refine iff_of_false ?_ (by omega)
      rintro ⟨r', hr', hcorrect⟩
      obtain rfl : r' = r.map State.result :=
        Option.some.inj ((hr' _ (Nat.lt_succ_self _)).symm.trans (hrun _ (Nat.lt_succ_self _)))
      rw [Correct, if_neg (by omega)] at hcorrect
      rcases hcorrect with herror | ⟨m, c, herror⟩
      · rw [herror] at hresolves
        obtain ⟨_, _, -, -, -, heq, -⟩ := hresolves
        cases heq
      · rw [herror] at hresolves
        obtain ⟨_, _, -, -, -, heq, -⟩ := hresolves
        cases heq
  · -- two modules have the name
    have hrun : ∀ fuel, linkModules link modules nonempty entryFunction fuel =
        some (.error (.definedInDifferentModules m c)) := by
      intro fuel
      rw [linkModules, if_neg hentry, h]
    constructor
    · rintro ⟨r, hr, hcorrect⟩
      obtain rfl : r = .error (.definedInDifferentModules m c) :=
        Option.some.inj ((hr _ (Nat.lt_succ_self _)).symm.trans (hrun _))
      refine iff_of_false (by omega) fun hone => ?_
      rw [Correct, if_pos hone] at hcorrect
      obtain ⟨_, _, _, -, -, st, module, -, -, -, herror, -⟩ := hcorrect
      cases herror
    · intro hiff
      refine ⟨_, fun fuel _ => hrun fuel, ?_⟩
      rw [Correct, if_neg (by omega)]
      exact .inr ⟨m, c, rfl⟩

def uniteNames (dest src : Module) : Option Module :=
  if Disjoint dest.defined src.defined then
    some ⟨dest.identifier, dest.defined ∪ src.defined,
      (dest.declared ∪ src.declared) \ (dest.defined ∪ src.defined), Finset.disjoint_sdiff⟩
  else none

theorem linker_uniteNames : Linker uniteNames where
  defined := by
    intro dest src composite h
    rw [uniteNames] at h
    split_ifs at h
    exact (congrArg Module.defined (Option.some.inj h)).symm
  duplicate := fun h => if_neg h
  keeps := by
    intro dest src composite h symbol hsymbol
    rw [uniteNames] at h
    split_ifs at h
    obtain rfl := Option.some.inj h
    by_cases hdefined : symbol ∈ dest.defined ∪ src.defined
    · exact Finset.mem_union_left _ hdefined
    · exact Finset.mem_union_right _
        (Finset.mem_sdiff.mpr ⟨Finset.mem_union_left _ hsymbol, hdefined⟩)

def program : Module := ⟨"program", {"main"}, {"malloc"}, by decide⟩

def library : Module := ⟨"library", {"malloc"}, ∅, by decide⟩

def runtime : Module := ⟨"runtime", {"start"}, {"main"}, by decide⟩

theorem linkModules_correct_library :
    ∃ r, (∀ fuel > 2, linkModules uniteNames [library, program] (List.cons_ne_nil _ _) "main" fuel =
        some r) ∧ Correct uniteNames [library, program] "main" r :=
  (linkModules_correct_iff linker_uniteNames [library, program] (List.cons_ne_nil _ _)
    (by decide)).mpr (by decide)

/-- The module that declares the entry function counts as one that defines it. -/
theorem linkModules_declared :
    linkModules uniteNames [program, runtime] (List.cons_ne_nil _ _) "main" 3 =
      some (.error (.definedInDifferentModules "runtime" "program")) ∧
    [program, runtime].countP (·.defines "main") = 1 :=
  ⟨rfl, rfl⟩

end Entry

end Klee.LinkModules
