import Klee.Lib.Fuel
import Klee.Lib.Redirect
import Klee.Module.FunctionAlias
import Mathlib.Data.List.Find

/-! What `FunctionAliasPass` leaves of the aliases. -/
namespace Klee.FunctionAlias

open Fuel Redirect

variable {Ty : Type} {regex : Regex} {globalValues : Module Ty → List Nat} {m m' : Module Ty}
  {v w r fuel : Nat}

section Meaning

/-- What the pass should leave: no cycle, the names, and values that resolve as they should. A
replaced value resolves as the replacement did when the option was applied, and any other as it did
before the pass, up to values that later options replace. -/
structure Good (m : Module Ty) (replaced : List (List Nat × Nat)) (m' : Module Ty) : Prop where
  acyclic : Acyclic m'.next
  names : ∀ name, m'.getNamedValue name = m.getNamedValue name
  matched : ∀ before ms r after, replaced = before ++ (ms, r) :: after →
    ∀ v ∈ ms, v ∉ sources after → ResolvesAs (redirects m.next before) after m'.next v r
  unmatched : ∀ v ∉ sources replaced, ResolvesAs m.next replaced m'.next v v

def OptionsApart [DecidableEq Ty] (regex : Regex) (globalValues : Module Ty → List Nat)
    (m : Module Ty) : List String → Prop
  | [] => True
  | pair :: options => ∀ m' ms r,
    Ends (applyOption regex globalValues · m pair) (.ok (m', ms, r)) →
      (∀ v ∈ ms, ¬ Reaches m.next r v) ∧ OptionsApart regex globalValues m' options

end Meaning

section IsFunction

theorem isFunction_of_next (h : m.next v = some w) (fuel : Nat) :
    isFunctionOrGlobalFunctionAlias m (fuel + 1) (some v) =
      isFunctionOrGlobalFunctionAlias m fuel (some w) := by
  rw [Module.next] at h
  rw [isFunctionOrGlobalFunctionAlias]
  cases hkind : (m[v]?).map GlobalValue.kind with
  | none => simp [hkind] at h
  | some kind =>
    rw [hkind] at h
    cases kind with
    | function => cases h
    | globalVariable => cases h
    | globalAlias aliasee =>
      cases aliasee with
      | globalValue u => rw [Option.some.inj h]
      | cast u => rw [Option.some.inj h]
      | other => cases h

theorem isFunction_of_end (h : m.next v = none) : ∃ b, ∀ fuel,
    isFunctionOrGlobalFunctionAlias m (fuel + 1) (some v) = some b := by
  rw [Module.next] at h
  cases hkind : (m[v]?).map GlobalValue.kind with
  | none => exact ⟨false, fun _ => by rw [isFunctionOrGlobalFunctionAlias, hkind]⟩
  | some kind =>
    rw [hkind] at h
    cases kind with
    | function => exact ⟨true, fun _ => by rw [isFunctionOrGlobalFunctionAlias, hkind]⟩
    | globalVariable => exact ⟨false, fun _ => by rw [isFunctionOrGlobalFunctionAlias, hkind]⟩
    | globalAlias aliasee =>
      cases aliasee with
      | globalValue w => cases h
      | cast w => cases h
      | other => exact ⟨false, fun _ => by rw [isFunctionOrGlobalFunctionAlias, hkind]⟩

theorem isFunction_mono {b : Bool} {value : Option Nat}
    (h : isFunctionOrGlobalFunctionAlias m fuel value = some b) {n : Nat} (hn : fuel ≤ n) :
    isFunctionOrGlobalFunctionAlias m n value = some b := by
  induction fuel generalizing value n with
  | zero => cases h
  | succ fuel ih =>
    obtain ⟨k, rfl⟩ : ∃ k, n = k + 1 := ⟨n - 1, by omega⟩
    cases value with
    | none => exact h
    | some v =>
      cases hnext : m.next v with
      | none =>
        obtain ⟨b', hb'⟩ := isFunction_of_end hnext
        rw [hb'] at h ⊢
        exact h
      | some w =>
        rw [isFunction_of_next hnext] at h ⊢
        exact ih h (by omega)

theorem resolves_of_isFunction {b : Bool}
    (h : isFunctionOrGlobalFunctionAlias m fuel (some v) = some b) :
    ∃ f, Resolves m.next v f := by
  induction fuel generalizing v with
  | zero => cases h
  | succ fuel ih =>
    cases hnext : m.next v with
    | none => exact ⟨v, .refl, hnext⟩
    | some w =>
      rw [isFunction_of_next hnext] at h
      obtain ⟨f, hwf, hf⟩ := ih h
      exact ⟨f, hwf.head hnext, hf⟩

/-- Along an acyclic chain the recursion ends. -/
theorem exists_isFunction (hm : Acyclic m.next) (value : Option Nat) :
    ∃ b n, isFunctionOrGlobalFunctionAlias m n value = some b := by
  cases value with
  | none => exact ⟨false, 1, rfl⟩
  | some v =>
    obtain ⟨rank, hrank⟩ := hm
    induction hv : rank v using Nat.strong_induction_on generalizing v with
    | _ k ih =>
      cases hnext : m.next v with
      | none =>
        obtain ⟨b, hb⟩ := isFunction_of_end hnext
        exact ⟨b, 1, hb 0⟩
      | some w =>
        obtain ⟨b, n, hn⟩ := ih (rank w) (hv ▸ hrank v w hnext) w rfl
        exact ⟨b, n + 1, (isFunction_of_next hnext n).trans hn⟩

end IsFunction

section Replace

structure Redirected (m : Module Ty) (ms : List Nat) (r : Nat) (m' : Module Ty) : Prop where
  next : m'.next = redirect m.next ms r
  names : m'.map GlobalValue.name = m.map GlobalValue.name

theorem Redirected.refl (m : Module Ty) (r : Nat) : Redirected m [] r m :=
  ⟨(redirect_nil _ _).symm, rfl⟩

theorem Redirected.cons {m'' : Module Ty} {ms : List Nat} (h : Redirected m [v] r m')
    (h' : Redirected m' ms r m'') : Redirected m (v :: ms) r m'' :=
  ⟨by rw [h'.next, h.next, ← redirect_cons], h'.names.trans h.names⟩

variable [DecidableEq Ty]

theorem tryToReplace_redirected (h : tryToReplace m v r = some m') : Redirected m [v] r m' := by
  unfold tryToReplace at h
  split at h
  · rename_i gv rv hgv hrv
    split_ifs at h
    obtain rfl := Option.some.inj h
    obtain ⟨hv, rfl⟩ := List.getElem?_eq_some_iff.mp hgv
    constructor
    · funext u
      by_cases huv : u = v
      · subst huv
        rw [redirect_of_mem (List.mem_singleton_self u), Module.next,
          List.getElem?_set_self hv]
        rfl
      · rw [redirect_of_notMem (by simpa using huv), Module.next, Module.next,
          List.getElem?_set_ne (Ne.symm huv)]
    · rw [List.map_set]
      refine List.ext_getElem (by simp) fun i hi hi' => ?_
      simp only [List.getElem_set, List.getElem_map]
      split_ifs with hvi
      · subst hvi
        rfl
      · rfl
  · cases h

theorem replaceMatches_redirected (r : Nat) (m : Module Ty) (vs : List Nat) :
    Redirected m (replaceMatches r m vs).2 r (replaceMatches r m vs).1 ∧
      (replaceMatches r m vs).2 ⊆ vs := by
  induction vs generalizing m with
  | nil => exact ⟨.refl m r, List.Subset.refl _⟩
  | cons v vs ih =>
    rw [replaceMatches]
    cases htry : tryToReplace m v r with
    | none => exact ⟨(ih m).1, List.subset_cons_of_subset v (ih m).2⟩
    | some m' =>
      exact ⟨(tryToReplace_redirected htry).cons (ih m').1, List.cons_subset_cons v (ih m').2⟩

end Replace

section Option

variable {pattern replacement pair : String}

theorem findMatches_mono {vs ms : List Nat}
    (h : findMatches regex fuel m pattern replacement vs = some ms) {n : Nat} (hn : fuel ≤ n) :
    findMatches regex n m pattern replacement vs = some ms := by
  induction vs generalizing ms with
  | nil => exact h
  | cons v vs ih =>
    rw [findMatches] at h ⊢
    split_ifs at h ⊢ with hname
    · exact ih h
    · obtain ⟨isFunction, hfunction, h⟩ := Option.bind_eq_some_iff.mp h
      rw [isFunction_mono hfunction hn, Option.bind_some]
      split_ifs at h ⊢ with hmatch
      · obtain ⟨ms', hms', rfl⟩ := Option.map_eq_some_iff.mp h
        rw [ih hms']
        rfl
      · exact ih h

theorem resolves_of_findMatches {vs ms : List Nat}
    (h : findMatches regex fuel m pattern replacement vs = some ms) :
    ∀ v ∈ ms, ∃ f, Resolves m.next v f := by
  induction vs generalizing ms with
  | nil =>
    obtain rfl := Option.some.inj h
    exact fun v hv => absurd hv List.not_mem_nil
  | cons v vs ih =>
    rw [findMatches] at h
    split_ifs at h with hname
    · exact ih h
    · obtain ⟨isFunction, hfunction, h⟩ := Option.bind_eq_some_iff.mp h
      split_ifs at h with hmatch
      · obtain ⟨ms', hms', rfl⟩ := Option.map_eq_some_iff.mp h
        exact List.forall_mem_cons.mpr ⟨resolves_of_isFunction hfunction, ih hms'⟩
      · exact ih h

theorem exists_findMatches (regex : Regex) (pattern replacement : String) (hm : Acyclic m.next)
    (vs : List Nat) :
    ∃ ms n, findMatches regex n m pattern replacement vs = some ms := by
  induction vs with
  | nil => exact ⟨[], 0, rfl⟩
  | cons v vs ih =>
    obtain ⟨ms, n, hms⟩ := ih
    obtain ⟨isFunction, k, hfunction⟩ := exists_isFunction hm (some v)
    have hms' := findMatches_mono hms (le_max_left n k)
    have hfunction' := isFunction_mono hfunction (le_max_right n k)
    by_cases hname : ((m[v]?).map GlobalValue.name).getD "" = ""
    · exact ⟨ms, max n k, by rw [findMatches, if_pos hname, hms']⟩
    · by_cases hmatch : (isFunction && regex.matchesWhole pattern
          (((m[v]?).map GlobalValue.name).getD "") &&
          decide (((m[v]?).map GlobalValue.name).getD "" ≠ replacement)) = true
      · refine ⟨v :: ms, max n k, ?_⟩
        rw [findMatches, if_neg hname, hfunction', Option.bind_some, if_pos hmatch, hms']
        rfl
      · refine ⟨ms, max n k, ?_⟩
        rw [findMatches, if_neg hname, hfunction', Option.bind_some, if_neg hmatch, hms']

variable [DecidableEq Ty]

def Applies (m : Module Ty) : Except Error (Replaced Ty) → Prop
  | .error _ => True
  | .ok (m', ms, r) => Redirected m ms r m' ∧ ∀ v ∈ ms, ∃ f, Resolves m.next v f

def Settles (f : Nat → Option (Except Error (Replaced Ty))) (m : Module Ty) : Prop :=
  ∀ {fuel result}, f fuel = some result → Applies m result ∧ ∀ n ≥ fuel, f n = some result

theorem settles_replaceByRegex (m : Module Ty) (pattern replacement : String) (r : Nat) :
    Settles (replaceByRegex regex globalValues · m pattern replacement r) m := by
  intro fuel result h
  simp only [replaceByRegex] at h ⊢
  cases herror : regex.error pattern with
  | some error =>
    rw [herror] at h
    obtain rfl := Option.some.inj h
    exact ⟨trivial, fun n _ => rfl⟩
  | none =>
    rw [herror] at h
    obtain ⟨vs, hvs, rfl⟩ := Option.map_eq_some_iff.mp h
    refine ⟨?_, fun n hn => by simp only [findMatches_mono hvs hn, Option.map_some]⟩
    obtain ⟨hredirected, hsubset⟩ := replaceMatches_redirected r m vs
    split_ifs with hempty
    · trivial
    · exact ⟨hredirected, fun v hv => resolves_of_findMatches hvs v (hsubset hv)⟩

theorem applies_replaceByName {isFunction : Bool} (pattern : String) (r : Nat)
    (h : isFunctionOrGlobalFunctionAlias m fuel (some v) = some isFunction) :
    Applies m (replaceByName m pattern v r isFunction) := by
  unfold replaceByName
  cases isFunction with
  | false => trivial
  | true =>
    cases htry : tryToReplace m v r with
    | none => trivial
    | some m' =>
      exact ⟨tryToReplace_redirected htry,
        List.forall_mem_singleton.mpr (resolves_of_isFunction h)⟩

theorem settles_applyOption (m : Module Ty) (pair : String) :
    Settles (applyOption regex globalValues · m pair) m := by
  intro fuel result h
  have hrefused : ∀ {e : Error}, some (.error e) = some result →
      Applies m result ∧ ∀ n ≥ fuel, some (.error e) = some result := by
    intro e he
    obtain rfl := Option.some.inj he
    exact ⟨trivial, fun _ _ => rfl⟩
  simp only [applyOption] at h ⊢
  cases hsplit : splitAtLastColon pair with
  | none =>
    rw [hsplit] at h
    exact hrefused h
  | some parts =>
    obtain ⟨pattern, replacement⟩ := parts
    rw [hsplit] at h
    simp only at h ⊢
    split_ifs at h ⊢ with hpattern hreplacement hitself
    · exact hrefused h
    · exact hrefused h
    · exact hrefused h
    · obtain ⟨found, hfound, h⟩ := Option.bind_eq_some_iff.mp h
      have hmore : ∀ n ≥ fuel, isFunctionOrGlobalFunctionAlias m n
          (m.getNamedValue replacement) = some found := fun n hn => isFunction_mono hfound hn
      cases found with
      | false =>
        obtain ⟨happlies, hsame⟩ := hrefused h
        exact ⟨happlies, fun n hn => by rw [hmore n hn, Option.bind_some]; exact hsame n hn⟩
      | true =>
        cases hvalue : m.getNamedValue replacement with
        | none =>
          rw [hvalue] at h hmore
          obtain ⟨happlies, hsame⟩ := hrefused h
          exact ⟨happlies, fun n hn => by rw [hmore n hn, Option.bind_some]; exact hsame n hn⟩
        | some replacementValue =>
          rw [hvalue] at h hmore
          cases hmatch : m.getNamedValue pattern with
          | none =>
            rw [hmatch] at h
            obtain ⟨happlies, hsame⟩ := settles_replaceByRegex m pattern replacement _ h
            exact ⟨happlies, fun n hn => by rw [hmore n hn, Option.bind_some]; exact hsame n hn⟩
          | some v =>
            rw [hmatch] at h
            obtain ⟨isFunction, hfunction, rfl⟩ := Option.map_eq_some_iff.mp h
            refine ⟨applies_replaceByName pattern _ hfunction, fun n hn => ?_⟩
            rw [hmore n hn, Option.bind_some]
            simp only [isFunction_mono hfunction hn, Option.map_some]

theorem exists_replaceByRegex (regex : Regex) (globalValues : Module Ty → List Nat)
    (hm : Acyclic m.next) (pattern replacement : String) (r : Nat) :
    ∃ result n, replaceByRegex regex globalValues n m pattern replacement r = some result := by
  unfold replaceByRegex
  cases regex.error pattern with
  | some error => exact ⟨_, 0, rfl⟩
  | none =>
    obtain ⟨ms, n, hms⟩ := exists_findMatches regex pattern replacement hm (globalValues m)
    exact ⟨_, n, by simp only [hms]; rfl⟩

theorem exists_applyOption (regex : Regex) (globalValues : Module Ty → List Nat)
    (hm : Acyclic m.next) (pair : String) :
    ∃ result n, applyOption regex globalValues n m pair = some result := by
  simp only [applyOption]
  cases splitAtLastColon pair with
  | none => exact ⟨_, 0, rfl⟩
  | some parts =>
    obtain ⟨pattern, replacement⟩ := parts
    simp only
    split_ifs
    · exact ⟨_, 0, rfl⟩
    · exact ⟨_, 0, rfl⟩
    · exact ⟨_, 0, rfl⟩
    · obtain ⟨found, n, hfound⟩ := exists_isFunction hm (m.getNamedValue replacement)
      cases found with
      | false => exact ⟨_, n, by rw [hfound]; rfl⟩
      | true =>
        cases hvalue : m.getNamedValue replacement with
        | none =>
          rw [hvalue] at hfound
          exact ⟨_, n, by rw [hfound]; rfl⟩
        | some replacementValue =>
          rw [hvalue] at hfound
          cases m.getNamedValue pattern with
          | none =>
            obtain ⟨result, k, hresult⟩ :=
              exists_replaceByRegex regex globalValues hm pattern replacement replacementValue
            have hresult' := (settles_replaceByRegex m pattern replacement _ hresult).2
            refine ⟨result, max n k, ?_⟩
            rw [isFunction_mono hfound (le_max_left n k), Option.bind_some]
            exact hresult' _ (le_max_right n k)
          | some v =>
            obtain ⟨isFunction, k, hfunction⟩ := exists_isFunction hm (some v)
            refine ⟨replaceByName m pattern v replacementValue isFunction, max n k, ?_⟩
            rw [isFunction_mono hfound (le_max_left n k), Option.bind_some]
            simp only [isFunction_mono hfunction (le_max_right n k), Option.map_some]

/-- On acyclic aliases an option is applied or refused. -/
theorem ends_applyOption (regex : Regex) (globalValues : Module Ty → List Nat)
    (hm : Acyclic m.next) (pair : String) : ∃ result,
    Ends (applyOption regex globalValues · m pair) result ∧ Applies m result := by
  obtain ⟨result, n, hn⟩ := exists_applyOption regex globalValues hm pair
  obtain ⟨happlies, hsame⟩ := settles_applyOption m pair hn
  exact ⟨result, ⟨n, hsame⟩, happlies⟩

end Option

section Run

variable {options : List String} {replaced : List (List Nat × Nat)}

structure Ran (m : Module Ty) (replaced : List (List Nat × Nat)) (m' : Module Ty) : Prop where
  next : m'.next = redirects m.next replaced
  names : m'.map GlobalValue.name = m.map GlobalValue.name

theorem Ran.cons {m'' : Module Ty} {ms : List Nat} (h : Redirected m ms r m')
    (h' : Ran m' replaced m'') : Ran m ((ms, r) :: replaced) m'' :=
  ⟨by rw [h'.next, h.next, redirects], h'.names.trans h.names⟩

theorem getNamedValue_of_names (h : m'.map GlobalValue.name = m.map GlobalValue.name)
    (name : String) : m'.getNamedValue name = m.getNamedValue name := by
  have hmap : ∀ m : Module Ty, m.getNamedValue name =
      (m.map GlobalValue.name).findIdx? fun n => n = name := by
    intro m
    rw [List.findIdx?_map]
    rfl
  rw [hmap, hmap, h]

theorem Ran.good (h : Ran m replaced m') (hm : Acyclic m.next) (hapart : Apart m.next replaced) :
    Good m replaced m' where
  acyclic := h.next ▸ acyclic_redirects hm hapart
  names := getNamedValue_of_names h.names
  matched := by
    rintro before ms r after rfl v hv hlast
    rw [h.next]
    exact resolvesAs_target hapart hv hlast
  unmatched := by
    intro v _
    rw [h.next]
    exact resolvesAs_self m.next replaced v

variable [DecidableEq Ty]

theorem run_cons_ok {ms : List Nat} {pair : String} {n : Nat}
    {result : Except Error (Module Ty × List (List Nat × Nat))}
    (hoption : applyOption regex globalValues n m pair = some (.ok (m', ms, r)))
    (hrest : runOnModule regex globalValues n m' options = some result) :
    runOnModule regex globalValues n m (pair :: options) =
      some (result.map fun s => (s.1, (ms, r) :: s.2)) := by
  simp only [runOnModule, hoption, Option.bind_some, hrest, Option.map_some]

/-- A run that keeps replacements apart ends. -/
theorem run_of_apart : ∀ {options : List String} {m : Module Ty}, Acyclic m.next →
    OptionsApart regex globalValues m options → ∃ result,
      Ends (runOnModule regex globalValues · m options) result ∧
        ∀ m' replaced, result = .ok (m', replaced) → Ran m replaced m' ∧ Apart m.next replaced := by
  intro options
  induction options with
  | nil =>
    intro m _ _
    refine ⟨.ok (m, []), ⟨0, fun _ _ => rfl⟩, ?_⟩
    rintro _ _ ⟨⟩
    exact ⟨⟨rfl, rfl⟩, trivial⟩
  | cons pair options ih =>
    intro m hm hapart
    obtain ⟨result, hends, happlies⟩ := ends_applyOption regex globalValues hm pair
    obtain ⟨n, hn⟩ := hends
    cases result with
    | error e =>
      refine ⟨.error e, ⟨n, fun fuel hfuel => ?_⟩, by simp⟩
      simp only [runOnModule, hn fuel hfuel, Option.bind_some]
    | ok s =>
      obtain ⟨m₁, ms, r⟩ := s
      obtain ⟨hredirected, -⟩ := happlies
      obtain ⟨havoids, hrest⟩ := hapart m₁ ms r ⟨n, hn⟩
      have hm₁ : Acyclic m₁.next := hredirected.next ▸ acyclic_redirect hm havoids
      obtain ⟨result, ⟨k, hk⟩, hran⟩ := ih hm₁ hrest
      refine ⟨result.map fun s => (s.1, (ms, r) :: s.2), ⟨max n k, fun fuel hfuel => ?_⟩, ?_⟩
      · exact run_cons_ok (hn fuel (le_trans (le_max_left n k) hfuel))
          (hk fuel (le_trans (le_max_right n k) hfuel))
      · intro m' replaced heq
        cases result with
        | error e => cases heq
        | ok s =>
          obtain ⟨hran, hafter⟩ := hran s.1 s.2 rfl
          obtain ⟨rfl, rfl⟩ := Prod.mk.inj (Except.ok.inj heq)
          exact ⟨hran.cons hredirected, havoids, hredirected.next ▸ hafter⟩

/-- A run that ends has applied its first option, and goes on. -/
theorem ends_run_cons {pair : String}
    (h : Ends (runOnModule regex globalValues · m (pair :: options)) (.ok (m', replaced))) :
    ∃ m₁ ms r after, Ends (applyOption regex globalValues · m pair) (.ok (m₁, ms, r)) ∧
      Applies m (.ok (m₁, ms, r)) ∧
      Ends (runOnModule regex globalValues · m₁ options) (.ok (m', after)) := by
  obtain ⟨n, hn⟩ := h
  obtain ⟨result, hoption, hrest⟩ := Option.bind_eq_some_iff.mp (hn n le_rfl)
  obtain ⟨happlies, hsame⟩ := settles_applyOption m pair hoption
  cases result with
  | error e => cases hrest
  | ok s =>
    obtain ⟨m₁, ms, r⟩ := s
    obtain ⟨first, hfirst, hmap⟩ := Option.map_eq_some_iff.mp hrest
    cases first with
    | error e => cases hmap
    | ok t =>
      obtain ⟨rfl, rfl⟩ := Prod.mk.inj (Except.ok.inj hmap)
      refine ⟨m₁, ms, r, t.2, ⟨n, hsame⟩, happlies, n, fun fuel hfuel => ?_⟩
      have hfuelled := hn fuel hfuel
      simp only [runOnModule, hsame fuel hfuel, Option.bind_some] at hfuelled
      obtain ⟨result, hresult, hmap'⟩ := Option.map_eq_some_iff.mp hfuelled
      cases result with
      | error e => cases hmap'
      | ok t' =>
        obtain ⟨hmodule, hreplaced⟩ := Prod.mk.inj (Except.ok.inj hmap')
        rw [← hmodule, ← (List.cons.inj hreplaced).2]
        exact hresult

/-- What a cycle is made of is never replaced. -/
theorem hasCycle_of_run (hm : HasCycle m.next)
    (h : Ends (runOnModule regex globalValues · m options) (.ok (m', replaced))) :
    HasCycle m'.next := by
  induction options generalizing m replaced with
  | nil =>
    obtain ⟨n, hn⟩ := h
    obtain ⟨rfl, -⟩ := Prod.mk.inj (Except.ok.inj (Option.some.inj (hn n le_rfl)))
    exact hm
  | cons pair options ih =>
    obtain ⟨m₁, ms, r, after, -, ⟨hredirected, hresolves⟩, hrest⟩ := ends_run_cons h
    exact ih (hredirected.next ▸ hm.redirect hresolves) hrest

theorem apart_of_acyclic (hm' : Acyclic m'.next)
    (h : Ends (runOnModule regex globalValues · m options) (.ok (m', replaced))) :
    OptionsApart regex globalValues m options := by
  induction options generalizing m replaced with
  | nil => trivial
  | cons pair options ih =>
    obtain ⟨m₁, ms, r, after, hoption, ⟨hredirected, -⟩, hrest⟩ := ends_run_cons h
    intro m₂ ms' r' hoption'
    obtain ⟨rfl, hsame⟩ := Prod.mk.inj (Except.ok.inj (hoption.unique hoption'))
    obtain ⟨rfl, rfl⟩ := Prod.mk.inj hsame
    refine ⟨fun v hv hreach => ?_, ih hrest⟩
    have hcycle : HasCycle m₁.next := hredirected.next ▸ hasCycle_redirect hv hreach
    exact hm'.not_hasCycle (hasCycle_of_run hcycle hrest)

/-- Every module, every list of options that is not refused -/
theorem runOnModule_good_iff (hm : Acyclic m.next) (options : List String)
    (hallowed : ∀ e, ¬ Ends (runOnModule regex globalValues · m options) (.error e)) :
    (∃ m' replaced, Ends (runOnModule regex globalValues · m options) (.ok (m', replaced)) ∧
      Good m replaced m') ↔ OptionsApart regex globalValues m options := by
  constructor
  · rintro ⟨m', replaced, hends, hgood⟩
    exact apart_of_acyclic hgood.acyclic hends
  · intro hapart
    obtain ⟨result, hends, hran⟩ := run_of_apart hm hapart
    cases result with
    | error e => exact absurd hends (hallowed e)
    | ok s =>
      obtain ⟨hran, hafter⟩ := hran s.1 s.2 rfl
      exact ⟨s.1, s.2, hends, hran.good hm hafter⟩

def exactNames : Regex := ⟨fun _ => none, fun pattern name => pattern = name⟩

def intFunction : FunctionType Unit := ⟨(), false, [()]⟩

def aliasModule : Module Unit :=
  [⟨"foo", intFunction, .function⟩, ⟨"bar", intFunction, .function⟩,
    ⟨"baz", intFunction, .globalAlias (.globalValue 0)⟩]

theorem acyclic_aliasModule : Acyclic aliasModule.next := by
  refine ⟨id, fun a b hab => ?_⟩
  rcases a with _ | _ | _ | a <;> cases hab
  decide

theorem ends_aliasModule : Ends
    (applyOption exactNames (fun _ => [0, 1, 2]) · aliasModule "foo:bar")
    (.ok (aliasModule.set 0 ⟨"foo", intFunction, .globalAlias (.globalValue 1)⟩, [0], 1)) := by
  refine ⟨2, fun fuel hfuel => ?_⟩
  obtain ⟨k, rfl⟩ : ∃ k, fuel = k + 2 := ⟨fuel - 2, by omega⟩
  rfl

theorem run_aliasModule : Ends
    (runOnModule exactNames (fun _ => [0, 1, 2]) · aliasModule ["foo:bar"])
    (.ok (aliasModule.set 0 ⟨"foo", intFunction, .globalAlias (.globalValue 1)⟩, [([0], 1)])) := by
  obtain ⟨n, hn⟩ := ends_aliasModule
  refine ⟨n, fun fuel hfuel => ?_⟩
  have hnil : runOnModule exactNames (fun _ => [0, 1, 2]) fuel (aliasModule.set 0
      ⟨"foo", intFunction, .globalAlias (.globalValue 1)⟩) [] = some (.ok (_, [])) := rfl
  exact run_cons_ok (hn fuel hfuel) hnil

theorem runOnModule_good_aliasModule :
    ∃ m' replaced, Ends (runOnModule exactNames (fun _ => [0, 1, 2]) · aliasModule ["foo:bar"])
      (.ok (m', replaced)) ∧ Good aliasModule replaced m' := by
  refine (runOnModule_good_iff acyclic_aliasModule ["foo:bar"] fun e he => ?_).mpr ?_
  · cases he.unique run_aliasModule
  · intro m' ms r h
    obtain ⟨rfl, hsame⟩ := Prod.mk.inj (Except.ok.inj (ends_aliasModule.unique h))
    obtain ⟨rfl, rfl⟩ := Prod.mk.inj hsame
    refine ⟨fun v hv hreach => ?_, trivial⟩
    obtain rfl := List.mem_singleton.mp hv
    cases eq_of_reaches_end hreach rfl

def cycleModule : Module Unit :=
  [⟨"foo", intFunction, .function⟩, ⟨"bar", intFunction, .globalAlias (.globalValue 0)⟩]

theorem runOnModule_cycle : ∃ m',
    runOnModule exactNames (fun _ => [0, 1]) 3 cycleModule ["foo:bar"] =
      some (.ok (m', [([0], 1)])) ∧ m'.next 0 = some 1 ∧ m'.next 1 = some 0 :=
  ⟨_, rfl, rfl, rfl⟩

end Run

end Klee.FunctionAlias
