import Klee.Core.Distances

/-! The first part of `computeReachableUncovered` finds the lengths of the shortest ways to a
return, where the lengths of the ways through functions fit their type. -/
namespace Klee.StatsTracker

open Relaxation

inductive Point where
  | inst (i : Inst)
  | function (f : Nat)

/-- There is a way of some length from an instruction to a return of its function, or through a
function. -/
inductive Returns (m : Module) : Point → Nat → Prop
  | ret {i : Inst} (hi : i ∈ m.instructions) (hret : m.kind? i = some .ret) :
    Returns m (.inst i) 1
  | step {i j : Inst} {d : Nat} (hi : i ∈ m.instructions) (hcall : m.callTargets i = none)
      (hj : j ∈ m.getSuccs i) (hd : Returns m (.inst j) d) : Returns m (.inst i) (1 + d)
  | call {i j : Inst} {targets : List Nat} {f c d : Nat} (hi : i ∈ m.instructions)
      (hcall : m.callTargets i = some targets) (hf : f ∈ targets) (hc : Returns m (.function f) c)
      (hj : j ∈ m.getSuccs i) (hd : Returns m (.inst j) d) : Returns m (.inst i) (1 + c + d)
  | declared {f : Nat} {fn : Fn} (hfn : m.functions[f]? = some fn)
      (hdecl : fn.isDeclaration = true) (hreturns : fn.doesNotReturn = false) :
    Returns m (.function f) 1
  | defined {f d : Nat} (hf : m.isDeclaration f = false)
      (hd : Returns m (.inst (Module.entry f)) d) : Returns m (.function f) d

section Through

variable {F : Nat → Nat} {targets : List Nat}

theorem throughCall_eq_best (hfit : ∀ f ∈ targets, F f + 1 < 2 ^ 32) :
    throughCall F targets = best (fun f => further 1 (F f)) 0 targets := by
  unfold throughCall best
  refine List.foldl_ext _ _ _ fun b f hf => ?_
  by_cases hF : F f = 0
  · simp [further, hF]
  · have hmod : (1 + F f) % 2 ^ 32 = 1 + F f := by
      have hlt := hfit f hf
      omega
    have hne : further 1 (F f) ≠ 0 := further_ne_zero.mpr hF
    dsimp only
    rw [if_pos hF, if_pos hne, further_of_ne hF, hmod, improve]

/-- The way through a call goes through the function called that is shortest. -/
theorem throughCall_spec (hfit : ∀ f ∈ targets, F f + 1 < 2 ^ 32) :
    (∀ f ∈ targets, toENat (throughCall F targets) ≤ toENat (further 1 (F f))) ∧
    (throughCall F targets ≠ 0 → ∃ f ∈ targets, F f ≠ 0 ∧ throughCall F targets = 1 + F f) := by
  rw [throughCall_eq_best hfit]
  obtain ⟨-, hall, hone⟩ := best_spec (fun f => further 1 (F f)) 0 targets
  refine ⟨hall, fun hne => ?_⟩
  obtain ⟨f, hf, hF, heq⟩ := hone.resolve_left hne
  rw [further_ne_zero] at hF
  exact ⟨f, hf, hF, heq.trans (further_of_ne hF)⟩

end Through

variable {m : Module} {infos : InstructionInfoTable m}

/-- No length overflows its type in a visit: not the way through a function called with its call,
and not the way through a function that starts at the instruction. -/
def Fits (m : Module) (infos : InstructionInfoTable m) (i : Inst) (t : ReturnTables) : Prop :=
  (∀ f ∈ (m.callTargets i).getD [], t.functionShortestPath f + 1 < 2 ^ 32) ∧
    (i = Module.entry i.fn → bestReturn m infos i t < 2 ^ 32)

instance (i : Inst) (t : ReturnTables) :
    Decidable (Fits m infos i t) :=
  inferInstanceAs (Decidable (_ ∧ (_ → _)))

/-- What holds of the tables all along: a distance is the length of a way, and what is known from
the start stays known. -/
structure ReturnTables.Inv (m : Module) (infos : InstructionInfoTable m) (t : ReturnTables) :
    Prop where
  inst : ∀ i ∈ m.instructions, t.minDistToReturn (infos.getInfo i) ≠ 0 →
    Returns m (.inst i) (t.minDistToReturn (infos.getInfo i))
  function : ∀ f, t.functionShortestPath f ≠ 0 → Returns m (.function f) (t.functionShortestPath f)
  ret : ∀ i ∈ m.instructions, m.kind? i = some .ret →
    toENat (t.minDistToReturn (infos.getInfo i)) ≤ 1
  declared : ∀ f fn, m.functions[f]? = some fn → fn.isDeclaration = true →
    fn.doesNotReturn = false → t.functionShortestPath f = 1
  entry : ∀ f, m.isDeclaration f = false →
    t.functionShortestPath f = t.minDistToReturn (infos.getInfo (Module.entry f)) ∨
      t.functionShortestPath f = 0 ∧ m.callTargets (Module.entry f) = none

def ReturnTables.lengths (infos : InstructionInfoTable m) (t : ReturnTables) :
    {i // i ∈ m.instructions} ⊕ Fin m.functions.length → ℕ∞
  | .inl i => toENat (t.minDistToReturn (infos.getInfo i.1))
  | .inr f => toENat (t.functionShortestPath f)

theorem bestThrough_of_none {i : Inst} (h : m.callTargets i = none) (F : Nat → Nat) :
    bestThrough m F i = 1 := by rw [bestThrough, h]; rfl

theorem bestThrough_of_some {i : Inst} {targets : List Nat} (h : m.callTargets i = some targets)
    (F : Nat → Nat) : bestThrough m F i = throughCall F targets := by rw [bestThrough, h]; rfl

/-- A call can be gone through in no more than the length of a way through a function called. -/
theorem bestThrough_le {F : Nat → Nat} {i : Inst} {targets : List Nat} {f c : Nat}
    (hcall : m.callTargets i = some targets)
    (hfit : ∀ f ∈ (m.callTargets i).getD [], F f + 1 < 2 ^ 32) (hf : f ∈ targets)
    (hc : toENat (F f) ≤ (c : ℕ∞)) : bestThrough m F i ≠ 0 ∧ bestThrough m F i ≤ 1 + c := by
  rw [hcall, Option.getD_some] at hfit
  rw [bestThrough_of_some hcall]
  exact toENat_le_coe.mp (((throughCall_spec hfit).1 f hf).trans (toENat_further_le le_rfl hc))

/-- A way through an instruction and a way from what comes next make a way. -/
theorem ReturnTables.Inv.returns_further {t : ReturnTables} (hinv : t.Inv m infos) {i j : Inst}
    (hi : i ∈ m.instructions) (hfit : Fits m infos i t) (hj : j ∈ m.getSuccs i)
    (hthrough : bestThrough m t.functionShortestPath i ≠ 0)
    (hd : t.minDistToReturn (infos.getInfo j) ≠ 0) :
    Returns m (.inst i)
      (bestThrough m t.functionShortestPath i + t.minDistToReturn (infos.getInfo j)) := by
  have hway := hinv.inst j (m.mem_of_mem_getSuccs hi hj) hd
  cases hcall : m.callTargets i with
  | none =>
    rw [bestThrough_of_none hcall]
    exact .step hi hcall hj hway
  | some targets =>
    have hfit' : ∀ f ∈ targets, t.functionShortestPath f + 1 < 2 ^ 32 := by
      simpa [hcall] using hfit.1
    rw [bestThrough_of_some hcall] at hthrough ⊢
    obtain ⟨f, hf, hF, heq⟩ := (throughCall_spec hfit').2 hthrough
    rw [heq]
    exact .call hi hcall hf (hinv.function f hF) hj hway

/-- The best distance from an instruction is the length of a way. -/
theorem ReturnTables.Inv.returns_best {t : ReturnTables} (hinv : t.Inv m infos) {i : Inst}
    (hi : i ∈ m.instructions) (hfit : Fits m infos i t)
    (hthrough : bestThrough m t.functionShortestPath i ≠ 0) (hne : bestReturn m infos i t ≠ 0) :
    Returns m (.inst i) (bestReturn m infos i t) := by
  obtain ⟨-, -, hone⟩ := best_spec
    (fun j => further (bestThrough m t.functionShortestPath i)
      (t.minDistToReturn (infos.getInfo j)))
    (t.minDistToReturn (infos.getInfo i)) (m.getSuccs i)
  rcases hone with hcur | ⟨j, hj, hd, heq⟩
  · rw [bestReturn, hcur] at hne ⊢
    exact hinv.inst i hi hne
  · rw [further_ne_zero] at hd
    rw [bestReturn, heq, further_of_ne hd]
    exact hinv.returns_further hi hfit hj hthrough hd

theorem ReturnTables.inv_init : (initReturn m infos).Inv m infos := by
  have hvalue : ∀ i ∈ m.instructions, (initReturn m infos).minDistToReturn (infos.getInfo i) =
      if m.kind? i = some .ret then 1 else 0 := fun i hi =>
    setAll_of_mem _ _ (fun i hi j _ h => infos.getInfo_inj hi h) hi
  refine ⟨fun i hi hne => ?_, fun f hne => ?_, fun i hi hret => ?_, ?_, fun f hf => ?_⟩
  · rw [hvalue i hi] at hne ⊢
    by_cases hret : m.kind? i = some .ret
    · rw [if_pos hret]
      exact .ret hi hret
    · exact absurd (if_neg hret) hne
  · cases hfn : m.functions[f]? with
    | none => simp [initReturn, hfn] at hne
    | some fn =>
      have hF : (initReturn m infos).functionShortestPath f =
          if fn.isDeclaration then if fn.doesNotReturn then 0 else 1 else 0 := by
        simp only [initReturn, hfn, Option.elim_some]
      rw [hF] at hne ⊢
      by_cases hdecl : fn.isDeclaration = true
      · by_cases hreturns : fn.doesNotReturn = true
        · simp [hdecl, hreturns] at hne
        · rw [if_pos hdecl, if_neg hreturns]
          exact .declared hfn hdecl (by simpa using hreturns)
      · simp [hdecl] at hne
  · rw [hvalue i hi, if_pos hret]
    rfl
  · intro f fn hfn hdecl hreturns
    simp [initReturn, hfn, hdecl, hreturns]
  · obtain ⟨fn, hfn, hb⟩ := m.isDeclaration_eq_false.mp hf
    have hdecl : fn.isDeclaration = false :=
      List.isEmpty_eq_false_iff.mpr (List.ne_nil_of_length_pos hb)
    have hF : (initReturn m infos).functionShortestPath f = 0 := by
      simp [initReturn, hfn, hdecl]
    rw [hF, hvalue _ (m.entry_mem_instructions hf)]
    by_cases hret : m.kind? (Module.entry f) = some .ret
    · exact .inr ⟨rfl, by rw [Module.callTargets, hret]⟩
    · exact .inl (if_neg hret).symm

section Set

variable {i : Inst} {best : Nat} {t : ReturnTables}

theorem ReturnTables.set_minDistToReturn (hi : i ∈ m.instructions) (j : Inst) :
    (t.set m infos i best).minDistToReturn (infos.getInfo j) =
      if j = i then best else t.minDistToReturn (infos.getInfo j) := by
  unfold ReturnTables.set
  by_cases hj : j = i
  · rw [if_pos hj, hj]
    exact Function.update_self _ _ _
  · rw [if_neg hj]
    exact Function.update_of_ne (fun h => hj (infos.getInfo_inj hi h.symm).symm) _ _

theorem ReturnTables.set_functionShortestPath (hfit : i = Module.entry i.fn → best < 2 ^ 32)
    (f : Nat) : (t.set m infos i best).functionShortestPath f =
      if Module.entry f = i then best else t.functionShortestPath f := by
  unfold ReturnTables.set
  dsimp only
  by_cases hentry : i = Module.entry i.fn
  · rw [if_pos hentry, Nat.mod_eq_of_lt (hfit hentry)]
    by_cases hf : f = i.fn
    · rw [if_pos (hf ▸ hentry.symm), hf]
      exact Function.update_self _ _ _
    · have hne : Module.entry f ≠ i := fun h => hf (congrArg Inst.fn h)
      rw [if_neg hne]
      exact Function.update_of_ne hf _ _
  · have hne : Module.entry f ≠ i := fun h => hentry (by rw [← h]; rfl)
    rw [if_neg hentry, if_neg hne]

end Set

/-- A visit that changes something sets the length of a way that is better. -/
theorem visitReturn_cases {i : Inst} {t : ReturnTables} (hi : i ∈ m.instructions)
    (hfit : Fits m infos i t) (hinv : t.Inv m infos) :
    visitReturn m infos i t = (t, false) ∨
    ∃ best, visitReturn m infos i t = (t.set m infos i best, true) ∧ Returns m (.inst i) best ∧
      best ≠ 0 ∧ (i = Module.entry i.fn → best < 2 ^ 32) ∧
      toENat best ≤ toENat (t.minDistToReturn (infos.getInfo i)) ∧
      (toENat best < toENat (t.minDistToReturn (infos.getInfo i)) ∨
        i = Module.entry i.fn ∧ t.functionShortestPath i.fn = 0) := by
  by_cases hthrough : bestThrough m t.functionShortestPath i = 0
  · exact .inl (if_pos hthrough)
  by_cases hchange : bestReturn m infos i t ≠ t.minDistToReturn (infos.getInfo i) ∨
      i = Module.entry i.fn ∧ t.functionShortestPath i.fn ≠ bestReturn m infos i t
  · have hvisit : visitReturn m infos i t = (t.set m infos i (bestReturn m infos i t), true) := by
      rw [visitReturn, if_neg hthrough]
      exact if_pos hchange
    have hle : toENat (bestReturn m infos i t) ≤ toENat (t.minDistToReturn (infos.getInfo i)) :=
      (best_spec _ _ _).1
    have hbetter : toENat (bestReturn m infos i t) < toENat (t.minDistToReturn (infos.getInfo i)) ∨
        bestReturn m infos i t ≠ 0 ∧ i = Module.entry i.fn ∧ t.functionShortestPath i.fn = 0 := by
      by_cases hsame : bestReturn m infos i t = t.minDistToReturn (infos.getInfo i)
      · -- the corner case: the path through the function has not been set yet
        obtain ⟨hentry, hF⟩ := hchange.resolve_left (not_not.mpr hsame)
        rcases hinv.entry i.fn (m.isDeclaration_fn hi) with hmirror | ⟨hzero, -⟩
        · rw [← hentry] at hmirror
          exact absurd (hmirror.trans hsame.symm) hF
        · exact .inr ⟨fun h => hF (hzero.trans h.symm), hentry, hzero⟩
      · exact .inl (lt_of_le_of_ne hle fun h => hsame (toENat_inj.mp h))
    have hne : bestReturn m infos i t ≠ 0 := by
      rcases hbetter with hlt | ⟨hne, -⟩
      · exact fun h => absurd hlt (by rw [h]; exact not_top_lt)
      · exact hne
    exact .inr ⟨_, hvisit, hinv.returns_best hi hfit hthrough hne, hne, hfit.2, hle,
      hbetter.imp_right And.right⟩
  · refine .inl ?_
    rw [visitReturn, if_neg hthrough]
    exact if_neg hchange

theorem ReturnTables.Inv.set {i : Inst} {best : Nat} {t : ReturnTables} (hinv : t.Inv m infos)
    (hi : i ∈ m.instructions) (hway : Returns m (.inst i) best)
    (hfit : i = Module.entry i.fn → best < 2 ^ 32)
    (hle : toENat best ≤ toENat (t.minDistToReturn (infos.getInfo i))) :
    (t.set m infos i best).Inv m infos := by
  refine ⟨fun j hj hne => ?_, fun f hne => ?_, fun j hj hret => ?_, ?_, fun f hf => ?_⟩
  · rw [set_minDistToReturn hi] at hne ⊢
    split_ifs at hne ⊢ with hji
    · exact hji ▸ hway
    · exact hinv.inst j hj hne
  · rw [set_functionShortestPath hfit] at hne ⊢
    split_ifs at hne ⊢ with hentry
    · have hf : m.isDeclaration f = false := by
        rw [← hentry] at hi
        exact m.isDeclaration_fn hi
      exact .defined hf (hentry ▸ hway)
    · exact hinv.function f hne
  · rw [set_minDistToReturn hi]
    split_ifs with hji
    · exact hle.trans (hinv.ret i hi (hji ▸ hret))
    · exact hinv.ret j hj hret
  · intro f fn hfn hdecl hreturns
    have hne : Module.entry f ≠ i := by
      rintro rfl
      have hdecl' : m.isDeclaration f = true := by rw [Module.isDeclaration, hfn]; exact hdecl
      exact absurd (m.isDeclaration_fn hi) (by simp [Module.entry, hdecl'])
    rw [set_functionShortestPath hfit, if_neg hne]
    exact hinv.declared f fn hfn hdecl hreturns
  · rw [set_functionShortestPath hfit, set_minDistToReturn hi]
    split_ifs with hentry
    · exact .inl rfl
    · exact hinv.entry f hf

theorem visitReturn_lowers : Lowers (visitReturn m infos) (Fits m infos) (·.Inv m infos)
    (ReturnTables.lengths infos) m.instructions.reverse := by
  intro i hi t hfit hinv
  replace hi := List.mem_reverse.mp hi
  rcases visitReturn_cases hi hfit hinv with hsame | ⟨best, hvisit, hway, hne, hlt32, hle, hbetter⟩
  · exact .inl hsame
  rw [hvisit]
  refine .inr ⟨rfl, hinv.set hi hway hlt32 hle, Pi.lt_def.mpr ⟨?_, ?_⟩⟩
  · rintro (⟨j, hj⟩ | f)
    · unfold ReturnTables.lengths
      dsimp only
      rw [ReturnTables.set_minDistToReturn hi]
      split_ifs with hji
      · subst hji
        exact hle
      · exact le_rfl
    · unfold ReturnTables.lengths
      dsimp only
      rw [ReturnTables.set_functionShortestPath hlt32]
      split_ifs with hentry
      · have hf : m.isDeclaration f = false := by
          rw [← hentry] at hi
          exact m.isDeclaration_fn hi
        rcases hinv.entry f hf with hmirror | ⟨hzero, -⟩
        · rwa [hmirror, hentry]
        · rw [hzero]
          exact le_top
      · exact le_rfl
  · rcases hbetter with hlt | ⟨hentry, hzero⟩
    · refine ⟨.inl ⟨i, hi⟩, ?_⟩
      unfold ReturnTables.lengths
      dsimp only
      rwa [ReturnTables.set_minDistToReturn hi, if_pos rfl]
    · obtain ⟨fn, hfn, -⟩ := m.isDeclaration_eq_false.mp (m.isDeclaration_fn hi)
      obtain ⟨hf, -⟩ := List.getElem?_eq_some_iff.mp hfn
      refine ⟨.inr ⟨i.fn, hf⟩, ?_⟩
      unfold ReturnTables.lengths
      dsimp only
      rw [ReturnTables.set_functionShortestPath hlt32, if_pos hentry.symm, hzero]
      exact toENat_lt_top.mpr hne

/-- What a visit that changes nothing says of the tables. -/
theorem visitReturn_same {i : Inst} {t : ReturnTables}
    (hsame : visitReturn m infos i t = (t, false))
    (hthrough : bestThrough m t.functionShortestPath i ≠ 0) :
    bestReturn m infos i t = t.minDistToReturn (infos.getInfo i) ∧
      (i = Module.entry i.fn →
        t.functionShortestPath i.fn = t.minDistToReturn (infos.getInfo i)) := by
  rw [visitReturn, if_neg hthrough] at hsame
  dsimp only at hsame
  split_ifs at hsame with hchange
  · exact absurd (congrArg Prod.snd hsame) (by simp)
  · rw [not_or, not_not, not_and, not_not] at hchange
    exact ⟨hchange.1, fun hentry => (hchange.2 hentry).trans hchange.1⟩

def ReturnTables.value (infos : InstructionInfoTable m) (t : ReturnTables) : Point → Nat
  | .inst i => t.minDistToReturn (infos.getInfo i)
  | .function f => t.functionShortestPath f

def ReturnTables.Settled (m : Module) (infos : InstructionInfoTable m) (t : ReturnTables) : Prop :=
  ∀ i ∈ m.instructions, Fits m infos i t ∧ visitReturn m infos i t = (t, false)

theorem ReturnTables.Settled.le_further {t : ReturnTables} (ht : t.Settled m infos) {i j : Inst}
    (hi : i ∈ m.instructions) (hthrough : bestThrough m t.functionShortestPath i ≠ 0)
    (hj : j ∈ m.getSuccs i) : toENat (t.minDistToReturn (infos.getInfo i)) ≤
      toENat (further (bestThrough m t.functionShortestPath i)
        (t.minDistToReturn (infos.getInfo j))) := by
  rw [← (visitReturn_same (ht i hi).2 hthrough).1]
  exact (best_spec _ _ _).2.1 j hj

theorem ReturnTables.Settled.le_of_returns {t : ReturnTables} (ht : t.Settled m infos)
    (hinv : t.Inv m infos) {p : Point} {k : Nat} (hway : Returns m p k) :
    toENat (t.value infos p) ≤ (k : ℕ∞) := by
  induction hway with
  | ret hi hret => exact hinv.ret _ hi hret
  | step hi hcall hj hd ih =>
    have hthrough := bestThrough_of_none hcall t.functionShortestPath
    refine (ht.le_further hi (by omega) hj).trans ?_
    rw [hthrough]
    exact toENat_further_le le_rfl ih
  | call hi hcall hf hc hj hd ihc ihd =>
    obtain ⟨hne, hle⟩ := bestThrough_le hcall (ht _ hi).1.1 hf ihc
    exact (ht.le_further hi hne hj).trans (toENat_further_le hle ihd)
  | declared hfn hdecl hreturns =>
    rw [ReturnTables.value, hinv.declared _ _ hfn hdecl hreturns]
    rfl
  | @defined f d hf hd ih =>
    have hi := m.entry_mem_instructions hf
    rcases hinv.entry f hf with hmirror | ⟨-, hcall⟩
    · rw [ReturnTables.value, hmirror]
      exact ih
    · have hthrough := bestThrough_of_none hcall t.functionShortestPath
      have hset := (visitReturn_same (ht _ hi).2 (by omega)).2 rfl
      exact (congrArg toENat hset).trans_le ih

structure ReturnTables.Right (m : Module) (infos : InstructionInfoTable m) (t : ReturnTables) :
    Prop where
  inst : ∀ i ∈ m.instructions,
    Shortest (Returns m (.inst i)) (t.minDistToReturn (infos.getInfo i))
  function : ∀ f, Shortest (Returns m (.function f)) (t.functionShortestPath f)
  entry : ∀ f, m.isDeclaration f = false →
    t.functionShortestPath f = t.minDistToReturn (infos.getInfo (Module.entry f))

theorem ReturnTables.Settled.right {t : ReturnTables} (ht : t.Settled m infos)
    (hinv : t.Inv m infos) : t.Right m infos := by
  have hfunction : ∀ f, Shortest (Returns m (.function f)) (t.functionShortestPath f) := fun f =>
    shortest_of_le (hinv.function f) fun _ hk => ht.le_of_returns hinv hk
  have hinst : ∀ i ∈ m.instructions,
      Shortest (Returns m (.inst i)) (t.minDistToReturn (infos.getInfo i)) := fun i hi =>
    shortest_of_le (hinv.inst i hi) fun _ hk => ht.le_of_returns hinv hk
  refine ⟨hinst, hfunction, fun f hf => (hfunction f).unique ?_⟩
  -- the ways through a defined function are those from its first instruction
  refine ⟨fun hne => .defined hf ?_, fun k hk => ?_⟩
  · exact (hinst _ (m.entry_mem_instructions hf)).1 hne
  · cases hk with
    | declared hfn hdecl hreturns =>
      rw [Module.isDeclaration, hfn] at hf
      exact absurd (hdecl.symm.trans hf) (by simp)
    | defined _ hd => exact (hinst _ (m.entry_mem_instructions hf)).2 k hd

/-- The loop ends, in tables that no visit changes. -/
theorem exists_settled (hfits : Always (visitReturn m infos) (Fits m infos)
    m.instructions.reverse (initReturn m infos)) :
    ∃ fuel t, computeReturn m infos fuel = some t ∧ t.Inv m infos ∧ t.Settled m infos := by
  obtain ⟨fuel, t, hloop, hinv, hall⟩ :=
    exists_loop visitReturn_lowers hfits ReturnTables.inv_init
  exact ⟨fuel, t, hloop, hinv, fun i hi => hall i (List.mem_reverse.mpr hi)⟩

/-- Where all lengths fit, the loop ends and finds the lengths of the shortest ways. -/
theorem computeReturn_right (hfits : Always (visitReturn m infos) (Fits m infos)
    m.instructions.reverse (initReturn m infos)) :
    ∃ fuel t, computeReturn m infos fuel = some t ∧ t.Right m infos := by
  obtain ⟨fuel, t, hloop, hinv, hsettled⟩ := exists_settled hfits
  exact ⟨fuel, t, hloop, hsettled.right hinv⟩

/-- A function that may call itself, and then calls another through a pointer. -/
def recursive : Module where
  functions :=
    [⟨[⟨[.other], [1, 2]⟩, ⟨[.call (.function 0), .other], [2]⟩, ⟨[.call .indirect, .ret], []⟩],
      false⟩, ⟨[⟨[.ret], []⟩], false⟩]
  escapingFunctions := [1]
  wellFormed := by decide

theorem computeReturn_right_recursive : ∃ fuel t,
    computeReturn recursive (.inOrder _) fuel = some t ∧ t.Right recursive (.inOrder _) :=
  computeReturn_right (always_of_fixed (k := 2) (by decide) rfl)

/-- The function with a number of a chain: it calls the one before it twice. -/
def chainFn : Nat → Fn
  | 0 => ⟨[⟨[.ret], []⟩], false⟩
  | k + 1 => ⟨[⟨[.call (.function k), .call (.function k), .ret], []⟩], false⟩

def chain (n : Nat) : Module where
  functions := (List.range n).map chainFn
  escapingFunctions := []
  wellFormed fn hfn := by
    obtain ⟨k, -, rfl⟩ := List.mem_map.mp hfn
    cases k <;> simp [Fn.WellFormed, chainFn]

theorem chain_block? {n k j : Nat} (hk : k < n) :
    (chain n).block? ⟨k, 0, j⟩ = (chainFn k).blocks[0]? := by
  simp [Module.block?, chain, hk]

theorem returns_ret_iff {m : Module} {i : Inst} {d : Nat} (hi : i ∈ m.instructions)
    (hret : m.kind? i = some .ret) (hsuccs : m.getSuccs i = []) :
    Returns m (.inst i) d ↔ d = 1 := by
  refine ⟨fun hway => ?_, fun hd => hd ▸ .ret hi hret⟩
  cases hway with
  | ret => rfl
  | step _ _ hj => simp [hsuccs] at hj
  | call _ _ _ _ hj => simp [hsuccs] at hj

theorem returns_call_iff {m : Module} {i j : Inst} {f d : Nat} {called : CalledValue}
    (hi : i ∈ m.instructions) (hkind : m.kind? i = some (.call called))
    (hcalled : m.targets called = [f]) (hsuccs : m.getSuccs i = [j]) :
    Returns m (.inst i) d ↔
      ∃ c e, Returns m (.function f) c ∧ Returns m (.inst j) e ∧ d = 1 + c + e := by
  have htargets : m.callTargets i = some [f] := by simp [Module.callTargets, hkind, hcalled]
  constructor
  · intro hway
    cases hway with
    | ret _ hret => simp [hkind] at hret
    | step _ hcall => simp [htargets] at hcall
    | call _ hcall hf hc hj he =>
      rw [htargets] at hcall
      cases hcall
      rw [List.mem_singleton.mp hf] at hc
      rw [hsuccs, List.mem_singleton] at hj
      exact ⟨_, _, hc, hj ▸ he, rfl⟩
  · rintro ⟨c, e, hc, he, rfl⟩
    exact .call hi htargets List.mem_cons_self hc (hsuccs ▸ List.mem_cons_self) he

theorem returns_defined_iff {m : Module} {f d : Nat} (hf : m.isDeclaration f = false) :
    Returns m (.function f) d ↔ Returns m (.inst (Module.entry f)) d := by
  refine ⟨fun hway => ?_, .defined hf⟩
  cases hway with
  | declared hfn hdecl =>
    rw [Module.isDeclaration, hfn] at hf
    exact absurd (hdecl.symm.trans hf) (by simp)
  | defined _ hd => exact hd

theorem chain_isDeclaration {n k : Nat} (hk : k < n) : (chain n).isDeclaration k = false := by
  refine (chain n).isDeclaration_eq_false.mpr ⟨chainFn k, by simp [chain, hk], ?_⟩
  cases k with
  | zero => simp [chainFn]
  | succ k => simp [chainFn]

/-- There is one way through a function of the chain. -/
theorem returns_chain {n k d : Nat} (hk : k < n) :
    Returns (chain n) (.function k) d ↔ d + 3 = 4 * 2 ^ k := by
  induction k generalizing d with
  | zero =>
    have hblock (j : Nat) := chain_block? (j := j) hk
    have hi : ⟨0, 0, 0⟩ ∈ (chain n).instructions :=
      (chain n).mem_instructions.mpr ⟨_, hblock 0, by simp⟩
    rw [returns_defined_iff (chain_isDeclaration hk), Module.entry,
      returns_ret_iff hi (by simp [Module.kind?, hblock, chainFn])
        (by simp [Module.getSuccs, hblock, chainFn])]
    omega
  | succ k ih =>
    have hblock (j : Nat) := chain_block? (j := j) hk
    have hi (j : Nat) (hj : j < 3) : ⟨k + 1, 0, j⟩ ∈ (chain n).instructions :=
      (chain n).mem_instructions.mpr ⟨_, hblock j, by simpa using hj⟩
    have hcalled : (chain n).targets (.function k) = [k] := rfl
    have hkind (j : Nat) (hj : j < 2) :
        (chain n).kind? ⟨k + 1, 0, j⟩ = some (.call (.function k)) := by
      interval_cases j <;> simp [Module.kind?, hblock, chainFn]
    have hsuccs (j : Nat) (hj : j < 2) :
        (chain n).getSuccs ⟨k + 1, 0, j⟩ = [⟨k + 1, 0, j + 1⟩] := by
      interval_cases j <;> simp [Module.getSuccs, hblock, chainFn]
    have hret (e : Nat) : Returns (chain n) (.inst ⟨k + 1, 0, 2⟩) e ↔ e = 1 :=
      returns_ret_iff (hi 2 (by omega)) (by simp [Module.kind?, hblock, chainFn])
        (by simp [Module.getSuccs, hblock, chainFn])
    have hfun (c : Nat) := ih (d := c) (by omega)
    rw [returns_defined_iff (chain_isDeclaration hk), Module.entry,
      returns_call_iff (hi 0 (by omega)) (hkind 0 (by omega)) hcalled (hsuccs 0 (by omega))]
    simp only [returns_call_iff (hi 1 (by omega)) (hkind 1 (by omega)) hcalled
      (hsuccs 1 (by omega)), hfun, hret]
    constructor
    · rintro ⟨c, _, hc, ⟨c', _, hc', rfl, rfl⟩, rfl⟩
      omega
    · intro hd
      have hpow : 1 ≤ 2 ^ k := Nat.one_le_two_pow
      exact ⟨4 * 2 ^ k - 3, 4 * 2 ^ k - 1, by omega, ⟨4 * 2 ^ k - 3, 1, by omega, rfl, by omega⟩,
        by omega⟩

/-- What the loop leaves in the table of an `unsigned` fits the type. -/
theorem functionShortestPath_lt {m : Module} {infos : InstructionInfoTable m} {fuel : Nat}
    {t : ReturnTables} (h : computeReturn m infos fuel = some t) (f : Nat) :
    t.functionShortestPath f < 2 ^ 32 := by
  refine loop_inv (Q := fun t => ∀ f, t.functionShortestPath f < 2 ^ 32) (fun i t ht f => ?_) h
    (fun f => ?_) f
  · rw [visitReturn]
    split_ifs
    · exact ht f
    · dsimp only
      split_ifs
      · unfold ReturnTables.set
        dsimp only
        split_ifs
        · by_cases hf : f = i.fn
          · rw [hf, Function.update_self]
            exact Nat.mod_lt _ (by decide)
          · rw [Function.update_of_ne hf]
            exact ht f
        · exact ht f
      · exact ht f
  · unfold initReturn
    dsimp only
    cases m.functions[f]? with
    | none => simp
    | some fn =>
      rw [Option.elim_some]
      split_ifs <;> omega

/-- The way through the last function of the chain is too long for the table. -/
theorem not_computeReturn_right : ¬ ∃ fuel t, computeReturn (chain 32) (.inOrder _) fuel = some t ∧
    t.Right (chain 32) (.inOrder _) := by
  rintro ⟨fuel, t, h, hright⟩
  have hway : Returns (chain 32) (.function 31) (2 ^ 33 - 3) :=
    (returns_chain (by decide)).mpr (by decide)
  have hne := ((hright.function 31).2 _ hway).1
  have hlen := (returns_chain (by decide)).mp ((hright.function 31).1 hne)
  have hlt := functionShortestPath_lt h 31
  omega
end Klee.StatsTracker
