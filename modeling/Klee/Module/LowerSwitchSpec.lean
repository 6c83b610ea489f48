import Klee.Lib.Pointwise
import Klee.Module.LowerSwitch

/-! `LowerSwitchPass` keeps what the switches mean. -/
namespace Klee.LowerSwitch

open Pointwise

variable {Op α V : Type*} {f f' f₀ : Function Op α V} {orig newBlock l b : Nat}

section Entries

variable {pn pn' : PHINode V}

/-- The entry comes from where it came from, or from a new block in the place of `orig`. -/
def Moved (orig : Nat) (bound : Nat) (e e' : Nat × V) : Prop :=
  e' = e ∨ e.1 = orig ∧ bound ≤ e'.1 ∧ e'.2 = e.2

def PhiMoved (orig : Nat) (bound : Nat) (pn pn' : PHINode V) : Prop :=
  List.Forall₂ (Moved orig bound) pn.incoming pn'.incoming

theorem rewriteEntry_cons (e : Nat × V) (incoming : List (Nat × V)) :
    rewriteEntry orig newBlock ⟨e :: incoming⟩ =
      if e.1 = orig then some ⟨(newBlock, e.2) :: incoming⟩
      else (rewriteEntry orig newBlock ⟨incoming⟩).map fun pn => ⟨e :: pn.incoming⟩ := by
  unfold rewriteEntry PHINode.getBasicBlockIndex
  rw [List.findIdx?_cons]
  by_cases h : e.1 = orig
  · rw [if_pos h, if_pos (beq_iff_eq.mpr h)]
    rfl
  · rw [if_neg h, if_neg fun hbeq => h (beq_iff_eq.mp hbeq), Option.map_map, Option.map_map]
    rfl

/-- One entry moves from `orig` to the new block. -/
theorem exists_rewriteEntry (hpos : 0 < pn.entries orig) {bound : Nat} (hbound : bound ≤ newBlock) :
    ∃ pn', rewriteEntry orig newBlock pn = some pn' ∧ PhiMoved orig bound pn pn' ∧
      ∀ p, pn'.entries p + (if p = orig then 1 else 0) =
        pn.entries p + if p = newBlock then 1 else 0 := by
  obtain ⟨incoming⟩ := pn
  induction incoming with
  | nil => exact absurd hpos (lt_irrefl 0)
  | cons e incoming ih =>
    rw [rewriteEntry_cons]
    split_ifs with h
    · refine ⟨_, rfl, .cons (.inr ⟨h, hbound, rfl⟩) (List.forall₂_same.mpr fun _ _ => .inl rfl),
        fun p => ?_⟩
      simp only [PHINode.entries, List.map_cons, List.count_cons, h, beq_iff_eq]
      simp only [eq_comm (b := p)]
      omega
    · have hrest : 0 < PHINode.entries ⟨incoming⟩ orig := by
        rwa [PHINode.entries, List.map_cons, List.count_cons_of_ne h] at hpos
      obtain ⟨pn', hpn', hmoved, hcount⟩ := ih hrest
      refine ⟨_, congrArg (Option.map _) hpn', .cons (.inl rfl) hmoved, fun p => ?_⟩
      have hp := hcount p
      simp only [PHINode.entries, List.map_cons, List.count_cons] at hp ⊢
      omega

theorem PhiMoved.trans {bound : Nat} {pn'' : PHINode V} (h : PhiMoved orig bound pn pn')
    (h' : PhiMoved orig bound pn' pn'') : PhiMoved orig bound pn pn'' := by
  refine forall₂_trans h h' fun e e' e'' he he' => ?_
  rcases he' with rfl | ⟨horig', hle, hvalue⟩
  · exact he
  · rcases he with rfl | ⟨horig, -, hvalue'⟩
    · exact .inr ⟨horig', hle, hvalue⟩
    · exact .inr ⟨horig, hle, hvalue.trans hvalue'⟩

theorem PhiMoved.refl (bound : Nat) (pn : PHINode V) : PhiMoved orig bound pn pn :=
  List.forall₂_same.mpr fun _ _ => .inl rfl

/-- Blocks other than `orig` keep their value. -/
theorem PhiMoved.getIncomingValueForBlock_eq {bound : Nat} (h : PhiMoved orig bound pn pn')
    (hl : l < bound) (hne : l ≠ orig) :
    pn'.getIncomingValueForBlock l = pn.getIncomingValueForBlock l := by
  obtain ⟨incoming⟩ := pn
  obtain ⟨incoming'⟩ := pn'
  unfold PhiMoved at h
  dsimp only at h
  induction h with
  | nil => rfl
  | @cons e e' _ _ he _ ih =>
    rw [PHINode.getIncomingValueForBlock_cons, PHINode.getIncomingValueForBlock_cons, ih]
    rcases he with rfl | ⟨horig, hle, -⟩
    · rfl
    · rw [if_neg (by omega), if_neg (by rintro rfl; exact hne horig)]

end Entries

/-- A phi node has one entry for each edge into its block, and entries of one block agree. -/
structure WellFormed (f : Function Op α V) : Prop where
  entries : ∀ b, ∀ pn ∈ (f.block b).phis, ∀ l,
    pn.entries l = (f.block l).terminator.successors.count b
  consistent : ∀ b, ∀ pn ∈ (f.block b).phis, pn.Consistent
  closed : ∀ l, ∀ b ∈ (f.block l).terminator.successors, b < f.size
  fresh : ∀ l, f.size ≤ l → (f.block l).phis = [] ∧ (f.block l).terminator.successors = []

section Moved

variable {pn pn' : PHINode V}

/-- No entry comes from a block that does not exist. -/
theorem WellFormed.lt_of_mem (h : WellFormed f) (hpn : pn ∈ (f.block b).phis) {e : Nat × V}
    (he : e ∈ pn.incoming) : e.1 < f.size := by
  by_contra hge
  have hcount := h.entries b pn hpn e.1
  rw [(h.fresh e.1 (not_lt.mp hge)).2, List.count_nil] at hcount
  have hpos : 0 < pn.entries e.1 := List.count_pos_iff.mpr (List.mem_map_of_mem he)
  omega

theorem WellFormed.consistent_of_moved (h : WellFormed f) (hpn : pn ∈ (f.block b).phis)
    (hmoved : PhiMoved orig f.size pn pn') : pn'.Consistent := by
  intro e₁' he₁' e₂' he₂' hlabel
  obtain ⟨e₁, he₁, hmoved₁⟩ := forall₂_mem_right hmoved he₁'
  obtain ⟨e₂, he₂, hmoved₂⟩ := forall₂_mem_right hmoved he₂'
  have hlt₁ := h.lt_of_mem hpn he₁
  have hlt₂ := h.lt_of_mem hpn he₂
  rcases hmoved₁ with rfl | ⟨horig₁, hle₁, hvalue₁⟩ <;>
    rcases hmoved₂ with rfl | ⟨horig₂, hle₂, hvalue₂⟩
  · exact h.consistent b pn hpn e₁' he₁ e₂' he₂ hlabel
  · omega
  · omega
  · rw [hvalue₁, hvalue₂]
    exact h.consistent b pn hpn e₁ he₁ e₂ he₂ (horig₁.trans horig₂.symm)

/-- A new block has the value that `orig` had. -/
theorem WellFormed.value_of_moved (h : WellFormed f) (hpn : pn ∈ (f.block b).phis)
    (hmoved : PhiMoved orig f.size pn pn') (hl : f.size ≤ l) (hpos : 0 < pn'.entries l) :
    pn'.getIncomingValueForBlock l = pn.getIncomingValueForBlock orig := by
  obtain ⟨v, hv⟩ := PHINode.exists_getIncomingValueForBlock hpos
  obtain ⟨e, he, hfrom⟩ := forall₂_mem_right hmoved (PHINode.getIncomingValueForBlock_eq_some hv)
  rcases hfrom with heq | ⟨horig, -, hvalue⟩
  · have hlt := h.lt_of_mem hpn he
    rw [← heq] at hlt
    exact absurd hlt (not_lt.mpr hl)
  · rw [hv, (h.consistent b pn hpn).eq_some (v := v) ?_]
    obtain ⟨l', v'⟩ := e
    obtain rfl : l' = orig := horig
    obtain rfl : v = v' := hvalue
    exact he

end Moved

section Conversion

/-- While a switch is converted, the edges to some destinations are still those of `orig`. -/
structure Converting (f₀ : Function Op α V) (orig : Nat) (remaining : List Nat)
    (f : Function Op α V) : Prop where
  size_le : f₀.size ≤ f.size
  phis : ∀ b, List.Forall₂ (PhiMoved orig f₀.size) (f₀.block b).phis (f.block b).phis
  entries : ∀ b, ∀ pn ∈ (f.block b).phis, ∀ l, pn.entries l =
    if l = orig then remaining.count b else (f.block l).terminator.successors.count b
  terminator : ∀ l < f₀.size, (f.block l).terminator = (f₀.block l).terminator
  closed : ∀ l, ∀ b ∈ (f.block l).terminator.successors, b < f.size
  fresh : ∀ l, f.size ≤ l → (f.block l).phis = [] ∧ (f.block l).terminator.successors = []

variable {dest : Nat} {remaining : List Nat}

/-- One edge is taken from `orig` by a new block, whose other edges are to new blocks. -/
theorem Converting.step (h : Converting f₀ orig (dest :: remaining) f)
    (terminator : Terminator Op α) (rest : List Nat) (horig : orig < f₀.size)
    (hdest : dest < f₀.size) (hnew : ∀ l, f₀.size ≤ l → (f₀.block l).phis = [])
    (hterminator : terminator.successors = dest :: rest)
    (hrest : ∀ b ∈ rest, f₀.size ≤ b ∧ b < f.size) :
    ∃ f', rewriteEntries (f.addBlock terminator) dest orig f.size = some f' ∧
      Converting f₀ orig remaining f' ∧ f'.size = f.size + 1 ∧
      (f'.block f.size).terminator = terminator ∧
      ∀ l < f.size, (f'.block l).terminator = (f.block l).terminator := by
  have hsize := h.size_le
  have hne : dest ≠ f.size := by omega
  have hdestBlock : (f.addBlock terminator).block dest = f.block dest := Function.addBlock_of_ne hne
  have hphis (l : Nat) (hl : f₀.size ≤ l) : (f.block l).phis = [] := by
    have hforall := h.phis l
    rw [hnew l hl] at hforall
    exact List.forall₂_nil_left_iff.mp hforall
  obtain ⟨phis', hmap, hforall⟩ := exists_mapM (g := rewriteEntry orig f.size)
    (R := fun pn pn' => PhiMoved orig f₀.size pn pn' ∧ ∀ p,
      pn'.entries p + (if p = orig then 1 else 0) = pn.entries p + if p = f.size then 1 else 0)
    (f.block dest).phis fun pn hpn => by
      refine exists_rewriteEntry ?_ hsize
      rw [h.entries dest pn hpn orig, if_pos rfl, List.count_cons_self]
      exact Nat.succ_pos _
  have hentries (b : Nat) (pn : PHINode V)
      (hpn : pn ∈ (((f.addBlock terminator).setPhis dest phis').block b).phis) (l : Nat) :
      pn.entries l = if l = orig then remaining.count b else
        (((f.addBlock terminator).setPhis dest phis').block l).terminator.successors.count b := by
    rw [Function.setPhis_terminator]
    have hempty := (h.fresh f.size le_rfl).2
    by_cases hb : b = dest
    · subst hb
      rw [Function.setPhis_self] at hpn
      obtain ⟨pn₀, hpn₀, -, hcount⟩ := forall₂_mem_right hforall hpn
      have hl := hcount l
      have hbefore := h.entries b pn₀ hpn₀ l
      have hnot : b ∉ rest := fun hmem => absurd hdest (not_lt.mpr (hrest b hmem).1)
      rcases eq_or_ne l orig with rfl | hlo
      · rw [if_pos rfl, List.count_cons_self] at hbefore
        rw [if_pos rfl, if_neg (by omega)] at hl
        rw [if_pos rfl]
        omega
      · rw [if_neg hlo] at hbefore hl ⊢
        rcases eq_or_ne l f.size with rfl | hls
        · rw [hempty, List.count_nil] at hbefore
          rw [if_pos rfl] at hl
          rw [Function.addBlock_self, hterminator, List.count_cons_self,
            List.count_eq_zero_of_not_mem hnot]
          omega
        · rw [if_neg hls] at hl
          rw [Function.addBlock_of_ne hls]
          omega
    · rw [Function.setPhis_of_ne hb] at hpn
      have hbs : b ≠ f.size := by
        rintro rfl
        rw [Function.addBlock_self] at hpn
        exact absurd hpn List.not_mem_nil
      rw [Function.addBlock_of_ne hbs] at hpn
      have hbefore := h.entries b pn hpn l
      rcases eq_or_ne l orig with rfl | hlo
      · rw [if_pos rfl, List.count_cons_of_ne (Ne.symm hb)] at hbefore
        rw [if_pos rfl, hbefore]
      · rw [if_neg hlo] at hbefore ⊢
        rcases eq_or_ne l f.size with rfl | hls
        · have hnot : b ∉ rest := fun hmem => by
            rw [hphis b (hrest b hmem).1] at hpn
            exact absurd hpn List.not_mem_nil
          rw [hbefore, hempty, Function.addBlock_self, hterminator,
            List.count_cons_of_ne (Ne.symm hb), List.count_eq_zero_of_not_mem hnot, List.count_nil]
        · rw [hbefore, Function.addBlock_of_ne hls]
  refine ⟨(f.addBlock terminator).setPhis dest phis', ?_, ?_, rfl, ?_, fun l hl => ?_⟩
  · rw [rewriteEntries, hdestBlock, hmap]
    rfl
  · refine ⟨hsize.trans (Nat.le_succ _), fun b => ?_, fun b pn hpn l => ?_, fun l hl => ?_,
      fun l b hb => ?_, fun l hl => ?_⟩
    · by_cases hb : b = dest
      · subst hb
        rw [Function.setPhis_self]
        exact forall₂_trans (h.phis b) hforall fun _ _ _ hpn hpn' => hpn.trans hpn'.1
      · rw [Function.setPhis_of_ne hb]
        by_cases hb' : b = f.size
        · rw [hb', Function.addBlock_self, hnew f.size hsize]
          exact .nil
        · rw [Function.addBlock_of_ne hb']
          exact h.phis b
    · exact hentries b pn hpn l
    · rw [Function.setPhis_terminator, Function.addBlock_of_ne (by omega)]
      exact h.terminator l hl
    · rw [Function.setPhis_terminator] at hb
      by_cases hl : l = f.size
      · rw [hl, Function.addBlock_self, hterminator] at hb
        rcases List.mem_cons.mp hb with rfl | hmem
        · exact Nat.lt_succ_of_lt (by omega)
        · exact Nat.lt_succ_of_lt (hrest b hmem).2
      · rw [Function.addBlock_of_ne hl] at hb
        exact Nat.lt_succ_of_lt (h.closed l b hb)
    · have hl : f.size + 1 ≤ l := hl
      rw [Function.setPhis_terminator, Function.setPhis_of_ne (by omega),
        Function.addBlock_of_ne (by omega)]
      exact h.fresh l (by omega)
  · rw [Function.setPhis_terminator, Function.addBlock_self]
  · rw [Function.setPhis_terminator, Function.addBlock_of_ne hl.ne]

structure Converted (f : Function Op α V) (orig : Nat) (f' : Function Op α V) : Prop where
  wellFormed : WellFormed f'
  size_le : f.size ≤ f'.size
  phis : ∀ b, List.Forall₂ (PhiMoved orig f.size) (f.block b).phis (f'.block b).phis
  terminator : ∀ l < f.size, l ≠ orig → (f'.block l).terminator = (f.block l).terminator

/-- The switch is replaced when all its edges are taken over. -/
theorem Converting.converted (h : Converting f₀ orig [] f) (hwf : WellFormed f₀)
    (horig : orig < f₀.size) {curHead : Nat}
    (hhead : f₀.size ≤ curHead ∧ curHead < f.size) :
    Converted f₀ orig (f.setTerminator orig (.br curHead)) := by
  have hsize := h.size_le
  refine ⟨⟨fun b pn hpn l => ?_, fun b pn hpn => ?_, fun l b hb => ?_, fun l hl => ?_⟩, hsize,
    fun b => ?_, fun l hl hne => ?_⟩
  · rw [Function.setTerminator_phis] at hpn
    have hentries := h.entries b pn hpn l
    rcases eq_or_ne l orig with rfl | hne
    · have hb : b ≠ curHead := by
        rintro rfl
        obtain ⟨pn₀, hpn₀, -⟩ := forall₂_mem_right (h.phis b) hpn
        rw [(hwf.fresh b hhead.1).1] at hpn₀
        exact absurd hpn₀ List.not_mem_nil
      rw [if_pos rfl, List.count_nil] at hentries
      rw [hentries, Function.setTerminator_self]
      exact (List.count_eq_zero_of_not_mem fun hmem => hb (List.mem_singleton.mp hmem)).symm
    · rw [if_neg hne] at hentries
      rw [hentries, Function.setTerminator_of_ne hne]
  · rw [Function.setTerminator_phis] at hpn
    obtain ⟨pn₀, hpn₀, hmoved⟩ := forall₂_mem_right (h.phis b) hpn
    exact hwf.consistent_of_moved hpn₀ hmoved
  · rcases eq_or_ne l orig with rfl | hne
    · rw [Function.setTerminator_self] at hb
      exact List.mem_singleton.mp hb ▸ hhead.2
    · rw [Function.setTerminator_of_ne hne] at hb
      exact h.closed l b hb
  · have hl : f.size ≤ l := hl
    rw [Function.setTerminator_of_ne (by omega)]
    exact h.fresh l hl
  · rw [Function.setTerminator_phis]
    exact h.phis b
  · rw [Function.setTerminator_of_ne hne]
    exact h.terminator l hl

def SameValue (l l' : Nat) (pn pn' : PHINode V) : Prop :=
  pn'.getIncomingValueForBlock l' = pn.getIncomingValueForBlock l

/-- The new edge into the selected block has the value of the old one. -/
theorem Converted.sameValue {p d : Nat} (h : Converted f orig f') (hwf : WellFormed f)
    (hp : f.size ≤ p)
    (hmem : d ∈ (f'.block p).terminator.successors) :
    List.Forall₂ (SameValue orig p) (f.block d).phis (f'.block d).phis := by
  refine forall₂_imp_mem (h.phis d) fun pn hpn pn' hpn' hmoved => ?_
  refine hwf.value_of_moved hpn hmoved hp ?_
  rw [h.wellFormed.entries d pn' hpn' p]
  exact List.count_pos_iff.mpr hmem

end Conversion

section Control

variable [DecidableEq α] {env : Op → α} {bound fuel p d : Nat} {terminator : Terminator Op α}

theorem mem_successors_of_next (h : next env terminator = some d) : d ∈ terminator.successors := by
  cases terminator with
  | br dest => exact List.mem_singleton.mpr (Option.some.inj h).symm
  | condBr value caseValue ifTrue ifFalse =>
    have hd := Option.some.inj h
    split_ifs at hd
    · exact hd ▸ List.mem_cons_self
    · exact hd ▸ List.mem_cons_of_mem _ List.mem_cons_self
  | switch condition defaultDest cases =>
    have hd : select defaultDest cases (env condition) = d := Option.some.inj h
    rw [← hd, select]
    cases hfind : cases.find? (·.1 = env condition) with
    | none => exact List.mem_cons_self
    | some c => exact List.mem_cons_of_mem _ (List.mem_map_of_mem (List.mem_of_find?_eq_some hfind))
  | other successors => cases h

/-- Control leaves by an edge of the function, from the block itself or from a new one. -/
theorem leave_eq_some (h : leave f env bound fuel l = some (p, d)) :
    d ∈ (f.block p).terminator.successors ∧ d < bound ∧ (p = l ∨ bound ≤ p) := by
  induction fuel generalizing l with
  | zero => cases h
  | succ fuel ih =>
    obtain ⟨dest, hdest, hrest⟩ := Option.bind_eq_some_iff.mp h
    split_ifs at hrest with hlt
    · cases hrest
      exact ⟨mem_successors_of_next hdest, hlt, .inl rfl⟩
    · obtain ⟨hmem, hd, hp⟩ := ih hrest
      refine ⟨hmem, hd, .inr ?_⟩
      rcases hp with rfl | hp
      · exact not_lt.mp hlt
      · exact hp

/-- Control is the same where the blocks that it can get to are. -/
theorem leave_congr {S : Nat → Prop}
    (hS : ∀ l, S l → (f'.block l).terminator = (f.block l).terminator ∧
      ∀ d ∈ (f.block l).terminator.successors, bound ≤ d → S d) (hl : S l) :
    leave f' env bound fuel l = leave f env bound fuel l := by
  induction fuel generalizing l with
  | zero => rfl
  | succ fuel ih =>
    obtain ⟨hterminator, hsuccessors⟩ := hS l hl
    rw [leave, leave, hterminator]
    cases hnext : next env (f.block l).terminator with
    | none => rfl
    | some dest =>
      rw [Option.bind_some, Option.bind_some]
      split_ifs with hlt
      · rfl
      · exact ih (hsuccessors dest (mem_successors_of_next hnext) (not_lt.mp hlt))

/-- From the block, control gets to what is selected, by an edge from a new block. -/
def Selects (f : Function Op α V) (bound l : Nat) (value : Op) (defaultDest : Nat)
    (cases : List (α × Nat)) : Prop :=
  ∀ env : Op → α, ∃ fuel p, bound ≤ p ∧
    leave f env bound fuel l = some (p, select defaultDest cases (env value))

theorem select_cons (defaultDest : Nat) (c : α × Nat) (cases : List (α × Nat)) (value : α) :
    select defaultDest (c :: cases) value =
      if value = c.1 then c.2 else select defaultDest cases value := by
  unfold select
  rw [List.find?_cons]
  by_cases h : c.1 = value
  · rw [if_pos h.symm, decide_eq_true h]
    rfl
  · rw [if_neg (Ne.symm h), decide_eq_false h]

variable {cases done : List (α × Nat)} {value : Op} {defaultDest curHead : Nat}

theorem Selects.congr (h : Selects f bound l value defaultDest cases) {S : Nat → Prop}
    (hS : ∀ l, S l → (f'.block l).terminator = (f.block l).terminator ∧
      ∀ d ∈ (f.block l).terminator.successors, bound ≤ d → S d) (hl : S l) :
    Selects f' bound l value defaultDest cases := fun env => by
  obtain ⟨fuel, p, hp, hleave⟩ := h env
  exact ⟨fuel, p, hp, (leave_congr hS hl).trans hleave⟩

/-- A block in front of the chain is one comparison more. -/
theorem Selects.condBr (h : Selects f bound curHead value defaultDest done) {caseValue : α}
    {dest : Nat} (hterminator : (f.block l).terminator = .condBr value caseValue dest curHead)
    (hl : bound ≤ l) (hdest : dest < bound) (hhead : bound ≤ curHead) :
    Selects f bound l value defaultDest ((caseValue, dest) :: done) := fun env => by
  by_cases hcase : env value = caseValue
  · refine ⟨1, l, hl, ?_⟩
    rw [leave, hterminator, next, Option.bind_some, if_pos hcase, if_pos hdest, select_cons,
      if_pos hcase]
  · obtain ⟨fuel, p, hp, hleave⟩ := h env
    refine ⟨fuel + 1, p, hp, ?_⟩
    rw [leave, hterminator, next, Option.bind_some, if_neg hcase, if_neg (not_lt.mpr hhead),
      hleave, select_cons, if_neg hcase]

theorem Selects.br (h : Selects f bound curHead value defaultDest done)
    (hterminator : (f.block l).terminator = .br curHead) (hhead : bound ≤ curHead) :
    Selects f bound l value defaultDest done := fun env => by
  obtain ⟨fuel, p, hp, hleave⟩ := h env
  refine ⟨fuel + 1, p, hp, ?_⟩
  rw [leave, hterminator, next, Option.bind_some, if_neg (not_lt.mpr hhead), hleave]

/-- The rest of the cases are put in front of the chain. -/
theorem exists_switchConvert (hwf : WellFormed f₀) (horig : orig < f₀.size)
    (h : Converting f₀ orig (cases.map (·.2)) f) (hcases : ∀ c ∈ cases, c.2 < f₀.size)
    (hhead : f₀.size ≤ curHead ∧ curHead < f.size)
    (hselects : Selects f f₀.size curHead value defaultDest done) :
    ∃ f', switchConvert value orig cases curHead f = some f' ∧ Converted f₀ orig f' ∧
      Selects f' f₀.size orig value defaultDest (cases.reverse ++ done) := by
  induction cases generalizing f curHead done with
  | nil =>
    refine ⟨_, rfl, h.converted hwf horig hhead, ?_⟩
    have hchain : Selects (f.setTerminator orig (.br curHead)) f₀.size curHead value defaultDest
        done := by
      refine hselects.congr (S := fun l => f₀.size ≤ l) (fun l hl => ⟨?_, fun d _ hd => hd⟩) hhead.1
      rw [Function.setTerminator_of_ne (by omega)]
    exact hchain.br (Function.setTerminator_self) hhead.1
  | cons c cases ih =>
    obtain ⟨caseValue, dest⟩ := c
    rw [List.forall_mem_cons] at hcases
    obtain ⟨f₁, hf₁, hconverting, hsize, hnew, hold⟩ := h.step
      (.condBr value caseValue dest curHead) [curHead] horig hcases.1
      (fun l hl => (hwf.fresh l hl).1) rfl
      (List.forall_mem_singleton.mpr hhead)
    have hle := h.size_le
    have hchain : Selects f₁ f₀.size curHead value defaultDest done :=
      hselects.congr (S := fun l => l < f.size)
        (fun l hl => ⟨hold l hl, fun d hd _ => h.closed l d hd⟩) hhead.2
    obtain ⟨f', hf', hconverted, hselects'⟩ := ih hconverting hcases.2
      ⟨hle, by omega⟩ (hchain.condBr hnew hle hcases.1 hhead.1)
    refine ⟨f', by rw [switchConvert, hf₁]; exact hf', hconverted, ?_⟩
    rwa [List.reverse_cons, List.append_assoc]

theorem exists_processSwitchInst (hwf : WellFormed f) (horig : orig < f.size)
    (hswitch : (f.block orig).terminator = .switch value defaultDest cases) :
    ∃ f', processSwitchInst f orig = some f' ∧ Converted f orig f' ∧
      Selects f' f.size orig value defaultDest cases := by
  have hsuccessors : (f.block orig).terminator.successors = defaultDest :: cases.map (·.2) := by
    rw [hswitch]
    rfl
  have hclosed := hwf.closed orig
  rw [hsuccessors, List.forall_mem_cons] at hclosed
  have hstart : Converting f orig (defaultDest :: cases.reverse.map (·.2)) f := by
    refine ⟨le_rfl, fun b => List.forall₂_same.mpr fun pn _ => .refl _ pn, fun b pn hpn l => ?_,
      fun _ _ => rfl, hwf.closed, hwf.fresh⟩
    have hentries := hwf.entries b pn hpn l
    split_ifs with hl
    · rw [hentries, hl, hsuccessors, List.count_cons, List.count_cons, List.map_reverse,
        List.count_reverse]
    · exact hentries
  obtain ⟨f₁, hf₁, hconverting, hsize, hnew, -⟩ := hstart.step (.br defaultDest) []
    horig hclosed.1 (fun l hl => (hwf.fresh l hl).1) rfl (List.forall_mem_nil _)
  have hdefault : Selects f₁ f.size f.size value defaultDest [] := fun env => by
    refine ⟨1, f.size, le_rfl, ?_⟩
    rw [leave, hnew, next, Option.bind_some, if_pos hclosed.1]
    rfl
  obtain ⟨f', hf', hconverted, hselects⟩ := exists_switchConvert hwf horig hconverting
    (fun c hc => hclosed.2 c.2 (List.mem_map_of_mem (List.mem_reverse.mp hc)))
    ⟨le_rfl, by omega⟩ hdefault
  refine ⟨f', ?_, hconverted, ?_⟩
  · rw [processSwitchInst, hswitch]
    dsimp only
    rw [hf₁]
    exact hf'
  · rwa [List.reverse_reverse, List.append_nil] at hselects

end Control

section Run

variable [DecidableEq α] {env : Op → α} {fuel p d : Nat} {done : List Nat}

theorem leave_mono {bound bound' : Nat} (hle : bound' ≤ bound)
    (h : leave f env bound fuel l = some (p, d)) (hd : d < bound') :
    leave f env bound' fuel l = some (p, d) := by
  induction fuel generalizing l with
  | zero => cases h
  | succ fuel ih =>
    obtain ⟨dest, hdest, hrest⟩ := Option.bind_eq_some_iff.mp h
    rw [leave, hdest, Option.bind_some]
    split_ifs at hrest with hlt
    · cases hrest
      rw [if_pos hd]
    · rw [if_neg (by omega)]
      exact ih hrest

/-- The switch of a block has been replaced by blocks that select the same, with the same values
for the phi nodes. -/
def Replaced (f₀ f : Function Op α V) (l : Nat) : Prop :=
  ∀ condition defaultDest cases, (f₀.block l).terminator = .switch condition defaultDest cases →
    ∀ env : Op → α, ∃ fuel p, f₀.size ≤ p ∧
      leave f env f₀.size fuel l = some (p, select defaultDest cases (env condition)) ∧
      List.Forall₂ (SameValue l p) (f₀.block (select defaultDest cases (env condition))).phis
        (f.block (select defaultDest cases (env condition))).phis

structure Lowered (f₀ : Function Op α V) (done : List Nat) (f : Function Op α V) : Prop where
  wellFormed : WellFormed f
  size_le : f₀.size ≤ f.size
  terminator : ∀ l < f₀.size, l ∉ done → (f.block l).terminator = (f₀.block l).terminator
  values : ∀ b, List.Forall₂ (fun pn pn' => ∀ l < f₀.size, l ∉ done → SameValue l l pn pn')
    (f₀.block b).phis (f.block b).phis
  replaced : ∀ l ∈ done, Replaced f₀ f l

/-- An earlier replacement is not touched by a later one. -/
theorem Replaced.congr (h : Replaced f₀ f l) (hsize : f₀.size ≤ f.size) (hwf : WellFormed f)
    (hl : l < f₀.size) (horig : orig < f₀.size) (hne : l ≠ orig)
    (hconverted : Converted f orig f') : Replaced f₀ f' l := by
  intro condition defaultDest cases hswitch env
  obtain ⟨fuel, p, hp, hleave, hvalues⟩ := h condition defaultDest cases hswitch env
  have hcongr : leave f' env f₀.size fuel l = leave f env f₀.size fuel l := by
    refine leave_congr (S := fun x => x ≠ orig ∧ x < f.size) (fun x hx => ⟨?_, fun d hd hle => ?_⟩)
      ⟨hne, by omega⟩
    · exact hconverted.terminator x hx.2 hx.1
    · exact ⟨by omega, hwf.closed x d hd⟩
  obtain ⟨hmem, -, -⟩ := leave_eq_some hleave
  have hlt : p < f.size := by
    by_contra hge
    rw [(hwf.fresh p (not_lt.mp hge)).2] at hmem
    exact absurd hmem List.not_mem_nil
  refine ⟨fuel, p, hp, hcongr.trans hleave, ?_⟩
  refine forall₂_trans hvalues (hconverted.phis _) fun pn pn' pn'' hsame hmoved => ?_
  exact (hmoved.getIncomingValueForBlock_eq hlt (by omega)).trans hsame

theorem Lowered.step (hwf : WellFormed f₀) (h : Lowered f₀ done f) (horig : orig < f₀.size)
    (hnew : orig ∉ done) (hdone : ∀ l ∈ done, l < f₀.size) :
    ∃ f', processSwitchInst f orig = some f' ∧ Lowered f₀ (orig :: done) f' := by
  have hsize := h.size_le
  have hterminator := h.terminator orig horig hnew
  by_cases hswitch : ∃ condition defaultDest cases,
      (f₀.block orig).terminator = .switch condition defaultDest cases
  · obtain ⟨condition, defaultDest, cases, hswitch⟩ := hswitch
    obtain ⟨f', hf', hconverted, hselects⟩ := exists_processSwitchInst h.wellFormed
      (by omega : orig < f.size) (hterminator.trans hswitch)
    refine ⟨f', hf', hconverted.wellFormed, hsize.trans hconverted.size_le, fun l hl hmem => ?_,
      fun b => ?_, List.forall_mem_cons.mpr ⟨?_, fun l hl => ?_⟩⟩
    · rw [List.mem_cons, not_or] at hmem
      exact (hconverted.terminator l (by omega) hmem.1).trans (h.terminator l hl hmem.2)
    · refine forall₂_trans (h.values b) (hconverted.phis b)
        fun pn pn' pn'' hsame hmoved l hl hmem => ?_
      rw [List.mem_cons, not_or] at hmem
      exact (hmoved.getIncomingValueForBlock_eq (by omega) hmem.1).trans (hsame l hl hmem.2)
    · intro condition' defaultDest' cases' hswitch' env
      rw [hswitch] at hswitch'
      cases hswitch'
      obtain ⟨fuel, p, hp, hleave⟩ := hselects env
      obtain ⟨hmem, -, -⟩ := leave_eq_some hleave
      have hselected : select defaultDest cases (env condition) < f₀.size := by
        refine hwf.closed orig _ ?_
        rw [hswitch]
        exact mem_successors_of_next
          (show next env (.switch condition defaultDest cases) = some _ from rfl)
      refine ⟨fuel, p, hsize.trans hp, leave_mono hsize hleave hselected, ?_⟩
      exact forall₂_trans (h.values _) (hconverted.sameValue h.wellFormed hp hmem)
        fun pn pn' pn'' hsame hnew' => hnew'.trans (hsame orig horig hnew)
    · exact (h.replaced l hl).congr hsize h.wellFormed (hdone l hl) horig
        (by rintro rfl; exact hnew hl) hconverted
  · refine ⟨f, ?_, h.wellFormed, hsize, fun l hl hmem => ?_, fun b => ?_,
      List.forall_mem_cons.mpr ⟨?_, h.replaced⟩⟩
    · unfold processSwitchInst
      split
      case h_1 condition defaultDest cases heq =>
        exact absurd ⟨condition, defaultDest, cases, hterminator.symm.trans heq⟩ hswitch
      case h_2 => rfl
    · exact h.terminator l hl fun hmem' => hmem (List.mem_cons_of_mem _ hmem')
    · exact (h.values b).imp fun pn pn' hsame l hl hmem =>
        hsame l hl fun hmem' => hmem (List.mem_cons_of_mem _ hmem')
    · intro condition defaultDest cases heq
      exact absurd ⟨condition, defaultDest, cases, heq⟩ hswitch

theorem exists_foldlM (hwf : WellFormed f₀) {blocks : List Nat} (h : Lowered f₀ done f)
    (hblocks : ∀ l ∈ blocks, l < f₀.size) (hnodup : blocks.Nodup)
    (hnew : ∀ l ∈ blocks, l ∉ done) (hdone : ∀ l ∈ done, l < f₀.size) :
    ∃ f', blocks.foldlM processSwitchInst f = some f' ∧
      Lowered f₀ (blocks.reverse ++ done) f' := by
  induction blocks generalizing f done with
  | nil => exact ⟨f, rfl, h⟩
  | cons l blocks ih =>
    rw [List.forall_mem_cons] at hblocks hnew
    rw [List.nodup_cons] at hnodup
    obtain ⟨f₁, hf₁, hlowered⟩ := h.step hwf hblocks.1 hnew.1 hdone
    obtain ⟨f', hf', hlowered'⟩ := ih hlowered hblocks.2 hnodup.2
      (fun l' hl' hmem => by
        rcases List.mem_cons.mp hmem with rfl | hmem
        · exact hnodup.1 hl'
        · exact hnew.2 l' hl' hmem)
      (List.forall_mem_cons.mpr ⟨hblocks.1, hdone⟩)
    refine ⟨f', by rw [List.foldlM_cons, hf₁]; exact hf', ?_⟩
    rwa [List.reverse_cons, List.append_assoc]

/-- After the pass every phi node has one entry for each edge into its block, and from the block
of a switch control gets to what the switch selected, on an edge with the same values. -/
theorem runOnFunction_preserves (hwf : WellFormed f) :
    ∃ f', runOnFunction f = some f' ∧
      (∀ b, ∀ pn ∈ (f'.block b).phis, ∀ l,
        pn.entries l = (f'.block l).terminator.successors.count b) ∧
      ∀ l, Replaced f f' l := by
  have hstart : Lowered f [] f :=
    ⟨hwf, le_rfl, fun _ _ _ => rfl, fun _ => List.forall₂_same.mpr fun _ _ _ _ _ => rfl,
      List.forall_mem_nil _⟩
  obtain ⟨f', hf', h⟩ := exists_foldlM hwf hstart (fun l => List.mem_range.mp) List.nodup_range
    (fun _ _ => List.not_mem_nil) (List.forall_mem_nil _)
  refine ⟨f', hf', h.wellFormed.entries, fun l condition defaultDest cases hswitch => ?_⟩
  have hl : l < f.size := by
    by_contra hge
    have hempty := (hwf.fresh l (not_lt.mp hge)).2
    rw [hswitch] at hempty
    cases hempty
  refine h.replaced l ?_ condition defaultDest cases hswitch
  rw [List.append_nil, List.mem_reverse]
  exact List.mem_range.mpr hl

end Run

section Example

def loop : Function Unit Int Nat where
  size := 3
  block
    | 0 => ⟨[], .other [1]⟩
    | 1 => ⟨[⟨[(0, 10), (1, 11), (1, 11)]⟩], .switch () 1 [(5, 2), (6, 1), (7, 2)]⟩
    | 2 => ⟨[⟨[(1, 20), (1, 20)]⟩], .other []⟩
    | _ => ⟨[], .other []⟩

theorem block_of_mem_phis {b : Nat} {pn : PHINode Nat} (h : pn ∈ (loop.block b).phis) :
    b = 1 ∨ b = 2 := by
  rcases b with _ | _ | _ | b
  · exact absurd h List.not_mem_nil
  · exact .inl rfl
  · exact .inr rfl
  · exact absurd h List.not_mem_nil

theorem wellFormed_loop : WellFormed loop where
  entries b pn hpn l := by
    rcases block_of_mem_phis hpn with rfl | rfl <;> rw [List.mem_singleton.mp hpn] <;>
      rcases l with _ | _ | _ | l
    · decide
    · decide
    · decide
    · simp [PHINode.entries, loop, Terminator.successors]
    · decide
    · decide
    · decide
    · simp [PHINode.entries, loop, Terminator.successors]
  consistent b pn hpn := by
    unfold PHINode.Consistent
    rcases block_of_mem_phis hpn with rfl | rfl <;> rw [List.mem_singleton.mp hpn] <;> decide
  closed l b hb := by
    have hentry : ∀ b ∈ (loop.block 0).terminator.successors, b < 3 := by decide
    have hloop : ∀ b ∈ (loop.block 1).terminator.successors, b < 3 := by decide
    rcases l with _ | _ | _ | l
    · exact hentry b hb
    · exact hloop b hb
    · exact absurd hb List.not_mem_nil
    · exact absurd hb List.not_mem_nil
  fresh l hl := by
    obtain ⟨l, rfl⟩ := Nat.exists_eq_add_of_le' hl
    exact ⟨rfl, rfl⟩

theorem runOnFunction_preserves_loop : ∃ f', runOnFunction loop = some f' ∧
    ∃ fuel p, leave f' (fun _ => 7) 3 fuel 1 = some (p, 2) ∧
      List.Forall₂ (SameValue 1 p) (loop.block 2).phis (f'.block 2).phis := by
  obtain ⟨f', hf', -, hreplaced⟩ := runOnFunction_preserves wellFormed_loop
  obtain ⟨fuel, p, -, hleave, hvalues⟩ := hreplaced 1 () 1 [(5, 2), (6, 1), (7, 2)] rfl fun _ => 7
  exact ⟨f', hf', fuel, p, hleave, hvalues⟩

end Example

end Klee.LowerSwitch
