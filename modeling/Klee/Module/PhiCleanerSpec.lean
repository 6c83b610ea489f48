import Klee.Lib.Pointwise
import Klee.Module.PhiCleaner

/-! After `PhiCleanerPass` phi nodes that are executed one after another have the values that they
have when all are read first. -/
namespace Klee.PhiCleaner

open Pointwise

variable {Val : Type*} {f f' f₀ : Function Val} {b n : Nat} {phis : List Nat}

/-- What the LLVM verifier promises: the phi nodes of a block have the same entries, and entries of
one block agree. -/
structure WellFormed (f : Function Val) : Prop where
  moves : ∀ b, (f.block b).moves = []
  registers : ∀ b, ∀ phi ∈ (f.block b).phis, phi.1 < f.registers ∧
    ∀ l r, (l, Operand.reg r) ∈ phi.2.incoming → r < f.registers
  nodup : ∀ b, ((f.block b).phis.map (·.1)).Nodup
  entries : ∀ b, ∀ phi ∈ (f.block b).phis, ∀ phi' ∈ (f.block b).phis, ∀ l,
    phi.2.entries l = phi'.2.entries l
  consistent : ∀ b, ∀ phi ∈ (f.block b).phis, phi.2.Consistent
  fresh : ∀ b, f.size ≤ b → (f.block b).phis = []

section Moves

structure Grows (f f' : Function Val) : Prop where
  phis : ∀ b, (f'.block b).phis = (f.block b).phis
  moves : ∀ b, (f.block b).moves ⊆ (f'.block b).moves
  size : f'.size = f.size
  registers : f.registers ≤ f'.registers

theorem Grows.refl (f : Function Val) : Grows f f :=
  ⟨fun _ => rfl, fun _ => List.Subset.refl _, rfl, le_rfl⟩

theorem Grows.trans {f'' : Function Val} (h : Grows f f') (h' : Grows f' f'') : Grows f f'' :=
  ⟨fun b => (h'.phis b).trans (h.phis b), fun b => List.Subset.trans (h.moves b) (h'.moves b),
    h'.size.trans h.size, h.registers.trans h'.registers⟩

structure MovesOk (n : Nat) (f : Function Val) : Prop where
  le : n ≤ f.registers
  nodup : ∀ b, ((f.block b).moves.map (·.1)).Nodup
  bounds : ∀ b, ∀ move ∈ (f.block b).moves, n ≤ move.1 ∧ move.1 < f.registers ∧ move.2 < n

theorem addMove_moves (f : Function Val) (l src b : Nat) : ((f.addMove l src).block b).moves =
    if b = l then (f.block b).moves ++ [(f.registers, src)] else (f.block b).moves := by
  simp only [Function.addMove, Function.update_apply]
  split_ifs with h
  · rw [h]
  · rfl

theorem grows_addMove (f : Function Val) (l src : Nat) : Grows f (f.addMove l src) where
  phis b := by
    simp only [Function.addMove, Function.update_apply]
    split_ifs with h
    · rw [h]
    · rfl
  moves b := by
    rw [addMove_moves]
    split_ifs
    · exact List.subset_append_left _ _
    · exact List.Subset.refl _
  size := rfl
  registers := Nat.le_succ _

theorem MovesOk.addMove (h : MovesOk n f) {src : Nat} (hsrc : src < n) (l : Nat) :
    MovesOk n (f.addMove l src) where
  le := h.le.trans (Nat.le_succ _)
  nodup b := by
    rw [addMove_moves]
    split_ifs
    · rw [List.map_append, List.nodup_append']
      refine ⟨h.nodup b, List.nodup_singleton _, ?_⟩
      rw [List.map_singleton, List.disjoint_singleton]
      intro hmem
      obtain ⟨move, hmove, heq⟩ := List.mem_map.mp hmem
      have hlt := (h.bounds b move hmove).2.1
      omega
    · exact h.nodup b
  bounds b move hmove := by
    have hregisters : (f.addMove l src).registers = f.registers + 1 := rfl
    have hle := h.le
    have hold (hmem : move ∈ (f.block b).moves) := h.bounds b move hmem
    rw [addMove_moves] at hmove
    split_ifs at hmove
    · rcases List.mem_append.mp hmove with hmem | hmem
      · have hbounds := hold hmem
        omega
      · rw [List.mem_singleton.mp hmem]
        dsimp only
        omega
    · have hbounds := hold hmove
      omega

theorem runMoves_of_notMem {moves : List (Nat × Nat)} {r : Nat} (h : r ∉ moves.map (·.1))
    (env : Nat → Val) : runMoves moves env r = env r := by
  induction moves generalizing env with
  | nil => rfl
  | cons move moves ih =>
    rw [List.map_cons, List.mem_cons, not_or] at h
    exact (ih h.2 _).trans (Function.update_of_ne h.1 ..)

/-- Moves to new registers all read what was there before. -/
theorem runMoves_spec {moves : List (Nat × Nat)} (hnodup : (moves.map (·.1)).Nodup)
    (hbounds : ∀ move ∈ moves, n ≤ move.1 ∧ move.2 < n) (env : Nat → Val) :
    (∀ r < n, runMoves moves env r = env r) ∧
      ∀ move ∈ moves, runMoves moves env move.1 = env move.2 := by
  induction moves generalizing env with
  | nil => exact ⟨fun _ _ => rfl, List.forall_mem_nil _⟩
  | cons move moves ih =>
    rw [List.map_cons, List.nodup_cons] at hnodup
    rw [List.forall_mem_cons] at hbounds
    obtain ⟨hold, hnew⟩ := ih hnodup.2 hbounds.2 (Function.update env move.1 (env move.2))
    have hrun : runMoves (move :: moves) env =
        runMoves moves (Function.update env move.1 (env move.2)) := rfl
    rw [hrun]
    refine ⟨fun r hr => ?_, List.forall_mem_cons.mpr ⟨?_, fun m hm => ?_⟩⟩
    · rw [hold r hr, Function.update_of_ne (by omega)]
    · rw [runMoves_of_notMem hnodup.1, Function.update_self]
    · rw [hnew m hm, Function.update_of_ne]
      have hlt := (hbounds.2 m hm).2
      omega

end Moves

section Cleaning

variable {pn pn' reference : PHINode (Operand Val)}

/-- The value, or a move of it at the end of the incoming block if it is an earlier phi node. -/
def Saved (f : Function Val) (l : Nat) (phis : List Nat) (v v' : Operand Val) : Prop :=
  (v' = v ∧ ∀ r ∈ phis, v ≠ .reg r) ∨
    ∃ r tmp, v = .reg r ∧ v' = .reg tmp ∧ (tmp, r) ∈ (f.block l).moves

theorem Saved.mono {l : Nat} {v v' : Operand Val} (h : Saved f l phis v v')
    (hmoves : ∀ b, (f.block b).moves ⊆ (f'.block b).moves) : Saved f' l phis v v' := by
  rcases h with h | ⟨r, tmp, hv, hv', hmem⟩
  · exact .inl h
  · exact .inr ⟨r, tmp, hv, hv', hmoves l hmem⟩

structure SavedValues (n : Nat) (f : Function Val) (phis : List Nat)
    (incoming incoming' : List (Nat × Operand Val)) (f' : Function Val) : Prop where
  grows : Grows f f'
  ok : MovesOk n f'
  entries : List.Forall₂ (fun e e' => e'.1 = e.1 ∧ Saved f' e.1 phis e.2 e'.2) incoming incoming'

theorem savedValues (hok : MovesOk n f) (hphis : ∀ r ∈ phis, r < n)
    (incoming : List (Nat × Operand Val)) :
    SavedValues n f phis incoming (saveValues phis incoming f).1
      (saveValues phis incoming f).2 := by
  induction incoming generalizing f with
  | nil => exact ⟨.refl f, hok, .nil⟩
  | cons e incoming ih =>
    obtain ⟨l, v⟩ := e
    cases v with
    | const v =>
      have hrest := ih hok
      exact ⟨hrest.grows, hrest.ok, .cons ⟨rfl, .inl ⟨rfl, fun _ _ h => by cases h⟩⟩ hrest.entries⟩
    | reg r =>
      rw [saveValues]
      split_ifs with hr
      · have hrest := ih (hok.addMove (hphis r hr) l)
        have hgrows := (grows_addMove f l r).trans hrest.grows
        have hmove : (f.registers, r) ∈ ((f.addMove l r).block l).moves := by
          rw [addMove_moves, if_pos rfl]
          exact List.mem_append_right _ (List.mem_singleton_self _)
        exact ⟨hgrows, hrest.ok,
          .cons ⟨rfl, .inr ⟨r, f.registers, rfl, rfl, hrest.grows.moves l hmove⟩⟩ hrest.entries⟩
      · have hrest := ih hok
        refine ⟨hrest.grows, hrest.ok, .cons ⟨rfl, .inl ⟨rfl, fun s hs heq => ?_⟩⟩ hrest.entries⟩
        cases heq
        exact hr hs

/-- The entries are in the order of the reference, each with its value. -/
theorem exists_reorder (hentries : ∀ l, pn.entries l = reference.entries l)
    (hconsistent : pn.Consistent) :
    ∃ pn', reorder reference pn = some pn' ∧
      pn'.incoming.map (·.1) = reference.incoming.map (·.1) ∧
      ∀ e ∈ pn'.incoming, pn.getIncomingValueForBlock e.1 = some e.2 := by
  unfold reorder
  split_ifs with hsame
  · exact ⟨pn, rfl, hsame, fun e he => hconsistent.eq_some he⟩
  · have hvalues : ∀ entries : List (Nat × Operand Val), (∀ e ∈ entries, e ∈ reference.incoming) →
        ∃ values, (entries.mapM fun entry => pn.getIncomingValueForBlock entry.1) = some values ∧
          values.length = entries.length ∧ ∀ e ∈ (entries.map (·.1)).zip values,
            pn.getIncomingValueForBlock e.1 = some e.2 := by
      intro entries
      induction entries with
      | nil => exact fun _ => ⟨[], rfl, rfl, List.forall_mem_nil _⟩
      | cons e entries ih =>
        intro hmem
        rw [List.forall_mem_cons] at hmem
        obtain ⟨values, hvalues, hlen, hzip⟩ := ih hmem.2
        have hpos : 0 < pn.entries e.1 := by
          rw [hentries]
          exact List.count_pos_iff.mpr (List.mem_map_of_mem hmem.1)
        obtain ⟨v, hv⟩ := PHINode.exists_getIncomingValueForBlock hpos
        refine ⟨v :: values, by rw [List.mapM_cons, hv, hvalues]; rfl, by simp [hlen], ?_⟩
        exact List.forall_mem_cons.mpr ⟨hv, hzip⟩
    obtain ⟨values, hmap, hlen, hzip⟩ := hvalues reference.incoming fun _ he => he
    refine ⟨_, congrArg (Option.map _) hmap, ?_, hzip⟩
    rw [List.map_fst_zip (by simp [hlen])]

/-- A phi node after the pass: its entries are in the order of the first one's. -/
structure CleanedPhi (f : Function Val) (reference : PHINode (Operand Val)) (phis : List Nat)
    (pn pn' : PHINode (Operand Val)) : Prop where
  order : pn'.incoming.map (·.1) = reference.incoming.map (·.1)
  values : ∀ e ∈ pn'.incoming, ∃ v, pn.getIncomingValueForBlock e.1 = some v ∧
    Saved f e.1 phis v e.2

/-- The phi nodes after the first, `phis` being those before. -/
inductive Cleaned (f : Function Val) (reference : PHINode (Operand Val)) :
    List Nat → List (Nat × PHINode (Operand Val)) → List (Nat × PHINode (Operand Val)) → Prop
  | nil {phis : List Nat} : Cleaned f reference phis [] []
  | cons {phis : List Nat} {r : Nat} {pn pn' : PHINode (Operand Val)}
      {rest rest' : List (Nat × PHINode (Operand Val))} (h : CleanedPhi f reference phis pn pn')
      (hrest : Cleaned f reference (r :: phis) rest rest') :
      Cleaned f reference phis ((r, pn) :: rest) ((r, pn') :: rest')

variable {rest rest' : List (Nat × PHINode (Operand Val))}

theorem CleanedPhi.mono (h : CleanedPhi f reference phis pn pn')
    (hmoves : ∀ b, (f.block b).moves ⊆ (f'.block b).moves) : CleanedPhi f' reference phis pn pn' :=
  ⟨h.order, fun e he => by
    obtain ⟨v, hv, hsaved⟩ := h.values e he
    exact ⟨v, hv, hsaved.mono hmoves⟩⟩

theorem Cleaned.mono (h : Cleaned f reference phis rest rest')
    (hmoves : ∀ b, (f.block b).moves ⊆ (f'.block b).moves) :
    Cleaned f' reference phis rest rest' := by
  induction h with
  | nil => exact .nil
  | cons hphi _ ih => exact .cons (hphi.mono hmoves) ih

theorem exists_cleanPhis (reference : PHINode (Operand Val)) (phis : List Nat)
    (rest : List (Nat × PHINode (Operand Val))) (hok : MovesOk n f) (hphis : ∀ r ∈ phis, r < n)
    (hrest : ∀ phi ∈ rest, phi.1 < n ∧ (∀ l, phi.2.entries l = reference.entries l) ∧
      phi.2.Consistent) :
    ∃ rest' f', cleanPhis reference phis rest f = some (rest', f') ∧ Grows f f' ∧ MovesOk n f' ∧
      Cleaned f' reference phis rest rest' := by
  induction rest generalizing f phis with
  | nil => exact ⟨[], f, rfl, .refl f, hok, .nil⟩
  | cons phi rest ih =>
    obtain ⟨r, pi⟩ := phi
    rw [List.forall_mem_cons] at hrest
    obtain ⟨⟨hr, hentries, hconsistent⟩, hrest⟩ := hrest
    have hlen : pi.incoming.length = reference.incoming.length := by
      have hperm : (pi.incoming.map (·.1)).Perm (reference.incoming.map (·.1)) :=
        List.perm_iff_count.mpr hentries
      simpa using hperm.length_eq
    obtain ⟨pi', hpi', horder, hvalues⟩ := exists_reorder hentries hconsistent
    have hsaved := savedValues hok hphis pi'.incoming
    obtain ⟨rest', f', hclean, hgrows, hok', hcleaned⟩ := ih (r :: phis) hsaved.ok
      (List.forall_mem_cons.mpr ⟨hr, hphis⟩) hrest
    have hphi : CleanedPhi f' reference phis pi ⟨(saveValues phis pi'.incoming f).1⟩ := by
      refine ⟨Eq.trans ?_ horder, fun e he => ?_⟩
      · have hlabels := hsaved.entries.imp fun e e' h => h.1.symm
        rw [← List.forall₂_map_right_iff, ← List.forall₂_map_left_iff, List.forall₂_eq_eq_eq]
          at hlabels
        exact hlabels.symm
      · obtain ⟨e₀, he₀, hlabel, hsave⟩ := forall₂_mem_right hsaved.entries he
        rw [hlabel]
        exact ⟨e₀.2, hvalues e₀ he₀, hsave.mono hgrows.moves⟩
    refine ⟨_, f', ?_, hsaved.grows.trans hgrows, hok', .cons hphi hcleaned⟩
    rw [cleanPhis, if_pos hlen, hpi', Option.bind_some]
    dsimp only
    rw [hclean]
    rfl

end Cleaning

section Run

variable {done : List Nat} {reference : PHINode (Operand Val)} {r : Nat}
  {rest : List (Nat × PHINode (Operand Val))}

def BlockCleaned (f₀ f : Function Val) (b : Nat) : Prop :=
  (f₀.block b).phis = [] ∧ (f.block b).phis = [] ∨
    ∃ r reference rest rest', (f₀.block b).phis = (r, reference) :: rest ∧
      (f.block b).phis = (r, reference) :: rest' ∧ Cleaned f reference [r] rest rest'

theorem setPhis_moves (f : Function Val) (l : Nat) (phis : List (Nat × PHINode (Operand Val)))
    (b : Nat) : ((f.setPhis l phis).block b).moves = (f.block b).moves := by
  simp only [Function.setPhis, Function.update_apply]
  split_ifs with h
  · rw [h]
  · rfl

theorem setPhis_self (f : Function Val) (l : Nat) (phis : List (Nat × PHINode (Operand Val))) :
    ((f.setPhis l phis).block l).phis = phis := by
  simp only [Function.setPhis, Function.update_self]

theorem setPhis_of_ne {l : Nat} (h : b ≠ l) (phis : List (Nat × PHINode (Operand Val))) :
    (f.setPhis l phis).block b = f.block b :=
  Function.update_of_ne h ..

theorem BlockCleaned.mono (h : BlockCleaned f₀ f b) (hphis : (f'.block b).phis = (f.block b).phis)
    (hmoves : ∀ b, (f.block b).moves ⊆ (f'.block b).moves) : BlockCleaned f₀ f' b := by
  rcases h with ⟨hempty, hempty'⟩ | ⟨r, reference, rest, rest', hblock, hblock', hcleaned⟩
  · exact .inl ⟨hempty, hphis.trans hempty'⟩
  · exact .inr ⟨r, reference, rest, rest', hblock, hphis.trans hblock', hcleaned.mono hmoves⟩

theorem MovesOk.setPhis (h : MovesOk n f) (l : Nat) (phis : List (Nat × PHINode (Operand Val))) :
    MovesOk n (f.setPhis l phis) where
  le := h.le
  nodup b := by
    rw [setPhis_moves]
    exact h.nodup b
  bounds b := by
    rw [setPhis_moves]
    exact h.bounds b

structure Progress (f₀ : Function Val) (done : List Nat) (f : Function Val) : Prop where
  ok : MovesOk f₀.registers f
  todo : ∀ b, b ∉ done → (f.block b).phis = (f₀.block b).phis
  cleaned : ∀ b ∈ done, BlockCleaned f₀ f b

theorem Progress.step (hwf : WellFormed f₀) (h : Progress f₀ done f) (hnew : b ∉ done) :
    ∃ f', cleanBlock f b = some f' ∧ Progress f₀ (b :: done) f' := by
  have hphis := h.todo b hnew
  cases hblock : (f₀.block b).phis with
  | nil =>
    refine ⟨f, ?_, h.ok, fun b' hb' => h.todo b' fun hmem => hb' (List.mem_cons_of_mem _ hmem),
      List.forall_mem_cons.mpr ⟨.inl ⟨hblock, hphis.trans hblock⟩, h.cleaned⟩⟩
    rw [cleanBlock, hphis, hblock]
  | cons first rest =>
    obtain ⟨r, reference⟩ := first
    have hmem (phi) (hphi : phi ∈ rest) : phi ∈ (f₀.block b).phis :=
      hblock ▸ List.mem_cons_of_mem _ hphi
    have hfirst : (r, reference) ∈ (f₀.block b).phis := hblock ▸ List.mem_cons_self
    obtain ⟨rest', f', hclean, hgrows, hok, hcleaned⟩ := exists_cleanPhis reference [r] rest h.ok
      (List.forall_mem_singleton.mpr (hwf.registers b _ hfirst).1) fun phi hphi =>
        ⟨(hwf.registers b phi (hmem phi hphi)).1,
          hwf.entries b phi (hmem phi hphi) _ hfirst, hwf.consistent b phi (hmem phi hphi)⟩
    refine ⟨f'.setPhis b ((r, reference) :: rest'), ?_, ?_, fun b' hb' => ?_,
      List.forall_mem_cons.mpr ⟨.inr ⟨r, reference, rest, rest', hblock, ?_, ?_⟩, fun b' hb' => ?_⟩⟩
    · rw [cleanBlock, hphis, hblock]
      dsimp only
      rw [hclean]
      rfl
    · exact hok.setPhis _ _
    · rw [List.mem_cons, not_or] at hb'
      rw [setPhis_of_ne hb'.1, hgrows.phis]
      exact h.todo b' hb'.2
    · exact setPhis_self ..
    · exact hcleaned.mono fun b' => (setPhis_moves f' b _ b').symm ▸ List.Subset.refl _
    · have hne : b' ≠ b := by
        rintro rfl
        exact hnew hb'
      refine (h.cleaned b' hb').mono ?_ fun b'' => ?_
      · rw [setPhis_of_ne hne, hgrows.phis]
      · rw [setPhis_moves]
        exact hgrows.moves b''

theorem exists_foldlM (hwf : WellFormed f₀) {blocks : List Nat} (h : Progress f₀ done f)
    (hnodup : blocks.Nodup) (hnew : ∀ b ∈ blocks, b ∉ done) :
    ∃ f', blocks.foldlM cleanBlock f = some f' ∧ Progress f₀ (blocks.reverse ++ done) f' := by
  induction blocks generalizing f done with
  | nil => exact ⟨f, rfl, h⟩
  | cons b blocks ih =>
    rw [List.forall_mem_cons] at hnew
    rw [List.nodup_cons] at hnodup
    obtain ⟨f₁, hf₁, hprogress⟩ := h.step hwf hnew.1
    obtain ⟨f', hf', hprogress'⟩ := ih hprogress hnodup.2 fun b' hb' hmem => by
      rcases List.mem_cons.mp hmem with rfl | hmem
      · exact hnodup.1 hb'
      · exact hnew.2 b' hb' hmem
    refine ⟨f', by rw [List.foldlM_cons, hf₁]; exact hf', ?_⟩
    rwa [List.reverse_cons, List.append_assoc]

theorem exists_runOnFunction (hwf : WellFormed f) :
    ∃ f', runOnFunction f = some f' ∧ MovesOk f.registers f' ∧ ∀ b, BlockCleaned f f' b := by
  have hstart : Progress f [] f := by
    refine ⟨⟨le_rfl, fun b => ?_, fun b move hmove => ?_⟩, fun _ _ => rfl, List.forall_mem_nil _⟩
    · rw [hwf.moves b]
      exact List.nodup_nil
    · rw [hwf.moves b] at hmove
      exact absurd hmove List.not_mem_nil
  obtain ⟨f', hf', h⟩ := exists_foldlM hwf hstart List.nodup_range fun _ _ => List.not_mem_nil
  refine ⟨f', hf', h.ok, fun b => ?_⟩
  rw [List.append_nil] at h
  rcases Nat.lt_or_ge b f.size with hlt | hge
  · exact h.cleaned b (List.mem_reverse.mpr (List.mem_range.mpr hlt))
  · have hempty := hwf.fresh b hge
    have htodo := h.todo b fun hmem =>
      absurd (List.mem_range.mp (List.mem_reverse.mp hmem)) (not_lt.mpr hge)
    exact .inl ⟨hempty, htodo.trans hempty⟩

end Run

section Execution

variable {reference : PHINode (Operand Val)} {rest rest' : List (Nat × PHINode (Operand Val))}
  {src index : Nat} {ρ ρ₀ env : Nat → Val}

def AssignsInParallel (phis : List (Nat × PHINode (Operand Val))) (src : Nat)
    (ρ ρ' : Nat → Val) : Prop :=
  ∀ phi ∈ phis, ∃ v, phi.2.getIncomingValueForBlock src = some v ∧ ρ' phi.1 = v.eval ρ

/-- What a saved value is when the phi nodes in `phis` have been assigned. -/
theorem Saved.eval_eq {v v' : Operand Val} (h : Saved f src phis v v')
    (hv : ∀ r, v = .reg r → r < n) (hphis : ∀ r ∈ phis, r < n) (hok : MovesOk n f)
    (henv : ∀ r, r ∉ phis → env r = runMoves (f.block src).moves ρ r) :
    v'.eval env = v.eval ρ := by
  have hmoves := runMoves_spec (hok.nodup src)
    (fun move hmove => ⟨(hok.bounds src move hmove).1, (hok.bounds src move hmove).2.2⟩) ρ
  rcases h with ⟨rfl, hnot⟩ | ⟨r, tmp, rfl, rfl, hmem⟩
  · cases v' with
    | const v => rfl
    | reg r =>
      exact (henv r fun hr => hnot r hr rfl).trans (hmoves.1 r (hv r rfl))
  · have htmp : tmp ∉ phis := fun hmem' => by
      have hlt := hphis tmp hmem'
      have hle := (hok.bounds src _ hmem).1
      exact absurd hlt (not_lt.mpr hle)
    exact (henv tmp htmp).trans (hmoves.2 _ hmem)

/-- The phi nodes after the first, one after another. -/
theorem Cleaned.runPhis_spec (h : Cleaned f reference phis rest rest') (hok : MovesOk n f)
    (hphis : ∀ r ∈ phis, r < n) (hrest : ∀ phi ∈ rest, phi.1 < n ∧
      ∀ l r, (l, Operand.reg r) ∈ phi.2.incoming → r < n)
    (hnodup : (rest.map (·.1)).Nodup) (hnew : ∀ phi ∈ rest, phi.1 ∉ phis)
    (hindex : (reference.incoming.map (·.1))[index]? = some src)
    (henv : ∀ r, r ∉ phis → env r = runMoves (f.block src).moves ρ r) :
    ∃ env', runPhis index rest' env = some env' ∧ AssignsInParallel rest src ρ env' ∧
      ∀ r, r ∉ rest.map (·.1) → env' r = env r := by
  induction h generalizing env with
  | nil => exact ⟨env, rfl, List.forall_mem_nil _, fun _ _ => rfl⟩
  | @cons phis r pn pn' rest rest' hphi hcleaned ih =>
    rw [List.forall_mem_cons] at hrest hnew
    rw [List.map_cons, List.nodup_cons] at hnodup
    obtain ⟨e, he, hlabel⟩ : ∃ e, pn'.incoming[index]? = some e ∧ e.1 = src := by
      rw [← hphi.order, List.getElem?_map, Option.map_eq_some_iff] at hindex
      exact hindex
    obtain ⟨v, hv, hsaved⟩ := hphi.values e (List.mem_of_getElem? he)
    rw [hlabel] at hv hsaved
    have hvalue : e.2.eval env = v.eval ρ := hsaved.eval_eq
      (fun s hs => hrest.1.2 src s (hs ▸ PHINode.getIncomingValueForBlock_eq_some hv))
      hphis hok henv
    have hnext (s : Nat) (hs : s ∉ r :: phis) : Function.update env r (e.2.eval env) s =
        runMoves (f.block src).moves ρ s := by
      rw [List.mem_cons, not_or] at hs
      rw [Function.update_of_ne hs.1, henv s hs.2]
    obtain ⟨env', hrun, hassigns, hold⟩ := ih
      (List.forall_mem_cons.mpr ⟨hrest.1.1, hphis⟩) hrest.2 hnodup.2
      (fun phi hmem => by
        rw [List.mem_cons, not_or]
        exact ⟨fun heq => hnodup.1 (List.mem_map.mpr ⟨phi, hmem, heq⟩), hnew.2 phi hmem⟩)
      hnext
    refine ⟨env', ?_, List.forall_mem_cons.mpr ⟨⟨v, hv, ?_⟩, hassigns⟩, fun s hs => ?_⟩
    · rw [runPhis, List.foldlM_cons, PHINode.getIncomingValue, he]
      exact hrun
    · rw [hold r hnodup.1, Function.update_self, hvalue]
    · rw [List.map_cons, List.mem_cons, not_or] at hs
      rw [hold s hs.2, Function.update_of_ne hs.1]

theorem exists_index {pn : PHINode (Operand Val)} (h : 0 < pn.entries src) :
    ∃ index e, pn.getBasicBlockIndex src = some index ∧ pn.incoming[index]? = some e ∧
      e.1 = src ∧ pn.getIncomingValueForBlock src = some e.2 := by
  obtain ⟨v, hv⟩ := PHINode.exists_getIncomingValueForBlock h
  obtain ⟨index, hindex, hvalue⟩ := Option.bind_eq_some_iff.mp hv
  obtain ⟨e, he, rfl⟩ := Option.map_eq_some_iff.mp hvalue
  refine ⟨index, e, hindex, he, ?_, hv⟩
  obtain ⟨hlt, hlabel, -⟩ := List.findIdx?_eq_some_iff_getElem.mp hindex
  rw [List.getElem?_eq_getElem hlt, Option.some_inj] at he
  rw [← he]
  exact beq_iff_eq.mp hlabel

/-- After the pass, entering a block from another with any values of the registers gives every phi
node what it has when all are read first, and changes nothing else of the program's. -/
theorem runOnFunction_parallel (hwf : WellFormed f) :
    ∃ f', runOnFunction f = some f' ∧ ∀ src dst,
      (∀ phi ∈ (f.block dst).phis, 0 < phi.2.entries src) → ∀ ρ : Nat → Val,
        ∃ ρ', transferToBasicBlock (f'.block dst).phis src (runMoves (f'.block src).moves ρ) =
            some ρ' ∧ AssignsInParallel (f.block dst).phis src ρ ρ' ∧
          ∀ r < f.registers, r ∉ (f.block dst).phis.map (·.1) → ρ' r = ρ r := by
  obtain ⟨f', hf', hok, hcleaned⟩ := exists_runOnFunction hwf
  refine ⟨f', hf', fun src dst hentries ρ => ?_⟩
  have hmoves := (runMoves_spec (hok.nodup src)
    (fun move hmove => ⟨(hok.bounds src move hmove).1, (hok.bounds src move hmove).2.2⟩) ρ).1
  rcases hcleaned dst with ⟨hempty, hempty'⟩ | ⟨r, reference, rest, rest', hblock, hblock', hclean⟩
  · rw [hempty, hempty']
    exact ⟨_, rfl, List.forall_mem_nil _, fun r hr _ => hmoves r hr⟩
  · have hregisters := hwf.registers dst
    have hnodup := hwf.nodup dst
    rw [hblock, List.forall_mem_cons] at hregisters hentries
    rw [hblock, List.map_cons, List.nodup_cons] at hnodup
    obtain ⟨index, e, hindex, he, hlabel, hvalue⟩ := exists_index hentries.1
    obtain ⟨l, v⟩ := e
    obtain rfl : l = src := hlabel
    have heval : v.eval (runMoves (f'.block l).moves ρ) = v.eval ρ := by
      cases v with
      | const v => rfl
      | reg s =>
        exact hmoves s (hregisters.1.2 l s (PHINode.getIncomingValueForBlock_eq_some hvalue))
    have hsrc : (reference.incoming.map (·.1))[index]? = some l := by
      rw [List.getElem?_map, he]
      rfl
    have henv (s : Nat) (hs : s ∉ [r]) :
        Function.update (runMoves (f'.block l).moves ρ) r (v.eval ρ) s =
          runMoves (f'.block l).moves ρ s :=
      Function.update_of_ne (List.ne_of_not_mem_cons hs) ..
    obtain ⟨ρ', hrun, hassigns, hold⟩ := hclean.runPhis_spec hok
      (List.forall_mem_singleton.mpr hregisters.1.1) hregisters.2 hnodup.2
      (fun phi hphi hmem =>
        hnodup.1 (List.mem_map.mpr ⟨phi, hphi, List.mem_singleton.mp hmem⟩)) hsrc henv
    rw [hblock, hblock']
    refine ⟨ρ', ?_, List.forall_mem_cons.mpr ⟨⟨v, hvalue, ?_⟩, hassigns⟩, fun s hs hnot => ?_⟩
    · rw [transferToBasicBlock, hindex, Option.bind_some, runPhis, List.foldlM_cons,
        PHINode.getIncomingValue, he]
      dsimp only [Option.map_some]
      rw [heval]
      exact hrun
    · rw [hold r hnodup.1, Function.update_self]
    · rw [List.map_cons, List.mem_cons, not_or] at hnot
      rw [hold s hnot.2, Function.update_of_ne hnot.1, hmoves s hs]

end Execution

section Example

/-- Two phi nodes that swap in a loop, and list their blocks in different orders -/
def swap : Function Int where
  size := 2
  registers := 2
  block
    | 1 => ⟨[(0, ⟨[(0, .const 5), (1, .reg 1)]⟩), (1, ⟨[(1, .reg 0), (0, .const 6)]⟩)], []⟩
    | _ => ⟨[], []⟩

theorem block_of_mem_phis {b : Nat} {phi : Nat × PHINode (Operand Int)}
    (h : phi ∈ (swap.block b).phis) : b = 1 := by
  rcases b with _ | _ | b
  · exact absurd h List.not_mem_nil
  · rfl
  · exact absurd h List.not_mem_nil

theorem wellFormed_swap : WellFormed swap where
  moves b := by rcases b with _ | _ | b <;> rfl
  registers b phi hphi := by
    obtain rfl := block_of_mem_phis hphi
    simp only [swap, List.mem_cons, List.not_mem_nil, or_false] at hphi
    rcases hphi with rfl | rfl <;> simp [swap]
  nodup b := by
    rcases b with _ | _ | b
    · exact List.nodup_nil
    · decide
    · exact List.nodup_nil
  entries b phi hphi phi' hphi' l := by
    obtain rfl := block_of_mem_phis hphi
    simp only [swap, List.mem_cons, List.not_mem_nil, or_false] at hphi hphi'
    rcases hphi with rfl | rfl <;> rcases hphi' with rfl | rfl <;>
      simp [PHINode.entries, List.count_cons, Nat.add_comm]
  consistent b phi hphi := by
    obtain rfl := block_of_mem_phis hphi
    simp only [swap, List.mem_cons, List.not_mem_nil, or_false] at hphi
    rcases hphi with rfl | rfl <;> simp [PHINode.Consistent]
  fresh b hb := by
    obtain ⟨b, rfl⟩ := Nat.exists_eq_add_of_le' hb
    rfl

theorem runOnFunction_parallel_swap : ∃ f', runOnFunction swap = some f' ∧
    ∃ ρ', transferToBasicBlock (f'.block 1).phis 1
        (runMoves (f'.block 1).moves fun r => if r = 0 then 7 else 8) = some ρ' ∧
      ρ' 0 = 8 ∧ ρ' 1 = 7 := by
  obtain ⟨f', hf', hparallel⟩ := runOnFunction_parallel wellFormed_swap
  obtain ⟨ρ', hρ', hassigns, -⟩ := hparallel 1 1 (by decide) fun r => if r = 0 then 7 else 8
  obtain ⟨v, hv, hfirst⟩ := hassigns _ List.mem_cons_self
  obtain ⟨v', hv', hsecond⟩ := hassigns _ (List.mem_cons_of_mem _ List.mem_cons_self)
  cases hv
  cases hv'
  exact ⟨f', hf', ρ', hρ', hfirst, hsecond⟩

end Example

end Klee.PhiCleaner
