import Klee.Core.BranchStates
import Klee.Core.IndirectCall
import Klee.Core.Switch
import Klee.Expr.CompareSpec
import Klee.Solver.Range

/-! A `switch` takes every state to the block that it selects. -/
namespace Klee.Executor

open Comparison Hoare

section Order

variable [APIntHash]

theorem compareCaseValues_chained (a b d : ConstantExpr) :
    Chained (compareCaseValues a b) (compareCaseValues b d) (compareCaseValues a d) :=
  Expr.compare_chained _ _ _

instance : Std.TransCmp compareCaseValues where
  eq_swap := Expr.compare_swap _ _
  isLE_trans {a b d} hab hbd := by
    have hchain := compareCaseValues_chained a b d
    cases h : compareCaseValues a b with
    | lt =>
      cases h' : compareCaseValues b d with
      | lt => rw [hchain.lt h h']; rfl
      | eq => rw [hchain.of_eq_right h', h]; rfl
      | gt => rw [h'] at hbd; cases hbd
    | eq => rwa [hchain.of_eq_left h]
    | gt => rw [h] at hab; cases hab

instance : Std.LawfulEqCmp compareCaseValues where
  compare_self := Expr.compare_self _
  eq_of_compare {a b} h := by
    have hreads (c : ConstantExpr) : (Expr.constant c).AllReads (RootIn fun _ => none) := by
      rw [Expr.AllReads]
      trivial
    exact Expr.constant.inj (Expr.eq_of_compare (.constant a) (.constant b) (hreads a) (hreads b) h)

theorem mem_expressionOrder {si : SwitchInst} {p : ConstantExpr × BasicBlock} :
    p ∈ expressionOrder si ↔ si.cases.find? (fun q => decide (q.1 = p.1)) = some p :=
  SortedMap.mem_ofList si.cases

/-- A case block other than that of the default case. -/
theorem findCaseValue_eq_iff {si : SwitchInst} {value : ConstantExpr} {bb : BasicBlock}
    (hbb : bb ≠ si.defaultDest) :
    si.findCaseValue value = bb ↔ (value, bb) ∈ expressionOrder si := by
  rw [mem_expressionOrder, SwitchInst.findCaseValue]
  cases hfind : si.cases.find? fun c => decide (c.1 = value) with
  | none => simp [Ne.symm hbb]
  | some q =>
    have hvalue : decide (q.1 = value) = true :=
      List.find?_some (p := fun c : ConstantExpr × BasicBlock => decide (c.1 = value)) hfind
    have hvalue : q.1 = value := of_decide_eq_true hvalue
    obtain ⟨v, b⟩ := q
    obtain rfl : v = value := hvalue
    simp

theorem findCaseValue_eq_default_iff {si : SwitchInst} {value : ConstantExpr} :
    si.findCaseValue value = si.defaultDest ↔
      ∀ p ∈ expressionOrder si, p.2 ≠ si.defaultDest → p.1 ≠ value := by
  constructor
  · rintro hdefault ⟨v, b⟩ hp hne rfl
    exact hne ((findCaseValue_eq_iff hne).mpr hp ▸ hdefault)
  · intro hall
    by_contra hne
    exact hall _ ((findCaseValue_eq_iff hne).mp rfl) hne rfl

end Order

section Values

variable {σ : Assignment} {l r e : Expr} {v : ConstantExpr}

def valueUnder (e : Expr) (σ : Assignment) : ConstantExpr := ⟨e.width, e.eval σ e.width⟩

theorem isBool_andCreate (hl : l.IsBool) (hr : r.IsBool) : (AndExpr.create l r).IsBool :=
  (AndExpr.create_denotes hl.denotes_none hr.denotes_none).isBool

theorem holds_andCreate (hl : l.IsBool) (hr : r.IsBool) :
    (AndExpr.create l r).Holds σ ↔ l.Holds σ ∧ r.Holds σ := by
  rw [(AndExpr.create_denotes (hl.denotes σ) (hr.denotes σ)).holds_iff]
  exact BitVec.and_eq_one_iff _ _

theorem isBool_orCreate (hl : l.IsBool) (hr : r.IsBool) : (OrExpr.create l r).IsBool :=
  (OrExpr.create_denotes hl.denotes_none hr.denotes_none).isBool

theorem holds_orCreate (hl : l.IsBool) (hr : r.IsBool) :
    (OrExpr.create l r).Holds σ ↔ l.Holds σ ∨ r.Holds σ := by
  rw [(OrExpr.create_denotes (hl.denotes σ) (hr.denotes σ)).holds_iff, Expr.Holds, Expr.Holds]
  generalize l.eval σ 1 = x
  generalize r.eval σ 1 = y
  revert x y
  decide

theorem isBool_alloc (b : Nat) : (Expr.constant (.alloc b 1)).IsBool := ⟨Nat.one_pos, rfl⟩

theorem holds_alloc_one : (Expr.constant (.alloc 1 1)).Holds σ :=
  (Expr.holds_constant_iff (isBool_alloc 1)).mpr rfl

theorem not_holds_alloc_zero : ¬ (Expr.constant (.alloc 0 1)).Holds σ := by
  rw [Expr.holds_constant_iff (isBool_alloc 0)]
  decide

theorem isBool_eqConstant (he : e.WellSorted) (hw : v.width = e.width) :
    (EqExpr.create e (.constant v)).IsBool := (eqValue_spec he hw).1

theorem holds_eqConstant (he : e.WellSorted) (hw : v.width = e.width) :
    (EqExpr.create e (.constant v)).Holds σ ↔ valueUnder e σ = v := by
  rw [(eqValue_spec he hw).2]
  obtain ⟨w, x⟩ := v
  obtain rfl : w = e.width := hw
  simp [valueUnder, BitVec.toNat_inj]

end Values

section Groups

variable {c : BlockContext} {o : ExecutorOptions} {cs : List Expr} {cond : Expr}
variable {si : SwitchInst} {done : List (ConstantExpr × BasicBlock)} {g g' : SwitchGroups}
variable {p : ConstantExpr × BasicBlock} {σ : Assignment} {e : Expr}

theorem isBool_optimizeExpr {b : Bool} (hopt : KeepsValue (c.optimizeExpr · b)) (he : e.IsBool) :
    (c.optimizeExpr e b).IsBool := by
  obtain ⟨hwell, hw, -⟩ := hopt e he.1
  exact ⟨hwell, hw.trans he.2⟩

theorem holds_optimizeExpr {b : Bool} (hopt : KeepsValue (c.optimizeExpr · b)) (he : e.IsBool) :
    (c.optimizeExpr e b).Holds σ ↔ e.Holds σ := by
  have heval := (hopt e he.1).2.2 σ
  rw [he.2] at heval
  rw [Expr.Holds, Expr.Holds, heval]

structure GroupsOf (cs : List Expr) (cond : Expr) (si : SwitchInst)
    (done : List (ConstantExpr × BasicBlock)) (g : SwitchGroups) : Prop where
  isBool : g.defaultValue.IsBool
  default : ∀ σ, g.defaultValue.Holds σ ↔
    ∀ p ∈ done, p.2 ≠ si.defaultDest → p.1 ≠ valueUnder cond σ
  nodup : g.bbOrder.Nodup
  target : ∀ bb, (g.branchTargets bb).isSome = true ↔ bb ∈ g.bbOrder
  feasible : ∀ bb, bb ∈ g.bbOrder ↔ bb ≠ si.defaultDest ∧
    ∃ σ, Satisfies σ cs ∧ (valueUnder cond σ, bb) ∈ done
  condition : ∀ bb, (g.condition bb).IsBool ∧
    ∀ σ, Satisfies σ cs → bb ≠ si.defaultDest →
      ((g.condition bb).Holds σ ↔ (valueUnder cond σ, bb) ∈ done)

theorem groupsOf_initial : GroupsOf cs cond si [] .initial where
  isBool := isBool_alloc 1
  default σ := by simp [SwitchGroups.initial, holds_alloc_one]
  nodup := .nil
  target bb := by simp [SwitchGroups.initial]
  feasible bb := by simp [SwitchGroups.initial]
  condition bb := ⟨isBool_alloc 0, fun σ _ _ => by
    simp [SwitchGroups.initial, SwitchGroups.condition, not_holds_alloc_zero]⟩

/-- A case with the block of the default case. -/
theorem GroupsOf.skip (h : GroupsOf cs cond si done g) (hp : p.2 = si.defaultDest) :
    GroupsOf cs cond si (done ++ [p]) g := by
  have hmem {v : ConstantExpr} {bb : BasicBlock} (hbb : bb ≠ si.defaultDest) :
      (v, bb) ∈ done ++ [p] ↔ (v, bb) ∈ done := by
    rw [List.mem_append, List.mem_singleton]
    refine or_iff_left fun heq => hbb ?_
    rw [← hp, ← heq]
  refine { h with
    default := fun σ => ?_
    feasible := fun bb => ?_
    condition := fun bb => ⟨(h.condition bb).1, fun σ hσ hbb => ?_⟩ }
  · rw [h.default, List.forall_mem_append, List.forall_mem_singleton]
    exact (and_iff_left fun hne => absurd hp hne).symm
  · rw [h.feasible]
    refine and_congr_right fun hbb => exists_congr fun σ => and_congr_right fun _ => ?_
    exact (hmem hbb).symm
  · rw [(h.condition bb).2 σ hσ hbb, hmem hbb]

/-- An expression that says that the switch has the value `v`. -/
structure IsValue (cond : Expr) (v : ConstantExpr) (e : Expr) : Prop where
  isBool : e.IsBool
  holds : ∀ σ, e.Holds σ ↔ valueUnder cond σ = v

def SwitchGroups.exclude (g : SwitchGroups) (e : Expr) : SwitchGroups :=
  { g with defaultValue := AndExpr.create g.defaultValue e.createIsZero }

theorem isBool_exclude (h : GroupsOf cs cond si done g) (he : IsValue cond p.1 e) :
    (g.exclude e).defaultValue.IsBool :=
  isBool_andCreate h.isBool (TimingSolver.isBool_createIsZero he.isBool)

theorem default_exclude (h : GroupsOf cs cond si done g) (hp : p.2 ≠ si.defaultDest)
    (he : IsValue cond p.1 e) (σ : Assignment) : (g.exclude e).defaultValue.Holds σ ↔
      ∀ q ∈ done ++ [p], q.2 ≠ si.defaultDest → q.1 ≠ valueUnder cond σ := by
  have hzero : e.createIsZero.Holds σ ↔ p.1 ≠ valueUnder cond σ := by
    rw [TimingSolver.holds_createIsZero he.isBool, he.holds]
    exact not_congr eq_comm
  rw [List.forall_mem_append, List.forall_mem_singleton, SwitchGroups.exclude,
    holds_andCreate h.isBool (TimingSolver.isBool_createIsZero he.isBool), h.default, hzero]
  exact and_congr_right fun _ => (imp_iff_right hp).symm

theorem mem_concat_iff {bb : BasicBlock} {v : ConstantExpr} :
    (v, bb) ∈ done ++ [p] ↔ (v, bb) ∈ done ∨ v = p.1 ∧ bb = p.2 := by
  obtain ⟨v', b'⟩ := p
  rw [List.mem_append, List.mem_singleton, Prod.mk.injEq]

/-- A case whose value is infeasible. -/
theorem GroupsOf.infeasible (h : GroupsOf cs cond si done g) (hp : p.2 ≠ si.defaultDest)
    (he : IsValue cond p.1 e) (hno : ∀ σ, Satisfies σ cs → valueUnder cond σ ≠ p.1) :
    GroupsOf cs cond si (done ++ [p]) (g.exclude e) := by
  have hmem {bb : BasicBlock} {σ : Assignment} (hσ : Satisfies σ cs) :
      (valueUnder cond σ, bb) ∈ done ++ [p] ↔ (valueUnder cond σ, bb) ∈ done := by
    rw [mem_concat_iff]
    exact or_iff_left fun heq => hno σ hσ heq.1
  refine { h with
    isBool := isBool_exclude h he
    default := default_exclude h hp he
    feasible := fun bb => ?_
    condition := fun bb => ⟨(h.condition bb).1, fun σ hσ hbb => ?_⟩ }
  · rw [SwitchGroups.exclude, h.feasible]
    refine and_congr_right fun _ => exists_congr fun σ => and_congr_right fun hσ => ?_
    exact (hmem hσ).symm
  · rw [hmem hσ]
    exact (h.condition bb).2 σ hσ hbb

@[simp] theorem condition_exclude (bb : BasicBlock) :
    (g.exclude e).condition bb = g.condition bb := rfl

theorem condition_join (bb bb' : BasicBlock) : (g.join bb e).condition bb' =
    if bb' = bb then OrExpr.create e (g.condition bb) else g.condition bb' := by
  unfold SwitchGroups.join SwitchGroups.condition
  by_cases h : bb' = bb
  · simp [h]
  · simp [h]

/-- A case whose value is feasible. -/
theorem GroupsOf.join {e' : Expr} (h : GroupsOf cs cond si done g) (hp : p.2 ≠ si.defaultDest)
    (he : IsValue cond p.1 e) (he' : IsValue cond p.1 e')
    (hyes : ∃ σ, Satisfies σ cs ∧ valueUnder cond σ = p.1) :
    GroupsOf cs cond si (done ++ [p]) ((g.exclude e).join p.2 e') := by
  have horder (bb : BasicBlock) : bb ∈ ((g.exclude e).join p.2 e').bbOrder ↔
      bb ∈ g.bbOrder ∨ bb = p.2 := by
    show bb ∈ (if (g.branchTargets p.2).isSome then g.bbOrder else g.bbOrder ++ [p.2]) ↔ _
    split
    case isTrue hin =>
      refine (or_iff_left_of_imp ?_).symm
      rintro rfl
      exact (h.target p.2).mp hin
    case isFalse => rw [List.mem_append, List.mem_singleton]
  refine ⟨isBool_exclude h he, default_exclude h hp he, ?_, fun bb => ?_, fun bb => ?_,
    fun bb => ?_⟩
  · show (if (g.branchTargets p.2).isSome then g.bbOrder else g.bbOrder ++ [p.2]).Nodup
    split
    case isTrue => exact h.nodup
    case isFalse hnew =>
      rw [h.target] at hnew
      exact List.nodup_append.mpr ⟨h.nodup, List.nodup_singleton _, fun a ha b hb heq =>
        hnew (by rwa [← List.mem_singleton.mp hb, ← heq])⟩
  · rw [horder, ← h.target]
    show (Function.update g.branchTargets p.2 _ bb).isSome = true ↔ _
    by_cases hbb : bb = p.2
    · simp [hbb]
    · simp [hbb]
  · rw [horder, h.feasible]
    simp only [mem_concat_iff]
    constructor
    · rintro (⟨hbb, σ, hσ, hmem⟩ | rfl)
      · exact ⟨hbb, σ, hσ, .inl hmem⟩
      · obtain ⟨σ, hσ, hvalue⟩ := hyes
        exact ⟨hp, σ, hσ, .inr ⟨hvalue, rfl⟩⟩
    · rintro ⟨hbb, σ, hσ, hmem | ⟨-, rfl⟩⟩
      · exact .inl ⟨hbb, σ, hσ, hmem⟩
      · exact .inr rfl
  · rw [condition_join, condition_exclude, condition_exclude]
    have hold := h.condition bb
    by_cases hbb : bb = p.2
    · subst hbb
      rw [if_pos rfl]
      refine ⟨isBool_orCreate he'.isBool hold.1, fun σ hσ _ => ?_⟩
      rw [mem_concat_iff, holds_orCreate he'.isBool hold.1, he'.holds, or_comm]
      exact or_congr (hold.2 σ hσ hp) (and_iff_left rfl).symm
    · rw [if_neg hbb]
      refine ⟨hold.1, fun σ hσ hne => ?_⟩
      rw [mem_concat_iff]
      exact (hold.2 σ hσ hne).trans (or_iff_left fun heq => hbb heq.2).symm

theorem isValue_eq {v : ConstantExpr} (hcond : cond.WellSorted) (hw : v.width = cond.width) :
    IsValue cond v (EqExpr.create cond (.constant v)) :=
  ⟨isBool_eqConstant hcond hw, fun _ => holds_eqConstant hcond hw⟩

theorem IsValue.optimize {v : ConstantExpr} {b : Bool} (h : IsValue cond v e)
    (hopt : KeepsValue (c.optimizeExpr · b)) : IsValue cond v (c.optimizeExpr e b) :=
  ⟨isBool_optimizeExpr hopt h.isBool, fun σ => (holds_optimizeExpr hopt h.isBool).trans (h.holds σ)⟩

/-- What the code around the switch grants: a solver that answers, and an optimizer that keeps the
meaning of expressions. -/
structure Supports (c : BlockContext) (o : ExecutorOptions) (cs : List Expr) : Prop where
  solver : o.solver.Correct
  optimizeExpr : ∀ b, KeepsValue (c.optimizeExpr · b)
  constraints : ∀ e ∈ cs, e.IsBool
  sat : ∃ σ, Satisfies σ cs

theorem GroupsOf.addCase (hsup : Supports c o cs) (hcond : cond.WellSorted)
    (h : GroupsOf cs cond si done g) (hw : p.1.width = cond.width) :
    ∃ g', addCase c o cs cond si g p = some g' ∧ GroupsOf cs cond si (done ++ [p]) g' := by
  unfold Executor.addCase
  by_cases hp : p.2 = si.defaultDest
  · rw [if_pos hp]
    exact ⟨g, rfl, h.skip hp⟩
  · rw [if_neg hp]
    have he := isValue_eq hcond hw
    have he' : IsValue cond p.1 (c.optimizeExpr (EqExpr.create cond (.constant p.1)) false) :=
      he.optimize (hsup.optimizeExpr false)
    obtain ⟨b, hb, hiff⟩ := hsup.solver.mayBeTrue hsup.constraints he'.isBool hsup.sat
    simp only [he'.holds] at hiff
    refine ⟨_, congrArg (Option.map _) hb, ?_⟩
    cases b with
    | true => exact h.join hp he he' (hiff.mp rfl)
    | false =>
      refine h.infeasible hp he fun σ hσ hvalue => ?_
      cases hiff.mpr ⟨σ, hσ, hvalue⟩

theorem GroupsOf.loop (hsup : Supports c o cs) (hcond : cond.WellSorted)
    (rest : List (ConstantExpr × BasicBlock)) (h : GroupsOf cs cond si done g)
    (hw : ∀ p ∈ rest, p.1.width = cond.width) :
    ∃ g', rest.foldlM (Executor.addCase c o cs cond si) g = some g' ∧
      GroupsOf cs cond si (done ++ rest) g' := by
  induction rest generalizing done g with
  | nil => exact ⟨g, rfl, by rwa [List.append_nil]⟩
  | cons p rest ih =>
    obtain ⟨g₁, hg₁, h₁⟩ := h.addCase hsup hcond (hw p List.mem_cons_self)
    obtain ⟨g', hg', h'⟩ := ih h₁ fun q hq => hw q (List.mem_cons_of_mem _ hq)
    refine ⟨g', ?_, by rwa [List.append_assoc] at h'⟩
    rw [List.foldlM_cons, hg₁]
    exact hg'

end Groups

section Partition

variable {c : BlockContext} {o : ExecutorOptions} {cs : List Expr} {cond : Expr}
variable {si : SwitchInst} {g : SwitchGroups} {select : Assignment → BasicBlock}

/-- The conditions of a branch split the inputs by the blocks that are selected: they are
exclusive and exhaustive under the path condition, and the feasible blocks occur once each. -/
structure SwitchPartition (cs : List Expr) (select : Assignment → BasicBlock) (g : SwitchGroups) :
    Prop where
  isBool : ∀ e ∈ g.conditions, e.IsBool
  exclusive : g.conditions.Pairwise fun d e => ∀ σ, Satisfies σ cs → ¬ (d.Holds σ ∧ e.Holds σ)
  exhaustive : ∀ σ, Satisfies σ cs → ∃ e ∈ g.conditions, e.Holds σ
  once : g.bbOrder.Nodup
  feasible : ∀ bb, bb ∈ g.bbOrder ↔ ∃ σ, Satisfies σ cs ∧ select σ = bb
  selects : ∀ bb ∈ g.bbOrder, ∀ σ, Satisfies σ cs → ((g.condition bb).Holds σ ↔ select σ = bb)

/-- It is enough that each condition says that its block is selected. -/
theorem switchPartition_of_selects (hbool : ∀ bb ∈ g.bbOrder, (g.condition bb).IsBool)
    (honce : g.bbOrder.Nodup)
    (hfeasible : ∀ bb, bb ∈ g.bbOrder ↔ ∃ σ, Satisfies σ cs ∧ select σ = bb)
    (hselects : ∀ bb ∈ g.bbOrder, ∀ σ, Satisfies σ cs →
      ((g.condition bb).Holds σ ↔ select σ = bb)) : SwitchPartition cs select g where
  isBool e he := by
    obtain ⟨bb, hbb, rfl⟩ := List.mem_map.mp he
    exact hbool bb hbb
  exclusive := by
    refine List.pairwise_map.mpr (honce.imp_of_mem fun {a b} ha hb hne σ hσ hboth => hne ?_)
    rw [← (hselects a ha σ hσ).mp hboth.1, ← (hselects b hb σ hσ).mp hboth.2]
  exhaustive σ hσ := by
    have hmem := (hfeasible (select σ)).mpr ⟨σ, hσ, rfl⟩
    exact ⟨_, List.mem_map_of_mem hmem, (hselects _ hmem σ hσ).mpr rfl⟩
  once := honce
  feasible := hfeasible
  selects := hselects

variable [APIntHash]

def selected (si : SwitchInst) (cond : Expr) (σ : Assignment) : BasicBlock :=
  si.findCaseValue (valueUnder cond σ)

theorem GroupsOf.selects (h : GroupsOf cs cond si (expressionOrder si) g) {bb : BasicBlock}
    (hbb : bb ≠ si.defaultDest) {σ : Assignment} (hσ : Satisfies σ cs) :
    (g.condition bb).Holds σ ↔ selected si cond σ = bb := by
  rw [(h.condition bb).2 σ hσ hbb, selected, findCaseValue_eq_iff hbb]

theorem GroupsOf.feasible_selected (h : GroupsOf cs cond si (expressionOrder si) g)
    (bb : BasicBlock) : bb ∈ g.bbOrder ↔
      bb ≠ si.defaultDest ∧ ∃ σ, Satisfies σ cs ∧ selected si cond σ = bb := by
  rw [h.feasible]
  refine and_congr_right fun hbb => ?_
  simp only [selected, findCaseValue_eq_iff hbb]

/-- The default case completes the partition. -/
theorem GroupsOf.addDefault (hsup : Supports c o cs)
    (h : GroupsOf cs cond si (expressionOrder si) g) :
    ∃ g', addDefault c o cs si g = some g' ∧ SwitchPartition cs (selected si cond) g' := by
  have hbool : (c.optimizeExpr g.defaultValue false).IsBool :=
    isBool_optimizeExpr (hsup.optimizeExpr false) h.isBool
  have hholds (σ : Assignment) : (c.optimizeExpr g.defaultValue false).Holds σ ↔
      selected si cond σ = si.defaultDest := by
    rw [holds_optimizeExpr (hsup.optimizeExpr false) h.isBool, h.default, selected,
      findCaseValue_eq_default_iff]
  obtain ⟨b, hb, hiff⟩ := hsup.solver.mayBeTrue hsup.constraints hbool hsup.sat
  simp only [hholds] at hiff
  have hnew : si.defaultDest ∉ g.bbOrder := fun hmem => ((h.feasible_selected _).mp hmem).1 rfl
  have hnone : g.branchTargets si.defaultDest = none := by
    rw [← Option.isNone_iff_eq_none, ← Option.isSome_eq_false_iff, ← Bool.not_eq_true, h.target]
    exact hnew
  unfold Executor.addDefault
  refine ⟨_, congrArg (Option.map _) hb, ?_⟩
  cases b with
  | false =>
    have hno (σ : Assignment) (hσ : Satisfies σ cs) : selected si cond σ ≠ si.defaultDest := by
      intro heq
      cases hiff.mpr ⟨σ, hσ, heq⟩
    show SwitchPartition cs _ g
    refine switchPartition_of_selects (fun bb _ => (h.condition bb).1) h.nodup (fun bb => ?_)
      fun bb hbb σ hσ => h.selects ((h.feasible_selected bb).mp hbb).1 hσ
    rw [h.feasible_selected]
    refine and_iff_right_of_imp ?_
    rintro ⟨σ, hσ, rfl⟩
    exact hno σ hσ
  | true =>
    dsimp only
    rw [if_pos rfl, hnone]
    have hother {bb : BasicBlock} (hbb : bb ≠ si.defaultDest) :
        ((Function.update g.branchTargets si.defaultDest
          (some (c.optimizeExpr g.defaultValue false))) bb).getD (.constant (.alloc 0 1)) =
          g.condition bb := by
      rw [Function.update_of_ne hbb]
      rfl
    have hself : ((Function.update g.branchTargets si.defaultDest
        (some (c.optimizeExpr g.defaultValue false))) si.defaultDest).getD
          (.constant (.alloc 0 1)) = c.optimizeExpr g.defaultValue false := by
      rw [Function.update_self]
      rfl
    refine switchPartition_of_selects (fun bb _ => ?_) ?_ (fun bb => ?_) fun bb _ σ hσ => ?_
    · show (((Function.update g.branchTargets si.defaultDest
        (some (c.optimizeExpr g.defaultValue false))) bb).getD (.constant (.alloc 0 1))).IsBool
      by_cases hbb : bb = si.defaultDest
      · rwa [hbb, hself]
      · rw [hother hbb]
        exact (h.condition bb).1
    · exact List.nodup_append.mpr ⟨h.nodup, List.nodup_singleton _, fun a ha b hb heq =>
        hnew (by rwa [← List.mem_singleton.mp hb, ← heq])⟩
    · rw [List.mem_append, List.mem_singleton, h.feasible_selected]
      by_cases hbb : bb = si.defaultDest
      · subst hbb
        simpa using hiff.mp rfl
      · simp [hbb]
    · show (((Function.update g.branchTargets si.defaultDest
        (some (c.optimizeExpr g.defaultValue false))) bb).getD (.constant (.alloc 0 1))).Holds σ ↔ _
      by_cases hbb : bb = si.defaultDest
      · rw [hbb, hself, hholds]
      · rw [hother hbb, h.selects hbb hσ]

theorem switchGroups_partition (hsup : Supports c o cs) (hcond : cond.WellSorted)
    (hcases : ∀ p ∈ si.cases, p.1.width = cond.width) :
    ∃ g, switchGroups c o cs cond si = some g ∧ SwitchPartition cs (selected si cond) g := by
  have hw : ∀ p ∈ expressionOrder si, p.1.width = cond.width := fun p hp =>
    hcases p (List.mem_of_find?_eq_some (mem_expressionOrder.mp hp))
  obtain ⟨g, hg, hgroups⟩ := groupsOf_initial.loop hsup hcond (expressionOrder si) hw
  obtain ⟨g', hg', hpart⟩ := hgroups.addDefault hsup
  refine ⟨g', ?_, hpart⟩
  rw [switchGroups, hg]
  exact hg'

end Partition

section Unique

variable {c : BlockContext} {o : ExecutorOptions} {cs : List Expr} {e : Expr}

/-- `toUnique` returns the expression, or the only value that it can have. -/
theorem toUnique_spec (hsup : Supports c o cs) (he : e.WellSorted) :
    (toUnique c o cs e = e ∧ e.isConstant = false) ∨
      ∃ ce, toUnique c o cs e = .constant ce ∧ ∀ σ, Satisfies σ cs → valueUnder e σ = ce := by
  unfold toUnique
  split
  · rename_i ce
    refine .inr ⟨ce, rfl, fun σ _ => ?_⟩
    simp [valueUnder, Expr.eval, Expr.width]
  · rename_i hconstant
    have hsymbolic : e.isConstant = false := e.isConstant_eq_false_iff.mpr hconstant
    obtain ⟨hwell, hwidth, heval⟩ := hsup.optimizeExpr true e he
    have hvalue (σ : Assignment) : valueUnder (c.optimizeExpr e true) σ = valueUnder e σ := by
      rw [valueUnder, hwidth, heval]
      rfl
    dsimp only
    cases hget : o.solver.getValue cs (c.optimizeExpr e true) with
    | none => exact .inl ⟨rfl, hsymbolic⟩
    | some value =>
      obtain ⟨value', hvalue', hw, -⟩ := hsup.solver.getValue hsup.constraints hwell hsup.sat
      obtain rfl : value = value' := Option.some.inj (hget.symm.trans hvalue')
      have hisValue := (isValue_eq hwell hw).optimize (hsup.optimizeExpr false)
      obtain ⟨b, hb, hiff⟩ := hsup.solver.mustBeTrue hsup.constraints hisValue.isBool hsup.sat
      dsimp only
      split
      · rename_i hmust
        refine .inr ⟨value, rfl, fun σ hσ => ?_⟩
        rw [← hvalue, ← hisValue.holds]
        exact hiff.mp (Option.some.inj (hb.symm.trans hmust)) σ hσ
      · exact .inl ⟨rfl, hsymbolic⟩

end Unique

section Transfer

variable {c : BlockContext} {o : ExecutorOptions} {ex ex' : Executor IncomingBBIndex}
variable {state : StateId} {s s' : ExecutionState IncomingBBIndex} {E : ExecutorFault → Prop}

/-- The states of `l` go on at their blocks, all others are as they were. -/
structure Transferred (c : BlockContext) (l : List (BasicBlock × Option StateId))
    (ex ex' : Executor IncomingBBIndex) : Prop where
  executor : ex' = { ex with heap := ex'.heap }
  moved : ∀ bb st s, (bb, some st) ∈ l → ex.heap st = some s →
    ex'.heap st = some (atBlock c bb s)
  others : ∀ st, (∀ bb, (bb, some st) ∉ l) → ex'.heap st = ex.heap st

theorem wp_transferPairs {Q : Unit → Executor IncomingBBIndex → Prop}
    (l : List (BasicBlock × Option StateId))
    (honce : l.Pairwise fun p q => ∀ st, p.2 = some st → q.2 ≠ some st)
    (hlive : ∀ bb st, (bb, some st) ∈ l → ∃ s, ex.heap st = some s)
    (hQ : ∀ ex', Transferred c l ex ex' → Q () ex') :
    wp (l.forM fun (bb, es) =>
      match es with
      | some es => transferToBasicBlock c bb es
      | none => pure ()) Q E ex := by
  induction l generalizing ex Q with
  | nil => exact hQ ex ⟨rfl, fun _ _ _ h => (List.not_mem_nil h).elim, fun _ _ => rfl⟩
  | cons p rest ih =>
    obtain ⟨bb, es⟩ := p
    obtain ⟨hfirst, hrest⟩ := List.pairwise_cons.mp honce
    refine wp_bind.mpr ?_
    cases es with
    | none =>
      refine ih hrest (fun b st hmem => hlive b st (List.mem_cons_of_mem _ hmem)) fun ex' h => ?_
      refine hQ ex' ⟨h.executor, fun b st x hmem hx => ?_, fun st hst => ?_⟩
      · refine h.moved b st x ?_ hx
        simpa using hmem
      · exact h.others st fun b hmem => hst b (List.mem_cons_of_mem _ hmem)
    | some st =>
      obtain ⟨x, hx⟩ := hlive bb st List.mem_cons_self
      have hnew {b : BasicBlock} {y : StateId} (hmem : (b, some y) ∈ rest) : y ≠ st := by
        rintro rfl
        exact hfirst _ hmem y rfl rfl
      have hother {y : StateId} (hy : y ≠ st) :
          Function.update ex.heap st (some (atBlock c bb x)) y = ex.heap y :=
        Function.update_of_ne hy _ _
      refine (wp_modifyState hx).mpr ?_
      refine ih hrest (fun b y hmem => ?_) fun ex' h => ?_
      · obtain ⟨z, hz⟩ := hlive b y (List.mem_cons_of_mem _ hmem)
        exact ⟨z, (hother (hnew hmem)).trans hz⟩
      · refine hQ ex' ⟨by rw [h.executor], fun b y z hmem hz => ?_, fun y hy => ?_⟩
        · cases List.mem_cons.mp hmem with
          | inl heq =>
            obtain ⟨rfl, hyst⟩ := Prod.mk.inj heq
            obtain rfl := Option.some.inj hyst
            obtain rfl : x = z := Option.some.inj (hx.symm.trans hz)
            rw [h.others y fun b' hmem' => hnew hmem' rfl]
            exact Function.update_self _ _ _
          | inr hmem => exact h.moved b y z hmem ((hother (hnew hmem)).trans hz)
        · rw [h.others y fun b hmem => hy b (List.mem_cons_of_mem _ hmem)]
          refine hother ?_
          rintro rfl
          exact hy bb List.mem_cons_self

theorem Once.pairwise_zip {result : List (Option StateId)} (h : Once result)
    (targets : List BasicBlock) :
    (targets.zip result).Pairwise fun p q => ∀ st, p.2 = some st → q.2 ≠ some st := by
  induction result generalizing targets with
  | nil =>
    rw [List.zip_nil_right]
    exact .nil
  | cons p rest ih =>
    cases targets with
    | nil => exact .nil
    | cons bb targets =>
      refine List.pairwise_cons.mpr ⟨?_, ih h.tail targets⟩
      rintro ⟨b, q⟩ hq st hp rfl
      rw [show p = some st from hp] at h
      exact h.head (List.of_mem_zip hq).2

structure AtDestination (c : BlockContext) (s : ExecutionState IncomingBBIndex)
    (select : Assignment → BasicBlock) (bb : BasicBlock) (s' : ExecutionState IncomingBBIndex) :
    Prop where
  pc : s'.pc = c.basicBlockEntry bb
  memory : s'.memory = (c.basicBlockIndex bb).getD s.memory
  inputs : ∀ σ, Satisfies σ s'.constraints → Satisfies σ s.constraints ∧ select σ = bb

/-- A place of a branch after the transfer. -/
theorem Placed.moved {conditions : List Expr} {result : List (Option StateId)}
    {killed : List (Explored IncomingBBIndex)} {l : List (BasicBlock × Option StateId)}
    {ex₁ ex'' : Executor IncomingBBIndex}
    (h : Placed o ex state s conditions (placeSide conditions) result killed ex')
    (hmoved : Transferred c l ex₁ ex'') {k : Nat} {st : StateId} {bb : BasicBlock} {e : Expr}
    (hk : result[k]? = some (some st)) (hl : (bb, some st) ∈ l) (he : conditions[k]? = some e)
    (hheap : ex₁.heap st = ex'.heap st) :
    ∃ s', ex''.heap st = some s' ∧ s'.pc = c.basicBlockEntry bb ∧
      s'.memory = (c.basicBlockIndex bb).getD s.memory ∧
      ∀ σ, Satisfies σ s'.constraints ↔ Satisfies σ s.constraints ∧ e.Holds σ := by
  obtain ⟨-, x, hx, htakes⟩ := h.live k st hk
  refine ⟨_, hmoved.moved bb st x hl (hheap.trans hx), rfl, ?_, fun σ => ?_⟩
  · show (c.basicBlockIndex bb).getD x.memory = _
    rw [htakes.memory]
  · show Satisfies σ x.constraints ↔ _
    rw [htakes.constraints, placeSide, he]
    simp

variable [APIntHash] {cond : Expr} {si : SwitchInst}

structure SwitchRight (c : BlockContext) (o : ExecutorOptions) (select : Assignment → BasicBlock)
    (ex : Executor IncomingBBIndex) (state : StateId) (s : ExecutionState IncomingBBIndex)
    (ex' : Executor IncomingBBIndex) : Prop where
  transferred : ∀ st s', Live ex state ex' st s' → ∃ bb, AtDestination c s select bb s'
  covers : ¬ Limited o ex → (o.onlyReplaySeeds = true → ex.seedMap state = none) →
    ∀ σ, Satisfies σ s.constraints → ∃ st s', Live ex state ex' st s' ∧ Satisfies σ s'.constraints

omit [APIntHash] in
/-- The branch and the transfer of its states. -/
theorem switchRight_of_placed {g : SwitchGroups} {select : Assignment → BasicBlock}
    {result : List (Option StateId)} {killed : List (Explored IncomingBBIndex)}
    {ex'' : Executor IncomingBBIndex} (hpart : SwitchPartition s.constraints select g)
    (h : Placed o ex state s g.conditions (placeSide g.conditions) result killed ex')
    (hmoved : Transferred c (g.bbOrder.zip result) ex' ex'') :
    SwitchRight c o select ex state s ex'' := by
  have hlen : g.bbOrder.length = g.conditions.length := (List.length_map _).symm
  have hnext : ex''.nextState = ex'.nextState := by rw [hmoved.executor]
  have hexplored : terminatedIn ex ex'' = killed := by
    rw [terminatedIn, hmoved.executor]
    show ex'.explored.drop _ = _
    rw [h.explored, List.drop_left]
  have hfamily {st : StateId} : InFamily ex state ex'' st ↔
      st ∈ family ex state (newStates o ex g.conditions.length) := by
    rw [← h.inFamily, InFamily, hnext]
    rfl
  -- a place, its state and its block
  have hplace {k : Nat} {st : StateId} (hk : result[k]? = some (some st)) :
      ∃ bb s', bb ∈ g.bbOrder ∧ g.bbOrder[k]? = some bb ∧ ex''.heap st = some s' ∧
        s'.pc = c.basicBlockEntry bb ∧ s'.memory = (c.basicBlockIndex bb).getD s.memory ∧
        ∀ σ, Satisfies σ s'.constraints ↔ Satisfies σ s.constraints ∧ (g.condition bb).Holds σ := by
    have hlt : k < g.bbOrder.length := by
      rw [hlen, ← h.length]
      exact (List.getElem?_eq_some_iff.mp hk).1
    have hbb : g.bbOrder[k]? = some g.bbOrder[k] := List.getElem?_eq_getElem hlt
    have he : g.conditions[k]? = some (g.condition g.bbOrder[k]) := by
      rw [SwitchGroups.conditions, List.getElem?_map, hbb]
      rfl
    have hzip : (g.bbOrder[k], some st) ∈ g.bbOrder.zip result :=
      List.mem_of_getElem? (List.getElem?_zip_eq_some.mpr ⟨hbb, hk⟩)
    obtain ⟨s', hs', hrest⟩ := h.moved hmoved hk hzip he rfl
    exact ⟨g.bbOrder[k], s', List.getElem_mem hlt, hbb, hs', hrest⟩
  constructor
  · intro st s' hlive
    have hmem : some st ∈ result := by
      have hnot := hlive.notTerminated
      rw [hexplored, h.killed, not_and, not_not] at hnot
      exact hnot (hfamily.mp hlive.family)
    obtain ⟨k, hk⟩ := List.mem_iff_getElem?.mp hmem
    obtain ⟨bb, x, hbb, -, hx, hpc, hmemory, hcs⟩ := hplace hk
    obtain rfl : s' = x := Option.some.inj (hlive.heap.symm.trans hx)
    refine ⟨bb, hpc, hmemory, fun σ hσ => ?_⟩
    obtain ⟨hσs, hholds⟩ := (hcs σ).mp hσ
    exact ⟨hσs, (hpart.selects bb hbb σ hσs).mp hholds⟩
  · intro hlimit hseeds σ hσ
    obtain ⟨k, hk⟩ := List.mem_iff_getElem?.mp ((hpart.feasible (select σ)).mpr ⟨σ, hσ, rfl⟩)
    have hlt : k < g.conditions.length := hlen ▸ (List.getElem?_eq_some_iff.mp hk).1
    obtain ⟨st, hst⟩ := h.taken hlimit hseeds hlt
    obtain ⟨bb, s', hbb, hkbb, hs', -, -, hcs⟩ := hplace hst
    obtain rfl : select σ = bb := Option.some.inj (hk.symm.trans hkbb)
    have hin : some st ∈ result := List.mem_of_getElem? hst
    refine ⟨st, s', ⟨hfamily.mpr (h.members st hin), ?_, hs'⟩,
      (hcs σ).mpr ⟨hσ, (hpart.selects _ hbb σ hσ).mpr rfl⟩⟩
    rw [hexplored, h.killed]
    exact fun hkilled => hkilled.2 hin

omit [APIntHash] in
/-- After a transfer of the parent alone it is the only state that goes on. -/
theorem live_atBlock {bb : BasicBlock} {st : StateId} :
    Live ex state { ex with heap := Function.update ex.heap state (some (atBlock c bb s)) } st s' ↔
      st = state ∧ s' = atBlock c bb s := by
  constructor
  · intro hlive
    obtain rfl : st = state := by
      refine hlive.family.resolve_right ?_
      rintro ⟨hle, hlt⟩
      exact absurd hlt (Nat.not_lt.mpr hle)
    have hheap : Function.update ex.heap st (some (atBlock c bb s)) st = some s' := hlive.heap
    rw [Function.update_self] at hheap
    exact ⟨rfl, (Option.some.inj hheap).symm⟩
  · rintro ⟨rfl, rfl⟩
    refine ⟨.inl rfl, ?_, Function.update_self ..⟩
    rw [terminatedIn, List.drop_length]
    exact List.not_mem_nil

omit [APIntHash] in
/-- The transfer of the parent alone. -/
theorem switchRight_transfer {select : Assignment → BasicBlock} {bb : BasicBlock}
    (hs : ex.heap state = some s) (hselect : ∀ σ, Satisfies σ s.constraints → select σ = bb) :
    wp (transferToBasicBlock c bb state) (fun _ ex' => SwitchRight c o select ex state s ex') E ex := by
  refine (wp_modifyState hs).mpr ⟨fun st s' hlive => ?_, fun _ _ σ hσ => ?_⟩
  · obtain ⟨rfl, rfl⟩ := live_atBlock.mp hlive
    exact ⟨bb, rfl, rfl, fun σ hσ => ⟨hσ, hselect σ hσ⟩⟩
  · exact ⟨state, atBlock c bb s, live_atBlock.mpr ⟨rfl, rfl⟩, hσ⟩

omit [APIntHash] in
theorem SwitchPartition.conditions_ne_nil {cs : List Expr} {g : SwitchGroups}
    {select : Assignment → BasicBlock} (h : SwitchPartition cs select g)
    (hsat : ∃ σ, Satisfies σ cs) : g.conditions ≠ [] := by
  obtain ⟨σ, hσ⟩ := hsat
  obtain ⟨e, he, -⟩ := h.exhaustive σ hσ
  exact List.ne_nil_of_mem he

theorem wp_executeSwitch (hwf : ex.WellFormed) (hs : ex.heap state = some s)
    (hnode : state ∈ ex.processTree.leaves) (hsup : Supports c o s.constraints)
    (hcond : cond.WellSorted) (hcases : ∀ p ∈ si.cases, p.1.width = cond.width) :
    wp (executeSwitch c o cond si state)
      (fun _ ex' => SwitchRight c o (selected si cond) ex state s ex')
      (fun f => f ≠ .noState ∧ ¬ ex.seedMap state = none) ex := by
  unfold executeSwitch
  rw [wp_bind]
  refine (wp_readState hs).mpr ?_
  obtain ⟨heq, hsymbolic⟩ | ⟨ce, heq, hvalue⟩ := toUnique_spec hsup hcond
  · obtain ⟨g, hg, hpart⟩ := switchGroups_partition hsup hcond hcases
    rw [heq]
    split
    · cases hsymbolic
    · rw [wp_bind, hg, wp_orThrow_some, wp_bind]
      have hans : Answerable o s.constraints g.conditions :=
        ⟨hsup.solver, hsup.constraints, hpart.isBool, hsup.sat⟩
      refine wp_branch hwf hs hnode hans (hpart.conditions_ne_nil hsup.sat)
        (fun hseeds => ⟨hseeds, fun e he => ?_⟩) fun result killed ex' hplaced => ?_
      · obtain ⟨bb, hbb, rfl⟩ := List.mem_map.mp he
        obtain ⟨σ, hσ, hselect⟩ := (hpart.feasible bb).mp hbb
        exact ⟨σ, hσ, (hpart.selects bb hbb σ hσ).mpr hselect⟩
      · refine wp_transferPairs _ (hplaced.once.pairwise_zip _) (fun bb st hmem => ?_)
          fun ex'' hmoved => switchRight_of_placed hpart hplaced hmoved
        obtain ⟨k, hk⟩ := List.mem_iff_getElem?.mp (List.of_mem_zip hmem).2
        obtain ⟨-, x, hx, -⟩ := hplaced.live k st hk
        exact ⟨x, hx⟩
  · rw [heq]
    exact switchRight_transfer hs fun σ hσ => by rw [selected, hvalue σ hσ]

end Transfer

section Example

local instance exampleHash : APIntHash := ⟨fun c => c.value.setWidth 32⟩

def exampleSwitch : SwitchInst where
  cases := [(⟨8, 0⟩, 16), (⟨8, 1⟩, 32), (⟨8, 2⟩, 16)]
  defaultDest := 48

def exampleBlocks : BlockContext := ⟨fun bb => bb.toNat, fun _ => none, fun e _ => e⟩

def blockState : ExecutionState IncomingBBIndex := { emptyState with memory := 0 }

theorem supports_blockState : Supports exampleBlocks plainOptions blockState.constraints where
  solver := TimingSolver.correct_ideal
  optimizeExpr _ := keepsValue_id
  constraints := by simp [blockState, emptyState]
  sat := ⟨fun _ _ => 0, satisfies_nil _⟩

end Example

end Klee.Executor
