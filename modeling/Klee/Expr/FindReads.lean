import Klee.Expr.Truth
import Klee.Expr.Visitor

/-! `findReads`: the reads that an expression contains, also inside its updates. -/
namespace Klee

/-- A read, as `findReads` collects it. -/
structure ReadExpr where
  updates : UpdateList
  index : Expr
deriving DecidableEq

def UpdateNode.exprs : UpdateNode → List Expr
  | null => []
  | node next index value => index :: value :: next.exprs

section Algorithm

/-- Push an expression that is not a constant and was not visited before. The pair holds the
stack and the visited expressions. -/
def visitExpr (s : List Expr × List Expr) (e : Expr) : List Expr × List Expr :=
  if e.isConstant || decide (e ∈ s.2) then s else (e :: s.1, e :: s.2)

/-- The expressions that are looked at when `e` is popped. -/
def nextExprs (visitUpdates : Bool) (updates : List UpdateNode) : Expr → List Expr
  | .read _ head index =>
      if visitUpdates && !decide (head ∈ updates) then index :: head.exprs else [index]
  | e => e.kids

def nextUpdates (visitUpdates : Bool) (updates : List UpdateNode) : Expr → List UpdateNode
  | .read _ head _ =>
      if visitUpdates && !decide (head ∈ updates) then head :: updates else updates
  | _ => updates

/-- The read that is recorded when `e` is popped. -/
def asRead : Expr → Option ReadExpr
  | .read root head index => some ⟨⟨root, head⟩, index⟩
  | _ => none

noncomputable def stackSize (stack : List Expr) : Nat := (stack.map sizeOf).sum

theorem stackSize_cons (e : Expr) (stack : List Expr) :
    stackSize (e :: stack) = sizeOf e + stackSize stack := by
  simp [stackSize]

theorem stackSize_visitExpr (s : List Expr × List Expr) (es : List Expr) :
    stackSize (es.foldl visitExpr s).1 ≤ stackSize s.1 + stackSize es := by
  induction es generalizing s with
  | nil => exact Nat.le_add_right _ _
  | cons e es ih =>
    have hstep : stackSize (visitExpr s e).1 ≤ stackSize s.1 + sizeOf e := by
      unfold visitExpr
      split
      · exact Nat.le_add_right _ _
      · rw [stackSize_cons]
        omega
    have hrest := ih (visitExpr s e)
    rw [List.foldl_cons, stackSize_cons]
    omega

theorem stackSize_exprs (un : UpdateNode) : stackSize un.exprs ≤ sizeOf un := by
  induction un with
  | null => exact Nat.zero_le _
  | node next index value ih =>
    rw [UpdateNode.exprs, stackSize_cons, stackSize_cons]
    simp only [UpdateNode.node.sizeOf_spec]
    omega

theorem stackSize_nextExprs (visitUpdates : Bool) (updates : List UpdateNode) (e : Expr) :
    stackSize (nextExprs visitUpdates updates e) < sizeOf e := by
  cases e with
  | read root head index =>
    have hexprs := stackSize_exprs head
    have hsize : stackSize (index :: head.exprs) < sizeOf (Expr.read root head index) := by
      rw [stackSize_cons, Expr.read.sizeOf_spec]
      omega
    rw [nextExprs]
    split
    · exact hsize
    · refine Nat.lt_of_le_of_lt ?_ hsize
      rw [stackSize_cons, stackSize_cons]
      exact Nat.add_le_add_left (Nat.zero_le _) _
  | _ =>
    simp only [nextExprs, Expr.kids, stackSize, List.map_cons, List.map_nil, List.sum_cons,
      List.sum_nil, Expr.constant.sizeOf_spec, Expr.notOptimized.sizeOf_spec,
      Expr.select.sizeOf_spec, Expr.concat.sizeOf_spec, Expr.extract.sizeOf_spec,
      Expr.cast.sizeOf_spec, Expr.not.sizeOf_spec, Expr.arith.sizeOf_spec, Expr.cmp.sizeOf_spec]
    omega

/-- The loop of `findReads`; the top of the stack is the head of the list. -/
def findReadsLoop (visitUpdates : Bool) (stack visited : List Expr) (updates : List UpdateNode)
    (results : List ReadExpr) : List ReadExpr :=
  match stack with
  | [] => results
  | top :: stack =>
    let s := (nextExprs visitUpdates updates top).foldl visitExpr (stack, visited)
    findReadsLoop visitUpdates s.1 s.2 (nextUpdates visitUpdates updates top)
      (results ++ (asRead top).toList)
termination_by stackSize stack
decreasing_by
  have hvisit := stackSize_visitExpr (stack, visited) (nextExprs visitUpdates updates top)
  have hnext := stackSize_nextExprs visitUpdates updates top
  rw [stackSize_cons]
  simp only at hvisit
  omega

def findReads (e : Expr) (visitUpdates : Bool) : List ReadExpr :=
  if e.isConstant then [] else findReadsLoop visitUpdates [e] [e] [] []

end Algorithm

section AllReads

mutual

/-- Every read inside `e`, also in updates, meets `P`. -/
def Expr.AllReads (P : ReadExpr → Prop) : Expr → Prop
  | .constant _ => True
  | .notOptimized e => e.AllReads P
  | .read root head index => P ⟨⟨root, head⟩, index⟩ ∧ head.AllReads P ∧ index.AllReads P
  | .select c t f => c.AllReads P ∧ t.AllReads P ∧ f.AllReads P
  | .concat l r => l.AllReads P ∧ r.AllReads P
  | .extract e _ _ => e.AllReads P
  | .cast _ e _ => e.AllReads P
  | .not e => e.AllReads P
  | .arith _ l r => l.AllReads P ∧ r.AllReads P
  | .cmp _ l r => l.AllReads P ∧ r.AllReads P

def UpdateNode.AllReads (P : ReadExpr → Prop) : UpdateNode → Prop
  | .null => True
  | .node next index value => next.AllReads P ∧ index.AllReads P ∧ value.AllReads P

end

variable {P : ReadExpr → Prop}

theorem UpdateNode.allReads_iff (un : UpdateNode) :
    un.AllReads P ↔ ∀ e ∈ un.exprs, e.AllReads P := by
  induction un with
  | null => simp [UpdateNode.AllReads, UpdateNode.exprs]
  | node next index value ih =>
    simp only [UpdateNode.AllReads, UpdateNode.exprs, List.forall_mem_cons, ih]
    tauto

/-- What is looked at below an expression: its kids, and the updates of a read. -/
def Expr.operands : Expr → List Expr
  | .read _ head index => index :: head.exprs
  | e => e.kids

/-- A read holds `P`, and what is below is fine. -/
theorem Expr.allReads_iff (e : Expr) :
    e.AllReads P ↔ (∀ r, asRead e = some r → P r) ∧ ∀ k ∈ e.operands, k.AllReads P := by
  cases e with
  | read root head index =>
    simp only [Expr.AllReads, Expr.operands, asRead, List.forall_mem_cons, head.allReads_iff]
    constructor
    · rintro ⟨hP, hhead, hindex⟩
      exact ⟨fun r hr => Option.some.inj hr ▸ hP, hindex, hhead⟩
    · rintro ⟨hP, hindex, hhead⟩
      exact ⟨hP _ rfl, hhead, hindex⟩
  | _ => simp [Expr.AllReads, Expr.operands, Expr.kids, asRead]

theorem sizeOf_lt_of_mem_stack {e : Expr} {es : List Expr} (h : e ∈ es) :
    sizeOf e ≤ stackSize es := by
  induction es with
  | nil => cases h
  | cons x es ih =>
    rw [stackSize_cons]
    rcases List.mem_cons.mp h with rfl | h
    · exact Nat.le_add_right _ _
    · exact (ih h).trans (Nat.le_add_left _ _)

theorem sizeOf_operands_lt {e k : Expr} (h : k ∈ e.operands) : sizeOf k < sizeOf e := by
  have hsize := stackSize_nextExprs true [] e
  have hmem : k ∈ nextExprs true [] e := by
    cases e <;> exact h
  exact (sizeOf_lt_of_mem_stack hmem).trans_lt hsize

theorem Expr.AllReads.mono {Q : ReadExpr → Prop} {e : Expr} (h : e.AllReads P)
    (hPQ : ∀ r, P r → Q r) : e.AllReads Q := by
  induction hn : sizeOf e using Nat.strong_induction_on generalizing e with
  | _ n ih =>
    subst hn
    rw [e.allReads_iff] at h ⊢
    exact ⟨fun r hr => hPQ r (h.1 r hr), fun k hk => ih _ (sizeOf_operands_lt hk) (h.2 k hk) rfl⟩

/-- A set of expressions is closed if what is below its members is constant or in the set,
and their reads are recorded. -/
structure Closed (visited : List Expr) (results : List ReadExpr) (e : Expr) : Prop where
  read : ∀ r, asRead e = some r → r ∈ results
  operands : ∀ k ∈ e.operands, k.isConstant = true ∨ k ∈ visited

theorem allReads_of_closed {visited : List Expr} {results : List ReadExpr}
    (h : ∀ e ∈ visited, Closed visited results e) (e : Expr)
    (he : e.isConstant = true ∨ e ∈ visited) : e.AllReads (· ∈ results) := by
  induction hn : sizeOf e using Nat.strong_induction_on generalizing e with
  | _ n ih =>
    subst hn
    rcases he with he | he
    · obtain ⟨c, rfl⟩ := (Expr.isConstant_iff e).mp he
      trivial
    · rw [e.allReads_iff]
      exact ⟨(h e he).read, fun k hk => ih _ (sizeOf_operands_lt hk) k ((h e he).operands k hk) rfl⟩

end AllReads

section Complete

variable {stack visited : List Expr} {updates : List UpdateNode} {results : List ReadExpr}

theorem visitExpr_spec (s : List Expr × List Expr) (e : Expr) :
    (∀ x ∈ s.1, x ∈ (visitExpr s e).1) ∧ (∀ x ∈ s.2, x ∈ (visitExpr s e).2) ∧
    (∀ x ∈ (visitExpr s e).2, x ∈ s.2 ∨ x ∈ (visitExpr s e).1) ∧
    (e.isConstant = true ∨ e ∈ (visitExpr s e).2) := by
  unfold visitExpr
  split
  case isTrue h =>
    simp only [Bool.or_eq_true, decide_eq_true_eq] at h
    exact ⟨fun _ hx => hx, fun _ hx => hx, fun _ hx => .inl hx, h⟩
  case isFalse =>
    refine ⟨fun _ hx => List.mem_cons_of_mem _ hx, fun _ hx => List.mem_cons_of_mem _ hx,
      fun x hx => ?_, .inr List.mem_cons_self⟩
    rcases List.mem_cons.mp hx with rfl | hx
    · exact .inr List.mem_cons_self
    · exact .inl hx

/-- Nothing is lost while expressions are pushed, and each of them is visited in the end. -/
theorem foldl_visitExpr_spec (es : List Expr) (s : List Expr × List Expr) :
    (∀ x ∈ s.1, x ∈ (es.foldl visitExpr s).1) ∧ (∀ x ∈ s.2, x ∈ (es.foldl visitExpr s).2) ∧
    (∀ x ∈ (es.foldl visitExpr s).2, x ∈ s.2 ∨ x ∈ (es.foldl visitExpr s).1) ∧
    (∀ e ∈ es, e.isConstant = true ∨ e ∈ (es.foldl visitExpr s).2) := by
  induction es generalizing s with
  | nil => exact ⟨fun _ hx => hx, fun _ hx => hx, fun _ hx => .inl hx, fun _ he => by cases he⟩
  | cons e es ih =>
    obtain ⟨hstack, hvisited, hnew, he⟩ := visitExpr_spec s e
    obtain ⟨hstack', hvisited', hnew', hes⟩ := ih (visitExpr s e)
    refine ⟨fun x hx => hstack' x (hstack x hx), fun x hx => hvisited' x (hvisited x hx),
      fun x hx => ?_, fun k hk => ?_⟩
    · rcases hnew' x hx with hx | hx
      · rcases hnew x hx with hx | hx
        · exact .inl hx
        · exact .inr (hstack' x hx)
      · exact .inr hx
    · rcases List.mem_cons.mp hk with rfl | hk
      · exact he.imp id (hvisited' k)
      · exact hes k hk

theorem Closed.mono {e : Expr} {visited' : List Expr} {results' : List ReadExpr}
    (h : Closed visited results e) (hv : ∀ x ∈ visited, x ∈ visited')
    (hr : ∀ r ∈ results, r ∈ results') : Closed visited' results' e where
  read r hr' := hr r (h.read r hr')
  operands k hk := (h.operands k hk).imp id (hv k)

/-- What the loop keeps: a visited expression waits on the stack or is closed, and the
updates met so far were visited. -/
structure LoopInv (stack visited : List Expr) (updates : List UpdateNode)
    (results : List ReadExpr) : Prop where
  pending : ∀ e ∈ visited, e ∈ stack ∨ Closed visited results e
  updates : ∀ head ∈ updates, ∀ k ∈ head.exprs, k.isConstant = true ∨ k ∈ visited

theorem LoopInv.step {top : Expr} (h : LoopInv (top :: stack) visited updates results) :
    LoopInv ((nextExprs true updates top).foldl visitExpr (stack, visited)).1
      ((nextExprs true updates top).foldl visitExpr (stack, visited)).2
      (nextUpdates true updates top) (results ++ (asRead top).toList) := by
  obtain ⟨hstack, hvisited, hnew, hnext⟩ :=
    foldl_visitExpr_spec (nextExprs true updates top) (stack, visited)
  have hresults : ∀ r ∈ results, r ∈ results ++ (asRead top).toList :=
    fun r hr => List.mem_append_left _ hr
  have hold {k : Expr} (hk : k.isConstant = true ∨ k ∈ visited) :=
    hk.imp id (hvisited k)
  -- the top is closed now
  have htop : Closed ((nextExprs true updates top).foldl visitExpr (stack, visited)).2
      (results ++ (asRead top).toList) top := by
    refine ⟨fun r hr => List.mem_append_right _ (by simp [hr]), fun k hk => ?_⟩
    cases top with
    | read root head index =>
      by_cases hhead : head ∈ updates
      · rcases List.mem_cons.mp hk with rfl | hk
        · exact hnext k (by simp [nextExprs, hhead])
        · exact hold (h.updates head hhead k hk)
      · refine hnext k ?_
        rw [nextExprs, if_pos (by simp [hhead])]
        exact hk
    | _ => exact hnext k hk
  refine ⟨fun e he => ?_, fun head hhead k hk => ?_⟩
  · rcases hnew e he with he | he
    · rcases h.pending e he with he | he
      · rcases List.mem_cons.mp he with rfl | he
        · exact .inr htop
        · exact .inl (hstack e he)
      · exact .inr (he.mono hvisited hresults)
    · exact .inl he
  · cases top with
    | read root head' index =>
      by_cases hhead' : head' ∈ updates
      · rw [nextUpdates, if_neg (by simp [hhead'])] at hhead
        exact hold (h.updates head hhead k hk)
      · rw [nextUpdates, if_pos (by simp [hhead'])] at hhead
        rcases List.mem_cons.mp hhead with rfl | hhead
        · exact htop.operands k (List.mem_cons_of_mem _ hk)
        · exact hold (h.updates head hhead k hk)
    | _ => exact hold (h.updates head hhead k hk)

theorem foldl_visitExpr_of_visited {es : List Expr} {s : List Expr × List Expr}
    (h : ∀ k ∈ es, k.isConstant = true ∨ k ∈ s.2) : es.foldl visitExpr s = s := by
  induction es with
  | nil => rfl
  | cons e es ih =>
    obtain ⟨he, hes⟩ := List.forall_mem_cons.mp h
    have hvisit : visitExpr s e = s := by simp [visitExpr, he]
    rw [List.foldl_cons, hvisit, ih hes]

/-- The table of the heads changes nothing: the updates of a head that was met are all visited, so
that it does not matter whether equal lists are one node. -/
theorem LoopInv.foldl_operands {top : Expr}
    (h : LoopInv (top :: stack) visited updates results) :
    (nextExprs true updates top).foldl visitExpr (stack, visited) =
      top.operands.foldl visitExpr (stack, visited) := by
  cases top with
  | read root head index =>
    by_cases hhead : head ∈ updates
    · have hvisited := (visitExpr_spec (stack, visited) index).2.1
      rw [nextExprs, if_neg (by simp [hhead]), Expr.operands, List.foldl_cons, List.foldl_cons,
        foldl_visitExpr_of_visited fun k hk => (h.updates head hhead k hk).imp id (hvisited k)]
      rfl
    · rw [nextExprs, if_pos (by simp [hhead])]
      rfl
  | _ => rfl

theorem findReadsLoop_closed (h : LoopInv stack visited updates results) :
    ∃ visited', (∀ e ∈ visited, e ∈ visited') ∧
      ∀ e ∈ visited', Closed visited' (findReadsLoop true stack visited updates results) e := by
  induction stack, visited, updates, results using findReadsLoop.induct true with
  | case1 visited updates results =>
    rw [findReadsLoop]
    exact ⟨visited, fun _ he => he, fun e he => (h.pending e he).resolve_left (by simp)⟩
  | case2 visited updates results top stack s ih =>
    rw [findReadsLoop]
    obtain ⟨visited', hsub, hclosed⟩ := ih h.step
    have hvisited := (foldl_visitExpr_spec (nextExprs true updates top) (stack, visited)).2.1
    exact ⟨visited', fun e he => hsub e (hvisited e he), hclosed⟩

theorem allReads_findReads (e : Expr) : e.AllReads (· ∈ findReads e true) := by
  unfold findReads
  by_cases he : e.isConstant = true
  · obtain ⟨c, rfl⟩ := (Expr.isConstant_iff e).mp he
    trivial
  · rw [if_neg he]
    have hinit : LoopInv [e] [e] [] [] :=
      ⟨fun _ hx => .inl hx, fun _ hhead => by cases hhead⟩
    obtain ⟨visited', hsub, hclosed⟩ := findReadsLoop_closed hinit
    exact allReads_of_closed hclosed e (.inr (hsub e List.mem_cons_self))

end Complete

section Eval

def ReadExpr.Agrees (σ τ : Assignment) (re : ReadExpr) : Prop :=
  match re.index with
  | .constant c => re.updates.root.initial σ (c.value.setWidth 32).toNat =
      re.updates.root.initial τ (c.value.setWidth 32).toNat
  | _ => ∀ i, re.updates.root.initial σ i = re.updates.root.initial τ i

theorem ReadExpr.Agrees.initial_eq {σ τ : Assignment} {re : ReadExpr} (h : re.Agrees σ τ) :
    re.updates.root.initial σ (re.index.eval σ 32).toNat =
      re.updates.root.initial τ (re.index.eval σ 32).toNat := by
  unfold ReadExpr.Agrees at h
  split at h
  next c hc =>
    rw [hc]
    exact h
  next => exact h _

mutual

/-- The value of an expression depends on the bytes of its reads only. -/
theorem Expr.eval_congr {σ τ : Assignment} :
    ∀ (e : Expr) (w : Nat), e.AllReads (·.Agrees σ τ) → e.eval σ w = e.eval τ w
  | .constant _, _, _ => rfl
  | .notOptimized e, w, h => e.eval_congr w h
  | .read root head index, w, h => by
    have hindex := index.eval_congr 32 h.2.2
    have hhead := head.eval_congr root (index.eval σ 32) h.2.1 h.1.initial_eq
    rw [Expr.eval, Expr.eval, ← hindex, hhead]
  | .select c t f, w, h => by
    rw [Expr.eval, Expr.eval, c.eval_congr 1 h.1, t.eval_congr w h.2.1, f.eval_congr w h.2.2]
  | .concat l r, w, h => by
    rw [Expr.eval, Expr.eval, l.eval_congr _ h.1, r.eval_congr _ h.2]
  | .extract e off _, w, h => by rw [Expr.eval, Expr.eval, e.eval_congr _ h]
  | .cast k e _, w, h => by rw [Expr.eval, Expr.eval, e.eval_congr _ h]
  | .not e, w, h => by rw [Expr.eval, Expr.eval, e.eval_congr w h]
  | .arith k l r, w, h => by
    rw [Expr.eval, Expr.eval, l.eval_congr w h.1, r.eval_congr w h.2]
  | .cmp k l r, w, h => by
    rw [Expr.eval, Expr.eval, l.eval_congr _ h.1, r.eval_congr _ h.2]

theorem UpdateNode.eval_congr {σ τ : Assignment} (root : Array) :
    ∀ (un : UpdateNode) (i : BitVec 32), un.AllReads (·.Agrees σ τ) →
      root.initial σ i.toNat = root.initial τ i.toNat → un.eval σ root i = un.eval τ root i
  | .null, _, _, hi => hi
  | .node next index value, i, h, hi => by
    rw [UpdateNode.eval, UpdateNode.eval, index.eval_congr 32 h.2.1, value.eval_congr 8 h.2.2,
      next.eval_congr root i h.1 hi]

end

theorem Expr.eval_eq_of_findReads {σ τ : Assignment} {e : Expr} (w : Nat)
    (h : ∀ re ∈ findReads e true, re.Agrees σ τ) : e.eval σ w = e.eval τ w :=
  e.eval_congr w ((allReads_findReads e).mono h)

end Eval

section Sound

variable {P : ReadExpr → Prop}

theorem mem_foldl_visitExpr {es : List Expr} {s : List Expr × List Expr} {e : Expr}
    (h : e ∈ (es.foldl visitExpr s).1) : e ∈ s.1 ∨ e ∈ es := by
  induction es generalizing s with
  | nil => exact .inl h
  | cons x es ih =>
    rcases ih h with h | h
    · unfold visitExpr at h
      split at h
      · exact .inl h
      · rcases List.mem_cons.mp h with rfl | h
        · exact .inr List.mem_cons_self
        · exact .inl h
    · exact .inr (List.mem_cons_of_mem x h)

theorem mem_operands_of_mem_nextExprs {visitUpdates : Bool} {updates : List UpdateNode}
    {e k : Expr} (h : k ∈ nextExprs visitUpdates updates e) : k ∈ e.operands := by
  cases e with
  | read root head index =>
    rw [nextExprs] at h
    split at h
    · exact h
    · rw [List.mem_singleton.mp h]
      exact List.mem_cons_self
  | _ => exact h

theorem findReadsLoop_sound {visitUpdates : Bool} {stack visited : List Expr}
    {updates : List UpdateNode} {results : List ReadExpr} (hstack : ∀ e ∈ stack, e.AllReads P)
    (hresults : ∀ r ∈ results, P r) :
    ∀ r ∈ findReadsLoop visitUpdates stack visited updates results, P r := by
  induction stack, visited, updates, results using findReadsLoop.induct visitUpdates with
  | case1 visited updates results =>
    rw [findReadsLoop]
    exact hresults
  | case2 visited updates results top stack s ih =>
    rw [findReadsLoop]
    obtain ⟨htop, hrest⟩ := List.forall_mem_cons.mp hstack
    obtain ⟨hread, hoperands⟩ := (Expr.allReads_iff top).mp htop
    refine ih (fun e he => ?_) fun r hr => ?_
    · rcases mem_foldl_visitExpr he with he | he
      · exact hrest e he
      · exact hoperands e (mem_operands_of_mem_nextExprs he)
    · rcases List.mem_append.mp hr with hr | hr
      · exact hresults r hr
      · exact hread r (Option.mem_toList.mp hr)

theorem Expr.AllReads.of_mem_findReads {e : Expr} (h : e.AllReads P) {visitUpdates : Bool}
    {r : ReadExpr} (hr : r ∈ findReads e visitUpdates) : P r := by
  unfold findReads at hr
  split at hr
  · cases hr
  · have hstack : ∀ x ∈ [e], x.AllReads P := by
      intro x hx
      rwa [List.mem_singleton.mp hx]
    exact findReadsLoop_sound hstack (fun _ hr => by cases hr) r hr

end Sound

section Negation

variable {P : ReadExpr → Prop} {l r : Expr}

theorem allReads_andExprCreate (hl : l.AllReads P) (hr : r.AllReads P) :
    (AndExpr.create l r).AllReads P := by
  have hpartial (e : Expr) (c : ConstantExpr) (he : e.AllReads P) :
      (andExprCreatePartial e c).AllReads P := by
    unfold andExprCreatePartial
    split
    · exact he
    · split
      · trivial
      · exact ⟨he, trivial⟩
  unfold AndExpr.create bcreateR
  split
  · trivial
  · exact hpartial _ _ hr
  · exact hpartial _ _ hl
  · exact ⟨hl, hr⟩

theorem allReads_eqExprCreate (hl : l.AllReads P) (hr : r.AllReads P) :
    (eqExprCreate l r).AllReads P := by
  unfold eqExprCreate
  split
  · trivial
  · exact ⟨hl, hr⟩

theorem allReads_eqExprCreate_constant {c : ConstantExpr}
    (h : (eqExprCreatePartialR c l).AllReads P) :
    (EqExpr.create l (.constant c)).AllReads P := by
  cases l with
  | constant a => trivial
  | _ => exact h

theorem allReads_eqExprCreatePartialR (hr : r.AllReads P) (cl : ConstantExpr) :
    (eqExprCreatePartialR cl r).AllReads P := by
  induction hn : sizeOf r using Nat.strong_induction_on generalizing r cl with
  | _ n ih =>
  subst hn
  have hkeep : (eqExprCreate (.constant cl) r).AllReads P := allReads_eqExprCreate trivial hr
  have hsub {e : Expr} (he : sizeOf e < sizeOf r) (h : e.AllReads P) (c : ConstantExpr) :
      (EqExpr.create e (.constant c)).AllReads P :=
    allReads_eqExprCreate_constant (ih _ he h c rfl)
  rw [eqExprCreatePartialR_eq]
  split
  · split
    · exact hr
    · split
      · split
        · exact hr.2
        · exact hkeep
      · exact allReads_andExprCreate (hsub (by simp; omega) hr.1 _) (hsub (by simp) hr.2 _)
      · exact hkeep
  · split
    · rename_i src w
      have hsrc := hsub (e := src) (by simp; omega) hr (cl.zext src.width)
      dsimp only
      split
      · exact hsrc
      · trivial
    · rename_i src w
      have hsrc := hsub (e := src) (by simp; omega) hr (cl.zext src.width)
      dsimp only
      split
      · exact hsrc
      · trivial
    · exact ih _ (by simp) hr.2 _ rfl
    · exact ih _ (by simp) hr.2 _ rfl
    · exact hkeep
    · exact hkeep

/-- The negation of an expression reads what the expression reads. -/
theorem Expr.AllReads.createIsZero {e : Expr} (h : e.AllReads P) : e.createIsZero.AllReads P :=
  allReads_eqExprCreate_constant (allReads_eqExprCreatePartialR h _)

end Negation

end Klee
