import Klee.Expr.SymbolicObjects

/-! `SymbolicObjectFinder` with the table of its visitor: the visits that the table saves would find
nothing. -/
namespace Klee

namespace SymbolicObjectFinder

/-- `objects`, and the keys of the visitor's `visited` -/
structure Finder where
  objects : List Array
  visited : List Expr

def Finder.push (f : Finder) (root : Array) : Finder :=
  { f with objects := SymbolicObjectFinder.push f.objects root }

/-- `ExprVisitor::visit`. The result that the table has for an expression is the expression, so that
nothing is rebuilt. -/
def memo (useVisitorHash : Bool) (e : Expr) (visitActual : Finder → Finder) (f : Finder) : Finder :=
  if useVisitorHash then
    if e ∈ f.visited then f
    else
      let f := visitActual f
      { f with visited := e :: f.visited }
  else visitActual f

mutual

/-- `visitRead` calls `visit` for the updates, before the kids are visited. -/
def find (useVisitorHash : Bool) : Expr → Finder → Finder
  | .constant _ => id
  | .read root head index => memo useVisitorHash (.read root head index) fun f =>
    find useVisitorHash index ((findUpdates useVisitorHash head f).push root)
  | .notOptimized e => memo useVisitorHash (.notOptimized e) (find useVisitorHash e)
  | .select c t e => memo useVisitorHash (.select c t e) fun f =>
    find useVisitorHash e (find useVisitorHash t (find useVisitorHash c f))
  | .concat l r => memo useVisitorHash (.concat l r) fun f =>
    find useVisitorHash r (find useVisitorHash l f)
  | .extract e off w => memo useVisitorHash (.extract e off w) (find useVisitorHash e)
  | .cast k e w => memo useVisitorHash (.cast k e w) (find useVisitorHash e)
  | .not e => memo useVisitorHash (.not e) (find useVisitorHash e)
  | .arith k l r => memo useVisitorHash (.arith k l r) fun f =>
    find useVisitorHash r (find useVisitorHash l f)
  | .cmp k l r => memo useVisitorHash (.cmp k l r) fun f =>
    find useVisitorHash r (find useVisitorHash l f)

def findUpdates (useVisitorHash : Bool) : UpdateNode → Finder → Finder
  | .null => id
  | .node next index value => fun f =>
    findUpdates useVisitorHash next (find useVisitorHash value (find useVisitorHash index f))

end

/-- `findSymbolicObjects` of one expression, into an empty vector -/
def objectsOf (useVisitorHash : Bool) (e : Expr) : List Array :=
  (find useVisitorHash e ⟨[], []⟩).objects

section Table

theorem push_of_finds {objects : List Array} {root : Array}
    (h : root.isSymbolicArray = true → root ∈ objects) : push objects root = objects := by
  unfold push
  by_cases hsym : root.isSymbolicArray = true
  · rw [if_neg]
    simp [h hsym]
  · rw [if_neg]
    simp [hsym]

mutual

/-- A visit finds nothing if all arrays are there. -/
theorem visit_of_allReads : ∀ (e : Expr) (objects : List Array), e.AllReads (Finds objects) →
    visit e objects = objects
  | .constant _, _, _ => rfl
  | .read root head index, objects, h => by
    obtain ⟨hroot, hhead, hindex⟩ := h
    rw [visit, visitUpdates_of_allReads head objects hhead, push_of_finds hroot,
      visit_of_allReads index objects hindex]
  | .notOptimized e, objects, h => visit_of_allReads e objects h
  | .select c t f, objects, h => by
    obtain ⟨hc, ht, hf⟩ := h
    rw [visit, visit_of_allReads c objects hc, visit_of_allReads t objects ht,
      visit_of_allReads f objects hf]
  | .concat l r, objects, h => by
    rw [visit, visit_of_allReads l objects h.1, visit_of_allReads r objects h.2]
  | .extract e _ _, objects, h => visit_of_allReads e objects h
  | .cast _ e _, objects, h => visit_of_allReads e objects h
  | .not e, objects, h => visit_of_allReads e objects h
  | .arith _ l r, objects, h => by
    rw [visit, visit_of_allReads l objects h.1, visit_of_allReads r objects h.2]
  | .cmp _ l r, objects, h => by
    rw [visit, visit_of_allReads l objects h.1, visit_of_allReads r objects h.2]

theorem visitUpdates_of_allReads : ∀ (un : UpdateNode) (objects : List Array),
    un.AllReads (Finds objects) → visitUpdates un objects = objects
  | .null, _, _ => rfl
  | .node next index value, objects, h => by
    obtain ⟨hnext, hindex, hvalue⟩ := h
    rw [visitUpdates, visit_of_allReads index objects hindex,
      visit_of_allReads value objects hvalue, visitUpdates_of_allReads next objects hnext]

end

def Complete (f : Finder) : Prop := ∀ e ∈ f.visited, e.AllReads (Finds f.objects)

theorem Complete.push {f : Finder} (h : Complete f) (root : Array) : Complete (f.push root) :=
  fun e he => allReads_mono (h e he) (subset_push _ root)

/-- What a visit with the table does: the same as one without, and the table stays complete. -/
def Visits (e : Expr) (actual : Finder → Finder) : Prop :=
  ∀ f, Complete f → (actual f).objects = visit e f.objects ∧ Complete (actual f)

theorem memo_visits {useVisitorHash : Bool} {e : Expr} {actual : Finder → Finder}
    (hactual : Visits e actual) : Visits e (memo useVisitorHash e actual) := by
  intro f hf
  unfold memo
  split_ifs with _ hmem
  · exact ⟨(visit_of_allReads e f.objects (hf e hmem)).symm, hf⟩
  · obtain ⟨hobjects, hcomplete⟩ := hactual f hf
    refine ⟨hobjects, fun e' he' => ?_⟩
    rcases List.mem_cons.mp he' with rfl | he'
    · have hvisit := allReads_visit e' f.objects
      rwa [← hobjects] at hvisit
    · exact hcomplete e' he'
  · exact hactual f hf

variable (useVisitorHash : Bool)

/-- Two operands are visited one after the other. -/
theorem visits_binary {l r e : Expr} (hl : Visits l (find useVisitorHash l))
    (hr : Visits r (find useVisitorHash r))
    (he : ∀ objects, visit e objects = visit r (visit l objects)) :
    Visits e fun f => find useVisitorHash r (find useVisitorHash l f) := by
  intro f hf
  obtain ⟨hobjects, hcomplete⟩ := hl f hf
  obtain ⟨hobjects', hcomplete'⟩ := hr _ hcomplete
  exact ⟨by rw [hobjects', hobjects, he], hcomplete'⟩

mutual

theorem find_visits : ∀ e : Expr, Visits e (find useVisitorHash e)
  | .constant _ => fun _ hf => ⟨rfl, hf⟩
  | .read root head index => memo_visits fun f hf => by
    obtain ⟨hobjects, hcomplete⟩ := findUpdates_visits head f hf
    obtain ⟨hobjects', hcomplete'⟩ := find_visits index _ (hcomplete.push root)
    refine ⟨?_, hcomplete'⟩
    rw [hobjects', Finder.push, hobjects]
    rfl
  | .notOptimized e => memo_visits (find_visits e)
  | .select c t e => memo_visits fun f hf => by
    obtain ⟨hobjects, hcomplete⟩ := find_visits c f hf
    obtain ⟨hobjects', hcomplete'⟩ := find_visits t _ hcomplete
    obtain ⟨hobjects'', hcomplete''⟩ := find_visits e _ hcomplete'
    refine ⟨?_, hcomplete''⟩
    rw [hobjects'', hobjects', hobjects]
    rfl
  | .concat l r =>
    memo_visits (visits_binary useVisitorHash (find_visits l) (find_visits r) fun _ => rfl)
  | .extract e _ _ => memo_visits (find_visits e)
  | .cast _ e _ => memo_visits (find_visits e)
  | .not e => memo_visits (find_visits e)
  | .arith _ l r =>
    memo_visits (visits_binary useVisitorHash (find_visits l) (find_visits r) fun _ => rfl)
  | .cmp _ l r =>
    memo_visits (visits_binary useVisitorHash (find_visits l) (find_visits r) fun _ => rfl)

theorem findUpdates_visits : ∀ (un : UpdateNode) (f : Finder), Complete f →
    (findUpdates useVisitorHash un f).objects = visitUpdates un f.objects ∧
      Complete (findUpdates useVisitorHash un f)
  | .null, _, hf => ⟨rfl, hf⟩
  | .node next index value, f, hf => by
    obtain ⟨hobjects, hcomplete⟩ := find_visits index f hf
    obtain ⟨hobjects', hcomplete'⟩ := find_visits value _ hcomplete
    obtain ⟨hobjects'', hcomplete''⟩ := findUpdates_visits next _ hcomplete'
    refine ⟨?_, hcomplete''⟩
    rw [findUpdates, hobjects'', hobjects', hobjects]
    rfl

end

/-- The table, and whether it is used, changes no result. -/
theorem objectsOf_eq (e : Expr) : objectsOf useVisitorHash e = findSymbolicObjects [e] :=
  (find_visits useVisitorHash e ⟨[], []⟩ nofun).1

end Table

section Found

variable {C : List Array → Prop}

mutual

/-- What `push` keeps for the reads of an expression is kept by a visit. -/
theorem visit_keeps : ∀ (e : Expr) (objects : List Array),
    e.AllReads (fun re => ∀ objects, C objects → C (SymbolicObjectFinder.push objects
      re.updates.root)) → C objects → C (visit e objects)
  | .constant _, _, _, hC => hC
  | .read _ head index, objects, h, hC =>
    visit_keeps index _ h.2.2 (h.1 _ (visitUpdates_keeps head objects h.2.1 hC))
  | .notOptimized e, objects, h, hC => visit_keeps e objects h hC
  | .select c t f, objects, h, hC =>
    visit_keeps f _ h.2.2 (visit_keeps t _ h.2.1 (visit_keeps c objects h.1 hC))
  | .concat l r, objects, h, hC => visit_keeps r _ h.2 (visit_keeps l objects h.1 hC)
  | .extract e _ _, objects, h, hC => visit_keeps e objects h hC
  | .cast _ e _, objects, h, hC => visit_keeps e objects h hC
  | .not e, objects, h, hC => visit_keeps e objects h hC
  | .arith _ l r, objects, h, hC => visit_keeps r _ h.2 (visit_keeps l objects h.1 hC)
  | .cmp _ l r, objects, h, hC => visit_keeps r _ h.2 (visit_keeps l objects h.1 hC)

theorem visitUpdates_keeps : ∀ (un : UpdateNode) (objects : List Array),
    un.AllReads (fun re => ∀ objects, C objects → C (SymbolicObjectFinder.push objects
      re.updates.root)) → C objects → C (visitUpdates un objects)
  | .null, _, _, hC => hC
  | .node next index value, objects, h, hC =>
    visitUpdates_keeps next _ h.1 (visit_keeps value _ h.2.2 (visit_keeps index objects h.2.1 hC))

end

theorem nodup_push {objects : List Array} (h : objects.Nodup) (root : Array) :
    (push objects root).Nodup := by
  unfold push
  split_ifs with hnew
  · refine List.nodup_append.mpr ⟨h, List.nodup_singleton root, ?_⟩
    rintro a ha b hb rfl
    rw [List.mem_singleton.mp hb] at ha
    simp [ha] at hnew
  · exact h

theorem mem_of_mem_push {objects : List Array} {root a : Array} (h : a ∈ push objects root) :
    a ∈ objects ∨ a = root ∧ root.isSymbolicArray = true := by
  unfold push at h
  split_ifs at h with hnew
  · rw [Bool.and_eq_true] at hnew
    rcases List.mem_append.mp h with h | h
    · exact .inl h
    · exact .inr ⟨List.mem_singleton.mp h, hnew.1⟩
  · exact .inl h

/-- The array of one of the reads of `e` -/
def IsRoot (e : Expr) (a : Array) : Prop :=
  a.isSymbolicArray = true ∧ ∃ re ∈ findReads e true, re.updates.root = a

/-- Every array is found once, and is that of a read. -/
theorem findSymbolicObjects_sound (e : Expr) :
    (findSymbolicObjects [e]).Nodup ∧ ∀ a ∈ findSymbolicObjects [e], IsRoot e a := by
  refine visit_keeps (C := fun objects => objects.Nodup ∧ ∀ a ∈ objects, IsRoot e a) e []
    ((allReads_findReads e).mono fun re hre objects h => ?_) ⟨List.nodup_nil, nofun⟩
  refine ⟨nodup_push h.1 _, fun a ha => ?_⟩
  rcases mem_of_mem_push ha with ha | ⟨rfl, hsym⟩
  · exact h.2 a ha
  · exact ⟨hsym, re, hre, rfl⟩

/-- The arrays of the finder decide the value of an expression, are those of the reads that
`findReads` returns, and are returned once. -/
theorem objectsOf_complete (useVisitorHash : Bool) (e : Expr) :
    (∀ σ τ : Assignment, (∀ a ∈ objectsOf useVisitorHash e, ∀ i < a.size, σ a i = τ a i) →
      ∀ w, e.eval σ w = e.eval τ w) ∧
    (∀ a, a ∈ objectsOf useVisitorHash e ↔
      a.isSymbolicArray = true ∧ ∃ re ∈ findReads e true, re.updates.root = a) ∧
    (objectsOf useVisitorHash e).Nodup := by
  rw [objectsOf_eq]
  obtain ⟨hnodup, hroot⟩ := findSymbolicObjects_sound e
  refine ⟨fun σ τ h w => ?_, fun a => ⟨hroot a, ?_⟩, hnodup⟩
  · exact eval_congr_findSymbolicObjects (List.mem_singleton_self e) (fun a ha _ => h a ha) w
  · rintro ⟨hsym, re, hre, rfl⟩
    exact (allReads_findSymbolicObjects (List.mem_singleton_self e)).of_mem_findReads hre hsym

end Found

end SymbolicObjectFinder

end Klee
