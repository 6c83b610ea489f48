import Klee.Core.PTreeHeapSpec
import Klee.Core.SearcherChain
import Klee.Support.DiscretePDFSpec

/-! Every searcher of a chain holds the same states, and the state that is selected is one of
them. -/
namespace Klee

namespace CoreSearcher

section Loops

variable {σ α : Type*} [DecidableEq α] {Holds : σ → Finset α → Prop} {s : σ} {held : Finset α}

/-- A loop over what is removed, each time from what is held. -/
theorem foldlM_remove {remove : σ → α → Option σ}
    (hremove : ∀ {s held a}, Holds s held → a ∈ held →
      ∃ s', remove s a = some s' ∧ Holds s' (held.erase a))
    {removed : List α} (h : Holds s held) (hnodup : removed.Nodup)
    (hheld : ∀ a ∈ removed, a ∈ held) :
    ∃ s', removed.foldlM remove s = some s' ∧ Holds s' (held \ removed.toFinset) := by
  induction removed generalizing s held with
  | nil => exact ⟨s, rfl, by simpa using h⟩
  | cons a removed ih =>
    obtain ⟨ha, hnodup⟩ := List.nodup_cons.mp hnodup
    obtain ⟨s₁, hs₁, h₁⟩ := hremove h (hheld a List.mem_cons_self)
    obtain ⟨s', hs', h'⟩ := ih h₁ hnodup fun b hb => Finset.mem_erase.mpr
      ⟨fun heq => ha (heq ▸ hb), hheld b (List.mem_cons_of_mem a hb)⟩
    refine ⟨s', by rw [List.foldlM_cons, hs₁]; exact hs', ?_⟩
    rwa [List.toFinset_cons, Finset.sdiff_insert, ← Finset.erase_sdiff_comm]

/-- A loop over what is added, which is not held yet. -/
theorem foldlM_insert {insert : σ → α → Option σ} {allowed : α → Prop}
    (hinsert : ∀ {s held a}, Holds s held → a ∉ held → allowed a →
      ∃ s', insert s a = some s' ∧ Holds s' (Insert.insert a held))
    {added : List α} (h : Holds s held) (hnodup : added.Nodup) (hnew : ∀ a ∈ added, a ∉ held)
    (hallowed : ∀ a ∈ added, allowed a) :
    ∃ s', added.foldlM insert s = some s' ∧ Holds s' (held ∪ added.toFinset) := by
  induction added generalizing s held with
  | nil => exact ⟨s, rfl, by simpa using h⟩
  | cons a added ih =>
    obtain ⟨ha, hnodup⟩ := List.nodup_cons.mp hnodup
    obtain ⟨s₁, hs₁, h₁⟩ := hinsert h (hnew a List.mem_cons_self) (hallowed a List.mem_cons_self)
    obtain ⟨s', hs', h'⟩ := ih h₁ hnodup
      (fun b hb hmem => (Finset.mem_insert.mp hmem).elim (fun heq => ha (heq ▸ hb))
        (hnew b (List.mem_cons_of_mem a hb)))
      fun b hb => hallowed b (List.mem_cons_of_mem a hb)
    refine ⟨s', by rw [List.foldlM_cons, hs₁]; exact hs', ?_⟩
    rwa [List.toFinset_cons, Finset.union_insert, ← Finset.insert_union]

end Loops

section Remove

variable {states : List StateId} {held : Finset StateId} {es : StateId}

def ListHolds (states : List StateId) (held : Finset StateId) : Prop :=
  states.Nodup ∧ states.toFinset = held

theorem ListHolds.mem_iff (h : ListHolds states held) : es ∈ states ↔ es ∈ held := by
  rw [← h.2, List.mem_toFinset]

theorem ListHolds.erase (h : ListHolds states held) (es : StateId) :
    ListHolds (states.erase es) (held.erase es) := by
  refine ⟨h.1.erase es, ?_⟩
  ext a
  rw [List.mem_toFinset, h.1.mem_erase_iff, Finset.mem_erase, h.mem_iff]

theorem ListHolds.append (h : ListHolds states held) {added : List StateId} (hnodup : added.Nodup)
    (hnew : ∀ es ∈ added, es ∉ held) : ListHolds (states ++ added) (held ∪ added.toFinset) := by
  refine ⟨h.1.append hnodup fun es hes hadd => hnew es hadd (h.mem_iff.mp hes), ?_⟩
  rw [List.toFinset_append, h.2]

theorem ListHolds.eraseState (h : ListHolds states held) (hes : es ∈ held) :
    ∃ states', eraseState states es = some states' ∧ ListHolds states' (held.erase es) :=
  ⟨states.erase es, if_pos (h.mem_iff.mpr hes), h.erase es⟩

theorem ListHolds.popBack (h : ListHolds states held) (hes : es ∈ held) :
    ∃ states', popBack states es = some states' ∧ ListHolds states' (held.erase es) := by
  obtain ⟨last, hlast⟩ : ∃ last, states.getLast? = some last :=
    Option.isSome_iff_exists.mp (List.getLast?_isSome.mpr (List.ne_nil_of_mem (h.mem_iff.mpr hes)))
  rw [CoreSearcher.popBack, hlast, Option.bind_eq_bind, Option.bind_some]
  split
  · next heq =>
    subst heq
    refine ⟨_, rfl, ?_⟩
    have herase := DFSSearcher.erase_eq h.1 es
    rw [DFSSearcher.erase, if_pos hlast] at herase
    rw [herase]
    exact h.erase es
  · exact h.eraseState hes

theorem ListHolds.popFront (h : ListHolds states held) (hes : es ∈ held) :
    ∃ states', popFront states es = some states' ∧ ListHolds states' (held.erase es) := by
  cases states with
  | nil => exact absurd (h.mem_iff.mpr hes) List.not_mem_nil
  | cons a states =>
    rw [CoreSearcher.popFront, List.head?_cons, Option.bind_eq_bind, Option.bind_some]
    split
    · next heq =>
      subst heq
      refine ⟨_, rfl, ?_⟩
      have herase := h.erase es
      rwa [List.erase_cons_head] at herase
    · exact h.eraseState hes

section Once

variable {σ : Type*} {remove : σ → StateId → Option σ} {Holds : σ → Finset StateId → Prop}
  {removed : List StateId}

theorem foldlM_removeOnce_from
    (hremove : ∀ {s held es}, Holds s held → es ∈ held →
      ∃ s', remove s es = some s' ∧ Holds s' (held.erase es))
    {s : σ} {seen : List StateId} (h : Holds s (held \ seen.toFinset))
    (hheld : ∀ es ∈ removed, es ∈ held) :
    ∃ p, removed.foldlM (removeOnce remove) (s, seen) = some p ∧
      Holds p.1 (held \ (seen ++ removed).toFinset) := by
  induction removed generalizing s seen with
  | nil => exact ⟨_, rfl, by simpa using h⟩
  | cons es removed ih =>
    rw [List.foldlM_cons, removeOnce]
    have hrest := fun a ha => hheld a (List.mem_cons_of_mem es ha)
    by_cases hes : es ∈ seen
    · obtain ⟨p, hp, hholds⟩ := ih h hrest
      refine ⟨p, by rw [if_pos hes]; exact hp, ?_⟩
      have heq : (seen ++ es :: removed).toFinset = (seen ++ removed).toFinset := by
        ext a
        simp only [List.mem_toFinset, List.mem_append, List.mem_cons]
        grind
      rwa [heq]
    · have hmem : es ∈ held \ seen.toFinset :=
        Finset.mem_sdiff.mpr ⟨hheld es List.mem_cons_self, by simpa using hes⟩
      obtain ⟨s', hs', h'⟩ := hremove h hmem
      have hseen : (held \ seen.toFinset).erase es = held \ (es :: seen).toFinset := by
        rw [List.toFinset_cons, Finset.sdiff_insert]
      obtain ⟨p, hp, hholds⟩ := ih (hseen ▸ h') hrest
      refine ⟨p, by rw [if_neg hes, hs']; exact hp, ?_⟩
      have heq : (seen ++ es :: removed).toFinset = (es :: seen ++ removed).toFinset := by
        ext a
        simp only [List.mem_toFinset, List.mem_append, List.mem_cons]
        tauto
      rwa [heq]

/-- A state may be listed more than once for a loop that skips repetitions. -/
theorem foldlM_removeOnce
    (hremove : ∀ {s held es}, Holds s held → es ∈ held →
      ∃ s', remove s es = some s' ∧ Holds s' (held.erase es))
    {s : σ} (h : Holds s held) (hheld : ∀ es ∈ removed, es ∈ held) :
    ∃ p, removed.foldlM (removeOnce remove) (s, []) = some p ∧
      Holds p.1 (held \ removed.toFinset) :=
  foldlM_removeOnce_from hremove (by simpa using h) hheld

end Once

end Remove

section Weighted

open Zipper DiscretePDF

variable {pdf : DiscretePDF StateId ℚ} {held : Finset StateId} {es : StateId} {w : ℚ}

def PDFHolds (pdf : DiscretePDF StateId ℚ) (held : Finset StateId) : Prop :=
  ∃ m t, pdf.Represents m t ∧ ∀ es, m es ≠ none ↔ es ∈ held

theorem PDFHolds.insert (h : PDFHolds pdf held) (hes : es ∉ held) (hw : 0 ≤ w) :
    ∃ pdf', pdf.insert es w = some pdf' ∧ PDFHolds pdf' (insert es held) := by
  obtain ⟨m, t, hrep, hm⟩ := h
  have hnone : m es = none := not_ne_iff.mp fun hne => hes ((hm es).mp hne)
  have hop : (Op.insert es w).live m = some (Function.update m es (some w)) := if_pos ⟨hnone, hw⟩
  obtain ⟨pdf', t', hrun, hrep', -⟩ := hrep.run hop
  refine ⟨pdf', hrun, _, t', hrep', fun a => ?_⟩
  rw [Finset.mem_insert, ← hm a]
  by_cases ha : a = es
  · subst ha
    simp
  · simp [ha]

theorem PDFHolds.update (h : PDFHolds pdf held) (hes : es ∈ held) (hw : 0 ≤ w) :
    ∃ pdf', pdf.update es w = some pdf' ∧ PDFHolds pdf' held := by
  obtain ⟨m, t, hrep, hm⟩ := h
  have hop : (Op.update es w).live m = some (Function.update m es (some w)) :=
    if_pos ⟨(hm es).mpr hes, hw⟩
  obtain ⟨pdf', t', hrun, hrep', -⟩ := hrep.run hop
  refine ⟨pdf', hrun, _, t', hrep', fun a => ?_⟩
  rw [← hm a]
  by_cases ha : a = es
  · subst ha
    simpa using (hm a).mpr hes
  · rw [Function.update_of_ne ha]

theorem PDFHolds.remove (h : PDFHolds pdf held) (hes : es ∈ held) :
    ∃ pdf', pdf.remove es = some pdf' ∧ PDFHolds pdf' (held.erase es) := by
  obtain ⟨m, t, hrep, hm⟩ := h
  have hop : (Op.remove es : Op StateId ℚ).live m = some (Function.update m es none) :=
    if_pos ((hm es).mpr hes)
  obtain ⟨pdf', t', hrun, hrep', -⟩ := hrep.run hop
  refine ⟨pdf', hrun, _, t', hrep', fun a => ?_⟩
  rw [Finset.mem_erase, ← hm a]
  by_cases ha : a = es
  · subst ha
    simp
  · simp [ha]

theorem PDFHolds.eq_nil_iff {m : Live StateId ℚ} {t : BinTree (Label StateId ℚ)}
    (hrep : pdf.Represents m t) (hm : ∀ es, m es ≠ none ↔ es ∈ held) : t = .nil ↔ held = ∅ := by
  rw [Finset.eq_empty_iff_forall_notMem]
  constructor
  · rintro rfl es hes
    obtain ⟨w, hw⟩ := Option.ne_none_iff_exists'.mp ((hm es).mpr hes)
    exact absurd ((hrep.items es w).mpr hw) List.not_mem_nil
  · intro hnone
    cases t with
    | nil => rfl
    | node l a r =>
      refine absurd ((hm a.key).mp ?_) (hnone a.key)
      rw [(hrep.items a.key a.weight).mp (by simp [Label.entry])]
      exact Option.some_ne_none _

theorem PDFHolds.empty (h : PDFHolds pdf held) : pdf.empty = decide (held = ∅) := by
  obtain ⟨m, t, hrep, hm⟩ := h
  rw [DiscretePDF.empty, hrep.place.root]
  have hiff := PDFHolds.eq_nil_iff hrep hm
  cases t with
  | nil => simpa [rootOf, pointer] using hiff.mp rfl
  | node l a r =>
    have hne : held ≠ ∅ := by
      intro hheld
      cases hiff.mpr hheld
    simp [rootOf, pointer, hne]

theorem PDFHolds.choose (h : PDFHolds pdf held) (hne : held.Nonempty) {p : ℚ} (hp : 0 ≤ p)
    (hp' : p < 1) : ∃ es ∈ held, pdf.choose p = some es := by
  obtain ⟨m, t, hrep, hm⟩ := h
  have hnil : t ≠ .nil := fun hnil =>
    hne.ne_empty ((PDFHolds.eq_nil_iff hrep hm).mp hnil)
  have hpos : 0 ≤ total (entries t) := List.sum_nonneg fun x hx => by
    obtain ⟨y, hy, rfl⟩ := List.mem_map.mp hx
    exact hrep.nonneg y hy
  obtain ⟨es, hes, before, w, after, hentries, -⟩ := hrep.place.choose hrep.sums hnil hpos hp hp'
  refine ⟨es, (hm es).mp ?_, hes⟩
  rw [(hrep.items es w).mp (by simp [hentries])]
  exact Option.some_ne_none w

end Weighted

/-- The states that a searcher holds. `RandomPathSearcher` reads the process tree. -/
def Holds (held : Finset StateId) : CoreSearcher → Prop
  | .dfs states | .bfs states | .random states | .subpathGuided states _ | .ml states _ =>
    ListHolds states held
  | .weightedRandom _ states => PDFHolds states held
  | .randomPath => True

def IsRandomPath : CoreSearcher → Prop
  | .randomPath => True
  | _ => False

end CoreSearcher

/-- What a searcher is told of an update: new states, and states it holds or is given. -/
structure ProperUpdate (env : SearchEnv) (held : Finset StateId) (current : Option StateId)
    (added removed : List StateId) : Prop where
  nodup : added.Nodup
  nodupRemoved : removed.Nodup
  new : ∀ es ∈ added, es ∉ held
  current : ∀ es ∈ current, es ∈ held
  removed : ∀ es ∈ removed, es ∈ held ∪ added.toFinset
  allocated : held ∪ added.toFinset ⊆ env.allocated

def heldAfter (held : Finset StateId) (added removed : List StateId) : Finset StateId :=
  (held ∪ added.toFinset) \ removed.toFinset

namespace CoreSearcher

variable {env : SearchEnv} {held : Finset StateId} {current : Option StateId}
  {added removed states : List StateId}

section Updates

theorem access_eq {es : StateId} (h : es ∈ env.allocated) : env.access es = some () := by
  rw [SearchEnv.access, guard, if_pos h]
  rfl

theorem ListHolds.moveToBack (h : ListHolds states held) (hcurrent : ∀ es ∈ current, es ∈ held)
    (added removed : List StateId) :
    ∃ states', moveToBack current added removed states = some states' ∧
      ListHolds states' held := by
  cases current with
  | none => exact ⟨states, rfl, h⟩
  | some es =>
    rw [CoreSearcher.moveToBack]
    split
    · obtain ⟨states', hs', h'⟩ := h.eraseState (hcurrent es rfl)
      refine ⟨states' ++ [es], by rw [hs']; rfl, ?_⟩
      have happend := h'.append (List.nodup_singleton es) fun a ha => by
        rw [List.mem_singleton.mp ha]
        exact Finset.notMem_erase es held
      have heq : held.erase es ∪ [es].toFinset = held := by
        rw [List.toFinset_cons, List.toFinset_nil, insert_empty_eq, Finset.union_comm,
          ← Finset.insert_eq, Finset.insert_erase (hcurrent es rfl)]
      rwa [heq] at happend
    · exact ⟨states, rfl, h⟩

theorem PDFHolds.updateWeight {pdf : DiscretePDF StateId ℚ} (h : PDFHolds pdf held)
    (hcurrent : ∀ es ∈ current, es ∈ held) (hsub : held ⊆ env.allocated) (type : WeightType)
    (removed : List StateId) :
    ∃ pdf', updateWeight env type current removed pdf = some pdf' ∧ PDFHolds pdf' held := by
  cases current with
  | none => exact ⟨pdf, rfl, h⟩
  | some es =>
    rw [CoreSearcher.updateWeight]
    split
    · rw [access_eq (hsub (hcurrent es rfl))]
      exact h.update (hcurrent es rfl) (NNRat.cast_nonneg _)
    · exact ⟨pdf, rfl, h⟩

theorem PDFHolds.insertWeighted (env : SearchEnv) (type : WeightType)
    {pdf : DiscretePDF StateId ℚ} {held : Finset StateId} {es : StateId} (h : PDFHolds pdf held)
    (hes : es ∉ held) (hin : es ∈ env.allocated) :
    ∃ pdf', insertWeighted env type pdf es = some pdf' ∧ PDFHolds pdf' (Insert.insert es held) := by
  rw [CoreSearcher.insertWeighted, access_eq hin]
  exact h.insert hes (NNRat.cast_nonneg _)

/-- The loops of the lists that search for each removed state. -/
theorem ListHolds.foldlM {remove : List StateId → StateId → Option (List StateId)}
    (hremove : ∀ {states held es}, ListHolds states held → es ∈ held →
      ∃ states', remove states es = some states' ∧ ListHolds states' (held.erase es))
    (h : ListHolds states held) (hp : ProperUpdate env held current added removed) :
    ∃ states', removed.foldlM remove (states ++ added) = some states' ∧
      ListHolds states' (heldAfter held added removed) :=
  foldlM_remove hremove (h.append hp.nodup hp.new) hp.nodupRemoved hp.removed

theorem ListHolds.removeOnce (h : ListHolds states held)
    (hp : ProperUpdate env held current added removed) :
    ∃ p, removed.foldlM (removeOnce CoreSearcher.eraseState) (states ++ added, []) = some p ∧
      ListHolds p.1 (heldAfter held added removed) :=
  foldlM_removeOnce ListHolds.eraseState (h.append hp.nodup hp.new) hp.removed

theorem update_holds {c : CoreSearcher} (h : c.Holds held)
    (hp : ProperUpdate env held current added removed) :
    ∃ c', c.update env current added removed = some c' ∧
      c'.Holds (heldAfter held added removed) ∧ (c'.IsRandomPath → c.IsRandomPath) := by
  cases c with
  | dfs states =>
    obtain ⟨states', hs', h'⟩ := ListHolds.foldlM ListHolds.popBack h hp
    exact ⟨.dfs states', by rw [update, hs']; rfl, h', id⟩
  | bfs states =>
    obtain ⟨states₁, hs₁, h₁⟩ := ListHolds.moveToBack h hp.current added removed
    obtain ⟨states', hs', h'⟩ := ListHolds.foldlM ListHolds.popFront h₁ hp
    refine ⟨.bfs states', ?_, h', id⟩
    rw [update, hs₁, Option.bind_eq_bind, Option.bind_some, hs']
    rfl
  | random states =>
    obtain ⟨states', hs', h'⟩ := ListHolds.foldlM ListHolds.eraseState h hp
    exact ⟨.random states', by rw [update, hs']; rfl, h', id⟩
  | weightedRandom type pdf =>
    have hsub : held ⊆ env.allocated := Finset.union_subset_left hp.allocated
    obtain ⟨pdf₁, hs₁, h₁⟩ := PDFHolds.updateWeight h hp.current hsub type removed
    obtain ⟨pdf₂, hs₂, h₂⟩ := foldlM_insert
      (PDFHolds.insertWeighted env type) h₁ hp.nodup hp.new fun es hes =>
        hp.allocated (Finset.mem_union_right _ (List.mem_toFinset.mpr hes))
    obtain ⟨p, hs', h'⟩ := foldlM_removeOnce PDFHolds.remove h₂ hp.removed
    refine ⟨.weightedRandom type p.1, ?_, h', id⟩
    rw [update, hs₁, Option.bind_eq_bind, Option.bind_some, hs₂, Option.bind_eq_bind,
      Option.bind_some, hs']
    rfl
  | randomPath => exact ⟨.randomPath, rfl, trivial, id⟩
  | subpathGuided states index =>
    obtain ⟨p, hs', h'⟩ := ListHolds.removeOnce h hp
    exact ⟨.subpathGuided p.1 index, by rw [update, hs']; rfl, h', id⟩
  | ml states sampling =>
    obtain ⟨p, hs', h'⟩ := ListHolds.removeOnce h hp
    exact ⟨.ml p.1 sampling, by rw [update, hs']; rfl, h', id⟩

theorem ListHolds.isEmpty (h : ListHolds states held) : states.isEmpty = decide (held = ∅) := by
  rw [Bool.eq_iff_iff, List.isEmpty_iff, decide_eq_true_eq, ← h.2, List.toFinset_eq_empty_iff]

theorem empty_eq {c : CoreSearcher} (h : c.Holds held) (hpath : ¬ c.IsRandomPath) :
    c.empty env = decide (held = ∅) := by
  cases c with
  | dfs states => exact ListHolds.isEmpty h
  | bfs states => exact ListHolds.isEmpty h
  | random states => exact ListHolds.isEmpty h
  | weightedRandom type pdf => exact PDFHolds.empty h
  | randomPath => exact absurd trivial hpath
  | subpathGuided states index => exact ListHolds.isEmpty h
  | ml states sampling => exact ListHolds.isEmpty h

end Updates

section Selections

structure HasTree (env : SearchEnv) (held : Finset StateId) : Prop where
  linked : env.processTree.Linked
  carried : env.processTree.Carried held none

variable {data : SearchData} {es : StateId}

theorem getSubpath_eq (h : es ∈ env.allocated) (index : Nat) :
    ∃ subpath, env.getSubpath es index = some subpath := by
  rw [SearchEnv.getSubpath, access_eq h]
  exact ⟨_, rfl⟩

/-- Whatever the counts are, some state has the least. -/
theorem exists_leastTaken (data : SearchData) (index : Nat) (p : BitVec 64 × List StateId)
    (hacc : ∀ es ∈ states, es ∈ env.allocated) :
    ∃ q, leastTaken env data index p states = some q ∧
      (∀ es ∈ q.2, es ∈ p.2 ∨ es ∈ states) ∧
      (p.2 ≠ [] ∨ p.1 = BitVec.allOnes 64 ∧ states ≠ [] → q.2 ≠ []) := by
  induction states generalizing p with
  | nil => exact ⟨p, rfl, fun es hes => .inl hes, fun h => h.resolve_right fun h => h.2 rfl⟩
  | cons es states ih =>
    obtain ⟨minCount, selectSet⟩ := p
    obtain ⟨subpath, hsub⟩ := getSubpath_eq (hacc es List.mem_cons_self) index
    have hrest := fun a ha => hacc a (List.mem_cons_of_mem es ha)
    rw [leastTaken, hsub]
    simp only [Option.bind_eq_bind, Option.bind_some]
    set curr := data.subpathCounts index subpath
    by_cases hlt : curr < minCount
    · rw [if_pos hlt]
      obtain ⟨q, hq, hsubset, hne⟩ := ih (curr, [es]) hrest
      refine ⟨q, by simpa using hq, fun a ha => ?_, fun _ => hne (.inl (List.cons_ne_nil _ _))⟩
      rcases hsubset a ha with hmem | hmem
      · exact .inr (List.mem_singleton.mp hmem ▸ List.mem_cons_self)
      · exact .inr (List.mem_cons_of_mem es hmem)
    · rw [if_neg hlt]
      by_cases heq : curr = minCount
      · obtain ⟨q, hq, hsubset, hne⟩ := ih (minCount, selectSet ++ [es]) hrest
        refine ⟨q, by simpa [heq] using hq, fun a ha => ?_,
          fun _ => hne (.inl (List.append_ne_nil_of_right_ne_nil _ (List.cons_ne_nil _ _)))⟩
        rcases hsubset a ha with hmem | hmem
        · rcases List.mem_append.mp hmem with hmem | hmem
          · exact .inl hmem
          · exact .inr (List.mem_singleton.mp hmem ▸ List.mem_cons_self)
        · exact .inr (List.mem_cons_of_mem es hmem)
      · obtain ⟨q, hq, hsubset, hne⟩ := ih (minCount, selectSet) hrest
        refine ⟨q, by simpa [heq] using hq, fun a ha => ?_, fun h => ?_⟩
        · exact (hsubset a ha).imp_right (List.mem_cons_of_mem es)
        · refine hne (h.imp_right fun h => absurd h.1 ?_)
          -- A count that is not less than the greatest number is that number.
          rintro rfl
          exact heq (BitVec.eq_of_toNat_eq (by simp [BitVec.lt_def] at hlt ⊢; omega))

/-- The first state is the selection until another one has a greater reward. -/
theorem exists_greatestReward (best : Option (StateId × ℚ))
    (hpred : ∀ es ∈ states, data.predictedReward es ≠ none) :
    ∃ best', greatestReward data best states = some best' ∧
      (∀ p ∈ best', best = some p ∨ p.1 ∈ states) ∧ (best ≠ none ∨ states ≠ [] → best' ≠ none) := by
  induction states generalizing best with
  | nil => exact ⟨best, rfl, fun p hp => .inl hp, fun h => h.resolve_right (absurd rfl)⟩
  | cons es states ih =>
    obtain ⟨reward, hreward⟩ := Option.ne_none_iff_exists'.mp (hpred es List.mem_cons_self)
    have hrest := fun a ha => hpred a (List.mem_cons_of_mem es ha)
    have hnext (next : Option (StateId × ℚ)) (hnext : next ≠ none)
        (hfrom : next = best ∨ next = some (es, reward)) :
        ∃ best', greatestReward data next states = some best' ∧
          (∀ p ∈ best', best = some p ∨ p.1 ∈ es :: states) ∧
          (best ≠ none ∨ es :: states ≠ [] → best' ≠ none) := by
      obtain ⟨best', hbest', hmem, hne⟩ := ih next hrest
      refine ⟨best', hbest', fun p hp => ?_, fun _ => hne (.inl hnext)⟩
      rcases hmem p hp with heq | hmem
      · rcases hfrom with rfl | rfl
        · exact .inl heq
        · cases heq
          exact .inr List.mem_cons_self
      · exact .inr (List.mem_cons_of_mem es hmem)
    rw [greatestReward, hreward]
    cases best with
    | none => exact hnext (some (es, reward)) (Option.some_ne_none _) (.inr rfl)
    | some p =>
      obtain ⟨a, currentMax⟩ := p
      refine hnext (if currentMax < reward then some (es, reward) else some (a, currentMax)) ?_ ?_
      · split <;> exact Option.some_ne_none _
      · split
        · exact .inr rfl
        · exact .inl rfl

theorem forM_access (hacc : ∀ es ∈ states, es ∈ env.allocated) :
    states.forM env.access = some () := by
  induction states with
  | nil => rfl
  | cons es states ih =>
    rw [List.forM_eq_forM, List.forM_cons, access_eq (hacc es List.mem_cons_self)]
    exact ih fun a ha => hacc a (List.mem_cons_of_mem es ha)

theorem exists_mapM {β : Type} {f : StateId → Option β} (hf : ∀ es ∈ states, f es ≠ none) :
    ∃ l, states.mapM f = some l ∧ l.length = states.length := by
  induction states with
  | nil => exact ⟨[], rfl, rfl⟩
  | cons es states ih =>
    obtain ⟨b, hb⟩ := Option.ne_none_iff_exists'.mp (hf es List.mem_cons_self)
    obtain ⟨l, hl, hlen⟩ := ih fun a ha => hf a (List.mem_cons_of_mem es ha)
    exact ⟨b :: l, by rw [List.mapM_cons, hb, hl]; rfl, congrArg (· + 1) hlen⟩

/-- An index below the length is one of a state. -/
theorem exists_getElem? {i : Nat} (hi : i < states.length) : ∃ es ∈ states, states[i]? = some es :=
  ⟨states[i], List.getElem_mem hi, List.getElem?_eq_getElem hi⟩

theorem exists_getElem?_mod (hne : states ≠ []) (n : Nat) :
    ∃ es ∈ states, states[n % states.length]? = some es :=
  exists_getElem? (Nat.mod_lt _ (List.length_pos_iff.mpr hne))

theorem getDoubleL_nonneg (env : SearchEnv) : 0 ≤ env.getDoubleL :=
  mul_nonneg (Nat.cast_nonneg _) (by norm_num)

theorem getDoubleL_lt_one (env : SearchEnv) : env.getDoubleL < 1 := by
  have hlt : ((env.getInt32 0).toNat : ℚ) < 2 ^ 32 := by exact_mod_cast (env.getInt32 0).isLt
  rw [SearchEnv.getDoubleL, mul_one_div, div_lt_one (by norm_num)]
  exact hlt

/-- The features and the states that wait for new ones are those from before. -/
def SameFeatures (data data' : SearchData) : Prop :=
  data'.features = data.features ∧ data'.featureStates = data.featureStates

theorem selectState_subpathGuided {index : Nat} (hne : states ≠ [])
    (hacc : ∀ es ∈ states, es ∈ env.allocated) (data : SearchData) :
    ∃ es ∈ states, ∃ data', (subpathGuided states index).selectState env data = some (es, data') ∧
      SameFeatures data data' := by
  obtain ⟨q, hq, hmem, hsel⟩ :=
    exists_leastTaken data index (BitVec.allOnes 64, []) hacc
  obtain ⟨es, hes, hget⟩ := exists_getElem?_mod (hsel (.inr ⟨rfl, hne⟩)) (env.getInt32 0).toNat
  have hes : es ∈ states := (hmem es hes).resolve_left List.not_mem_nil
  refine ⟨es, hes, ?_⟩
  simp only [selectState, hq, hget, Option.bind_eq_bind, Option.bind_some]
  split
  · exact ⟨data, rfl, rfl, rfl⟩
  · obtain ⟨subpath, hsub⟩ := getSubpath_eq (hacc es hes) index
    rw [hsub]
    exact ⟨_, rfl, rfl, rfl⟩

theorem selectState_ml {sampling : Bool} (hne : states ≠ [])
    (hacc : ∀ es ∈ states, es ∈ env.allocated) (data : SearchData) :
    ∃ es ∈ states, ∃ data', (ml states sampling).selectState env data = some (es, data') ∧
      SameFeatures data data' := by
  have hpred : ∀ es ∈ states, (predictRewards env data states).predictedReward es ≠ none := by
    intro es hes
    by_cases hnone : data.predictedReward es = none
    · exact ne_of_eq_of_ne (if_pos ⟨hes, hnone⟩) (Option.some_ne_none _)
    · exact ne_of_eq_of_ne (if_neg fun h => hnone h.2) hnone
  rw [selectState, forM_access hacc, Option.bind_eq_bind, Option.bind_some]
  cases sampling with
  | true =>
    obtain ⟨rewards, hrewards, hlen⟩ := exists_mapM hpred
    have hnil : rewards ≠ [] := fun hnil => hne (List.length_eq_zero_iff.mp (hlen ▸ hnil ▸ rfl))
    obtain ⟨es, hes, hget⟩ := exists_getElem? (hlen ▸ env.sample_lt hnil)
    refine ⟨es, hes, forget (predictRewards env data states) es, ?_, rfl, rfl⟩
    simp only [if_true, hrewards, hget, Option.bind_eq_bind, Option.bind_some, Option.pure_def]
  | false =>
    obtain ⟨best, hbest, hmem, hsome⟩ := exists_greatestReward none hpred
    obtain ⟨p, rfl⟩ := Option.ne_none_iff_exists'.mp (hsome (.inr hne))
    refine ⟨p.1, (hmem p rfl).resolve_left (Option.some_ne_none p).symm,
      forget (predictRewards env data states) p.1, ?_, rfl, rfl⟩
    simp only [Bool.false_eq_true, if_false, hbest, Option.bind_eq_bind, Option.bind_some,
      Option.pure_def]

theorem selectState_holds {c : CoreSearcher} (h : c.Holds held) (hne : held.Nonempty)
    (hacc : held ⊆ env.allocated) (htree : c.IsRandomPath → HasTree env held)
    (data : SearchData) :
    ∃ es ∈ held, ∃ data', c.selectState env data = some (es, data') ∧ SameFeatures data data' := by
  have hnil {states : List StateId} (h : ListHolds states held) : states ≠ [] := by
    rintro rfl
    exact hne.ne_empty h.2.symm
  have hlist {states : List StateId} (h : ListHolds states held) :
      ∀ es ∈ states, es ∈ env.allocated := fun es hes => hacc (h.mem_iff.mp hes)
  cases c with
  | dfs states =>
    obtain ⟨es, hes⟩ := Option.isSome_iff_exists.mp (List.getLast?_isSome.mpr (hnil h))
    exact ⟨es, ListHolds.mem_iff h |>.mp (List.mem_of_getLast? hes), data,
      by rw [selectState, hes]; rfl, rfl, rfl⟩
  | bfs states =>
    obtain ⟨es, hes⟩ := Option.isSome_iff_exists.mp (List.isSome_head?.mpr (hnil h))
    exact ⟨es, ListHolds.mem_iff h |>.mp (List.mem_of_head? hes), data,
      by rw [selectState, hes]; rfl, rfl, rfl⟩
  | random states =>
    obtain ⟨es, hes, hget⟩ := exists_getElem?_mod (hnil h) (env.getInt32 0).toNat
    exact ⟨es, ListHolds.mem_iff h |>.mp hes, data, by rw [selectState, hget]; rfl, rfl, rfl⟩
  | weightedRandom type pdf =>
    obtain ⟨es, hes, hchoose⟩ :=
      PDFHolds.choose h hne (getDoubleL_nonneg env) (getDoubleL_lt_one env)
    exact ⟨es, hes, data, by rw [selectState, hchoose]; rfl, rfl, rfl⟩
  | randomPath =>
    obtain ⟨hl, hcar⟩ := htree trivial
    obtain ⟨c, hc⟩ := hl.root
    obtain ⟨es, hes, hsel⟩ := hcar.selectFrom_of_le hl env.getInt32 ⟨0, 0, 0⟩ hc fun _ => hne
    have hsel := hsel env.processTree.next (Nat.sub_le _ _)
    exact ⟨es, hes, data, by rw [selectState, PTreeHeap.selectState, hsel]; rfl, rfl, rfl⟩
  | subpathGuided states index =>
    obtain ⟨es, hes, hsel⟩ := selectState_subpathGuided (hnil h) (hlist h) data
    exact ⟨es, ListHolds.mem_iff h |>.mp hes, hsel⟩
  | ml states sampling =>
    obtain ⟨es, hes, hsel⟩ := selectState_ml (hnil h) (hlist h) data
    exact ⟨es, ListHolds.mem_iff h |>.mp hes, hsel⟩

end Selections

end CoreSearcher

namespace SearcherChain

open CoreSearcher

variable {env : SearchEnv} {held : Finset StateId} {current : Option StateId}
  {added removed : List StateId} {data : SearchData}

def cores : SearcherChain → List CoreSearcher
  | .core searcher => [searcher]
  | .interleaved searchers _ => searchers
  | .getFeatures b _ | .branching b _ | .batching b .. => cores b

/-- All core searchers hold the states, and a state that is kept is one of them. -/
def Holds (held : Finset StateId) : SearcherChain → Prop
  | .core searcher => searcher.Holds held
  | .interleaved searchers index =>
    (∀ c ∈ searchers, c.Holds held) ∧ 1 ≤ index ∧ index ≤ searchers.length
  | .getFeatures b _ => Holds held b
  | .branching b lastState => Holds held b ∧ ∀ es ∈ lastState, es ∈ held
  | .batching b _ _ lastState _ _ => Holds held b ∧ ∀ es ∈ lastState, es ∈ held

def UsesRandomPath (s : SearcherChain) : Prop := ∃ c ∈ s.cores, c.IsRandomPath

section Update

theorem exists_mapM_update {searchers : List CoreSearcher} (h : ∀ c ∈ searchers, c.Holds held)
    (hp : ProperUpdate env held current added removed) :
    ∃ searchers', searchers.mapM (·.update env current added removed) = some searchers' ∧
      (∀ c ∈ searchers', c.Holds (heldAfter held added removed)) ∧
      searchers'.length = searchers.length ∧
      ((∃ c ∈ searchers', c.IsRandomPath) → ∃ c ∈ searchers, c.IsRandomPath) := by
  induction searchers with
  | nil => exact ⟨[], rfl, fun c hc => absurd hc List.not_mem_nil, rfl, id⟩
  | cons c searchers ih =>
    obtain ⟨c', hc', hholds, hkind⟩ := update_holds (h c List.mem_cons_self) hp
    obtain ⟨l, hl, hall, hlen, hkinds⟩ := ih fun c hc => h c (List.mem_cons_of_mem _ hc)
    refine ⟨c' :: l, ?_, List.forall_mem_cons.mpr ⟨hholds, hall⟩, congrArg (· + 1) hlen, ?_⟩
    · rw [List.mapM_cons, hc', hl]
      rfl
    · rw [List.exists_mem_cons_iff, List.exists_mem_cons_iff]
      exact Or.imp hkind hkinds

/-- A state that is kept is forgotten when it is removed. -/
theorem kept_after {lastState : Option StateId} (hlast : ∀ es ∈ lastState, es ∈ held) :
    ∀ es ∈ (if ∃ es ∈ lastState, es ∈ removed then none else lastState : Option StateId),
      es ∈ heldAfter held added removed := by
  intro es hes
  split at hes
  · cases hes
  · next hnot =>
    exact Finset.mem_sdiff.mpr ⟨Finset.mem_union_left _ (hlast es hes),
      fun hrem => hnot ⟨es, hes, List.mem_toFinset.mp hrem⟩⟩

theorem update_holds {s : SearcherChain} (h : s.Holds held)
    (hp : ProperUpdate env held current added removed) :
    ∃ s', s.update env current added removed = some s' ∧
      s'.Holds (heldAfter held added removed) ∧ (s'.UsesRandomPath → s.UsesRandomPath) := by
  induction s with
  | core searcher =>
    obtain ⟨c', hc', hholds, hkind⟩ := CoreSearcher.update_holds h hp
    refine ⟨.core c', by rw [update, hc']; rfl, hholds, fun hpath => ?_⟩
    obtain ⟨c, hc, hrandom⟩ := hpath
    exact ⟨searcher, List.mem_singleton.mpr rfl, hkind (List.mem_singleton.mp hc ▸ hrandom)⟩
  | interleaved searchers index =>
    obtain ⟨hall, hpos, hle⟩ := h
    obtain ⟨l, hl, hall', hlen, hkinds⟩ := exists_mapM_update hall hp
    exact ⟨.interleaved l index, by rw [update, hl]; rfl, ⟨hall', hpos, hlen ▸ hle⟩, hkinds⟩
  | getFeatures b featureIndex ih =>
    obtain ⟨b', hb', hholds, hkinds⟩ := ih h
    exact ⟨.getFeatures b' featureIndex, by rw [update, hb']; rfl, hholds, hkinds⟩
  | branching b lastState ih =>
    obtain ⟨hb, hlast⟩ := h
    obtain ⟨b', hb', hholds, hkinds⟩ := ih hb
    refine ⟨.branching b' (if current.isSome ∧ added ≠ [] then none
      else if ∃ es ∈ lastState, es ∈ removed then none else lastState), by rw [update, hb']; rfl,
      ⟨hholds, fun es hes => ?_⟩, hkinds⟩
    split at hes
    · cases hes
    · exact kept_after hlast es hes
  | batching b timeBudget instructionBudget lastState lastStartTime lastStartInstructions ih =>
    obtain ⟨hb, hlast⟩ := h
    obtain ⟨b', hb', hholds, hkinds⟩ := ih hb
    exact ⟨.batching b' timeBudget instructionBudget
      (if ∃ es ∈ lastState, es ∈ removed then none else lastState) lastStartTime
      lastStartInstructions, by rw [update, hb']; rfl, ⟨hholds, kept_after hlast⟩, hkinds⟩

theorem empty_eq {s : SearcherChain} (h : s.Holds held) (hpath : ¬ s.UsesRandomPath) :
    s.empty env = some (decide (held = ∅)) := by
  induction s with
  | core searcher =>
    rw [empty, CoreSearcher.empty_eq h fun hc => hpath ⟨searcher, List.mem_singleton.mpr rfl, hc⟩]
  | interleaved searchers index =>
    obtain ⟨hall, hpos, hle⟩ := h
    cases searchers with
    | nil => exact absurd (hpos.trans hle) (by simp)
    | cons c searchers =>
      rw [empty, List.head?_cons, Option.map_some, CoreSearcher.empty_eq
        (hall c List.mem_cons_self) fun hc => hpath ⟨c, List.mem_cons_self, hc⟩]
  | getFeatures b featureIndex ih => exact ih h hpath
  | branching b lastState ih => exact ih h.1 hpath
  | batching b _ _ _ _ _ ih => exact ih h.1 hpath

end Update

section Select

theorem countSubpaths_eq {es : StateId} (h : es ∈ env.allocated) (data : SearchData) :
    ∃ data', countSubpaths env es data = some data' ∧ SameFeatures data data' := by
  suffices hgen : ∀ (l : List Nat) (data : SearchData), ∃ data', l.foldlM (fun data index => do
      return SearchEnv.incSubpath data (← env.getSubpath es index) index) data = some data' ∧
      SameFeatures data data' from hgen _ data
  intro l
  induction l with
  | nil => exact fun data => ⟨data, rfl, rfl, rfl⟩
  | cons index l ih =>
    intro data
    obtain ⟨subpath, hsub⟩ := getSubpath_eq h index
    obtain ⟨data', hdata', hf, hs⟩ := ih (SearchEnv.incSubpath data subpath index)
    refine ⟨data', ?_, hf, hs⟩
    rw [List.foldlM_cons, hsub]
    exact hdata'

theorem refreshFeatures_eq (h : data.featureStates ⊆ env.allocated) :
    ∃ data', refreshFeatures env data = some data' ∧ data'.features = data.features ∧
      data'.featureStates = ∅ := by
  rw [refreshFeatures, guard, if_pos h]
  exact ⟨_, rfl, rfl, rfl⟩

theorem selectState_holds (scale : Span → Span) {s : SearcherChain} (h : s.Holds held)
    (hne : held.Nonempty) (hacc : held ⊆ env.allocated)
    (htree : s.UsesRandomPath → HasTree env held) (hwait : data.featureStates ⊆ env.allocated) :
    ∃ es ∈ held, ∃ s' data', s.selectState env scale data = some (es, s', data') ∧
      s'.Holds held ∧ (s'.UsesRandomPath → s.UsesRandomPath) ∧
      data'.featureStates ⊆ data.featureStates := by
  induction s generalizing data with
  | core searcher =>
    obtain ⟨es, hes, data', hsel, hsame⟩ := CoreSearcher.selectState_holds h hne hacc
      (fun hc => htree ⟨searcher, List.mem_singleton.mpr rfl, hc⟩) data
    exact ⟨es, hes, .core searcher, data', by rw [selectState, hsel]; rfl, h, id, hsame.2.subset⟩
  | interleaved searchers index =>
    obtain ⟨hall, hpos, hle⟩ := h
    have hlt : index - 1 < searchers.length := by omega
    obtain ⟨es, hes, data', hsel, hsame⟩ := CoreSearcher.selectState_holds
      (hall _ (List.getElem_mem hlt)) hne hacc (fun hc => htree ⟨_, List.getElem_mem hlt, hc⟩) data
    refine ⟨es, hes, .interleaved searchers
      (if index - 1 = 0 then searchers.length else index - 1), data', ?_, ⟨hall, ?_⟩, id,
      hsame.2.subset⟩
    · rw [selectState, List.getElem?_eq_getElem hlt, Option.bind_eq_bind, Option.bind_some, hsel]
      rfl
    · split <;> omega
  | getFeatures b featureIndex ih =>
    obtain ⟨data₁, hrefresh, -, hnone⟩ := refreshFeatures_eq hwait
    obtain ⟨es, hes, b', data', hsel, hholds, hkinds, hsub⟩ :=
      ih h htree (hnone ▸ Finset.empty_subset _)
    rw [hnone] at hsub
    obtain ⟨data'', hcount, hsame⟩ := countSubpaths_eq (hacc hes) (addRow data' es featureIndex)
    refine ⟨es, hes, .getFeatures b' (featureIndex + 1), data'', ?_, hholds, hkinds, ?_⟩
    · simp only [selectState, hrefresh, hsel, hcount, Option.bind_eq_bind, Option.bind_some,
        Option.pure_def]
    · rw [hsame.2]
      exact hsub.trans (Finset.empty_subset _)
  | branching b lastState ih =>
    obtain ⟨hb, hlast⟩ := h
    cases lastState with
    | some es => exact ⟨es, hlast es rfl, _, data, rfl, ⟨hb, hlast⟩, id, subset_rfl⟩
    | none =>
      obtain ⟨es, hes, b', data', hsel, hholds, hkinds, hsub⟩ := ih hb htree hwait
      refine ⟨es, hes, .branching b' (some es), data', ?_, ⟨hholds, ?_⟩, hkinds, hsub⟩
      · simp only [selectState, hsel, Option.bind_eq_bind, Option.bind_some, access_eq (hacc hes),
          Option.pure_def]
      · rintro a ⟨⟩
        exact hes
  | batching b timeBudget instructionBudget lastState lastStartTime lastStartInstructions ih =>
    obtain ⟨hb, hlast⟩ := h
    rw [selectState]
    split
    · obtain ⟨es, hes, b', data', hsel, hholds, hkinds, hsub⟩ := ih hb htree hwait
      refine ⟨es, hes, .batching b' (if lastState.isSome then
        increaseBudget scale timeBudget (env.wallTime - lastStartTime) else timeBudget)
        instructionBudget (some es) env.wallTime (env.instructions.setWidth 32), data',
        by rw [hsel]; rfl, ⟨hholds, ?_⟩, hkinds, hsub⟩
      rintro a ⟨⟩
      exact hes
    · next hnot =>
      obtain ⟨es, rfl⟩ := Option.ne_none_iff_exists'.mp fun hnone => hnot (.inl hnone)
      exact ⟨es, hlast es rfl, _, data, rfl, ⟨hb, hlast⟩, id, subset_rfl⟩

end Select

end SearcherChain

namespace UserSearcher

open CoreSearcher SearcherChain IterativeDeepeningTimeSearcher

variable {env : SearchEnv} {live : Finset StateId} {current : Option StateId}
  {added removed : List StateId} {data : SearchData}

def base : UserSearcher → SearcherChain
  | .chain searcher => searcher
  | .iterativeDeepening s => s.baseSearcher

def pausedStates : UserSearcher → Finset StateId
  | .chain _ => ∅
  | .iterativeDeepening s => s.pausedStates

section Parts

variable (searcher : SearcherChain) (s : IterativeDeepeningTimeSearcher StateId SearcherChain)

@[simp] theorem base_chain : (chain searcher).base = searcher := rfl

@[simp] theorem base_iterativeDeepening : (iterativeDeepening s).base = s.baseSearcher := rfl

@[simp] theorem pausedStates_chain : (chain searcher).pausedStates = ∅ := rfl

@[simp] theorem pausedStates_iterativeDeepening :
    (iterativeDeepening s).pausedStates = s.pausedStates := rfl

end Parts

/-- A state that is paused is not known to the chain, which a random path does not respect. -/
def Respects : UserSearcher → Prop
  | .chain _ => True
  | .iterativeDeepening s => ¬ s.baseSearcher.UsesRandomPath

/-- The chain holds the live states but for the paused ones, and a state to select. -/
structure Holds (live : Finset StateId) (u : UserSearcher) : Prop where
  base : u.base.Holds (live \ u.pausedStates)
  paused : u.pausedStates ⊆ live
  awake : live.Nonempty → (live \ u.pausedStates).Nonempty
  respects : u.Respects

section Update

variable {s : IterativeDeepeningTimeSearcher StateId SearcherChain}

/-- The states that are left to the chain: the removed ones are not paused any more. -/
theorem heldAfter_paused {paused : Finset StateId} (hpaused : paused ⊆ live)
    (hnew : ∀ es ∈ added, es ∉ live) :
    heldAfter (live \ paused) added (removed.filter fun es => es ∉ paused) =
      heldAfter live added removed \ (paused \ removed.toFinset) := by
  ext es
  have := @hpaused es
  have := hnew es
  simp only [heldAfter, Finset.mem_sdiff, Finset.mem_union, List.mem_toFinset, List.mem_filter,
    decide_eq_true_eq]
  tauto

theorem pause_holds (s : IterativeDeepeningTimeSearcher StateId SearcherChain)
    (hbase : s.baseSearcher.Holds (live \ s.pausedStates))
    (hpaused : s.pausedStates ⊆ live)
    (hcurrent : ∀ es ∈ current, es ∉ removed → es ∈ live \ s.pausedStates)
    (hacc : live ⊆ env.allocated) (elapsed : Span) :
    ∃ s', pause env s current removed elapsed = some s' ∧
      s'.baseSearcher.Holds (live \ s'.pausedStates) ∧ s'.pausedStates ⊆ live ∧
      (s'.baseSearcher.UsesRandomPath → s.baseSearcher.UsesRandomPath) := by
  cases current with
  | none => exact ⟨s, rfl, hbase, hpaused, id⟩
  | some es =>
    rw [UserSearcher.pause]
    split
    · next hcond =>
      have hes := hcurrent es rfl hcond.1
      have hp : ProperUpdate env (live \ s.pausedStates) none [] [es] :=
        { nodup := List.nodup_nil
          nodupRemoved := List.nodup_singleton es
          new := fun a ha => absurd ha List.not_mem_nil
          current := fun a ha => nomatch ha
          removed := fun a ha => Finset.mem_union_left _ (List.mem_singleton.mp ha ▸ hes)
          allocated := by
            rw [List.toFinset_nil, Finset.union_empty]
            exact Finset.sdiff_subset.trans hacc }
      obtain ⟨b, hb, hholds, hkinds⟩ :=
        SearcherChain.update_holds hbase hp
      refine ⟨_, by rw [hb]; rfl, ?_, ?_, hkinds⟩
      · have heq : heldAfter (live \ s.pausedStates) [] [es] =
            live \ insert es s.pausedStates := by
          ext a
          simp only [heldAfter, Finset.mem_sdiff, Finset.mem_union, List.mem_toFinset,
            List.mem_singleton, List.not_mem_nil, or_false, Finset.mem_insert]
          tauto
        rwa [heq] at hholds
      · exact Finset.insert_subset (Finset.mem_sdiff.mp hes).1 hpaused
    · exact ⟨s, rfl, hbase, hpaused, id⟩

theorem refill_holds (hbase : s.baseSearcher.Holds (live \ s.pausedStates))
    (hpaused : s.pausedStates ⊆ live) (hpath : ¬ s.baseSearcher.UsesRandomPath)
    (hacc : live ⊆ env.allocated) :
    ∃ s', refill env s = some s' ∧ Holds live (.iterativeDeepening s') := by
  rw [UserSearcher.refill, SearcherChain.empty_eq hbase hpath, Option.bind_eq_bind,
    Option.bind_some]
  by_cases hempty : live \ s.pausedStates = ∅
  · have hlive : live = s.pausedStates :=
      (Finset.sdiff_eq_empty_iff_subset.mp hempty).antisymm hpaused
    rw [hempty] at hbase
    have hp : ProperUpdate env ∅ none (s.pausedStates.sort (· ≤ ·)) [] :=
      { nodup := Finset.sort_nodup s.pausedStates (· ≤ ·)
        nodupRemoved := List.nodup_nil
        new := fun a _ => Finset.notMem_empty a
        current := fun a ha => nomatch ha
        removed := fun a ha => absurd ha List.not_mem_nil
        allocated := by
          rw [Finset.sort_toFinset, Finset.empty_union]
          exact hpaused.trans hacc }
    obtain ⟨b, hb, hholds, hkinds⟩ := SearcherChain.update_holds hbase hp
    have heq : heldAfter ∅ (s.pausedStates.sort (· ≤ ·)) [] = live := by
      rw [heldAfter, Finset.sort_toFinset, Finset.empty_union, List.toFinset_nil,
        Finset.sdiff_empty, hlive]
    rw [heq] at hholds
    refine ⟨{ s with baseSearcher := b, time := s.time * 2, pausedStates := ∅ },
      by simp [hempty, hb], ⟨?_, Finset.empty_subset _, fun h => ?_,
        fun h => hpath (hkinds h)⟩⟩
    · exact (Finset.sdiff_empty (s := live)).symm ▸ hholds
    · exact (Finset.sdiff_empty (s := live)).symm ▸ h
  · exact ⟨s, by simp [hempty], ⟨hbase, hpaused,
      fun _ => Finset.nonempty_iff_ne_empty.mpr hempty, hpath⟩⟩

theorem update_holds {u : UserSearcher} (h : u.Holds live)
    (hp : ProperUpdate env live current added removed)
    (hcurrent : ∀ es ∈ current, es ∉ u.pausedStates) :
    ∃ u', u.update env current added removed = some u' ∧
      u'.Holds (heldAfter live added removed) := by
  cases u with
  | chain s =>
    have hbase : s.Holds live := by simpa using h.base
    obtain ⟨s', hs', hholds, -⟩ := SearcherChain.update_holds hbase hp
    exact ⟨.chain s', by rw [update, hs']; rfl,
      by simpa using hholds, Finset.empty_subset _, fun hne => by simpa using hne, trivial⟩
  | iterativeDeepening s =>
    have hhalt : removed.filter (fun es => es ∉ s.pausedStates ∨ es ∉ removed) =
        removed.filter fun es => es ∉ s.pausedStates :=
      List.filter_congr fun es hes => by simp [hes]
    have hbase : ProperUpdate env (live \ s.pausedStates) current added
        (removed.filter fun es => es ∉ s.pausedStates) :=
      { nodup := hp.nodup
        nodupRemoved := hp.nodupRemoved.filter _
        new := fun es hes hmem => hp.new es hes (Finset.mem_sdiff.mp hmem).1
        current := fun es hes => Finset.mem_sdiff.mpr ⟨hp.current es hes, hcurrent es hes⟩
        removed := fun es hes => by
          obtain ⟨hes, hnot⟩ := List.mem_filter.mp hes
          rcases Finset.mem_union.mp (hp.removed es hes) with hmem | hmem
          · exact Finset.mem_union_left _ (Finset.mem_sdiff.mpr ⟨hmem, of_decide_eq_true hnot⟩)
          · exact Finset.mem_union_right _ hmem
        allocated := (Finset.union_subset_union_left Finset.sdiff_subset).trans hp.allocated }
    obtain ⟨b, hb, hholds, hkinds⟩ := SearcherChain.update_holds h.base hbase
    have hpaused : s.pausedStates ⊆ live := h.paused
    simp only [base_iterativeDeepening] at hb hkinds
    rw [pausedStates_iterativeDeepening, heldAfter_paused hpaused hp.new] at hholds
    have hacc : heldAfter live added removed ⊆ env.allocated :=
      Finset.sdiff_subset.trans hp.allocated
    have hpath : ¬ b.UsesRandomPath := fun hb => h.respects (hkinds hb)
    obtain ⟨s₁, hs₁, hbase₁, hpaused₁, hkinds₁⟩ := pause_holds
      { s with baseSearcher := b, pausedStates := s.pausedStates \ removed.toFinset } hholds
      (fun es hes => Finset.mem_sdiff.mpr ⟨Finset.mem_union_left _
        (hpaused (Finset.mem_sdiff.mp hes).1), (Finset.mem_sdiff.mp hes).2⟩)
      (fun es hes hnot => Finset.mem_sdiff.mpr ⟨Finset.mem_sdiff.mpr
        ⟨Finset.mem_union_left _ (hp.current es hes), fun hrem => hnot (List.mem_toFinset.mp hrem)⟩,
        fun hpause => hcurrent es hes (Finset.mem_sdiff.mp hpause).1⟩)
      hacc (env.wallTime - s.startTime)
    obtain ⟨s', hs', hholds'⟩ := refill_holds hbase₁ hpaused₁
      (fun hb => hpath (hkinds₁ hb)) hacc
    refine ⟨.iterativeDeepening s', ?_, hholds'⟩
    simp only [update, foldl_erasePaused, hhalt, hb, hs₁, hs', Option.bind_eq_bind,
      Option.bind_some, Option.pure_def]

end Update

theorem selectState_holds (scale : Span → Span) {u : UserSearcher} (h : u.Holds live)
    (hne : live.Nonempty) (hacc : live ⊆ env.allocated) (htree : HasTree env live)
    (hwait : data.featureStates ⊆ env.allocated) :
    ∃ es ∈ live, es ∉ u.pausedStates ∧ ∃ u' data',
      u.selectState env scale data = some (es, u', data') ∧ u'.Holds live ∧
      u'.pausedStates = u.pausedStates ∧ data'.featureStates ⊆ data.featureStates := by
  have htree' : u.base.UsesRandomPath → HasTree env (live \ u.pausedStates) := by
    intro hpath
    cases u with
    | chain s => simpa using htree
    | iterativeDeepening s => exact absurd hpath h.respects
  obtain ⟨es, hes, s', data', hsel, hholds, hkinds, hsub⟩ := SearcherChain.selectState_holds scale
    h.base (h.awake hne) (Finset.sdiff_subset.trans hacc) htree' hwait
  obtain ⟨hes, hpaused⟩ := Finset.mem_sdiff.mp hes
  refine ⟨es, hes, hpaused, ?_⟩
  cases u with
  | chain s =>
    rw [base_chain] at hsel
    exact ⟨.chain s', data', by rw [selectState, hsel]; rfl,
      ⟨hholds, Finset.empty_subset _, h.awake, trivial⟩, rfl, hsub⟩
  | iterativeDeepening s =>
    rw [base_iterativeDeepening] at hsel
    exact ⟨.iterativeDeepening { s with baseSearcher := s', startTime := env.wallTime }, data',
      by rw [selectState, hsel]; rfl,
      ⟨hholds, h.paused, h.awake, fun hb => h.respects (hkinds hb)⟩, rfl, hsub⟩

end UserSearcher

end Klee
