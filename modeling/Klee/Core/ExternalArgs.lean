import Klee.Core.ByteMemory
import Klee.Expr.Constant
import Klee.Lib.DataLayout

/-! The arguments of an external call: the loop of `callExternalFunction` that stores them as
words, and the stub of `createDispatcher` that loads them. -/
namespace Klee

open LLVM

/-- `ConstantExpr::toMemory` on a host whose words are little-endian; `none` for the assertion
"invalid type". -/
def ConstantExpr.toMemory (m : ByteMemory) (address : Nat) (c : ConstantExpr) : Option ByteMemory :=
  if c.width ∈ [1, 8, 16, 32, 64, 80] then some (m.write true address c.value) else none

def ConstantExpr.fromMemoryBytes (width : Nat) : Nat :=
  if width = 1 ∨ width = 8 then 1
  else if width = 16 then 2
  else if width = 32 then 4
  else if width = 64 then 8
  else 8 * ((width + 63) / 64)

def primitiveSizeInBits : LLVMType → Nat
  | .integer width => width
  | .floating kind => kind.width
  | .vector n element => n * primitiveSizeInBits element
  | _ => 0

namespace Executor

def storeArguments : ByteMemory → Nat → List ConstantExpr → Option (List Nat × ByteMemory)
  | args, _, [] => some ([], args)
  | args, wordIndex, ce :: rest => do
    let args ← ce.toMemory args (8 * wordIndex)
    let (words, args) ← storeArguments args (wordIndex + (ce.width + 63) / 64) rest
    pure (wordIndex :: words, args)

end Executor

namespace ExternalDispatcher

def argumentLoads : Nat → List LLVMType → List (Nat × LLVMType)
  | _, [] => []
  | idx, argTy :: rest =>
    let argSize := primitiveSizeInBits argTy
    (idx, argTy) :: argumentLoads (idx + ((if argSize ≠ 0 then argSize else 64) + 63) / 64) rest

end ExternalDispatcher

namespace ExternalArgs

variable (dl : DataLayout)

/-- The buffer of a call with `n` arguments, in bytes. -/
def bufferSize (n : Nat) : Nat := 8 * (2 * (n + 1))

/-- The arguments are stored at the words from which the stub loads them, and are there when it
does. Its loads, the stores, the result that it stores and the read of this stay in the buffer. -/
def Marshalled (argTys : List LLVMType) (result : Option LLVMType)
    (arguments : List ConstantExpr) : Prop :=
  ∃ words args, Executor.storeArguments (fun _ => 0) 2 arguments = some (words, args) ∧
    words = (ExternalDispatcher.argumentLoads 2 argTys).map (·.1) ∧
    (∀ p ∈ words.zip arguments, args.read true (8 * p.1) p.2.width = p.2.value ∧
      8 * (p.1 + (p.2.width + 63) / 64) ≤ bufferSize arguments.length) ∧
    (∀ p ∈ ExternalDispatcher.argumentLoads 2 argTys,
      8 * p.1 + dl.storeSize p.2 ≤ bufferSize arguments.length) ∧
    ∀ t ∈ result, dl.storeSize t ≤ bufferSize arguments.length ∧
      ConstantExpr.fromMemoryBytes (dl.sizeInBits t) ≤ bufferSize arguments.length

/-- Every argument has a width that `toMemory` writes, none but the last is an aggregate of 80
bits, and the result is no larger than the buffer. -/
structure Fit (argTys : List LLVMType) (result : Option LLVMType) : Prop where
  widths : ∀ t ∈ argTys, dl.sizeInBits t ∈ [1, 8, 16, 32, 64, 80]
  aggregates : ∀ t ∈ argTys.dropLast, primitiveSizeInBits t = 0 → dl.sizeInBits t ≠ 80
  result : ∀ t ∈ result, (dl.sizeInBits t + 63) / 64 ≤ 2 * (argTys.length + 1)

end ExternalArgs

end Klee

/-! The words of the arguments of an external call. -/
namespace Klee

open LLVM

namespace ExternalArgs

variable {dl : DataLayout} {argTys : List LLVMType} {result : Option LLVMType}
  {arguments : List ConstantExpr}

section Words

def wordsFrom : Nat → List Nat → List Nat
  | _, [] => []
  | k, size :: sizes => k :: wordsFrom (k + size) sizes

theorem wordsFrom_cons (k size : Nat) (sizes : List Nat) :
    wordsFrom k (size :: sizes) = k :: wordsFrom (k + size) sizes := rfl

/-- The size of the last item does not matter. -/
theorem wordsFrom_inj {xs ys : List Nat} (hlen : xs.length = ys.length) (k : Nat) :
    wordsFrom k xs = wordsFrom k ys ↔ xs.dropLast = ys.dropLast := by
  induction xs generalizing ys k with
  | nil =>
    obtain rfl := List.eq_nil_of_length_eq_zero hlen.symm
    exact ⟨fun _ => rfl, fun _ => rfl⟩
  | cons x xs ih =>
    obtain ⟨y, ys, rfl⟩ := List.exists_cons_of_length_eq_add_one hlen.symm
    have hlen' := Nat.succ.inj hlen
    cases xs with
    | nil =>
      obtain rfl := List.eq_nil_of_length_eq_zero hlen'.symm
      exact ⟨fun _ => rfl, fun _ => rfl⟩
    | cons x' xs =>
      obtain ⟨y', ys, rfl⟩ := List.exists_cons_of_length_eq_add_one hlen'.symm
      have hrest (h : x = y) : wordsFrom (k + x) (x' :: xs) = wordsFrom (k + y) (y' :: ys) ↔
          (x' :: xs).dropLast = (y' :: ys).dropLast := by
        rw [h]
        exact ih hlen' (k + y)
      rw [List.dropLast_cons_cons, List.dropLast_cons_cons, List.cons.injEq, wordsFrom_cons k x,
        wordsFrom_cons k y, List.cons.injEq]
      constructor
      · rintro ⟨-, hwords⟩
        have hhead : x = y := Nat.add_left_cancel (List.cons.inj hwords).1
        exact ⟨hhead, (hrest hhead).mp hwords⟩
      · rintro ⟨hhead, hdrop⟩
        exact ⟨rfl, (hrest hhead).mpr hdrop⟩

theorem length_wordsFrom (k : Nat) (sizes : List Nat) :
    (wordsFrom k sizes).length = sizes.length := by
  induction sizes generalizing k with
  | nil => rfl
  | cons size sizes ih => rw [wordsFrom_cons, List.length_cons, ih, List.length_cons]

/-- Items of at most two words are in the buffer. -/
theorem wordsFrom_le {α : Type} {size : α → Nat} {items : List α}
    (hsize : ∀ a ∈ items, size a ≤ 2) (k : Nat) :
    ∀ p ∈ (wordsFrom k (items.map size)).zip items, p.1 + size p.2 ≤ k + 2 * items.length := by
  induction items generalizing k with
  | nil => exact fun p hp => absurd hp List.not_mem_nil
  | cons a items ih =>
    have ha := hsize a List.mem_cons_self
    rw [List.map_cons, wordsFrom_cons, List.zip_cons_cons, List.length_cons]
    intro p hp
    rcases List.mem_cons.mp hp with rfl | hp
    · change k + size a ≤ _
      omega
    · have := ih (fun b hb => hsize b (List.mem_cons_of_mem _ hb)) (k + size a) p hp
      omega

end Words

section Loads

def stubWords (t : LLVMType) : Nat :=
  ((if primitiveSizeInBits t ≠ 0 then primitiveSizeInBits t else 64) + 63) / 64

theorem argumentLoads_eq (idx : Nat) (argTys : List LLVMType) :
    ExternalDispatcher.argumentLoads idx argTys =
      (wordsFrom idx (argTys.map stubWords)).zip argTys := by
  induction argTys generalizing idx with
  | nil => rfl
  | cons argTy rest ih =>
    rw [ExternalDispatcher.argumentLoads, ih]
    rfl

theorem primitiveSizeInBits_eq : ∀ {t : LLVMType}, primitiveSizeInBits t ≠ 0 →
    primitiveSizeInBits t = dl.sizeInBits t
  | .integer _, _ => rfl
  | .floating _, _ => rfl
  | .pointer, h => absurd rfl h
  | .array .., h => absurd rfl h
  | .struct .., h => absurd rfl h
  | .vector n element, h => by
    have helement : primitiveSizeInBits element ≠ 0 := fun h0 =>
      h (by simp [primitiveSizeInBits, h0])
    rw [primitiveSizeInBits, DataLayout.sizeInBits, primitiveSizeInBits_eq helement]

/-- The stub leaves one word for an aggregate. -/
theorem words_eq_stubWords_iff {t : LLVMType} (h : dl.sizeInBits t ∈ [1, 8, 16, 32, 64, 80]) :
    (dl.sizeInBits t + 63) / 64 = stubWords t ↔
      (primitiveSizeInBits t = 0 → dl.sizeInBits t ≠ 80) := by
  unfold stubWords
  simp only [List.mem_cons, List.not_mem_nil, or_false] at h
  split
  case isTrue hne =>
    have heq : primitiveSizeInBits t = dl.sizeInBits t := primitiveSizeInBits_eq hne
    rw [heq]
    exact ⟨fun _ h0 => absurd (heq.trans h0) hne, fun _ => rfl⟩
  case isFalse h0 =>
    rw [not_not] at h0
    constructor
    · intro hwords _ h80
      omega
    · intro h80
      have := h80 h0
      omega

end Loads

section Stores

/-- Supported widths, and only those, are stored. Each argument can be read at its word, and no
byte below the first one is changed. -/
theorem storeArguments_spec (args : ByteMemory) (k : Nat) (arguments : List ConstantExpr) :
    (Executor.storeArguments args k arguments = none ∧
      ∃ c ∈ arguments, c.width ∉ [1, 8, 16, 32, 64, 80]) ∨
    (∀ c ∈ arguments, c.width ∈ [1, 8, 16, 32, 64, 80]) ∧
      ∃ words args', Executor.storeArguments args k arguments = some (words, args') ∧
        words = wordsFrom k (arguments.map fun c => (c.width + 63) / 64) ∧
        (∀ a < 8 * k, args' a = args a) ∧
        ∀ p ∈ words.zip arguments, args'.read true (8 * p.1) p.2.width = p.2.value := by
  induction arguments generalizing args k with
  | nil => exact .inr ⟨by simp, [], args, rfl, rfl, fun _ _ => rfl, by simp⟩
  | cons c rest ih =>
    by_cases hwidth : c.width ∈ [1, 8, 16, 32, 64, 80]
    · rw [Executor.storeArguments, ConstantExpr.toMemory, if_pos hwidth]
      have hvalid : ByteMemory.ValidWidth c.width := by
        simp only [List.mem_cons, List.not_mem_nil, or_false] at hwidth
        rcases hwidth with h | h | h | h | h | h
        · exact .inl h
        all_goals exact .inr ⟨c.width / 8 - 1, by omega⟩
      have hbytes : ByteMemory.numBytes c.width ≤ 8 * ((c.width + 63) / 64) := by
        unfold ByteMemory.numBytes
        split <;> omega
      rcases ih (args.write true (8 * k) c.value) (k + (c.width + 63) / 64) with
        ⟨hnone, d, hd, hd'⟩ | ⟨hall, words, args', hrun, hwords, hsame, hread⟩
      · refine .inl ⟨?_, d, List.mem_cons_of_mem _ hd, hd'⟩
        simp only [Option.bind_eq_bind, Option.bind_some, hnone, Option.bind_none]
      · refine .inr ⟨fun d hd => ?_, k :: words, args', ?_, by rw [hwords]; rfl, fun a ha => ?_, ?_⟩
        · rcases List.mem_cons.mp hd with rfl | hd
          · exact hwidth
          · exact hall d hd
        · simp only [Option.bind_eq_bind, Option.bind_some, hrun, Option.pure_def]
        · rw [hsame a (by omega)]
          exact ByteMemory.write_of_notMem _ (.inl ha)
        · rw [List.zip_cons_cons]
          intro p hp
          rcases List.mem_cons.mp hp with rfl | hp
          · rw [← ByteMemory.read_write (m := args) hvalid c.value]
            refine ByteMemory.read_congr hvalid fun i (hi : i < ByteMemory.numBytes c.width) => ?_
            exact hsame _ (by dsimp only; omega)
          · exact hread p hp
    · refine .inl ⟨?_, c, List.mem_cons_self, hwidth⟩
      rw [Executor.storeArguments, ConstantExpr.toMemory, if_neg hwidth]
      rfl

end Stores

section Marshalled

variable (dl) in
theorem storeSize_le (t : LLVMType) : dl.storeSize t ≤ 8 * ((dl.sizeInBits t + 63) / 64) := by
  unfold DataLayout.storeSize DataLayout.bytesOf
  omega

theorem fromMemoryBytes_le_iff {width n : Nat} (hn : 0 < n) :
    ConstantExpr.fromMemoryBytes width ≤ 8 * n ↔ (width + 63) / 64 ≤ n := by
  unfold ConstantExpr.fromMemoryBytes
  split_ifs <;> omega

/-- The stub finds the arguments of a call in the buffer if and only if they fit. -/
theorem marshalled_iff_fit (dl : DataLayout) (argTys : List LLVMType) (result : Option LLVMType)
    (arguments : List ConstantExpr)
    (h : arguments.map (·.width) = argTys.map dl.sizeInBits) :
    Marshalled dl argTys result arguments ↔ Fit dl argTys result := by
  have hlen : arguments.length = argTys.length := by
    simpa only [List.length_map] using congrArg List.length h
  have hwidths : (∀ c ∈ arguments, c.width ∈ [1, 8, 16, 32, 64, 80]) ↔
      ∀ t ∈ argTys, dl.sizeInBits t ∈ [1, 8, 16, 32, 64, 80] := by
    rw [← List.forall_mem_map (f := fun c : ConstantExpr => c.width)
      (P := fun w => w ∈ [1, 8, 16, 32, 64, 80]), h, List.forall_mem_map]
  have hsizes : (arguments.map fun c => (c.width + 63) / 64) =
      argTys.map fun t => (dl.sizeInBits t + 63) / 64 := by
    have hmap := congrArg (List.map fun w => (w + 63) / 64) h
    rwa [List.map_map, List.map_map] at hmap
  have hstub : (ExternalDispatcher.argumentLoads 2 argTys).map (·.1) =
      wordsFrom 2 (argTys.map stubWords) := by
    rw [argumentLoads_eq, List.map_fst_zip]
    rw [length_wordsFrom, List.length_map]
  have hwords (hall : ∀ t ∈ argTys, dl.sizeInBits t ∈ [1, 8, 16, 32, 64, 80]) :
      wordsFrom 2 (arguments.map fun c => (c.width + 63) / 64) =
        (ExternalDispatcher.argumentLoads 2 argTys).map (·.1) ↔
      ∀ t ∈ argTys.dropLast, primitiveSizeInBits t = 0 → dl.sizeInBits t ≠ 80 := by
    rw [hstub, hsizes, wordsFrom_inj (by rw [List.length_map, List.length_map]), ← List.map_dropLast,
      ← List.map_dropLast, List.map_inj_left]
    exact forall₂_congr fun t ht => words_eq_stubWords_iff (hall t (List.mem_of_mem_dropLast ht))
  rcases storeArguments_spec (fun _ => 0) 2 arguments with
    ⟨hnone, c, hc, hwidth⟩ | ⟨hall, words, args, hrun, hstored, -, hread⟩
  · refine ⟨fun hmarshalled => ?_, fun hfit => absurd (hwidths.mpr hfit.widths c hc) hwidth⟩
    obtain ⟨words, args, hrun, -⟩ := hmarshalled
    cases hnone.symm.trans hrun
  have htypes := hwidths.mp hall
  have hsmall : ∀ c ∈ arguments, (c.width + 63) / 64 ≤ 2 := by
    intro c hc
    have hwidth := hall c hc
    simp only [List.mem_cons, List.not_mem_nil, or_false] at hwidth
    omega
  constructor
  · rintro ⟨words', args', hrun', hloads, -, -, hresult⟩
    obtain ⟨rfl, rfl⟩ := Prod.mk.inj (Option.some.inj (hrun.symm.trans hrun'))
    refine ⟨htypes, (hwords htypes).mp (hstored.symm.trans hloads), fun t ht => ?_⟩
    rw [← hlen]
    exact (fromMemoryBytes_le_iff (Nat.mul_pos Nat.two_pos (Nat.succ_pos _))).mp (hresult t ht).2
  · intro hfit
    have hloads := hstored.trans ((hwords htypes).mpr hfit.aggregates)
    refine ⟨words, args, hrun, hloads, fun p hp => ⟨hread p hp, ?_⟩, fun p hp => ?_, fun t ht => ?_⟩
    · have := wordsFrom_le hsmall 2 p (hstored ▸ hp)
      unfold bufferSize
      omega
    · -- the loads are at the words of the stores
      rw [argumentLoads_eq, ← hstub, ← hloads, hstored, hsizes] at hp
      have hsmall' : ∀ t ∈ argTys, (dl.sizeInBits t + 63) / 64 ≤ 2 := by
        intro t ht
        have hwidth := htypes t ht
        simp only [List.mem_cons, List.not_mem_nil, or_false] at hwidth
        omega
      have hle := wordsFrom_le hsmall' 2 p hp
      have hstore := storeSize_le dl p.2
      unfold bufferSize
      omega
    · have hle := hfit.result t ht
      have hstore := storeSize_le dl t
      rw [← hlen] at hle
      refine ⟨?_, (fromMemoryBytes_le_iff (Nat.mul_pos Nat.two_pos (Nat.succ_pos _))).mpr hle⟩
      unfold bufferSize
      omega

/-- A call `f(i32 7, x86_fp80 1, i8* 4096)` that returns an `i64`. -/
theorem marshalled_fp80 : Marshalled .x86_64 [.integer 32, .floating .x86_fp80, .pointer]
    (some (.integer 64)) [.alloc 7 32, .alloc 1 80, .alloc 4096 64] :=
  (marshalled_iff_fit .x86_64 _ _ _ rfl).mpr ⟨by decide, by decide, by decide⟩

/-- A call `f(<{ i64, i16 }> 1, i32 7)`: the struct is stored as two words, and the stub loads the
next argument from the second. -/
theorem not_marshalled_aggregate :
    [ConstantExpr.alloc 1 80, .alloc 7 32].map (·.width) =
      [LLVMType.struct true [.integer 64, .integer 16], .integer 32].map
        (DataLayout.sizeInBits .x86_64) ∧
    ¬ Marshalled .x86_64 [.struct true [.integer 64, .integer 16], .integer 32] none
      [.alloc 1 80, .alloc 7 32] := by
  refine ⟨by decide, ?_⟩
  rintro ⟨words, args, hrun, hloads, -⟩
  have hwords : (Executor.storeArguments (fun _ => 0) 2
      [.alloc 1 80, .alloc 7 32]).map (·.1) = some [2, 4] := rfl
  rw [hrun, Option.map_some] at hwords
  obtain rfl : words = [2, 4] := Option.some.inj hwords
  exact absurd hloads (by decide)

end Marshalled

end ExternalArgs

end Klee
