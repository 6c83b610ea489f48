import Klee.Core.Fork
import Mathlib.Data.List.TakeWhile

/-! The `.path` file that `processTestCase` writes, `loadPathFile`, and the decisions that `fork`
takes from it. -/
namespace Klee

/-- What is used of an `std::ifstream`: the bytes that are left, `eofbit` and `failbit` -/
structure IStream where
  rest : List UInt8
  eof : Bool
  fail : Bool
deriving DecidableEq

namespace IStream

variable (f : IStream)

def isSpace (c : UInt8) : Bool := c == 32 || (9 ≤ c && c ≤ 13)

def isDigit (c : UInt8) : Bool := 48 ≤ c && c ≤ 57

def good : Bool := !f.eof && !f.fail

/-- The sentry of a formatted input skips white space, and fails at the end of the file. -/
def skipSpace : IStream :=
  if f.good then
    let rest := f.rest.dropWhile isSpace
    ⟨rest, rest.isEmpty, rest.isEmpty⟩
  else { f with fail := true }

def takeSign : List UInt8 → Bool × List UInt8
  | 45 :: rest => (true, rest)
  | 43 :: rest => (false, rest)
  | rest => (false, rest)

/-- `f >> value` for an `unsigned`: what is stored, if the sentry does not fail -/
def readUnsigned : Option (BitVec 32) × IStream :=
  let f := f.skipSpace
  if f.good then
    let (negative, rest) := takeSign f.rest
    let digits := rest.takeWhile isDigit
    let rest := rest.dropWhile isDigit
    let n := digits.foldl (fun n d => 10 * n + (d.toNat - 48)) 0
    let value : BitVec 32 :=
      if 2 ^ 32 ≤ n then BitVec.allOnes 32
      else if negative then -BitVec.ofNat 32 n
      else BitVec.ofNat 32 n
    (some value, ⟨rest, rest.isEmpty, digits.isEmpty || 2 ^ 32 ≤ n⟩)
  else (none, f)

/-- `f.get()`, the result of which is not used -/
def get : IStream :=
  if f.good then
    match f.rest with
    | [] => ⟨[], true, true⟩
    | _ :: rest => { f with rest }
  else { f with fail := true }

def size : ℕ := f.rest.length + if f.good then 1 else 0

theorem length_skipSpace_le : f.skipSpace.rest.length ≤ f.rest.length := by
  unfold skipSpace
  split_ifs
  · exact List.length_dropWhile_le _ _
  · exact le_rfl

theorem length_takeSign_le (bytes : List UInt8) : (takeSign bytes).2.length ≤ bytes.length := by
  unfold takeSign
  split
  · exact Nat.le_succ _
  · exact Nat.le_succ _
  · exact le_rfl

theorem length_readUnsigned_le : f.readUnsigned.2.rest.length ≤ f.rest.length := by
  unfold readUnsigned
  dsimp only
  by_cases hgood : f.skipSpace.good
  · rw [if_pos hgood]
    exact ((List.length_dropWhile_le _ _).trans (length_takeSign_le _)).trans
      f.length_skipSpace_le
  · rw [if_neg hgood]
    exact f.length_skipSpace_le

theorem size_get_le : f.get.size ≤ f.rest.length := by
  unfold get
  split_ifs with hgood
  · cases hrest : f.rest with
    | nil => exact le_rfl
    | cons c rest =>
      dsimp only [size, List.length_cons]
      split_ifs <;> omega
  · simp [size, good]

theorem size_get_readUnsigned_lt (hgood : f.good) : f.readUnsigned.2.get.size < f.size := by
  have hle := (size_get_le f.readUnsigned.2).trans f.length_readUnsigned_le
  have hsize : f.size = f.rest.length + 1 := by rw [size, if_pos hgood]
  exact hsize ▸ Nat.lt_succ_of_le hle

end IStream

namespace KleeHandler

/-- `*f << branch << '\n'` for the bytes of a state's path stream -/
def pathFile (concreteBranches : List UInt8) : List UInt8 :=
  concreteBranches.flatMap fun branch => [branch, 10]

/-- The loop of `loadPathFile`. `value` has no initializer: `junk k` is what the `k`-th one holds
before it is read. -/
def loadLoop (junk : ℕ → BitVec 32) (f : IStream) (buffer : List Bool) : List Bool :=
  if h : f.good then
    let value := f.readUnsigned.1.getD (junk buffer.length)
    loadLoop junk f.readUnsigned.2.get (buffer ++ [value != 0])
  else buffer
termination_by f.size
decreasing_by exact f.size_get_readUnsigned_lt h

def loadPathFile (junk : ℕ → BitVec 32) (file : List UInt8) : List Bool :=
  loadLoop junk ⟨file, false, false⟩ []

end KleeHandler

/-- A decision of the replayed path is taken, if the condition goes that way. -/
theorem Executor.replayBranch_ofSide {M : Type} (o : ExecutorOptions) (current : StateId)
    (condition : Expr) {ex : Executor M} {path : List Bool} {side : Bool}
    (h : path[ex.replayPosition]? = some side) :
    replayBranch o current condition path (ofSide side) ex =
      .ok (ofSide side, { ex with replayPosition := ex.replayPosition + 1 }) := by
  simp only [replayBranch, bind, StateT.bind, get, getThe, MonadStateOf.get, StateT.get, pure,
    Except.pure, Except.bind, h]
  cases side <;> rfl

namespace KleeHandler

open Executor IStream

variable (junk : ℕ → BitVec 32) (ds : List Bool)

/-- The file of a state whose recorded decisions are `ds` -/
def decisionFile : List UInt8 := pathFile (ds.map sideByte)

/-- What is loaded is what was recorded, and a replay that needs one decision more stops. -/
structure RoundTrips : Prop where
  loaded : loadPathFile junk (decisionFile ds) = ds
  detected : ∀ {M : Type} (o : ExecutorOptions) (current : StateId) condition res (ex : Executor M),
    ex.replayPosition = ds.length →
      replayBranch o current condition (loadPathFile junk (decisionFile ds)) res ex = .error .replay

/-- A line of the file is read as the decision that was written. -/
theorem readUnsigned_line (d : Bool) (rest : List UInt8) :
    (readUnsigned ⟨sideByte d :: 10 :: rest, false, false⟩) =
      (some (if d then 1 else 0), ⟨10 :: rest, false, false⟩) := by
  cases d <;> rfl

/-- By induction on the decisions. After the last line the stream is still good, and one value more
is pushed although none is read. -/
theorem loadLoop_decisionFile (buffer : List Bool) :
    loadLoop junk ⟨decisionFile ds, false, false⟩ buffer =
      buffer ++ ds ++ [junk (buffer.length + ds.length) != 0] := by
  induction ds generalizing buffer with
  | nil =>
    have hend : loadLoop junk ⟨[], true, true⟩ (buffer ++ [junk buffer.length != 0]) =
        buffer ++ [junk buffer.length != 0] := by
      rw [loadLoop.eq_def, dif_neg (by decide)]
    rw [loadLoop.eq_def, dif_pos (by rfl), List.append_nil]
    exact hend
  | cons d ds ih =>
    have hline : decisionFile (d :: ds) = sideByte d :: 10 :: decisionFile ds := rfl
    have hvalue : ((if d then 1 else 0 : BitVec 32) != 0) = d := by cases d <;> rfl
    rw [loadLoop.eq_def, dif_pos (by rfl), hline, readUnsigned_line]
    dsimp only
    rw [Option.getD_some, hvalue]
    refine (ih (buffer ++ [d])).trans ?_
    rw [List.length_append, List.length_singleton, List.length_cons, Nat.add_right_comm,
      Nat.add_assoc, List.append_assoc buffer [d] ds, List.singleton_append]

theorem loadPathFile_eq : loadPathFile junk (decisionFile ds) = ds ++ [junk ds.length != 0] := by
  refine (loadLoop_decisionFile junk ds []).trans ?_
  rw [List.length_nil, Nat.zero_add, List.nil_append]

/-- The path of a state that took no branch -/
theorem not_roundTrips_nil : ¬ RoundTrips (fun _ => 0) [] := fun h => by
  have hload := (loadPathFile_eq (fun _ => 0) []).symm.trans h.loaded
  cases hload

/-- Every path is loaded with one decision too many, and a replay takes it. -/
theorem loadPathFile_decisionFile :
    loadPathFile junk (decisionFile ds) = ds ++ [junk ds.length != 0] ∧
      (∀ {M : Type} (o : ExecutorOptions) (current : StateId) condition (ex : Executor M),
        ex.replayPosition = ds.length →
          replayBranch o current condition (loadPathFile junk (decisionFile ds))
              (ofSide (junk ds.length != 0)) ex =
            .ok (ofSide (junk ds.length != 0), { ex with replayPosition := ds.length + 1 })) ∧
      ¬ RoundTrips junk ds := by
  have hload := loadPathFile_eq junk ds
  refine ⟨hload, fun o current condition ex hpos => ?_, fun h => ?_⟩
  · have hlast : (ds ++ [junk ds.length != 0])[ex.replayPosition]? =
        some (junk ds.length != 0) := by
      rw [hpos, List.getElem?_concat_length]
    rw [hload, replayBranch_ofSide o current condition hlast, hpos]
  · have hlength := congrArg List.length (hload.symm.trans h.loaded)
    rw [List.length_append, List.length_singleton] at hlength
    omega

end KleeHandler

end Klee
