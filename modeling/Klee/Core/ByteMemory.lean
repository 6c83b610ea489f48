import Klee.Core.ObjectState

/-! A plain byte-array memory: what an `ObjectState` is for. -/
namespace Klee

abbrev ByteMemory := Nat → BitVec 8

namespace ByteMemory

/-- `Bool`, or a positive whole number of bytes. -/
def ValidWidth (w : Nat) : Prop := w = 1 ∨ ∃ k, w = 8 * (k + 1)

/-- The bytes that a value of width `w` takes. -/
def numBytes (w : Nat) : Nat := if w = 1 then 1 else w / 8

/-- The first `n` of the bytes as one value, byte 0 the least significant. -/
def load (bytes : Nat → BitVec 8) : (n : Nat) → BitVec (8 * n)
  | 0 => 0#0
  | n + 1 => (bytes n ++ load bytes n).setWidth (8 * (n + 1))

def read (m : ByteMemory) (isLittleEndian : Bool) (offset w : Nat) : BitVec w :=
  if w = 1 then (m offset).setWidth w
  else (load (fun i => m (offset + ObjectState.byteIndex isLittleEndian (w / 8) i))
    (w / 8)).setWidth w

/-- `n` bytes, each at its address. -/
def store (m : ByteMemory) (address : Nat → Nat) (bytes : Nat → BitVec 8) (n : Nat) :
    ByteMemory :=
  (List.range n).foldl (fun m i => Function.update m (address i) (bytes i)) m

def write (m : ByteMemory) (isLittleEndian : Bool) (offset : Nat) {w : Nat} (v : BitVec w) :
    ByteMemory :=
  if w = 1 then Function.update m offset (v.setWidth 8)
  else store m (fun i => offset + ObjectState.byteIndex isLittleEndian (w / 8) i)
    (fun i => v.extractLsb' (8 * i) 8) (w / 8)

variable {m : ByteMemory} {isLittleEndian : Bool} {n : Nat}

theorem store_succ (address : Nat → Nat) (bytes : Nat → BitVec 8) :
    m.store address bytes (n + 1) =
      Function.update (m.store address bytes n) (address n) (bytes n) := by
  rw [store, List.range_succ, List.foldl_append]
  rfl

theorem store_congr {address address' : Nat → Nat} {bytes bytes' : Nat → BitVec 8}
    (ha : ∀ i < n, address i = address' i) (hb : ∀ i < n, bytes i = bytes' i) :
    m.store address bytes n = m.store address' bytes' n := by
  induction n with
  | zero => rfl
  | succ n ih =>
    rw [store_succ, store_succ, ha n (by omega), hb n (by omega),
      ih (fun i hi => ha i (by omega)) fun i hi => hb i (by omega)]

theorem load_congr {bytes bytes' : Nat → BitVec 8} (h : ∀ i < n, bytes i = bytes' i) :
    load bytes n = load bytes' n := by
  induction n with
  | zero => rfl
  | succ n ih => rw [load, load, h n (by omega), ih fun i hi => h i (by omega)]

theorem numBytes_pos {w : Nat} (hw : ValidWidth w) : 0 < numBytes w := by
  obtain rfl | ⟨k, rfl⟩ := hw
  · exact Nat.one_pos
  · rw [numBytes, if_neg (by omega)]
    omega

theorem lt_numBytes {i : Nat} {w : Nat} (hi : i < w / 8) : i < numBytes w := by
  unfold numBytes
  split
  case isTrue h =>
    subst h
    exact Nat.lt_succ_of_lt hi
  case isFalse => exact hi

theorem byteIndex_lt {i : Nat} (hi : i < n) : ObjectState.byteIndex isLittleEndian n i < n := by
  unfold ObjectState.byteIndex
  split <;> omega

theorem read_bytes (offset k : Nat) : m.read isLittleEndian offset (8 * (k + 1)) =
    load (fun i => m (offset + ObjectState.byteIndex isLittleEndian (k + 1) i)) (k + 1) := by
  have hdiv : 8 * (k + 1) / 8 = k + 1 := by omega
  rw [read, if_neg (by omega)]
  generalize 8 * (k + 1) / 8 = j at hdiv
  subst hdiv
  exact BitVec.setWidth_eq _

theorem read_bool (offset : Nat) :
    m.read isLittleEndian offset 1 = (m offset).extractLsb' 0 1 := by
  rw [read, if_pos rfl]
  exact BitVec.setWidth_eq_extractLsb' (by decide)

theorem write_byte (offset : Nat) (v : BitVec 8) :
    m.write isLittleEndian offset v = Function.update m offset v := by
  have hindex : ObjectState.byteIndex isLittleEndian 1 0 = 0 := by
    cases isLittleEndian <;> rfl
  rw [write, if_neg (by decide), show 8 / 8 = 0 + 1 by rfl, store_succ, hindex]
  simp [store]

/-- A value in the bytes at the given addresses: one for a Boolean, else one for each index. -/
def scatter (m : ByteMemory) (isLittleEndian : Bool) (first : Nat) (address : Nat → Nat) {w : Nat}
    (v : BitVec w) : ByteMemory :=
  if w = 1 then Function.update m first (v.setWidth 8)
  else m.store (fun i => address (ObjectState.byteIndex isLittleEndian (w / 8) i))
    (fun i => v.extractLsb' (8 * i) 8) (w / 8)

theorem scatter_eq_write {w first offset : Nat} {address : Nat → Nat} {v : BitVec w}
    (hfirst : w = 1 → first = offset) (ha : ∀ i < w / 8, address i = offset + i) :
    m.scatter isLittleEndian first address v = m.write isLittleEndian offset v := by
  unfold scatter write
  by_cases hw : w = 1
  · rw [if_pos hw, if_pos hw, hfirst hw]
  · rw [if_neg hw, if_neg hw]
    exact store_congr (fun i hi => ha _ (byteIndex_lt hi)) fun _ _ => rfl

end ByteMemory

end Klee

/-! What a byte-array memory holds after a write: the value at its own place, and elsewhere what
was there. -/
namespace Klee.ByteMemory

variable {m : ByteMemory} {isLittleEndian : Bool} {n : Nat}

section Store

theorem store_of_ne {address : Nat → Nat} {bytes : Nat → BitVec 8} {a : Nat}
    (h : ∀ i < n, address i ≠ a) : m.store address bytes n a = m a := by
  induction n with
  | zero => rfl
  | succ n ih =>
    rw [store_succ, Function.update_of_ne (h n (Nat.lt_succ_self n)).symm]
    exact ih fun i hi => h i (Nat.lt_succ_of_lt hi)

theorem store_apply {address : Nat → Nat} {bytes : Nat → BitVec 8}
    (hinj : ∀ i < n, ∀ j < n, address i = address j → i = j) {i : Nat} (hi : i < n) :
    m.store address bytes n (address i) = bytes i := by
  induction n with
  | zero => exact absurd hi (Nat.not_lt_zero i)
  | succ n ih =>
    rw [store_succ]
    rcases Nat.lt_succ_iff_lt_or_eq.mp hi with hlt | rfl
    · have hne : address i ≠ address n := fun heq =>
        hlt.ne (hinj i hi n (Nat.lt_succ_self n) heq)
      rw [Function.update_of_ne hne]
      exact ih (fun j hj k hk => hinj j (Nat.lt_succ_of_lt hj) k (Nat.lt_succ_of_lt hk)) hlt
    · exact Function.update_self ..

theorem byteIndex_inj {i j : Nat} (hi : i < n) (hj : j < n)
    (h : ObjectState.byteIndex isLittleEndian n i = ObjectState.byteIndex isLittleEndian n j) :
    i = j := by
  unfold ObjectState.byteIndex at h
  split at h <;> omega

end Store

section Load

theorem getLsbD_load {bytes : Nat → BitVec 8} {i : Nat} (hi : i < 8 * n) :
    (load bytes n).getLsbD i = (bytes (i / 8)).getLsbD (i % 8) := by
  induction n with
  | zero => exact absurd hi (Nat.not_lt_zero i)
  | succ n ih =>
    rw [load, BitVec.getLsbD_setWidth, decide_eq_true hi, Bool.true_and, BitVec.getLsbD_append]
    split
    case isTrue hlt => exact ih hlt
    case isFalse hge =>
      have hdiv : i / 8 = n := by omega
      have hmod : i - 8 * n = i % 8 := by omega
      rw [hdiv, hmod]

/-- The bytes of a value make up the value. -/
theorem load_extractLsb' {w : Nat} (v : BitVec w) (hw : w = 8 * n) :
    (load (fun i => v.extractLsb' (8 * i) 8) n).setWidth w = v := by
  apply BitVec.eq_of_getLsbD_eq
  intro i hi
  have hlt : i % 8 < 8 := Nat.mod_lt _ (by decide)
  rw [BitVec.getLsbD_setWidth, decide_eq_true hi, Bool.true_and, getLsbD_load (hw ▸ hi),
    BitVec.getLsbD_extractLsb', decide_eq_true hlt, Bool.true_and, Nat.div_add_mod]

end Load

section Write

variable {w : Nat} {offset : Nat}

/-- A write changes only the bytes of its value. -/
theorem write_of_notMem (v : BitVec w) {a : Nat} (h : a < offset ∨ offset + numBytes w ≤ a) :
    m.write isLittleEndian offset v a = m a := by
  unfold write
  split
  case isTrue hw =>
    rw [numBytes, if_pos hw] at h
    exact Function.update_of_ne (by omega) ..
  case isFalse hw =>
    rw [numBytes, if_neg hw] at h
    refine store_of_ne fun i hi => ?_
    have hlt : ObjectState.byteIndex isLittleEndian (w / 8) i < w / 8 := byteIndex_lt hi
    omega

theorem read_write (hw : ValidWidth w) (v : BitVec w) :
    (m.write isLittleEndian offset v).read isLittleEndian offset w = v := by
  obtain rfl | ⟨k, rfl⟩ := hw
  · rw [write, if_pos rfl, read, if_pos rfl, Function.update_self]
    exact BitVec.setWidth_setWidth_of_le v (by decide)
  · have hdiv : 8 * (k + 1) / 8 = k + 1 := by omega
    rw [read, if_neg (by omega), write, if_neg (by omega), hdiv]
    refine Eq.trans (congrArg (BitVec.setWidth _) (load_congr fun i hi => ?_))
      (load_extractLsb' v rfl)
    refine store_apply (fun i hi j hj hij => ?_) hi
    exact byteIndex_inj hi hj (Nat.add_left_cancel hij)

/-- A read depends only on the bytes of its value. -/
theorem read_congr {m' : ByteMemory} (hw : ValidWidth w)
    (h : ∀ i < numBytes w, m (offset + i) = m' (offset + i)) :
    m.read isLittleEndian offset w = m'.read isLittleEndian offset w := by
  unfold read
  split
  case isTrue => rw [show m offset = m' offset from h 0 (numBytes_pos hw)]
  case isFalse =>
    exact congrArg (BitVec.setWidth w) (load_congr fun i hi => h _ (lt_numBytes (byteIndex_lt hi)))

/-- The bits of a value are those of its bytes. -/
theorem getLsbD_read (hw : ValidWidth w) {i : Nat} (hi : i < w) :
    (m.read isLittleEndian offset w).getLsbD i =
      (m (offset + ObjectState.byteIndex isLittleEndian (numBytes w) (i / 8))).getLsbD (i % 8) := by
  obtain rfl | ⟨k, rfl⟩ := hw
  · obtain rfl := Nat.lt_one_iff.mp hi
    have hindex : ObjectState.byteIndex isLittleEndian 1 0 = 0 := by
      cases isLittleEndian <;> rfl
    rw [read_bool, BitVec.getLsbD_extractLsb']
    exact congrArg (fun n => (m (offset + n)).getLsbD 0) hindex.symm
  · have hbytes : numBytes (8 * (k + 1)) = k + 1 := by
      rw [numBytes, if_neg (by omega)]
      omega
    rw [read_bytes, getLsbD_load hi, hbytes]

theorem read_write_of_disjoint {w' offset' : Nat} (hw : ValidWidth w) (v : BitVec w')
    (h : offset + numBytes w ≤ offset' ∨ offset' + numBytes w' ≤ offset) :
    (m.write isLittleEndian offset' v).read isLittleEndian offset w =
      m.read isLittleEndian offset w :=
  read_congr hw fun i hi => write_of_notMem v (by omega)

end Write

end Klee.ByteMemory
