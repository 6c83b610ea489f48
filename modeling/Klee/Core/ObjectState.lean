import Klee.Expr.Truth

/-! `ObjectState` of `Memory.cpp`, with `-use-constant-arrays` at its default. The C++ arrays
of an object (one entry for each byte) are functions of the offset here; the accesses at an
offset of the caller check it against the size. -/
namespace Klee

/-- The assertions of `ObjectState`, and an access past the end of its arrays. -/
inductive Fault where
  /-- "unflushed byte without cache value" -/
  | unflushedByte
  /-- "invalid bit set in flushMask" -/
  | invalidFlushMask
  /-- "constant offset passed to symbolic read8", and the same for write8 -/
  | constantOffset
  /-- "Invalid read size!", "Invalid write size!" -/
  | invalidSize
  /-- "no need to copy read only object?" -/
  | readOnly
  | outOfBounds
deriving DecidableEq, Repr

structure ObjectState where
  size : Nat
  size_lt : size < 2 ^ 32
  concreteStore : Nat → BitVec 8
  concreteMask : Option (Nat → Bool)
  flushMask : Option (Nat → Bool)
  knownSymbolics : Option (Nat → Option Expr)
  /-- `updates.root`, null until the constant array is created -/
  updatesRoot : Option Array
  /-- `updates.head` -/
  updatesHead : UpdateNode
  readOnly : Bool

/-- An object with the counter that names the constant arrays, a static of `getUpdates`. -/
structure ObjectContext where
  object : ObjectState
  constArrId : Nat

abbrev ObjectM := StateT ObjectContext (Except Fault)

namespace ObjectState

section Masks

def isByteConcrete (os : ObjectState) (offset : Nat) : Bool :=
  os.concreteMask.elim true (· offset)

def isByteFlushed (os : ObjectState) (offset : Nat) : Bool :=
  os.flushMask.elim false (! · offset)

def knownSymbolic (os : ObjectState) (offset : Nat) : Option Expr :=
  os.knownSymbolics.bind (· offset)

def isByteKnownSymbolic (os : ObjectState) (offset : Nat) : Bool :=
  (os.knownSymbolic offset).isSome

def markByteConcrete (os : ObjectState) (offset : Nat) : ObjectState :=
  { os with concreteMask := os.concreteMask.map (Function.update · offset true) }

def markByteSymbolic (os : ObjectState) (offset : Nat) : ObjectState :=
  { os with
    concreteMask := some (Function.update (os.concreteMask.getD fun _ => true) offset false) }

def markByteUnflushed (os : ObjectState) (offset : Nat) : ObjectState :=
  { os with flushMask := os.flushMask.map (Function.update · offset true) }

def markByteFlushed (os : ObjectState) (offset : Nat) : ObjectState :=
  { os with
    flushMask := match os.flushMask with
      | none => some fun _ => false
      | some mask => some (Function.update mask offset false) }

def setKnownSymbolic (os : ObjectState) (offset : Nat) (value : Option Expr) : ObjectState :=
  { os with
    knownSymbolics := match os.knownSymbolics, value with
      | some known, value => some (Function.update known offset value)
      | none, some value => some (Function.update (fun _ => none) offset (some value))
      | none, none => none }

end Masks

section Construct

/-- `ObjectState(mo)` -/
def ofMemoryObject (size : Nat) (h : size < 2 ^ 32) : ObjectState where
  size := size
  size_lt := h
  concreteStore := fun _ => 0
  concreteMask := none
  flushMask := none
  knownSymbolics := none
  updatesRoot := none
  updatesHead := .null
  readOnly := false

def makeConcrete (os : ObjectState) : ObjectState :=
  { os with concreteMask := none, flushMask := none, knownSymbolics := none }

/-- One round of the loop of `makeSymbolic`. -/
def makeByteSymbolic (os : ObjectState) (offset : Nat) : ObjectState :=
  ((os.markByteSymbolic offset).setKnownSymbolic offset none).markByteFlushed offset

def makeSymbolic (os : ObjectState) : ObjectState :=
  (List.range os.size).foldl makeByteSymbolic os

/-- `ObjectState(mo, array)` -/
def ofArray (size : Nat) (h : size < 2 ^ 32) (array : Array) : ObjectState :=
  { ofMemoryObject size h with updatesRoot := some array }.makeSymbolic

def initializeToZero (os : ObjectState) : ObjectState :=
  { os.makeConcrete with concreteStore := fun _ => 0 }

def initializeToRandom (os : ObjectState) : ObjectState :=
  { os.makeConcrete with concreteStore := fun _ => 0xAB }

def copy (os : ObjectState) : Except Fault ObjectState :=
  if os.readOnly then .error .readOnly else .ok { os with readOnly := false }

end Construct

end ObjectState

namespace UpdateNode

def writes : UpdateNode → List (Expr × Expr)
  | null => []
  | node next index value => next.writes ++ [(index, value)]

/-- `extend` with each of the writes. -/
def extendAll (un : UpdateNode) (ws : List (Expr × Expr)) : UpdateNode :=
  ws.foldl (fun un w => node un w.1 w.2) un

end UpdateNode

section Updates

/-- The loop of `getUpdates` that moves the leading concrete writes into the array. -/
def pullConcrete (contents : List (BitVec 8)) :
    List (Expr × Expr) → List (BitVec 8) × List (Expr × Expr)
  | (.constant index, .constant value) :: ws =>
      pullConcrete (contents.set index.value.toNat (value.value.setWidth 8)) ws
  | ws => (contents, ws)

theorem length_pullConcrete (contents : List (BitVec 8)) (ws : List (Expr × Expr)) :
    (pullConcrete contents ws).1.length = contents.length := by
  induction contents, ws using pullConcrete.induct with
  | case1 contents index value ws ih => rw [pullConcrete, ih, List.length_set]
  | case2 contents ws h => rw [pullConcrete]; exact h

/-- `CreateArray` for constant contents: always a new array. -/
def createConstantArray (id : Nat) (contents : List (BitVec 8)) (h : contents.length < 2 ^ 32) :
    Array where
  id := id
  name := "const_arr" ++ toString (id % 2 ^ 32)
  size := contents.length
  constantValues := contents
  size_lt := h
  size_eq := .inr rfl

end Updates

namespace ObjectState

/-- What `getUpdates` puts in place of a null root. -/
def createUpdates (os : ObjectState) (id : Nat) : UpdateList :=
  let pulled := pullConcrete (List.replicate os.size 0) os.updatesHead.writes
  ⟨createConstantArray id pulled.1
    (by rw [length_pullConcrete, List.length_replicate]; exact os.size_lt),
    UpdateNode.null.extendAll pulled.2⟩

def getUpdates : ObjectM UpdateList := do
  let c ← get
  match c.object.updatesRoot with
  | some root => pure ⟨root, c.object.updatesHead⟩
  | none =>
    let ul := c.object.createUpdates (c.constArrId + 1)
    set (⟨{ c.object with updatesRoot := some ul.root, updatesHead := ul.head },
      c.constArrId + 1⟩ : ObjectContext)
    pure ul

def modifyObject (f : ObjectState → ObjectState) : ObjectM Unit :=
  modify fun c => { c with object := f c.object }

/-- `updates.extend` -/
def extend (os : ObjectState) (index value : Expr) : ObjectState :=
  { os with updatesHead := .node os.updatesHead index value }

def offsetExpr (offset : Nat) : Expr := .constant (.alloc offset 32)

section Flush

/-- `if (!flushMask) flushMask = new BitArray(size, true)` -/
def createFlushMask (os : ObjectState) : ObjectState :=
  { os with flushMask := some (os.flushMask.getD fun _ => true) }

/-- One round of the loop of `flushRangeForRead`. -/
def flushByteForRead (offset : Nat) : ObjectM Unit := do
  let os := (← get).object
  if os.isByteFlushed offset then pure ()
  else if os.isByteConcrete offset then
    modifyObject fun os =>
      (os.extend (offsetExpr offset) (.constant ⟨8, os.concreteStore offset⟩)).markByteFlushed offset
  else match os.knownSymbolic offset with
    | none => throw .invalidFlushMask
    | some value =>
      modifyObject fun os => (os.extend (offsetExpr offset) value).markByteFlushed offset

def flushRangeForRead (rangeBase rangeSize : Nat) : ObjectM Unit := do
  modifyObject createFlushMask
  (List.range' rangeBase rangeSize).forM flushByteForRead

/-- One round of the loop of `flushRangeForWrite`. -/
def flushByteForWrite (offset : Nat) : ObjectM Unit := do
  let os := (← get).object
  if os.isByteFlushed offset then
    -- flushed bytes that are written over still need to be marked out
    if os.isByteConcrete offset then modifyObject (markByteSymbolic · offset)
    else if os.isByteKnownSymbolic offset then modifyObject (setKnownSymbolic · offset none)
    else pure ()
  else if os.isByteConcrete offset then
    modifyObject fun os =>
      ((os.extend (offsetExpr offset) (.constant ⟨8, os.concreteStore offset⟩)).markByteSymbolic
        offset).markByteFlushed offset
  else match os.knownSymbolic offset with
    | none => throw .invalidFlushMask
    | some value =>
      modifyObject fun os =>
        ((os.extend (offsetExpr offset) value).setKnownSymbolic offset none).markByteFlushed offset

def flushRangeForWrite (rangeBase rangeSize : Nat) : ObjectM Unit := do
  modifyObject createFlushMask
  (List.range' rangeBase rangeSize).forM flushByteForWrite

/-- `fastRangeCheckOffset`: the base and the size of the range, always the whole object. -/
def fastRangeCheckOffset (os : ObjectState) (_offset : Expr) : Nat × Nat := (0, os.size)

end Flush

section Bytes

def read8 (offset : Nat) : ObjectM Expr := do
  let os := (← get).object
  if os.size ≤ offset then throw .outOfBounds
  else if os.isByteConcrete offset then pure (.constant ⟨8, os.concreteStore offset⟩)
  else match os.knownSymbolic offset with
    | some value => pure value
    | none =>
      if os.isByteFlushed offset then do
        let ul ← getUpdates
        pure (ReadExpr.create ul (offsetExpr offset))
      else throw .unflushedByte

def read8Expr (offset : Expr) : ObjectM Expr := do
  if offset.isConstant then throw .constantOffset
  else
    let (base, size) := (← get).object.fastRangeCheckOffset offset
    flushRangeForRead base size
    let ul ← getUpdates
    pure (ReadExpr.create ul (ZExtExpr.create offset 32))

/-- `write8(unsigned, uint8_t)` -/
def write8Byte (offset : Nat) (value : BitVec 8) : ObjectM Unit := do
  let os := (← get).object
  if os.size ≤ offset then throw .outOfBounds
  else modifyObject fun os =>
    (({ os with concreteStore := Function.update os.concreteStore offset value }.setKnownSymbolic
      offset none).markByteConcrete offset).markByteUnflushed offset

def write8 (offset : Nat) (value : Expr) : ObjectM Unit :=
  match value with
  | .constant c => write8Byte offset (c.value.setWidth 8)
  | value => do
    let os := (← get).object
    if os.size ≤ offset then throw .outOfBounds
    else modifyObject fun os =>
      ((os.setKnownSymbolic offset (some value)).markByteSymbolic offset).markByteUnflushed offset

def write8Expr (offset value : Expr) : ObjectM Unit := do
  if offset.isConstant then throw .constantOffset
  else
    let (base, size) := (← get).object.fastRangeCheckOffset offset
    flushRangeForWrite base size
    modifyObject (extend · (ZExtExpr.create offset 32) value)

end Bytes

section Words

/-- The place of byte `i` of `numBytes`, counted from the least significant. -/
def byteIndex (isLittleEndian : Bool) (numBytes i : Nat) : Nat :=
  if isLittleEndian then i else numBytes - i - 1

/-- The loop of `read` over `n + 1` bytes. -/
def readBytes (byteAt : Nat → ObjectM Expr) : Nat → ObjectM Expr
  | 0 => byteAt 0
  | n + 1 => do
    let res ← readBytes byteAt n
    let byte ← byteAt (n + 1)
    pure (ConcatExpr.create byte res)

/-- What `read` does for either kind of offset. A width of no bytes, for which the source
returns a null expression, is rejected with the other invalid sizes. -/
def readWidth (isLittleEndian : Bool) (first : ObjectM Expr) (byteAt : Nat → ObjectM Expr)
    (width : Nat) : ObjectM Expr :=
  if width = 1 then do
    let byte ← first
    pure (ExtractExpr.create byte 0 1)
  else if width = width / 8 * 8 then
    match width / 8 with
    | 0 => throw .invalidSize
    | n + 1 => readBytes (fun i => byteAt (byteIndex isLittleEndian (n + 1) i)) n
  else throw .invalidSize

/-- `read(unsigned, width)` -/
def readAt (isLittleEndian : Bool) (offset width : Nat) : ObjectM Expr :=
  readWidth isLittleEndian (read8 offset) (fun idx => read8 ((offset + idx) % 2 ^ 32)) width

def read (isLittleEndian : Bool) (offset : Expr) (width : Nat) : ObjectM Expr :=
  match ZExtExpr.create offset 32 with
  | .constant c => readAt isLittleEndian c.value.toNat width
  | offset => readWidth isLittleEndian (read8Expr offset)
      (fun idx => read8Expr (AddExpr.create offset (offsetExpr idx))) width

/-- The shape of `write16`, `write32` and `write64`. -/
def writeConstant (isLittleEndian : Bool) (numBytes offset : Nat) (value : BitVec (8 * numBytes)) :
    ObjectM Unit :=
  (List.range numBytes).forM fun i =>
    write8Byte ((offset + byteIndex isLittleEndian numBytes i) % 2 ^ 32)
      ((value >>> (8 * i)).setWidth 8)

def write16 (isLittleEndian : Bool) := writeConstant isLittleEndian 2
def write32 (isLittleEndian : Bool) := writeConstant isLittleEndian 4
def write64 (isLittleEndian : Bool) := writeConstant isLittleEndian 8

/-- What `write` does for either kind of offset, constants of the usual widths apart. -/
def writeWidth (isLittleEndian : Bool) (first : Expr → ObjectM Unit)
    (byteAt : Nat → Expr → ObjectM Unit) (value : Expr) : ObjectM Unit :=
  if value.width = 1 then first (ZExtExpr.create value 8)
  else if value.width = value.width / 8 * 8 then
    (List.range (value.width / 8)).forM fun i =>
      byteAt (byteIndex isLittleEndian (value.width / 8) i) (ExtractExpr.create value (8 * i) 8)
  else throw .invalidSize

/-- `write(unsigned, value)` -/
def writeAt (isLittleEndian : Bool) (offset : Nat) (value : Expr) : ObjectM Unit :=
  let general := writeWidth isLittleEndian (write8 offset)
    (fun idx byte => write8 ((offset + idx) % 2 ^ 32) byte) value
  match value with
  | .constant c =>
    match c.width with
    | 1 | 8 => write8Byte offset (c.value.setWidth 8)
    | 16 => write16 isLittleEndian offset (c.value.setWidth 16)
    | 32 => write32 isLittleEndian offset (c.value.setWidth 32)
    | 64 => write64 isLittleEndian offset (c.value.setWidth 64)
    | 2 | 4 => throw .invalidSize
    | _ => general
  | _ => general

def write (isLittleEndian : Bool) (offset value : Expr) : ObjectM Unit :=
  match ZExtExpr.create offset 32 with
  | .constant c => writeAt isLittleEndian c.value.toNat value
  | offset => writeWidth isLittleEndian (write8Expr offset)
      (fun idx byte => write8Expr (AddExpr.create offset (offsetExpr idx)) byte) value

end Words

end ObjectState

end Klee
