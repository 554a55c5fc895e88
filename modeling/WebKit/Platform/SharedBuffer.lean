import Mathlib.Algebra.Group.Int.Defs
import WebKit.Blocks.Fill

/-!
# `SharedBuffer`

The bytes of a `SharedBuffer` are those of a vector, followed by those in segments of 4096 bytes.
The vector belongs to a `DataBuffer` that buffers could share. Only the total size is recorded.
A program has any number of buffers; a buffer and a `DataBuffer` are known by their numbers.
-/

namespace WebKit.Platform

open Blocks Function

/-- A byte of memory, `none` before anything is written to it. -/
abbrev Cell := Option UInt8

def segmentSize : ℕ := 0x1000

def segmentPositionMask : ℕ := 0x0FFF

def segmentIndex (position : ℕ) : ℕ := position / segmentSize

def offsetInSegment (position : ℕ) : ℕ := position &&& segmentPositionMask

def allocateSegment : List Cell := List.replicate segmentSize none

/-- Conversion to `unsigned`. -/
def toUnsigned (n : ℤ) : ℕ := (n % 2 ^ 32).toNat

structure DataBuffer where
  data : List Cell
  capacity : ℕ
  deriving DecidableEq, Repr

namespace DataBuffer

/-- `new DataBuffer` -/
def create : DataBuffer := ⟨[], 0⟩

variable (fastMallocGoodSize : ℕ → ℕ) (buffer : DataBuffer)

def reserveInitialCapacity (initialCapacity : ℕ) : DataBuffer :=
  if 0 < initialCapacity then { buffer with capacity := fastMallocGoodSize initialCapacity }
  else buffer

def reserveCapacity (newCapacity : ℕ) : DataBuffer :=
  if newCapacity ≤ buffer.capacity then buffer
  else { buffer with capacity := fastMallocGoodSize newCapacity }

def expandCapacity (newMinCapacity : ℕ) : DataBuffer :=
  buffer.reserveCapacity fastMallocGoodSize
    (max newMinCapacity (max 16 (buffer.capacity + buffer.capacity / 4 + 1)))

def append (data : List Cell) : DataBuffer :=
  let newSize := buffer.data.length + data.length
  let buffer :=
    if buffer.capacity < newSize then buffer.expandCapacity fastMallocGoodSize newSize else buffer
  { buffer with data := buffer.data ++ data }

def resize (size : ℕ) : DataBuffer :=
  if size ≤ buffer.data.length then { buffer with data := buffer.data.take size }
  else
    let buffer :=
      if buffer.capacity < size then buffer.expandCapacity fastMallocGoodSize size else buffer
    { buffer with data := buffer.data ++ List.replicate (size - buffer.data.length) none }

/-- `operator=` of the vector -/
def assign (other : DataBuffer) : DataBuffer :=
  if buffer.capacity < other.data.length then
    { data := other.data, capacity := fastMallocGoodSize other.data.length }
  else { buffer with data := other.data }

end DataBuffer

structure SharedBuffer where
  /-- `m_size` -/
  size : ℕ
  /-- `m_buffer` -/
  buffer : ℕ
  segments : List (List Cell)
  deriving DecidableEq, Repr

/-- All buffers of a program. -/
structure SharedBuffers where
  sharedBuffers : ℕ → SharedBuffer
  sharedBufferCount : ℕ
  dataBuffers : ℕ → DataBuffer
  dataBufferCount : ℕ

namespace SharedBuffers

def initial : SharedBuffers where
  sharedBuffers := fun _ => ⟨0, 0, []⟩
  sharedBufferCount := 0
  dataBuffers := fun _ => .create
  dataBufferCount := 0

variable (fastMallocGoodSize : ℕ → ℕ) (s : SharedBuffers) (i j : ℕ)

def dataBuffer : DataBuffer := s.dataBuffers (s.sharedBuffers i).buffer

def setSharedBuffer (sharedBuffer : SharedBuffer) : SharedBuffers :=
  { s with sharedBuffers := update s.sharedBuffers i sharedBuffer }

def setDataBuffer (dataBuffer : DataBuffer) : SharedBuffers :=
  { s with
    dataBuffers := update s.dataBuffers (s.sharedBuffers i).buffer dataBuffer }

/-- A new `DataBuffer` becomes that of the buffer. -/
def setNewDataBuffer (dataBuffer : DataBuffer) : SharedBuffers :=
  { s with
    dataBuffers := update s.dataBuffers s.dataBufferCount dataBuffer
    dataBufferCount := s.dataBufferCount + 1
    sharedBuffers :=
      update s.sharedBuffers i { s.sharedBuffers i with buffer := s.dataBufferCount } }

/-- A new buffer, with a `DataBuffer` of its own. -/
def adopt (size : ℕ) (dataBuffer : DataBuffer) : SharedBuffers where
  sharedBuffers := update s.sharedBuffers s.sharedBufferCount ⟨size, s.dataBufferCount, []⟩
  sharedBufferCount := s.sharedBufferCount + 1
  dataBuffers := update s.dataBuffers s.dataBufferCount dataBuffer
  dataBufferCount := s.dataBufferCount + 1

/-- `m_buffer->hasOneRef()` -/
def hasOneRef : Bool :=
  (List.range s.sharedBufferCount).countP
    (fun k => (s.sharedBuffers k).buffer = (s.sharedBuffers i).buffer) = 1

def duplicateDataBufferIfNecessary : SharedBuffers :=
  let currentCapacity := (s.dataBuffer i).capacity
  if s.hasOneRef i || (s.sharedBuffers i).size ≤ currentCapacity then s
  else
    let newCapacity := max (s.sharedBuffers i).size (currentCapacity * 2)
    let newBuffer := DataBuffer.create.reserveInitialCapacity fastMallocGoodSize newCapacity
    s.setNewDataBuffer i (newBuffer.assign fastMallocGoodSize (s.dataBuffer i))

def appendToDataBuffer (data : List Cell) : SharedBuffers :=
  let s := s.duplicateDataBufferIfNecessary fastMallocGoodSize i
  s.setDataBuffer i ((s.dataBuffer i).append fastMallocGoodSize data)

def clearDataBuffer : SharedBuffers :=
  if !s.hasOneRef i then s.setNewDataBuffer i .create
  else s.setDataBuffer i .create

/-- The iterations of the loop of `append` after the first. -/
def appendSegments (data : List Cell) : List (List Cell) :=
  if data = [] then []
  else
    let bytesToCopy := min data.length segmentSize
    overwrite allocateSegment 0 (data.take bytesToCopy) :: appendSegments (data.drop bytesToCopy)
termination_by data.length
decreasing_by
  have hpos := List.length_pos_iff.mpr ‹¬data = []›
  rw [List.length_drop, segmentSize]
  omega

/-- `append(const char*, unsigned)`. To take the last segment where there is none is a crash. -/
def append (data : List Cell) : Option SharedBuffers :=
  if data = [] then some s
  else
    let sharedBuffer := s.sharedBuffers i
    let positionInSegment :=
      offsetInSegment (toUnsigned (sharedBuffer.size - (s.dataBuffer i).data.length))
    let size := toUnsigned (sharedBuffer.size + data.length)
    if size ≤ segmentSize then
      let s := s.setSharedBuffer i { sharedBuffer with size }
      let s :=
        if (s.dataBuffer i).data = [] then
          s.setDataBuffer i ((s.dataBuffer i).reserveInitialCapacity fastMallocGoodSize data.length)
        else s
      some (s.appendToDataBuffer fastMallocGoodSize i data)
    else
      let bytesToCopy := min data.length (segmentSize - positionInSegment)
      let first := data.take bytesToCopy
      let rest := appendSegments (data.drop bytesToCopy)
      if positionInSegment = 0 then
        some (s.setSharedBuffer i
          { sharedBuffer with
            size
            segments := sharedBuffer.segments ++ [overwrite allocateSegment 0 first] ++ rest })
      else
        sharedBuffer.segments.getLast?.map fun segment =>
          s.setSharedBuffer i
            { sharedBuffer with
              size
              segments := sharedBuffer.segments.dropLast ++
                [overwrite segment positionInSegment first] ++ rest }

/-- Where `someData` points to. -/
inductive Pointer
  | null
  | data (offset : ℕ)
  | segment (index offset : ℕ)
  deriving DecidableEq, Repr

def getSomeData (position : ℕ) : Pointer × ℕ :=
  let totalSize := (s.sharedBuffers i).size
  if totalSize ≤ position then (.null, 0)
  else
    let consecutiveSize := toUnsigned (s.dataBuffer i).data.length
    if position < consecutiveSize then (.data position, consecutiveSize - position)
    else
      let position := position - consecutiveSize
      let segments := toUnsigned (s.sharedBuffers i).segments.length
      let maxSegmentedSize := toUnsigned (segments * segmentSize)
      let segment := segmentIndex position
      if segment < segments then
        let bytesLeft := toUnsigned (totalSize - consecutiveSize)
        let segmentedSize := min maxSegmentedSize bytesLeft
        let positionInSegment := offsetInSegment position
        (.segment segment positionInSegment,
          if segment = segments - 1 then toUnsigned (segmentedSize - position)
          else segmentSize - positionInSegment)
      else (.null, 0)

/-- Reads that many bytes, if they are there. -/
def read (pointer : Pointer) (length : ℕ) : Option (List Cell) :=
  match pointer with
  | .null => none
  | .data offset =>
    let data := (s.dataBuffer i).data
    if offset + length ≤ data.length then some ((data.drop offset).take length) else none
  | .segment index offset =>
    match (s.sharedBuffers i).segments[index]? with
    | none => none
    | some segment =>
      if offset + length ≤ segment.length then some ((segment.drop offset).take length) else none

/-- The runs of bytes that the loop over `getSomeData` from a position comes to, if it ends. -/
def someData (position : ℕ) : ℕ → Option (List (List Cell))
  | 0 => none
  | fuel + 1 =>
    let (pointer, length) := s.getSomeData i position
    if length = 0 then some []
    else
      match s.read i pointer length, someData (toUnsigned (position + length)) fuel with
      | some data, some rest => some (data :: rest)
      | _, _ => none

/-- The loop of `append(SharedBuffer*)`. -/
def appendFrom (position : ℕ) : ℕ → SharedBuffers → Option SharedBuffers
  | 0, _ => none
  | fuel + 1, s =>
    let (segment, length) := s.getSomeData j position
    if length = 0 then some s
    else
      match s.read j segment length with
      | none => none
      | some data =>
        match s.append fastMallocGoodSize i data with
        | none => none
        | some s => appendFrom (toUnsigned (position + length)) fuel s

/-- `append(SharedBuffer*)` -/
def appendSharedBuffer : Option SharedBuffers :=
  appendFrom fastMallocGoodSize i j 0 ((s.sharedBuffers j).size + 1) s

/-- `clear` -/
def clear : SharedBuffers :=
  (s.setSharedBuffer i { s.sharedBuffers i with size := 0, segments := [] }).clearDataBuffer i

/-- `copy`: whole segments are appended to the vector of the clone. -/
def copy : SharedBuffers :=
  let size := (s.sharedBuffers i).size
  let buffer := DataBuffer.create.reserveCapacity fastMallocGoodSize size
  let buffer := buffer.append fastMallocGoodSize (s.dataBuffer i).data
  let buffer := (s.sharedBuffers i).segments.foldl
    (fun buffer segment => buffer.append fastMallocGoodSize (segment.take segmentSize)) buffer
  s.adopt size buffer

/-- The segments are copied to the destination. -/
def copyBufferAndClear (destination : List Cell) (offset bytesToCopy : ℕ) :
    List (List Cell) → List Cell
  | [] => destination
  | segment :: segments =>
    let effectiveBytesToCopy := min bytesToCopy segmentSize
    copyBufferAndClear (overwrite destination offset (segment.take effectiveBytesToCopy))
      (offset + effectiveBytesToCopy) (bytesToCopy - effectiveBytesToCopy) segments

/-- `buffer`: all bytes move to the vector. -/
def buffer : SharedBuffers :=
  let size := (s.sharedBuffers i).size
  let bufferSize := toUnsigned (s.dataBuffer i).data.length
  if bufferSize < size then
    let s := s.duplicateDataBufferIfNecessary fastMallocGoodSize i
    let dataBuffer := (s.dataBuffer i).resize fastMallocGoodSize size
    let data := copyBufferAndClear dataBuffer.data bufferSize (size - bufferSize)
      (s.sharedBuffers i).segments
    (s.setDataBuffer i { dataBuffer with data }).setSharedBuffer i
      { s.sharedBuffers i with segments := [] }
  else s

/-- `adoptVector`, with the capacity that the vector has. -/
def adoptVector (vector : List Cell) (capacity : ℕ) : SharedBuffers :=
  s.adopt (toUnsigned vector.length) ⟨vector, capacity⟩

end SharedBuffers

inductive SharedBufferOperation
  | create
  | adoptVector (vector : List UInt8) (capacity : ℕ)
  | append (i : ℕ) (data : List UInt8)
  | appendSharedBuffer (i j : ℕ)
  | copy (i : ℕ)
  | clear (i : ℕ)
  /-- `data()` or `buffer()` -/
  | data (i : ℕ)
  deriving DecidableEq, Repr

def SharedBuffers.execute (fastMallocGoodSize : ℕ → ℕ) (s : SharedBuffers) :
    SharedBufferOperation → Option SharedBuffers
  | .create => some (s.adopt 0 .create)
  | .adoptVector vector capacity => some (s.adoptVector (vector.map some) capacity)
  | .append i data => s.append fastMallocGoodSize i (data.map some)
  | .appendSharedBuffer i j => s.appendSharedBuffer fastMallocGoodSize i j
  | .copy i => some (s.copy fastMallocGoodSize i)
  | .clear i => some (s.clear i)
  | .data i => some (s.buffer fastMallocGoodSize i)

end WebKit.Platform
