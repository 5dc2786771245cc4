import EnsembleRecording.Memory

/-!
# Recorders

A recorder owns a region for the length of a run and appends one vector to it at a time.  Whether
it records is read from the header when it takes the region and does not change afterwards; a
recorder that does not record accepts every vector and leaves its region alone.

A vector is written whole or not at all, so a run that outgrows its region never touches memory
behind it.  Resetting goes back to the start of the data without erasing them: words recorded
before a reset stay until later vectors reach them.

A core keeps its place as two offsets, which a `WordRecorder` holds as they are: its operations have
no result where the offsets do not fit each other or the region.  A `Recorder` has the number of
elements recorded in place of them, and that this never exceeds the room is part of it.
-/

namespace EnsembleRecording

/-- A region being recorded into. -/
structure Recorder where
  region : Region
  isEnabled : Bool
  /-- The number of elements recorded since the start of the data. -/
  cursor : Nat
  /-- The one length that vectors may have, if the recorder was told it. -/
  expectedDims : Option Nat
  cursor_le_capacity : cursor ≤ region.capacity
deriving DecidableEq

namespace Recorder

/-- Takes a region to record into.  Its contents are left as they are. -/
def attach (region? : Option Region) (expectedDims : Option Nat) :
    Except RecordingFault Recorder :=
  match region? with
  | none => .error .missingRegion
  | some region =>
    match Header.ofRegion region with
    | .error fault => .error fault
    | .ok header => .ok ⟨region, header.isEnabled, 0, expectedDims, Nat.zero_le _⟩

def disabled : Recorder := ⟨.empty, false, 0, none, Nat.zero_le _⟩

instance : Inhabited Recorder := ⟨disabled⟩

/-- Takes a region to record into, or does without recording where that fails, so that the run can
go on. -/
def attachOrDisabled (region? : Option Region) (expectedDims : Option Nat) : Recorder :=
  match attach region? expectedDims with
  | .ok recorder => recorder
  | .error _ => disabled

/-- The number of elements that still fit. -/
def remaining (recorder : Recorder) : Nat := recorder.region.capacity - recorder.cursor

/-- Address of a data element, where the recorder has a region. -/
def elementAddress? (recorder : Recorder) (index : Nat) : Option Address :=
  if recorder.region.isEmpty then none
  else recorder.region.addressOf? (Region.dataOffset + index)

def dataAddress? (recorder : Recorder) : Option Address := recorder.elementAddress? 0

/-- Address at which the next element will be written. -/
def cursorAddress? (recorder : Recorder) : Option Address :=
  recorder.elementAddress? recorder.cursor

/-- The elements recorded since the recorder took its region or was last reset. -/
def recorded (recorder : Recorder) : List Fixed :=
  (recorder.region.words.extract Region.dataOffset (Region.dataOffset + recorder.cursor)).toList.map
    Fixed.ofWord

def reset (recorder : Recorder) : Recorder :=
  { recorder with cursor := 0, cursor_le_capacity := Nat.zero_le _ }

/-- The reason for which a vector has the wrong length, if it has. -/
def lengthFault? (recorder : Recorder) (vector : EncoderVector) : Option RecordingFault :=
  recorder.expectedDims.bind fun expected ↦
    if vector.length = expected then none else some (.dimensionMismatch expected vector.length)

/-- Writes a vector behind the elements recorded so far. -/
def append (recorder : Recorder) (vector : EncoderVector)
    (fits : vector.length ≤ recorder.remaining) : Recorder where
  region := recorder.region.store (Region.dataOffset + recorder.cursor) vector
  isEnabled := recorder.isEnabled
  cursor := recorder.cursor + vector.length
  expectedDims := recorder.expectedDims
  cursor_le_capacity := by
    have := recorder.cursor_le_capacity
    rw [Region.capacity_store]
    unfold remaining at fits
    omega

/-- Records a vector.  Its length is judged before the space that is left.  The second component is
the recorder as it is left. -/
def record (recorder : Recorder) (vector : EncoderVector) :
    Except RecordingFault Unit × Recorder :=
  if recorder.isEnabled then
    match recorder.lengthFault? vector with
    | some fault => (.error fault, recorder)
    | none =>
      if fits : vector.length ≤ recorder.remaining then (.ok (), recorder.append vector fits)
      else (.error (.capacityExceeded vector.length recorder.remaining), recorder)
  else (.ok (), recorder)

/-- Records vectors in order up to the first that is refused. -/
def recordEach (recorder : Recorder) : List EncoderVector → Except RecordingFault Unit × Recorder
  | [] => (.ok (), recorder)
  | vector :: rest =>
    match recorder.record vector with
    | (.ok _, left) => left.recordEach rest
    | (.error fault, left) => (.error fault, left)

end Recorder

/-- A recorder as a core holds it.  Nothing relates the two offsets to each other or to the region,
and an operation for which they are wrong has no result. -/
structure WordRecorder where
  region : Region
  isEnabled : Bool
  /-- Offset of the first data word. -/
  base : Nat
  /-- Offset of the word for the next element. -/
  next : Nat
  expectedDims : Option Nat

namespace WordRecorder

def attach (region? : Option Region) (expectedDims : Option Nat) :
    Except RecordingFault WordRecorder :=
  match region? with
  | none => .error .missingRegion
  | some region =>
    match Header.ofRegion region with
    | .error fault => .error fault
    | .ok header =>
      .ok ⟨region, header.isEnabled, Region.dataOffset, Region.dataOffset, expectedDims⟩

/-- The empty region has no flag, so that its data would begin with its first word. -/
def disabled : WordRecorder := ⟨.empty, false, 0, 0, none⟩

instance : Inhabited WordRecorder := ⟨disabled⟩

def attachOrDisabled (region? : Option Region) (expectedDims : Option Nat) : WordRecorder :=
  match attach region? expectedDims with
  | .ok words => words
  | .error _ => disabled

/-- The number of words from the first data word to the next element. -/
def cursor? (words : WordRecorder) : Option Nat :=
  if words.base ≤ words.next then some (words.next - words.base) else none

/-- The number of words behind the next element.  Past the end of the region it is zero. -/
def remaining (words : WordRecorder) : Nat := words.region.size - words.next

def recorded? (words : WordRecorder) : Option (Array Fixed) :=
  words.cursor?.bind fun cursor ↦ words.region.elements? words.base cursor

/-- Goes back to the first data word.  The number of elements given up is computed for the log. -/
def reset? (words : WordRecorder) : Option WordRecorder :=
  words.cursor?.map fun _ ↦ { words with next := words.base }

/-- Stores a vector, if the region has all the words for it. -/
def append? (words : WordRecorder) (vector : EncoderVector) : Option WordRecorder :=
  if words.next + vector.length ≤ words.region.size then
    some { words with
      region := words.region.store words.next vector
      next := words.next + vector.length }
  else none

def record? (words : WordRecorder) (vector : EncoderVector) :
    Option (Except RecordingFault Unit × WordRecorder) :=
  if words.isEnabled then
    match words.expectedDims.filter (vector.length ≠ ·) with
    | some expected => some (.error (.dimensionMismatch expected vector.length), words)
    | none =>
      if vector.length ≤ words.remaining then
        (words.append? vector).map fun left ↦ (.ok (), left)
      else some (.error (.capacityExceeded vector.length words.remaining), words)
  else some (.ok (), words)

/-- The address at an offset, where the recorder has a region. -/
def addressAt? (words : WordRecorder) (offset : Nat) : Option Address :=
  if words.region.isEmpty then none else words.region.addressOf? offset

def dataAddress? (words : WordRecorder) : Option Address := words.addressAt? words.base

def cursorAddress? (words : WordRecorder) : Option Address := words.addressAt? words.next

/-- Records vectors in order up to the first that is refused. -/
def recordEach? (words : WordRecorder) :
    List EncoderVector → Option (Except RecordingFault Unit × WordRecorder)
  | [] => some (.ok (), words)
  | vector :: rest =>
    match words.record? vector with
    | none => none
    | some (.error fault, left) => some (.error fault, left)
    | some (.ok _, left) => left.recordEach? rest

end WordRecorder

end EnsembleRecording
