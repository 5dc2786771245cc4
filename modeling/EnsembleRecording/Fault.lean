import EnsembleRecording.Memory
import EnsembleRecording.Shape

/-!
# Faults

What can go wrong on the host, while regions are laid out and transferred and recordings are read
back, stitched together and sampled.  Most of it is reported and leaves the program going.  Two
faults are not foreseen by any operation that meets them, and end it: a position that cannot be
computed or leads past what is there, and a buffer too large to be asked for.
-/

namespace EnsembleRecording

inductive FailureKind
  /-- The read was cut short and may be tried again. -/
  | interrupted
  | endOfStream
  /-- The receiver takes no more bytes. -/
  | noRoom
  | other (name : String)
deriving DecidableEq, Repr

/-- A failure of a stream, with the words in which the stream describes it. -/
structure StreamFailure where
  kind : FailureKind
  text : String
deriving DecidableEq, Repr

namespace StreamFailure

/-- A read that goes past the last byte. -/
def atEnd : StreamFailure := ⟨.endOfStream, "failed to fill whole buffer"⟩

/-- A write that goes past the room that there is. -/
def full : StreamFailure := ⟨.noRoom, "failed to write whole buffer"⟩

end StreamFailure

inductive ProbeDefect
  /-- The probe takes every zeroth step. -/
  | zeroSampleEvery
  /-- The range of neurons ends before it starts. -/
  | reversedRange (range : NeuronRange)
  /-- The probe takes every zeroth neuron. -/
  | zeroStride
  | other (detail : String)
deriving DecidableEq, Repr

def ProbeDefect.detail : ProbeDefect → String
  | zeroSampleEvery => "sample_every must be at least 1"
  | reversedRange range => "neuron range " ++ range.toString ++ " is reversed"
  | zeroStride => "neuron stride must be at least 1"
  | other detail => detail

inductive HostFault
  | transfer (failure : StreamFailure)
  /-- The stream ended before the last word of an image. -/
  | truncated (expected read : Nat)
  | recording (fault : RecordingFault)
  /-- A range of neurons is empty or goes beyond the ensemble. -/
  | invalidSlice (slice : NeuronRange) (neurons : Nat)
  /-- A range of neurons meets one that was supplied before. -/
  | overlappingSlice (slice earlier : NeuronRange)
  /-- Some neurons of the ensemble have no data yet. -/
  | incompleteCoverage (covered neurons : Nat)
  | shapeMismatch (expected actual : Shape)
  /-- The elements of a shape cannot be counted, or not be addressed. -/
  | shapeTooLarge (shape : Shape)
  | invalidProbe (defect : ProbeDefect)
  /-- A size or a position leaves the machine, or a view leads past what it is taken of. -/
  | outOfBounds
  /-- A buffer was asked for that is larger than any can be. -/
  | capacityOverflow
deriving DecidableEq, Repr

namespace HostFault

def message : HostFault → String
  | transfer failure => "I/O error: " ++ failure.text
  | truncated expected read =>
    s!"truncated region image: expected {expected} words, read {read}"
  | recording fault => fault.message
  | invalidSlice slice neurons =>
    "neuron slice " ++ slice.toString ++ s!" is invalid for {neurons} neurons"
  | overlappingSlice slice earlier =>
    "neuron slice " ++ slice.toString ++ " overlaps " ++ earlier.toString
  | incompleteCoverage covered neurons =>
    s!"neuron slices cover {covered} of {neurons} neurons"
  | shapeMismatch expected actual =>
    "trace shape mismatch: expected " ++ expected.toString ++ ", got " ++ actual.toString
  | shapeTooLarge shape => "shape " ++ shape.toString ++ " is too large to address"
  | invalidProbe defect => "invalid probe: " ++ defect.detail
  | outOfBounds => "view out of bounds"
  | capacityOverflow => "capacity overflow"

/-- The fault is not reported but ends the program. -/
def isPanic : HostFault → Bool
  | outOfBounds | capacityOverflow => true
  | _ => false

end HostFault

end EnsembleRecording
