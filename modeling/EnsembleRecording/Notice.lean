import EnsembleRecording.Layout
import EnsembleRecording.Recorder

/-!
# Notices

Some operations leave a line in the log of a run.  What they have to say follows from what they
were given and what came of it, so the operations themselves are free of it: each function here
gives the notices of one operation.  The reference profile is a recording of the size that one core
usually has, ready to be recorded into, with the notices of setting it up.
-/

namespace EnsembleRecording

inductive Notice
  | initialised (address : Address) (isEnabled : Bool) (capacity : Nat)
  /-- A run goes on without recording. -/
  | disabled (fault : RecordingFault)
  /-- A recorder went back to the start of its data. -/
  | cursorReset (discarded : Nat)
  | regionBuilt (address : Address) (shape : Shape) (bytes : Nat)
  | readBack (shape : Shape)
  | assembled (slice : NeuronRange)
deriving DecidableEq, Repr

namespace Notice

/-- The line for the log: severity, message and data. -/
def line : Notice → String
  | initialised address isEnabled capacity =>
    "INFO encoder recording initialised address=" ++ address.toString ++
      s!" enabled={isEnabled} capacity={capacity}"
  | disabled fault => "WARN encoder recording disabled for this run error=" ++ fault.message
  | cursorReset discarded => s!"DEBUG encoder recording cursor reset discarded={discarded}"
  | regionBuilt address shape bytes =>
    "INFO built encoder recording region address=" ++ address.toString ++
      s!" n_neurons={shape.neurons} n_steps={shape.steps} n_dims={shape.dims} bytes={bytes}"
  | readBack shape =>
    s!"DEBUG read back encoder recording n_steps={shape.steps} n_neurons={shape.neurons}" ++
      s!" n_dims={shape.dims}"
  | assembled slice =>
    s!"DEBUG assembled neuron slice start={slice.start} end={slice.stop}"

/-- Taking a region, given what came of it. -/
def ofAttach : Except RecordingFault WordRecorder → List Notice
  | .ok recorder =>
    [.initialised recorder.region.address recorder.isEnabled recorder.region.capacity]
  | .error _ => []

/-- Taking a region or doing without, given what came of taking it. -/
def ofAttachOrDisabled : Except RecordingFault WordRecorder → List Notice
  | .ok recorder => ofAttach (.ok recorder)
  | .error fault => [.disabled fault]

/-- Resetting a recorder, given its position before. -/
def ofReset (cursor : Nat) : List Notice := [.cursorReset cursor]

/-- Laying out a region for so many neurons, given what came of it. -/
def ofRegion (layout : Layout) (neurons : Nat) : Except HostFault Region → List Notice
  | .ok region => [.regionBuilt region.address (layout.shape neurons) region.byteSize]
  | .error _ => []

/-- Reading back a recording, given what came of it. -/
def ofReadBack : Except HostFault Trace → List Notice
  | .ok trace => [.readBack trace.shape]
  | .error _ => []

/-- Taking in a slice, given whether it was accepted. -/
def ofInsert (slice : NeuronRange) : Except HostFault Unit → List Notice
  | .ok _ => [.assembled slice]
  | .error _ => []

end Notice

namespace Profile

def neurons : Nat := 100

def dims : Nat := 16

/-- Steps for which there is room. -/
def steps : Nat := 1000

def address : Address := ⟨0x60000000⟩

/-- The layout of a core that records, or of one that does not. -/
def layout (records : Bool) : Layout :=
  if records then ⟨steps, dims⟩ else Layout.disabled dims

def region (records : Bool) : Except HostFault Region := (layout records).region address neurons

def recorder (records : Bool) : Except HostFault WordRecorder :=
  (region records).bind fun region ↦ (WordRecorder.attach (some region) none).mapError .recording

/-- What laying out the region and taking it say. -/
def notices (records : Bool) : List Notice :=
  Notice.ofRegion (layout records) neurons (region records) ++
    match region records with
    | .ok region => Notice.ofAttach (WordRecorder.attach (some region) none)
    | .error _ => []

end Profile

end EnsembleRecording
