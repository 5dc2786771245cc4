import EnsembleRecording.Fault
import EnsembleRecording.Memory
import EnsembleRecording.Trace

/-!
# Region Layouts

A layout says how many steps of an ensemble are recorded and how many dimensions its encoders have.
Every core of the ensemble uses the same layout with its own number of neurons: it finds the size
of the core's region, the contents that the region starts with, and the trace that the region
holds after the run.  A layout without steps records nothing, and its regions are a flag alone.
-/

namespace EnsembleRecording

structure Layout where
  /-- The number of steps for which there is room. -/
  steps : Nat
  dims : Nat
deriving DecidableEq, Repr

namespace Layout

def disabled (dims : Nat) : Layout := ⟨0, dims⟩

def isEnabled (layout : Layout) : Bool := decide (0 < layout.steps)

def shape (layout : Layout) (neurons : Nat) : Shape := ⟨layout.steps, neurons, layout.dims⟩

/-- The number of data words for a core with so many neurons. -/
def dataSize? (layout : Layout) (neurons : Nat) : Option Nat := (layout.shape neurons).count?

/-- The number of words, flag included. -/
def size? (layout : Layout) (neurons : Nat) : Option Nat :=
  (layout.dataSize? neurons).bind (Size.add? · Region.dataOffset)

/-- The number of bytes, flag included. -/
def byteSize? (layout : Layout) (neurons : Nat) : Option Nat :=
  (layout.size? neurons).bind (Size.mul? · Address.wordBytes)

/-- The words that a region starts with: the flag, and zeros for the data. -/
def initialWords (layout : Layout) (size : Nat) : Array UInt32 :=
  (Array.replicate size 0).setIfInBounds Region.flagOffset (if layout.isEnabled then 1 else 0)

/-- The region of a core at an address, as it is before the run.  The address behind its last word
has to be an address too. -/
def region (layout : Layout) (address : Address) (neurons : Nat) : Except HostFault Region :=
  match layout.size? neurons with
  | none => .error (.shapeTooLarge (layout.shape neurons))
  | some size =>
    match address.offset? size with
    | none => .error (.shapeTooLarge (layout.shape neurons))
    | some _ => (Region.ofWords address (layout.initialWords size)).mapError .recording

/-- The first steps of the recording in the region of a core.  A run may have been shorter than the
layout has room for, so the number of steps is given. -/
def readBack (layout : Layout) (region : Region) (neurons steps : Nat) : Except HostFault Trace :=
  let shape : Shape := ⟨steps, neurons, layout.dims⟩
  match hcount : shape.count? with
  | none => .error (.shapeTooLarge shape)
  | some count =>
    if count ≤ region.capacity then
      match helements : region.elements? Region.dataOffset count with
      | none => .error .outOfBounds
      | some elements =>
        .ok ⟨shape, elements.map Fixed.toBinary32, by
          rw [Array.size_map, Region.size_of_elements? helements, Shape.eq_count_of_count? hcount]⟩
    else .error (.recording (.capacityExceeded count region.capacity))

end Layout

end EnsembleRecording
