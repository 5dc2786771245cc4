import EnsembleRecording.Trace

/-!
# Assembling an Ensemble

An ensemble is divided among cores by ranges of neurons, its slices, and every core records its own
slice.  An assembly starts from zeros and takes in the recordings of the cores in any order.  The
slices may not overlap, so when they are as many neurons as the ensemble has, every neuron has its
data.

A part is copied row by row, each over the stored row of its neuron at the same step, which
`insert?` does and which can fail at every row.  `insert` describes the same by the elements that
the assembly has afterwards.
-/

namespace EnsembleRecording

namespace Trace

/-- A trace with the neurons from `start` on replaced by those of a part.  Elements that the part
does not have stay as they are. -/
def overlay (trace part : Trace) (start : Nat) : Trace :=
  ofFn trace.shape fun step neuron dim ↦
    if start ≤ neuron then
      (part.get? step (neuron - start) dim).getD (trace.get step neuron dim)
    else trace.get step neuron dim

/-- Copies the row of a neuron of a part over that of the neuron so many further on. -/
def copyRow? (trace part : Trace) (start step neuron : Nat) : Option Trace :=
  (part.row? step neuron).bind fun row ↦ trace.putRow? step (start + neuron) row

/-- Copies the rows of a part over those of a slice, step after step and in each step neuron after
neuron, up to the first row that cannot be copied. -/
def copyRows? (trace part : Trace) (slice : NeuronRange) : Option Trace :=
  (List.range trace.shape.steps).foldlM (fun left step ↦
    (List.range slice.size).foldlM (fun left neuron ↦
      left.copyRow? part slice.start step neuron) left) trace

end Trace

/-- The recording of an ensemble, as far as it has been put together. -/
structure Assembly where
  trace : Trace
  /-- The slices taken in, earliest first. -/
  slices : List NeuronRange
deriving DecidableEq

namespace Assembly

def ofShape (shape : Shape) : Except HostFault Assembly :=
  match Trace.zeros shape with
  | .error fault => .error fault
  | .ok none => .error (.shapeTooLarge shape)
  | .ok (some trace) => .ok ⟨trace, []⟩

/-- Enters a slice into a table that has one slice for each first neuron: in the place of the slice
with the same first neuron, or behind all others. -/
def enter (slice : NeuronRange) : List NeuronRange → List NeuronRange
  | [] => [slice]
  | earlier :: rest =>
    if earlier.start = slice.start then slice :: rest else earlier :: enter slice rest

/-- A slice whose first neuron is new goes behind all others. -/
theorem enter_eq_concat {slices : List NeuronRange} {slice : NeuronRange}
    (h : ∀ earlier ∈ slices, earlier.start ≠ slice.start) :
    enter slice slices = slices ++ [slice] := by
  induction slices with
  | nil => rfl
  | cons earlier rest ih =>
    obtain ⟨hearlier, hrest⟩ := List.forall_mem_cons.1 h
    rw [enter, if_neg hearlier, ih hrest, List.cons_append]

/-- A slice whose first neuron is that of an earlier one takes the place of the first such. -/
theorem enter_eq_replace {before after : List NeuronRange} {slice earlier : NeuronRange}
    (hbefore : ∀ other ∈ before, other.start ≠ slice.start)
    (hearlier : earlier.start = slice.start) :
    enter slice (before ++ earlier :: after) = before ++ slice :: after := by
  induction before with
  | nil => exact if_pos hearlier
  | cons other rest ih =>
    obtain ⟨hother, hrest⟩ := List.forall_mem_cons.1 hbefore
    rw [List.cons_append, enter, if_neg hother, ih hrest, List.cons_append]

/-- The shape that the recording of a slice has to have. -/
def partShape (assembly : Assembly) (slice : NeuronRange) : Shape :=
  ⟨assembly.trace.shape.steps, slice.size, assembly.trace.shape.dims⟩

/-- Takes in the recording of a slice.  The slice itself is judged first, then its overlap with the
slices taken in before, then the shape of the recording.  The second component is the assembly as it
is left. -/
def insert (assembly : Assembly) (slice : NeuronRange) (part : Trace) :
    Except HostFault Unit × Assembly :=
  if slice.stop ≤ slice.start ∨ assembly.trace.shape.neurons < slice.stop then
    (.error (.invalidSlice slice assembly.trace.shape.neurons), assembly)
  else
    match assembly.slices.find? slice.overlaps with
    | some earlier => (.error (.overlappingSlice slice earlier), assembly)
    | none =>
      if part.shape = assembly.partShape slice then
        (.ok (), ⟨assembly.trace.overlay part slice.start, enter slice assembly.slices⟩)
      else (.error (.shapeMismatch (assembly.partShape slice) part.shape), assembly)

/-- An insertion row by row.  There is none if a row of the part cannot be copied. -/
def insert? (assembly : Assembly) (slice : NeuronRange) (part : Trace) :
    Option (Except HostFault Unit × Assembly) :=
  if slice.stop ≤ slice.start ∨ assembly.trace.shape.neurons < slice.stop then
    some (.error (.invalidSlice slice assembly.trace.shape.neurons), assembly)
  else
    match assembly.slices.find? slice.overlaps with
    | some earlier => some (.error (.overlappingSlice slice earlier), assembly)
    | none =>
      if part.shape = assembly.partShape slice then
        (assembly.trace.copyRows? part slice).map fun trace ↦
          (.ok (), ⟨trace, enter slice assembly.slices⟩)
      else some (.error (.shapeMismatch (assembly.partShape slice) part.shape), assembly)

/-- The sizes of the slices taken in, added up. -/
def covered (assembly : Assembly) : Nat :=
  (assembly.slices.map NeuronRange.size).foldr (· + ·) 0

def finish (assembly : Assembly) : Except HostFault Trace :=
  if assembly.covered = assembly.trace.shape.neurons then .ok assembly.trace
  else .error (.incompleteCoverage assembly.covered assembly.trace.shape.neurons)

end Assembly

end EnsembleRecording
