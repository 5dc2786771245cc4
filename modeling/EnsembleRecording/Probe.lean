import EnsembleRecording.Trace

/-!
# Probes and Histories

A probe picks steps and neurons out of the recording of an ensemble: every so many steps from the
first on, and every so many neurons of a range from its start on.  All dimensions of a neuron are
kept.  Sampling lists the steps and the neurons in buffers of their own before it gathers a single
element, so that it asks for these buffers also where there is nothing to be gathered.

The recordings of consecutive runs, sampled or not, are stacked along the step axis in a history,
whose first run fixes the numbers of neurons and dimensions.
-/

namespace EnsembleRecording

namespace Trace

/-- The rows of some neurons at a step, behind the elements gathered before. -/
def gatherStep? (trace : Trace) (neurons : List Nat) (earlier : Array Binary32) (step : Nat) :
    Option (Array Binary32) :=
  neurons.foldlM (fun data neuron ↦ do
    let row ← trace.row? step neuron
    return data ++ row) earlier

/-- The trace of the rows of some neurons at some steps, step after step and in each step neuron
after neuron.  The number of elements is computed and a buffer for as many is asked for beforehand,
and as many have to be gathered. -/
def gather (trace : Trace) (steps neurons : List Nat) : Except HostFault Trace :=
  let shape : Shape := ⟨steps.length, neurons.length, trace.shape.dims⟩
  match shape.count? with
  | none => .error .outOfBounds
  | some count =>
    if Size.FitsBuffer count Binary32.byteSize then
      match steps.foldlM (trace.gatherStep? neurons) #[] with
      | none => .error .outOfBounds
      | some data =>
        if h : data.size = shape.count then .ok ⟨shape, data, h⟩ else .error .outOfBounds
    else .error .capacityOverflow

end Trace

/-- The number of multiples of `stride` below `size`. -/
def strideCount (size stride : Nat) : Nat := (size + stride - 1) / stride

theorem mul_lt_of_lt_strideCount {size stride i : Nat} (hstride : 0 < stride)
    (h : i < strideCount size stride) : i * stride < size := by
  have := (Nat.le_div_iff_mul_le hstride).1 (Nat.succ_le_of_lt h)
  rw [Nat.succ_mul] at this
  omega

structure Probe where
  sampleEvery : Nat
  neurons : NeuronRange
  stride : Nat
  sampleEvery_pos : 0 < sampleEvery
  neurons_ordered : neurons.start ≤ neurons.stop
  stride_pos : 0 < stride
deriving DecidableEq

namespace Probe

/-- Keeps every so many steps of all neurons in a range. -/
def ofRange (sampleEvery : Nat) (neurons : NeuronRange) : Except HostFault Probe :=
  if hpos : 0 < sampleEvery then
    if hordered : neurons.start ≤ neurons.stop then
      .ok ⟨sampleEvery, neurons, 1, hpos, hordered, Nat.one_pos⟩
    else .error (.invalidProbe (.reversedRange neurons))
  else .error (.invalidProbe .zeroSampleEvery)

/-- Keeps every step of the first so many neurons. -/
def all (neurons : Nat) : Probe :=
  ⟨1, ⟨0, neurons⟩, 1, Nat.one_pos, Nat.zero_le _, Nat.one_pos⟩

def withStride (probe : Probe) (stride : Nat) : Except HostFault Probe :=
  if h : 0 < stride then .ok { probe with stride := stride, stride_pos := h }
  else .error (.invalidProbe .zeroStride)

def neuronCount (probe : Probe) : Nat := strideCount probe.neurons.size probe.stride

/-- The neuron kept in a position. -/
def neuronAt (probe : Probe) (position : Nat) : Nat :=
  probe.neurons.start + position * probe.stride

theorem neuronAt_lt_stop {probe : Probe} {position : Nat} (h : position < probe.neuronCount) :
    probe.neuronAt position < probe.neurons.stop := by
  have := mul_lt_of_lt_strideCount probe.stride_pos h
  have := probe.neurons_ordered
  unfold NeuronRange.size at *
  unfold neuronAt
  omega

/-- The first neurons kept, at most `limit` of them. -/
def firstNeurons (probe : Probe) (limit : Nat) : List Nat :=
  (List.range (min limit probe.neuronCount)).map probe.neuronAt

def stepCount (probe : Probe) (steps : Nat) : Nat := strideCount steps probe.sampleEvery

theorem mul_sampleEvery_lt {probe : Probe} {steps position : Nat}
    (h : position < probe.stepCount steps) : position * probe.sampleEvery < steps :=
  mul_lt_of_lt_strideCount probe.sampleEvery_pos h

/-- So many positions from a first one on, each a stride behind the one before, in a buffer of their
own. -/
def positions (start count stride : Nat) : Except HostFault (List Nat) :=
  if Size.FitsBuffer count Size.byteSize then .ok (List.range' start count stride)
  else .error .capacityOverflow

/-- The part of a trace that the probe keeps.  The range has to lie within the trace. -/
def apply (probe : Probe) (trace : Trace) : Except HostFault Trace :=
  if trace.shape.neurons < probe.neurons.stop then
    .error (.invalidSlice probe.neurons trace.shape.neurons)
  else do
    let steps ← positions 0 (probe.stepCount trace.shape.steps) probe.sampleEvery
    let neurons ← positions probe.neurons.start probe.neuronCount probe.stride
    trace.gather steps neurons

end Probe

structure History where
  /-- The stacked recordings, once there is one. -/
  trace? : Option Trace
  runs : Nat
deriving DecidableEq

namespace History

def empty : History := ⟨none, 0⟩

/-- Takes in the recording of the next run.  Its number of steps is free.  The second component is
the history as it is left. -/
def push (history : History) (run : Trace) : Except HostFault Unit × History :=
  match history.trace? with
  | none => (.ok (), ⟨some run, history.runs + 1⟩)
  | some earlier =>
    if h : run.shape.neurons = earlier.shape.neurons ∧ run.shape.dims = earlier.shape.dims then
      (.ok (), ⟨some (earlier.stack run h), history.runs + 1⟩)
    else
      let expected : Shape := ⟨run.shape.steps, earlier.shape.neurons, earlier.shape.dims⟩
      (.error (.shapeMismatch expected run.shape), history)

end History

end EnsembleRecording
