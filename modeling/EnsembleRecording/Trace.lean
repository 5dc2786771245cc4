import EnsembleRecording.Fault

/-!
# Traces

A trace is a recording as the host sees it: a dense array of single-precision numbers with the
extents of its three axes.  `Trace.get` looks at one element, and a trace is determined by its
shape and by what `get` gives.  Traces that rearrange others are described by their elements,
through `Trace.ofFn`.

A view is cut out of the stored elements by two positions: the elements of one step, of one neuron
at one step, and of one neuron over all steps.  It is `none` where a machine cannot compute the
positions or they lie outside the trace.  Beyond that, nothing is asked of the step: where a step
has no elements, the view of any step is empty.  Looking up one element and writing a row find their
place in the same way.
-/

namespace EnsembleRecording

structure Trace where
  shape : Shape
  data : Array Binary32
  size_data : data.size = shape.count
deriving DecidableEq

namespace Trace

def ofFn (shape : Shape)
    (element : Fin shape.steps → Fin shape.neurons → Fin shape.dims → Binary32) : Trace where
  shape := shape
  data := Array.ofFn fun i ↦ element (shape.stepOf i) (shape.neuronOf i) (shape.dimOf i)
  size_data := Array.size_ofFn

/-- The trace with the given elements in storage order, if they are as many as the shape calls for
and a machine can count them. -/
def ofArray? (shape : Shape) (data : Array Binary32) : Option Trace :=
  if h : shape.count? = some data.size then some ⟨shape, data, Shape.eq_count_of_count? h⟩
  else none

/-- The trace of zeros, if a machine can count them.  A buffer for all of them is asked for at
once. -/
def zeros (shape : Shape) : Except HostFault (Option Trace) :=
  match h : shape.count? with
  | none => .ok none
  | some count =>
    if Size.FitsBuffer count Binary32.byteSize then
      .ok (some ⟨shape, Array.replicate count .zero, by
        rw [Array.size_replicate, Shape.eq_count_of_count? h]⟩)
    else .error .capacityOverflow

def isEmpty (trace : Trace) : Bool := trace.data.isEmpty

def get (trace : Trace) (step : Fin trace.shape.steps) (neuron : Fin trace.shape.neurons)
    (dim : Fin trace.shape.dims) : Binary32 :=
  have := trace.size_data
  have := Shape.index_lt_count step.isLt neuron.isLt dim.isLt
  trace.data[trace.shape.index step neuron dim]

/-- The element for a dimension of a neuron at a step, if the trace reaches so far. -/
def get? (trace : Trace) (step neuron dim : Nat) : Option Binary32 :=
  if h : step < trace.shape.steps ∧ neuron < trace.shape.neurons ∧ dim < trace.shape.dims then
    some (trace.get ⟨step, h.1⟩ ⟨neuron, h.2.1⟩ ⟨dim, h.2.2⟩)
  else none

@[simp]
theorem get_ofFn (shape : Shape)
    (element : Fin shape.steps → Fin shape.neurons → Fin shape.dims → Binary32)
    (step : Fin shape.steps) (neuron : Fin shape.neurons) (dim : Fin shape.dims) :
    (ofFn shape element).get step neuron dim = element step neuron dim := by
  have hstep := Shape.stepOf_index step neuron dim
  have hneuron := Shape.neuronOf_index step neuron dim
  have hdim := Shape.dimOf_index step neuron dim
  simp only [get, ofFn, Array.getElem_ofFn, hstep, hneuron, hdim]

/-- A trace is determined by its shape and its elements. -/
theorem eq_of_get_eq {shape : Shape} {a b : Array Binary32} {ha : a.size = shape.count}
    {hb : b.size = shape.count}
    (h : ∀ step neuron dim,
      (Trace.mk shape a ha).get step neuron dim = (Trace.mk shape b hb).get step neuron dim) :
    Trace.mk shape a ha = Trace.mk shape b hb := by
  have hdata : a = b := by
    apply Array.ext (ha.trans hb.symm)
    intro i hi _
    have hget := h (shape.stepOf ⟨i, ha ▸ hi⟩) (shape.neuronOf ⟨i, ha ▸ hi⟩)
      (shape.dimOf ⟨i, ha ▸ hi⟩)
    simpa only [get, Shape.index_of_position] using hget
  subst hdata
  rfl

/-- Equality of shapes, and of elements as numbers. -/
def equals (a b : Trace) : Bool :=
  a.shape == b.shape && a.data.isEqv b.data Binary32.equals

/-- The steps of a trace followed by those of a later one of the same neurons and dimensions. -/
def stack (trace later : Trace)
    (h : later.shape.neurons = trace.shape.neurons ∧ later.shape.dims = trace.shape.dims) :
    Trace where
  shape := trace.shape.addSteps later.shape.steps
  data := trace.data ++ later.data
  size_data := by
    rw [Array.size_append, trace.size_data, later.size_data, Shape.count_addSteps]
    simp only [Shape.count, h.1, h.2]

/-- The stored elements between two positions, if they lie in the trace. -/
def slice? (trace : Trace) (start stop : Nat) : Option (Array Binary32) :=
  if start ≤ stop ∧ stop ≤ trace.data.size then some (trace.data.extract start stop) else none

/-- The elements of all neurons at a step. -/
def step? (trace : Trace) (step : Nat) : Option (Array Binary32) := do
  let stride ← Size.mul? trace.shape.neurons trace.shape.dims
  let next ← Size.add? step 1
  let start ← Size.mul? step stride
  let stop ← Size.mul? next stride
  trace.slice? start stop

/-- Position of the first element of a neuron at a step, where a machine can compute it. -/
def rowStart? (trace : Trace) (step neuron : Nat) : Option Nat := do
  let before ← Size.mul? step trace.shape.neurons
  let row ← Size.add? before neuron
  Size.mul? row trace.shape.dims

/-- The elements of a neuron at a step.  The neuron has to be one of the trace. -/
def row? (trace : Trace) (step neuron : Nat) : Option (Array Binary32) :=
  if neuron < trace.shape.neurons then do
    let start ← trace.rowStart? step neuron
    let stop ← Size.add? start trace.shape.dims
    trace.slice? start stop
  else none

/-- The element for a dimension of a neuron at a step, found as a machine finds it.  The outer
`none` is for a position that cannot be computed or lies outside the trace, the inner one for what
the trace does not have. -/
def lookUp? (trace : Trace) (step neuron dim : Nat) : Option (Option Binary32) :=
  if step < trace.shape.steps ∧ neuron < trace.shape.neurons ∧ dim < trace.shape.dims then do
    let start ← trace.rowStart? step neuron
    let position ← Size.add? start dim
    let element ← trace.data[position]?
    return some element
  else some none

/-- The elements of a neuron at so many steps from a given one on, behind those found earlier.  The
first step without a view ends the search, however many are to follow. -/
def seriesFrom? (trace : Trace) (neuron : Nat) :
    (steps step : Nat) → (earlier : Array Binary32) → Option (Array Binary32)
  | 0, _, earlier => some earlier
  | steps + 1, step, earlier =>
    match trace.row? step neuron with
    | none => none
    | some row => trace.seriesFrom? neuron steps (step + 1) (earlier ++ row)

/-- The elements of a neuron at all steps, in order. -/
def series? (trace : Trace) (neuron : Nat) : Option (Array Binary32) :=
  trace.seriesFrom? neuron trace.shape.steps 0 #[]

/-- The trace with a row written over its elements from a position on. -/
def writeAt (trace : Trace) (start : Nat) (row : Array Binary32) : Trace :=
  ⟨trace.shape, overwrite trace.data start row.toList,
    (size_overwrite trace.data start row.toList).trans trace.size_data⟩

/-- The trace with a row in the place of a neuron at a step.  There is none where the place cannot
be computed or leads out of the trace, or where the row is not as long as the place. -/
def putRow? (trace : Trace) (step neuron : Nat) (row : Array Binary32) : Option Trace := do
  let start ← trace.rowStart? step neuron
  let stop ← Size.add? start trace.shape.dims
  if stop ≤ trace.data.size ∧ row.size = trace.shape.dims then some (trace.writeAt start row)
  else none

end Trace

end EnsembleRecording
