import EnsembleRecording.Memory

/-!
# Shapes and Ranges

A recording of an ensemble has three axes: the steps of the run, the neurons of the ensemble and
the dimensions of each neuron's encoder.  Its elements are stored steps first, then neurons, then
dimensions, so that all that belongs to one step lies together, and in it all that belongs to one
neuron.  The neurons of an ensemble are numbered from zero, and each core simulates a range of them.
-/

namespace EnsembleRecording

/-- The extents of a recording. -/
structure Shape where
  steps : Nat
  neurons : Nat
  dims : Nat
deriving DecidableEq, Repr, Inhabited

namespace Shape

/-- The number of elements. -/
def count (shape : Shape) : Nat := shape.steps * shape.neurons * shape.dims

/-- The number of elements where a machine can count them, multiplying from left to right.  A shape
whose steps and neurons alone outgrow the machine is refused even where it has no dimensions. -/
def count? (shape : Shape) : Option Nat :=
  (Size.mul? shape.steps shape.neurons).bind fun rows ↦ Size.mul? rows shape.dims

theorem count?_eq_some_iff {shape : Shape} {count : Nat} :
    shape.count? = some count ↔
      shape.steps * shape.neurons < Size.limit ∧ shape.count < Size.limit ∧
        count = shape.count := by
  unfold count?
  simp only [Option.bind_eq_some_iff, Size.mul?_eq_some_iff]
  constructor
  · rintro ⟨rows, ⟨hrows, rfl⟩, hcount, rfl⟩
    exact ⟨hrows, hcount, rfl⟩
  · rintro ⟨hrows, hcount, rfl⟩
    exact ⟨_, ⟨hrows, rfl⟩, hcount, rfl⟩

theorem eq_count_of_count? {shape : Shape} {n : Nat} (h : shape.count? = some n) :
    n = shape.count :=
  (count?_eq_some_iff.1 h).2.2

/-- The shape of a recording that goes on for so many steps more. -/
def addSteps (shape : Shape) (steps : Nat) : Shape :=
  ⟨shape.steps + steps, shape.neurons, shape.dims⟩

theorem count_addSteps (shape : Shape) (steps : Nat) :
    (shape.addSteps steps).count = shape.count + steps * shape.neurons * shape.dims := by
  simp only [count, addSteps, Nat.add_mul]

protected def toString (shape : Shape) : String :=
  s!"({shape.steps}, {shape.neurons}, {shape.dims})"

/-- Position of an element in storage order. -/
def index (shape : Shape) (step neuron dim : Nat) : Nat :=
  (step * shape.neurons + neuron) * shape.dims + dim

/-- The row of a neuron at a step comes before the rows of the steps behind the last. -/
theorem row_lt {steps neurons step neuron : Nat} (hstep : step < steps)
    (hneuron : neuron < neurons) : step * neurons + neuron < steps * neurons := by
  calc step * neurons + neuron < step * neurons + neurons := Nat.add_lt_add_left hneuron _
    _ = (step + 1) * neurons := (Nat.succ_mul step neurons).symm
    _ ≤ steps * neurons := Nat.mul_le_mul_right _ hstep

theorem index_lt_count {shape : Shape} {step neuron dim : Nat} (hstep : step < shape.steps)
    (hneuron : neuron < shape.neurons) (hdim : dim < shape.dims) :
    shape.index step neuron dim < shape.count :=
  row_lt (row_lt hstep hneuron) hdim

theorem dims_pos_of_lt_count {shape : Shape} {i : Nat} (h : i < shape.count) : 0 < shape.dims := by
  refine Nat.pos_of_ne_zero fun hzero ↦ ?_
  rw [count, hzero, Nat.mul_zero] at h
  exact Nat.not_lt_zero i h

theorem neurons_pos_of_lt_count {shape : Shape} {i : Nat} (h : i < shape.count) :
    0 < shape.neurons := by
  refine Nat.pos_of_ne_zero fun hzero ↦ ?_
  rw [count, hzero, Nat.mul_zero, Nat.zero_mul] at h
  exact Nat.not_lt_zero i h

/-- The step to which the element at a position belongs. -/
def stepOf (shape : Shape) (i : Fin shape.count) : Fin shape.steps :=
  ⟨i / shape.dims / shape.neurons,
    Nat.div_lt_of_lt_mul <| by
      rw [Nat.mul_comm shape.neurons]
      exact Nat.div_lt_of_lt_mul (by rw [Nat.mul_comm shape.dims]; exact i.isLt)⟩

/-- The neuron to which the element at a position belongs. -/
def neuronOf (shape : Shape) (i : Fin shape.count) : Fin shape.neurons :=
  ⟨i / shape.dims % shape.neurons, Nat.mod_lt _ (neurons_pos_of_lt_count i.isLt)⟩

/-- The dimension to which the element at a position belongs. -/
def dimOf (shape : Shape) (i : Fin shape.count) : Fin shape.dims :=
  ⟨i % shape.dims, Nat.mod_lt _ (dims_pos_of_lt_count i.isLt)⟩

/-- Every position is that of the element which belongs to it. -/
theorem index_of_position (shape : Shape) (i : Fin shape.count) :
    shape.index (shape.stepOf i) (shape.neuronOf i) (shape.dimOf i) = i := by
  simp only [index, stepOf, neuronOf, dimOf, Nat.div_add_mod']

/-- The row of an element is found by dividing its position by the length of a row. -/
theorem index_div_dims {shape : Shape} {step neuron dim : Nat} (hdim : dim < shape.dims) :
    shape.index step neuron dim / shape.dims = step * shape.neurons + neuron := by
  have hpos : 0 < shape.dims := Nat.lt_of_le_of_lt (Nat.zero_le dim) hdim
  rw [index, Nat.mul_comm, Nat.mul_add_div hpos, Nat.div_eq_of_lt hdim, Nat.add_zero]

theorem stepOf_index {shape : Shape} (step : Fin shape.steps) (neuron : Fin shape.neurons)
    (dim : Fin shape.dims) :
    shape.stepOf ⟨shape.index step neuron dim, index_lt_count step.isLt neuron.isLt dim.isLt⟩ =
      step := by
  have hpos : 0 < shape.neurons := Nat.lt_of_le_of_lt (Nat.zero_le _) neuron.isLt
  apply Fin.ext
  simp only [stepOf, index_div_dims dim.isLt]
  rw [Nat.mul_comm, Nat.mul_add_div hpos, Nat.div_eq_of_lt neuron.isLt, Nat.add_zero]

theorem neuronOf_index {shape : Shape} (step : Fin shape.steps) (neuron : Fin shape.neurons)
    (dim : Fin shape.dims) :
    shape.neuronOf ⟨shape.index step neuron dim, index_lt_count step.isLt neuron.isLt dim.isLt⟩ =
      neuron := by
  apply Fin.ext
  simp only [neuronOf, index_div_dims dim.isLt]
  rw [Nat.mul_comm, Nat.mul_add_mod, Nat.mod_eq_of_lt neuron.isLt]

theorem dimOf_index {shape : Shape} (step : Fin shape.steps) (neuron : Fin shape.neurons)
    (dim : Fin shape.dims) :
    shape.dimOf ⟨shape.index step neuron dim, index_lt_count step.isLt neuron.isLt dim.isLt⟩ =
      dim := by
  apply Fin.ext
  simp only [dimOf, index]
  rw [Nat.mul_comm, Nat.mul_add_mod, Nat.mod_eq_of_lt dim.isLt]

end Shape

/-- The neurons from `start` on and before `stop`.  A range whose bounds are reversed holds none. -/
structure NeuronRange where
  start : Nat
  stop : Nat
deriving DecidableEq, Repr, Inhabited

namespace NeuronRange

/-- The number of neurons in the range. -/
def size (range : NeuronRange) : Nat := range.stop - range.start

/-- A neuron lies in the range. -/
def Contains (range : NeuronRange) (neuron : Nat) : Prop :=
  range.start ≤ neuron ∧ neuron < range.stop

instance (range : NeuronRange) (neuron : Nat) : Decidable (range.Contains neuron) :=
  inferInstanceAs (Decidable (_ ∧ _))

/-- Whether two ranges that hold neurons share one. -/
def overlaps (range other : NeuronRange) : Bool :=
  decide (range.start < other.stop) && decide (other.start < range.stop)

protected def toString (range : NeuronRange) : String := s!"{range.start}..{range.stop}"

end NeuronRange

end EnsembleRecording
