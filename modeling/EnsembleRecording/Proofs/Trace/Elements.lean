import EnsembleRecording.Trace

/-!
# Elements of a Trace

What `Trace.get?` gives for the traces that the library builds.  A trace has an element wherever its
shape has a place for one, and nowhere else, so two traces of a shape are told apart by it.  A row
is cut out of the stored elements by positions that a machine computes: where the elements of a
trace can be counted none of these computations leaves the machine, and the row holds what the trace
has for its neuron and step.
-/

namespace EnsembleRecording

/-- The rule of a counted loop: where something holds at first and each round can be done and
carries it on, the loop can be done and it holds at the end. -/
theorem exists_foldlM_range_eq_some {σ : Type} {round : σ → Nat → Option σ} {start : σ}
    {count : Nat} (holds : Nat → σ → Prop) (hstart : holds 0 start)
    (hround : ∀ i < count, ∀ state, holds i state →
      ∃ next, round state i = some next ∧ holds (i + 1) next) :
    ∃ last, (List.range count).foldlM round start = some last ∧ holds count last := by
  induction count with
  | zero => exact ⟨start, rfl, hstart⟩
  | succ count ih =>
    obtain ⟨state, hloop, hstate⟩ := ih fun i hi ↦ hround i (Nat.lt_succ_of_lt hi)
    obtain ⟨next, hlast, hnext⟩ := hround count (Nat.lt_succ_self count) state hstate
    refine ⟨next, ?_, hnext⟩
    rw [List.range_succ, List.foldlM_append, hloop, Option.bind_eq_bind, Option.bind_some,
      List.foldlM_cons, hlast]
    rfl

/-- A counted loop of which the state before each round is known. -/
theorem foldlM_range_eq_some {σ : Type} {round : σ → Nat → Option σ} {count : Nat}
    (state : Nat → σ) (hround : ∀ i < count, round (state i) i = some (state (i + 1))) :
    (List.range count).foldlM round (state 0) = some (state count) := by
  have hloop : ∃ last, (List.range count).foldlM round (state 0) = some last ∧
      last = state count :=
    exists_foldlM_range_eq_some (fun i before ↦ before = state i) rfl fun i hi before hbefore ↦
      ⟨_, hbefore ▸ hround i hi, rfl⟩
  obtain ⟨last, hlast, rfl⟩ := hloop
  exact hlast

namespace Shape

/-- The shape has a place for an element. -/
structure HasPlace (shape : Shape) (step neuron dim : Nat) : Prop where
  step_lt : step < shape.steps
  neuron_lt : neuron < shape.neurons
  dim_lt : dim < shape.dims

/-- No axis of the shape is longer than that of another. -/
structure IsWithin (shape larger : Shape) : Prop where
  steps_le : shape.steps ≤ larger.steps
  neurons_le : shape.neurons ≤ larger.neurons
  dims_le : shape.dims ≤ larger.dims

theorem isWithin_of_steps_le {steps more : Nat} (h : steps ≤ more) (neurons dims : Nat) :
    IsWithin ⟨steps, neurons, dims⟩ ⟨more, neurons, dims⟩ :=
  ⟨h, Nat.le_refl neurons, Nat.le_refl dims⟩

theorem IsWithin.count_le {shape larger : Shape} (h : shape.IsWithin larger) :
    shape.count ≤ larger.count :=
  Nat.mul_le_mul (Nat.mul_le_mul h.steps_le h.neurons_le) h.dims_le

/-- Where the elements of a shape can be counted, so can those of a smaller one. -/
theorem IsWithin.count?_eq {shape larger : Shape} (h : shape.IsWithin larger) {count : Nat}
    (hcount : larger.count? = some count) : shape.count? = some shape.count := by
  obtain ⟨hrows, helements, -⟩ := count?_eq_some_iff.1 hcount
  apply count?_eq_some_iff.2
  refine ⟨?_, Nat.lt_of_le_of_lt h.count_le helements, rfl⟩
  exact Nat.lt_of_le_of_lt (Nat.mul_le_mul h.steps_le h.neurons_le) hrows

end Shape

namespace Trace

theorem get?_eq_some_get {trace : Trace} {step neuron dim : Nat}
    (h : trace.shape.HasPlace step neuron dim) :
    trace.get? step neuron dim =
      some (trace.get ⟨step, h.step_lt⟩ ⟨neuron, h.neuron_lt⟩ ⟨dim, h.dim_lt⟩) :=
  dif_pos ⟨h.step_lt, h.neuron_lt, h.dim_lt⟩

theorem get?_eq_none {trace : Trace} {step neuron dim : Nat}
    (h : ¬trace.shape.HasPlace step neuron dim) : trace.get? step neuron dim = none :=
  dif_neg fun hplace ↦ h ⟨hplace.1, hplace.2.1, hplace.2.2⟩

theorem exists_get?_eq_some {trace : Trace} {step neuron dim : Nat}
    (h : trace.shape.HasPlace step neuron dim) :
    ∃ element, trace.get? step neuron dim = some element :=
  ⟨_, get?_eq_some_get h⟩

/-- The elements lie in storage order. -/
theorem get?_eq_data {trace : Trace} {step neuron dim : Nat}
    (h : trace.shape.HasPlace step neuron dim) :
    trace.get? step neuron dim = trace.data[trace.shape.index step neuron dim]? := by
  have hindex := Shape.index_lt_count h.step_lt h.neuron_lt h.dim_lt
  rw [get?_eq_some_get h, Array.getElem?_eq_getElem (by rwa [trace.size_data])]
  rfl

theorem get?_ofFn {shape : Shape} {step neuron dim : Nat} (h : shape.HasPlace step neuron dim)
    (element : Fin shape.steps → Fin shape.neurons → Fin shape.dims → Binary32) :
    (ofFn shape element).get? step neuron dim =
      some (element ⟨step, h.step_lt⟩ ⟨neuron, h.neuron_lt⟩ ⟨dim, h.dim_lt⟩) := by
  have hplace : (ofFn shape element).shape.HasPlace step neuron dim := h
  rw [get?_eq_some_get hplace]
  exact congrArg some
    (get_ofFn shape element ⟨step, h.step_lt⟩ ⟨neuron, h.neuron_lt⟩ ⟨dim, h.dim_lt⟩)

/-- A trace of zeros has been counted, and there was a buffer to be had for it. -/
theorem zeros_eq_ok_some {shape : Shape} {trace : Trace} (h : zeros shape = .ok (some trace)) :
    trace.shape = shape ∧ shape.count? = some trace.data.size ∧
      Size.FitsBuffer trace.data.size Binary32.byteSize ∧
      trace.data = Array.replicate trace.data.size .zero := by
  unfold zeros at h
  split at h
  · cases h
  · next count hcount =>
    split at h
    · next hfits =>
      cases h
      simp only [Array.size_replicate]
      exact ⟨trivial, hcount, hfits, trivial⟩
    · cases h

theorem exists_zeros_eq_ok {shape : Shape} {count : Nat} (hcount : shape.count? = some count)
    (hfits : Size.FitsBuffer count Binary32.byteSize) :
    ∃ trace, zeros shape = .ok (some trace) := by
  unfold zeros
  split
  · next hnone => cases hnone.symm.trans hcount
  · next found hfound =>
    cases hfound.symm.trans hcount
    exact ⟨_, if_pos hfits⟩

theorem zeros_eq_capacityOverflow {shape : Shape} {count : Nat}
    (hcount : shape.count? = some count) (hlarge : ¬Size.FitsBuffer count Binary32.byteSize) :
    zeros shape = .error .capacityOverflow := by
  unfold zeros
  split
  · next hnone => cases hnone.symm.trans hcount
  · next found hfound =>
    cases hfound.symm.trans hcount
    exact if_neg hlarge

theorem get?_zeros {shape : Shape} {trace : Trace} (h : zeros shape = .ok (some trace))
    {step neuron dim : Nat} (hplace : shape.HasPlace step neuron dim) :
    trace.get? step neuron dim = some .zero := by
  obtain ⟨rfl, -, -, hdata⟩ := zeros_eq_ok_some h
  have hindex := Shape.index_lt_count hplace.step_lt hplace.neuron_lt hplace.dim_lt
  rw [← trace.size_data] at hindex
  rw [get?_eq_data hplace, hdata, Array.getElem?_replicate, if_pos hindex]

/-- A trace that is made for a shape, of zeros or of given elements. -/
inductive Built (trace : Trace) : Prop
  | zeros {shape : Shape} (h : Trace.zeros shape = .ok (some trace))
  | ofArray {shape : Shape} {data : Array Binary32} (h : ofArray? shape data = some trace)

theorem Built.count?_eq {trace : Trace} (h : trace.Built) :
    trace.shape.count? = some trace.data.size := by
  cases h with
  | zeros h =>
    obtain ⟨rfl, hcount, -, -⟩ := zeros_eq_ok_some h
    exact hcount
  | ofArray h =>
    unfold ofArray? at h
    split at h
    · next hcount =>
      cases h
      exact hcount
    · contradiction

/-- Traces of one shape with the same elements are the same. -/
theorem eq_of_get?_eq {a b : Trace} (hshape : a.shape = b.shape)
    (h : ∀ step neuron dim, a.shape.HasPlace step neuron dim →
      a.get? step neuron dim = b.get? step neuron dim) : a = b := by
  cases a with
  | mk shape data hdata =>
    cases b with
    | mk shape' data' hdata' =>
      obtain rfl : shape = shape' := hshape
      apply eq_of_get_eq
      intro step neuron dim
      have hplace : shape.HasPlace step neuron dim := ⟨step.isLt, neuron.isLt, dim.isLt⟩
      have hget := h step neuron dim hplace
      rw [get?_eq_some_get hplace, get?_eq_some_get hplace] at hget
      exact Option.some.inj hget

end Trace

/-- The elements of a row lie before the end of the recording. -/
theorem Shape.index_zero_add_dims_le {shape : Shape} {step neuron : Nat}
    (hstep : step < shape.steps) (hneuron : neuron < shape.neurons) :
    shape.index step neuron 0 + shape.dims ≤ shape.count := by
  calc shape.index step neuron 0 + shape.dims
      = (step * shape.neurons + neuron + 1) * shape.dims := (Nat.succ_mul _ _).symm
    _ ≤ shape.count := Nat.mul_le_mul_right _ (row_lt hstep hneuron)

namespace Trace

variable {trace : Trace} {count step neuron : Nat}

/-- A row starts where its first element would be, if a machine can number the row and the elements
of the trace. -/
theorem rowStart?_eq_some_of_lt (hsize : trace.shape.count < Size.limit)
    (hrow : step * trace.shape.neurons + neuron < Size.limit)
    (hstep : step < trace.shape.steps) (hneuron : neuron < trace.shape.neurons) :
    trace.rowStart? step neuron = some (trace.shape.index step neuron 0) := by
  have hend := Shape.index_zero_add_dims_le hstep hneuron
  have hbefore : Size.mul? step trace.shape.neurons = some (step * trace.shape.neurons) :=
    Size.mul?_eq_some_iff.2 ⟨by omega, rfl⟩
  have hat : Size.add? (step * trace.shape.neurons) neuron =
      some (step * trace.shape.neurons + neuron) :=
    Size.add?_eq_some_iff.2 ⟨hrow, rfl⟩
  have hstart : Size.mul? (step * trace.shape.neurons + neuron) trace.shape.dims =
      some (trace.shape.index step neuron 0) := by
    apply Size.mul?_eq_some_iff.2
    unfold Shape.index at hend ⊢
    omega
  rw [rowStart?, hbefore, Option.bind_eq_bind, Option.bind_some, hat, Option.bind_some, hstart]

/-- Where the elements of a trace can be counted, its rows can be numbered. -/
theorem rowStart?_eq_some (hcount : trace.shape.count? = some count)
    (hstep : step < trace.shape.steps) (hneuron : neuron < trace.shape.neurons) :
    trace.rowStart? step neuron = some (trace.shape.index step neuron 0) := by
  obtain ⟨hrows, hsize, -⟩ := Shape.count?_eq_some_iff.1 hcount
  have hrow := Nat.lt_trans (Shape.row_lt hstep hneuron) hrows
  exact rowStart?_eq_some_of_lt hsize hrow hstep hneuron

/-- The stored elements of a neuron at a step. -/
def rowAt (trace : Trace) (step neuron : Nat) : Array Binary32 :=
  trace.data.extract (trace.shape.index step neuron 0)
    (trace.shape.index step neuron 0 + trace.shape.dims)

theorem row?_eq_some_of_lt (hsize : trace.shape.count < Size.limit)
    (hrow : step * trace.shape.neurons + neuron < Size.limit)
    (hstep : step < trace.shape.steps) (hneuron : neuron < trace.shape.neurons) :
    trace.row? step neuron = some (trace.rowAt step neuron) := by
  let start := trace.shape.index step neuron 0
  let stop := start + trace.shape.dims
  have hend : stop ≤ trace.data.size := by
    rw [trace.size_data]
    exact Shape.index_zero_add_dims_le hstep hneuron
  have hstart : trace.rowStart? step neuron = some start :=
    rowStart?_eq_some_of_lt hsize hrow hstep hneuron
  have hstop : Size.add? start trace.shape.dims = some stop := by
    rw [← trace.size_data] at hsize
    exact Size.add?_eq_some_iff.2 ⟨Nat.lt_of_le_of_lt hend hsize, rfl⟩
  have hslice : trace.slice? start stop = some (trace.data.extract start stop) :=
    if_pos ⟨Nat.le_add_right _ _, hend⟩
  rw [row?, if_pos hneuron, hstart, Option.bind_eq_bind, Option.bind_some, hstop,
    Option.bind_some, hslice]
  rfl

theorem row?_eq_some (hcount : trace.shape.count? = some count)
    (hstep : step < trace.shape.steps) (hneuron : neuron < trace.shape.neurons) :
    trace.row? step neuron = some (trace.rowAt step neuron) := by
  obtain ⟨hrows, hsize, -⟩ := Shape.count?_eq_some_iff.1 hcount
  exact row?_eq_some_of_lt hsize (Nat.lt_trans (Shape.row_lt hstep hneuron) hrows) hstep hneuron

/-- A machine has numbered every row that it finds. -/
theorem lt_limit_of_row? {row : Array Binary32} (h : trace.row? step neuron = some row) :
    step * trace.shape.neurons + neuron < Size.limit := by
  unfold row? at h
  split at h
  · simp only [rowStart?, Option.bind_eq_bind, Option.bind_eq_some_iff, Size.mul?_eq_some_iff,
      Size.add?_eq_some_iff] at h
    obtain ⟨_, ⟨_, ⟨-, rfl⟩, _, ⟨hrow, rfl⟩, -⟩, -⟩ := h
    exact hrow
  · contradiction

theorem size_rowAt (hstep : step < trace.shape.steps) (hneuron : neuron < trace.shape.neurons) :
    (trace.rowAt step neuron).size = trace.shape.dims := by
  have hend := Shape.index_zero_add_dims_le hstep hneuron
  rw [← trace.size_data] at hend
  rw [rowAt, Array.size_extract, Nat.min_eq_left hend, Nat.add_sub_cancel_left]

theorem getElem?_rowAt {dim : Nat} (hplace : trace.shape.HasPlace step neuron dim) :
    (trace.rowAt step neuron)[dim]? = trace.get? step neuron dim := by
  have hend := Shape.index_zero_add_dims_le hplace.step_lt hplace.neuron_lt
  have hdim := hplace.dim_lt
  rw [← trace.size_data] at hend
  rw [rowAt, Array.getElem?_extract, if_pos (by omega), get?_eq_data hplace]
  rfl

/-- Rows of traces that have as many dimensions are told apart by their elements. -/
theorem rowAt_eq_of_get?_eq {other : Trace} {step' neuron' : Nat}
    (hdims : trace.shape.dims = other.shape.dims)
    (hstep : step < trace.shape.steps) (hneuron : neuron < trace.shape.neurons)
    (hstep' : step' < other.shape.steps) (hneuron' : neuron' < other.shape.neurons)
    (h : ∀ dim < trace.shape.dims, trace.get? step neuron dim = other.get? step' neuron' dim) :
    trace.rowAt step neuron = other.rowAt step' neuron' := by
  have hsize := size_rowAt hstep hneuron
  have hsize' := size_rowAt hstep' hneuron'
  apply Array.ext_getElem?
  intro dim
  by_cases hdim : dim < trace.shape.dims
  · rw [getElem?_rowAt ⟨hstep, hneuron, hdim⟩, h dim hdim,
      getElem?_rowAt ⟨hstep', hneuron', hdims ▸ hdim⟩]
  · rw [Array.getElem?_eq_none (by omega), Array.getElem?_eq_none (by omega)]

theorem row?_eq_of_get?_eq {other : Trace} {count' step' neuron' : Nat}
    (hcount : trace.shape.count? = some count) (hcount' : other.shape.count? = some count')
    (hdims : trace.shape.dims = other.shape.dims)
    (hstep : step < trace.shape.steps) (hneuron : neuron < trace.shape.neurons)
    (hstep' : step' < other.shape.steps) (hneuron' : neuron' < other.shape.neurons)
    (h : ∀ dim < trace.shape.dims, trace.get? step neuron dim = other.get? step' neuron' dim) :
    trace.row? step neuron = other.row? step' neuron' := by
  rw [row?_eq_some hcount hstep hneuron, row?_eq_some hcount' hstep' hneuron',
    rowAt_eq_of_get?_eq hdims hstep hneuron hstep' hneuron' h]

/-- The row of a neuron at a step has an element for each dimension, that of the trace. -/
theorem exists_row?_eq_some (hcount : trace.shape.count? = some count)
    (hstep : step < trace.shape.steps) (hneuron : neuron < trace.shape.neurons) :
    ∃ row, trace.row? step neuron = some row ∧ row.size = trace.shape.dims ∧
      ∀ dim < trace.shape.dims, row[dim]? = trace.get? step neuron dim :=
  ⟨_, row?_eq_some hcount hstep hneuron, size_rowAt hstep hneuron,
    fun _ hdim ↦ getElem?_rowAt ⟨hstep, hneuron, hdim⟩⟩

end Trace

end EnsembleRecording
