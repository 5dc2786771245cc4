import EnsembleRecording.Probe
import EnsembleRecording.Proofs.Trace.Views

/-!
# Samples of a Probe

What a probe keeps, element by element.  It computes the neurons and steps by their positions in the
sample, and every one of them lies in the trace that it is applied to.

Sampling gathers these elements row by row, and it has to list the steps and the neurons before.  On
a trace that a machine can address all rows are found, so that only the buffers can fail it: it
gives the sample where they can be asked for, and ends the program where one of them is too large.
-/

namespace EnsembleRecording

@[simp]
theorem strideCount_one (size : Nat) : strideCount size 1 = size := by
  rw [strideCount, Nat.add_sub_cancel, Nat.div_one]

theorem strideCount_mono {size larger : Nat} (h : size ≤ larger) (stride : Nat) :
    strideCount size stride ≤ strideCount larger stride :=
  Nat.div_le_div_right (by omega)

section

variable {stride : Nat} (hpos : 0 < stride)

include hpos

theorem strideCount_le (size : Nat) : strideCount size stride ≤ size := by
  apply Nat.le_of_not_lt
  intro hpast
  have hlast := mul_lt_of_lt_strideCount hpos hpast
  exact absurd hlast (Nat.not_lt_of_le (Nat.le_mul_of_pos_right size hpos))

theorem strideCount_zero : strideCount 0 stride = 0 := by
  rw [strideCount, Nat.zero_add, Nat.div_eq_of_lt (Nat.sub_lt hpos Nat.one_pos)]

/-- Behind whole strides the multiples are counted as from the start. -/
theorem strideCount_mul_add (strides size : Nat) :
    strideCount (stride * strides + size) stride = strides + strideCount size stride := by
  have hlast : stride * strides + size + stride - 1 = stride * strides + (size + stride - 1) := by
    omega
  rw [strideCount, hlast, Nat.mul_add_div hpos, strideCount]

theorem strideCount_mul (strides : Nat) : strideCount (stride * strides) stride = strides := by
  have hcount := strideCount_mul_add hpos strides 0
  rwa [strideCount_zero hpos, Nat.add_zero, Nat.add_zero] at hcount

end

theorem range'_eq_map_range (start count stride : Nat) :
    List.range' start count stride = (List.range count).map fun i ↦ start + i * stride := by
  apply List.ext_getElem
  · rw [List.length_range', List.length_map, List.length_range]
  · intro i hi _
    rw [List.getElem_range', List.getElem_map, List.getElem_range, Nat.mul_comm]

/-- A loop that can be done could do each of its rounds. -/
theorem exists_eq_some_of_foldlM_eq_some {σ α : Type} {round : σ → α → Option σ} {items : List α}
    {start last : σ} (h : items.foldlM round start = some last) :
    ∀ item ∈ items, ∃ state next, round state item = some next := by
  induction items generalizing start with
  | nil => exact fun _ hitem ↦ absurd hitem List.not_mem_nil
  | cons item rest ih =>
    rw [List.foldlM_cons, Option.bind_eq_bind, Option.bind_eq_some_iff] at h
    obtain ⟨next, hround, hrest⟩ := h
    exact List.forall_mem_cons.2 ⟨⟨start, next, hround⟩, ih hrest⟩

namespace Trace

/-- The elements of the first so many rows. -/
def firstRows (trace : Trace) (rows : Nat) : Array Binary32 :=
  trace.data.extract 0 (rows * trace.shape.dims)

theorem firstRows_zero (trace : Trace) : trace.firstRows 0 = #[] := by
  rw [firstRows, Nat.zero_mul, Array.extract_empty_of_stop_le_start (Nat.le_refl 0)]

theorem firstRows_all (trace : Trace) :
    trace.firstRows (trace.shape.steps * trace.shape.neurons) = trace.data := by
  have hsize : trace.shape.steps * trace.shape.neurons * trace.shape.dims = trace.data.size :=
    trace.size_data.symm
  rw [firstRows, hsize, Array.extract_size]

theorem firstRows_append_rowAt (trace : Trace) (step neuron : Nat) :
    trace.firstRows (step * trace.shape.neurons + neuron) ++ trace.rowAt step neuron =
      trace.firstRows (step * trace.shape.neurons + neuron + 1) := by
  have hnext : (step * trace.shape.neurons + neuron + 1) * trace.shape.dims =
      trace.shape.index step neuron 0 + trace.shape.dims := Nat.succ_mul _ _
  have hfirst : trace.firstRows (step * trace.shape.neurons + neuron) =
      trace.data.extract 0 (trace.shape.index step neuron 0) := rfl
  rw [hfirst, rowAt, Array.extract_append_extract, firstRows, hnext, Nat.zero_min,
    Nat.max_eq_right (Nat.le_add_right _ _)]

/-- What has been gathered was counted, had a buffer, and was all found. -/
theorem of_gather_eq_ok {trace sample : Trace} {steps neurons : List Nat}
    (h : trace.gather steps neurons = .ok sample) :
    (∃ count, (Shape.mk steps.length neurons.length trace.shape.dims).count? = some count ∧
      Size.FitsBuffer count Binary32.byteSize) ∧
    ∀ step ∈ steps, ∀ neuron ∈ neurons, ∃ row, trace.row? step neuron = some row := by
  simp only [gather] at h
  split at h
  · contradiction
  · next count hcount =>
    split at h
    · next hfits =>
      refine ⟨⟨count, hcount, hfits⟩, ?_⟩
      split at h
      · contradiction
      · next data hdata =>
        intro step hstep neuron hneuron
        obtain ⟨earlier, later, hround⟩ := exists_eq_some_of_foldlM_eq_some hdata step hstep
        obtain ⟨state, next, hrow⟩ := exists_eq_some_of_foldlM_eq_some hround neuron hneuron
        obtain ⟨row, hrow, -⟩ := Option.bind_eq_some_iff.1 hrow
        exact ⟨row, hrow⟩
    · contradiction

/-- Where nothing is gathered, the program ends. -/
theorem gather_cases (trace : Trace) (steps neurons : List Nat) :
    (∃ sample, trace.gather steps neurons = .ok sample) ∨
      ∃ fault, trace.gather steps neurons = .error fault ∧ fault.isPanic := by
  simp only [gather]
  split
  · exact .inr ⟨_, rfl, rfl⟩
  · split
    · split
      · exact .inr ⟨_, rfl, rfl⟩
      · split
        · exact .inl ⟨_, rfl⟩
        · exact .inr ⟨_, rfl, rfl⟩
    · exact .inr ⟨_, rfl, rfl⟩

end Trace

namespace Probe

theorem ofRange_eq_ok {sampleEvery : Nat} {neurons : NeuronRange} (hpos : 0 < sampleEvery)
    (hordered : neurons.start ≤ neurons.stop) :
    ofRange sampleEvery neurons = .ok ⟨sampleEvery, neurons, 1, hpos, hordered, Nat.one_pos⟩ := by
  rw [ofRange, dif_pos hpos, dif_pos hordered]

theorem withStride_eq_ok {probe : Probe} {stride : Nat} (hpos : 0 < stride) :
    probe.withStride stride = .ok { probe with stride := stride, stride_pos := hpos } :=
  dif_pos hpos

def sampleShape (probe : Probe) (trace : Trace) : Shape :=
  ⟨probe.stepCount trace.shape.steps, probe.neuronCount, trace.shape.dims⟩

/-- A trace has the steps and neurons that a probe keeps of another, and no others. -/
structure IsSampleOf (probe : Probe) (trace sample : Trace) : Prop where
  shape_eq : sample.shape = probe.sampleShape trace
  get?_eq : ∀ step neuron dim, sample.shape.HasPlace step neuron dim →
    sample.get? step neuron dim =
      trace.get? (step * probe.sampleEvery) (probe.neuronAt neuron) dim

/-- What a probe keeps is described whether or not there are buffers to gather it. -/
theorem exists_isSampleOf {probe : Probe} {trace : Trace}
    (h : probe.neurons.stop ≤ trace.shape.neurons) :
    ∃ sample, probe.IsSampleOf trace sample := by
  refine ⟨.ofFn (probe.sampleShape trace) fun step neuron dim ↦
    trace.get ⟨step * probe.sampleEvery, mul_sampleEvery_lt step.isLt⟩
      ⟨probe.neuronAt neuron, Nat.lt_of_lt_of_le (neuronAt_lt_stop neuron.isLt) h⟩ dim, rfl, ?_⟩
  intro step neuron dim hplace
  have hin : trace.shape.HasPlace (step * probe.sampleEvery) (probe.neuronAt neuron) dim :=
    ⟨mul_sampleEvery_lt hplace.step_lt,
      Nat.lt_of_lt_of_le (neuronAt_lt_stop hplace.neuron_lt) h, hplace.dim_lt⟩
  exact (Trace.get?_ofFn hplace _).trans (Trace.get?_eq_some_get hin).symm

/-- There are buffers to be had for the steps, the neurons and the elements that the probe keeps. -/
structure FitsBuffers (probe : Probe) (trace : Trace) : Prop where
  steps_fit : Size.FitsBuffer (probe.stepCount trace.shape.steps) Size.byteSize
  neurons_fit : Size.FitsBuffer probe.neuronCount Size.byteSize
  elements_fit : Size.FitsBuffer (probe.sampleShape trace).count Binary32.byteSize

/-- Beside the buffers, a machine can number the rows of the sample and each row that it keeps. -/
structure CanSample (probe : Probe) (trace : Trace) : Prop extends probe.FitsBuffers trace where
  rows_lt : probe.stepCount trace.shape.steps * probe.neuronCount < Size.limit
  row_lt : ∀ step < probe.stepCount trace.shape.steps, ∀ neuron < probe.neuronCount,
    step * probe.sampleEvery * trace.shape.neurons + probe.neuronAt neuron < Size.limit

section

variable {probe : Probe} {trace sample : Trace}

/-- A sample has no more steps and neurons than the trace. -/
theorem sampleShape_isWithin (h : probe.neurons.stop ≤ trace.shape.neurons) :
    (probe.sampleShape trace).IsWithin trace.shape := by
  refine ⟨strideCount_le probe.sampleEvery_pos _, ?_, Nat.le_refl _⟩
  calc probe.neuronCount ≤ probe.neurons.size := strideCount_le probe.stride_pos _
    _ ≤ probe.neurons.stop := Nat.sub_le _ _
    _ ≤ trace.shape.neurons := h

/-- A row of the sample is the row that the probe keeps. -/
theorem IsSampleOf.rowAt_eq (h : probe.IsSampleOf trace sample)
    (hstop : probe.neurons.stop ≤ trace.shape.neurons) {step neuron : Nat}
    (hstep : step < probe.stepCount trace.shape.steps) (hneuron : neuron < probe.neuronCount) :
    trace.rowAt (step * probe.sampleEvery) (probe.neuronAt neuron) = sample.rowAt step neuron := by
  have hkeptNeuron := Nat.lt_of_lt_of_le (neuronAt_lt_stop hneuron) hstop
  have hsteps : step < sample.shape.steps := by rwa [h.shape_eq]
  have hneurons : neuron < sample.shape.neurons := by rwa [h.shape_eq]
  have hdims : trace.shape.dims = sample.shape.dims := by rw [h.shape_eq]; rfl
  apply Trace.rowAt_eq_of_get?_eq hdims (mul_sampleEvery_lt hstep) hkeptNeuron hsteps hneurons
  intro dim hdim
  exact (h.get?_eq step neuron dim ⟨hsteps, hneurons, hdims ▸ hdim⟩).symm

/-- The step lemma: at each step kept, the rows of a step of the sample are gathered. -/
theorem IsSampleOf.gatherStep?_eq_some (h : probe.IsSampleOf trace sample) {step : Nat}
    (hrows : ∀ neuron < probe.neuronCount,
      trace.row? (step * probe.sampleEvery) (probe.neuronAt neuron) =
        some (sample.rowAt step neuron)) :
    trace.gatherStep? (List.range' probe.neurons.start probe.neuronCount probe.stride)
        (sample.firstRows (step * sample.shape.neurons)) (step * probe.sampleEvery) =
      some (sample.firstRows ((step + 1) * sample.shape.neurons)) := by
  have hneurons : sample.shape.neurons = probe.neuronCount := by rw [h.shape_eq]; rfl
  rw [Trace.gatherStep?, range'_eq_map_range, List.foldlM_map, Nat.succ_mul, hneurons]
  apply foldlM_range_eq_some fun neuron ↦ sample.firstRows (step * probe.neuronCount + neuron)
  intro neuron hneuron
  have hnext := sample.firstRows_append_rowAt step neuron
  rw [hneurons] at hnext
  have hrow := hrows neuron hneuron
  rw [neuronAt] at hrow
  rw [hrow, ← Nat.add_assoc, ← hnext]
  rfl

/-- The run lemma: where every row that the probe keeps is found, the sample is gathered. -/
theorem IsSampleOf.gather_eq_ok (h : probe.IsSampleOf trace sample)
    (hrows : ∀ step < probe.stepCount trace.shape.steps, ∀ neuron < probe.neuronCount,
      trace.row? (step * probe.sampleEvery) (probe.neuronAt neuron) =
        some (sample.rowAt step neuron))
    {count : Nat} (hcount : sample.shape.count? = some count)
    (hfits : Size.FitsBuffer count Binary32.byteSize) :
    trace.gather (List.range' 0 (probe.stepCount trace.shape.steps) probe.sampleEvery)
      (List.range' probe.neurons.start probe.neuronCount probe.stride) = .ok sample := by
  have hsteps : sample.shape.steps = probe.stepCount trace.shape.steps := by rw [h.shape_eq]; rfl
  have hshape : sample.shape =
      ⟨(List.range' 0 (probe.stepCount trace.shape.steps) probe.sampleEvery).length,
        (List.range' probe.neurons.start probe.neuronCount probe.stride).length,
        trace.shape.dims⟩ := by
    rw [h.shape_eq, List.length_range', List.length_range']
    rfl
  have hdata : (List.range' 0 (probe.stepCount trace.shape.steps) probe.sampleEvery).foldlM
      (trace.gatherStep? (List.range' probe.neurons.start probe.neuronCount probe.stride)) #[] =
        some sample.data := by
    have hstart : #[] = sample.firstRows (0 * sample.shape.neurons) := by
      rw [Nat.zero_mul, Trace.firstRows_zero]
    rw [range'_eq_map_range 0, List.foldlM_map, ← sample.firstRows_all, hsteps, hstart]
    apply foldlM_range_eq_some fun step ↦ sample.firstRows (step * sample.shape.neurons)
    intro step hstep
    rw [Nat.zero_add]
    exact h.gatherStep?_eq_some (hrows step hstep)
  cases sample with
  | mk shape data hsize =>
    obtain rfl := hshape
    simp only [Trace.gather, hcount, if_pos hfits, hdata, dif_pos hsize]

/-- Past the check of the range, only the buffers for the positions come before the gathering. -/
theorem apply_eq_gather (hstop : probe.neurons.stop ≤ trace.shape.neurons)
    (hsteps : Size.FitsBuffer (probe.stepCount trace.shape.steps) Size.byteSize)
    (hneurons : Size.FitsBuffer probe.neuronCount Size.byteSize) :
    probe.apply trace =
      trace.gather (List.range' 0 (probe.stepCount trace.shape.steps) probe.sampleEvery)
        (List.range' probe.neurons.start probe.neuronCount probe.stride) := by
  rw [apply, if_neg (Nat.not_lt_of_le hstop), positions, if_pos hsteps, positions,
    if_pos hneurons]
  rfl

theorem apply_eq_invalidSlice (h : trace.shape.neurons < probe.neurons.stop) :
    probe.apply trace = .error (.invalidSlice probe.neurons trace.shape.neurons) :=
  if_pos h

/-- The steps and the neurons are listed whether or not there is an element to be gathered. -/
theorem apply_eq_capacityOverflow (hstop : probe.neurons.stop ≤ trace.shape.neurons)
    (hlarge : ¬(Size.FitsBuffer (probe.stepCount trace.shape.steps) Size.byteSize ∧
      Size.FitsBuffer probe.neuronCount Size.byteSize)) :
    probe.apply trace = .error .capacityOverflow := by
  rw [apply, if_neg (Nat.not_lt_of_le hstop)]
  by_cases hsteps : Size.FitsBuffer (probe.stepCount trace.shape.steps) Size.byteSize
  · have hneurons : ¬Size.FitsBuffer probe.neuronCount Size.byteSize := fun hneurons ↦
      hlarge ⟨hsteps, hneurons⟩
    rw [positions, if_pos hsteps, positions, if_neg hneurons]
    rfl
  · rw [positions, if_neg hsteps]
    rfl

/-- Sampling a trace whose elements a machine can number gives what the probe keeps. -/
theorem CanSample.apply_eq_ok (h : probe.CanSample trace)
    (hstop : probe.neurons.stop ≤ trace.shape.neurons)
    (hsize : trace.shape.count < Size.limit) (hsample : probe.IsSampleOf trace sample) :
    probe.apply trace = .ok sample := by
  have hcount : sample.shape.count? = some (probe.sampleShape trace).count := by
    rw [hsample.shape_eq, Shape.count?_eq_some_iff]
    exact ⟨h.rows_lt, Nat.lt_of_le_of_lt (sampleShape_isWithin hstop).count_le hsize, rfl⟩
  rw [apply_eq_gather hstop h.steps_fit h.neurons_fit]
  refine hsample.gather_eq_ok (fun step hstep neuron hneuron ↦ ?_) hcount h.elements_fit
  rw [Trace.row?_eq_some_of_lt hsize (h.row_lt step hstep neuron hneuron)
    (mul_sampleEvery_lt hstep) (Nat.lt_of_lt_of_le (neuronAt_lt_stop hneuron) hstop),
    hsample.rowAt_eq hstop hstep hneuron]

/-- A trace is sampled only within its range, and where nothing stands in the way. -/
theorem canSample_of_apply_eq_ok (h : probe.apply trace = .ok sample) :
    probe.neurons.stop ≤ trace.shape.neurons ∧ probe.CanSample trace := by
  have hstop : probe.neurons.stop ≤ trace.shape.neurons := by
    apply Nat.le_of_not_lt
    intro hbeyond
    cases (apply_eq_invalidSlice hbeyond).symm.trans h
  by_cases hlists : Size.FitsBuffer (probe.stepCount trace.shape.steps) Size.byteSize ∧
      Size.FitsBuffer probe.neuronCount Size.byteSize
  · rw [apply_eq_gather hstop hlists.1 hlists.2] at h
    obtain ⟨⟨count, hcount, hfits⟩, hrows⟩ := Trace.of_gather_eq_ok h
    rw [List.length_range', List.length_range'] at hcount
    obtain ⟨hrowsLt, -, rfl⟩ := Shape.count?_eq_some_iff.1 hcount
    refine ⟨hstop, ⟨hlists.1, hlists.2, hfits⟩, hrowsLt, ?_⟩
    intro step hstep neuron hneuron
    obtain ⟨row, hrow⟩ := hrows (step * probe.sampleEvery)
      (List.mem_range'.2 ⟨step, hstep, by rw [Nat.zero_add, Nat.mul_comm]⟩)
      (probe.neuronAt neuron)
      (List.mem_range'.2 ⟨neuron, hneuron, by rw [neuronAt, Nat.mul_comm]⟩)
    exact Trace.lt_limit_of_row? hrow
  · cases (apply_eq_capacityOverflow hstop hlists).symm.trans h

/-- Where a trace within the range of the probe is not sampled, the program ends. -/
theorem apply_cases (hstop : probe.neurons.stop ≤ trace.shape.neurons) :
    (∃ sample, probe.apply trace = .ok sample) ∨
      ∃ fault, probe.apply trace = .error fault ∧ fault.isPanic := by
  by_cases hlists : Size.FitsBuffer (probe.stepCount trace.shape.steps) Size.byteSize ∧
      Size.FitsBuffer probe.neuronCount Size.byteSize
  · rw [apply_eq_gather hstop hlists.1 hlists.2]
    exact trace.gather_cases _ _
  · exact .inr ⟨_, apply_eq_capacityOverflow hstop hlists, rfl⟩

end

section

variable {probe : Probe} {trace sample : Trace} {count : Nat}
  (hcount : trace.shape.count? = some count) (hstop : probe.neurons.stop ≤ trace.shape.neurons)

include hcount hstop

/-- On a trace whose elements a machine can count, the buffers are all that sampling needs. -/
theorem FitsBuffers.canSample (h : probe.FitsBuffers trace) : probe.CanSample trace where
  toFitsBuffers := h
  rows_lt := by
    have hwithin := sampleShape_isWithin hstop
    obtain ⟨hrows, -, -⟩ := Shape.count?_eq_some_iff.1 hcount
    exact Nat.lt_of_le_of_lt (Nat.mul_le_mul hwithin.steps_le hwithin.neurons_le) hrows
  row_lt := by
    intro step hstep neuron hneuron
    obtain ⟨hrows, -, -⟩ := Shape.count?_eq_some_iff.1 hcount
    exact Nat.lt_trans (Shape.row_lt (mul_sampleEvery_lt hstep)
      (Nat.lt_of_lt_of_le (neuronAt_lt_stop hneuron) hstop)) hrows

theorem FitsBuffers.apply_eq_ok (h : probe.FitsBuffers trace)
    (hsample : probe.IsSampleOf trace sample) : probe.apply trace = .ok sample :=
  (h.canSample hcount hstop).apply_eq_ok hstop (Shape.count?_eq_some_iff.1 hcount).2.1 hsample

theorem apply_eq_capacityOverflow_of_not_fitsBuffers (h : ¬probe.FitsBuffers trace) :
    probe.apply trace = .error .capacityOverflow := by
  by_cases hlists : Size.FitsBuffer (probe.stepCount trace.shape.steps) Size.byteSize ∧
      Size.FitsBuffer probe.neuronCount Size.byteSize
  · have hlarge : ¬Size.FitsBuffer (probe.sampleShape trace).count Binary32.byteSize := fun hfits ↦
      h ⟨hlists.1, hlists.2, hfits⟩
    have hkept := (sampleShape_isWithin hstop).count?_eq hcount
    rw [apply_eq_gather hstop hlists.1 hlists.2]
    simp only [Trace.gather, List.length_range']
    unfold sampleShape at hkept hlarge
    simp only [hkept, if_neg hlarge]
  · exact apply_eq_capacityOverflow hstop hlists

end

section

variable {probe : Probe} {steps : Nat} (h : probe.sampleEvery ∣ steps)

include h

theorem stepCount_add (more : Nat) :
    probe.stepCount (steps + more) = probe.stepCount steps + probe.stepCount more := by
  obtain ⟨strides, rfl⟩ := h
  have hpos := probe.sampleEvery_pos
  simp only [stepCount, strideCount_mul_add hpos, strideCount_mul hpos]

theorem stepCount_mul_sampleEvery : probe.stepCount steps * probe.sampleEvery = steps := by
  obtain ⟨strides, rfl⟩ := h
  rw [stepCount, strideCount_mul probe.sampleEvery_pos, Nat.mul_comm]

end

end Probe

end EnsembleRecording
