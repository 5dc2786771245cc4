import EnsembleRecording.Proofs.Trace.Produced

/-!
# Samples of Traces, Samples and Runs

A trace of the library is sampled wherever there are buffers for the steps, the neurons and the
elements that the probe keeps, and the sample has the elements reached by its strides.

A probe can be applied to what another one has kept.  It then counts steps and neurons as they
are kept, and all that comes of it is one probe applied to the trace: the strides are multiplied,
and the bounds of the range are the neurons at which the other probe has arrived, or the end of its
own range where its last stride leads past that.

The recording of a run can be sampled before it goes into a history, or the whole history can be
sampled at the end.  A probe begins with the first step of whatever it is applied to, so the two
agree where every run but the last ends just before a step that the probe would keep, as long as
the buffers and positions for the sample of the whole history can be had.
-/

namespace EnsembleRecording

section

variable {stride : Nat} (hpos : 0 < stride)

include hpos

theorem strideCount_le_iff {size count : Nat} :
    strideCount size stride ≤ count ↔ size ≤ stride * count :=
  ceilDiv_le_iff_le_mul hpos

/-- Strides over the strides that begin in a size are strides of that size. -/
theorem strideCount_strideCount {other : Nat} (hother : 0 < other) (size : Nat) :
    strideCount (strideCount size stride) other = strideCount size (stride * other) := by
  apply eq_of_forall_ge_iff
  intro count
  calc strideCount (strideCount size stride) other ≤ count
      ↔ strideCount size stride ≤ other * count := strideCount_le_iff hother
    _ ↔ size ≤ stride * (other * count) := strideCount_le_iff hpos
    _ ↔ size ≤ stride * other * count := by rw [Nat.mul_assoc]
    _ ↔ strideCount size (stride * other) ≤ count :=
      (strideCount_le_iff (Nat.mul_pos hpos hother)).symm

/-- The first strides that begin in a size, the last of them cut off at its end. -/
theorem strideCount_min {size count : Nat} (h : count ≤ strideCount size stride) :
    strideCount (min (stride * count) size) stride = count := by
  by_cases hwhole : stride * count ≤ size
  · rw [Nat.min_eq_left hwhole, strideCount_mul hpos]
  · have hsize : size ≤ stride * count := Nat.le_of_not_le hwhole
    rw [Nat.min_eq_right hsize]
    exact Nat.le_antisymm ((strideCount_le_iff hpos).2 hsize) h

/-- The strides from one of those that begin in a size up to another. -/
theorem strideCount_min_sub_min {size first last : Nat} (hordered : first ≤ last)
    (h : last ≤ strideCount size stride) :
    strideCount (min (stride * last) size - min (stride * first) size) stride = last - first := by
  rcases Nat.eq_or_lt_of_le hordered with rfl | hbefore
  · rw [Nat.sub_self, Nat.sub_self, strideCount_zero hpos]
  · have hfirst : first * stride < size :=
      mul_lt_of_lt_strideCount hpos (Nat.lt_of_lt_of_le hbefore h)
    have hwhole : min (stride * first) size = stride * first := by
      rw [Nat.mul_comm]
      exact Nat.min_eq_left (Nat.le_of_lt hfirst)
    have hinside : stride * first ≤ min (stride * last) size := by
      rw [← hwhole]
      exact min_le_min_right size (Nat.mul_le_mul_left stride hordered)
    have hlast : first + strideCount (min (stride * last) size - stride * first) stride = last := by
      rw [← strideCount_mul_add hpos, Nat.add_sub_cancel' hinside, strideCount_min hpos h]
    rw [hwhole]
    omega

end

namespace Probe

/-- Sampling any trace of the library.  A range that goes beyond the neurons is refused.  Any other
sample has as many steps and neurons as there are strides to begin, and its elements are those of
the steps and neurons reached by them, which lie in the trace.  It is gathered if its steps, its
neurons and its elements each fit in a buffer, and if they do not, the program ends when the first
buffer that is too large is asked for. -/
theorem gathers_kept_elements (probe : Probe) {trace : Trace} (h : trace.Produced) :
    (trace.shape.neurons < probe.neurons.stop →
      probe.apply trace = .error (.invalidSlice probe.neurons trace.shape.neurons)) ∧
    (probe.neurons.stop ≤ trace.shape.neurons →
      let shape : Shape := ⟨trace.shape.steps ⌈/⌉ probe.sampleEvery,
        (probe.neurons.stop - probe.neurons.start) ⌈/⌉ probe.stride, trace.shape.dims⟩
      let fits : Prop := Size.FitsBuffer shape.steps Size.byteSize ∧
        Size.FitsBuffer shape.neurons Size.byteSize ∧
        Size.FitsBuffer shape.count Binary32.byteSize
      (fits → ∃ sample, probe.apply trace = .ok sample ∧ sample.shape = shape ∧
        ∀ step neuron dim, shape.HasPlace step neuron dim →
          trace.shape.HasPlace (step * probe.sampleEvery)
            (probe.neurons.start + neuron * probe.stride) dim ∧
          sample.get? step neuron dim = trace.get? (step * probe.sampleEvery)
            (probe.neurons.start + neuron * probe.stride) dim) ∧
      (¬fits → probe.apply trace = .error .capacityOverflow)) := by
  have hcount := h.isAddressable.count?_eq
  refine ⟨apply_eq_invalidSlice, fun hstop ↦ ⟨?_, ?_⟩⟩
  · rintro ⟨hsteps, hneurons, helements⟩
    obtain ⟨sample, hsample⟩ := exists_isSampleOf hstop
    have hfits : probe.FitsBuffers trace := ⟨hsteps, hneurons, helements⟩
    refine ⟨sample, hfits.apply_eq_ok hcount hstop hsample, hsample.shape_eq, ?_⟩
    intro step neuron dim hplace
    refine ⟨?_, hsample.get?_eq step neuron dim (hsample.shape_eq ▸ hplace)⟩
    exact ⟨mul_sampleEvery_lt hplace.step_lt,
      Nat.lt_of_lt_of_le (neuronAt_lt_stop hplace.neuron_lt) hstop, hplace.dim_lt⟩
  · intro hlarge
    apply apply_eq_capacityOverflow_of_not_fitsBuffers hcount hstop
    exact fun hfits ↦ hlarge ⟨hfits.steps_fit, hfits.neurons_fit, hfits.elements_fit⟩

/-- Every second step of three and every second neuron from the second on, where the last strides
are cut short, and a range that goes beyond the last neuron. -/
theorem gathers_kept_elements_of_cut_strides :
    let trace : Trace := ⟨⟨3, 4, 1⟩,
      #[⟨1⟩, ⟨2⟩, ⟨3⟩, ⟨4⟩, ⟨5⟩, ⟨6⟩, ⟨7⟩, ⟨8⟩, ⟨9⟩, ⟨10⟩, ⟨11⟩, ⟨12⟩], rfl⟩
    let probe : Probe := ⟨2, ⟨1, 4⟩, 2, by decide, by decide, by decide⟩
    let beyond : Probe := ⟨2, ⟨1, 5⟩, 2, by decide, by decide, by decide⟩
    trace.Produced ∧ beyond.apply trace = .error (.invalidSlice ⟨1, 5⟩ 4) ∧
      ∃ sample, probe.apply trace = .ok sample ∧ sample.shape = ⟨2, 2, 1⟩ ∧
        sample.get? 1 1 0 = some ⟨12⟩ := by
  intro trace probe beyond
  have hmade : Trace.ofArray? trace.shape trace.data = some trace := rfl
  have htrace : trace.Produced := .built (.ofArray hmade) (by decide)
  obtain ⟨-, hwithin⟩ := gathers_kept_elements probe htrace
  obtain ⟨hbeyond, -⟩ := gathers_kept_elements beyond htrace
  obtain ⟨sample, happly, hshape, helements⟩ := (hwithin (by decide)).1 (by decide)
  refine ⟨htrace, hbeyond (by decide), sample, happly, hshape.trans (by decide), ?_⟩
  exact (helements 1 1 0 ⟨by decide, by decide, by decide⟩).2.trans (by decide)

/-- There is nothing to be gathered of a run without steps, and still its neurons are listed. -/
theorem apply_to_run_without_steps_overflows :
    ∃ trace, Trace.zeros ⟨0, 0xffffffffffffffff, 3⟩ = .ok (some trace) ∧
      (all 0xffffffffffffffff).apply trace = .error .capacityOverflow := by
  obtain ⟨trace, htrace⟩ : ∃ trace, Trace.zeros ⟨0, 0xffffffffffffffff, 3⟩ = .ok (some trace) :=
    Trace.exists_zeros_eq_ok rfl (by decide)
  obtain ⟨hshape, -⟩ := Trace.zeros_eq_ok_some htrace
  refine ⟨trace, htrace, apply_eq_capacityOverflow ?_ ?_⟩
  · rw [hshape]
    decide
  · rintro ⟨-, hneurons⟩
    exact absurd hneurons (by decide)

/-- The neurons of a range of kept ones, up to the end of the range of the probe. -/
def neuronsOf (probe : Probe) (positions : NeuronRange) : NeuronRange :=
  ⟨min (probe.neuronAt positions.start) probe.neurons.stop,
    min (probe.neuronAt positions.stop) probe.neurons.stop⟩

theorem min_neuronAt_stop (probe : Probe) (position : Nat) :
    min (probe.neuronAt position) probe.neurons.stop =
      probe.neurons.start + min (probe.stride * position) probe.neurons.size := by
  have hordered := probe.neurons_ordered
  rw [neuronAt, Nat.mul_comm, NeuronRange.size]
  omega

theorem neuronsOf_ordered (probe : Probe) {positions : NeuronRange}
    (h : positions.start ≤ positions.stop) :
    (probe.neuronsOf positions).start ≤ (probe.neuronsOf positions).stop :=
  min_le_min_right _ (Nat.add_le_add_left (Nat.mul_le_mul_right probe.stride h) _)

/-- The probe that keeps of a trace what a second probe keeps of the sample of the first. -/
def andThen (first second : Probe) : Probe where
  sampleEvery := first.sampleEvery * second.sampleEvery
  neurons := first.neuronsOf second.neurons
  stride := first.stride * second.stride
  sampleEvery_pos := Nat.mul_pos first.sampleEvery_pos second.sampleEvery_pos
  neurons_ordered := first.neuronsOf_ordered second.neurons_ordered
  stride_pos := Nat.mul_pos first.stride_pos second.stride_pos

section

variable {first second : Probe}

/-- The probe is one that can be asked for. -/
theorem ofRange_withStride_eq_ok_andThen (first second : Probe) :
    (ofRange (first.sampleEvery * second.sampleEvery) (first.neuronsOf second.neurons)).bind
        (·.withStride (first.stride * second.stride)) = .ok (first.andThen second) := by
  have hpos : 0 < first.sampleEvery * second.sampleEvery :=
    Nat.mul_pos first.sampleEvery_pos second.sampleEvery_pos
  have hordered := first.neuronsOf_ordered second.neurons_ordered
  rw [ofRange_eq_ok hpos hordered]
  exact withStride_eq_ok (Nat.mul_pos first.stride_pos second.stride_pos)

theorem stepCount_andThen (first second : Probe) (steps : Nat) :
    (first.andThen second).stepCount steps = second.stepCount (first.stepCount steps) :=
  (strideCount_strideCount first.sampleEvery_pos second.sampleEvery_pos steps).symm

theorem neuronCount_andThen (h : second.neurons.stop ≤ first.neuronCount) :
    (first.andThen second).neuronCount = second.neuronCount := by
  have hsize : (first.andThen second).neurons.size =
      min (first.stride * second.neurons.stop) first.neurons.size -
        min (first.stride * second.neurons.start) first.neurons.size := by
    simp only [andThen, neuronsOf, NeuronRange.size, min_neuronAt_stop, Nat.add_sub_add_left]
  calc (first.andThen second).neuronCount
      = strideCount (strideCount (first.andThen second).neurons.size first.stride)
          second.stride := (strideCount_strideCount first.stride_pos second.stride_pos _).symm
    _ = second.neuronCount := by
      rw [hsize, strideCount_min_sub_min first.stride_pos second.neurons_ordered h]
      rfl

theorem neuronAt_andThen (h : second.neurons.stop ≤ first.neuronCount) {position : Nat}
    (hposition : position < second.neuronCount) :
    (first.andThen second).neuronAt position = first.neuronAt (second.neuronAt position) := by
  have hkept : second.neurons.start < first.neuronCount := by
    have hstop := neuronAt_lt_stop hposition
    unfold neuronAt at hstop
    omega
  have hstart : (first.andThen second).neurons.start = first.neuronAt second.neurons.start :=
    Nat.min_eq_left (Nat.le_of_lt (neuronAt_lt_stop hkept))
  calc (first.andThen second).neuronAt position
      = first.neuronAt second.neurons.start + position * (first.stride * second.stride) := by
        rw [neuronAt, hstart]
        rfl
    _ = first.neuronAt (second.neuronAt position) := by
        simp only [neuronAt]
        ring

theorem stop_andThen_le (first second : Probe) :
    (first.andThen second).neurons.stop ≤ first.neurons.stop :=
  Nat.min_le_right _ _

/-- A sample of a sample is one of the trace. -/
theorem IsSampleOf.trans {trace middle sample : Trace} (hmiddle : first.IsSampleOf trace middle)
    (hsample : second.IsSampleOf middle sample) (h : second.neurons.stop ≤ first.neuronCount) :
    (first.andThen second).IsSampleOf trace sample where
  shape_eq := by
    rw [hsample.shape_eq, sampleShape, hmiddle.shape_eq, sampleShape, sampleShape,
      stepCount_andThen, neuronCount_andThen h]
  get?_eq := by
    intro step neuron dim hplace
    rw [hsample.get?_eq step neuron dim hplace]
    rw [hsample.shape_eq] at hplace
    have hstep := mul_sampleEvery_lt hplace.step_lt
    have hneuron := neuronAt_lt_stop hplace.neuron_lt
    have hkept :
        middle.shape.HasPlace (step * second.sampleEvery) (second.neuronAt neuron) dim := by
      refine ⟨hstep, ?_, hplace.dim_lt⟩
      rw [hmiddle.shape_eq]
      exact Nat.lt_of_lt_of_le hneuron h
    rw [hmiddle.get?_eq _ _ _ hkept, neuronAt_andThen h hplace.neuron_lt, andThen, Nat.mul_assoc,
      Nat.mul_comm second.sampleEvery]

theorem FitsBuffers.sample {trace middle : Trace} (h : first.FitsBuffers trace)
    (hmiddle : first.IsSampleOf trace middle)
    (hstop : second.neurons.stop ≤ middle.shape.neurons) : second.FitsBuffers middle := by
  have hwithin := sampleShape_isWithin hstop
  rw [hmiddle.shape_eq] at hwithin
  exact ⟨h.steps_fit.of_le hwithin.steps_le, h.neurons_fit.of_le hwithin.neurons_le,
    h.elements_fit.of_le hwithin.count_le⟩

/-- The sample is the same, and so are the buffers that it takes. -/
theorem FitsBuffers.andThen {trace middle : Trace} (h : second.FitsBuffers middle)
    (hmiddle : first.IsSampleOf trace middle) (hstop : second.neurons.stop ≤ first.neuronCount) :
    (first.andThen second).FitsBuffers trace := by
  have hsteps := h.steps_fit
  have helements := h.elements_fit
  rw [sampleShape, hmiddle.shape_eq] at helements
  rw [hmiddle.shape_eq] at hsteps
  refine ⟨?_, ?_, ?_⟩
  · rw [stepCount_andThen]
    exact hsteps
  · rw [neuronCount_andThen hstop]
    exact h.neurons_fit
  · rw [sampleShape, stepCount_andThen, neuronCount_andThen hstop]
    exact helements

end

/-- Sampling what a first probe keeps is sampling the trace itself, provided that each range lies
within what its probe is applied to and that there are buffers for the first sample.  The probe that
does both at once is one that can be asked for: its strides are the products, and its range goes
from the neuron at which the second one starts to the neuron at which it stops, or only to the end
of the first range.  Without the buffers the program ends at the first sample. -/
theorem sampling_twice_is_sampling_once (first second : Probe) {trace : Trace} (h : trace.Produced)
    (hfirst : first.neurons.stop ≤ trace.shape.neurons)
    (hsecond : second.neurons.stop ≤
      (first.neurons.stop - first.neurons.start) ⌈/⌉ first.stride) :
    (first.FitsBuffers trace → ∃ once middle sample,
      (ofRange (first.sampleEvery * second.sampleEvery)
          ⟨min (first.neurons.start + second.neurons.start * first.stride) first.neurons.stop,
            min (first.neurons.start + second.neurons.stop * first.stride) first.neurons.stop⟩).bind
        (·.withStride (first.stride * second.stride)) = .ok once ∧
      first.apply trace = .ok middle ∧ second.apply middle = .ok sample ∧
      once.apply trace = .ok sample) ∧
    (¬first.FitsBuffers trace → first.apply trace = .error .capacityOverflow) := by
  have hcount := h.isAddressable.count?_eq
  refine ⟨?_, apply_eq_capacityOverflow_of_not_fitsBuffers hcount hfirst⟩
  intro hfits
  obtain ⟨middle, hkept⟩ := exists_isSampleOf hfirst
  have hstop : second.neurons.stop ≤ middle.shape.neurons := by
    rw [hkept.shape_eq]
    exact hsecond
  obtain ⟨sample, hkeptTwice⟩ := exists_isSampleOf hstop
  have hfitsTwice : second.FitsBuffers middle := hfits.sample hkept hstop
  have hstopOnce : (first.andThen second).neurons.stop ≤ trace.shape.neurons :=
    Nat.le_trans (stop_andThen_le first second) hfirst
  have hmiddle : first.apply trace = .ok middle := hfits.apply_eq_ok hcount hfirst hkept
  have hcountMiddle := (h.isAddressable.sample hmiddle).count?_eq
  have honce := (hfitsTwice.andThen hkept hsecond).apply_eq_ok hcount hstopOnce
    (hkept.trans hkeptTwice hsecond)
  exact ⟨first.andThen second, middle, sample, ofRange_withStride_eq_ok_andThen first second,
    hmiddle, hfitsTwice.apply_eq_ok hcountMiddle hstop hkeptTwice, honce⟩

/-- Every second of the steps and neurons kept, where the first probe keeps the neurons 1, 3 and 5
and its last stride leads past the end of its range. -/
theorem sampling_twice_is_sampling_once_of_cut_stride :
    let trace : Trace := .ofFn ⟨5, 6, 1⟩ fun step neuron _ ↦ ⟨UInt32.ofNat (10 * step + neuron)⟩
    let first : Probe := ⟨2, ⟨1, 6⟩, 2, by decide, by decide, by decide⟩
    let second : Probe := ⟨2, ⟨1, 3⟩, 2, by decide, by decide, by decide⟩
    trace.Produced ∧ ∃ once middle sample,
      (ofRange 4 ⟨3, 6⟩).bind (·.withStride 4) = .ok once ∧
      first.apply trace = .ok middle ∧ second.apply middle = .ok sample ∧
      once.apply trace = .ok sample ∧ sample.data = #[⟨3⟩, ⟨43⟩] := by
  intro trace first second
  have hmade : Trace.ofArray? trace.shape trace.data = some trace := rfl
  have htrace : trace.Produced := .built (.ofArray hmade) (by decide)
  obtain ⟨hfitting, -⟩ :=
    sampling_twice_is_sampling_once first second htrace (by decide) (by decide)
  obtain ⟨once, middle, sample, hasked, hmiddle, hsample, honce⟩ :=
    hfitting ⟨by decide, by decide, by decide⟩
  refine ⟨htrace, once, middle, sample, hasked, hmiddle, hsample, honce, ?_⟩
  have hdata : (once.apply trace).map Trace.data = .ok #[⟨3⟩, ⟨43⟩] := by
    cases hasked
    cbv
  rw [honce] at hdata
  exact Except.ok.inj hdata

/-- A run of no neurons has no elements, and still no sample if its steps are more than a buffer
holds. -/
theorem exists_run_of_no_neurons :
    ∃ run, Trace.zeros ⟨0x1000000000000000, 0, 1⟩ = .ok (some run) ∧
      (all 0).apply run = .error .capacityOverflow := by
  obtain ⟨run, hrun⟩ : ∃ run, Trace.zeros ⟨0x1000000000000000, 0, 1⟩ = .ok (some run) :=
    Trace.exists_zeros_eq_ok rfl (by decide)
  obtain ⟨hshape, -⟩ := Trace.zeros_eq_ok_some hrun
  refine ⟨run, hrun, apply_eq_capacityOverflow (Nat.zero_le _) ?_⟩
  rw [hshape]
  rintro ⟨hsteps, -⟩
  exact absurd hsteps (by decide)

/-- Both ranges of no neurons lie within what their probes are applied to, and still there is no
first sample. -/
theorem sampling_twice_of_no_neurons_overflows :
    ∃ run, Trace.zeros ⟨0x1000000000000000, 0, 1⟩ = .ok (some run) ∧
      (all 0).neurons.stop ≤ run.shape.neurons ∧ (all 0).neurons.stop ≤ (all 0).neuronCount ∧
      (all 0).apply run = .error .capacityOverflow := by
  obtain ⟨run, hrun, hoverflow⟩ := exists_run_of_no_neurons
  exact ⟨run, hrun, Nat.zero_le _, Nat.zero_le _, hoverflow⟩

section

open History (pushAll_cons_of_push)

variable {probe : Probe} {trace sample later laterSample : Trace}

theorem IsSampleOf.sameAxes (h : probe.IsSampleOf trace sample)
    (h' : probe.IsSampleOf later laterSample) (hsame : later.SameAxes trace) :
    laterSample.SameAxes sample := by
  rw [Trace.SameAxes, h.shape_eq, h'.shape_eq]
  exact ⟨rfl, hsame.2⟩

/-- The step lemma: the samples of two traces are stacked to the sample of the stack. -/
theorem IsSampleOf.stack (h : probe.IsSampleOf trace sample)
    (h' : probe.IsSampleOf later laterSample) (hsame : later.SameAxes trace)
    (hphase : probe.sampleEvery ∣ trace.shape.steps) :
    probe.IsSampleOf (trace.stack later hsame)
      (sample.stack laterSample (h.sameAxes h' hsame)) where
  shape_eq := by
    change sample.shape.addSteps laterSample.shape.steps = _
    rw [h.shape_eq, h'.shape_eq]
    exact congrArg (Shape.mk · probe.neuronCount trace.shape.dims)
      (stepCount_add hphase later.shape.steps).symm
  get?_eq := by
    intro step neuron dim hplace
    have hsteps : sample.shape.steps = probe.stepCount trace.shape.steps := by
      rw [h.shape_eq]
      rfl
    by_cases hstep : step < sample.shape.steps
    · have hkept : step * probe.sampleEvery < trace.shape.steps :=
        mul_sampleEvery_lt (hsteps ▸ hstep)
      rw [Trace.get?_stack_of_lt _ hstep, Trace.get?_stack_of_lt _ hkept]
      exact h.get?_eq step neuron dim ((Trace.hasPlace_stack_iff_of_lt _ hstep).1 hplace)
    · obtain ⟨beyond, rfl⟩ := Nat.exists_eq_add_of_le (Nat.le_of_not_lt hstep)
      have hkept : (sample.shape.steps + beyond) * probe.sampleEvery =
          trace.shape.steps + beyond * probe.sampleEvery := by
        rw [Nat.add_mul, hsteps, stepCount_mul_sampleEvery hphase]
      rw [hkept, Trace.get?_stack_add, Trace.get?_stack_add]
      exact h'.get?_eq beyond neuron dim ((Trace.hasPlace_stack_iff _ _ _ _).1 hplace)

/-- The run lemma: where one history holds a trace and another its sample, and the runs that come
into the one come as samples into the other, the one goes on to hold a trace and the other its
sample. -/
theorem IsSampleOf.pushAll {runs samples : List Trace}
    (hsamples : List.Forall₂ probe.IsSampleOf runs samples) (h : probe.IsSampleOf trace sample)
    (hsame : ∀ run ∈ runs, run.SameAxes trace)
    (hphase : ∀ run ∈ (trace :: runs).dropLast, probe.sampleEvery ∣ run.shape.steps)
    (count : Nat) :
    ∃ whole sampled,
      History.pushAll ⟨some trace, count⟩ runs = (runs, ⟨some whole, count + runs.length⟩) ∧
      History.pushAll ⟨some sample, count⟩ samples =
        (samples, ⟨some sampled, count + samples.length⟩) ∧
      probe.IsSampleOf whole sampled := by
  induction hsamples generalizing trace sample count with
  | nil => exact ⟨trace, sample, rfl, rfl, h⟩
  | @cons run runSample rest restSamples hrunSample _ ih =>
    obtain ⟨hrun, hsameRest⟩ := List.forall_mem_cons.1 hsame
    obtain ⟨hwhole, hphaseRun⟩ := List.forall_mem_cons.1 hphase
    have hphaseRest : ∀ next ∈ (trace.stack run hrun :: rest).dropLast,
        probe.sampleEvery ∣ next.shape.steps := by
      cases rest with
      | nil => exact List.forall_mem_nil _
      | cons second others =>
        obtain ⟨hsteps, hphaseOthers⟩ := List.forall_mem_cons.1 hphaseRun
        exact List.forall_mem_cons.2 ⟨Nat.dvd_add hwhole hsteps, hphaseOthers⟩
    obtain ⟨whole, sampled, hpush, hpushSamples, hfinal⟩ :=
      ih (h.stack hrunSample hrun hwhole)
        (fun next hnext ↦ (hsameRest next hnext).trans (Trace.sameAxes_stack hrun))
        hphaseRest (count + 1)
    refine ⟨whole, sampled, ?_, ?_, hfinal⟩
    · rw [pushAll_cons_of_push (History.push_of_sameAxes rfl hrun), hpush, List.length_cons,
        Nat.add_right_comm, Nat.add_assoc]
    · rw [pushAll_cons_of_push (History.push_of_sameAxes rfl (h.sameAxes hrunSample hrun)),
        hpushSamples, List.length_cons, Nat.add_right_comm, Nat.add_assoc]

/-- Of a trace with fewer steps a probe keeps fewer, which takes no larger buffers and no further
positions. -/
theorem CanSample.of_steps_le {whole : Trace} (h : probe.CanSample whole)
    (hsame : trace.SameAxes whole) (hsteps : trace.shape.steps ≤ whole.shape.steps) :
    probe.CanSample trace := by
  have hkept : probe.stepCount trace.shape.steps ≤ probe.stepCount whole.shape.steps :=
    strideCount_mono hsteps probe.sampleEvery
  have hwithin : (probe.sampleShape trace).IsWithin (probe.sampleShape whole) :=
    ⟨hkept, Nat.le_refl _, Nat.le_of_eq hsame.2⟩
  refine ⟨⟨h.steps_fit.of_le hkept, h.neurons_fit, h.elements_fit.of_le hwithin.count_le⟩, ?_, ?_⟩
  · exact Nat.lt_of_le_of_lt (Nat.mul_le_mul_right _ hkept) h.rows_lt
  · intro step hstep
    rw [hsame.1]
    exact h.row_lt step (Nat.lt_of_lt_of_le hstep hkept)

theorem exists_forall₂_isSampleOf {runs : List Trace}
    (hstop : ∀ run ∈ runs, probe.neurons.stop ≤ run.shape.neurons) :
    ∃ samples, List.Forall₂ probe.IsSampleOf runs samples := by
  induction runs with
  | nil => exact ⟨[], .nil⟩
  | cons run rest ih =>
    obtain ⟨hrun, hrest⟩ := List.forall_mem_cons.1 hstop
    obtain ⟨sample, hsample⟩ := exists_isSampleOf hrun
    obtain ⟨samples, hsamples⟩ := ih hrest
    exact ⟨sample :: samples, .cons hsample hsamples⟩

theorem mapM_apply_eq_ok {runs samples : List Trace}
    (hsamples : List.Forall₂ probe.IsSampleOf runs samples)
    (happly : ∀ run ∈ runs, ∀ sample, probe.IsSampleOf run sample →
      probe.apply run = .ok sample) : runs.mapM probe.apply = .ok samples := by
  induction hsamples with
  | nil => rfl
  | cons hsample _ ih =>
    obtain ⟨hrun, hrest⟩ := List.forall_mem_cons.1 happly
    simp only [List.mapM_cons, hrun _ hsample, ih hrest, bind, Except.bind, pure, Except.pure]

/-- The samples of runs that a history takes in are taken in by another, which comes to hold the
sample of what the first holds. -/
theorem exists_pushAll_isSampleOf {runs : List Trace} {neurons dims : Nat} (hruns : runs ≠ [])
    (hshape : ∀ run ∈ runs, run.shape.neurons = neurons ∧ run.shape.dims = dims)
    (hstop : probe.neurons.stop ≤ neurons)
    (hphase : ∀ run ∈ runs.dropLast, probe.sampleEvery ∣ run.shape.steps) :
    ∃ whole samples sampled, List.Forall₂ probe.IsSampleOf runs samples ∧
      History.empty.pushAll runs = (runs, ⟨some whole, runs.length⟩) ∧
      History.empty.pushAll samples = (samples, ⟨some sampled, samples.length⟩) ∧
      probe.IsSampleOf whole sampled := by
  cases runs with
  | nil => contradiction
  | cons first rest =>
    obtain ⟨⟨hneurons, hdims⟩, hshapeRest⟩ := List.forall_mem_cons.1 hshape
    have hsame : ∀ run ∈ rest, run.SameAxes first := by
      intro run hrun
      obtain ⟨hneuronsRun, hdimsRun⟩ := hshapeRest run hrun
      exact ⟨hneuronsRun.trans hneurons.symm, hdimsRun.trans hdims.symm⟩
    have hstopRest : ∀ run ∈ rest, probe.neurons.stop ≤ run.shape.neurons := by
      intro run hrun
      rwa [(hshapeRest run hrun).1]
    rw [← hneurons] at hstop
    obtain ⟨firstSample, hfirst⟩ := exists_isSampleOf hstop
    obtain ⟨samples, hsamples⟩ := exists_forall₂_isSampleOf hstopRest
    obtain ⟨whole, sampled, hpush, hpushSamples, hsampled⟩ :=
      IsSampleOf.pushAll hsamples hfirst hsame hphase 1
    have hbegin (run : Trace) : History.empty.push run = (.ok (), ⟨some run, 1⟩) :=
      History.push_of_none rfl run
    refine ⟨whole, firstSample :: samples, sampled, .cons hfirst hsamples, ?_, ?_, hsampled⟩
    · rw [pushAll_cons_of_push (hbegin first), hpush, List.length_cons, Nat.add_comm 1]
    · rw [pushAll_cons_of_push (hbegin firstSample), hpushSamples, List.length_cons,
        Nat.add_comm 1]

/-- Sampling each run and stacking the samples gives the same trace as stacking the runs and
sampling the stack, if the steps of all runs but the last divide evenly among the samples and if the
stack can be sampled at all.  Every run and every sample is taken in.  If the stack cannot be
sampled, because a buffer is too large or a position cannot be computed, the program ends there.
The elements of all runs together are held in memory, so that their number is a machine size. -/
theorem sampling_commutes_with_stacking {runs : List Trace} {neurons dims : Nat}
    (hruns : runs ≠ [])
    (hshape : ∀ run ∈ runs, run.shape.neurons = neurons ∧ run.shape.dims = dims)
    (hstop : probe.neurons.stop ≤ neurons)
    (hphase : ∀ run ∈ runs.dropLast, probe.sampleEvery ∣ run.shape.steps)
    (hsize : (runs.map fun run ↦ run.data.size).sum < Size.limit) :
    ∃ whole, History.empty.pushAll runs = (runs, ⟨some whole, runs.length⟩) ∧
      (probe.CanSample whole → ∃ samples sampled,
        runs.mapM probe.apply = .ok samples ∧
        History.empty.pushAll samples = (samples, ⟨some sampled, samples.length⟩) ∧
        probe.apply whole = .ok sampled) ∧
      (¬probe.CanSample whole → ∃ fault, probe.apply whole = .error fault ∧ fault.isPanic) := by
  obtain ⟨whole, samples, sampled, hsamples, hpush, hpushSamples, hsampled⟩ :=
    exists_pushAll_isSampleOf hruns hshape hstop hphase
  have hstack : whole.IsStackOf runs := by
    have hholds := History.holds_empty.pushAll runs
    rw [hpush] at hholds
    exact hholds.isStackOf whole rfl
  have hcount : whole.shape.count < Size.limit := by
    rwa [← whole.size_data, hstack.size_eq]
  have hstopWhole : probe.neurons.stop ≤ whole.shape.neurons := by
    obtain ⟨run, hrun⟩ := List.exists_mem_of_ne_nil runs hruns
    rwa [← (hstack.sameAxes run hrun).1, (hshape run hrun).1]
  refine ⟨whole, hpush, ?_, ?_⟩
  · intro hcan
    have happly : runs.mapM probe.apply = .ok samples := by
      apply mapM_apply_eq_ok hsamples
      intro run hrun runSample hrunSample
      have hwithin := hstack.isWithin hrun
      have hcanRun := hcan.of_steps_le (hstack.sameAxes run hrun) hwithin.steps_le
      have hstopRun : probe.neurons.stop ≤ run.shape.neurons := by
        rwa [(hshape run hrun).1]
      exact hcanRun.apply_eq_ok hstopRun (Nat.lt_of_le_of_lt hwithin.count_le hcount) hrunSample
    exact ⟨samples, sampled, happly, hpushSamples, hcan.apply_eq_ok hstopWhole hcount hsampled⟩
  · intro hcannot
    rcases apply_cases hstopWhole with ⟨other, hother⟩ | hfault
    · exact absurd (canSample_of_apply_eq_ok hother).2 hcannot
    · exact hfault

/-- Every second step and the first two of three neurons, of a run of two steps and one of three. -/
theorem sampling_commutes_with_stacking_of_two_runs :
    let probe : Probe := ⟨2, ⟨0, 2⟩, 1, by decide, by decide, by decide⟩
    let first : Trace := ⟨⟨2, 3, 1⟩, #[⟨1⟩, ⟨2⟩, ⟨3⟩, ⟨4⟩, ⟨5⟩, ⟨6⟩], rfl⟩
    let last : Trace := ⟨⟨3, 3, 1⟩, #[⟨7⟩, ⟨8⟩, ⟨9⟩, ⟨10⟩, ⟨11⟩, ⟨12⟩, ⟨13⟩, ⟨14⟩, ⟨15⟩], rfl⟩
    ∃ samples whole sampled,
      [first, last].mapM probe.apply = .ok samples ∧
      History.empty.pushAll samples = (samples, ⟨some sampled, samples.length⟩) ∧
      History.empty.pushAll [first, last] = ([first, last], ⟨some whole, 2⟩) ∧
      probe.apply whole = .ok sampled ∧
      whole.shape = ⟨5, 3, 1⟩ ∧
      sampled.data = #[⟨1⟩, ⟨2⟩, ⟨7⟩, ⟨8⟩, ⟨13⟩, ⟨14⟩] := by
  intro probe first last
  have hshape : ∀ run ∈ [first, last], run.shape.neurons = 3 ∧ run.shape.dims = 1 := by decide
  have hstop : probe.neurons.stop ≤ 3 := by decide
  obtain ⟨whole, hpush, hsampling, -⟩ :=
    sampling_commutes_with_stacking (List.cons_ne_nil _ _) hshape hstop (by decide) (by decide)
  obtain rfl : first.stack last ⟨rfl, rfl⟩ = whole := by
    cases hpush
    rfl
  have hcan : probe.CanSample (first.stack last ⟨rfl, rfl⟩) :=
    ⟨⟨by decide, by decide, by decide⟩, by decide, by decide⟩
  obtain ⟨samples, sampled, hsamples, hpushSamples, hfinal⟩ := hsampling hcan
  refine ⟨samples, _, sampled, hsamples, hpushSamples, hpush, hfinal, rfl, ?_⟩
  have hdata : (probe.apply (first.stack last ⟨rfl, rfl⟩)).map Trace.data =
      .ok #[⟨1⟩, ⟨2⟩, ⟨7⟩, ⟨8⟩, ⟨13⟩, ⟨14⟩] := by
    cbv
  rw [hfinal] at hdata
  exact Except.ok.inj hdata

/-- A run of no neurons is all that a history holds, and it is not sampled if its steps are more
than a buffer holds. -/
theorem sampling_history_of_no_neurons_overflows :
    ∃ run, Trace.zeros ⟨0x1000000000000000, 0, 1⟩ = .ok (some run) ∧
      (all 0).neurons.stop ≤ run.shape.neurons ∧
      (History.empty.push run).2.trace? = some run ∧
      (all 0).apply run = .error .capacityOverflow := by
  obtain ⟨run, hrun, hoverflow⟩ := exists_run_of_no_neurons
  exact ⟨run, hrun, Nat.zero_le _, rfl, hoverflow⟩

end

end Probe

end EnsembleRecording
