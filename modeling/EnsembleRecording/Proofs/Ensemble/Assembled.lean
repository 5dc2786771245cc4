import EnsembleRecording.Proofs.Assembly.Coverage
import EnsembleRecording.Proofs.Ensemble.Core
import EnsembleRecording.Proofs.Number.Quantisation
import EnsembleRecording.Proofs.Trace.Views

/-!
# The Recording of an Ensemble

An ensemble that is divided among cores is recorded as if one core had all of it.  Each core counts
its neurons from zero and has a region, a stream and a trace of its own; what it recorded is found
in the trace of the ensemble at the neurons of its slice, whatever order the recordings come in.

A trace that was read back can be recorded again: its rows are the vectors, in the order of a run,
and any core with room for them takes them.  What is read then is the same trace, and so it is
however often this is done, as every element of the trace was written from a fixed-point number.
-/

namespace EnsembleRecording

/-- The share of a core in the recording of an ensemble. -/
structure Share where
  slice : NeuronRange
  address : Address
  expectedDims : Option Nat
  /-- What the core records, one vector for each of its neurons at each step. -/
  vectors : List EncoderVector
deriving DecidableEq

namespace Share

def core (share : Share) : Core := ⟨share.address, share.slice.size, share.expectedDims⟩

def record (share : Share) (layout : Layout) : Except HostFault Trace :=
  share.core.run layout share.vectors layout.steps

/-- The core can record all that the layout has room for, and it does. -/
structure IsComplete (share : Share) (layout : Layout) : Prop where
  canRecord : share.core.CanRecord layout share.vectors
  length_eq : share.vectors.length = layout.steps * share.slice.size

end Share

/-- Records the shares one after the other and hands over what comes of each. -/
def Assembly.recordAll (layout : Layout) : Assembly → List Share → Except HostFault Assembly
  | assembly, [] => .ok assembly
  | assembly, share :: rest => do
    let recording ← share.record layout
    match assembly.insert share.slice recording with
    | (.error fault, _) => .error fault
    | (.ok _, left) => recordAll layout left rest

/-- The trace of an ensemble of so many neurons, from the shares of its cores in the order in which
their recordings come in. -/
def Layout.recordEnsemble (layout : Layout) (neurons : Nat) (shares : List Share) :
    Except HostFault Trace := do
  let assembly ← Assembly.ofShape (layout.shape neurons)
  let complete ← assembly.recordAll layout shares
  complete.finish

namespace Share

variable {share : Share} {layout : Layout}

/-- The recording of a share is a piece of the ensemble's. -/
def IsRecordedIn (share : Share) (layout : Layout) (piece : Assembly.Piece) : Prop :=
  piece.slice = share.slice ∧ share.record layout = .ok piece.recording

theorem IsComplete.exists_record_eq_ok (h : share.IsComplete layout) :
    ∃ recording, share.record layout = .ok recording ∧
      recording.shape = ⟨layout.steps, share.slice.size, layout.dims⟩ := by
  obtain ⟨recording, hrun, hshape, -⟩ := Core.exists_run_eq_ok h.canRecord (Nat.le_refl _)
  exact ⟨recording, hrun, hshape⟩

/-- Each neuron of the slice has its own vector for each step of the layout. -/
theorem IsComplete.row_lt_length (h : share.IsComplete layout) {step neuron : Nat}
    (hstep : step < layout.steps) (hneuron : neuron < share.slice.size) :
    step * share.slice.size + neuron < share.vectors.length := by
  rw [h.length_eq]
  exact Shape.row_lt hstep hneuron

/-- The recording has the elements that the core recorded, and nothing else. -/
theorem IsComplete.get?_recording (h : share.IsComplete layout) {recording : Trace}
    (hrecord : share.record layout = .ok recording) {step neuron dim : Nat}
    (hstep : step < layout.steps) (hneuron : neuron < share.slice.size) (hdim : dim < layout.dims) :
    ∃ vector element, share.vectors[step * share.slice.size + neuron]? = some vector ∧
      vector[dim]? = some element ∧ recording.get? step neuron dim = some element.toBinary32 := by
  obtain ⟨trace, hrun, hshape, hget⟩ := Core.exists_run_eq_ok h.canRecord (Nat.le_refl _)
  cases hrun.symm.trans hrecord
  have hrow := h.row_lt_length hstep hneuron
  have hvector := List.getElem?_eq_getElem hrow
  have hdimVector : dim < share.vectors[step * share.slice.size + neuron].length := by
    rw [h.canRecord.length_eq _ (List.getElem_mem hrow)]
    exact hdim
  have hplace : recording.shape.HasPlace step neuron dim := by
    rw [hshape]
    exact ⟨hstep, hneuron, hdim⟩
  refine ⟨_, _, hvector, List.getElem?_eq_getElem hdimVector, ?_⟩
  rw [← EncoderVector.elementOf_eq_getElem hvector hdimVector]
  exact hget step neuron dim hplace

end Share

namespace Assembly

variable {layout : Layout} {neurons : Nat}

/-- Shares whose slices lie apart from each other and from those taken in before are recorded and
taken in, all of them. -/
theorem Holds.exists_recordAll_eq_ok {pieces : List Piece} {assembly : Assembly}
    (h : Holds (layout.shape neurons) pieces assembly) {shares : List Share}
    (hcomplete : ∀ share ∈ shares, share.IsComplete layout)
    (hslices : ∀ share ∈ shares, share.slice.IsSliceOf neurons)
    (hapart : (shares.map Share.slice).Pairwise NeuronRange.Apart)
    (hearlier : ∀ share ∈ shares, ∀ piece ∈ pieces, share.slice.Apart piece.slice) :
    ∃ added left, assembly.recordAll layout shares = .ok left ∧
      Holds (layout.shape neurons) (pieces ++ added) left ∧
      ∀ share ∈ shares, ∃ piece ∈ added, share.IsRecordedIn layout piece := by
  induction shares generalizing pieces assembly with
  | nil =>
    refine ⟨[], assembly, rfl, ?_, ?_⟩
    · rwa [List.append_nil]
    · intro share hshare
      contradiction
  | cons share rest ih =>
    obtain ⟨hfirst, hrest⟩ := List.pairwise_cons.1 hapart
    obtain ⟨recording, hrecord, hshape⟩ :=
      (hcomplete share List.mem_cons_self).exists_record_eq_ok
    have hadmits : assembly.Admits ⟨share.slice, recording⟩ :=
      h.admits (hslices share List.mem_cons_self) (hearlier share List.mem_cons_self) hshape
    have hnext := h.insert hadmits
    have hearlierRest : ∀ later ∈ rest, ∀ piece ∈ pieces ++ [⟨share.slice, recording⟩],
        later.slice.Apart piece.slice := by
      intro later hlater piece hpiece
      rcases List.mem_append.1 hpiece with hbefore | hlast
      · exact hearlier later (List.mem_cons_of_mem _ hlater) piece hbefore
      · rw [List.mem_singleton.1 hlast]
        exact (hfirst later.slice (List.mem_map_of_mem hlater)).symm
    obtain ⟨added, left, hrecordAll, hholds, hrecorded⟩ := ih hnext
      (fun later hlater ↦ hcomplete later (List.mem_cons_of_mem _ hlater))
      (fun later hlater ↦ hslices later (List.mem_cons_of_mem _ hlater)) hrest hearlierRest
    refine ⟨⟨share.slice, recording⟩ :: added, left, ?_, ?_, ?_⟩
    · have hinsert := insert_eq_ok hadmits
      simp only [hinsert] at hrecordAll
      simp only [recordAll, hrecord, bind, Except.bind, hinsert, hrecordAll]
    · rwa [List.append_assoc, List.singleton_append] at hholds
    · intro held hheld
      rcases List.mem_cons.1 hheld with rfl | hlater
      · exact ⟨_, List.mem_cons_self, rfl, hrecord⟩
      · obtain ⟨piece, hpiece, hin⟩ := hrecorded held hlater
        exact ⟨piece, List.mem_cons_of_mem _ hpiece, hin⟩

end Assembly

/-- The cores of an ensemble record their shares, which come in in any order.  Nothing fails, and
the trace has every element at the step at which, the neuron for which and the dimension in which a
core recorded it. -/
theorem Layout.recordEnsemble_attributes_elements {layout : Layout} {neurons : Nat}
    {shares : List Share}
    (hshape : ∃ assembly, Assembly.ofShape (layout.shape neurons) = .ok assembly)
    (hpartition : NeuronRange.Partition (shares.map Share.slice) neurons)
    (hcomplete : ∀ share ∈ shares, share.IsComplete layout) :
    ∃ trace, layout.recordEnsemble neurons shares = .ok trace ∧
      trace.shape = layout.shape neurons ∧
      ∀ step neuron dim, (layout.shape neurons).HasPlace step neuron dim →
        ∀ share ∈ shares, share.slice.Contains neuron →
          ∃ vector element,
            share.vectors[step * share.slice.size + (neuron - share.slice.start)]? = some vector ∧
            vector[dim]? = some element ∧
            trace.get? step neuron dim = some element.toBinary32 := by
  obtain ⟨assembly, hnew⟩ := hshape
  have hslices : ∀ share ∈ shares, share.slice.IsSliceOf neurons := by
    intro share hshare
    exact hpartition.isSliceOf share.slice (List.mem_map_of_mem hshare)
  obtain ⟨pieces, left, hrecordAll, hholds, hrecorded⟩ :=
    (Assembly.holds_of_ofShape hnew).exists_recordAll_eq_ok hcomplete hslices hpartition.apart
      (fun _ _ piece hpiece ↦ absurd hpiece (List.not_mem_nil))
  rw [List.nil_append] at hholds
  have hcovers : ∀ neuron < neurons, ∃ piece ∈ pieces, piece.slice.Contains neuron := by
    intro neuron hneuron
    obtain ⟨slice, hslice, hcontains⟩ := hpartition.covers neuron hneuron
    obtain ⟨share, hshare, rfl⟩ := List.mem_map.1 hslice
    obtain ⟨piece, hpiece, heq, -⟩ := hrecorded share hshare
    exact ⟨piece, hpiece, heq ▸ hcontains⟩
  have hfinish := hholds.finish_eq_ok hcovers
  refine ⟨left.trace, ?_, hholds.shape_eq, ?_⟩
  · simp only [recordEnsemble, hnew, bind, Except.bind, hrecordAll, hfinish]
  · intro step neuron dim hplace share hshare hneuron
    obtain ⟨piece, hpiece, heq, hrecord⟩ := hrecorded share hshare
    obtain ⟨vector, element, hvector, helement, hget⟩ :=
      (hcomplete share hshare).get?_recording hrecord hplace.step_lt hneuron.sub_lt_size
        hplace.dim_lt
    refine ⟨vector, element, hvector, helement, ?_⟩
    rw [hholds.get?_eq piece hpiece step neuron dim (heq ▸ hneuron), heq]
    exact hget

/-- Two cores, of which the one with the later neurons comes first. -/
theorem Layout.recordEnsemble_attributes_elements_of_two_cores :
    ∃ trace, Layout.recordEnsemble ⟨2, 1⟩ 3
        [⟨⟨1, 3⟩, ⟨0x60001000⟩, none, [[⟨32768⟩], [⟨65536⟩], [⟨-32768⟩], [⟨-65536⟩]]⟩,
          ⟨⟨0, 1⟩, ⟨0x60000000⟩, some 1, [[⟨16384⟩], [⟨-16384⟩]]⟩] = .ok trace ∧
      trace.get? 0 2 0 = some ⟨0x40000000⟩ ∧ trace.get? 1 0 0 = some ⟨0xbf000000⟩ ∧
      trace.get? 1 1 0 = some ⟨0xbf800000⟩ := by
  let later : Share :=
    ⟨⟨1, 3⟩, ⟨0x60001000⟩, none, [[⟨32768⟩], [⟨65536⟩], [⟨-32768⟩], [⟨-65536⟩]]⟩
  let earlier : Share := ⟨⟨0, 1⟩, ⟨0x60000000⟩, some 1, [[⟨16384⟩], [⟨-16384⟩]]⟩
  have hapart : later.slice.Apart earlier.slice :=
    (NeuronRange.overlaps_eq_false_iff_apart (by decide) (by decide)).1 (by decide)
  have hpartition : NeuronRange.Partition ([later, earlier].map Share.slice) 3 :=
    ⟨by decide, List.pairwise_pair.2 hapart, by decide⟩
  have hlaterImage : ∃ image, Layout.region ⟨2, 1⟩ ⟨0x60001000⟩ 2 = .ok image := ⟨_, rfl⟩
  have hearlierImage : ∃ image, Layout.region ⟨2, 1⟩ ⟨0x60000000⟩ 1 = .ok image := ⟨_, rfl⟩
  have hlater : later.IsComplete ⟨2, 1⟩ :=
    ⟨⟨hlaterImage, .inl rfl, by decide, by decide⟩, rfl⟩
  have hearlier : earlier.IsComplete ⟨2, 1⟩ :=
    ⟨⟨hearlierImage, .inr rfl, by decide, by decide⟩, rfl⟩
  have hcomplete : ∀ share ∈ [later, earlier], share.IsComplete ⟨2, 1⟩ := by
    intro share hshare
    rcases List.mem_pair.1 hshare with rfl | rfl
    · exact hlater
    · exact hearlier
  obtain ⟨trace, hrecord, -, hget⟩ :=
    Layout.recordEnsemble_attributes_elements ⟨_, rfl⟩ hpartition hcomplete
  refine ⟨trace, hrecord, ?_, ?_, ?_⟩
  · obtain ⟨vector, element, hvector, helement, hfound⟩ := hget 0 2 0
      ⟨by decide, by decide, by decide⟩ later List.mem_cons_self (by decide)
    cases hvector
    cases helement
    exact hfound.trans (by decide +kernel)
  · obtain ⟨vector, element, hvector, helement, hfound⟩ := hget 1 0 0
      ⟨by decide, by decide, by decide⟩ earlier (List.mem_cons_of_mem _ List.mem_cons_self)
      (by decide)
    cases hvector
    cases helement
    exact hfound.trans (by decide +kernel)
  · obtain ⟨vector, element, hvector, helement, hfound⟩ := hget 1 1 0
      ⟨by decide, by decide, by decide⟩ later List.mem_cons_self (by decide)
    cases hvector
    cases helement
    exact hfound.trans (by decide +kernel)

namespace Trace

/-- The rows of a trace as vectors, in the order in which a core records them. -/
def vectors (trace : Trace) : List EncoderVector :=
  (List.range (trace.shape.steps * trace.shape.neurons)).map fun row ↦
    .ofBinary32s
      (trace.rowAt (row / trace.shape.neurons) (row % trace.shape.neurons)).toList

/-- Every element was written from a fixed-point number. -/
def IsWritten (trace : Trace) : Prop :=
  ∀ step neuron dim element, trace.get? step neuron dim = some element →
    ∃ number : Fixed, element = number.toBinary32

variable {trace : Trace}

theorem isWritten_of_readBack_eq_ok {layout : Layout} {region : Region} {neurons steps : ℕ}
    (h : layout.readBack region neurons steps = .ok trace) : trace.IsWritten := by
  rcases Layout.readBack_cases layout region neurons steps with
    ⟨-, hread⟩ | ⟨-, ⟨-, hread⟩ | ⟨-, ⟨-, hread⟩ | ⟨elements, hsize, -, hread⟩⟩⟩ <;>
    rw [hread] at h <;> cases h
  intro step neuron dim element helement
  obtain ⟨hstep, hneuron, hdim⟩ := isSome_get?_iff.1 (Option.isSome_of_mem helement)
  rw [get?_eq_data ⟨hstep, hneuron, hdim⟩, Array.getElem?_map, Option.map_eq_some_iff] at helement
  obtain ⟨number, -, hnumber⟩ := helement
  exact ⟨number, hnumber.symm⟩

theorem length_of_mem_vectors {vector : EncoderVector} (h : vector ∈ trace.vectors) :
    vector.length = trace.shape.dims := by
  obtain ⟨row, hrow, rfl⟩ := List.mem_map.1 h
  have hrow := List.mem_range.1 hrow
  have hneurons : 0 < trace.shape.neurons := Nat.pos_of_lt_mul_left hrow
  rw [EncoderVector.ofBinary32s, List.length_map, Array.length_toList,
    size_rowAt (Nat.div_lt_of_lt_mul (by rwa [Nat.mul_comm])) (Nat.mod_lt _ hneurons)]

theorem elementOf_vectors {step neuron dim : ℕ} (hplace : trace.shape.HasPlace step neuron dim)
    {element : Binary32} (helement : trace.get? step neuron dim = some element) :
    EncoderVector.elementOf trace.vectors (step * trace.shape.neurons + neuron) dim =
      .ofBinary32 element := by
  have hrow := Shape.row_lt hplace.step_lt hplace.neuron_lt
  have hneurons : 0 < trace.shape.neurons := Nat.zero_lt_of_lt hplace.neuron_lt
  have hstep : (step * trace.shape.neurons + neuron) / trace.shape.neurons = step := by
    rw [Nat.mul_comm, Nat.mul_add_div hneurons, Nat.div_eq_of_lt hplace.neuron_lt, Nat.add_zero]
  have hneuron : (step * trace.shape.neurons + neuron) % trace.shape.neurons = neuron := by
    rw [Nat.mul_comm, Nat.mul_add_mod, Nat.mod_eq_of_lt hplace.neuron_lt]
  rw [EncoderVector.elementOf, vectors, List.getElem?_map, List.getElem?_range hrow,
    Option.map_some, Option.bind_some, hstep, hneuron, EncoderVector.ofBinary32s,
    List.getElem?_map, Array.getElem?_toList, getElem?_rowAt hplace, helement]
  rfl

end Trace

namespace Core

/-- The core can record all of a trace of the shape: the layout has a region for it, and neurons,
dimensions and steps are enough. -/
structure CanRerecord (core : Core) (layout : Layout) (shape : Shape) : Prop where
  exists_image : ∃ image, layout.region core.address core.neurons = .ok image
  expectedDims_eq : core.expectedDims = none ∨ core.expectedDims = some layout.dims
  neurons_eq : core.neurons = shape.neurons
  dims_eq : layout.dims = shape.dims
  steps_le : shape.steps ≤ layout.steps

/-- The core records the rows of a trace, and the host reads them back. -/
def rerecord (trace : Trace) (stage : Core × Layout) : Except HostFault Trace :=
  stage.1.run stage.2 trace.vectors trace.shape.steps

variable {core : Core} {layout : Layout} {trace : Trace}

theorem CanRerecord.canRecord (h : core.CanRerecord layout trace.shape) :
    core.CanRecord layout trace.vectors where
  exists_image := h.exists_image
  expectedDims_eq := h.expectedDims_eq
  length_le := by
    rw [Trace.vectors, List.length_map, List.length_range, h.neurons_eq]
    exact Nat.mul_le_mul_right _ h.steps_le
  length_eq vector hvector := by
    rw [Trace.length_of_mem_vectors hvector, h.dims_eq]

theorem rerecord_eq_ok (hwritten : trace.IsWritten) (h : core.CanRerecord layout trace.shape) :
    rerecord trace (core, layout) = .ok trace := by
  obtain ⟨read, hrun, hshape, hget⟩ := exists_run_eq_ok h.canRecord h.steps_le
  have hsame : read.shape = trace.shape := by rw [hshape, h.neurons_eq, h.dims_eq]
  have hread : read = trace := by
    apply Trace.eq_of_get?_eq hsame
    intro step neuron dim hplace
    have hplace' : trace.shape.HasPlace step neuron dim := hsame ▸ hplace
    obtain ⟨element, helement⟩ := Trace.exists_get?_eq_some hplace'
    obtain ⟨number, rfl⟩ := hwritten step neuron dim element helement
    rw [hget step neuron dim hplace, h.neurons_eq, Trace.elementOf_vectors hplace' helement,
      helement]
    exact congrArg some number.toBinary32_requantised
  rw [rerecord, hrun, hread]

/-- The trace goes through any number of recordings unchanged. -/
theorem foldlM_rerecord_eq_ok (hwritten : trace.IsWritten) {stages : List (Core × Layout)}
    (h : ∀ stage ∈ stages, stage.1.CanRerecord stage.2 trace.shape) :
    stages.foldlM rerecord trace = .ok trace := by
  induction stages with
  | nil => rfl
  | cons stage rest ih =>
    rw [List.foldlM_cons, rerecord_eq_ok hwritten (h stage List.mem_cons_self)]
    exact ih fun later hlater ↦ h later (List.mem_cons_of_mem _ hlater)

end Core

/-- Writing a number in single precision and reading it again does nothing more at a second time.
At the first it changes the number by sixty-four steps at most, and not at all one of twenty-four
bits, as every element of an encoder source is.  And what has been read back from a region can be
recorded and read back on any cores, any number of times, and stays the same. -/
theorem requantisation_is_stable :
    (∀ number : Fixed, number.requantised.toBinary32 = number.toBinary32 ∧
      |number.requantised.raw.toInt - number.raw.toInt| ≤ 64 ∧
      (|number.raw.toInt| ≤ 2 ^ 24 → number.requantised = number)) ∧
    (∀ (γ : Type) [WordGenerator γ] (source : EncoderSource γ) (number : Fixed),
      (number ∈ source.next.1 ∨ ∃ steps neurons, ∃ vector ∈ (source.run steps neurons).1,
        number ∈ vector) →
      |number.raw.toInt| ≤ 2 ^ 24 ∧ number.requantised = number) ∧
    (∀ (layout : Layout) (region : Region) (neurons steps : ℕ) (trace : Trace),
      layout.readBack region neurons steps = .ok trace →
      ∀ stages : List (Core × Layout), (∀ stage ∈ stages, stage.1.CanRerecord stage.2 trace.shape) →
        stages.foldlM Core.rerecord trace = .ok trace) := by
  refine ⟨fun number ↦ ?_, fun γ _ source number hnumber ↦ ?_,
    fun layout region neurons steps trace hread stages hstages ↦ ?_⟩
  · exact ⟨number.toBinary32_requantised, number.abs_requantised_sub_le,
      Fixed.requantised_of_abs_le⟩
  · obtain ⟨word, rfl⟩ : ∃ word, number = EncoderSource.element word := by
      rcases hnumber with hnext | ⟨steps, neurons, vector, hvector, hmem⟩
      · exact EncoderSource.exists_eq_element_of_mem_next hnext
      · exact EncoderSource.exists_eq_element_of_mem_run hvector hmem
    have hsmall : |(EncoderSource.element word).raw.toInt| ≤ 2 ^ 24 :=
      (EncoderSource.abs_element_le word).trans (by norm_num)
    exact ⟨hsmall, Fixed.requantised_of_abs_le hsmall⟩
  · exact Core.foldlM_rerecord_eq_ok (Trace.isWritten_of_readBack_eq_ok hread) hstages

/-- The largest number is written as the power of two past it, and of the number sixty-four steps
past a power of two only that power is written. -/
theorem requantisation_is_stable_of_two_stages :
    let region : Region := ⟨⟨0x1000⟩, #[1, 0x7fffffff, 0x40000040], by decide⟩
    Fixed.largest.requantised.toBinary32 = Fixed.largest.toBinary32 ∧
      (Fixed.mk (-0x1000000)).requantised = ⟨-0x1000000⟩ ∧
      (∃ number ∈ (EncoderSource.ofSeed 7 1).next.1, number.requantised = number) ∧
      ∃ trace, Layout.readBack ⟨2, 1⟩ region 1 2 = .ok trace ∧
        trace.data[1]? = some ⟨0x47000000⟩ ∧
        List.foldlM Core.rerecord trace
          [(⟨⟨0x60000000⟩, 1, none⟩, ⟨2, 1⟩), (⟨⟨0x2000⟩, 1, some 1⟩, ⟨3, 1⟩)] = .ok trace := by
  intro region
  obtain ⟨hnumbers, hsources, htraces⟩ := requantisation_is_stable
  obtain ⟨trace, hread, hshape, hdata⟩ : ∃ trace, Layout.readBack ⟨2, 1⟩ region 1 2 = .ok trace ∧
      trace.shape = ⟨2, 1, 1⟩ ∧ ∀ i < 2, trace.data[i]? =
        (region.word? (Region.dataOffset + i)).map fun word ↦ (Fixed.ofWord word).toBinary32 :=
    Layout.exists_readBack_eq_ok rfl (by decide)
  refine ⟨(hnumbers _).1, (hnumbers _).2.2 (by decide), ?_, trace, hread, ?_, ?_⟩
  · exact ⟨_, List.mem_cons_self, (hsources _ (.ofSeed 7 1) _ (.inl List.mem_cons_self)).2⟩
  · exact (hdata 1 (by decide)).trans (by decide +kernel)
  · apply htraces _ _ _ _ _ hread
    rintro stage hstage
    rw [hshape]
    rcases List.mem_cons.1 hstage with rfl | hstage
    · exact ⟨⟨_, rfl⟩, .inl rfl, rfl, rfl, by decide⟩
    · obtain rfl := List.mem_singleton.1 hstage
      exact ⟨⟨_, rfl⟩, .inr rfl, rfl, rfl, by decide⟩

end EnsembleRecording
