import EnsembleRecording.Proofs.Assembly.Coverage
import EnsembleRecording.Proofs.Probe.Sample

/-!
# Order and Division

The recordings of the cores come in as the cores finish.  Pieces that fit one ensemble are all taken
in, whichever comes first, and the assembly ends up with the same elements; only the list of its
slices tells the order.

A probe of a slice takes the recording of the slice out of that of the ensemble, and an assembly
puts such recordings together.  Each counts the neurons of a slice in its own way; that the two ways
are the same is why the pieces of any division make up the trace that was divided.  A probe lists
steps and neurons in buffers, though, and a trace without elements can have more of them than any
buffer holds: such a trace cannot be taken apart.
-/

namespace EnsembleRecording

namespace Assembly

/-- The pieces are recordings of slices of one ensemble, and no two of them share a neuron. -/
structure Compatible (shape : Shape) (pieces : List Piece) : Prop where
  isSliceOf : ∀ piece ∈ pieces, piece.slice.IsSliceOf shape.neurons
  shape_eq : ∀ piece ∈ pieces,
    piece.recording.shape = ⟨shape.steps, piece.slice.size, shape.dims⟩
  apart : (pieces.map Piece.slice).Pairwise NeuronRange.Apart

section

variable {shape : Shape} {pieces permuted : List Piece} {assembly other : Assembly}

theorem Compatible.perm (h : Compatible shape pieces) (hperm : pieces.Perm permuted) :
    Compatible shape permuted where
  isSliceOf := fun piece hpiece ↦ h.isSliceOf piece (hperm.mem_iff.2 hpiece)
  shape_eq := fun piece hpiece ↦ h.shape_eq piece (hperm.mem_iff.2 hpiece)
  apart := (hperm.map Piece.slice).pairwise h.apart NeuronRange.Apart.symm

/-- Pieces that are compatible with those held and with each other are taken in, all of them. -/
theorem Holds.accepts (h : Holds shape pieces assembly) {offered : List Piece}
    (hcompatible : Compatible shape (pieces ++ offered)) :
    (assembly.insertAll offered).1 = offered := by
  induction offered generalizing pieces assembly with
  | nil => rfl
  | cons piece rest ih =>
    have hmem : piece ∈ pieces ++ piece :: rest := List.mem_append_right _ List.mem_cons_self
    have hapart : ∀ earlier ∈ pieces, piece.slice.Apart earlier.slice := by
      intro earlier hearlier
      have hpairwise := hcompatible.apart
      rw [List.map_append, List.pairwise_append] at hpairwise
      apply NeuronRange.Apart.symm
      apply hpairwise.2.2
      · exact List.mem_map_of_mem hearlier
      · exact List.mem_map_of_mem List.mem_cons_self
    have hadmits : assembly.Admits piece :=
      h.admits (hcompatible.isSliceOf piece hmem) hapart (hcompatible.shape_eq piece hmem)
    have hnext := h.insert hadmits
    rw [List.append_cons] at hcompatible
    rw [Assembly.insertAll, insert_eq_ok hadmits]
    rw [insert_eq_ok hadmits] at hnext
    exact congrArg (piece :: ·) (ih hnext hcompatible)

/-- What an assembly holds leaves no choice for its elements, whatever order it was taken in. -/
theorem Holds.trace_eq (h : Holds shape pieces assembly) (h' : Holds shape permuted other)
    (hperm : pieces.Perm permuted) : assembly.trace = other.trace := by
  apply Trace.eq_of_get?_eq (h.shape_eq.trans h'.shape_eq.symm)
  intro step neuron dim hplace
  rw [h.shape_eq] at hplace
  by_cases hcovered : ∃ piece ∈ pieces, piece.slice.Contains neuron
  · obtain ⟨piece, hpiece, hneuron⟩ := hcovered
    calc assembly.trace.get? step neuron dim
        = piece.recording.get? step (neuron - piece.slice.start) dim :=
          h.get?_eq piece hpiece step neuron dim hneuron
      _ = other.trace.get? step neuron dim :=
          (h'.get?_eq piece (hperm.mem_iff.1 hpiece) step neuron dim hneuron).symm
  · have hnone : ∀ piece ∈ pieces, ¬piece.slice.Contains neuron := by
      intro piece hpiece hneuron
      exact hcovered ⟨piece, hpiece, hneuron⟩
    calc assembly.trace.get? step neuron dim
        = some .zero := h.get?_elsewhere step neuron dim hnone hplace
      _ = other.trace.get? step neuron dim :=
          (h'.get?_elsewhere step neuron dim
            (fun piece hpiece ↦ hnone piece (hperm.mem_iff.2 hpiece)) hplace).symm

theorem Holds.covered_eq_of_perm (h : Holds shape pieces assembly)
    (h' : Holds shape permuted other) (hperm : pieces.Perm permuted) :
    assembly.covered = other.covered := by
  have hneurons : NeuronRange.neuronsOf (pieces.map Piece.slice) =
      NeuronRange.neuronsOf (permuted.map Piece.slice) := by
    ext neuron
    simp only [NeuronRange.mem_neuronsOf, (hperm.map Piece.slice).mem_iff]
  rw [h.covered_eq, h'.covered_eq, hneurons]

end

/-- Compatible pieces are all taken in by a new assembly, in any order.  What it covers and what it
is finished with do not depend on the order, and its slices are listed as they came. -/
theorem insertAll_of_perm {shape : Shape} {assembly : Assembly}
    (hnew : ofShape shape = .ok assembly) {pieces permuted : List Piece}
    (hcompatible : Compatible shape pieces) (hperm : pieces.Perm permuted) :
    let first := assembly.insertAll pieces
    let second := assembly.insertAll permuted
    first.1 = pieces ∧ second.1 = permuted ∧ first.2.covered = second.2.covered ∧
      first.2.finish = second.2.finish ∧
      first.2.slices = pieces.map Piece.slice ∧ second.2.slices = permuted.map Piece.slice := by
  intro first second
  have hempty := holds_of_ofShape hnew
  have hfirst : first.1 = pieces := hempty.accepts hcompatible
  have hsecond : second.1 = permuted := hempty.accepts (hcompatible.perm hperm)
  have hholds : Holds shape pieces first.2 := hfirst ▸ hempty.insertAll pieces
  have hholds' : Holds shape permuted second.2 := hsecond ▸ hempty.insertAll permuted
  have htrace := hholds.trace_eq hholds' hperm
  have hcovered := hholds.covered_eq_of_perm hholds' hperm
  have hfinish : first.2.finish = second.2.finish := by
    rw [finish, finish, htrace, hcovered]
  exact ⟨hfirst, hsecond, hcovered, hfinish, hholds.slices_eq, hholds'.slices_eq⟩

/-- Two cores of which either may be the first to finish. -/
theorem insertAll_of_perm_of_two_cores :
    ∃ assembly, ofShape ⟨1, 3, 1⟩ = .ok assembly ∧
      let left : Piece := ⟨⟨0, 1⟩, ⟨⟨1, 1, 1⟩, #[⟨0x3f800000⟩], rfl⟩⟩
      let right : Piece := ⟨⟨1, 3⟩, ⟨⟨1, 2, 1⟩, #[⟨0x40000000⟩, ⟨0x40400000⟩], rfl⟩⟩
      (assembly.insertAll [left, right]).1 = [left, right] ∧
        (assembly.insertAll [right, left]).1 = [right, left] ∧
        (assembly.insertAll [left, right]).2.finish =
          (assembly.insertAll [right, left]).2.finish ∧
        (assembly.insertAll [right, left]).2.slices = [⟨1, 3⟩, ⟨0, 1⟩] := by
  have hnew : ofShape ⟨1, 3, 1⟩ = .ok ⟨⟨⟨1, 3, 1⟩, #[.zero, .zero, .zero], rfl⟩, []⟩ := rfl
  refine ⟨_, hnew, ?_⟩
  intro left right
  have hapart : left.slice.Apart right.slice :=
    (NeuronRange.overlaps_eq_false_iff_apart (by decide) (by decide)).1 (by decide)
  have hcompatible : Compatible ⟨1, 3, 1⟩ [left, right] :=
    ⟨by decide, by decide, List.pairwise_pair.2 hapart⟩
  obtain ⟨hfirst, hsecond, -, hfinish, -, hslices⟩ :=
    insertAll_of_perm hnew hcompatible (List.Perm.swap right left [])
  exact ⟨hfirst, hsecond, hfinish, hslices⟩

end Assembly

open Assembly (Piece)

/-- The piece of a trace that belongs to a slice, as a probe of the slice takes it out. -/
def Trace.piece (whole : Trace) (slice : NeuronRange) : Except HostFault Piece := do
  let probe ← Probe.ofRange 1 slice
  let recording ← probe.apply whole
  return ⟨slice, recording⟩

/-- The recording of a piece is that part of a trace which the slice of the piece covers. -/
structure Assembly.Piece.IsPartOf (piece : Piece) (whole : Trace) : Prop where
  shape_eq : piece.recording.shape = ⟨whole.shape.steps, piece.slice.size, whole.shape.dims⟩
  get?_eq : ∀ step neuron dim, whole.shape.HasPlace step neuron dim →
    piece.slice.Contains neuron →
      piece.recording.get? step (neuron - piece.slice.start) dim = whole.get? step neuron dim

/-- The buffers for the pieces of a trace, and for the zeros that they replace, can be asked for. -/
structure Trace.FitsDivision (whole : Trace) (slices : List NeuronRange) : Prop where
  elements_fit : Size.FitsBuffer whole.data.size Binary32.byteSize
  steps_fit : ∀ slice ∈ slices, Size.FitsBuffer whole.shape.steps Size.byteSize
  neurons_fit : ∀ slice ∈ slices, Size.FitsBuffer slice.size Size.byteSize

namespace Trace

variable {whole : Trace} {slices : List NeuronRange}

/-- A slice for which a probe cannot list the steps or the neurons has no piece. -/
theorem piece_eq_capacityOverflow {slice : NeuronRange}
    (hslice : slice.IsSliceOf whole.shape.neurons)
    (hlarge : ¬(Size.FitsBuffer whole.shape.steps Size.byteSize ∧
      Size.FitsBuffer slice.size Size.byteSize)) :
    whole.piece slice = .error .capacityOverflow := by
  have hordered : slice.start ≤ slice.stop := Nat.le_of_lt hslice.1
  have hprobe := Probe.ofRange_eq_ok Nat.one_pos hordered
  have happly : Probe.apply ⟨1, slice, 1, Nat.one_pos, hordered, Nat.one_pos⟩ whole =
      .error .capacityOverflow := by
    apply Probe.apply_eq_capacityOverflow hslice.2
    rwa [Probe.stepCount, Probe.neuronCount, strideCount_one, strideCount_one]
  simp only [piece, hprobe, happly, bind, Except.bind]

section

variable {count : Nat} (hcount : whole.shape.count? = some count)

include hcount

theorem exists_piece_eq_ok (hfits : whole.FitsDivision slices) {slice : NeuronRange}
    (hmem : slice ∈ slices) (hslice : slice.IsSliceOf whole.shape.neurons) :
    ∃ piece, whole.piece slice = .ok piece ∧ piece.slice = slice ∧ piece.IsPartOf whole := by
  have hordered : slice.start ≤ slice.stop := Nat.le_of_lt hslice.1
  let probe : Probe := ⟨1, slice, 1, Nat.one_pos, hordered, Nat.one_pos⟩
  have hprobe : Probe.ofRange 1 slice = .ok probe := Probe.ofRange_eq_ok Nat.one_pos hordered
  have hstop : probe.neurons.stop ≤ whole.shape.neurons := hslice.2
  have hkept : probe.sampleShape whole = ⟨whole.shape.steps, slice.size, whole.shape.dims⟩ := by
    simp only [Probe.sampleShape, Probe.stepCount, Probe.neuronCount, probe, strideCount_one]
  have hprobeFits : probe.FitsBuffers whole := by
    refine ⟨?_, ?_, ?_⟩
    · rw [Probe.stepCount, strideCount_one]
      exact hfits.steps_fit slice hmem
    · rw [Probe.neuronCount, strideCount_one]
      exact hfits.neurons_fit slice hmem
    · have hcountLe := (Probe.sampleShape_isWithin hstop).count_le
      rw [← whole.size_data] at hcountLe
      exact hfits.elements_fit.of_le hcountLe
  obtain ⟨recording, hsample⟩ := Probe.exists_isSampleOf hstop
  have happly := hprobeFits.apply_eq_ok hcount hstop hsample
  have hshape := hsample.shape_eq.trans hkept
  refine ⟨⟨slice, recording⟩, ?_, rfl, hshape, ?_⟩
  · simp only [piece, hprobe, happly, bind, Except.bind, pure, Except.pure]
  · intro step neuron dim hplace hneuron
    have hlocal : recording.shape.HasPlace step (neuron - slice.start) dim := by
      rw [hshape]
      exact ⟨hplace.step_lt, hneuron.sub_lt_size, hplace.dim_lt⟩
    have hat : probe.neuronAt (neuron - slice.start) = neuron := by
      rw [Probe.neuronAt, Nat.mul_one]
      exact Nat.add_sub_cancel' hneuron.1
    calc recording.get? step (neuron - slice.start) dim
        = whole.get? (step * 1) (probe.neuronAt (neuron - slice.start)) dim :=
          hsample.get?_eq step (neuron - slice.start) dim hlocal
      _ = whole.get? step neuron dim := by rw [Nat.mul_one, hat]

/-- Every slice of a division has its piece. -/
theorem exists_mapM_piece_eq_ok (hfits : whole.FitsDivision slices)
    (hslices : ∀ slice ∈ slices, slice.IsSliceOf whole.shape.neurons) :
    ∃ pieces, slices.mapM whole.piece = .ok pieces ∧ pieces.map Piece.slice = slices ∧
      ∀ piece ∈ pieces, piece.IsPartOf whole := by
  induction slices with
  | nil =>
    refine ⟨[], rfl, rfl, ?_⟩
    intro piece hpiece
    contradiction
  | cons slice rest ih =>
    obtain ⟨hslice, hrest⟩ := List.forall_mem_cons.1 hslices
    have hfitsRest : whole.FitsDivision rest :=
      ⟨hfits.elements_fit, fun later hlater ↦ hfits.steps_fit later (List.mem_cons_of_mem _ hlater),
        fun later hlater ↦ hfits.neurons_fit later (List.mem_cons_of_mem _ hlater)⟩
    obtain ⟨piece, hpiece, hat, hpart⟩ :=
      exists_piece_eq_ok hcount hfits List.mem_cons_self hslice
    obtain ⟨pieces, hpieces, hsliced, hparts⟩ := ih hfitsRest hrest
    refine ⟨piece :: pieces, ?_, ?_, List.forall_mem_cons.2 ⟨hpart, hparts⟩⟩
    · simp only [List.mapM_cons, hpiece, hpieces, bind, Except.bind, pure, Except.pure]
    · rw [List.map_cons, hat, hsliced]

end

section

variable {pieces : List Piece}
  (hpartition : NeuronRange.Partition (pieces.map Piece.slice) whole.shape.neurons)

include hpartition

theorem exists_piece_contains {neuron : Nat} (hneuron : neuron < whole.shape.neurons) :
    ∃ piece ∈ pieces, piece.slice.Contains neuron := by
  obtain ⟨slice, hslice, hcontains⟩ := hpartition.covers neuron hneuron
  obtain ⟨piece, hpiece, rfl⟩ := List.mem_map.1 hslice
  exact ⟨piece, hpiece, hcontains⟩

/-- The parts of a trace for a division are compatible. -/
theorem compatible_of_isPartOf (hparts : ∀ piece ∈ pieces, piece.IsPartOf whole) :
    Assembly.Compatible whole.shape pieces where
  isSliceOf := fun piece hpiece ↦ hpartition.isSliceOf piece.slice (List.mem_map_of_mem hpiece)
  shape_eq := fun piece hpiece ↦ (hparts piece hpiece).shape_eq
  apart := hpartition.apart

/-- An assembly that holds the parts of a trace for a division has the elements of the trace. -/
theorem trace_eq_of_isPartOf {assembly : Assembly} (h : Assembly.Holds whole.shape pieces assembly)
    (hparts : ∀ piece ∈ pieces, piece.IsPartOf whole) : assembly.trace = whole := by
  apply eq_of_get?_eq h.shape_eq
  intro step neuron dim hplace
  rw [h.shape_eq] at hplace
  obtain ⟨piece, hpiece, hneuron⟩ := exists_piece_contains hpartition hplace.neuron_lt
  calc assembly.trace.get? step neuron dim
      = piece.recording.get? step (neuron - piece.slice.start) dim :=
        h.get?_eq piece hpiece step neuron dim hneuron
    _ = whole.get? step neuron dim :=
        (hparts piece hpiece).get?_eq step neuron dim hplace hneuron

end

/-- Dividing a trace and putting the pieces together in any order gives the trace, if there are
buffers for all that this takes, and then no probe and no insertion fails on the way.  If there are
not, the program ends when a piece is taken out or when the zeros are made. -/
theorem finish_insertAll_pieces (hbuilt : whole.Built)
    (hpartition : NeuronRange.Partition slices whole.shape.neurons) :
    (whole.FitsDivision slices → ∃ pieces assembly, slices.mapM whole.piece = .ok pieces ∧
      Assembly.ofShape whole.shape = .ok assembly ∧ (assembly.insertAll pieces).1 = pieces ∧
      (assembly.insertAll pieces).2.finish = .ok whole) ∧
    (¬whole.FitsDivision slices →
      Assembly.ofShape whole.shape = .error .capacityOverflow ∨
        ∃ slice ∈ slices, whole.piece slice = .error .capacityOverflow) := by
  have hcount := hbuilt.count?_eq
  refine ⟨?_, ?_⟩
  · intro hfits
    obtain ⟨pieces, hpieces, rfl, hparts⟩ :=
      exists_mapM_piece_eq_ok hcount hfits hpartition.isSliceOf
    obtain ⟨zeros, hzeros⟩ := exists_zeros_eq_ok hcount hfits.elements_fit
    have hnew : Assembly.ofShape whole.shape = .ok ⟨zeros, []⟩ :=
      Assembly.ofShape_eq_ok_iff.2 ⟨zeros, hzeros, rfl⟩
    have hempty := Assembly.holds_of_ofShape hnew
    have haccepted := hempty.accepts (compatible_of_isPartOf hpartition hparts)
    have hholds := hempty.insertAll pieces
    rw [haccepted, List.nil_append] at hholds
    have hfinish := hholds.finish_eq_ok fun neuron ↦ exists_piece_contains hpartition
    rw [trace_eq_of_isPartOf hpartition hholds hparts] at hfinish
    exact ⟨pieces, _, hpieces, hnew, haccepted, hfinish⟩
  · intro hlarge
    by_cases helements : Size.FitsBuffer whole.data.size Binary32.byteSize
    · right
      by_contra hnone
      have hlists : ∀ slice ∈ slices, Size.FitsBuffer whole.shape.steps Size.byteSize ∧
          Size.FitsBuffer slice.size Size.byteSize := by
        intro slice hslice
        by_contra hlists
        exact hnone ⟨slice, hslice,
          piece_eq_capacityOverflow (hpartition.isSliceOf slice hslice) hlists⟩
      exact hlarge ⟨helements, fun slice hslice ↦ (hlists slice hslice).1,
        fun slice hslice ↦ (hlists slice hslice).2⟩
    · left
      rw [Assembly.ofShape, zeros_eq_capacityOverflow hcount helements]

/-- Three neurons at two steps, of which the last two come before the first. -/
theorem finish_insertAll_pieces_of_later_slice_first :
    let whole : Trace := ⟨⟨2, 3, 1⟩, #[⟨1⟩, ⟨2⟩, ⟨3⟩, ⟨4⟩, ⟨5⟩, ⟨6⟩], rfl⟩
    ∃ pieces assembly, [⟨1, 3⟩, ⟨0, 1⟩].mapM whole.piece = .ok pieces ∧
      Assembly.ofShape ⟨2, 3, 1⟩ = .ok assembly ∧ (assembly.insertAll pieces).1 = pieces ∧
      (assembly.insertAll pieces).2.finish = .ok whole := by
  intro whole
  have hwhole : ofArray? ⟨2, 3, 1⟩ #[⟨1⟩, ⟨2⟩, ⟨3⟩, ⟨4⟩, ⟨5⟩, ⟨6⟩] = some whole := rfl
  have hapart : NeuronRange.Apart ⟨1, 3⟩ ⟨0, 1⟩ :=
    (NeuronRange.overlaps_eq_false_iff_apart (by decide) (by decide)).1 (by decide)
  have hpartition : NeuronRange.Partition [⟨1, 3⟩, ⟨0, 1⟩] 3 :=
    ⟨by decide, List.pairwise_pair.2 hapart, by decide⟩
  exact (finish_insertAll_pieces (.ofArray hwhole) hpartition).1
    ⟨by decide, by decide, by decide⟩

/-- A run without steps has no elements, and still no piece of more neurons than a buffer holds. -/
theorem piece_of_run_without_steps_overflows :
    ∃ whole, zeros ⟨0, 0x1000000000000000, 1⟩ = .ok (some whole) ∧
      NeuronRange.Partition [⟨0, 0x1000000000000000⟩] whole.shape.neurons ∧
      whole.piece ⟨0, 0x1000000000000000⟩ = .error .capacityOverflow := by
  obtain ⟨whole, hwhole⟩ : ∃ whole, zeros ⟨0, 0x1000000000000000, 1⟩ = .ok (some whole) :=
    exists_zeros_eq_ok rfl (by decide)
  obtain ⟨hshape, -⟩ := zeros_eq_ok_some hwhole
  have hslice : NeuronRange.IsSliceOf ⟨0, 0x1000000000000000⟩ whole.shape.neurons := by
    rw [hshape]
    decide
  refine ⟨whole, hwhole, ⟨List.forall_mem_singleton.2 hslice, List.pairwise_singleton _ _, ?_⟩,
    piece_eq_capacityOverflow hslice fun hlists ↦ absurd hlists.2 (by decide)⟩
  intro neuron hneuron
  rw [hshape] at hneuron
  exact ⟨_, List.mem_singleton_self _, Nat.zero_le neuron, hneuron⟩

end Trace

end EnsembleRecording
