import EnsembleRecording.Proofs.Assembly.Slices
import EnsembleRecording.Proofs.Trace.Elements

/-!
# Coverage of an Assembly

What an assembly holds after any insertions, accepted and refused ones, in terms of the pieces that
it took in.  It is complete when the slices of these leave no neuron out, although it only compares
the sum of their sizes with the size of the ensemble: slices that are taken in are apart.  The table
of its slices has one place for each first neuron, and a slice that is taken in never finds its
place occupied.
-/

namespace EnsembleRecording

namespace Assembly

/-- Hands over pieces in order.  The first component lists the pieces that are taken in, the second
is the assembly as it is left. -/
def insertAll (assembly : Assembly) : List Piece → List Piece × Assembly
  | [] => ([], assembly)
  | piece :: rest =>
    match assembly.insert piece.slice piece.recording with
    | (.ok _, left) => (piece :: (left.insertAll rest).1, (left.insertAll rest).2)
    | (.error _, left) => left.insertAll rest

/-- An assembly of the given shape has taken in some pieces, in the given order. -/
structure Holds (shape : Shape) (pieces : List Piece) (assembly : Assembly) : Prop where
  shape_eq : assembly.trace.shape = shape
  slices_eq : assembly.slices = pieces.map Piece.slice
  isSliceOf : ∀ piece ∈ pieces, piece.slice.IsSliceOf shape.neurons
  apart : (pieces.map Piece.slice).Pairwise NeuronRange.Apart
  get?_eq : ∀ piece ∈ pieces, ∀ step neuron dim, piece.slice.Contains neuron →
    assembly.trace.get? step neuron dim =
      piece.recording.get? step (neuron - piece.slice.start) dim
  get?_elsewhere : ∀ step neuron dim, (∀ piece ∈ pieces, ¬piece.slice.Contains neuron) →
    shape.HasPlace step neuron dim → assembly.trace.get? step neuron dim = some .zero

theorem ofShape_eq_ok_iff {shape : Shape} {assembly : Assembly} :
    ofShape shape = .ok assembly ↔ ∃ trace, Trace.zeros shape = .ok (some trace) ∧
      assembly = ⟨trace, []⟩ := by
  unfold ofShape
  constructor
  · intro h
    split at h
    · contradiction
    · contradiction
    · next trace hzeros => exact ⟨trace, hzeros, (Except.ok.inj h).symm⟩
  · rintro ⟨trace, hzeros, rfl⟩
    rw [hzeros]

theorem holds_of_ofShape {shape : Shape} {assembly : Assembly}
    (h : ofShape shape = .ok assembly) : Holds shape [] assembly := by
  obtain ⟨trace, hzeros, rfl⟩ := ofShape_eq_ok_iff.1 h
  refine ⟨(Trace.zeros_eq_ok_some hzeros).1, rfl, ?_, List.Pairwise.nil, ?_, ?_⟩
  · intro piece hpiece
    contradiction
  · intro piece hpiece
    contradiction
  · intro step neuron dim _ hplace
    exact Trace.get?_zeros hzeros hplace

section

variable {shape : Shape} {pieces : List Piece} {assembly : Assembly}

/-- A piece is admitted if its slice shares no neuron with those taken in. -/
theorem Holds.admits (h : Holds shape pieces assembly) {piece : Piece}
    (hslice : piece.slice.IsSliceOf shape.neurons)
    (hapart : ∀ earlier ∈ pieces, piece.slice.Apart earlier.slice)
    (hshape : piece.recording.shape = ⟨shape.steps, piece.slice.size, shape.dims⟩) :
    assembly.Admits piece := by
  refine ⟨by rwa [h.shape_eq], ?_, by rwa [partShape, h.shape_eq]⟩
  intro slice hmem
  rw [h.slices_eq] at hmem
  obtain ⟨earlier, hearlier, rfl⟩ := List.mem_map.1 hmem
  exact (NeuronRange.overlaps_eq_false_iff_apart hslice.1 (h.isSliceOf earlier hearlier).1).2
    (hapart earlier hearlier)

theorem Holds.apart_of_admits (h : Holds shape pieces assembly) {piece : Piece}
    (hadmits : assembly.Admits piece) :
    ∀ earlier ∈ pieces, earlier.slice.Apart piece.slice := by
  intro earlier hearlier
  have hmem : earlier.slice ∈ assembly.slices := by
    rw [h.slices_eq]
    exact List.mem_map_of_mem hearlier
  exact ((NeuronRange.overlaps_eq_false_iff_apart hadmits.isSliceOf.1
    (h.isSliceOf earlier hearlier).1).1 (hadmits.overlaps_eq _ hmem)).symm

/-- The step lemma: a piece that is taken in is the last of those held, and the elements of the
others stay as they are. -/
theorem Holds.insert (h : Holds shape pieces assembly) {piece : Piece}
    (hadmits : assembly.Admits piece) :
    Holds shape (pieces ++ [piece]) (assembly.insert piece.slice piece.recording).2 := by
  have hapart := h.apart_of_admits hadmits
  have hslice : piece.slice.IsSliceOf shape.neurons := h.shape_eq ▸ hadmits.isSliceOf
  have hstarts : ∀ earlier ∈ assembly.slices, earlier.start ≠ piece.slice.start := by
    rw [h.slices_eq]
    intro slice hmem
    obtain ⟨earlier, hearlier, rfl⟩ := List.mem_map.1 hmem
    exact (hapart earlier hearlier).start_ne (h.isSliceOf earlier hearlier).1 hslice.1
  rw [insert_eq_ok hadmits]
  refine ⟨h.shape_eq, ?_, ?_, ?_, ?_, ?_⟩
  · rw [enter_eq_concat hstarts, h.slices_eq, List.map_append, List.map_singleton]
  · intro held hheld
    rcases List.mem_append.1 hheld with hearlier | hlast
    · exact h.isSliceOf held hearlier
    · rwa [List.mem_singleton.1 hlast]
  · rw [List.map_append, List.pairwise_append]
    refine ⟨h.apart, List.pairwise_singleton _ _, ?_⟩
    intro slice hmem last hlast
    obtain ⟨earlier, hearlier, rfl⟩ := List.mem_map.1 hmem
    rw [List.map_singleton, List.mem_singleton] at hlast
    rw [hlast]
    exact hapart earlier hearlier
  · intro held hheld step neuron dim hneuron
    rcases List.mem_append.1 hheld with hearlier | hlast
    · have hbeside : ¬piece.slice.Contains neuron := hapart held hearlier neuron hneuron
      exact (Trace.get?_overlay_of_not_contains hadmits.shape_eq hbeside step dim).trans
        (h.get?_eq held hearlier step neuron dim hneuron)
    · obtain rfl := List.mem_singleton.1 hlast
      exact Trace.get?_overlay_of_contains hadmits.shape_eq hadmits.isSliceOf.2 hneuron step dim
  · intro step neuron dim hnone hplace
    have hbeside := hnone piece (List.mem_append_right _ List.mem_cons_self)
    have hnoneEarlier : ∀ earlier ∈ pieces, ¬earlier.slice.Contains neuron := by
      intro earlier hearlier
      exact hnone earlier (List.mem_append_left _ hearlier)
    exact (Trace.get?_overlay_of_not_contains hadmits.shape_eq hbeside step dim).trans
      (h.get?_elsewhere step neuron dim hnoneEarlier hplace)

/-- The run lemma: of the pieces handed over, those taken in are held behind the earlier ones. -/
theorem Holds.insertAll (h : Holds shape pieces assembly) (offered : List Piece) :
    Holds shape (pieces ++ (assembly.insertAll offered).1) (assembly.insertAll offered).2 := by
  induction offered generalizing pieces assembly with
  | nil =>
    rw [Assembly.insertAll, List.append_nil]
    exact h
  | cons piece rest ih =>
    rw [Assembly.insertAll]
    rcases insert_cases assembly piece with hadmits | ⟨fault, hrefused⟩
    · have hnext := h.insert hadmits
      rw [insert_eq_ok hadmits] at hnext ⊢
      have hlast := ih hnext
      rwa [List.append_assoc, List.singleton_append] at hlast
    · rw [hrefused]
      exact ih h

theorem Holds.isSliceOf_of_mem (h : Holds shape pieces assembly) :
    ∀ slice ∈ assembly.slices, slice.IsSliceOf shape.neurons := by
  intro slice hmem
  rw [h.slices_eq] at hmem
  obtain ⟨piece, hpiece, rfl⟩ := List.mem_map.1 hmem
  exact h.isSliceOf piece hpiece

theorem Holds.covered_eq (h : Holds shape pieces assembly) :
    assembly.covered = (NeuronRange.neuronsOf (pieces.map Piece.slice)).card := by
  rw [covered, h.slices_eq, NeuronRange.card_neuronsOf h.apart]
  rfl

theorem Holds.covered_eq_neurons_iff (h : Holds shape pieces assembly) :
    assembly.covered = assembly.trace.shape.neurons ↔
      ∀ neuron < shape.neurons, ∃ piece ∈ pieces, piece.slice.Contains neuron := by
  have hslices := h.isSliceOf_of_mem
  rw [h.slices_eq] at hslices
  rw [h.covered_eq, h.shape_eq, NeuronRange.card_neuronsOf_eq_iff hslices]
  simp only [List.mem_map, exists_exists_and_eq_and]

theorem trace_eq_of_finish_eq_ok {trace : Trace} (h : assembly.finish = .ok trace) :
    trace = assembly.trace := by
  unfold finish at h
  split at h
  · exact (Except.ok.inj h).symm
  · contradiction

theorem Holds.finish_eq_ok (h : Holds shape pieces assembly)
    (hcovers : ∀ neuron < shape.neurons, ∃ piece ∈ pieces, piece.slice.Contains neuron) :
    assembly.finish = .ok assembly.trace := by
  rw [finish, if_pos (h.covered_eq_neurons_iff.2 hcovers)]

theorem Holds.finish_eq_error (h : Holds shape pieces assembly)
    (hmissing : ¬∀ neuron < shape.neurons, ∃ piece ∈ pieces, piece.slice.Contains neuron) :
    assembly.finish = .error (.incompleteCoverage
      (NeuronRange.neuronsOf (pieces.map Piece.slice)).card shape.neurons) := by
  rw [finish, if_neg fun hcovered ↦ hmissing (h.covered_eq_neurons_iff.1 hcovered), h.covered_eq,
    h.shape_eq]

end

/-- What comes of any insertions into a new assembly.  It can be finished exactly when the slices of
the accepted pieces leave no neuron out, and then every element is that of the piece whose slice has
its neuron.  Otherwise the neurons that have their data are counted, each of them once. -/
theorem finish_insertAll {shape : Shape} {assembly : Assembly}
    (hnew : ofShape shape = .ok assembly) (offered : List Piece) :
    let accepted := (assembly.insertAll offered).1
    let result := (assembly.insertAll offered).2.finish
    ((∃ trace, result = .ok trace) ↔
        ∀ neuron < shape.neurons, ∃ piece ∈ accepted, piece.slice.Contains neuron) ∧
      (∀ trace, result = .ok trace → trace.shape = shape ∧
        ∀ step neuron dim, shape.HasPlace step neuron dim →
          ∀ piece ∈ accepted, piece.slice.Contains neuron →
            ∃ element, trace.get? step neuron dim = some element ∧
              piece.recording.get? step (neuron - piece.slice.start) dim = some element) ∧
      ((¬∀ neuron < shape.neurons, ∃ piece ∈ accepted, piece.slice.Contains neuron) →
        result = .error (.incompleteCoverage
          (NeuronRange.neuronsOf (accepted.map Piece.slice)).card shape.neurons)) := by
  have hholds := (holds_of_ofShape hnew).insertAll offered
  rw [List.nil_append] at hholds
  intro accepted result
  refine ⟨⟨?_, ?_⟩, ?_, hholds.finish_eq_error⟩
  · rintro ⟨trace, hfinished⟩
    by_contra hmissing
    have hrefused := hfinished.symm.trans (hholds.finish_eq_error hmissing)
    contradiction
  · intro hcovers
    exact ⟨_, hholds.finish_eq_ok hcovers⟩
  · intro trace hfinished
    rw [trace_eq_of_finish_eq_ok hfinished]
    refine ⟨hholds.shape_eq, ?_⟩
    intro step neuron dim hplace piece hpiece hneuron
    have hpart := hholds.get?_eq piece hpiece step neuron dim hneuron
    rw [← hholds.shape_eq] at hplace
    obtain ⟨element, helement⟩ := Trace.exists_get?_eq_some hplace
    exact ⟨element, helement, hpart.symm.trans helement⟩

/-- Two slices that come in the wrong order, and between them one that overlaps the first. -/
theorem finish_insertAll_out_of_order :
    ∃ assembly, ofShape ⟨1, 3, 1⟩ = .ok assembly ∧
      ∃ trace, (assembly.insertAll
          [⟨⟨1, 3⟩, ⟨⟨1, 2, 1⟩, #[⟨0x40000000⟩, ⟨0x40400000⟩], rfl⟩⟩,
            ⟨⟨0, 2⟩, ⟨⟨1, 2, 1⟩, #[⟨0x41000000⟩, ⟨0x41100000⟩], rfl⟩⟩,
            ⟨⟨0, 1⟩, ⟨⟨1, 1, 1⟩, #[⟨0x3f800000⟩], rfl⟩⟩]).2.finish = .ok trace ∧
        trace.get? 0 0 0 = some ⟨0x3f800000⟩ ∧ trace.get? 0 1 0 = some ⟨0x40000000⟩ ∧
        trace.get? 0 2 0 = some ⟨0x40400000⟩ := by
  let right : Piece := ⟨⟨1, 3⟩, ⟨⟨1, 2, 1⟩, #[⟨0x40000000⟩, ⟨0x40400000⟩], rfl⟩⟩
  let middle : Piece := ⟨⟨0, 2⟩, ⟨⟨1, 2, 1⟩, #[⟨0x41000000⟩, ⟨0x41100000⟩], rfl⟩⟩
  let left : Piece := ⟨⟨0, 1⟩, ⟨⟨1, 1, 1⟩, #[⟨0x3f800000⟩], rfl⟩⟩
  have hnew : ofShape ⟨1, 3, 1⟩ = .ok ⟨⟨⟨1, 3, 1⟩, #[.zero, .zero, .zero], rfl⟩, []⟩ := rfl
  obtain ⟨hiff, helements, -⟩ := finish_insertAll hnew [right, middle, left]
  have haccepted : (Assembly.insertAll ⟨⟨⟨1, 3, 1⟩, #[.zero, .zero, .zero], rfl⟩, []⟩
      [right, middle, left]).1 = [right, left] := by decide
  rw [haccepted] at hiff helements
  obtain ⟨trace, hfinished⟩ := hiff.2 (by decide)
  obtain ⟨-, hget⟩ := helements trace hfinished
  refine ⟨_, hnew, trace, hfinished, ?_, ?_, ?_⟩
  · obtain ⟨element, htrace, hpart⟩ := hget 0 0 0 ⟨by decide, by decide, by decide⟩ left
      (by decide) (by decide)
    exact htrace.trans (hpart.symm.trans (by decide))
  · obtain ⟨element, htrace, hpart⟩ := hget 0 1 0 ⟨by decide, by decide, by decide⟩ right
      (by decide) (by decide)
    exact htrace.trans (hpart.symm.trans (by decide))
  · obtain ⟨element, htrace, hpart⟩ := hget 0 2 0 ⟨by decide, by decide, by decide⟩ right
      (by decide) (by decide)
    exact htrace.trans (hpart.symm.trans (by decide))

/-- What an assembly of the given shape is like, whatever it has taken in. -/
structure Consistent (shape : Shape) (assembly : Assembly) : Prop where
  isSliceOf : ∀ slice ∈ assembly.slices, slice.IsSliceOf shape.neurons
  apart : assembly.slices.Pairwise NeuronRange.Apart
  nodup_starts : (assembly.slices.map NeuronRange.start).Nodup
  covered_eq : assembly.covered = (NeuronRange.neuronsOf assembly.slices).card
  covered_le : assembly.covered ≤ shape.neurons
  shape_eq : assembly.trace.shape = shape
  size_eq : assembly.trace.data.size = shape.count
  /-- A neuron without a slice has nothing but zeros. -/
  row?_eq : ∀ step < shape.steps, ∀ neuron < shape.neurons,
    (∀ slice ∈ assembly.slices, ¬slice.Contains neuron) →
      assembly.trace.row? step neuron = some (Array.replicate shape.dims .zero)

section

variable {shape : Shape} {pieces : List Piece} {assembly : Assembly} {count : Nat}

/-- The row of a neuron that no piece has is as it was in the beginning. -/
theorem Holds.row?_elsewhere (h : Holds shape pieces assembly) (hcount : shape.count? = some count)
    {step neuron : Nat} (hstep : step < shape.steps) (hneuron : neuron < shape.neurons)
    (hnone : ∀ slice ∈ assembly.slices, ¬slice.Contains neuron) :
    assembly.trace.row? step neuron = some (Array.replicate shape.dims .zero) := by
  have hpieces : ∀ piece ∈ pieces, ¬piece.slice.Contains neuron := by
    intro piece hpiece
    apply hnone
    rw [h.slices_eq]
    exact List.mem_map_of_mem hpiece
  rw [← h.shape_eq] at hcount hstep hneuron
  obtain ⟨row, hrow, hsize, hget⟩ := Trace.exists_row?_eq_some hcount hstep hneuron
  rw [h.shape_eq] at hstep hneuron hsize hget
  rw [hrow]
  apply congrArg some
  apply Array.ext (hsize.trans Array.size_replicate.symm)
  intro dim hdim _
  have hdims : dim < shape.dims := hsize ▸ hdim
  have helement : row[dim]? = some .zero :=
    (hget dim hdims).trans (h.get?_elsewhere step neuron dim hpieces ⟨hstep, hneuron, hdims⟩)
  rw [Array.getElem_replicate]
  exact (Array.getElem?_eq_some_iff.1 helement).2

theorem Holds.consistent (h : Holds shape pieces assembly) (hcount : shape.count? = some count) :
    Consistent shape assembly where
  isSliceOf := h.isSliceOf_of_mem
  apart := h.slices_eq ▸ h.apart
  nodup_starts := NeuronRange.nodup_starts h.isSliceOf_of_mem (h.slices_eq ▸ h.apart)
  covered_eq := h.slices_eq ▸ h.covered_eq
  covered_le := by
    rw [h.covered_eq, ← h.slices_eq]
    exact NeuronRange.card_neuronsOf_le h.isSliceOf_of_mem
  shape_eq := h.shape_eq
  size_eq := by rw [assembly.trace.size_data, h.shape_eq]
  row?_eq := fun _ hstep _ hneuron hnone ↦ h.row?_elsewhere hcount hstep hneuron hnone

end

/-- Any insertions into a new assembly, accepted and refused ones, leave a consistent one.  Its
slices are those of the accepted pieces, in the order in which they came. -/
theorem consistent_insertAll {shape : Shape} {assembly : Assembly}
    (hnew : ofShape shape = .ok assembly) (offered : List Piece) :
    let accepted := (assembly.insertAll offered).1
    let left := (assembly.insertAll offered).2
    left.slices = accepted.map Piece.slice ∧ Consistent shape left := by
  intro accepted left
  have hholds : Holds shape accepted left := (holds_of_ofShape hnew).insertAll offered
  obtain ⟨trace, hzeros, -⟩ := ofShape_eq_ok_iff.1 hnew
  exact ⟨hholds.slices_eq, hholds.consistent (Trace.zeros_eq_ok_some hzeros).2.1⟩

/-- A slice that begins within an earlier one is refused, and the neuron that is left between the
others has its zeros. -/
theorem consistent_insertAll_between_slices :
    ∃ assembly, ofShape ⟨2, 4, 1⟩ = .ok assembly ∧
      let left := (assembly.insertAll
        [⟨⟨2, 4⟩, ⟨⟨2, 2, 1⟩, #[⟨1⟩, ⟨2⟩, ⟨3⟩, ⟨4⟩], rfl⟩⟩,
          ⟨⟨3, 4⟩, ⟨⟨2, 1, 1⟩, #[⟨5⟩, ⟨6⟩], rfl⟩⟩,
          ⟨⟨0, 1⟩, ⟨⟨2, 1, 1⟩, #[⟨7⟩, ⟨8⟩], rfl⟩⟩]).2
      left.slices = [⟨2, 4⟩, ⟨0, 1⟩] ∧ left.covered ≤ 4 ∧
        left.trace.row? 1 1 = some #[.zero] := by
  have hnew : ofShape ⟨2, 4, 1⟩ = .ok ⟨⟨⟨2, 4, 1⟩, Array.replicate 8 .zero, rfl⟩, []⟩ := rfl
  refine ⟨_, hnew, ?_⟩
  intro left
  obtain ⟨hslices, hconsistent⟩ := consistent_insertAll hnew
    [⟨⟨2, 4⟩, ⟨⟨2, 2, 1⟩, #[⟨1⟩, ⟨2⟩, ⟨3⟩, ⟨4⟩], rfl⟩⟩,
      ⟨⟨3, 4⟩, ⟨⟨2, 1, 1⟩, #[⟨5⟩, ⟨6⟩], rfl⟩⟩,
      ⟨⟨0, 1⟩, ⟨⟨2, 1, 1⟩, #[⟨7⟩, ⟨8⟩], rfl⟩⟩]
  have hleft : left.slices = [⟨2, 4⟩, ⟨0, 1⟩] := hslices.trans (by decide)
  refine ⟨hleft, hconsistent.covered_le, hconsistent.row?_eq 1 (by decide) 1 (by decide) ?_⟩
  change ∀ slice ∈ left.slices, ¬slice.Contains 1
  rw [hleft]
  decide

end Assembly

end EnsembleRecording
