import EnsembleRecording.Proofs.Assembly.Copy
import EnsembleRecording.Proofs.Assembly.Coverage

/-!
# Outcomes of an Insertion

What comes of an insertion in every state that an assembly can get into.  The first of the checks
that fails tells why a piece is refused, among the slices that it overlaps the earliest is named,
and the assembly stays as it is.  A piece that passes them all can be copied row by row, and no
other rows change.
-/

namespace EnsembleRecording

namespace Trace

variable {trace part : Trace} {slice : NeuronRange} {count step neuron : Nat}

theorem row?_overlay_of_contains (hcount : trace.shape.count? = some count)
    (hstop : slice.stop ≤ trace.shape.neurons)
    (hpart : part.shape = ⟨trace.shape.steps, slice.size, trace.shape.dims⟩)
    (hstep : step < trace.shape.steps) (hneuron : slice.Contains neuron) :
    (trace.overlay part slice.start).row? step neuron =
      part.row? step (neuron - slice.start) := by
  have hcountOverlay : (trace.overlay part slice.start).shape.count? = some count := hcount
  have hwithin : neuron < trace.shape.neurons := Nat.lt_of_lt_of_le hneuron.2 hstop
  have hstepPart : step < part.shape.steps := by rwa [hpart]
  have hneuronPart : neuron - slice.start < part.shape.neurons := by
    rw [hpart]
    exact hneuron.sub_lt_size
  have hdims : trace.shape.dims = part.shape.dims := by rw [hpart]
  exact row?_eq_of_get?_eq hcountOverlay (count?_of_part hcount hstop hpart) hdims hstep hwithin
    hstepPart hneuronPart fun dim _ ↦ get?_overlay_of_contains hpart hstop hneuron step dim

theorem row?_overlay_of_not_contains (hcount : trace.shape.count? = some count)
    (hpart : part.shape = ⟨trace.shape.steps, slice.size, trace.shape.dims⟩)
    (hstep : step < trace.shape.steps) (hneuron : neuron < trace.shape.neurons)
    (hbeside : ¬slice.Contains neuron) :
    (trace.overlay part slice.start).row? step neuron = trace.row? step neuron := by
  have hcountOverlay : (trace.overlay part slice.start).shape.count? = some count := hcount
  exact row?_eq_of_get?_eq hcountOverlay hcount rfl hstep hneuron hstep hneuron
    fun dim _ ↦ get?_overlay_of_not_contains hpart hbeside step dim

/-- Every row of an overlaid trace is one of the part or of the trace. -/
theorem exists_row?_overlay_eq_some (hcount : trace.shape.count? = some count)
    (hstop : slice.stop ≤ trace.shape.neurons)
    (hpart : part.shape = ⟨trace.shape.steps, slice.size, trace.shape.dims⟩)
    (hstep : step < trace.shape.steps) (hneuron : neuron < trace.shape.neurons) :
    ∃ row, (trace.overlay part slice.start).row? step neuron = some row ∧
      if slice.Contains neuron then part.row? step (neuron - slice.start) = some row
      else trace.row? step neuron = some row := by
  have hcountOverlay : (trace.overlay part slice.start).shape.count? = some count := hcount
  obtain ⟨row, hrow, -⟩ := exists_row?_eq_some hcountOverlay hstep hneuron
  refine ⟨row, hrow, ?_⟩
  split
  · next hcontains =>
    rw [← row?_overlay_of_contains hcount hstop hpart hstep hcontains, hrow]
  · next hbeside =>
    rw [← row?_overlay_of_not_contains hcount hpart hstep hneuron hbeside, hrow]

end Trace

namespace Assembly

/-- Where the elements of the recording can be counted, a machine can do every insertion. -/
theorem insert?_eq_some_insert {assembly : Assembly} {count : Nat}
    (hcount : assembly.trace.shape.count? = some count) (slice : NeuronRange) (part : Trace) :
    assembly.insert? slice part = some (assembly.insert slice part) := by
  rw [insert?, insert]
  split
  · rfl
  · next hvalid =>
    have hslice := NeuronRange.isSliceOf_iff.2 hvalid
    cases assembly.slices.find? slice.overlaps with
    | some earlier => rfl
    | none =>
      by_cases hshape : part.shape = assembly.partShape slice
      · simp only [if_pos hshape, Trace.copyRows?_eq_some_overlay hcount hslice.2 hshape,
          Option.map_some]
      · simp only [if_neg hshape]

theorem count?_of_ofShape {shape : Shape} {assembly : Assembly}
    (h : ofShape shape = .ok assembly) : shape.count? = some shape.count := by
  obtain ⟨trace, hzeros, -⟩ := ofShape_eq_ok_iff.1 h
  obtain ⟨hshape, hcount, -, -⟩ := Trace.zeros_eq_ok_some hzeros
  rwa [trace.size_data, hshape] at hcount

section

variable {shape : Shape} {pieces : List Piece} {assembly : Assembly} {slice : NeuronRange}

theorem Holds.insert_eq_invalidSlice (h : Holds shape pieces assembly)
    (hinvalid : slice.stop ≤ slice.start ∨ shape.neurons < slice.stop) (part : Trace) :
    assembly.insert slice part = (.error (.invalidSlice slice shape.neurons), assembly) := by
  rw [← h.shape_eq] at hinvalid ⊢
  exact if_pos hinvalid

/-- Past the first check, the slices held are looked through from the earliest on. -/
theorem Holds.insert_of_isSliceOf (h : Holds shape pieces assembly)
    (hslice : slice.IsSliceOf shape.neurons) (part : Trace) :
    assembly.insert slice part =
      match pieces.find? (slice.overlaps ∘ Piece.slice) with
      | some earlier => (.error (.overlappingSlice slice earlier.slice), assembly)
      | none =>
        if part.shape = ⟨shape.steps, slice.size, shape.dims⟩ then
          (.ok (), ⟨assembly.trace.overlay part slice.start, enter slice assembly.slices⟩)
        else
          (.error (.shapeMismatch ⟨shape.steps, slice.size, shape.dims⟩ part.shape), assembly) := by
  have hvalid := NeuronRange.isSliceOf_iff.1 (h.shape_eq ▸ hslice)
  have hfind : assembly.slices.find? slice.overlaps =
      (pieces.find? (slice.overlaps ∘ Piece.slice)).map Piece.slice := by
    rw [h.slices_eq, List.find?_map]
  rw [Assembly.insert, if_neg hvalid, hfind, partShape, h.shape_eq]
  cases pieces.find? (slice.overlaps ∘ Piece.slice) with
  | some earlier => rfl
  | none => rfl

/-- Slices that an ensemble may have overlap those held exactly if they share a neuron with them. -/
theorem Holds.overlaps_iff (h : Holds shape pieces assembly)
    (hslice : slice.IsSliceOf shape.neurons) {piece : Piece} (hpiece : piece ∈ pieces) :
    (slice.overlaps ∘ Piece.slice) piece = true ↔ ¬slice.Apart piece.slice := by
  rw [← NeuronRange.overlaps_eq_false_iff_apart hslice.1 (h.isSliceOf piece hpiece).1,
    Bool.not_eq_false, Function.comp_apply]

theorem Holds.insert_eq_overlappingSlice (h : Holds shape pieces assembly)
    (hslice : slice.IsSliceOf shape.neurons)
    (hshared : ∃ earlier ∈ pieces, ¬slice.Apart earlier.slice) (part : Trace) :
    ∃ before earlier after, pieces = before ++ earlier :: after ∧
      (∀ other ∈ before, slice.Apart other.slice) ∧ ¬slice.Apart earlier.slice ∧
      assembly.insert slice part =
        (.error (.overlappingSlice slice earlier.slice), assembly) := by
  rw [h.insert_of_isSliceOf hslice part]
  cases hfind : pieces.find? (slice.overlaps ∘ Piece.slice) with
  | none =>
    obtain ⟨earlier, hearlier, hshares⟩ := hshared
    exact absurd ((h.overlaps_iff hslice hearlier).2 hshares)
      (List.find?_eq_none.1 hfind earlier hearlier)
  | some earlier =>
    obtain ⟨hoverlaps, before, after, hpieces, hbefore⟩ := List.find?_eq_some_iff_append.1 hfind
    have hearlier : earlier ∈ pieces := List.mem_of_find?_eq_some hfind
    refine ⟨before, earlier, after, hpieces, ?_, (h.overlaps_iff hslice hearlier).1 hoverlaps, rfl⟩
    intro other hother
    have hmem : other ∈ pieces := hpieces ▸ List.mem_append_left _ hother
    by_contra hshares
    have hrefuted := hbefore other hother
    rw [(h.overlaps_iff hslice hmem).2 hshares] at hrefuted
    contradiction

theorem Holds.insert_eq_shapeMismatch (h : Holds shape pieces assembly)
    (hslice : slice.IsSliceOf shape.neurons)
    (hapart : ∀ earlier ∈ pieces, slice.Apart earlier.slice) {part : Trace}
    (hpart : part.shape ≠ ⟨shape.steps, slice.size, shape.dims⟩) :
    assembly.insert slice part =
      (.error (.shapeMismatch ⟨shape.steps, slice.size, shape.dims⟩ part.shape), assembly) := by
  have hnone : pieces.find? (slice.overlaps ∘ Piece.slice) = none := by
    rw [List.find?_eq_none]
    intro earlier hearlier hoverlaps
    exact (h.overlaps_iff hslice hearlier).1 hoverlaps (hapart earlier hearlier)
  rw [h.insert_of_isSliceOf hslice part, hnone]
  exact if_neg hpart

theorem Holds.exists_insert_eq_ok (h : Holds shape pieces assembly) {count : Nat}
    (hcount : shape.count? = some count) (hslice : slice.IsSliceOf shape.neurons)
    (hapart : ∀ earlier ∈ pieces, slice.Apart earlier.slice) {part : Trace}
    (hpart : part.shape = ⟨shape.steps, slice.size, shape.dims⟩) :
    ∃ left, assembly.insert slice part = (.ok (), left) ∧
      left.slices = assembly.slices ++ [slice] ∧ left.trace.shape = shape ∧
      ∀ step < shape.steps, ∀ neuron < shape.neurons,
        ∃ row, left.trace.row? step neuron = some row ∧
          if slice.Contains neuron then part.row? step (neuron - slice.start) = some row
          else assembly.trace.row? step neuron = some row := by
  have hadmits : assembly.Admits ⟨slice, part⟩ := h.admits hslice hapart hpart
  have hleft := h.insert hadmits
  rw [insert_eq_ok hadmits] at hleft
  refine ⟨_, insert_eq_ok hadmits, ?_, hleft.shape_eq, ?_⟩
  · rw [hleft.slices_eq, List.map_append, List.map_singleton, ← h.slices_eq]
  · obtain rfl := h.shape_eq
    intro step hstep neuron hneuron
    exact Trace.exists_row?_overlay_eq_some hcount hslice.2 hpart hstep hneuron

end

/-- What comes of an insertion after any others, accepted and refused ones.  A machine can always do
it.  A slice that holds no neurons, or others than the ensemble has, is refused.  One that shares
neurons with accepted slices is refused for the earliest of these, and one that shares none is
refused if its recording has another shape than it has to have.  All this leaves the assembly as it
is.  Any other slice is taken in behind the earlier ones; at every step its neurons have the rows of
the recording, and all other neurons keep theirs. -/
theorem insert_in_every_state {shape : Shape} {new : Assembly} (hnew : ofShape shape = .ok new)
    (offered : List Piece) (slice : NeuronRange) (part : Trace) :
    let accepted := (new.insertAll offered).1
    let assembly := (new.insertAll offered).2
    let outcome := assembly.insert slice part
    let expected : Shape := ⟨shape.steps, slice.size, shape.dims⟩
    assembly.insert? slice part = some outcome ∧
    (slice.stop ≤ slice.start ∨ shape.neurons < slice.stop →
      outcome = (.error (.invalidSlice slice shape.neurons), assembly)) ∧
    (slice.start < slice.stop ∧ slice.stop ≤ shape.neurons →
      ((∃ earlier ∈ accepted, ¬slice.Apart earlier.slice) →
        ∃ before earlier after, accepted = before ++ earlier :: after ∧
          (∀ other ∈ before, slice.Apart other.slice) ∧ ¬slice.Apart earlier.slice ∧
          outcome = (.error (.overlappingSlice slice earlier.slice), assembly)) ∧
      ((∀ earlier ∈ accepted, slice.Apart earlier.slice) →
        (part.shape ≠ expected →
          outcome = (.error (.shapeMismatch expected part.shape), assembly)) ∧
        (part.shape = expected → ∃ left, outcome = (.ok (), left) ∧
          left.slices = assembly.slices ++ [slice] ∧ left.trace.shape = shape ∧
          ∀ step < shape.steps, ∀ neuron < shape.neurons,
            ∃ row, left.trace.row? step neuron = some row ∧
              if slice.Contains neuron then part.row? step (neuron - slice.start) = some row
              else assembly.trace.row? step neuron = some row))) := by
  intro accepted assembly outcome expected
  have hholds : Holds shape accepted assembly := (holds_of_ofShape hnew).insertAll offered
  have hcount := count?_of_ofShape hnew
  refine ⟨insert?_eq_some_insert (hholds.shape_eq ▸ hcount) slice part, ?_, ?_⟩
  · intro hinvalid
    exact hholds.insert_eq_invalidSlice hinvalid part
  · intro hslice
    refine ⟨?_, ?_⟩
    · intro hshared
      exact hholds.insert_eq_overlappingSlice hslice hshared part
    · intro hapart
      refine ⟨?_, ?_⟩
      · intro hpart
        exact hholds.insert_eq_shapeMismatch hslice hapart hpart
      · intro hpart
        exact hholds.exists_insert_eq_ok hcount hslice hapart hpart

/-- A slice that shares neurons with both slices taken in is refused for the one that came first,
and one that lies between them is taken in, if its recording has the right shape. -/
theorem insert_in_every_state_of_three_cores :
    ∃ new, ofShape ⟨2, 5, 1⟩ = .ok new ∧
      let assembly := (new.insertAll
        [⟨⟨3, 5⟩, ⟨⟨2, 2, 1⟩, #[⟨1⟩, ⟨2⟩, ⟨3⟩, ⟨4⟩], rfl⟩⟩,
          ⟨⟨0, 1⟩, ⟨⟨2, 1, 1⟩, #[⟨5⟩, ⟨6⟩], rfl⟩⟩]).2
      let part : Trace := ⟨⟨2, 2, 1⟩, #[⟨7⟩, ⟨8⟩, ⟨9⟩, ⟨10⟩], rfl⟩
      let short : Trace := ⟨⟨1, 2, 1⟩, #[⟨7⟩, ⟨8⟩], rfl⟩
      assembly.insert ⟨3, 1⟩ part = (.error (.invalidSlice ⟨3, 1⟩ 5), assembly) ∧
        assembly.insert ⟨0, 4⟩ part = (.error (.overlappingSlice ⟨0, 4⟩ ⟨3, 5⟩), assembly) ∧
        assembly.insert ⟨1, 3⟩ short =
          (.error (.shapeMismatch ⟨2, 2, 1⟩ ⟨1, 2, 1⟩), assembly) ∧
        ∃ left, assembly.insert ⟨1, 3⟩ part = (.ok (), left) ∧
          left.slices = [⟨3, 5⟩, ⟨0, 1⟩, ⟨1, 3⟩] ∧ left.trace.row? 1 2 = some #[⟨10⟩] ∧
          left.trace.row? 1 3 = some #[⟨3⟩] := by
  let right : Piece := ⟨⟨3, 5⟩, ⟨⟨2, 2, 1⟩, #[⟨1⟩, ⟨2⟩, ⟨3⟩, ⟨4⟩], rfl⟩⟩
  let first : Piece := ⟨⟨0, 1⟩, ⟨⟨2, 1, 1⟩, #[⟨5⟩, ⟨6⟩], rfl⟩⟩
  let new : Assembly := ⟨⟨⟨2, 5, 1⟩, Array.replicate 10 .zero, rfl⟩, []⟩
  have hnew : ofShape ⟨2, 5, 1⟩ = .ok new := rfl
  have haccepted : (new.insertAll [right, first]).1 = [right, first] := by decide
  have hapart : ∀ earlier ∈ [right, first], NeuronRange.Apart ⟨1, 3⟩ earlier.slice := by
    intro earlier hearlier
    have hdivided : ∀ piece ∈ [right, first], piece.slice.start < piece.slice.stop ∧
        NeuronRange.overlaps ⟨1, 3⟩ piece.slice = false := by decide
    obtain ⟨hholds, hoverlaps⟩ := hdivided earlier hearlier
    exact (NeuronRange.overlaps_eq_false_iff_apart (by decide) hholds).1 hoverlaps
  have hshared : ¬NeuronRange.Apart ⟨0, 4⟩ right.slice := fun hnone ↦
    hnone 3 (by decide) (by decide)
  refine ⟨new, hnew, ?_⟩
  intro assembly part short
  obtain ⟨-, hinvalid, -⟩ := insert_in_every_state hnew [right, first] ⟨3, 1⟩ part
  obtain ⟨-, -, hacross⟩ := insert_in_every_state hnew [right, first] ⟨0, 4⟩ part
  obtain ⟨-, -, hshort⟩ := insert_in_every_state hnew [right, first] ⟨1, 3⟩ short
  obtain ⟨-, -, hbetween⟩ := insert_in_every_state hnew [right, first] ⟨1, 3⟩ part
  rw [haccepted] at hacross hshort hbetween
  refine ⟨hinvalid (by decide), ?_, ((hshort (by decide)).2 hapart).1 (by decide), ?_⟩
  · obtain ⟨before, earlier, after, hslices, hbefore, -, hrefused⟩ :=
      (hacross (by decide)).1 ⟨right, List.mem_cons_self, hshared⟩
    cases before with
    | nil =>
      obtain ⟨rfl, -⟩ := List.cons.inj hslices
      exact hrefused
    | cons other rest =>
      obtain ⟨rfl, -⟩ := List.cons.inj hslices
      exact absurd (hbefore right List.mem_cons_self) hshared
  · obtain ⟨left, hinserted, hslices, -, hrows⟩ := ((hbetween (by decide)).2 hapart).2 (by decide)
    obtain ⟨row, hrow, hpart⟩ := hrows 1 (by decide) 2 (by decide)
    obtain ⟨other, hother, hkept⟩ := hrows 1 (by decide) 3 (by decide)
    refine ⟨left, hinserted, hslices.trans (by decide), ?_, ?_⟩
    · exact hrow.trans (hpart.symm.trans (by decide))
    · exact hother.trans (hkept.symm.trans (by decide))

end Assembly

end EnsembleRecording
