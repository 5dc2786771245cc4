import EnsembleRecording.Assembly
import EnsembleRecording.Proofs.Trace.Elements
import Mathlib

/-!
# Slices of an Ensemble

The neurons that lie in some slice of a list.  Where no two slices share a neuron the sizes of the
slices add up to the number of these neurons, so that a sum of sizes alone tells whether slices
within an ensemble leave a neuron out.

A piece is taken in or refused, and a refused one leaves the assembly as it is.  Where a part is
laid over a trace, the neurons of its slice have the elements of the part at every step, and all
others keep theirs.
-/

namespace EnsembleRecording

namespace NeuronRange

/-- The range holds neurons, and only such as an ensemble of the given size has. -/
def IsSliceOf (range : NeuronRange) (neurons : Nat) : Prop :=
  range.start < range.stop ∧ range.stop ≤ neurons

instance (range : NeuronRange) (neurons : Nat) : Decidable (range.IsSliceOf neurons) :=
  inferInstanceAs (Decidable (_ ∧ _))

theorem isSliceOf_iff {range : NeuronRange} {neurons : Nat} :
    range.IsSliceOf neurons ↔ ¬(range.stop ≤ range.start ∨ neurons < range.stop) := by
  unfold IsSliceOf
  omega

/-- A neuron counted from the start of its range is less than the size of the range. -/
theorem Contains.sub_lt_size {range : NeuronRange} {neuron : Nat} (h : range.Contains neuron) :
    neuron - range.start < range.size := by
  unfold Contains at h
  unfold size
  omega

/-- No neuron lies in both ranges. -/
def Apart (range other : NeuronRange) : Prop :=
  ∀ neuron, range.Contains neuron → ¬other.Contains neuron

theorem Apart.symm {range other : NeuronRange} (h : range.Apart other) : other.Apart range := by
  intro neuron hother hrange
  exact h neuron hrange hother

/-- Ranges that hold neurons and share none do not begin with the same one. -/
theorem Apart.start_ne {range other : NeuronRange} (h : range.Apart other)
    (hrange : range.start < range.stop) (hother : other.start < other.stop) :
    range.start ≠ other.start := by
  intro hstart
  have hfirst : range.Contains range.start := ⟨Nat.le_refl _, hrange⟩
  have hshared : other.Contains range.start := by
    rw [hstart]
    exact ⟨Nat.le_refl _, hother⟩
  exact h range.start hfirst hshared

/-- Between ranges that hold neurons, to overlap is to share one. -/
theorem overlaps_eq_false_iff_apart {range other : NeuronRange} (hrange : range.start < range.stop)
    (hother : other.start < other.stop) : range.overlaps other = false ↔ range.Apart other := by
  unfold overlaps Apart Contains
  rw [Bool.and_eq_false_iff, decide_eq_false_iff_not, decide_eq_false_iff_not]
  constructor
  · intro hdivided neuron hin hout
    omega
  · intro hnone
    have hlater := hnone (max range.start other.start)
    omega

/-- A list of slices divides the ensemble: every neuron of it lies in exactly one of them. -/
structure Partition (slices : List NeuronRange) (neurons : Nat) : Prop where
  isSliceOf : ∀ slice ∈ slices, slice.IsSliceOf neurons
  apart : slices.Pairwise Apart
  covers : ∀ neuron < neurons, ∃ slice ∈ slices, slice.Contains neuron

/-- Slices that lie apart are told apart by their first neurons. -/
theorem nodup_starts {slices : List NeuronRange} {neurons : Nat}
    (hslices : ∀ slice ∈ slices, slice.IsSliceOf neurons) (hapart : slices.Pairwise Apart) :
    (slices.map start).Nodup := by
  apply List.pairwise_map.2
  apply hapart.imp_of_mem
  intro slice other hslice hother h
  exact h.start_ne (hslices slice hslice).1 (hslices other hother).1

/-- The neurons that lie in one of the ranges. -/
def neuronsOf (slices : List NeuronRange) : Finset Nat :=
  slices.toFinset.biUnion fun slice ↦ Finset.Ico slice.start slice.stop

theorem mem_neuronsOf {slices : List NeuronRange} {neuron : Nat} :
    neuron ∈ neuronsOf slices ↔ ∃ slice ∈ slices, slice.Contains neuron := by
  simp only [neuronsOf, Finset.mem_biUnion, List.mem_toFinset, Finset.mem_Ico, Contains]

theorem neuronsOf_cons (slice : NeuronRange) (rest : List NeuronRange) :
    neuronsOf (slice :: rest) = Finset.Ico slice.start slice.stop ∪ neuronsOf rest := by
  rw [neuronsOf, List.toFinset_cons, Finset.biUnion_insert, neuronsOf]

theorem card_neuronsOf {slices : List NeuronRange} (hapart : slices.Pairwise Apart) :
    (neuronsOf slices).card = (slices.map size).sum := by
  induction slices with
  | nil => rfl
  | cons slice rest ih =>
    obtain ⟨hfirst, hrest⟩ := List.pairwise_cons.1 hapart
    have hdisjoint : Disjoint (Finset.Ico slice.start slice.stop) (neuronsOf rest) := by
      rw [Finset.disjoint_left]
      intro neuron hneuron hlater
      obtain ⟨other, hother, hcontains⟩ := mem_neuronsOf.1 hlater
      exact hfirst other hother neuron (Finset.mem_Ico.1 hneuron) hcontains
    rw [neuronsOf_cons, Finset.card_union_of_disjoint hdisjoint, ih hrest, Nat.card_Ico,
      List.map_cons, List.sum_cons, size]

theorem neuronsOf_subset_range {slices : List NeuronRange} {neurons : Nat}
    (hslices : ∀ slice ∈ slices, slice.IsSliceOf neurons) :
    neuronsOf slices ⊆ Finset.range neurons := by
  intro neuron hneuron
  obtain ⟨slice, hslice, hcontains⟩ := mem_neuronsOf.1 hneuron
  exact Finset.mem_range.2 (Nat.lt_of_lt_of_le hcontains.2 (hslices slice hslice).2)

theorem card_neuronsOf_le {slices : List NeuronRange} {neurons : Nat}
    (hslices : ∀ slice ∈ slices, slice.IsSliceOf neurons) :
    (neuronsOf slices).card ≤ neurons := by
  calc (neuronsOf slices).card
      ≤ (Finset.range neurons).card := Finset.card_le_card (neuronsOf_subset_range hslices)
    _ = neurons := Finset.card_range neurons

/-- Slices within an ensemble are as many neurons as it has only if they leave none out. -/
theorem card_neuronsOf_eq_iff {slices : List NeuronRange} {neurons : Nat}
    (hslices : ∀ slice ∈ slices, slice.IsSliceOf neurons) :
    (neuronsOf slices).card = neurons ↔
      ∀ neuron < neurons, ∃ slice ∈ slices, slice.Contains neuron := by
  have hsubset := neuronsOf_subset_range hslices
  constructor
  · intro hcard neuron hneuron
    have hall : neuronsOf slices = Finset.range neurons := by
      apply Finset.eq_of_subset_of_card_le hsubset
      rw [Finset.card_range, hcard]
    apply mem_neuronsOf.1
    rw [hall]
    exact Finset.mem_range.2 hneuron
  · intro hcovers
    have hall : neuronsOf slices = Finset.range neurons := by
      apply Finset.Subset.antisymm hsubset
      intro neuron hneuron
      exact mem_neuronsOf.2 (hcovers neuron (Finset.mem_range.1 hneuron))
    rw [hall, Finset.card_range]

end NeuronRange

namespace Trace

variable {trace part : Trace} {slice : NeuronRange} {neuron : Nat}

theorem get?_overlay_of_contains
    (hshape : part.shape = ⟨trace.shape.steps, slice.size, trace.shape.dims⟩)
    (hstop : slice.stop ≤ trace.shape.neurons) (hneuron : slice.Contains neuron)
    (step dim : Nat) :
    (trace.overlay part slice.start).get? step neuron dim =
      part.get? step (neuron - slice.start) dim := by
  by_cases hplace : trace.shape.HasPlace step neuron dim
  · have hpart : part.shape.HasPlace step (neuron - slice.start) dim := by
      rw [hshape]
      exact ⟨hplace.step_lt, hneuron.sub_lt_size, hplace.dim_lt⟩
    obtain ⟨element, helement⟩ := exists_get?_eq_some hpart
    rw [overlay, get?_ofFn hplace, if_pos hneuron.1, helement, Option.getD_some]
  · have hpart : ¬part.shape.HasPlace step (neuron - slice.start) dim := by
      rw [hshape]
      intro hin
      exact hplace ⟨hin.step_lt, Nat.lt_of_lt_of_le hneuron.2 hstop, hin.dim_lt⟩
    have hoverlay : ¬(trace.overlay part slice.start).shape.HasPlace step neuron dim := hplace
    rw [get?_eq_none hoverlay, get?_eq_none hpart]

theorem get?_overlay_of_not_contains
    (hshape : part.shape = ⟨trace.shape.steps, slice.size, trace.shape.dims⟩)
    (hneuron : ¬slice.Contains neuron) (step dim : Nat) :
    (trace.overlay part slice.start).get? step neuron dim = trace.get? step neuron dim := by
  by_cases hplace : trace.shape.HasPlace step neuron dim
  · rw [overlay, get?_ofFn hplace, get?_eq_some_get hplace]
    split
    · next hstart =>
      have hpart : ¬part.shape.HasPlace step (neuron - slice.start) dim := by
        rw [hshape]
        intro hin
        have hbehind : slice.start ≤ neuron := hstart
        have hlocal : neuron - slice.start < slice.size := hin.neuron_lt
        unfold NeuronRange.size at hlocal
        unfold NeuronRange.Contains at hneuron
        omega
      rw [get?_eq_none hpart, Option.getD_none]
    · rfl
  · have hoverlay : ¬(trace.overlay part slice.start).shape.HasPlace step neuron dim := hplace
    rw [get?_eq_none hoverlay, get?_eq_none hplace]

end Trace

namespace Assembly

/-- A recording and the slice of which it is one. -/
structure Piece where
  slice : NeuronRange
  recording : Trace
deriving DecidableEq

/-- The assembly may take in a piece. -/
structure Admits (assembly : Assembly) (piece : Piece) : Prop where
  isSliceOf : piece.slice.IsSliceOf assembly.trace.shape.neurons
  overlaps_eq : ∀ earlier ∈ assembly.slices, piece.slice.overlaps earlier = false
  shape_eq : piece.recording.shape = assembly.partShape piece.slice

theorem insert_eq_ok {assembly : Assembly} {piece : Piece} (h : assembly.Admits piece) :
    assembly.insert piece.slice piece.recording =
      (.ok (), ⟨assembly.trace.overlay piece.recording piece.slice.start,
        enter piece.slice assembly.slices⟩) := by
  have hnone : assembly.slices.find? piece.slice.overlaps = none := by
    rw [List.find?_eq_none]
    intro earlier hearlier hoverlaps
    rw [h.overlaps_eq earlier hearlier] at hoverlaps
    contradiction
  rw [insert, if_neg (NeuronRange.isSliceOf_iff.1 h.isSliceOf), hnone]
  exact if_pos h.shape_eq

/-- An assembly takes in the pieces that it admits, and is left as it is by the others. -/
theorem insert_cases (assembly : Assembly) (piece : Piece) :
    assembly.Admits piece ∨
      ∃ fault, assembly.insert piece.slice piece.recording = (.error fault, assembly) := by
  rw [insert]
  split
  · exact .inr ⟨_, rfl⟩
  · next hvalid =>
    cases hfind : assembly.slices.find? piece.slice.overlaps with
    | some earlier => exact .inr ⟨_, rfl⟩
    | none =>
      by_cases hshape : piece.recording.shape = assembly.partShape piece.slice
      · left
        refine ⟨NeuronRange.isSliceOf_iff.2 hvalid, ?_, hshape⟩
        intro earlier hearlier
        exact Bool.eq_false_iff.2 (List.find?_eq_none.1 hfind earlier hearlier)
      · exact .inr ⟨_, if_neg hshape⟩

end Assembly

end EnsembleRecording
