import EnsembleRecording.Proofs.Assembly.Slices

/-!
# Copying a Part

A machine lays a part over a trace by copying it row by row, each over the stored row of its neuron
at the same step.  A row is copied only if its place can be computed and lies in the trace, and if
it is as long as the place.  For a part that has the shape of its slice every row can be copied, and
when all are, the trace is the one overlaid with the part.
-/

namespace EnsembleRecording

namespace Shape

/-- Different rows have different numbers. -/
theorem row_inj {neurons step neuron step' neuron' : Nat} (h : neuron < neurons)
    (h' : neuron' < neurons) (heq : step * neurons + neuron = step' * neurons + neuron') :
    step = step' ∧ neuron = neuron' := by
  have hneuron : neuron = neuron' := by
    have hmod := congrArg (· % neurons) heq
    simpa only [Nat.mul_add_mod', Nat.mod_eq_of_lt h, Nat.mod_eq_of_lt h'] using hmod
  refine ⟨?_, hneuron⟩
  rw [hneuron] at heq
  exact Nat.eq_of_mul_eq_mul_right (Nat.lt_of_le_of_lt (Nat.zero_le _) h)
    (Nat.add_right_cancel heq)

/-- Different places have different positions. -/
theorem index_inj {shape : Shape} {step neuron dim step' neuron' dim' : Nat}
    (h : shape.HasPlace step neuron dim) (h' : shape.HasPlace step' neuron' dim')
    (heq : shape.index step neuron dim = shape.index step' neuron' dim') :
    step = step' ∧ neuron = neuron' ∧ dim = dim' := by
  obtain ⟨hrow, hdim⟩ := row_inj h.dim_lt h'.dim_lt heq
  obtain ⟨hstep, hneuron⟩ := row_inj h.neuron_lt h'.neuron_lt hrow
  exact ⟨hstep, hneuron, hdim⟩

end Shape

namespace Trace

section

variable {trace : Trace} {step neuron : Nat} {row : Array Binary32}

theorem putRow?_eq_some {count : Nat} (hcount : trace.shape.count? = some count)
    (hstep : step < trace.shape.steps) (hneuron : neuron < trace.shape.neurons)
    (hrow : row.size = trace.shape.dims) :
    trace.putRow? step neuron row =
      some (trace.writeAt (trace.shape.index step neuron 0) row) := by
  have hend : trace.shape.index step neuron 0 + trace.shape.dims ≤ trace.data.size := by
    rw [trace.size_data]
    exact Shape.index_zero_add_dims_le hstep hneuron
  have hstop : Size.add? (trace.shape.index step neuron 0) trace.shape.dims =
      some (trace.shape.index step neuron 0 + trace.shape.dims) := by
    have hlimit := (Shape.count?_eq_some_iff.1 hcount).2.1
    rw [← trace.size_data] at hlimit
    exact Size.add?_eq_some_iff.2 ⟨Nat.lt_of_le_of_lt hend hlimit, rfl⟩
  rw [putRow?, rowStart?_eq_some hcount hstep hneuron, Option.bind_eq_bind, Option.bind_some,
    hstop, Option.bind_some, if_pos ⟨hend, hrow⟩]

/-- The neuron has the row at the step, and all other elements are as before. -/
theorem get?_writeAt (hstep : step < trace.shape.steps) (hneuron : neuron < trace.shape.neurons)
    (hrow : row.size = trace.shape.dims) {step' neuron' dim : Nat}
    (hplace : trace.shape.HasPlace step' neuron' dim) :
    (trace.writeAt (trace.shape.index step neuron 0) row).get? step' neuron' dim =
      if step' = step ∧ neuron' = neuron then row[dim]? else trace.get? step' neuron' dim := by
  let start := trace.shape.index step neuron 0
  have hplaceLeft : (trace.writeAt start row).shape.HasPlace step' neuron' dim := hplace
  have hindex := Shape.index_lt_count hplace.step_lt hplace.neuron_lt hplace.dim_lt
  rw [← trace.size_data] at hindex
  rw [get?_eq_data hplaceLeft]
  change (overwrite trace.data start row.toList)[trace.shape.index step' neuron' dim]? = _
  rw [getElem?_overwrite, Array.getElem?_toList, get?_eq_data hplace]
  by_cases hsame : step' = step ∧ neuron' = neuron
  · obtain ⟨rfl, rfl⟩ := hsame
    have hposition : trace.shape.index step' neuron' dim = start + dim := rfl
    have hdim : dim < row.size := hrow ▸ hplace.dim_lt
    rw [if_pos ⟨hposition ▸ Nat.le_add_right start dim, hindex⟩, if_pos ⟨rfl, rfl⟩, hposition,
      Nat.add_sub_cancel_left, Array.getElem?_eq_getElem hdim, Option.some_or]
  · rw [if_neg hsame]
    split
    · next hfrom =>
      obtain ⟨inRow, hposition⟩ := Nat.exists_eq_add_of_le hfrom.1
      have hbehind : row.size ≤ inRow := by
        by_contra hinRow
        obtain ⟨hstep', hneuron', -⟩ :=
          Shape.index_inj hplace ⟨hstep, hneuron, hrow ▸ Nat.lt_of_not_le hinRow⟩ hposition
        exact hsame ⟨hstep', hneuron'⟩
      rw [hposition, Nat.add_sub_cancel_left, Array.getElem?_eq_none hbehind, Option.none_or]
    · rfl

end

/-- The first so many rows of a part have been copied over those of a slice, and nothing else has
changed. -/
structure HasCopied (trace part : Trace) (slice : NeuronRange) (rows : Nat) (left : Trace) :
    Prop where
  shape_eq : left.shape = trace.shape
  get?_eq : ∀ step neuron dim, trace.shape.HasPlace step neuron dim →
    left.get? step neuron dim =
      if slice.Contains neuron ∧ step * slice.size + (neuron - slice.start) < rows then
        part.get? step (neuron - slice.start) dim
      else trace.get? step neuron dim

section

variable {trace part left : Trace} {slice : NeuronRange} {count : Nat}
  (hcount : trace.shape.count? = some count) (hstop : slice.stop ≤ trace.shape.neurons)
  (hpart : part.shape = ⟨trace.shape.steps, slice.size, trace.shape.dims⟩)

include hcount hstop hpart

/-- The elements of a part can be counted where those of the trace can. -/
theorem count?_of_part : part.shape.count? = some part.shape.count := by
  have hwithin : part.shape.IsWithin trace.shape := by
    rw [hpart]
    exact ⟨Nat.le_refl _, Nat.le_trans (Nat.sub_le _ _) hstop, Nat.le_refl _⟩
  exact hwithin.count?_eq hcount

/-- The step lemma: the next row can be copied, and it is added to those copied before. -/
theorem HasCopied.exists_copyRow?_eq_some {step neuron : Nat}
    (h : HasCopied trace part slice (step * slice.size + neuron) left)
    (hstep : step < trace.shape.steps) (hneuron : neuron < slice.size) :
    ∃ next, left.copyRow? part slice.start step neuron = some next ∧
      HasCopied trace part slice (step * slice.size + neuron + 1) next := by
  have hwithin : slice.start + neuron < trace.shape.neurons := by
    unfold NeuronRange.size at hneuron
    omega
  have hpartStep : step < part.shape.steps := by rwa [hpart]
  have hpartNeuron : neuron < part.shape.neurons := by rwa [hpart]
  have hpartDims : part.shape.dims = trace.shape.dims := by rw [hpart]
  obtain ⟨row, hrow, hsize, helements⟩ :=
    exists_row?_eq_some (count?_of_part hcount hstop hpart) hpartStep hpartNeuron
  rw [← h.shape_eq] at hcount hstep hwithin
  rw [hpartDims, ← h.shape_eq] at hsize
  refine ⟨left.writeAt (left.shape.index step (slice.start + neuron) 0) row, ?_, h.shape_eq, ?_⟩
  · rw [copyRow?, hrow, Option.bind_some, putRow?_eq_some hcount hstep hwithin hsize]
  · intro step' neuron' dim hplace
    have hplaceLeft : left.shape.HasPlace step' neuron' dim := by rwa [h.shape_eq]
    rw [get?_writeAt hstep hwithin hsize hplaceLeft]
    by_cases hsame : step' = step ∧ neuron' = slice.start + neuron
    · obtain ⟨rfl, rfl⟩ := hsame
      have hcontains : slice.Contains (slice.start + neuron) := by
        unfold NeuronRange.size at hneuron
        exact ⟨Nat.le_add_right _ _, by omega⟩
      rw [if_pos ⟨rfl, rfl⟩, Nat.add_sub_cancel_left,
        if_pos ⟨hcontains, Nat.lt_succ_self _⟩, helements dim (hpartDims ▸ hplace.dim_lt)]
    · rw [if_neg hsame, h.get?_eq step' neuron' dim hplace]
      have hother (hcontains : slice.Contains neuron') :
          step' * slice.size + (neuron' - slice.start) ≠ step * slice.size + neuron := by
        intro hnumber
        obtain ⟨hstep', hneuron'⟩ := Shape.row_inj hcontains.sub_lt_size hneuron hnumber
        have hfrom := hcontains.1
        exact hsame ⟨hstep', by omega⟩
      have hrows : (slice.Contains neuron' ∧
            step' * slice.size + (neuron' - slice.start) < step * slice.size + neuron) ↔
          slice.Contains neuron' ∧
            step' * slice.size + (neuron' - slice.start) < step * slice.size + neuron + 1 :=
        and_congr_right fun hcontains ↦ by
          have hne := hother hcontains
          omega
      exact if_congr hrows rfl rfl

/-- The run lemma: all rows of the part can be copied. -/
theorem exists_copyRows?_eq_some :
    ∃ last, trace.copyRows? part slice = some last ∧
      HasCopied trace part slice (trace.shape.steps * slice.size) last := by
  apply exists_foldlM_range_eq_some fun step ↦ HasCopied trace part slice (step * slice.size)
  · refine ⟨rfl, fun step neuron dim _ ↦ ?_⟩
    rw [if_neg fun hcopied ↦ by omega]
  · intro step hstep left hleft
    rw [Nat.succ_mul]
    exact exists_foldlM_range_eq_some
      (fun neuron ↦ HasCopied trace part slice (step * slice.size + neuron)) hleft
      fun neuron hneuron state hstate ↦
        hstate.exists_copyRow?_eq_some hcount hstop hpart hstep hneuron

/-- Copying a part row by row is overlaying the trace with it, and it never fails. -/
theorem copyRows?_eq_some_overlay :
    trace.copyRows? part slice = some (trace.overlay part slice.start) := by
  obtain ⟨last, hloop, hlast⟩ := exists_copyRows?_eq_some hcount hstop hpart
  rw [hloop]
  apply congrArg some
  have hshape : last.shape = (trace.overlay part slice.start).shape := hlast.shape_eq
  apply eq_of_get?_eq hshape
  intro step neuron dim hplace
  rw [hlast.shape_eq] at hplace
  rw [hlast.get?_eq step neuron dim hplace]
  by_cases hneuron : slice.Contains neuron
  · rw [if_pos ⟨hneuron, Shape.row_lt hplace.step_lt hneuron.sub_lt_size⟩,
      get?_overlay_of_contains hpart hstop hneuron]
  · rw [if_neg fun hcopied ↦ hneuron hcopied.1, get?_overlay_of_not_contains hpart hneuron]

end

end Trace

end EnsembleRecording
