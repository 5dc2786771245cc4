import EnsembleRecording.Proofs.Trace.Elements

/-!
# Agreement of Views

Every view of a trace computes the positions that it needs on its own, with the sizes of a machine.
Where a machine can address the elements of a trace none of these computations fails, and all views
show the same elements: the rows of a step make up the step, the steps make up the trace, and the
rows of a neuron make up its series.
-/

namespace EnsembleRecording

/-- Blocks of one width that follow each other are one piece. -/
theorem flatten_map_extract {α : Type} (data : Array α) (start width count : Nat) :
    ((List.range count).map fun i ↦
        data.extract (start + i * width) (start + i * width + width)).toArray.flatten =
      data.extract start (start + count * width) := by
  induction count with
  | zero =>
    rw [Nat.zero_mul, Nat.add_zero, Array.extract_empty_of_stop_le_start (Nat.le_refl start)]
    rfl
  | succ count ih =>
    have hlast : start + (count + 1) * width = start + count * width + width := by
      rw [Nat.succ_mul, Nat.add_assoc]
    rw [List.range_succ, List.map_append, ← List.append_toArray, Array.flatten_append, ih,
      List.map_singleton, Array.flatten_singleton, Array.extract_append_extract, hlast,
      Nat.min_eq_left (Nat.le_add_right _ _), Nat.max_eq_right (Nat.le_add_right _ _)]

/-- Where every item has a value, so has the list of them. -/
theorem mapM_eq_some_map {α β : Type} {f : α → Option β} {g : α → β} {items : List α}
    (h : ∀ item ∈ items, f item = some (g item)) : items.mapM f = some (items.map g) := by
  induction items with
  | nil => rfl
  | cons item rest ih =>
    obtain ⟨hitem, hrest⟩ := List.forall_mem_cons.1 h
    rw [List.mapM_cons, hitem, ih hrest]
    rfl

namespace Trace

variable {trace : Trace} {count step neuron : Nat}

theorem lookUp?_eq_some (hcount : trace.shape.count? = some count) (step neuron dim : Nat) :
    trace.lookUp? step neuron dim = some (trace.get? step neuron dim) := by
  by_cases hplace : trace.shape.HasPlace step neuron dim
  · have hindex := Shape.index_lt_count hplace.step_lt hplace.neuron_lt hplace.dim_lt
    have hposition : Size.add? (trace.shape.index step neuron 0) dim =
        some (trace.shape.index step neuron dim) :=
      Size.add?_eq_some_iff.2
        ⟨Nat.lt_trans hindex (Shape.count?_eq_some_iff.1 hcount).2.1, rfl⟩
    rw [← trace.size_data] at hindex
    rw [lookUp?, if_pos ⟨hplace.step_lt, hplace.neuron_lt, hplace.dim_lt⟩,
      rowStart?_eq_some hcount hplace.step_lt hplace.neuron_lt, Option.bind_eq_bind,
      Option.bind_some, hposition, Option.bind_some, get?_eq_data hplace,
      Array.getElem?_eq_getElem hindex]
    rfl
  · have hnone : ¬(step < trace.shape.steps ∧ neuron < trace.shape.neurons ∧
        dim < trace.shape.dims) := fun h ↦ hplace ⟨h.1, h.2.1, h.2.2⟩
    rw [lookUp?, if_neg hnone, get?_eq_none hplace]

/-- The stored elements of all neurons at a step. -/
def stepAt (trace : Trace) (step : Nat) : Array Binary32 :=
  trace.data.extract (step * (trace.shape.neurons * trace.shape.dims))
    (step * (trace.shape.neurons * trace.shape.dims) + trace.shape.neurons * trace.shape.dims)

theorem step?_eq_some (hcount : trace.shape.count? = some count)
    (hsteps : trace.shape.steps < Size.limit) (hstep : step < trace.shape.steps) :
    trace.step? step = some (trace.stepAt step) := by
  let stride := trace.shape.neurons * trace.shape.dims
  have hlimit : trace.shape.count < Size.limit := (Shape.count?_eq_some_iff.1 hcount).2.1
  have hend : step * stride + stride ≤ trace.shape.count := by
    calc step * stride + stride = (step + 1) * stride := (Nat.succ_mul step stride).symm
      _ ≤ trace.shape.steps * stride := Nat.mul_le_mul_right stride hstep
      _ = trace.shape.count := (Nat.mul_assoc _ _ _).symm
  have hstride : Size.mul? trace.shape.neurons trace.shape.dims = some stride :=
    Size.mul?_eq_some_iff.2 ⟨by omega, rfl⟩
  have hnext : Size.add? step 1 = some (step + 1) := Size.add?_eq_some_iff.2 ⟨by omega, rfl⟩
  have hstart : Size.mul? step stride = some (step * stride) :=
    Size.mul?_eq_some_iff.2 ⟨by omega, rfl⟩
  have hstop : Size.mul? (step + 1) stride = some (step * stride + stride) := by
    rw [Size.mul?_eq_some_iff, Nat.succ_mul]
    exact ⟨Nat.lt_of_le_of_lt hend hlimit, rfl⟩
  have hslice : trace.slice? (step * stride) (step * stride + stride) =
      some (trace.stepAt step) := by
    rw [← trace.size_data] at hend
    exact if_pos ⟨Nat.le_add_right _ _, hend⟩
  simp only [step?, hstride, hnext, hstart, hstop, Option.bind_eq_bind, Option.bind_some, hslice]

/-- The rows of a step, one after the other, are the step. -/
theorem flatten_rowAt (trace : Trace) (step : Nat) :
    ((List.range trace.shape.neurons).map (trace.rowAt step)).toArray.flatten =
      trace.stepAt step := by
  have hrow : trace.rowAt step = fun neuron ↦
      trace.data.extract
        (step * (trace.shape.neurons * trace.shape.dims) + neuron * trace.shape.dims)
        (step * (trace.shape.neurons * trace.shape.dims) + neuron * trace.shape.dims +
          trace.shape.dims) := by
    funext neuron
    rw [rowAt, Shape.index, Nat.add_zero, Nat.add_mul, Nat.mul_assoc]
  rw [hrow]
  exact flatten_map_extract trace.data _ _ _

/-- The steps, one after the other, are the trace. -/
theorem flatten_stepAt (trace : Trace) :
    ((List.range trace.shape.steps).map trace.stepAt).toArray.flatten = trace.data := by
  let stride := trace.shape.neurons * trace.shape.dims
  have hsize : 0 + trace.shape.steps * stride = trace.data.size := by
    rw [Nat.zero_add, trace.size_data, Shape.count, Nat.mul_assoc]
  have hstep : trace.stepAt = fun step ↦
      trace.data.extract (0 + step * stride) (0 + step * stride + stride) := by
    funext step
    rw [stepAt, Nat.zero_add]
  rw [hstep, flatten_map_extract trace.data 0 stride trace.shape.steps, hsize, Array.extract_size]

/-- Where the rows of a neuron can be taken, its series is these behind what was found earlier. -/
theorem seriesFrom?_eq_some {trace : Trace} {neuron steps step : Nat}
    (h : ∀ i ∈ List.range' step steps, trace.row? i neuron = some (trace.rowAt i neuron))
    (earlier : Array Binary32) :
    trace.seriesFrom? neuron steps step earlier =
      some (earlier ++
        ((List.range' step steps).map fun i ↦ trace.rowAt i neuron).toArray.flatten) := by
  induction steps generalizing step earlier with
  | zero => simp [seriesFrom?]
  | succ steps ih =>
    rw [List.range'_succ] at h ⊢
    obtain ⟨hfirst, hrest⟩ := List.forall_mem_cons.1 h
    rw [seriesFrom?, hfirst]
    simp only [ih hrest, Array.append_assoc]
    rw [List.map_cons, ← List.singleton_append, ← List.append_toArray, Array.flatten_append,
      Array.flatten_singleton]

/-- A machine can count the steps and the elements of the trace. -/
structure IsAddressable (trace : Trace) : Prop where
  steps_lt : trace.shape.steps < Size.limit
  count?_eq : trace.shape.count? = some trace.data.size

/-- All views within a trace can be taken, and they show the same elements. -/
structure HasConsistentViews (trace : Trace) : Prop where
  size_eq : trace.data.size = trace.shape.steps * trace.shape.neurons * trace.shape.dims
  count?_eq : trace.shape.count? = some trace.data.size
  lookUp?_eq : ∀ step neuron dim,
    trace.lookUp? step neuron dim = some (trace.get? step neuron dim)
  isSome_get?_iff : ∀ step neuron dim, (trace.get? step neuron dim).isSome ↔
    step < trace.shape.steps ∧ neuron < trace.shape.neurons ∧ dim < trace.shape.dims
  exists_row : ∀ step < trace.shape.steps, ∀ neuron < trace.shape.neurons,
    ∃ row, trace.row? step neuron = some row ∧ row.size = trace.shape.dims ∧
      ∀ dim < trace.shape.dims, row[dim]? = trace.get? step neuron dim
  /-- A step is the rows of its neurons. -/
  exists_rows_of_step : ∀ step < trace.shape.steps, ∃ rows,
    (List.range trace.shape.neurons).mapM (trace.row? step) = some rows ∧
      trace.step? step = some rows.toArray.flatten
  /-- The trace is its steps. -/
  exists_steps : ∃ steps, (List.range trace.shape.steps).mapM trace.step? = some steps ∧
    trace.data = steps.toArray.flatten
  /-- The series of a neuron is its rows at all steps. -/
  exists_rows_of_series : ∀ neuron < trace.shape.neurons, ∃ rows,
    (List.range trace.shape.steps).mapM (trace.row? · neuron) = some rows ∧
      trace.series? neuron = some rows.toArray.flatten

theorem isSome_get?_iff {trace : Trace} {step neuron dim : Nat} :
    (trace.get? step neuron dim).isSome ↔
      step < trace.shape.steps ∧ neuron < trace.shape.neurons ∧ dim < trace.shape.dims := by
  unfold get?
  split <;> simp_all

theorem IsAddressable.hasConsistentViews {trace : Trace} (h : trace.IsAddressable) :
    trace.HasConsistentViews where
  size_eq := trace.size_data
  count?_eq := h.count?_eq
  lookUp?_eq := lookUp?_eq_some h.count?_eq
  isSome_get?_iff := fun _ _ _ ↦ isSome_get?_iff
  exists_row := fun _ hstep _ hneuron ↦ exists_row?_eq_some h.count?_eq hstep hneuron
  exists_rows_of_step := by
    intro step hstep
    refine ⟨_, mapM_eq_some_map fun neuron hneuron ↦
      row?_eq_some h.count?_eq hstep (List.mem_range.1 hneuron), ?_⟩
    rw [flatten_rowAt, step?_eq_some h.count?_eq h.steps_lt hstep]
  exists_steps := by
    refine ⟨_, mapM_eq_some_map fun step hstep ↦
      step?_eq_some h.count?_eq h.steps_lt (List.mem_range.1 hstep), ?_⟩
    exact (flatten_stepAt trace).symm
  exists_rows_of_series := by
    intro neuron hneuron
    have hrows : ∀ step ∈ List.range trace.shape.steps,
        trace.row? step neuron = some (trace.rowAt step neuron) := fun step hstep ↦
      row?_eq_some h.count?_eq (List.mem_range.1 hstep) hneuron
    refine ⟨_, mapM_eq_some_map hrows, ?_⟩
    rw [List.range_eq_range'] at hrows ⊢
    rw [series?, seriesFrom?_eq_some hrows, Array.empty_append]

end Trace

end EnsembleRecording
