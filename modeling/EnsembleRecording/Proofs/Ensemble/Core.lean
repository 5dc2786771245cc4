import EnsembleRecording.Proofs.Layout.Image
import EnsembleRecording.Proofs.Recorder.Append
import EnsembleRecording.Proofs.Transfer.Delivered

/-!
# The Recording of a Core

The way of a recording on one core, from end to end.  The host builds the region of the core and
sends it, the core takes it, records a vector for each neuron at each step and gives it back, and
the host fetches it and reads the trace.  A run may stop at any vector, also in the middle of a
step: the trace then has zeros where the run did not come.
-/

namespace EnsembleRecording

theorem Fixed.toBinary32_zero : zero.toBinary32 = .zero := by decide +kernel

namespace EncoderVector

variable {vectors : List EncoderVector} {dims : Nat}

theorem length_flatten_of_length_eq (h : ∀ vector ∈ vectors, vector.length = dims) :
    (vectors.flatten : EncoderVector).length = vectors.length * dims := by
  induction vectors with
  | nil => simp
  | cons vector rest ih =>
    have hrest := ih fun later hlater ↦ h later (List.mem_cons_of_mem _ hlater)
    rw [List.flatten_cons, List.length_append, h vector List.mem_cons_self, hrest,
      List.length_cons, Nat.succ_mul, Nat.add_comm]

/-- Among the elements of all vectors, those of one lie together. -/
theorem getElem?_flatten_of_length_eq (h : ∀ vector ∈ vectors, vector.length = dims) (row : Nat)
    {dim : Nat} (hdim : dim < dims) :
    vectors.flatten[row * dims + dim]? = vectors[row]?.bind fun vector ↦ vector[dim]? := by
  induction vectors generalizing row with
  | nil => simp
  | cons vector rest ih =>
    have hvector := h vector List.mem_cons_self
    cases row with
    | zero =>
      rw [List.flatten_cons, Nat.zero_mul, Nat.zero_add, List.getElem?_append_left (by omega)]
      rfl
    | succ row =>
      have hposition : (row + 1) * dims + dim - vector.length = row * dims + dim := by
        rw [hvector, Nat.succ_mul]
        omega
      have hbehind : vector.length ≤ (row + 1) * dims + dim := by
        rw [hvector, Nat.succ_mul]
        omega
      rw [List.flatten_cons, List.getElem?_append_right hbehind, hposition,
        ih (fun later hlater ↦ h later (List.mem_cons_of_mem _ hlater)), List.getElem?_cons_succ]

/-- An element of one of the vectors, or zero where there are not so many. -/
def elementOf (vectors : List EncoderVector) (row dim : Nat) : Fixed :=
  (vectors[row]?.bind fun vector ↦ vector[dim]?).getD .zero

theorem elementOf_eq_getElem {row dim : Nat} {vector : EncoderVector}
    (hvector : vectors[row]? = some vector) (hdim : dim < vector.length) :
    elementOf vectors row dim = vector[dim] := by
  rw [elementOf, hvector, Option.bind_some, List.getElem?_eq_getElem hdim, Option.getD_some]

theorem elementOf_eq_zero {row : Nat} (h : vectors.length ≤ row) (dim : Nat) :
    elementOf vectors row dim = .zero := by
  rw [elementOf, List.getElem?_eq_none h, Option.bind_none, Option.getD_none]

end EncoderVector

/-- A core of a simulation, with what the host has to know to record it. -/
structure Core where
  address : Address
  /-- The number of neurons that the core simulates. -/
  neurons : Nat
  /-- The one length that the core accepts of vectors, if it was told it. -/
  expectedDims : Option Nat
deriving DecidableEq

namespace Core

/-- The host sends the region that the layout builds, and the core takes it. -/
def load (core : Core) (layout : Layout) : Except HostFault Recorder := do
  let image ← layout.region core.address core.neurons
  let received ← image.transfer core.address image.size
  (Recorder.attach (some received) core.expectedDims).mapError .recording

/-- The host fetches the region that the core gives back, and reads so many steps. -/
def collect (core : Core) (layout : Layout) (recorder : Recorder) (steps : Nat) :
    Except HostFault Trace :=
  match layout.size? core.neurons with
  | none => .error (.shapeTooLarge (layout.shape core.neurons))
  | some size => do
    let fetched ← recorder.region.transfer core.address size
    layout.readBack fetched core.neurons steps

/-- The core records the given vectors, and the host reads so many steps. -/
def run (core : Core) (layout : Layout) (vectors : List EncoderVector) (steps : Nat) :
    Except HostFault Trace := do
  let recorder ← core.load layout
  match recorder.recordEach vectors with
  | (.error fault, _) => .error (.recording fault)
  | (.ok _, left) => core.collect layout left steps

/-- The layout has a region for the core and room for the vectors, which have the dimensions of the
layout.  The core knows these or accepts any. -/
structure CanRecord (core : Core) (layout : Layout) (vectors : List EncoderVector) : Prop where
  exists_image : ∃ image, layout.region core.address core.neurons = .ok image
  expectedDims_eq : core.expectedDims = none ∨ core.expectedDims = some layout.dims
  length_le : vectors.length ≤ layout.steps * core.neurons
  length_eq : ∀ vector ∈ vectors, vector.length = layout.dims

variable {core : Core} {layout : Layout} {vectors : List EncoderVector} {image : Region}

theorem load_eq_ok (himage : layout.region core.address core.neurons = .ok image) :
    core.load layout = .ok ⟨image, layout.isEnabled, 0, core.expectedDims, Nat.zero_le _⟩ := by
  obtain ⟨haddress, hbuilt⟩ := Layout.isImage_of_region_eq_ok himage
  have htransfer := image.transfer_eq_ok
  rw [haddress] at htransfer
  have hattach := Recorder.attach_eq_ok core.expectedDims hbuilt.flag_eq
  have henabled : ((if layout.isEnabled then 1 else 0 : UInt32) != 0) = layout.isEnabled := by
    cases layout.isEnabled <;> rfl
  simp only [henabled] at hattach
  simp only [load, himage, bind, Except.bind, htransfer, hattach]
  rfl

/-- All vectors are recorded, one directly behind the other from the start of the data on. -/
theorem exists_recordEach_eq_ok (h : core.CanRecord layout vectors)
    (himage : layout.IsImage core.neurons image) :
    ∃ left, Recorder.recordEach ⟨image, layout.isEnabled, 0, core.expectedDims, Nat.zero_le _⟩
        vectors = (.ok (), left) ∧
      left.region = image.store (Region.dataOffset + 0) vectors.flatten := by
  cases henabled : layout.isEnabled with
  | false =>
    have hsteps : layout.steps = 0 := by
      unfold Layout.isEnabled at henabled
      simpa using henabled
    have hnone : vectors = [] := by
      have hlength := h.length_le
      rw [hsteps, Nat.zero_mul] at hlength
      exact List.eq_nil_of_length_eq_zero (Nat.le_zero.1 hlength)
    rw [hnone]
    exact ⟨_, rfl, rfl⟩
  | true =>
    have hlengths : ∀ vector ∈ vectors, Recorder.lengthFault?
        ⟨image, true, 0, core.expectedDims, Nat.zero_le _⟩ vector = none := by
      intro vector hvector
      exact Recorder.lengthFault?_eq_none h.expectedDims_eq (h.length_eq vector hvector)
    have hfits : (vectors.flatten : EncoderVector).length ≤ Recorder.remaining
        ⟨image, true, 0, core.expectedDims, Nat.zero_le _⟩ := by
      calc (vectors.flatten : EncoderVector).length
          = vectors.length * layout.dims := EncoderVector.length_flatten_of_length_eq h.length_eq
        _ ≤ layout.steps * core.neurons * layout.dims := Nat.mul_le_mul_right _ h.length_le
        _ = image.capacity := himage.capacity_eq.symm
    exact ⟨_, Recorder.recordEach_eq_append rfl hlengths hfits, rfl⟩

/-- The elements of the vectors stand at the start of the data, and zeros behind them. -/
theorem word?_data_of_recorded (h : core.CanRecord layout vectors)
    (himage : layout.IsImage core.neurons image) {i : Nat} (hi : i < image.capacity) :
    (image.store (Region.dataOffset + 0) vectors.flatten).word? (Region.dataOffset + i) =
      some (vectors.flatten[i]?.getD .zero).toWord := by
  have hfits : 0 + (vectors.flatten : EncoderVector).length ≤ image.capacity := by
    rw [Nat.zero_add, EncoderVector.length_flatten_of_length_eq h.length_eq, himage.capacity_eq]
    exact Nat.mul_le_mul_right _ h.length_le
  rw [Region.word?_data_store hfits]
  split
  · next hrecorded =>
    have helement : i < (vectors.flatten : EncoderVector).length := by omega
    rw [Nat.sub_zero, List.getElem?_eq_getElem helement]
    rfl
  · next hbehind =>
    have hnone : vectors.flatten[i]? = none := List.getElem?_eq_none (by omega)
    rw [himage.data_eq i hi, hnone]
    rfl

/-- What the host reads after the run: the elements of the vectors, step after step and neuron after
neuron, and zeros from where the run ended. -/
theorem exists_run_eq_ok (h : core.CanRecord layout vectors) {steps : Nat}
    (hsteps : steps ≤ layout.steps) :
    ∃ trace, core.run layout vectors steps = .ok trace ∧
      trace.shape = ⟨steps, core.neurons, layout.dims⟩ ∧
      ∀ step neuron dim, trace.shape.HasPlace step neuron dim →
        trace.get? step neuron dim = some
          (EncoderVector.elementOf vectors (step * core.neurons + neuron) dim).toBinary32 := by
  obtain ⟨image, himage⟩ := h.exists_image
  obtain ⟨haddress, hbuilt⟩ := Layout.isImage_of_region_eq_ok himage
  obtain ⟨left, hrecord, hleft⟩ := exists_recordEach_eq_ok h hbuilt
  have hwithin : (Shape.mk steps core.neurons layout.dims).IsWithin (layout.shape core.neurons) :=
    Shape.isWithin_of_steps_le hsteps _ _
  have hcount := hwithin.count?_eq hbuilt.count?_eq
  have hroom : Region.dataOffset + (Shape.mk steps core.neurons layout.dims).count ≤
      left.region.size := by
    rw [hleft, Region.size_store, hbuilt.size_eq]
    exact Nat.add_le_add_left hwithin.count_le _
  have hfetch : left.region.transfer core.address image.size = .ok left.region := by
    have htransfer := left.region.transfer_eq_ok
    rw [hleft, Region.size_store] at htransfer
    rw [hleft, ← haddress]
    exact htransfer
  obtain ⟨trace, hread, hshape, hget⟩ := Layout.readBack_eq_ok hcount hroom
  refine ⟨trace, ?_, hshape, ?_⟩
  · simp only [run, load_eq_ok himage, bind, Except.bind, hrecord, collect, hbuilt.size?_eq, hfetch,
      hread]
  · intro step neuron dim hplace
    have hword := hget step neuron dim hplace
    rw [hshape] at hplace hword
    have hindex : (step * core.neurons + neuron) * layout.dims + dim < image.capacity := by
      rw [hbuilt.capacity_eq]
      exact Nat.lt_of_lt_of_le
        (Shape.index_lt_count hplace.step_lt hplace.neuron_lt hplace.dim_lt)
        hwithin.count_le
    rw [hword, hleft, Shape.index, word?_data_of_recorded h hbuilt hindex, Option.map_some,
      EncoderVector.getElem?_flatten_of_length_eq h.length_eq _ hplace.dim_lt]
    rfl

/-- A core records vectors for as long as the run goes, and then any number of steps is read, be it
fewer or more than the run had.  Nothing fails, every element that was recorded is found at its
step, neuron and dimension, and all others are zero. -/
theorem run_reads_recorded_elements (h : core.CanRecord layout vectors) {steps : Nat}
    (hsteps : steps ≤ layout.steps) :
    ∃ trace, core.run layout vectors steps = .ok trace ∧
      trace.shape = ⟨steps, core.neurons, layout.dims⟩ ∧
      ∀ step neuron dim, trace.shape.HasPlace step neuron dim →
        (∀ vector, vectors[step * core.neurons + neuron]? = some vector →
          ∃ element, vector[dim]? = some element ∧
            trace.get? step neuron dim = some element.toBinary32) ∧
        (vectors.length ≤ step * core.neurons + neuron →
          trace.get? step neuron dim = some .zero) := by
  obtain ⟨trace, hrun, hshape, hget⟩ := exists_run_eq_ok h hsteps
  refine ⟨trace, hrun, hshape, ?_⟩
  intro step neuron dim hplace
  rw [hget step neuron dim hplace]
  constructor
  · intro vector hvector
    have hdim : dim < vector.length := by
      rw [h.length_eq vector (List.mem_of_getElem? hvector)]
      rw [hshape] at hplace
      exact hplace.dim_lt
    refine ⟨vector[dim], List.getElem?_eq_getElem hdim, ?_⟩
    rw [EncoderVector.elementOf_eq_getElem hvector hdim]
  · intro hended
    rw [EncoderVector.elementOf_eq_zero hended, Fixed.toBinary32_zero]

/-- A run that stops between the two neurons of its second step. -/
theorem run_reads_recorded_elements_of_cut_step :
    ∃ trace, (Core.mk ⟨0x60000000⟩ 2 (some 1)).run ⟨3, 1⟩ [[⟨32768⟩], [⟨-32768⟩], [⟨16384⟩]] 2 =
        .ok trace ∧
      trace.get? 0 1 0 = some ⟨0xbf800000⟩ ∧ trace.get? 1 0 0 = some ⟨0x3f000000⟩ ∧
      trace.get? 1 1 0 = some .zero := by
  have hready : (Core.mk ⟨0x60000000⟩ 2 (some 1)).CanRecord ⟨3, 1⟩
      [[⟨32768⟩], [⟨-32768⟩], [⟨16384⟩]] :=
    ⟨⟨_, rfl⟩, .inr rfl, by decide, by decide⟩
  obtain ⟨trace, hrun, hshape, hget⟩ := run_reads_recorded_elements hready (by decide : 2 ≤ 3)
  have hplace : ∀ step < 2, ∀ neuron < 2, trace.shape.HasPlace step neuron 0 := by
    intro step hstep neuron hneuron
    rw [hshape]
    exact ⟨hstep, hneuron, by decide⟩
  refine ⟨trace, hrun, ?_, ?_, ?_⟩
  · obtain ⟨element, helement, hfound⟩ :=
      (hget 0 1 0 (hplace 0 (by decide) 1 (by decide))).1 _ rfl
    cases helement
    exact hfound.trans (by decide +kernel)
  · obtain ⟨element, helement, hfound⟩ :=
      (hget 1 0 0 (hplace 1 (by decide) 0 (by decide))).1 _ rfl
    cases helement
    exact hfound.trans (by decide +kernel)
  · exact (hget 1 1 0 (hplace 1 (by decide) 1 (by decide))).2 (by decide)

end Core

end EnsembleRecording
