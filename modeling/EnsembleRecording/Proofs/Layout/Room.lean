import EnsembleRecording.Proofs.Layout.Image
import EnsembleRecording.Proofs.Recorder.Epochs

/-!
# Room in a Region

The host counts the vectors for which a region has to have room, and the recorder only counts words.
On vectors of the dimensions of the layout the two counts agree at every point of a run: a vector is
refused when as many were accepted as there are steps and neurons, and never before.
-/

namespace EnsembleRecording

namespace Recorder

/-- A vector that was recorded without a fault. -/
def Event.isAccepted : Event → Bool
  | ⟨.record _, .ok _⟩ => true
  | _ => false

/-- The number of vectors accepted since the last reset, or from the beginning on if there was
none. -/
def acceptedSinceReset (events : List Event) : Nat :=
  (events.reverse.takeWhile fun event ↦ !event.isReset).countP Event.isAccepted

theorem acceptedSinceReset_concat_reset (events : List Event)
    (outcome : Except RecordingFault Unit) :
    acceptedSinceReset (events ++ [⟨.reset, outcome⟩]) = 0 := by
  simp [acceptedSinceReset, Event.isReset]

theorem acceptedSinceReset_concat_record (events : List Event) (vector : EncoderVector)
    (outcome : Except RecordingFault Unit) :
    acceptedSinceReset (events ++ [⟨.record vector, outcome⟩]) =
      acceptedSinceReset events + if Event.isAccepted ⟨.record vector, outcome⟩ then 1 else 0 := by
  simp [acceptedSinceReset, Event.isReset, List.countP_cons]

/-- The recorder has room for so many vectors of some length, and those accepted since the last
reset take up their share of it. -/
structure HasRoomFor (vectors dims : Nat) (past : List Event) (recorder : Recorder) : Prop where
  isEnabled_eq : recorder.isEnabled = true
  expectedDims_eq : recorder.expectedDims = none ∨ recorder.expectedDims = some dims
  capacity_eq : recorder.region.capacity = vectors * dims
  cursor_eq : recorder.cursor = acceptedSinceReset past * dims

section

variable {vectors dims : Nat} {past : List Event} {recorder : Recorder} {vector : EncoderVector}

theorem HasRoomFor.remaining_eq (h : HasRoomFor vectors dims past recorder) :
    recorder.remaining = (vectors - acceptedSinceReset past) * dims := by
  rw [remaining, h.capacity_eq, h.cursor_eq, Nat.sub_mul]

theorem HasRoomFor.exists_record_eq_ok (h : HasRoomFor vectors dims past recorder)
    (hlength : vector.length = dims) (hroom : dims = 0 ∨ acceptedSinceReset past < vectors) :
    ∃ hfits, recorder.record vector = (.ok (), recorder.append vector hfits) := by
  have hfits : vector.length ≤ recorder.remaining := by
    rw [hlength, h.remaining_eq]
    rcases hroom with hempty | hbefore
    · rw [hempty]
      exact Nat.zero_le _
    · exact Nat.le_mul_of_pos_left dims (Nat.sub_pos_of_lt hbefore)
  exact ⟨hfits, record_eq_append h.isEnabled_eq (lengthFault?_eq_none h.expectedDims_eq hlength)
    hfits⟩

theorem HasRoomFor.record_eq_error (h : HasRoomFor vectors dims past recorder)
    (hlength : vector.length = dims) (hfull : ¬(dims = 0 ∨ acceptedSinceReset past < vectors)) :
    recorder.record vector = (.error (.capacityExceeded dims 0), recorder) := by
  obtain ⟨hdims, hall⟩ := not_or.1 hfull
  have hremaining : recorder.remaining = 0 := by
    rw [h.remaining_eq, Nat.sub_eq_zero_of_le (Nat.le_of_not_lt hall), Nat.zero_mul]
  have hnofit : ¬vector.length ≤ recorder.remaining := by
    omega
  rw [record_eq_capacityExceeded h.isEnabled_eq (lengthFault?_eq_none h.expectedDims_eq hlength)
    hnofit, hlength, hremaining]

/-- The step lemma for a vector: it takes up its share if it is accepted, and nothing changes if
it is refused. -/
theorem HasRoomFor.record (h : HasRoomFor vectors dims past recorder)
    (hlength : vector.length = dims) :
    HasRoomFor vectors dims (past ++ [recorder.event (.record vector)])
      (recorder.record vector).2 := by
  rw [event, answer]
  by_cases hroom : dims = 0 ∨ acceptedSinceReset past < vectors
  · obtain ⟨hfits, happended⟩ := h.exists_record_eq_ok hlength hroom
    rw [happended]
    refine ⟨h.isEnabled_eq, h.expectedDims_eq, ?_, ?_⟩
    · exact (Region.capacity_store _ _ _).trans h.capacity_eq
    · calc recorder.cursor + vector.length
          = acceptedSinceReset past * dims + dims := by rw [h.cursor_eq, hlength]
        _ = (acceptedSinceReset past + 1) * dims := (Nat.succ_mul _ _).symm
        _ = _ := by rw [acceptedSinceReset_concat_record]; rfl
  · rw [h.record_eq_error hlength hroom]
    refine ⟨h.isEnabled_eq, h.expectedDims_eq, h.capacity_eq, ?_⟩
    rw [acceptedSinceReset_concat_record]
    exact h.cursor_eq

theorem HasRoomFor.reset (h : HasRoomFor vectors dims past recorder) :
    HasRoomFor vectors dims (past ++ [recorder.event .reset]) recorder.reset where
  isEnabled_eq := h.isEnabled_eq
  expectedDims_eq := h.expectedDims_eq
  capacity_eq := h.capacity_eq
  cursor_eq := by
    rw [event, acceptedSinceReset_concat_reset, Nat.zero_mul]
    rfl

/-- The run lemma: the count goes on from what was accepted before the run. -/
theorem HasRoomFor.run (h : HasRoomFor vectors dims past recorder) {calls : List Call}
    (hlengths : ∀ vector, .record vector ∈ calls → vector.length = dims) :
    HasRoomFor vectors dims (past ++ (recorder.run calls).1) (recorder.run calls).2 := by
  apply run_preserves ?_ h
  intro past recorder h call hcall
  cases call with
  | record vector => exact h.record (hlengths vector hcall)
  | reset => exact h.reset

end

/-- A recorder on the region that a layout builds has room for a vector for each neuron at each
step. -/
theorem exists_attach_eq_ok_of_isImage {layout : Layout} {neurons : Nat} {image : Region}
    (hsteps : 0 < layout.steps) (himage : layout.IsImage neurons image)
    {expectedDims : Option Nat}
    (hexpected : expectedDims = none ∨ expectedDims = some layout.dims) :
    ∃ recorder, attach (some image) expectedDims = .ok recorder ∧
      HasRoomFor (layout.steps * neurons) layout.dims [] recorder := by
  have henabled : layout.isEnabled = true := decide_eq_true hsteps
  have hflag : image.word? Region.flagOffset = some 1 := by
    rw [himage.flag_eq, if_pos henabled]
  refine ⟨_, attach_eq_ok expectedDims hflag, rfl, hexpected, himage.capacity_eq, ?_⟩
  exact (Nat.zero_mul _).symm

end Recorder

open Recorder (Call acceptedSinceReset)

/-- What comes of any vector in a run on a region that a layout with steps has built, given the
calls made before it.  It is accepted as long as the neurons have not had all their steps since the
last reset, or if it has no elements; otherwise there is not a single word left. -/
theorem Layout.region_overflows_only_when_full {layout : Layout} {address : Address}
    {neurons : Nat} {image : Region} {expectedDims : Option Nat} (hsteps : 1 ≤ layout.steps)
    (himage : layout.region address neurons = .ok image)
    (hexpected : expectedDims = none ∨ expectedDims = some layout.dims) :
    ∃ recorder, Recorder.attach (some image) expectedDims = .ok recorder ∧
      ∀ calls : List Call,
        (∀ earlier, .record earlier ∈ calls → earlier.length = layout.dims) →
        ∀ vector : EncoderVector, vector.length = layout.dims →
          ((recorder.run calls).2.record vector).1 =
            if layout.dims = 0 ∨
                acceptedSinceReset (recorder.run calls).1 < layout.steps * neurons then .ok ()
            else .error (.capacityExceeded layout.dims 0) := by
  obtain ⟨-, hbuilt⟩ := isImage_of_region_eq_ok himage
  obtain ⟨recorder, hattach, hstart⟩ :=
    Recorder.exists_attach_eq_ok_of_isImage hsteps hbuilt hexpected
  refine ⟨recorder, hattach, ?_⟩
  intro calls hlengths vector hlength
  have hroom := hstart.run hlengths
  rw [List.nil_append] at hroom
  split
  · next hbefore =>
    obtain ⟨hfits, haccepted⟩ := hroom.exists_record_eq_ok hlength hbefore
    rw [haccepted]
  · next hfull => rw [hroom.record_eq_error hlength hfull]

/-- A step of two neurons is recorded.  The next vector is refused, and after a reset it is
accepted. -/
theorem Layout.region_overflows_only_when_full_of_two_neurons :
    ∃ image recorder, Layout.region ⟨1, 2⟩ ⟨0x60000000⟩ 2 = .ok image ∧
      Recorder.attach (some image) none = .ok recorder ∧
      ((recorder.run [.record [⟨1⟩, ⟨2⟩], .record [⟨3⟩, ⟨4⟩]]).2.record [⟨5⟩, ⟨6⟩]).1 =
        .error (.capacityExceeded 2 0) ∧
      ((recorder.run [.record [⟨1⟩, ⟨2⟩], .record [⟨3⟩, ⟨4⟩], .record [⟨5⟩, ⟨6⟩],
        .reset]).2.record [⟨5⟩, ⟨6⟩]).1 = .ok () := by
  have himage : Layout.region ⟨1, 2⟩ ⟨0x60000000⟩ 2 =
      .ok ⟨⟨0x60000000⟩, #[1, 0, 0, 0, 0], by decide⟩ := rfl
  obtain ⟨recorder, hattach, houtcome⟩ :=
    Layout.region_overflows_only_when_full (Nat.le_refl 1) himage (.inl rfl)
  cases hattach
  refine ⟨_, _, himage, rfl, (houtcome _ ?_ _ rfl).trans ?_, (houtcome _ ?_ _ rfl).trans ?_⟩
  · simp
  · exact if_neg (by decide)
  · simp
  · exact if_pos (by decide)

end EnsembleRecording
