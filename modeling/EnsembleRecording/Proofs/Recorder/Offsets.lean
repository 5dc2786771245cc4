import EnsembleRecording.Proofs.Recorder.Attach

/-!
# Offsets of a Recorder

A core keeps its place in a region as two offsets in words: where the data begin, and where the next
element goes.  It subtracts them, cuts the region at them and stores behind them, and each of these
fails where the offsets are out of order or lead out of the region.  However a recorder was come by,
they never are in any run: the data begin behind all words that are not data, also in the empty
region, where there are none, and the next element goes at most as far behind as there is room.  So
what comes of a vector is known in every state: the length is judged before the room, a refused
vector changes nothing, and an accepted one changes only the words that it takes up.
-/

namespace EnsembleRecording

namespace WordRecorder

open Recorder (Call Event)

def answer? (words : WordRecorder) : Call → Option (Except RecordingFault Unit × WordRecorder)
  | .record vector => words.record? vector
  | .reset => words.reset?.map fun left ↦ (.ok (), left)

/-- Makes calls in order, as long as each of them has a result. -/
def run? (words : WordRecorder) : List Call → Option (List Event × WordRecorder)
  | [] => some ([], words)
  | call :: rest =>
    (words.answer? call).bind fun (outcome, left) ↦
      (left.run? rest).map fun (events, last) ↦ (⟨call, outcome⟩ :: events, last)

/-- The offsets are those of a recorder. -/
structure Tracks (words : WordRecorder) (recorder : Recorder) : Prop where
  region_eq : words.region = recorder.region
  isEnabled_eq : words.isEnabled = recorder.isEnabled
  expectedDims_eq : words.expectedDims = recorder.expectedDims
  /-- There is room for an element in each word from the first data word on. -/
  size_eq : recorder.region.size = words.base + recorder.region.capacity
  next_eq : words.next = words.base + recorder.cursor

section

variable {words : WordRecorder} {recorder : Recorder}

theorem Tracks.cursor?_eq (h : words.Tracks recorder) : words.cursor? = some recorder.cursor := by
  have hnext := h.next_eq
  rw [cursor?, if_pos (by omega), hnext, Nat.add_sub_cancel_left]

theorem Tracks.remaining_eq (h : words.Tracks recorder) :
    words.remaining = recorder.remaining := by
  rw [remaining, h.region_eq, h.size_eq, h.next_eq, Nat.add_sub_add_left, Recorder.remaining]

/-- The data begin behind the flag, or there are none. -/
theorem Tracks.base_eq (h : words.Tracks recorder) :
    words.base = Region.dataOffset ∨ recorder.region.capacity = 0 := by
  have hsize := h.size_eq
  unfold Region.capacity Region.dataOffset Region.flagOffset at *
  omega

theorem Tracks.recorded?_eq (h : words.Tracks recorder) :
    words.recorded? = some recorder.recorded.toArray := by
  have hcursor := recorder.cursor_le_capacity
  have hinside : words.base + recorder.cursor ≤ recorder.region.size := by
    rw [h.size_eq]
    omega
  have hwords : recorder.region.words.extract words.base (words.base + recorder.cursor) =
      recorder.region.words.extract Region.dataOffset (Region.dataOffset + recorder.cursor) := by
    rcases h.base_eq with hbase | hnone
    · rw [hbase]
    · have hzero : recorder.cursor = 0 := by omega
      simp only [hzero, Nat.add_zero, Array.extract_empty_of_stop_le_start (Nat.le_refl _)]
  rw [recorded?, h.cursor?_eq, Option.bind_some, h.region_eq, Region.elements?, Region.slice?,
    if_pos hinside, Option.map_some, hwords, Recorder.recorded, ← Array.toList_map,
    Array.toArray_toList]

theorem Tracks.exists_reset?_eq_some (h : words.Tracks recorder) :
    ∃ left, words.reset? = some left ∧ left.Tracks recorder.reset := by
  refine ⟨{ words with next := words.base }, ?_, ?_⟩
  · rw [reset?, h.cursor?_eq, Option.map_some]
  · exact ⟨h.region_eq, h.isEnabled_eq, h.expectedDims_eq, h.size_eq, (Nat.add_zero _).symm⟩

/-- A vector that fits is stored where the recorder stores it. -/
theorem Tracks.exists_append?_eq_some (h : words.Tracks recorder) {vector : EncoderVector}
    (hfits : vector.length ≤ recorder.remaining) :
    ∃ left, words.append? vector = some left ∧ left.Tracks (recorder.append vector hfits) := by
  have hcursor := recorder.cursor_le_capacity
  have hsize := h.size_eq
  have hnext := h.next_eq
  have hroom : recorder.cursor + vector.length ≤ recorder.region.capacity := by
    unfold Recorder.remaining at hfits
    omega
  have hstore : recorder.region.store words.next vector =
      recorder.region.store (Region.dataOffset + recorder.cursor) vector := by
    rcases h.base_eq with hbase | hnone
    · rw [hnext, hbase]
    · obtain rfl : vector = [] := List.eq_nil_of_length_eq_zero (by omega)
      rfl
  refine ⟨_, if_pos (by rw [h.region_eq]; omega), ?_⟩
  refine ⟨?_, h.isEnabled_eq, h.expectedDims_eq, ?_, ?_⟩
  · exact (congrArg (Region.store · words.next vector) h.region_eq).trans hstore
  · change (recorder.region.store _ vector).size =
      words.base + (recorder.region.store _ vector).capacity
    rw [Region.size_store, Region.capacity_store, hsize]
  · change words.next + vector.length = words.base + (recorder.cursor + vector.length)
    omega

theorem Tracks.lengthFault?_eq (h : words.Tracks recorder) (vector : EncoderVector) :
    recorder.lengthFault? vector =
      (words.expectedDims.filter (vector.length ≠ ·)).map
        (RecordingFault.dimensionMismatch · vector.length) := by
  rw [Recorder.lengthFault?, ← h.expectedDims_eq]
  cases words.expectedDims with
  | none => rfl
  | some expected => by_cases hlength : vector.length = expected <;> simp [Option.filter, hlength]

theorem Tracks.exists_record?_eq_some (h : words.Tracks recorder) (vector : EncoderVector) :
    ∃ left, words.record? vector = some ((recorder.record vector).1, left) ∧
      left.Tracks (recorder.record vector).2 := by
  have hfault := h.lengthFault?_eq vector
  rw [record?, Recorder.record, h.isEnabled_eq, hfault, h.remaining_eq]
  split
  · cases words.expectedDims.filter (vector.length ≠ ·) with
    | some expected => exact ⟨words, rfl, h⟩
    | none =>
      by_cases hfits : vector.length ≤ recorder.remaining
      · obtain ⟨left, happend, hleft⟩ := h.exists_append?_eq_some hfits
        refine ⟨left, ?_, ?_⟩
        · simp [hfits, happend]
        · simpa [hfits] using hleft
      · exact ⟨words, by simp [hfits], by simpa [hfits] using h⟩
  · exact ⟨words, rfl, h⟩

/-- Vectors recorded in order have a result together, up to the first that is refused. -/
theorem Tracks.exists_recordEach?_eq_some (h : words.Tracks recorder)
    (vectors : List EncoderVector) :
    ∃ left, words.recordEach? vectors = some ((recorder.recordEach vectors).1, left) ∧
      left.Tracks (recorder.recordEach vectors).2 := by
  induction vectors generalizing words recorder with
  | nil => exact ⟨words, rfl, h⟩
  | cons vector rest ih =>
    obtain ⟨left, hrecord, hleft⟩ := h.exists_record?_eq_some vector
    cases hanswer : recorder.record vector with
    | mk outcome next =>
      rw [hanswer] at hrecord hleft
      rw [recordEach?, Recorder.recordEach, hrecord, hanswer]
      cases outcome with
      | error fault => exact ⟨left, rfl, hleft⟩
      | ok _ => exact ih hleft

/-- The step lemma: a call has a result, the same as for the recorder. -/
theorem Tracks.exists_answer?_eq_some (h : words.Tracks recorder) (call : Call) :
    ∃ left, words.answer? call = some ((recorder.answer call).1, left) ∧
      left.Tracks (recorder.answer call).2 := by
  cases call with
  | record vector => exact h.exists_record?_eq_some vector
  | reset =>
    obtain ⟨left, hreset, hleft⟩ := h.exists_reset?_eq_some
    exact ⟨left, by rw [answer?, hreset]; rfl, hleft⟩

/-- The run lemma: no call of any run is without a result. -/
theorem Tracks.exists_run?_eq_some (h : words.Tracks recorder) (calls : List Call) :
    ∃ left, words.run? calls = some ((recorder.run calls).1, left) ∧
      left.Tracks (recorder.run calls).2 := by
  induction calls generalizing words recorder with
  | nil => exact ⟨words, rfl, h⟩
  | cons call rest ih =>
    obtain ⟨left, hanswer, hleft⟩ := h.exists_answer?_eq_some call
    obtain ⟨last, hrest, hlast⟩ := ih hleft
    refine ⟨last, ?_, hlast⟩
    simp only [run?, hanswer, Option.bind_some, hrest, Option.map_some]
    rfl

end

theorem tracks_disabled : disabled.Tracks .disabled := ⟨rfl, rfl, rfl, rfl, rfl⟩

/-- A region is refused for the same reason, or taken with offsets that fit. -/
theorem attach_cases (region? : Option Region) (expectedDims : Option Nat) :
    (∃ fault, Recorder.attach region? expectedDims = .error fault ∧
        attach region? expectedDims = .error fault) ∨
      ∃ recorder words, Recorder.attach region? expectedDims = .ok recorder ∧
        attach region? expectedDims = .ok words ∧ words.Tracks recorder := by
  cases region? with
  | none => exact .inl ⟨_, rfl, rfl⟩
  | some region =>
    cases hflag : region.word? Region.flagOffset with
    | none =>
      left
      refine ⟨.regionTooSmall region.size, ?_, ?_⟩
      · simp only [Recorder.attach, Header.ofRegion, hflag]
      · simp only [attach, Header.ofRegion, hflag]
    | some flag =>
      right
      have hsize : region.size = Region.dataOffset + region.capacity := by
        have hwords := Region.size_ne_zero_of_flag hflag
        unfold Region.capacity Region.dataOffset Region.flagOffset
        omega
      refine ⟨_, ⟨region, flag != 0, Region.dataOffset, Region.dataOffset, expectedDims⟩,
        Recorder.attach_eq_ok expectedDims hflag, ?_, ⟨rfl, rfl, rfl, hsize, rfl⟩⟩
      simp only [attach, Header.ofRegion, hflag]

theorem exists_attach_eq_ok {region? : Option Region} {expectedDims : Option Nat}
    {recorder : Recorder} (h : Recorder.attach region? expectedDims = .ok recorder) :
    ∃ words, attach region? expectedDims = .ok words ∧ words.Tracks recorder := by
  rcases attach_cases region? expectedDims with
    ⟨fault, hrefused, -⟩ | ⟨other, words, htaken, hwords, htracks⟩
  · cases hrefused.symm.trans h
  · cases htaken.symm.trans h
    exact ⟨words, hwords, htracks⟩

theorem tracks_attachOrDisabled (region? : Option Region) (expectedDims : Option Nat) :
    (attachOrDisabled region? expectedDims).Tracks
      (Recorder.attachOrDisabled region? expectedDims) := by
  rcases attach_cases region? expectedDims with
    ⟨fault, hrefused, hwords⟩ | ⟨recorder, words, htaken, hwords, htracks⟩
  · simp only [attachOrDisabled, Recorder.attachOrDisabled, hrefused, hwords]
    exact tracks_disabled
  · simp only [attachOrDisabled, Recorder.attachOrDisabled, htaken, hwords]
    exact htracks

end WordRecorder

namespace Recorder

/-- The ways to come by a recorder. -/
inductive Origin
  | attach (region? : Option Region) (expectedDims : Option Nat)
  | attachOrDisabled (region? : Option Region) (expectedDims : Option Nat)
  | disabled
  | default
deriving DecidableEq

def Origin.recorder : Origin → Except RecordingFault Recorder
  | attach region? expectedDims => Recorder.attach region? expectedDims
  | attachOrDisabled region? expectedDims => .ok (Recorder.attachOrDisabled region? expectedDims)
  | disabled => .ok Recorder.disabled
  | default => .ok Inhabited.default

def Origin.wordRecorder : Origin → Except RecordingFault WordRecorder
  | attach region? expectedDims => WordRecorder.attach region? expectedDims
  | attachOrDisabled region? expectedDims =>
    .ok (WordRecorder.attachOrDisabled region? expectedDims)
  | disabled | default => .ok WordRecorder.disabled

theorem Origin.exists_wordRecorder_eq_ok {origin : Origin} {recorder : Recorder}
    (h : origin.recorder = .ok recorder) :
    ∃ words, origin.wordRecorder = .ok words ∧ words.Tracks recorder := by
  cases origin with
  | attach region? expectedDims => exact WordRecorder.exists_attach_eq_ok h
  | attachOrDisabled region? expectedDims =>
    cases h
    exact ⟨_, rfl, WordRecorder.tracks_attachOrDisabled region? expectedDims⟩
  | disabled | default =>
    cases h
    exact ⟨_, rfl, WordRecorder.tracks_disabled⟩

theorem cursor_add_remaining (recorder : Recorder) :
    recorder.cursor + recorder.remaining = recorder.region.capacity :=
  Nat.add_sub_cancel' recorder.cursor_le_capacity

theorem record_eq_dimensionMismatch {recorder : Recorder} {vector : EncoderVector} {dims : Nat}
    (henabled : recorder.isEnabled = true) (hexpected : recorder.expectedDims = some dims)
    (hlength : vector.length ≠ dims) :
    recorder.record vector = (.error (.dimensionMismatch dims vector.length), recorder) := by
  have hfault : recorder.lengthFault? vector = some (.dimensionMismatch dims vector.length) := by
    rw [lengthFault?, hexpected, Option.bind_some, if_neg hlength]
  rw [record, if_pos henabled, hfault]

theorem lengthFault?_eq_none_of_forall {recorder : Recorder} {vector : EncoderVector}
    (h : ∀ dims, recorder.expectedDims = some dims → vector.length = dims) :
    recorder.lengthFault? vector = none := by
  apply lengthFault?_eq_none _ rfl
  cases hexpected : recorder.expectedDims with
  | none => exact .inl rfl
  | some dims => exact .inr (congrArg some (h dims hexpected).symm)

/-- An accepted vector takes up the words behind the elements recorded before, and no others. -/
theorem word?_data_append (recorder : Recorder) {vector : EncoderVector}
    (hfits : vector.length ≤ recorder.remaining) (i : Nat) :
    (recorder.append vector hfits).region.word? (Region.dataOffset + i) =
      if recorder.cursor ≤ i ∧ i < recorder.cursor + vector.length then
        vector[i - recorder.cursor]?.map Fixed.toWord
      else recorder.region.word? (Region.dataOffset + i) := by
  apply Region.word?_data_store
  rw [← recorder.cursor_add_remaining]
  exact Nat.add_le_add_left hfits _

/-- Every run has a result, also on a core that computes with offsets, and leaves a recorder whose
position and room make up its capacity.  A recorder that records then refuses a vector of the wrong
length, whether or not it would fit, and one for which there is no room, and stays as it is.  It
accepts every other vector, and only the words behind its old position change. -/
theorem answers_in_every_state {origin : Origin} {recorder : Recorder}
    (horigin : origin.recorder = .ok recorder) (calls : List Call) :
    let left := (recorder.run calls).2
    let capacity := left.region.capacity
    (∃ words last, origin.wordRecorder = .ok words ∧
      words.run? calls = some ((recorder.run calls).1, last) ∧ last.region = left.region ∧
      last.cursor? = some left.cursor ∧ last.recorded? = some left.recorded.toArray ∧
      last.remaining = left.remaining) ∧
    capacity = recorder.region.capacity ∧ left.cursor + left.remaining = capacity ∧
    ∀ vector : EncoderVector, left.isEnabled = true →
      (∀ dims, left.expectedDims = some dims → vector.length ≠ dims →
        left.record vector = (.error (.dimensionMismatch dims vector.length), left)) ∧
      ((∀ dims, left.expectedDims = some dims → vector.length = dims) →
        (capacity - left.cursor < vector.length →
          left.record vector =
            (.error (.capacityExceeded vector.length (capacity - left.cursor)), left)) ∧
        (vector.length ≤ capacity - left.cursor →
          ∃ after, left.record vector = (.ok (), after) ∧ SameSetup left after ∧
            after.cursor = left.cursor + vector.length ∧
            ∀ i, after.region.word? (Region.dataOffset + i) =
              if left.cursor ≤ i ∧ i < left.cursor + vector.length then
                vector[i - left.cursor]?.map Fixed.toWord
              else left.region.word? (Region.dataOffset + i))) := by
  intro left capacity
  obtain ⟨words, hwords, htracks⟩ := Origin.exists_wordRecorder_eq_ok horigin
  obtain ⟨last, hrun, hlast⟩ := htracks.exists_run?_eq_some calls
  have hcapacity : capacity = recorder.region.capacity := by
    have hsize := (sameSetup_run recorder calls).size_eq
    exact congrArg (· - Region.dataOffset) hsize
  refine ⟨⟨words, last, hwords, hrun, hlast.region_eq, hlast.cursor?_eq, hlast.recorded?_eq,
    hlast.remaining_eq⟩, hcapacity, left.cursor_add_remaining, ?_⟩
  intro vector henabled
  refine ⟨fun dims ↦ record_eq_dimensionMismatch henabled, ?_⟩
  intro hlength
  have hfault := lengthFault?_eq_none_of_forall hlength
  refine ⟨?_, ?_⟩
  · intro hfull
    exact record_eq_capacityExceeded henabled hfault (Nat.not_le_of_lt hfull)
  · intro hfits
    exact ⟨left.append vector hfits, record_eq_append henabled hfault hfits,
      sameSetup_append left hfits, rfl, word?_data_append left hfits⟩

/-- Two elements are recorded in a region for three.  Vectors of the wrong length are refused for
it, also where they would not fit, and one of the right length for the room; after a reset it is
accepted, and the third element stays what it was. -/
theorem answers_in_every_state_of_three_words :
    ∃ recorder : Recorder,
      (Origin.attach (some ⟨⟨0x1ffc⟩, #[1, 7, 8, 9], by decide⟩) (some 2)).recorder = .ok recorder ∧
      let left := (recorder.run [.record [⟨4⟩, ⟨5⟩]]).2
      let again := (recorder.run [.record [⟨4⟩, ⟨5⟩], .reset]).2
      left.isEnabled = true ∧ left.cursor + left.remaining = 3 ∧
        left.record [⟨1⟩] = (.error (.dimensionMismatch 2 1), left) ∧
        left.record [⟨1⟩, ⟨2⟩, ⟨3⟩] = (.error (.dimensionMismatch 2 3), left) ∧
        left.record [⟨1⟩, ⟨2⟩] = (.error (.capacityExceeded 2 1), left) ∧
        ∃ after, again.record [⟨1⟩, ⟨-1⟩] = (.ok (), after) ∧ after.cursor = 2 ∧
          after.region.word? 2 = some 0xffffffff ∧ after.region.word? 3 = some 9 := by
  let region : Region := ⟨⟨0x1ffc⟩, #[1, 7, 8, 9], by decide⟩
  have horigin : (Origin.attach (some region) (some 2)).recorder =
      .ok ⟨region, true, 0, some 2, Nat.zero_le _⟩ := rfl
  obtain ⟨-, -, hroom, houtcome⟩ := answers_in_every_state horigin [.record [⟨4⟩, ⟨5⟩]]
  obtain ⟨-, -, -, hagain⟩ := answers_in_every_state horigin [.record [⟨4⟩, ⟨5⟩], .reset]
  have htold : ∀ dims, some 2 = some dims → 2 = dims := fun _ hdims ↦ Option.some.inj hdims
  refine ⟨_, horigin, rfl, hroom, ?_, ?_, ?_, ?_⟩
  · exact (houtcome [⟨1⟩] rfl).1 2 rfl (by decide)
  · exact (houtcome [⟨1⟩, ⟨2⟩, ⟨3⟩] rfl).1 2 rfl (by decide)
  · exact ((houtcome [⟨1⟩, ⟨2⟩] rfl).2 htold).1 (by decide)
  · obtain ⟨after, haccepted, -, hcursor, hwords⟩ :=
      ((hagain [⟨1⟩, ⟨-1⟩] rfl).2 htold).2 (by decide)
    exact ⟨after, haccepted, hcursor, (hwords 1).trans (by decide), (hwords 2).trans (by decide)⟩

end Recorder

end EnsembleRecording
