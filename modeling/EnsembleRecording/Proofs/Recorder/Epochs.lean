import EnsembleRecording.Proofs.Recorder.Append

/-!
# Epochs of a Run

The resets of a run divide it into epochs.  What is recorded is what the calls of the last epoch
have been accepted with, and a region is all epochs laid over one another: a data word holds what
the latest epoch to reach it put there, so that elements of an earlier and longer epoch show behind
the later ones, and the region's own contents behind all of them.
-/

namespace EnsembleRecording

namespace Recorder

def Event.isReset : Event → Bool
  | ⟨.reset, _⟩ => true
  | ⟨.record _, _⟩ => false

/-- The elements of a vector that was recorded without a fault. -/
def Event.accepted : Event → List Fixed
  | ⟨.record vector, .ok _⟩ => vector
  | _ => []

/-- The elements accepted between one reset and the next, for each epoch in order.  The last epoch
is still under way. -/
def epochs (events : List Event) : List (List Fixed) :=
  (events.splitOnP Event.isReset).map fun epoch ↦ epoch.flatMap Event.accepted

/-- The element at a position of the latest epoch that got so far. -/
def latest? (epochs : List (List Fixed)) (position : Nat) : Option Fixed :=
  epochs.reverse.findSome? fun epoch ↦ epoch[position]?

theorem latest?_concat (earlier : List (List Fixed)) (current : List Fixed) (position : Nat) :
    latest? (earlier ++ [current]) position = current[position]?.or (latest? earlier position) := by
  rw [latest?, List.reverse_append, List.reverse_singleton, List.singleton_append,
    List.findSome?_cons]
  cases current[position]? <;> rfl

theorem epochs_cons (event : Event) (rest : List Event) :
    epochs (event :: rest) =
      if event.isReset then [] :: epochs rest
      else (epochs rest).modifyHead (event.accepted ++ ·) := by
  obtain ⟨first, later, hsplit⟩ := List.exists_cons_of_ne_nil
    (List.splitOnP_ne_nil Event.isReset rest)
  rw [epochs, List.splitOnP_cons_eq_if_modifyHead, epochs, hsplit]
  split
  · rfl
  · simp only [List.modifyHead_cons, List.map_cons, List.flatMap_cons]

theorem epochs_ne_nil (events : List Event) : epochs events ≠ [] := by
  intro hnil
  exact List.splitOnP_ne_nil Event.isReset events (List.map_eq_nil_iff.1 hnil)

theorem exists_epochs_eq_concat (events : List Event) :
    ∃ earlier current, epochs events = earlier ++ [current] := by
  refine ⟨(epochs events).dropLast, (epochs events).getLast (epochs_ne_nil events), ?_⟩
  exact (List.dropLast_concat_getLast _).symm

/-- A reset begins an empty epoch. -/
theorem epochs_concat_reset (events : List Event) (outcome : Except RecordingFault Unit) :
    epochs (events ++ [⟨.reset, outcome⟩]) = epochs events ++ [[]] := by
  have hreset : Event.isReset ⟨.reset, outcome⟩ = true := rfl
  rw [epochs, List.splitOnP_append_cons events [] hreset, List.map_append]
  rfl

/-- A vector continues the epoch under way. -/
theorem epochs_concat_record {events : List Event} {earlier : List (List Fixed)}
    {current : List Fixed} (h : epochs events = earlier ++ [current]) (vector : EncoderVector)
    (outcome : Except RecordingFault Unit) :
    epochs (events ++ [⟨.record vector, outcome⟩]) =
      earlier ++ [current ++ Event.accepted ⟨.record vector, outcome⟩] := by
  induction events generalizing earlier current with
  | nil =>
    have hbegin : [] ++ [[]] = earlier ++ [current] := h
    obtain ⟨rfl, rfl⟩ := List.append_singleton_inj.1 hbegin
    rw [List.nil_append, epochs_cons, h]
    simp [Event.isReset]
  | cons event rest ih =>
    obtain ⟨front, last, hrest⟩ := exists_epochs_eq_concat rest
    have hlater := ih hrest
    rw [epochs_cons, hrest] at h
    rw [List.cons_append, epochs_cons, hlater]
    split at h
    · next hreset =>
      have hfirst : ([] :: front) ++ [last] = earlier ++ [current] := h
      obtain ⟨rfl, rfl⟩ := List.append_singleton_inj.1 hfirst
      rw [if_pos hreset, List.cons_append]
    · next hreset =>
      rw [if_neg hreset]
      cases front with
      | nil =>
        have hfirst : [] ++ [event.accepted ++ last] = earlier ++ [current] := h
        obtain ⟨rfl, rfl⟩ := List.append_singleton_inj.1 hfirst
        simp only [List.nil_append, List.modifyHead_cons, List.append_assoc]
      | cons first front =>
        have hfirst : ((event.accepted ++ first) :: front) ++ [last] = earlier ++ [current] := h
        obtain ⟨rfl, rfl⟩ := List.append_singleton_inj.1 hfirst
        rfl

/-- The recorder has gone through some epochs on a region and is now in the current one. -/
structure Represents (region : Region) (earlier : List (List Fixed)) (current : List Fixed)
    (recorder : Recorder) : Prop where
  isEnabled_eq : recorder.isEnabled = true
  capacity_eq : recorder.region.capacity = region.capacity
  cursor_eq : recorder.cursor = current.length
  word?_eq : ∀ position < region.capacity,
    recorder.region.word? (Region.dataOffset + position) =
      ((latest? (earlier ++ [current]) position).map Fixed.toWord).or
        (region.word? (Region.dataOffset + position))

section

variable {region : Region} {earlier : List (List Fixed)} {current : List Fixed}
  {recorder : Recorder}

theorem Represents.recorded_eq (h : Represents region earlier current recorder) :
    recorder.recorded = current := by
  apply List.ext_getElem?
  intro position
  by_cases hposition : position < recorder.cursor
  · have hcapacity : position < region.capacity := by
      have hcursor := recorder.cursor_le_capacity
      rw [h.capacity_eq] at hcursor
      omega
    have hcurrent : position < current.length := h.cursor_eq ▸ hposition
    rw [getElem?_recorded recorder hposition, h.word?_eq position hcapacity, latest?_concat,
      List.getElem?_eq_getElem hcurrent]
    rfl
  · have hrecorded := length_recorded recorder
    have hcursor := h.cursor_eq
    rw [List.getElem?_eq_none (by omega), List.getElem?_eq_none (by omega)]

/-- What is current becomes the latest of the earlier epochs, and no word changes. -/
theorem Represents.reset (h : Represents region earlier current recorder) :
    Represents region (earlier ++ [current]) [] recorder.reset where
  isEnabled_eq := h.isEnabled_eq
  capacity_eq := h.capacity_eq
  cursor_eq := rfl
  word?_eq := by
    intro position hposition
    rw [latest?_concat, List.getElem?_nil, Option.none_or]
    exact h.word?_eq position hposition

theorem Represents.append (h : Represents region earlier current recorder)
    {vector : EncoderVector} (hfits : vector.length ≤ recorder.remaining) :
    Represents region earlier (current ++ vector) (recorder.append vector hfits) where
  isEnabled_eq := h.isEnabled_eq
  capacity_eq := (Region.capacity_store _ _ _).trans h.capacity_eq
  cursor_eq := by
    rw [List.length_append, ← h.cursor_eq]
    rfl
  word?_eq := by
    intro position hposition
    have hwhole : recorder.cursor + vector.length ≤ recorder.region.capacity := by
      have hcursor := recorder.cursor_le_capacity
      unfold remaining at hfits
      omega
    have hstore := Region.word?_data_store hwhole position
    have hbefore := h.word?_eq position hposition
    have hcursor := h.cursor_eq
    change (recorder.region.store (Region.dataOffset + recorder.cursor) vector).word? _ = _
    rw [hstore, latest?_concat]
    rw [latest?_concat] at hbefore
    by_cases hwritten : recorder.cursor ≤ position ∧ position < recorder.cursor + vector.length
    · have helement : position - current.length < vector.length := by omega
      rw [if_pos hwritten, List.getElem?_append_right (by omega), hcursor,
        List.getElem?_eq_getElem helement]
      rfl
    · rw [if_neg hwritten, hbefore]
      by_cases hcurrent : position < current.length
      · rw [List.getElem?_append_left hcurrent]
      · rw [List.getElem?_eq_none (show current.length ≤ position by omega),
          List.getElem?_eq_none (show (current ++ vector).length ≤ position by
            rw [List.length_append]
            omega)]

theorem Represents.record (h : Represents region earlier current recorder)
    (vector : EncoderVector) :
    Represents region earlier
      (current ++ Event.accepted ⟨.record vector, (recorder.record vector).1⟩)
      (recorder.record vector).2 := by
  rcases record_cases h.isEnabled_eq vector with ⟨fault, hrefused⟩ | ⟨hfits, happended⟩
  · rw [hrefused]
    simpa only [Event.accepted, List.append_nil] using h
  · rw [happended]
    exact h.append hfits

/-- The run lemma: the recorder follows the epochs of all events so far, those before the run
included. -/
theorem Represents.run {past : List Event} (hpast : epochs past = earlier ++ [current])
    (h : Represents region earlier current recorder) (calls : List Call) :
    ∃ earlier' current', epochs (past ++ (recorder.run calls).1) = earlier' ++ [current'] ∧
      Represents region earlier' current' (recorder.run calls).2 := by
  refine run_preserves (motive := fun past recorder ↦
    ∃ earlier current, epochs past = earlier ++ [current] ∧
      Represents region earlier current recorder) ?_ ⟨earlier, current, hpast, h⟩
  rintro past recorder ⟨earlier, current, hpast, h⟩ call -
  cases call with
  | record vector => exact ⟨earlier, _, epochs_concat_record hpast vector _, h.record vector⟩
  | reset =>
    refine ⟨earlier ++ [current], [], ?_, h.reset⟩
    rw [← hpast]
    exact epochs_concat_reset past _

end

/-- A recorder that has just taken its region is in an empty first epoch. -/
theorem represents_of_attach {region : Region} {flag : UInt32} {expectedDims : Option Nat}
    {recorder : Recorder} (hflag : region.word? Region.flagOffset = some flag)
    (hrecords : flag ≠ 0) (hattach : attach (some region) expectedDims = .ok recorder) :
    recorder.region = region ∧ Represents region [] [] recorder := by
  cases (attach_eq_ok expectedDims hflag).symm.trans hattach
  refine ⟨rfl, bne_iff_ne.2 hrecords, rfl, rfl, ?_⟩
  intro position _
  rfl

/-- Any run on a region whose flag enables recording.  What is recorded is the last epoch; the
region keeps its place, its size and its flag; and each data word holds what the latest epoch to
reach it put there, or what it held before the run where none did. -/
theorem run_overlays_epochs {region : Region} {flag : UInt32}
    (hflag : region.word? Region.flagOffset = some flag) (hrecords : flag ≠ 0)
    (expectedDims : Option Nat) (calls : List Call) :
    ∃ recorder, attach (some region) expectedDims = .ok recorder ∧
      let events := (recorder.run calls).1
      let left := (recorder.run calls).2
      (epochs events).getLast? = some left.recorded ∧
        left.cursor = left.recorded.length ∧
        left.region.address = region.address ∧
        left.region.size = region.size ∧
        left.region.word? Region.flagOffset = some flag ∧
        ∀ position < region.capacity,
          left.region.word? (Region.dataOffset + position) =
            match latest? (epochs events) position with
            | some element => some element.toWord
            | none => region.word? (Region.dataOffset + position) := by
  obtain ⟨recorder, hattach⟩ : ∃ recorder, attach (some region) expectedDims = .ok recorder :=
    ⟨_, attach_eq_ok expectedDims hflag⟩
  obtain ⟨rfl, hstart⟩ := represents_of_attach hflag hrecords hattach
  have hnone : epochs [] = [] ++ [[]] := rfl
  obtain ⟨earlier, current, hepochs, hleft⟩ := hstart.run hnone calls
  have hsetup := sameSetup_run recorder calls
  rw [List.nil_append] at hepochs
  refine ⟨recorder, hattach, ?_⟩
  intro events left
  refine ⟨?_, (length_recorded left).symm, hsetup.address_eq, hsetup.size_eq,
    hsetup.flag_eq.trans hflag, ?_⟩
  · rw [hepochs, List.getLast?_concat, hleft.recorded_eq]
  · intro position hposition
    rw [hleft.word?_eq position hposition, ← hepochs]
    cases latest? (epochs events) position <;> rfl

/-- Two elements are recorded, two more are refused, and after a reset another one is recorded.
Behind it stands what is left of the first epoch, and then what the region held before. -/
theorem run_overlays_epochs_refused_and_reset :
    ∃ region : Region, region.words = #[1, 7, 8, 9] ∧
      region.word? Region.flagOffset = some 1 ∧ (1 : UInt32) ≠ 0 ∧
      ∃ recorder, attach (some region) none = .ok recorder ∧
        let left := (recorder.run
          [.record [⟨4⟩, ⟨5⟩], .record [⟨6⟩, ⟨7⟩], .reset, .record [⟨-1⟩]]).2
        some left.recorded = some [⟨-1⟩] ∧
          left.region.word? 1 = some 0xffffffff ∧ left.region.word? 2 = some 5 ∧
          left.region.word? 3 = some 9 := by
  let region : Region := ⟨⟨0x1ffc⟩, #[1, 7, 8, 9], by decide⟩
  have hflag : region.word? Region.flagOffset = some 1 := rfl
  obtain ⟨recorder, hattach, hlast, -, -, -, -, hword⟩ := run_overlays_epochs hflag (by decide)
    none [.record [⟨4⟩, ⟨5⟩], .record [⟨6⟩, ⟨7⟩], .reset, .record [⟨-1⟩]]
  refine ⟨region, rfl, hflag, by decide, recorder, hattach, ?_⟩
  cases (attach_eq_ok none hflag).symm.trans hattach
  refine ⟨hlast.symm.trans ?_, (hword 0 ?_).trans ?_, (hword 1 ?_).trans ?_, (hword 2 ?_).trans ?_⟩
  all_goals decide

end Recorder

end EnsembleRecording
