import EnsembleRecording.Proofs.Recorder.Append
import EnsembleRecording.Proofs.Transfer.Delivered

/-!
# Taking a Region

A recorder that was given no region, one without a flag or one whose flag is zero does not record.
It lets any run go on: it accepts whatever it is handed and gives its region back as it took it.

A region that comes back from a run can be taken for the next one.  The recorder is then as if it
had kept the region and been reset: its settings are read from the header, the header from the flag
and the size, and no run changes these.
-/

namespace EnsembleRecording

theorem Region.size_ne_zero_of_flag {region : Region} {flag : UInt32}
    (hflag : region.word? flagOffset = some flag) : region.size ≠ 0 :=
  Nat.ne_of_gt (Array.getElem?_eq_some_iff.1 hflag).1

namespace Recorder

section

variable {region : Region} (expectedDims : Option Nat)

theorem attachOrDisabled_of_flag {flag : UInt32}
    (hflag : region.word? Region.flagOffset = some flag) :
    attachOrDisabled (some region) expectedDims =
      ⟨region, flag != 0, 0, expectedDims, Nat.zero_le _⟩ := by
  rw [attachOrDisabled, attach_eq_ok expectedDims hflag]

theorem attachOrDisabled_of_no_flag (hflag : region.word? Region.flagOffset = none) :
    attachOrDisabled (some region) expectedDims = disabled := by
  simp only [attachOrDisabled, attach, Header.ofRegion, hflag]

end

/-- A recorder is the disabled one, or it has a region with a flag and goes by that flag. -/
theorem attachOrDisabled_cases (region? : Option Region) (expectedDims : Option Nat) :
    ((∀ region, region? = some region → region.size = 0) ∧
        attachOrDisabled region? expectedDims = disabled) ∨
      ∃ region flag, region? = some region ∧ region.word? Region.flagOffset = some flag ∧
        attachOrDisabled region? expectedDims =
          ⟨region, flag != 0, 0, expectedDims, Nat.zero_le _⟩ := by
  cases region? with
  | none => exact .inl ⟨nofun, rfl⟩
  | some region =>
    cases hflag : region.word? Region.flagOffset with
    | none =>
      refine .inl ⟨?_, attachOrDisabled_of_no_flag expectedDims hflag⟩
      intro other hother
      cases hother
      exact Nat.le_zero.1 (Array.getElem?_eq_none_iff.1 hflag)
    | some flag =>
      exact .inr ⟨region, flag, rfl, hflag, attachOrDisabled_of_flag expectedDims hflag⟩

theorem cursor_attachOrDisabled (region? : Option Region) (expectedDims : Option Nat) :
    (attachOrDisabled region? expectedDims).cursor = 0 := by
  rcases attachOrDisabled_cases region? expectedDims with ⟨-, hrecorder⟩ | ⟨_, _, -, -, hrecorder⟩
  · rw [hrecorder]
    rfl
  · rw [hrecorder]

theorem isEnabled_attachOrDisabled_iff {region? : Option Region} {expectedDims : Option Nat} :
    (attachOrDisabled region? expectedDims).isEnabled = true ↔
      ∃ region flag, region? = some region ∧
        region.word? Region.flagOffset = some flag ∧ flag ≠ 0 := by
  rcases attachOrDisabled_cases region? expectedDims with
    ⟨hnone, hrecorder⟩ | ⟨region, flag, rfl, hflag, hrecorder⟩
  · rw [hrecorder]
    constructor
    · intro hdisabled
      contradiction
    · rintro ⟨region, flag, hregion, hflag, -⟩
      exact absurd (hnone region hregion) (Region.size_ne_zero_of_flag hflag)
  · rw [hrecorder]
    constructor
    · intro hrecords
      exact ⟨region, flag, rfl, hflag, bne_iff_ne.1 hrecords⟩
    · rintro ⟨_, _, hregion, hother, hrecords⟩
      cases hregion
      cases hflag.symm.trans hother
      exact bne_iff_ne.2 hrecords

/-- The region of a recorder is the one it was given, unless that has no words. -/
theorem region_attachOrDisabled {region : Region} (hsize : region.size ≠ 0)
    (expectedDims : Option Nat) :
    (attachOrDisabled (some region) expectedDims).region = region := by
  rcases attachOrDisabled_cases (some region) expectedDims with
    ⟨hnone, -⟩ | ⟨_, _, hregion, -, hrecorder⟩
  · exact absurd (hnone region rfl) hsize
  · cases hregion
    rw [hrecorder]

theorem region_attachOrDisabled_of_no_words {region? : Option Region}
    (hnone : ∀ region, region? = some region → region.size = 0) (expectedDims : Option Nat) :
    (attachOrDisabled region? expectedDims).region = .empty := by
  rcases attachOrDisabled_cases region? expectedDims with
    ⟨-, hrecorder⟩ | ⟨region, flag, hregion, hflag, -⟩
  · rw [hrecorder]
    rfl
  · exact absurd (hnone region hregion) (Region.size_ne_zero_of_flag hflag)

/-- The recorder does not record and has not moved. -/
structure IsIdle (recorder : Recorder) : Prop where
  isEnabled_eq : recorder.isEnabled = false
  cursor_eq : recorder.cursor = 0

theorem IsIdle.recorded_eq {recorder : Recorder} (h : recorder.IsIdle) : recorder.recorded = [] :=
  List.eq_nil_of_length_eq_zero (recorder.length_recorded.trans h.cursor_eq)

/-- The step lemma: nothing comes of a call. -/
theorem IsIdle.answer {recorder : Recorder} (h : recorder.IsIdle) (call : Call) :
    recorder.answer call = (.ok (), recorder) := by
  cases call with
  | record vector => exact record_of_not_isEnabled h.isEnabled_eq vector
  | reset =>
    obtain ⟨region, isEnabled, cursor, expectedDims, hcursor⟩ := recorder
    obtain rfl : cursor = 0 := h.cursor_eq
    rfl

/-- The run lemma: every call is accepted, and the recorder is left as it was. -/
theorem IsIdle.run {recorder : Recorder} (h : recorder.IsIdle) (calls : List Call) :
    recorder.run calls = (calls.map fun call ↦ ⟨call, .ok ()⟩, recorder) := by
  induction calls with
  | nil => rfl
  | cons call rest ih => rw [Recorder.run, event, h.answer, ih, List.map_cons]

/-- A run records exactly when there is a region with a flag that is not zero.  Without one, every
vector of any length is accepted, nothing is ever recorded, and the region comes back word for word.
Where there was none, or one without words, it is the empty region that comes back. -/
theorem attachOrDisabled_records_or_is_idle (region? : Option Region) (expectedDims : Option Nat) :
    let recorder := attachOrDisabled region? expectedDims
    (recorder.isEnabled = true ↔ ∃ region flag, region? = some region ∧
      region.word? Region.flagOffset = some flag ∧ flag ≠ 0) ∧
    (recorder.isEnabled = false → ∀ calls : List Call,
      let left := (recorder.run calls).2
      (recorder.run calls).1 = (calls.map fun call ↦ ⟨call, .ok ()⟩) ∧
        left.isEnabled = false ∧ left.cursor = 0 ∧ left.recorded = [] ∧
        (∀ region, region? = some region → region.size ≠ 0 → left.region = region) ∧
        ((∀ region, region? = some region → region.size = 0) → left.region = .empty)) := by
  intro recorder
  refine ⟨isEnabled_attachOrDisabled_iff, ?_⟩
  intro hdisabled calls left
  have hidle : recorder.IsIdle := ⟨hdisabled, cursor_attachOrDisabled region? expectedDims⟩
  have hrun := hidle.run calls
  have hleft : left = recorder := congrArg Prod.snd hrun
  rw [hleft]
  refine ⟨congrArg Prod.fst hrun, hdisabled, hidle.cursor_eq, hidle.recorded_eq, ?_, ?_⟩
  · rintro region rfl hsize
    exact region_attachOrDisabled hsize expectedDims
  · intro hnone
    exact region_attachOrDisabled_of_no_words hnone expectedDims

/-- A region whose flag is zero comes back as it was from a run that hands over too many elements
and vectors of the wrong length, and an empty region comes back where there was none. -/
theorem attachOrDisabled_records_or_is_idle_of_zero_flag :
    let region : Region := ⟨⟨0x1ffc⟩, #[0, 1, 2], by decide⟩
    let calls : List Call := [.record [⟨4⟩, ⟨5⟩, ⟨6⟩], .reset, .record [⟨7⟩]]
    let flagged := attachOrDisabled (some region) (some 2)
    let missing := attachOrDisabled none (some 2)
    flagged.isEnabled = false ∧ missing.isEnabled = false ∧
      (flagged.run calls).1 = (calls.map fun call ↦ ⟨call, .ok ()⟩) ∧
      (flagged.run calls).2.region = region ∧ (missing.run calls).2.region = .empty := by
  intro region calls flagged missing
  have hflagged : flagged.isEnabled = false := rfl
  have hmissing : missing.isEnabled = false := rfl
  obtain ⟨hevents, -, -, -, hregion, -⟩ :=
    (attachOrDisabled_records_or_is_idle (some region) (some 2)).2 hflagged calls
  obtain ⟨-, -, -, -, -, hempty⟩ :=
    (attachOrDisabled_records_or_is_idle none (some 2)).2 hmissing calls
  exact ⟨hflagged, hmissing, hevents, hregion region rfl (by decide), hempty nofun⟩

theorem attach_eq_ok_iff {region : Region} {expectedDims : Option Nat} {recorder : Recorder} :
    attach (some region) expectedDims = .ok recorder ↔
      ∃ header, Header.ofRegion region = .ok header ∧
        recorder = ⟨region, header.isEnabled, 0, expectedDims, Nat.zero_le _⟩ := by
  cases hheader : Header.ofRegion region with
  | error fault => simp [attach, hheader]
  | ok header => simp [attach, hheader, eq_comm]

section

variable {before after : Recorder} (h : SameSetup before after)

include h

theorem SameSetup.header_eq : Header.ofRegion after.region = Header.ofRegion before.region := by
  have hcapacity : after.region.capacity = before.region.capacity := by
    rw [Region.capacity, h.size_eq, Region.capacity]
  rw [Header.ofRegion, h.flag_eq, h.size_eq, hcapacity, Header.ofRegion]

theorem SameSetup.dataAddress?_eq : after.dataAddress? = before.dataAddress? := by
  have hempty : after.region.isEmpty = before.region.isEmpty := by
    have hsize : after.region.words.size = before.region.words.size := h.size_eq
    simp only [Region.isEmpty, Array.isEmpty, hsize]
  simp only [dataAddress?, elementAddress?, hempty, Region.addressOf?, h.address_eq]

/-- A recorder takes a region that is set up like its own as if it were reset on it. -/
theorem SameSetup.attach_eq_reset {region : Region} {expectedDims : Option Nat}
    (hattach : attach (some region) expectedDims = .ok before) :
    attach (some after.region) expectedDims = .ok after.reset := by
  obtain ⟨header, hheader, rfl⟩ := attach_eq_ok_iff.1 hattach
  refine attach_eq_ok_iff.2 ⟨header, h.header_eq.trans hheader, ?_⟩
  have hisEnabled : after.isEnabled = header.isEnabled := h.isEnabled_eq
  have hexpectedDims : after.expectedDims = expectedDims := h.expectedDims_eq
  rw [reset, ← hisEnabled, ← hexpectedDims]

end

/-- Whatever was recorded, refused or reset, taking the region that a run gives back is resetting
the recorder, and so it is for the region as it arrives at the other end of a stream.  No run
changes whether the recorder records, the flag, the header or the place of the data. -/
theorem attach_region_of_run {region : Region} {expectedDims : Option Nat} {recorder : Recorder}
    (hattach : attach (some region) expectedDims = .ok recorder) (calls : List Call) :
    let left := (recorder.run calls).2
    attach (some left.region) expectedDims = .ok left.reset ∧
      (∃ received, left.region.transfer left.region.address left.region.size = .ok received ∧
        attach (some received) expectedDims = .ok left.reset) ∧
      left.isEnabled = recorder.isEnabled ∧
      left.region.word? Region.flagOffset = region.word? Region.flagOffset ∧
      Header.ofRegion left.region = Header.ofRegion region ∧
      left.dataAddress? = recorder.dataAddress? := by
  intro left
  have hsetup : SameSetup recorder left := sameSetup_run recorder calls
  have hagain := hsetup.attach_eq_reset hattach
  obtain ⟨header, -, hrecorder⟩ := attach_eq_ok_iff.1 hattach
  have hregion : recorder.region = region := congrArg Recorder.region hrecorder
  refine ⟨hagain, ⟨left.region, left.region.transfer_eq_ok, hagain⟩, hsetup.isEnabled_eq, ?_, ?_,
    hsetup.dataAddress?_eq⟩
  · rw [hsetup.flag_eq, hregion]
  · rw [hsetup.header_eq, hregion]

/-- A vector is recorded, one of the wrong length and one too many are refused, and after a reset
another one is recorded.  Taken again, the region has nothing recorded and all its words. -/
theorem attach_region_of_run_refused_and_reset :
    ∃ region recorder, region.words = #[7, 1, 2, 3] ∧
      attach (some region) (some 2) = .ok recorder ∧
      let left := (recorder.run
        [.record [⟨4⟩, ⟨5⟩], .record [⟨6⟩], .record [⟨7⟩, ⟨8⟩], .reset, .record [⟨9⟩, ⟨-1⟩]]).2
      left.region.words = #[7, 9, 0xffffffff, 3] ∧ left.cursor = 2 ∧
        attach (some left.region) (some 2) = .ok left.reset ∧
        Header.ofRegion left.region = .ok ⟨true, 3⟩ := by
  let region : Region := ⟨⟨0x1ffc⟩, #[7, 1, 2, 3], by decide⟩
  have hattach : attach (some region) (some 2) = .ok ⟨region, true, 0, some 2, Nat.zero_le _⟩ := rfl
  obtain ⟨hagain, -, -, -, hheader, -⟩ := attach_region_of_run hattach
    [.record [⟨4⟩, ⟨5⟩], .record [⟨6⟩], .record [⟨7⟩, ⟨8⟩], .reset, .record [⟨9⟩, ⟨-1⟩]]
  refine ⟨region, _, rfl, hattach, ?_, ?_, hagain, hheader⟩
  · decide
  · decide

end Recorder

end EnsembleRecording
