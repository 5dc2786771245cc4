import EnsembleRecording.Recorder

/-!
# Appending to a Recorder

What one call of a recorder does to the words of its region.  An accepted vector goes behind the
elements recorded so far and changes no other word; a refused one changes nothing.  Vectors that
are all accepted leave the same recorder as their elements written in one piece.

A run makes any calls in any order and goes on after those that fail.  Its events are the calls
with what came of them.  Whatever the calls, the recorder keeps its settings, the place and size of
its region and the word that enables it.
-/

namespace EnsembleRecording

namespace Region

theorem store_append (region : Region) (offset : Nat) (front back : EncoderVector) :
    region.store offset (front ++ back) =
      (region.store offset front).store (offset + front.length) back := by
  simp only [store, List.map_append, overwrite_append, List.length_map]

theorem word?_flag_store (region : Region) (position : Nat) (vector : EncoderVector) :
    (region.store (dataOffset + position) vector).word? flagOffset = region.word? flagOffset := by
  have hbefore : ¬(dataOffset + position ≤ flagOffset ∧ flagOffset < region.words.size) := by
    unfold dataOffset
    omega
  exact (getElem?_overwrite region.words _ _ flagOffset).trans (if_neg hbefore)

/-- Storing at a position changes the data words from there on, as far as the vector goes. -/
theorem word?_data_store {region : Region} {position : Nat} {vector : EncoderVector}
    (hfits : position + vector.length ≤ region.capacity) (i : Nat) :
    (region.store (dataOffset + position) vector).word? (dataOffset + i) =
      if position ≤ i ∧ i < position + vector.length then
        vector[i - position]?.map Fixed.toWord
      else region.word? (dataOffset + i) := by
  have hsize : region.capacity = region.words.size - dataOffset := rfl
  have hstore := getElem?_overwrite region.words (dataOffset + position)
    (vector.map Fixed.toWord) (dataOffset + i)
  rw [Nat.add_sub_add_left, List.getElem?_map] at hstore
  change (overwrite region.words (dataOffset + position) _)[dataOffset + i]? = _
  rw [hstore]
  by_cases hwritten : position ≤ i ∧ i < position + vector.length
  · have helement : i - position < vector.length := by omega
    rw [if_pos hwritten, if_pos (by omega), List.getElem?_eq_getElem helement]
    rfl
  · rw [if_neg hwritten]
    split
    · next hbehind =>
      rw [List.getElem?_eq_none (by omega)]
      rfl
    · rfl

end Region

namespace Recorder

theorem length_recorded (recorder : Recorder) : recorder.recorded.length = recorder.cursor := by
  have hcursor := recorder.cursor_le_capacity
  unfold Region.capacity Region.size at hcursor
  unfold recorded
  simp only [List.length_map, Array.length_toList, Array.size_extract]
  omega

theorem getElem?_recorded (recorder : Recorder) {i : Nat} (hi : i < recorder.cursor) :
    recorder.recorded[i]? =
      (recorder.region.word? (Region.dataOffset + i)).map Fixed.ofWord := by
  have hcursor := recorder.cursor_le_capacity
  unfold Region.capacity Region.size at hcursor
  have hinside : i < min (Region.dataOffset + recorder.cursor) recorder.region.words.size -
      Region.dataOffset := by omega
  unfold recorded Region.word?
  rw [List.getElem?_map, Array.getElem?_toList, Array.getElem?_extract, if_pos hinside]

theorem attach_eq_ok {region : Region} {flag : UInt32} (expectedDims : Option Nat)
    (hflag : region.word? Region.flagOffset = some flag) :
    attach (some region) expectedDims =
      .ok ⟨region, flag != 0, 0, expectedDims, Nat.zero_le _⟩ := by
  simp only [attach, Header.ofRegion, hflag]

/-- A recorder that knows the length of its vectors, or accepts any, finds no fault with it. -/
theorem lengthFault?_eq_none {recorder : Recorder} {vector : EncoderVector} {dims : Nat}
    (hexpected : recorder.expectedDims = none ∨ recorder.expectedDims = some dims)
    (hlength : vector.length = dims) : recorder.lengthFault? vector = none := by
  unfold lengthFault?
  rcases hexpected with hany | hdims
  · rw [hany, Option.bind_none]
  · rw [hdims, Option.bind_some, if_pos hlength]

theorem record_of_not_isEnabled {recorder : Recorder} (h : recorder.isEnabled = false)
    (vector : EncoderVector) : recorder.record vector = (.ok (), recorder) := by
  rw [record, h]
  rfl

theorem record_eq_append {recorder : Recorder} {vector : EncoderVector}
    (henabled : recorder.isEnabled = true) (hlength : recorder.lengthFault? vector = none)
    (hfits : vector.length ≤ recorder.remaining) :
    recorder.record vector = (.ok (), recorder.append vector hfits) := by
  rw [record, if_pos henabled, hlength]
  exact dif_pos hfits

theorem record_eq_capacityExceeded {recorder : Recorder} {vector : EncoderVector}
    (henabled : recorder.isEnabled = true) (hlength : recorder.lengthFault? vector = none)
    (hfull : ¬vector.length ≤ recorder.remaining) :
    recorder.record vector =
      (.error (.capacityExceeded vector.length recorder.remaining), recorder) := by
  rw [record, if_pos henabled, hlength]
  exact dif_neg hfull

/-- A recorder that records either refuses a vector and stays as it is, or appends it. -/
theorem record_cases {recorder : Recorder} (henabled : recorder.isEnabled = true)
    (vector : EncoderVector) :
    (∃ fault, recorder.record vector = (.error fault, recorder)) ∨
      ∃ hfits, recorder.record vector = (.ok (), recorder.append vector hfits) := by
  cases hlength : recorder.lengthFault? vector with
  | some fault =>
    left
    refine ⟨fault, ?_⟩
    rw [record, if_pos henabled, hlength]
  | none =>
    by_cases hfits : vector.length ≤ recorder.remaining
    · exact .inr ⟨hfits, record_eq_append henabled hlength hfits⟩
    · exact .inl ⟨_, record_eq_capacityExceeded henabled hlength hfits⟩

theorem lengthFault?_append (recorder : Recorder) {vector : EncoderVector}
    (hfits : vector.length ≤ recorder.remaining) (later : EncoderVector) :
    (recorder.append vector hfits).lengthFault? later = recorder.lengthFault? later := rfl

theorem remaining_append (recorder : Recorder) {vector : EncoderVector}
    (hfits : vector.length ≤ recorder.remaining) :
    (recorder.append vector hfits).remaining = recorder.remaining - vector.length := by
  change (recorder.region.store _ vector).capacity - (recorder.cursor + vector.length) = _
  rw [Region.capacity_store, remaining, Nat.sub_sub]

/-- Two vectors appended in turn are their elements appended in one piece. -/
theorem append_append (recorder : Recorder) {front back : EncoderVector}
    (hfront : front.length ≤ recorder.remaining)
    (hback : back.length ≤ (recorder.append front hfront).remaining)
    (hboth : (front ++ back).length ≤ recorder.remaining) :
    (recorder.append front hfront).append back hback = recorder.append (front ++ back) hboth := by
  simp only [append, Region.store_append, List.length_append, Nat.add_assoc]

/-- Vectors that have the right length and fit all together are recorded to the last, and what they
leave is their elements written in one piece. -/
theorem recordEach_eq_append {recorder : Recorder} {vectors : List EncoderVector}
    (henabled : recorder.isEnabled = true)
    (hlengths : ∀ vector ∈ vectors, recorder.lengthFault? vector = none)
    (hfits : (vectors.flatten : EncoderVector).length ≤ recorder.remaining) :
    recorder.recordEach vectors = (.ok (), recorder.append vectors.flatten hfits) := by
  induction vectors generalizing recorder with
  | nil => rfl
  | cons vector rest ih =>
    have hboth : vector.length + rest.flatten.length ≤ recorder.remaining := by
      rwa [List.flatten_cons, List.length_append] at hfits
    have hfirst : vector.length ≤ recorder.remaining := by omega
    have hrest : rest.flatten.length ≤ (recorder.append vector hfirst).remaining := by
      rw [remaining_append]
      omega
    have henabledRest : (recorder.append vector hfirst).isEnabled = true := henabled
    have hrecord := record_eq_append henabled (hlengths vector List.mem_cons_self) hfirst
    have hlengthsRest : ∀ later ∈ rest,
        (recorder.append vector hfirst).lengthFault? later = none := by
      intro later hlater
      rw [lengthFault?_append]
      exact hlengths later (List.mem_cons_of_mem _ hlater)
    simp only [recordEach, hrecord]
    rw [ih henabledRest hlengthsRest hrest, append_append recorder hfirst hrest hfits]
    rfl

inductive Call
  | record (vector : EncoderVector)
  | reset
deriving DecidableEq, Repr

/-- A call and what came of it. -/
structure Event where
  call : Call
  outcome : Except RecordingFault Unit

/-- Makes one call.  The second component is the recorder as it is left. -/
def answer (recorder : Recorder) : Call → Except RecordingFault Unit × Recorder
  | .record vector => recorder.record vector
  | .reset => (.ok (), recorder.reset)

/-- The event of a call. -/
def event (recorder : Recorder) (call : Call) : Event := ⟨call, (recorder.answer call).1⟩

/-- Makes calls in order.  The first component lists their events, the second is the recorder as it
is left. -/
def run (recorder : Recorder) : List Call → List Event × Recorder
  | [] => ([], recorder)
  | call :: rest =>
    let later := (recorder.answer call).2.run rest
    (recorder.event call :: later.1, later.2)

/-- What holds of the events so far and of the recorder, and stays so with each call, still holds
when all calls were made. -/
theorem run_preserves {motive : List Event → Recorder → Prop} {calls : List Call}
    (hstep : ∀ past recorder, motive past recorder → ∀ call ∈ calls,
      motive (past ++ [recorder.event call]) (recorder.answer call).2)
    {past : List Event} {recorder : Recorder} (h : motive past recorder) :
    motive (past ++ (recorder.run calls).1) (recorder.run calls).2 := by
  induction calls generalizing past recorder with
  | nil =>
    rw [run, List.append_nil]
    exact h
  | cons call rest ih =>
    have hrest := ih
      (fun past recorder h next hnext ↦ hstep past recorder h next (List.mem_cons_of_mem _ hnext))
      (hstep past recorder h call List.mem_cons_self)
    rw [List.append_assoc, List.singleton_append] at hrest
    exact hrest

structure SameSetup (before after : Recorder) : Prop where
  isEnabled_eq : after.isEnabled = before.isEnabled
  expectedDims_eq : after.expectedDims = before.expectedDims
  address_eq : after.region.address = before.region.address
  size_eq : after.region.size = before.region.size
  flag_eq : after.region.word? Region.flagOffset = before.region.word? Region.flagOffset

theorem SameSetup.refl (recorder : Recorder) : SameSetup recorder recorder :=
  ⟨rfl, rfl, rfl, rfl, rfl⟩

theorem SameSetup.trans {first second third : Recorder} (h : SameSetup first second)
    (h' : SameSetup second third) : SameSetup first third where
  isEnabled_eq := h'.isEnabled_eq.trans h.isEnabled_eq
  expectedDims_eq := h'.expectedDims_eq.trans h.expectedDims_eq
  address_eq := h'.address_eq.trans h.address_eq
  size_eq := h'.size_eq.trans h.size_eq
  flag_eq := h'.flag_eq.trans h.flag_eq

theorem sameSetup_append (recorder : Recorder) {vector : EncoderVector}
    (hfits : vector.length ≤ recorder.remaining) :
    SameSetup recorder (recorder.append vector hfits) where
  isEnabled_eq := rfl
  expectedDims_eq := rfl
  address_eq := rfl
  size_eq := Region.size_store recorder.region _ vector
  flag_eq := Region.word?_flag_store recorder.region recorder.cursor vector

theorem sameSetup_record (recorder : Recorder) (vector : EncoderVector) :
    SameSetup recorder (recorder.record vector).2 := by
  cases henabled : recorder.isEnabled with
  | false =>
    rw [record_of_not_isEnabled henabled]
    exact SameSetup.refl recorder
  | true =>
    rcases record_cases henabled vector with ⟨fault, hrefused⟩ | ⟨hfits, happended⟩
    · rw [hrefused]
      exact SameSetup.refl recorder
    · rw [happended]
      exact sameSetup_append recorder hfits

theorem sameSetup_answer (recorder : Recorder) (call : Call) :
    SameSetup recorder (recorder.answer call).2 := by
  cases call with
  | record vector => exact sameSetup_record recorder vector
  | reset => exact ⟨rfl, rfl, rfl, rfl, rfl⟩

theorem sameSetup_run (recorder : Recorder) (calls : List Call) :
    SameSetup recorder (recorder.run calls).2 := by
  induction calls generalizing recorder with
  | nil => exact SameSetup.refl recorder
  | cons call rest ih =>
    exact (sameSetup_answer recorder call).trans (ih (recorder.answer call).2)

end Recorder

end EnsembleRecording
