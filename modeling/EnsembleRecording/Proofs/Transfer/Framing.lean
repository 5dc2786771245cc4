import EnsembleRecording.Proofs.Transfer.Delivered

/-!
# Framing of Region Images

Images follow each other on a stream without anything between them.  Each of them ends where its
last word ends, so the address and the size of every region are enough to find them all again.  The
other way round, any bytes that are whole words are the image of one region at each aligned address.

A sink with a limit stores the first bytes that it is offered, as many as it can hold, and fails
with the first byte that it cannot.  Words do not show in what is stored: an image that does not fit
is cut off at the limit, be it in the middle of a word, and whoever reads it finds the whole words
before the cut.
-/

namespace EnsembleRecording

namespace Region

/-- What both ends of a transfer know of a region. -/
def extent (region : Region) : Address × Nat := (region.address, region.size)

/-- Sends regions one after the other into one sink, up to the first that fails. -/
def encodeAll : List Region → Sink → Except HostFault Unit × Sink
  | [], sink => (.ok (), sink)
  | region :: rest, sink =>
    match region.encode sink with
    | (.error fault, left) => (.error fault, left)
    | (.ok _, left) => encodeAll rest left

/-- Reads regions of the given extents one after the other off one stream, up to the first that
fails. -/
def decodeAll : List (Address × Nat) → Reader → Except HostFault (List Region) × Reader
  | [], reader => (.ok [], reader)
  | (address, size) :: rest, reader =>
    match decode address size reader with
    | (.error fault, left) => (.error fault, left)
    | (.ok region, left) =>
      match decodeAll rest left with
      | (.error fault, last) => (.error fault, last)
      | (.ok regions, last) => (.ok (region :: regions), last)

/-- The image goes behind all that was written before. -/
theorem encode_behind (region : Region) (written : Array UInt8) :
    region.encode ⟨written, none⟩ = (.ok (), ⟨written ++ region.image.toArray, none⟩) := by
  have hwords := Word.writeAll_unbounded region.words.toList written
  rw [encode, hwords, image]

theorem encodeAll_behind (regions : List Region) (written : Array UInt8) :
    encodeAll regions ⟨written, none⟩ =
      (.ok (), ⟨written ++ (regions.flatMap image).toArray, none⟩) := by
  induction regions generalizing written with
  | nil => simp [encodeAll]
  | cons region rest ih =>
    rw [encodeAll, encode_behind]
    simp [ih]

theorem encodeAll_unbounded (regions : List Region) :
    encodeAll regions .unbounded = (.ok (), ⟨(regions.flatMap image).toArray, none⟩) := by
  have hwritten := encodeAll_behind regions #[]
  rw [Sink.unbounded, hwritten, Array.empty_append]

/-- Each image is taken off the stream whole, so that the next one is found behind it. -/
theorem decodeAll_images (regions : List Region) (rest : List UInt8) (later : Reader) :
    decodeAll (regions.map extent) (.chunk (regions.flatMap image ++ rest) :: later) =
      (.ok regions, .chunk rest :: later) := by
  induction regions with
  | nil => rfl
  | cons region regions ih =>
    have hfirst := region.decode_image (regions.flatMap image ++ rest) later
    rw [List.map_cons, List.flatMap_cons, List.append_assoc, extent, decodeAll, hfirst]
    simp only [ih]

theorem length_image (region : Region) :
    region.image.length = Address.wordBytes * region.size := by
  rw [image, Word.length_flatMap_toBytes, Array.length_toList, size]

/-- Bytes that make up so many words are the image of a region of that size. -/
theorem exists_image_eq {address : Address} (haligned : address.IsAligned) {bytes : List UInt8}
    {size : Nat} (hlength : bytes.length = Address.wordBytes * size) :
    ∃ region : Region, region.address = address ∧ region.size = size ∧ region.image = bytes := by
  have hbytes : (Reader.ofBytes bytes).delivered = bytes := List.append_nil bytes
  have hdelivered : Address.wordBytes * size ≤ (Reader.ofBytes bytes).delivered.length := by
    rw [hbytes]
    exact Nat.le_of_eq hlength.symm
  obtain ⟨words, left, -, hwords, -⟩ := decode_of_delivered address hdelivered
  rw [hbytes, ← hlength, List.take_length] at hwords
  let region : Region := ⟨address, words, haligned⟩
  have himage : region.image = bytes := hwords
  have hsize : Address.wordBytes * region.size = Address.wordBytes * size := by
    rw [← length_image, himage, hlength]
  exact ⟨region, rfl, Nat.eq_of_mul_eq_mul_left (by decide) hsize, himage⟩

/-- Encoding and decoding undo each other, word for word.  What was encoded is decoded to the region
that it came from, with all that follows on the stream left there, and so are any number of regions
one behind the other.  Bytes that are decoded are those to which the result is encoded. -/
theorem encode_and_decode_undo_each_other :
    (∀ (region : Region) (rest : List UInt8), ∃ sink,
      region.encode .unbounded = (.ok (), sink) ∧
        decode region.address region.size (.ofBytes (sink.written.toList ++ rest)) =
          (.ok region, .ofBytes rest)) ∧
    (∀ (regions : List Region) (rest : List UInt8), ∃ sink,
      encodeAll regions .unbounded = (.ok (), sink) ∧
        decodeAll (regions.map extent) (.ofBytes (sink.written.toList ++ rest)) =
          (.ok regions, .ofBytes rest)) ∧
    ∀ (bytes : List UInt8) (address : Address) (size : Nat), address.IsAligned →
      Address.wordBytes * size ≤ bytes.length → ∃ region sink,
        decode address size (.ofBytes bytes) =
          (.ok region, .ofBytes (bytes.drop (Address.wordBytes * size))) ∧
        region.address = address ∧ region.size = size ∧
        region.encode .unbounded = (.ok (), sink) ∧
        sink.written.toList = bytes.take (Address.wordBytes * size) := by
  refine ⟨?_, ?_, ?_⟩
  · intro region rest
    exact ⟨_, encode_unbounded region, decode_image region rest []⟩
  · intro regions rest
    exact ⟨_, encodeAll_unbounded regions, decodeAll_images regions rest []⟩
  · intro bytes address size haligned hlength
    obtain ⟨region, rfl, rfl, himage⟩ :=
      exists_image_eq haligned (List.length_take_of_le hlength)
    have hdecode := region.decode_image (bytes.drop (Address.wordBytes * region.size)) []
    rw [himage, List.take_append_drop] at hdecode
    exact ⟨region, _, hdecode, rfl, rfl, encode_unbounded region, himage⟩

/-- Two regions of different sizes on one stream with a byte behind them, and nine bytes of which
the first eight are read as words. -/
theorem encode_and_decode_undo_each_other_of_two_regions :
    let first : Region := ⟨⟨0x60000000⟩, #[1, 0x04030201], by decide⟩
    let second : Region := ⟨⟨0x60001000⟩, #[0xffffffff], by decide⟩
    (∃ sink, encodeAll [first, second] .unbounded = (.ok (), sink) ∧
      decodeAll [(⟨0x60000000⟩, 2), (⟨0x60001000⟩, 1)] (.ofBytes (sink.written.toList ++ [9])) =
        (.ok [first, second], .ofBytes [9])) ∧
    ∃ region sink, decode ⟨0x60000000⟩ 2 (.ofBytes [1, 0, 0, 0, 1, 2, 3, 4, 5]) =
        (.ok region, .ofBytes [5]) ∧
      region.encode .unbounded = (.ok (), sink) ∧
      sink.written.toList = [1, 0, 0, 0, 1, 2, 3, 4] := by
  intro first second
  obtain ⟨-, hmany, hbytes⟩ := encode_and_decode_undo_each_other
  obtain ⟨region, sink, hdecode, -, -, hencode, hwritten⟩ :=
    hbytes [1, 0, 0, 0, 1, 2, 3, 4, 5] ⟨0x60000000⟩ 2 (by decide) (by decide)
  exact ⟨hmany [first, second] [9], region, sink, hdecode, hencode, hwritten⟩

end Region

namespace Sink

/-- The sink that was offered some bytes, one after the other. -/
def offered (limit : Nat) (bytes : List UInt8) : Sink := ⟨(bytes.take limit).toArray, some limit⟩

/-- What comes of offering bytes: a failure when there are more of them than the sink can hold. -/
def outcome (limit : Nat) (bytes : List UInt8) : Except StreamFailure Unit :=
  if bytes.length ≤ limit then .ok () else .error .full

section

variable {limit : Nat} {bytes : List UInt8}

theorem outcome_eq_ok (h : bytes.length ≤ limit) : outcome limit bytes = .ok () := if_pos h

theorem outcome_eq_full (h : limit < bytes.length) : outcome limit bytes = .error .full :=
  if_neg (Nat.not_le_of_lt h)

theorem hasRoom_offered_iff : (offered limit bytes).hasRoom = true ↔ bytes.length < limit := by
  have hstored : (offered limit bytes).written.size = min limit bytes.length := by
    rw [offered, List.size_toArray, List.length_take]
  calc (offered limit bytes).hasRoom = true
      ↔ (offered limit bytes).written.size < limit := decide_eq_true_iff
    _ ↔ bytes.length < limit := by
      rw [hstored]
      omega

/-- A full sink does not store what else it is offered. -/
theorem offered_append_of_full (h : limit ≤ bytes.length) (more : List UInt8) :
    offered limit (bytes ++ more) = offered limit bytes := by
  rw [offered, List.take_append_of_le_length h, offered]

theorem offered_concat (h : bytes.length < limit) (byte : UInt8) :
    offered limit (bytes ++ [byte]) =
      ⟨(offered limit bytes).written.push byte, (offered limit bytes).limit⟩ := by
  have hboth : (bytes ++ [byte]).length ≤ limit := by
    rw [List.length_append, List.length_singleton]
    exact h
  simp only [offered, List.take_of_length_le hboth, List.take_of_length_le (Nat.le_of_lt h),
    List.push_toArray]

/-- Bytes that are written behind others come to the same as if all were offered in one piece. -/
theorem put_offered (h : bytes.length ≤ limit) (more : List UInt8) :
    put (offered limit bytes) more =
      (outcome limit (bytes ++ more), offered limit (bytes ++ more)) := by
  induction more generalizing bytes with
  | nil => rw [put, List.append_nil, outcome_eq_ok h]
  | cons byte rest ih =>
    by_cases hroom : bytes.length < limit
    · have hnext : (bytes ++ [byte]).length ≤ limit := by
        rw [List.length_append, List.length_singleton]
        exact hroom
      have hrest := ih hnext
      rw [List.append_assoc, List.singleton_append, offered_concat hroom] at hrest
      rw [put, if_pos (hasRoom_offered_iff.2 hroom), hrest]
    · have hfull : limit ≤ bytes.length := Nat.le_of_not_lt hroom
      have hpast : limit < (bytes ++ byte :: rest).length := by
        rw [List.length_append, List.length_cons]
        omega
      rw [put, if_neg (fun hmore ↦ hroom (hasRoom_offered_iff.1 hmore)), outcome_eq_full hpast,
        offered_append_of_full hfull]

end

end Sink

/-- Words that are written in order come to the same as if their bytes were offered in one piece,
also where the last word stored is cut off. -/
theorem Word.writeAll_offered {limit : Nat} {bytes : List UInt8} (h : bytes.length ≤ limit)
    (words : List UInt32) :
    writeAll words (.offered limit bytes) =
      (Sink.outcome limit (bytes ++ words.flatMap toBytes),
        .offered limit (bytes ++ words.flatMap toBytes)) := by
  induction words generalizing bytes with
  | nil => rw [writeAll, List.flatMap_nil, List.append_nil, Sink.outcome_eq_ok h]
  | cons word rest ih =>
    have hword := Sink.put_offered h (toBytes word)
    rw [writeAll, write, hword, List.flatMap_cons, ← List.append_assoc]
    by_cases hfits : (bytes ++ toBytes word).length ≤ limit
    · rw [Sink.outcome_eq_ok hfits]
      exact ih hfits
    · have hcut := Nat.lt_of_not_le hfits
      have hpast : limit < (bytes ++ toBytes word ++ rest.flatMap toBytes).length := by
        rw [List.length_append]
        omega
      rw [Sink.outcome_eq_full hcut, Sink.outcome_eq_full hpast,
        Sink.offered_append_of_full (Nat.le_of_lt hcut)]

namespace Region

theorem encode_bounded (region : Region) (limit : Nat) :
    region.encode (.bounded limit) =
      ((Sink.outcome limit region.image).mapError .transfer, .offered limit region.image) := by
  have hbegin : Sink.bounded limit = .offered limit [] := by
    rw [Sink.offered, List.take_nil]
    rfl
  have hnone : ([] : List UInt8).length ≤ limit := Nat.zero_le limit
  have hwords := Word.writeAll_offered hnone region.words.toList
  rw [List.nil_append] at hwords
  rw [encode, hbegin, hwords, image]
  cases Sink.outcome limit (region.words.toList.flatMap Word.toBytes) <;> rfl

theorem decode_cut_image (region : Region) {limit : Nat}
    (h : limit < Address.wordBytes * region.size) (address : Address) :
    ∃ left, decode address region.size (.ofBytes (region.image.take limit)) =
        (.error (.truncated region.size (limit / Address.wordBytes)), left) ∧ left.unread = [] := by
  have hdelivered :
      (Reader.ofBytes (region.image.take limit)).delivered = region.image.take limit :=
    List.append_nil _
  have hlength : (Reader.ofBytes (region.image.take limit)).delivered.length = limit := by
    rw [hdelivered, List.length_take, length_image, Nat.min_eq_left (Nat.le_of_lt h)]
  obtain ⟨left, hdecode, hleft⟩ := decode_of_cut_short address (hlength ▸ h)
  rw [hlength] at hdecode
  refine ⟨left, hdecode, ?_⟩
  have hunread : (Reader.ofBytes (region.image.take limit)).unread = region.image.take limit :=
    List.append_nil _
  rw [Reader.Exhausts, hunread, hdelivered] at hleft
  exact List.self_eq_append_right.1 hleft

/-- A region that is sent into a sink with a limit arrives whole exactly if the four bytes of each
word fit, and otherwise the transfer fails with the failure of a full sink.  Either way the bytes
stored are those that a sink without limit would have stored first.  Read as an image of the region
at any address, an image that was cut off is truncated, with all its whole words found and no byte
left unread. -/
theorem encode_is_cut_at_limit (region : Region) (limit : Nat) :
    let bytes := Address.wordBytes * region.size
    let outcome := (region.encode (.bounded limit)).1
    let stored := (region.encode (.bounded limit)).2.written.toList
    ∃ whole, region.encode .unbounded = (.ok (), whole) ∧ whole.written.size = bytes ∧
      outcome = (if bytes ≤ limit then .ok () else .error (.transfer .full)) ∧
      StreamFailure.full.text = "failed to write whole buffer" ∧
      stored = whole.written.toList.take (min limit bytes) ∧
      (limit < bytes → ∀ address, ∃ left, decode address region.size (.ofBytes stored) =
        (.error (.truncated region.size (limit / Address.wordBytes)), left) ∧
          left.unread = []) := by
  intro bytes outcome stored
  have hoffered := region.encode_bounded limit
  have houtcome : outcome = (Sink.outcome limit region.image).mapError .transfer :=
    congrArg Prod.fst hoffered
  have hstored : stored = region.image.take limit :=
    congrArg (fun result ↦ result.2.written.toList) hoffered
  have hlength : region.image.length = bytes := region.length_image
  refine ⟨_, region.encode_unbounded, hlength, ?_, rfl, ?_, ?_⟩
  · rw [houtcome, Sink.outcome, hlength]
    split <;> rfl
  · rw [hstored, ← hlength, List.take_eq_take_min]
  · intro hcut
    rw [hstored]
    exact region.decode_cut_image hcut

/-- An image of two words is cut off in the middle of the second one, and stored whole where it fits
exactly. -/
theorem encode_is_cut_at_limit_of_two_words :
    let region : Region := ⟨⟨0x60000000⟩, #[1, 0x04030201], by decide⟩
    (region.encode (.bounded 6)).1 = .error (.transfer .full) ∧
      (region.encode (.bounded 6)).2.written.toList = [1, 0, 0, 0, 1, 2] ∧
      (∃ left, decode ⟨0x60000002⟩ 2 (.ofBytes (region.encode (.bounded 6)).2.written.toList) =
        (.error (.truncated 2 1), left)) ∧
      (region.encode (.bounded 8)).1 = .ok () ∧
      (region.encode (.bounded 8)).2.written.toList = [1, 0, 0, 0, 1, 2, 3, 4] := by
  intro region
  obtain ⟨whole, hwhole, -, hcut, -, hstored, hread⟩ := region.encode_is_cut_at_limit 6
  obtain ⟨other, hother, -, hfits, -, hall, -⟩ := region.encode_is_cut_at_limit 8
  cases hwhole.symm.trans hother
  cases hwhole
  obtain ⟨left, hdecode, -⟩ := hread (by decide) ⟨0x60000002⟩
  exact ⟨hcut, hstored, ⟨left, hdecode⟩, hfits, hall⟩

end Region

end EnsembleRecording
