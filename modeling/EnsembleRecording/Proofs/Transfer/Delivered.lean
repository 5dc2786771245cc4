import EnsembleRecording.Transfer

/-!
# What a Reader Delivers

Words written into an unbounded sink and read back from the bytes are the same words, and nothing
behind them on the stream is consumed.  An image has neither header nor terminator, so all of this
rests on a word being exactly four bytes in both directions.

A reader delivers bytes until a failure that is not an interruption, or the end of the stream, ends
the transfer.  These bytes and that failure are all that an image depends on: neither the division
into chunks nor an interruption can be told from the outcome, wherever in a word it falls.
-/

namespace EnsembleRecording

namespace Word

theorem length_toBytes (word : UInt32) : (toBytes word).length = Address.wordBytes := rfl

/-- The four bytes, each at its place, add up to the word. -/
theorem natOfBytes_toBytes (word : UInt32) : natOfBytes (toBytes word) = word.toNat := by
  have hbound := word.toNat_lt
  simp only [toBytes, natOfBytes, UInt8.toNat_ofNat']
  omega

theorem ofBytes_toBytes (word : UInt32) : ofBytes (toBytes word) = word := by
  rw [ofBytes, natOfBytes_toBytes, UInt32.ofNat_toNat]

end Word

theorem Sink.put_unbounded (written : Array UInt8) (bytes : List UInt8) :
    Sink.put ⟨written, none⟩ bytes = (.ok (), ⟨written ++ bytes.toArray, none⟩) := by
  induction bytes generalizing written with
  | nil => simp only [put, Array.append_empty]
  | cons byte rest ih =>
    have hroom : (Sink.mk written none).hasRoom = true := rfl
    rw [put, if_pos hroom, ih]
    simp

theorem Word.writeAll_unbounded (words : List UInt32) (written : Array UInt8) :
    writeAll words ⟨written, none⟩ =
      (.ok (), ⟨written ++ (words.flatMap toBytes).toArray, none⟩) := by
  induction words generalizing written with
  | nil => simp [writeAll]
  | cons word rest ih =>
    have hfirst : write word ⟨written, none⟩ =
        (.ok (), ⟨written ++ (toBytes word).toArray, none⟩) :=
      Sink.put_unbounded written (toBytes word)
    rw [writeAll, hfirst]
    simp [ih]

theorem Region.encode_unbounded (region : Region) :
    region.encode .unbounded = (.ok (), ⟨region.image.toArray, none⟩) := by
  have hwords := Word.writeAll_unbounded region.words.toList #[]
  rw [encode, Sink.unbounded, hwords, image]
  simp

theorem Reader.take_append (bytes rest : List UInt8) (later : Reader) :
    Reader.take (.chunk (bytes ++ rest) :: later) bytes.length =
      (.ok bytes, .chunk rest :: later) := by
  induction bytes with
  | nil => rfl
  | cons byte bytes ih =>
    simp only [List.cons_append, List.length_cons, take, next]
    rw [ih]

theorem Word.read_append (word : UInt32) (rest : List UInt8) (later : Reader) :
    read (.chunk (toBytes word ++ rest) :: later) = (.ok word, .chunk rest :: later) := by
  have htake := Reader.take_append (toBytes word) rest later
  rw [length_toBytes] at htake
  rw [read, htake]
  simp only [ofBytes_toBytes]

/-- The words read are put behind those read before, one for each four bytes. -/
theorem Word.readAll_append (words : List UInt32) (rest : List UInt8) (later : Reader)
    (before : Array UInt32) :
    readAll words.length (.chunk (words.flatMap toBytes ++ rest) :: later) before =
      (.ok (), before ++ words.toArray, .chunk rest :: later) := by
  induction words generalizing before with
  | nil => simp [readAll]
  | cons word words ih =>
    rw [List.flatMap_cons, List.append_assoc, List.length_cons, readAll, read_append]
    simp [ih]

theorem Region.ofWords_words (region : Region) :
    Region.ofWords region.address region.words = .ok region := by
  rw [ofWords, dif_pos region.aligned]

/-- Reading the image of a region takes the image and nothing else off the stream. -/
theorem Region.decode_image (region : Region) (rest : List UInt8) (later : Reader) :
    Region.decode region.address region.size (.chunk (region.image ++ rest) :: later) =
      (.ok region, .chunk rest :: later) := by
  have hwords := Word.readAll_append region.words.toList rest later #[]
  rw [Array.length_toList] at hwords
  rw [decode, size, image, hwords]
  simp only [Array.toArray_toList, Array.empty_append, ofWords_words]
  rfl

namespace Region

/-- Sends the region over a stream, at whose other end so many words are read as a region at the
given address. -/
def transfer (region : Region) (address : Address) (size : Nat) : Except HostFault Region :=
  match region.encode .unbounded with
  | (.error fault, _) => .error fault
  | (.ok _, sink) => (decode address size (.ofBytes sink.written.toList)).1

theorem transfer_eq_ok (region : Region) :
    region.transfer region.address region.size = .ok region := by
  have hdecode := region.decode_image [] []
  rw [List.append_nil] at hdecode
  rw [transfer, encode_unbounded]
  exact congrArg Prod.fst hdecode

end Region

/-- The failure that a delivery raises, unless it only asks for the read to be tried again. -/
def Delivery.raised? : Delivery → Option StreamFailure
  | .chunk _ => none
  | .failure raised => if raised.kind = .interrupted then none else some raised

namespace Reader

/-- The failure that ends the transfer: the first one raised, or else that of the end. -/
def ending (reader : Reader) : StreamFailure := (reader.findSome? Delivery.raised?).getD .atEnd

/-- The bytes before the failure that ends the transfer. -/
def delivered (reader : Reader) : List UInt8 :=
  Reader.unread (reader.takeWhile fun delivery ↦ delivery.raised?.isNone)

section

variable (bytes : List UInt8) (failure : StreamFailure) (later : Reader)

@[simp]
theorem unread_chunk : unread (.chunk bytes :: later) = bytes ++ later.unread := rfl

@[simp]
theorem unread_failure : unread (.failure failure :: later) = later.unread := rfl

@[simp]
theorem delivered_chunk : delivered (.chunk bytes :: later) = bytes ++ later.delivered := rfl

@[simp]
theorem ending_chunk : ending (.chunk bytes :: later) = later.ending := rfl

variable {failure}

theorem delivered_of_interrupted (h : failure.kind = .interrupted) :
    delivered (.failure failure :: later) = later.delivered := by
  simp [delivered, Delivery.raised?, h]

theorem ending_of_interrupted (h : failure.kind = .interrupted) :
    ending (.failure failure :: later) = later.ending := by
  simp [ending, Delivery.raised?, h]

theorem delivered_of_raised (h : failure.kind ≠ .interrupted) :
    delivered (.failure failure :: later) = [] := by
  simp [delivered, Delivery.raised?, h, unread]

theorem ending_of_raised (h : failure.kind ≠ .interrupted) :
    ending (.failure failure :: later) = failure := by
  simp [ending, Delivery.raised?, h]

end

/-- Reading takes exactly these bytes off the reader, and the failure behind them stays to come. -/
structure Gives (reader : Reader) (bytes : List UInt8) (rest : Reader) : Prop where
  delivered_eq : reader.delivered = bytes ++ rest.delivered
  ending_eq : reader.ending = rest.ending
  unread_eq : reader.unread = bytes ++ rest.unread

/-- Reading takes all bytes before the failure that ends the transfer, and no others. -/
def Exhausts (reader rest : Reader) : Prop := reader.unread = reader.delivered ++ rest.unread

theorem Gives.refl (reader : Reader) : reader.Gives [] reader := ⟨rfl, rfl, rfl⟩

theorem Gives.trans {first second third : Reader} {bytes more : List UInt8}
    (h : first.Gives bytes second) (h' : second.Gives more third) :
    first.Gives (bytes ++ more) third where
  delivered_eq := by rw [h.delivered_eq, h'.delivered_eq, List.append_assoc]
  ending_eq := h.ending_eq.trans h'.ending_eq
  unread_eq := by rw [h.unread_eq, h'.unread_eq, List.append_assoc]

theorem Gives.exhausts {reader middle rest : Reader} {bytes : List UInt8}
    (h : reader.Gives bytes middle) (h' : middle.Exhausts rest) : reader.Exhausts rest := by
  unfold Exhausts at h' ⊢
  rw [h.unread_eq, h.delivered_eq, h', List.append_assoc]

theorem Gives.length_delivered {reader rest : Reader} {bytes : List UInt8}
    (h : reader.Gives bytes rest) :
    reader.delivered.length = bytes.length + rest.delivered.length := by
  rw [h.delivered_eq, List.length_append]

/-- What was given is determined by how much it is. -/
theorem Gives.eq_take {reader rest : Reader} {bytes : List UInt8} (h : reader.Gives bytes rest) :
    bytes = reader.delivered.take bytes.length := by
  rw [h.delivered_eq, List.take_left]

/-- A read of so many bytes succeeds with what these bytes stand for, or finds fewer and fails with
the failure behind them. -/
def Answers {α : Type} (reader : Reader) (size : Nat) (bytesOf : α → List UInt8)
    (outcome : Except StreamFailure α × Reader) : Prop :=
  (∃ value rest, outcome = (.ok value, rest) ∧ (bytesOf value).length = size ∧
      reader.Gives (bytesOf value) rest) ∨
    (reader.delivered.length < size ∧
      ∃ rest, outcome = (.error reader.ending, rest) ∧ reader.Exhausts rest)

/-- Deliveries without bytes, which are read over, have no influence on the outcome. -/
theorem Answers.of_gives_nil {α : Type} {reader later : Reader} {size : Nat}
    {bytesOf : α → List UInt8} {outcome : Except StreamFailure α × Reader}
    (hskip : reader.Gives [] later) (h : later.Answers size bytesOf outcome) :
    reader.Answers size bytesOf outcome := by
  rcases h with ⟨value, rest, houtcome, hlength, hgives⟩ | ⟨hshort, rest, houtcome, hrest⟩
  · exact .inl ⟨value, rest, houtcome, hlength, hskip.trans hgives⟩
  · right
    rw [hskip.length_delivered, List.length_nil, Nat.zero_add, hskip.ending_eq]
    exact ⟨hshort, rest, houtcome, hskip.exhausts hrest⟩

theorem answers_next (reader : Reader) : reader.Answers 1 (fun byte ↦ [byte]) reader.next := by
  induction reader using next.induct with
  | case1 => exact .inr ⟨Nat.one_pos, [], rfl, rfl⟩
  | case2 later ih =>
    apply ih.of_gives_nil
    exact ⟨delivered_chunk [] later, ending_chunk [] later, unread_chunk [] later⟩
  | case3 byte bytes later => exact .inl ⟨byte, .chunk bytes :: later, rfl, rfl, rfl, rfl, rfl⟩
  | case4 failure later hinterrupted ih =>
    rw [next, if_pos hinterrupted]
    apply ih.of_gives_nil
    exact ⟨delivered_of_interrupted later hinterrupted, ending_of_interrupted later hinterrupted,
      unread_failure failure later⟩
  | case5 failure later hraised =>
    right
    unfold Exhausts
    rw [next, if_neg hraised, delivered_of_raised later hraised, ending_of_raised later hraised]
    exact ⟨Nat.one_pos, later, rfl, rfl⟩

theorem answers_take (reader : Reader) (count : Nat) :
    reader.Answers count id (reader.take count) := by
  induction count generalizing reader with
  | zero => exact .inl ⟨[], reader, rfl, rfl, .refl reader⟩
  | succ count ih =>
    rcases reader.answers_next with ⟨byte, middle, hnext, -, hfirst⟩ | ⟨hnone, rest, hnext, hrest⟩
    · rcases ih middle with ⟨bytes, rest, htake, hlength, hgives⟩ | ⟨hshort, rest, htake, hrest⟩
      · left
        refine ⟨byte :: bytes, rest, ?_, ?_, hfirst.trans hgives⟩
        · simp only [take, hnext, htake]
        · exact congrArg Nat.succ hlength
      · right
        refine ⟨?_, rest, ?_, hfirst.exhausts hrest⟩
        · rw [hfirst.length_delivered, List.length_singleton, Nat.add_comm]
          exact Nat.succ_lt_succ hshort
        · simp only [take, hnext, htake, hfirst.ending_eq]
    · right
      refine ⟨Nat.lt_of_lt_of_le hnone (Nat.le_add_left 1 count), rest, ?_, hrest⟩
      simp only [take, hnext]

end Reader

namespace Word

theorem toBytes_ofBytes {bytes : List UInt8} (h : bytes.length = Address.wordBytes) :
    toBytes (ofBytes bytes) = bytes := by
  match bytes, h with
  | [first, second, third, fourth], _ =>
    have hfirst := first.toNat_lt
    have hsecond := second.toNat_lt
    have hthird := third.toNat_lt
    have hfourth := fourth.toNat_lt
    have hbound : natOfBytes [first, second, third, fourth] < 0x100000000 := by
      simp only [natOfBytes]
      omega
    have hword : (ofBytes [first, second, third, fourth]).toNat =
        natOfBytes [first, second, third, fourth] :=
      UInt32.toNat_ofNat_of_lt' hbound
    rw [toBytes, hword]
    simp only [natOfBytes, List.cons.injEq, ← UInt8.toNat_inj, UInt8.toNat_ofNat', and_true]
    omega

theorem answers_read (reader : Reader) :
    reader.Answers Address.wordBytes toBytes (read reader) := by
  rcases reader.answers_take Address.wordBytes with
    ⟨bytes, rest, htake, hlength, hgives⟩ | ⟨hshort, rest, htake, hrest⟩
  · left
    refine ⟨ofBytes bytes, rest, ?_, length_toBytes _, ?_⟩
    · simp only [read, htake]
    · have hbytes : toBytes (ofBytes bytes) = bytes := toBytes_ofBytes hlength
      rw [hbytes]
      exact hgives
  · right
    refine ⟨hshort, rest, ?_, hrest⟩
    simp only [read, htake]

theorem length_flatMap_toBytes (words : List UInt32) :
    (words.flatMap toBytes).length = Address.wordBytes * words.length := by
  induction words with
  | nil => rfl
  | cons word words ih =>
    rw [List.flatMap_cons, List.length_append, length_toBytes, ih, List.length_cons, Nat.mul_succ,
      Nat.add_comm]

/-- Words are read as far as their bytes are delivered.  Where these end in the middle of a word,
the words before it are counted. -/
theorem readAll_cases (count : Nat) (reader : Reader) (before : Array UInt32) :
    (∃ (words : List UInt32) (rest : Reader),
        readAll count reader before = (.ok (), before ++ words.toArray, rest) ∧
        words.length = count ∧ reader.Gives (words.flatMap toBytes) rest) ∨
      (reader.delivered.length < Address.wordBytes * count ∧
        ∃ (words : Array UInt32) (rest : Reader),
          readAll count reader before = (.error reader.ending, words, rest) ∧
          words.size = before.size + reader.delivered.length / Address.wordBytes ∧
          reader.Exhausts rest) := by
  induction count generalizing reader before with
  | zero =>
    refine .inl ⟨[], reader, ?_, rfl, .refl reader⟩
    simp only [readAll, Array.append_empty]
  | succ count ih =>
    rcases answers_read reader with ⟨word, middle, hread, -, hfirst⟩ | ⟨hshort, rest, hread, hrest⟩
    · have hdelivered := hfirst.length_delivered
      rw [length_toBytes] at hdelivered
      rcases ih middle (before.push word) with
        ⟨words, rest, hreadAll, hlength, hgives⟩ | ⟨hshort, words, rest, hreadAll, hsize, hrest⟩
      · left
        refine ⟨word :: words, rest, ?_, ?_, hfirst.trans hgives⟩
        · have hpush : before.push word ++ words.toArray = before ++ (word :: words).toArray := by
            simp
          simp only [readAll, hread, hreadAll, hpush]
        · rw [List.length_cons, hlength]
      · right
        refine ⟨?_, words, rest, ?_, ?_, hfirst.exhausts hrest⟩
        · rw [hdelivered, Nat.mul_succ, Nat.add_comm]
          exact Nat.add_lt_add_right hshort _
        · simp only [readAll, hread, hreadAll, hfirst.ending_eq]
        · rw [hsize, hdelivered, Array.size_push, Nat.add_div_left _ (by decide), Nat.add_assoc,
            Nat.add_comm 1]
    · right
      refine ⟨?_, before, rest, ?_, ?_, hrest⟩
      · exact Nat.lt_of_lt_of_le hshort (Nat.le_mul_of_pos_right _ (Nat.succ_pos count))
      · simp only [readAll, hread]
      · rw [Nat.div_eq_of_lt hshort, Nat.add_zero]

end Word

/-- No other words have the same bytes. -/
theorem Word.eq_of_flatMap_toBytes_eq {words others : List UInt32}
    (h : words.flatMap toBytes = others.flatMap toBytes) : words = others := by
  induction words generalizing others with
  | nil =>
    cases others with
    | nil => rfl
    | cons other others => simp [toBytes] at h
  | cons word words ih =>
    cases others with
    | nil => simp [toBytes] at h
    | cons other others =>
      obtain ⟨hfirst, hrest⟩ := List.append_inj h rfl
      have hword : word = other := by
        rw [← ofBytes_toBytes word, hfirst, ofBytes_toBytes]
      rw [hword, ih hrest]

namespace Region

variable (address : Address) {size : Nat} {reader : Reader}

theorem decode_of_delivered (h : Address.wordBytes * size ≤ reader.delivered.length) :
    ∃ (words : Array UInt32) (left : Reader),
      decode address size reader = ((ofWords address words).mapError .recording, left) ∧
        words.toList.flatMap Word.toBytes = reader.delivered.take (Address.wordBytes * size) ∧
        reader.Gives (reader.delivered.take (Address.wordBytes * size)) left := by
  rcases Word.readAll_cases size reader #[] with
    ⟨words, left, hreadAll, hlength, hgives⟩ | ⟨hshort, -⟩
  · have htake := hgives.eq_take
    rw [Word.length_flatMap_toBytes, hlength] at htake
    refine ⟨words.toArray, left, ?_, htake, htake ▸ hgives⟩
    simp only [decode, hreadAll, Array.empty_append]
  · exact absurd h (Nat.not_le_of_lt hshort)

theorem decode_of_cut_short (h : reader.delivered.length < Address.wordBytes * size) :
    ∃ left, decode address size reader =
        (.error (if reader.ending.kind = .endOfStream then
          .truncated size (reader.delivered.length / Address.wordBytes)
        else .transfer reader.ending), left) ∧
      reader.Exhausts left := by
  rcases Word.readAll_cases size reader #[] with
    ⟨words, left, -, hlength, hgives⟩ | ⟨-, words, left, hreadAll, hsize, hrest⟩
  · have hdelivered := hgives.length_delivered
    rw [Word.length_flatMap_toBytes, hlength] at hdelivered
    omega
  · rw [Array.size_empty, Nat.zero_add] at hsize
    refine ⟨left, ?_, hrest⟩
    rw [decode, hreadAll, ← hsize]
    dsimp only
    split <;> rfl

/-- The bytes that are taken off the stream are the first that it delivers, as many as the image
has or all there are. -/
theorem unread_decode (size : Nat) (reader : Reader) :
    reader.unread = reader.delivered.take (Address.wordBytes * size) ++
      (decode address size reader).2.unread := by
  by_cases h : Address.wordBytes * size ≤ reader.delivered.length
  · obtain ⟨words, left, hdecode, -, hgives⟩ := decode_of_delivered address h
    rw [hdecode, hgives.unread_eq]
  · have hshort := Nat.lt_of_not_le h
    obtain ⟨left, hdecode, hrest⟩ := decode_of_cut_short address hshort
    rw [hdecode, List.take_of_length_le (Nat.le_of_lt hshort)]
    exact hrest

/-- Streams that deliver the same bytes and then fail alike are not told apart. -/
theorem decode_congr (size : Nat) {other : Reader}
    (hdelivered : other.delivered = reader.delivered) (hending : other.ending = reader.ending) :
    (decode address size other).1 = (decode address size reader).1 := by
  by_cases h : Address.wordBytes * size ≤ reader.delivered.length
  · obtain ⟨words, left, hdecode, hwords, -⟩ := decode_of_delivered address h
    rw [← hdelivered] at h hwords
    obtain ⟨others, left', hdecode', hothers, -⟩ := decode_of_delivered address h
    have hsame : others = words := by
      apply Array.toList_inj.1
      exact Word.eq_of_flatMap_toBytes_eq (hothers.trans hwords.symm)
    rw [hdecode, hdecode', hsame]
  · have hshort := Nat.lt_of_not_le h
    obtain ⟨left, hdecode, -⟩ := decode_of_cut_short address hshort
    rw [← hdelivered] at hshort
    obtain ⟨left', hdecode', -⟩ := decode_of_cut_short address hshort
    rw [hdecode, hdecode', hdelivered, hending]

/-- What becomes of an image that is read from any stream, and which bytes the read takes off it.
A stream that delivers all bytes of the image gives the region of its words, if the address is one
of a word.  Any other stream gives up all that it delivers, and the failure behind that tells the
outcome whatever the address.  Nothing else about the stream has a say. -/
theorem decode_depends_on_delivered (address : Address) (size : Nat) (reader : Reader) :
    let outcome := (decode address size reader).1
    let left := (decode address size reader).2
    (Address.wordBytes * size ≤ reader.delivered.length →
      reader.unread = reader.delivered.take (Address.wordBytes * size) ++ left.unread ∧
      (address.IsAligned → ∃ region, outcome = .ok region ∧ region.address = address ∧
        region.image = reader.delivered.take (Address.wordBytes * size)) ∧
      (¬address.IsAligned → outcome = .error (.recording (.misalignedAddress address)))) ∧
    (reader.delivered.length < Address.wordBytes * size →
      reader.unread = reader.delivered ++ left.unread ∧
      outcome = .error (if reader.ending.kind = .endOfStream then
          .truncated size (reader.delivered.length / Address.wordBytes)
        else .transfer reader.ending)) ∧
    ∀ other : Reader, other.delivered = reader.delivered → other.ending = reader.ending →
      (decode address size other).1 = outcome ∧
        ∃ taken, reader.unread = taken ++ left.unread ∧
          other.unread = taken ++ (decode address size other).2.unread := by
  intro outcome left
  have hunread := unread_decode address size reader
  refine ⟨?_, ?_, ?_⟩
  · intro hdelivered
    obtain ⟨words, rest, hdecode, hwords, -⟩ := decode_of_delivered address hdelivered
    have houtcome : outcome = (ofWords address words).mapError .recording :=
      congrArg Prod.fst hdecode
    refine ⟨hunread, ?_, ?_⟩
    · intro haligned
      rw [ofWords, dif_pos haligned] at houtcome
      exact ⟨_, houtcome, rfl, hwords⟩
    · intro hmisaligned
      rw [ofWords, dif_neg hmisaligned] at houtcome
      exact houtcome
  · intro hshort
    obtain ⟨rest, hdecode, hrest⟩ := decode_of_cut_short address hshort
    have hleft : left = rest := congrArg Prod.snd hdecode
    rw [hleft]
    exact ⟨hrest, congrArg Prod.fst hdecode⟩
  · intro other hdelivered hending
    refine ⟨decode_congr address size hdelivered hending, _, hunread, ?_⟩
    rw [← hdelivered]
    exact unread_decode address size other

/-- A word that comes in two chunks, with an interruption and an empty chunk between them, and a
second word of which only the first byte comes. -/
theorem decode_depends_on_delivered_of_broken_word :
    let timeout : StreamFailure := ⟨.other "TimedOut", "timed out"⟩
    let reader : Reader := [.chunk [1, 0], .failure ⟨.interrupted, "interrupted"⟩, .chunk [],
      .chunk [0, 0, 7], .failure timeout, .chunk [9]]
    (∃ region, (decode ⟨0x60000000⟩ 1 reader).1 = .ok region ∧ region.image = [1, 0, 0, 0]) ∧
      (decode ⟨0x60000000⟩ 1 reader).2.unread = [7, 9] ∧
      (decode ⟨0x60000002⟩ 1 reader).1 = .error (.recording (.misalignedAddress ⟨0x60000002⟩)) ∧
      (decode ⟨0x60000002⟩ 2 reader).1 = .error (.transfer timeout) ∧
      (decode ⟨0x60000002⟩ 2 reader).2.unread = [9] ∧
      (decode ⟨0x60000002⟩ 2 [.chunk [1, 0, 0, 0, 7], .failure timeout]).1 =
        (decode ⟨0x60000002⟩ 2 reader).1 := by
  intro timeout reader
  obtain ⟨hword, -, -⟩ := decode_depends_on_delivered ⟨0x60000000⟩ 1 reader
  obtain ⟨htaken, haligned, -⟩ := hword (by decide)
  obtain ⟨region, hregion, -, himage⟩ := haligned (by decide)
  obtain ⟨hmisplaced, -, -⟩ := decode_depends_on_delivered ⟨0x60000002⟩ 1 reader
  obtain ⟨-, -, hmisaligned⟩ := hmisplaced (by decide)
  obtain ⟨-, hbroken, hother⟩ := decode_depends_on_delivered ⟨0x60000002⟩ 2 reader
  obtain ⟨hgone, hfailed⟩ := hbroken (by decide)
  have hleft : [1, 0, 0, 0] ++ [7, 9] = [1, 0, 0, 0] ++ (decode ⟨0x60000000⟩ 1 reader).2.unread :=
    htaken
  have hrest : [1, 0, 0, 0, 7] ++ [9] =
      [1, 0, 0, 0, 7] ++ (decode ⟨0x60000002⟩ 2 reader).2.unread := hgone
  refine ⟨⟨region, hregion, himage⟩, ?_, hmisaligned (by decide), hfailed, ?_, ?_⟩
  · exact (List.append_cancel_left hleft).symm
  · exact (List.append_cancel_left hrest).symm
  · exact (hother _ (by decide) (by decide)).1

end Region

end EnsembleRecording
