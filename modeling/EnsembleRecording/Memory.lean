import EnsembleRecording.Number

/-!
# Memory

Recordings live in the memory that the cores of a board share.  It is addressed by bytes with 32
bits and moved in words of four bytes.  A region is a block of words at a fixed, word-aligned
address, and its size is fixed when it is allocated.  Its first word enables recording, and the data
follow directly: a core writes fixed-point elements during a run, and the host reads them back
afterwards.  Positions in a region are counted in words from its start.

The host counts words, elements and bytes with 64 bits.  The operations of `Size` are exact and
answer `none` where the exact result does not fit, so that a computation of several steps fails at
the first step that leaves the range.  A buffer is asked for by its number of bytes, and one of
`Size.bufferLimit` or more is refused before any memory is looked for.  That the memory of a smaller
one is there is taken for granted.
-/

namespace EnsembleRecording

namespace Size

/-- The first natural number that a 64-bit machine word cannot hold. -/
def limit : Nat := 0x10000000000000000

/-- The first number of bytes that is too large for a buffer. -/
def bufferLimit : Nat := 0x8000000000000000

/-- The number of bytes that a size itself takes up in a buffer. -/
def byteSize : Nat := 8

/-- A buffer with room for so many items of so many bytes each can be asked for. -/
def FitsBuffer (count itemBytes : Nat) : Prop := count * itemBytes < bufferLimit

instance (count itemBytes : Nat) : Decidable (FitsBuffer count itemBytes) :=
  inferInstanceAs (Decidable (_ < _))

theorem FitsBuffer.of_le {count larger itemBytes : Nat} (h : FitsBuffer larger itemBytes)
    (hle : count ≤ larger) : FitsBuffer count itemBytes :=
  Nat.lt_of_le_of_lt (Nat.mul_le_mul_right itemBytes hle) h

/-- The exact sum, where it fits. -/
def add? (a b : Nat) : Option Nat :=
  if a + b < limit then some (a + b) else none

/-- The exact product, where it fits. -/
def mul? (a b : Nat) : Option Nat :=
  if a * b < limit then some (a * b) else none

theorem add?_eq_some_iff {a b c : Nat} : add? a b = some c ↔ a + b < limit ∧ c = a + b := by
  grind [add?]

theorem mul?_eq_some_iff {a b c : Nat} : mul? a b = some c ↔ a * b < limit ∧ c = a * b := by
  grind [mul?]

end Size

/-- The word that holds a number, where it fits. -/
def Word.ofNat? (number : Nat) : Option UInt32 :=
  if number < UInt32.size then some (UInt32.ofNat number) else none

theorem Word.ofNat?_eq_some_iff {number : Nat} {word : UInt32} :
    ofNat? number = some word ↔ word.toNat = number := by
  have hbound := word.toNat_lt_size
  unfold ofNat?
  split
  · next hfits =>
    rw [Option.some.injEq, ← UInt32.toNat_inj, UInt32.toNat_ofNat_of_lt' hfits, eq_comm]
  · next hpast =>
    constructor
    · intro h
      contradiction
    · intro h
      exact absurd (h ▸ hbound) hpast

structure Address where
  value : UInt32
deriving DecidableEq, Repr, Inhabited

namespace Address

instance : Ord Address := ⟨fun a b ↦ compare a.value b.value⟩

def wordBytes : Nat := 4

def IsAligned (address : Address) : Prop := address.value.toNat % wordBytes = 0

instance (address : Address) : Decidable address.IsAligned :=
  inferInstanceAs (Decidable (_ = _))

/-- The address so many words further on.  The number of words, that of their bytes and the sum each
have to fit into a word. -/
def offset? (address : Address) (words : Nat) : Option Address :=
  (Word.ofNat? words).bind fun count ↦
    (Word.ofNat? (count.toNat * wordBytes)).bind fun bytes ↦
      (Word.ofNat? (address.value.toNat + bytes.toNat)).map Address.mk

/-- The steps of the computation fail only where the exact sum is no address. -/
theorem offset?_eq_some_iff {address target : Address} {words : Nat} :
    address.offset? words = some target ↔
      target.value.toNat = address.value.toNat + wordBytes * words := by
  simp only [offset?, Option.bind_eq_some_iff, Option.map_eq_some_iff, Word.ofNat?_eq_some_iff]
  constructor
  · rintro ⟨count, rfl, bytes, hbytes, value, hvalue, rfl⟩
    rw [hvalue, hbytes, Nat.mul_comm]
  · intro htarget
    have hbound := target.value.toNat_lt
    unfold wordBytes at *
    have hwords : words < 0x100000000 := by omega
    have hbytes : words * 4 < 0x100000000 := by omega
    refine ⟨UInt32.ofNat words, UInt32.toNat_ofNat_of_lt' hwords, UInt32.ofNat (words * 4), ?_,
      target.value, ?_, rfl⟩
    · rw [UInt32.toNat_ofNat_of_lt' hbytes, UInt32.toNat_ofNat_of_lt' hwords]
    · rw [htarget, UInt32.toNat_ofNat_of_lt' hbytes, Nat.mul_comm]

/-- Eight hexadecimal digits. -/
protected def toString (address : Address) : String :=
  "0x" ++ String.ofList ((Nat.toDigits 16 address.value.toNat).leftpad 8 '0')

end Address

inductive RecordingFault
  /-- The ensemble was given no region to record into. -/
  | missingRegion
  /-- The region has no room for the enable flag. -/
  | regionTooSmall (words : Nat)
  | misalignedAddress (address : Address)
  /-- A vector has more elements than the region has words left. -/
  | capacityExceeded (requested remaining : Nat)
  /-- A vector is not as long as the recorder was told to expect. -/
  | dimensionMismatch (expected actual : Nat)
deriving DecidableEq, Repr

namespace RecordingFault

def message : RecordingFault → String
  | missingRegion => "no recording region supplied"
  | regionTooSmall words => s!"recording region too small: {words} words, need at least 1"
  | misalignedAddress address =>
    "recording region address " ++ address.toString ++ " is not word aligned"
  | capacityExceeded requested remaining =>
    s!"recording capacity exceeded: requested {requested} elements, {remaining} remaining"
  | dimensionMismatch expected actual =>
    s!"encoder dimension mismatch: expected {expected}, got {actual}"

end RecordingFault

section

variable {α : Type}

/-- Items with others written over those from a position on.  Where the others would go past the
end, they are dropped; those who write make sure beforehand that none do. -/
def overwrite (items : Array α) (start : Nat) : List α → Array α
  | [] => items
  | item :: rest => overwrite (items.setIfInBounds start item) (start + 1) rest

@[simp]
theorem size_overwrite (items : Array α) (start : Nat) (written : List α) :
    (overwrite items start written).size = items.size := by
  induction written generalizing items start with
  | nil => rfl
  | cons item rest ih => rw [overwrite, ih, Array.size_setIfInBounds]

/-- Items are changed from the position on, as far as those written and those there are go. -/
theorem getElem?_overwrite (items : Array α) (start : Nat) (written : List α) (i : Nat) :
    (overwrite items start written)[i]? =
      if start ≤ i ∧ i < items.size then written[i - start]?.or items[i]? else items[i]? := by
  induction written generalizing items start with
  | nil => simp [overwrite]
  | cons item rest ih =>
    rw [overwrite, ih, Array.size_setIfInBounds]
    by_cases hstart : i = start
    · subst hstart
      grind
    · grind

theorem overwrite_append (items : Array α) (start : Nat) (front back : List α) :
    overwrite items start (front ++ back) =
      overwrite (overwrite items start front) (start + front.length) back := by
  induction front generalizing items start with
  | nil => rfl
  | cons item front ih =>
    rw [List.cons_append, overwrite, ih, overwrite, List.length_cons, Nat.add_right_comm,
      Nat.add_assoc]

end

/-- A contiguous block of words in shared memory. -/
structure Region where
  address : Address
  words : Array UInt32
  aligned : address.IsAligned
deriving DecidableEq

namespace Region

def ofWords (address : Address) (words : Array UInt32) : Except RecordingFault Region :=
  if h : address.IsAligned then .ok ⟨address, words, h⟩ else .error (.misalignedAddress address)

/-- A region of zeros.  Its words are asked for before the address is judged, and there is no
outcome at all where no buffer can hold them. -/
def zeros? (address : Address) (size : Nat) : Option (Except RecordingFault Region) :=
  if Size.FitsBuffer size Address.wordBytes then some (ofWords address (Array.replicate size 0))
  else none

/-- The region without words, which backs a recorder that was given none. -/
def empty : Region := ⟨⟨0⟩, #[], rfl⟩

def size (region : Region) : Nat := region.words.size

def isEmpty (region : Region) : Bool := region.words.isEmpty

def byteSize (region : Region) : Nat := Address.wordBytes * region.size

/-- Address of the word at an offset, which may lie past the end of the region. -/
def addressOf? (region : Region) (offset : Nat) : Option Address := region.address.offset? offset

def word? (region : Region) (offset : Nat) : Option UInt32 := region.words[offset]?

def setWord? (region : Region) (offset : Nat) (word : UInt32) : Option Region :=
  if offset < region.size then
    some { region with words := region.words.setIfInBounds offset word }
  else none

/-- So many words from an offset on, if the region has them all. -/
def slice? (region : Region) (offset count : Nat) : Option (Array UInt32) :=
  if offset + count ≤ region.size then some (region.words.extract offset (offset + count))
  else none

theorem size_of_slice? {region : Region} {offset count : Nat} {words : Array UInt32}
    (h : region.slice? offset count = some words) : words.size = count := by
  unfold slice? at h
  split at h
  · next hfits =>
    obtain rfl := Option.some.inj h
    unfold size at hfits
    rw [Array.size_extract]
    omega
  · contradiction

/-- So many elements from an offset on, if the region has them all. -/
def elements? (region : Region) (offset count : Nat) : Option (Array Fixed) :=
  (region.slice? offset count).map (·.map Fixed.ofWord)

theorem size_of_elements? {region : Region} {offset count : Nat} {elements : Array Fixed}
    (h : region.elements? offset count = some elements) : elements.size = count := by
  obtain ⟨words, hwords, rfl⟩ := Option.map_eq_some_iff.1 h
  rw [Array.size_map, size_of_slice? hwords]

/-- The region with a vector stored from an offset on. -/
def store (region : Region) (offset : Nat) (vector : EncoderVector) : Region :=
  { region with words := overwrite region.words offset (vector.map Fixed.toWord) }

@[simp]
theorem size_store (region : Region) (offset : Nat) (vector : EncoderVector) :
    (region.store offset vector).size = region.size :=
  size_overwrite region.words offset _

/-- Position of the word that enables recording. -/
def flagOffset : Nat := 0

/-- Position of the first data word. -/
def dataOffset : Nat := flagOffset + 1

def capacity (region : Region) : Nat := region.size - dataOffset

@[simp]
theorem capacity_store (region : Region) (offset : Nat) (vector : EncoderVector) :
    (region.store offset vector).capacity = region.capacity := by
  simp only [capacity, size_store]

/-- A region with a given flag whose data begin at a given address and have room for so many
elements.  There is none if the data would begin too low for a flag before them or off a word, or if
no buffer can hold them. -/
def withDataAt? (flag : UInt32) (dataAddress : Address) (capacity : Nat) : Option Region :=
  if dataAddress.value.toNat < Address.wordBytes * dataOffset then none
  else
    let address : Address := ⟨dataAddress.value - UInt32.ofNat (Address.wordBytes * dataOffset)⟩
    ((zeros? address (dataOffset + capacity)).bind Except.toOption).bind
      (·.setWord? flagOffset flag)

end Region

structure Header where
  isEnabled : Bool
  /-- The number of elements that fit behind the flag. -/
  capacity : Nat
deriving DecidableEq, Repr

namespace Header

/-- Reads the header of a region.  Every flag but zero enables recording. -/
def ofRegion (region : Region) : Except RecordingFault Header :=
  match region.word? Region.flagOffset with
  | none => .error (.regionTooSmall region.size)
  | some flag => .ok ⟨flag != 0, region.capacity⟩

end Header

end EnsembleRecording
