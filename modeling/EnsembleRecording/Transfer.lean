import EnsembleRecording.Fault
import EnsembleRecording.Memory

/-!
# Transfer of Regions

The image of a region is its words in order, the least significant byte of each first.  It carries
no header: address and size of the region are known to both ends of the transfer.

A reader stands for a stream by all that it is still going to deliver: chunks of bytes and failures,
in order, and then the end.  How bytes are divided into chunks says nothing about the data, and
interruptions are read over.  A read takes one byte after the other, so that where it fails the
bytes before the failure are gone.  A sink collects the bytes written to it, without bound or up to
a limit, and a write that does not fit stores the bytes that do and then fails.
-/

namespace EnsembleRecording

inductive Delivery
  | chunk (bytes : List UInt8)
  /-- A failure, which is raised by one read only. -/
  | failure (failure : StreamFailure)
deriving DecidableEq, Repr

/-- A stream, as what it is still going to deliver. -/
abbrev Reader := List Delivery

namespace Reader

def ofBytes (bytes : List UInt8) : Reader := [.chunk bytes]

/-- The bytes still to come, whatever failures lie between them. -/
def unread (reader : Reader) : List UInt8 :=
  reader.flatMap fun
    | .chunk bytes => bytes
    | .failure _ => []

/-- Takes the next byte.  The second component is the reader as it is left. -/
def next : Reader → Except StreamFailure UInt8 × Reader
  | [] => (.error .atEnd, [])
  | .chunk [] :: rest => next rest
  | .chunk (byte :: bytes) :: rest => (.ok byte, .chunk bytes :: rest)
  | .failure failure :: rest =>
    if failure.kind = .interrupted then next rest else (.error failure, rest)

def take (reader : Reader) : Nat → Except StreamFailure (List UInt8) × Reader
  | 0 => (.ok [], reader)
  | count + 1 =>
    match reader.next with
    | (.error failure, rest) => (.error failure, rest)
    | (.ok byte, rest) =>
      match take rest count with
      | (.error failure, rest) => (.error failure, rest)
      | (.ok bytes, rest) => (.ok (byte :: bytes), rest)

end Reader

structure Sink where
  written : Array UInt8
  /-- The most bytes that the sink can hold, where it is bounded. -/
  limit : Option Nat
deriving DecidableEq, Repr

namespace Sink

def unbounded : Sink := ⟨#[], none⟩

def bounded (limit : Nat) : Sink := ⟨#[], some limit⟩

def hasRoom (sink : Sink) : Bool :=
  match sink.limit with
  | none => true
  | some limit => decide (sink.written.size < limit)

/-- Writes bytes in order.  The second component is the sink as it is left. -/
def put (sink : Sink) : List UInt8 → Except StreamFailure Unit × Sink
  | [] => (.ok (), sink)
  | byte :: rest =>
    if sink.hasRoom then put ⟨sink.written.push byte, sink.limit⟩ rest
    else (.error .full, sink)

end Sink

namespace Word

/-- The four bytes of a word, the least significant first. -/
def toBytes (word : UInt32) : List UInt8 :=
  [UInt8.ofNat word.toNat, UInt8.ofNat (word.toNat / 0x100),
    UInt8.ofNat (word.toNat / 0x10000), UInt8.ofNat (word.toNat / 0x1000000)]

/-- The number with the given bytes, the least significant first. -/
def natOfBytes : List UInt8 → Nat
  | [] => 0
  | byte :: rest => byte.toNat + 0x100 * natOfBytes rest

/-- The word with the given bytes, the least significant first. -/
def ofBytes (bytes : List UInt8) : UInt32 := UInt32.ofNat (natOfBytes bytes)

def write (word : UInt32) (sink : Sink) : Except StreamFailure Unit × Sink :=
  sink.put (toBytes word)

def read (reader : Reader) : Except StreamFailure UInt32 × Reader :=
  match reader.take Address.wordBytes with
  | (.error failure, rest) => (.error failure, rest)
  | (.ok bytes, rest) => (.ok (ofBytes bytes), rest)

/-- Writes words in order up to the first that does not fit. -/
def writeAll : List UInt32 → Sink → Except StreamFailure Unit × Sink
  | [], sink => (.ok (), sink)
  | word :: rest, sink =>
    match write word sink with
    | (.error failure, left) => (.error failure, left)
    | (.ok _, left) => writeAll rest left

/-- Reads so many words behind those read before.  The words read up to a failure are kept. -/
def readAll : Nat → Reader → Array UInt32 → Except StreamFailure Unit × Array UInt32 × Reader
  | 0, reader, words => (.ok (), words, reader)
  | count + 1, reader, words =>
    match read reader with
    | (.error failure, rest) => (.error failure, words, rest)
    | (.ok word, rest) => readAll count rest (words.push word)

end Word

namespace Region

def encode (region : Region) (sink : Sink) : Except HostFault Unit × Sink :=
  match Word.writeAll region.words.toList sink with
  | (.error failure, left) => (.error (.transfer failure), left)
  | (.ok _, left) => (.ok (), left)

/-- The bytes of the image of a region. -/
def image (region : Region) : List UInt8 := region.words.toList.flatMap Word.toBytes

/-- Reads the image of a region at an address.  The address is judged when all words have
arrived. -/
def decode (address : Address) (size : Nat) (reader : Reader) : Except HostFault Region × Reader :=
  match Word.readAll size reader #[] with
  | (.error failure, words, rest) =>
    if failure.kind = .endOfStream then (.error (.truncated size words.size), rest)
    else (.error (.transfer failure), rest)
  | (.ok _, words, rest) => ((Region.ofWords address words).mapError .recording, rest)

end Region

end EnsembleRecording
