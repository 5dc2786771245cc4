import EnsembleRecording.Number

/-!
# Sources of Encoders

A source gives encoders to try a recording with.  Their elements are uniform over the fixed-point
numbers from -2 up to 2, and are few enough bits to be exact in single precision.  They are made
from the words of any stream.  The one that runs is pseudo-random: the ChaCha permutation with eight
rounds, run on a key, a block counter and an empty nonce, where each value of the counter gives a
block of sixteen words.
-/

namespace EnsembleRecording

namespace ChaCha

abbrev Block := Vector UInt32 16

abbrev Key := Vector UInt32 8

def rotateLeft (word amount : UInt32) : UInt32 :=
  (word <<< amount) ||| (word >>> (32 - amount))

def quarterRound (a b c d : Fin 16) (block : Block) : Block :=
  let block := block.set a (block[a] + block[b])
  let block := block.set d (rotateLeft (block[d] ^^^ block[a]) 16)
  let block := block.set c (block[c] + block[d])
  let block := block.set b (rotateLeft (block[b] ^^^ block[c]) 12)
  let block := block.set a (block[a] + block[b])
  let block := block.set d (rotateLeft (block[d] ^^^ block[a]) 8)
  let block := block.set c (block[c] + block[d])
  block.set b (rotateLeft (block[b] ^^^ block[c]) 7)

/-- A round along the columns of a block and one along its diagonals. -/
def doubleRound (block : Block) : Block :=
  let block := quarterRound 0 4 8 12 block
  let block := quarterRound 1 5 9 13 block
  let block := quarterRound 2 6 10 14 block
  let block := quarterRound 3 7 11 15 block
  let block := quarterRound 0 5 10 15 block
  let block := quarterRound 1 6 11 12 block
  let block := quarterRound 2 7 8 13 block
  quarterRound 3 4 9 14 block

/-- The block from which a block of the stream is computed: four constant words, the key, and the
counter with its lower half first. -/
def initialBlock (key : Key) (counter : UInt64) : Block :=
  #v[0x61707865, 0x3320646e, 0x79622d32, 0x6b206574,
    key[0], key[1], key[2], key[3], key[4], key[5], key[6], key[7],
    counter.toUInt32, (counter >>> 32).toUInt32, 0, 0]

/-- A block of the stream: eight rounds, and the initial block added. -/
def outputBlock (key : Key) (counter : UInt64) : Block :=
  let initial := initialBlock key counter
  let mixed := doubleRound (doubleRound (doubleRound (doubleRound initial)))
  mixed.zipWith (· + ·) initial

/-- One step of the congruential generator that expands a seed. -/
def advanceSeed (state : UInt64) : UInt64 := state * 6364136223846793005 + 11634580027462260723

/-- The word that a state of the seed's generator gives: a few of its upper bits, rotated by its
five uppermost ones. -/
def wordOfSeed (state : UInt64) : UInt32 :=
  let word := (((state >>> 18) ^^^ state) >>> 27).toUInt32
  let amount := (state >>> 59).toUInt32
  (word >>> amount) ||| (word <<< (32 - amount))

def keyOfSeed (seed : UInt64) : Key :=
  Vector.ofFn fun i ↦ wordOfSeed (Nat.repeat advanceSeed (i + 1) seed)

/-- A position in the stream of a key. -/
structure Generator where
  key : Key
  /-- The number of words taken so far. -/
  position : Nat
  /-- The block in which the next word lies. -/
  block : Block

namespace Generator

def ofSeed (seed : UInt64) : Generator :=
  let key := keyOfSeed seed
  ⟨key, 0, outputBlock key 0⟩

def next (generator : Generator) : UInt32 × Generator :=
  let column : Fin 16 := ⟨generator.position % 16, Nat.mod_lt _ (by decide)⟩
  let position := generator.position + 1
  let block :=
    if position % 16 = 0 then outputBlock generator.key (UInt64.ofNat (position / 16))
    else generator.block
  (generator.block[column], ⟨generator.key, position, block⟩)

end Generator

end ChaCha

/-- A stream of words, of which each state gives the next word and the state behind it. -/
class WordGenerator (γ : Type) where
  next : γ → UInt32 × γ

instance : WordGenerator ChaCha.Generator := ⟨ChaCha.Generator.next⟩

structure EncoderSource (γ : Type) where
  dims : Nat
  generator : γ

namespace EncoderSource

def ofSeed (seed : UInt64) (dims : Nat) : EncoderSource ChaCha.Generator := ⟨dims, .ofSeed seed⟩

/-- The element for a word of the stream: its upper seventeen bits, centred on zero. -/
def element (word : UInt32) : Fixed := ⟨(word >>> 15).toInt32 - 65536⟩

variable {γ : Type} [WordGenerator γ]

/-- Takes so many elements, behind those taken before in reverse. -/
def takeElements : Nat → γ → List Fixed → List Fixed × γ
  | 0, generator, taken => (taken.reverse, generator)
  | count + 1, generator, taken =>
    let (word, generator) := WordGenerator.next generator
    takeElements count generator (element word :: taken)

def next (source : EncoderSource γ) : EncoderVector × EncoderSource γ :=
  let (vector, generator) := takeElements source.dims source.generator []
  (vector, { source with generator := generator })

/-- Takes so many encoders, behind those taken before in reverse. -/
def takeVectors :
    Nat → EncoderSource γ → List EncoderVector → List EncoderVector × EncoderSource γ
  | 0, source, taken => (taken.reverse, source)
  | count + 1, source, taken =>
    let (vector, source) := source.next
    takeVectors count source (vector :: taken)

/-- Takes the encoders of a run in the order in which they are recorded, step by step. -/
def run (source : EncoderSource γ) (steps neurons : Nat) :
    List EncoderVector × EncoderSource γ :=
  takeVectors (steps * neurons) source []

end EncoderSource

end EnsembleRecording
