import StegoDisk.StegoMath

/-!
`encoders/`: an encoder turns a block of user data into a codeword block of the
carrier and back. `LsbEncoder` copies; `HammingEncoder` puts `parityBits` bits of data
into each codeword of `2 ^ parityBits - 1` bits by changing at most one of them. The
block buffers are raw pointers in the source, so an access outside a block is
undefined.
-/
namespace StegoDisk

/-- A byte read through a raw pointer. -/
def peek (bytes : List UInt8) (i : Nat) : Except Failure UInt8 :=
  match bytes[i]? with
  | some value => .ok value
  | none => .error .undefined

/-- A byte written through a raw pointer. -/
def poke (bytes : List UInt8) (i : Nat) (value : UInt8) : Except Failure (List UInt8) :=
  if i < bytes.length then .ok (bytes.set i value) else .error .undefined

theorem peek_of_lt {bytes : List UInt8} {i : Nat} (inside : i < bytes.length) : peek bytes i = .ok (bytes.getD i 0) := by
  simp [peek,List.getD_eq_getElem?_getD,inside]

theorem poke_of_lt {bytes : List UInt8} {i : Nat} (inside : i < bytes.length) (value : UInt8) :
    poke bytes i value = .ok (bytes.set i value) := by
  simp [poke,inside]

/-! ### Lsb -/

/-- A block size that `Init` accepts; data and codeword blocks have the same. -/
structure LsbEncoder where
  blockSize : Nat
  power : StegoMath.popcount (UInt64.ofNat blockSize) = 1
  inRange : 1 ≤ blockSize ∧ blockSize ≤ 1024

namespace LsbEncoder

/-- `LsbEncoder::Init`. The bound in the middle of the second message is added to a
    string literal as a pointer offset. -/
def init (blockSize : Nat) : Except Failure LsbEncoder :=
  if power : StegoMath.popcount (UInt64.ofNat blockSize) = 1 then
    if inRange : 1 ≤ blockSize ∧ blockSize ≤ 1024 then .ok ⟨blockSize,power,inRange⟩
    else .error (.thrown (.invalidArgument
      ("LsbEncoder::init: 'block_size' is " ++ toString blockSize ++ " but should be in range <" ++ ",1024" ++ ">")))
  else .error (.thrown (.invalidArgument
    ("LsbEncoder::init: 'block_size' should be power of two, but is " ++ toString blockSize)))

/-- `LsbEncoder::LsbEncoder`, with the default block size 1. -/
def default : LsbEncoder := ⟨1,by decide,by decide⟩

/-- `LsbEncoder::Embed`. -/
def embed (e : LsbEncoder) (codeword data : List UInt8) : Except Failure (List UInt8) :=
  if e.blockSize ≤ codeword.length ∧ e.blockSize ≤ data.length then
    .ok (data.take e.blockSize ++ codeword.drop e.blockSize)
  else .error .undefined

/-- `LsbEncoder::Extract`. -/
def extract (e : LsbEncoder) (codeword : List UInt8) : Except Failure (List UInt8) :=
  if e.blockSize ≤ codeword.length then .ok (codeword.take e.blockSize) else .error .undefined

end LsbEncoder

/-! ### Hamming -/

/-- The parameter that `Init` accepts; the other members are computed from it. -/
structure HammingEncoder where
  parityBits : Nat
  inRange : 3 ≤ parityBits ∧ parityBits ≤ 8

namespace HammingEncoder

/-- `HammingEncoder::Init`. The lower bound is added to a string literal as a pointer offset. -/
def init (parityBits : Nat) : Except Failure HammingEncoder :=
  if inRange : 3 ≤ parityBits ∧ parityBits ≤ 8 then .ok ⟨parityBits,inRange⟩
  else .error (.thrown (.outOfRange
    ("HammingEncoder::init: 'parity_bits' is " ++ toString parityBits ++ "hould be in <" ++ ",8" ++ ">")))

/-- `HammingEncoder::HammingEncoder`, with the default of 5 parity bits. -/
def default : HammingEncoder := ⟨5,by decide⟩

def totalBits (e : HammingEncoder) : Nat := 2 ^ e.parityBits - 1
def dataBlockSize (e : HammingEncoder) : Nat := StegoMath.lcm e.parityBits 8 / 8
def codewordsInBlock (e : HammingEncoder) : Nat := e.dataBlockSize * 8 / e.parityBits
def codewordBufferSize (e : HammingEncoder) : Nat := (e.totalBits - 1) / 8 + 1
def codewordBlockSize (e : HammingEncoder) : Nat := e.codewordBufferSize * e.codewordsInBlock

/-- Bit `t` of `ComputeH`: the running line of the control matrix, and the result so far. -/
def computeHStep (e : HammingEncoder) (buffer : List UInt8) (start : Nat) (state : Nat × Nat) (t : Nat) :
    Except Failure (Nat × Nat) :=
  if state.1 ≤ e.totalBits then do
    let byte ← peek buffer (start + t / 8)
    .ok (state.1 + 1,if byte.toNat.testBit (7 - t % 8) then state.2 ^^^ state.1 else state.2)
  else .ok state

/-- `HammingEncoder::ComputeH` for the codeword at `start`. -/
def computeH (e : HammingEncoder) (buffer : List UInt8) (start : Nat) : Except Failure Nat := do
  let state ← (List.range (8 * e.codewordBufferSize)).foldlM (computeHStep e buffer start) (1,0)
  .ok state.2

/-- `HammingEncoder::SwapBitInCodeword` for the codeword at `start`. -/
def swapBitInCodeword (buffer : List UInt8) (start bitIn : Nat) : Except Failure (List UInt8) :=
  if bitIn = 0 then .ok buffer
  else do
    let byte ← peek buffer (start + (bitIn - 1) / 8)
    poke buffer (start + (bitIn - 1) / 8) (byte ^^^ UInt8.ofNat (2 ^ (7 - (bitIn - 1) % 8)))

/-- `HammingEncoder::ReadBitsFromBuffer`. -/
def readBitsFromBuffer (buffer : List UInt8) (length offset writtenBits result : Nat) : Except Failure Nat :=
  if writtenBits < length then do
    let byte ← peek buffer (offset / 8)
    let bitOffset := offset % 8
    let value := (byte.toNat <<< bitOffset) &&& 0xFF
    let rest := length - writtenBits
    let value := if rest < 8 - bitOffset then value >>> (8 - bitOffset - rest) else value
    let taken := if rest < 8 - bitOffset then rest else 8 - bitOffset
    readBitsFromBuffer buffer length (offset + taken) (writtenBits + taken)
      (result ^^^ ((value >>> bitOffset) <<< (rest - taken)))
  else .ok result
termination_by length - writtenBits
decreasing_by split <;> omega

/-- `HammingEncoder::WriteBitsToBuffer`. The value is shifted right, or left where fewer
    bits are left than the byte takes. -/
def writeBitsToBuffer (parityBits value : Nat) (buffer : List UInt8) (offset writtenBits : Nat) :
    Except Failure (List UInt8) :=
  if writtenBits < parityBits then do
    let bitOffset := offset % 8
    let left := 8 + writtenBits - parityBits - bitOffset
    let right := parityBits + bitOffset - 8 - writtenBits
    let tmp := if parityBits + bitOffset < 8 + writtenBits then (value <<< left) &&& ((0xFF <<< left) &&& 0xFF)
      else (value >>> right) &&& 0xFF
    let byte ← peek buffer (offset / 8)
    let buffer ← poke buffer (offset / 8) (byte ^^^ UInt8.ofNat tmp)
    if right = 0 then writeBitsToBuffer parityBits value buffer (offset + parityBits) parityBits
    else writeBitsToBuffer parityBits value buffer (offset + (parityBits - right)) (parityBits - right)
  else .ok buffer
termination_by parityBits - writtenBits
decreasing_by all_goals omega

/-- Codeword `i` of `Embed`. -/
def embedStep (e : HammingEncoder) (data codeword : List UInt8) (i : Nat) : Except Failure (List UInt8) := do
  let h ← e.computeH codeword (i * e.codewordBufferSize)
  let m ← readBitsFromBuffer data e.parityBits (i * e.parityBits) 0 0
  swapBitInCodeword codeword (i * e.codewordBufferSize) (h ^^^ m)

/-- `HammingEncoder::Embed`. -/
def embed (e : HammingEncoder) (codeword data : List UInt8) : Except Failure (List UInt8) :=
  (List.range e.codewordsInBlock).foldlM (e.embedStep data) codeword

/-- Codeword `i` of `Extract`. -/
def extractStep (e : HammingEncoder) (codeword data : List UInt8) (i : Nat) : Except Failure (List UInt8) := do
  let h ← e.computeH codeword (i * e.codewordBufferSize)
  writeBitsToBuffer e.parityBits h data (i * e.parityBits) 0

/-- `HammingEncoder::Extract`. -/
def extract (e : HammingEncoder) (codeword : List UInt8) : Except Failure (List UInt8) :=
  (List.range e.codewordsInBlock).foldlM (e.extractStep codeword) (List.replicate e.dataBlockSize 0)

end HammingEncoder

/-! ### The interface -/

/-- `EncoderFactory::EncoderType`. -/
inductive EncoderType
  | lsb
  | hamming
  deriving DecidableEq

inductive Encoder
  | lsb (e : LsbEncoder)
  | hamming (e : HammingEncoder)

namespace Encoder

/-- `EncoderFactory::GetEncoder`. -/
def ofType : EncoderType → Encoder
  | .lsb => .lsb LsbEncoder.default
  | .hamming => .hamming HammingEncoder.default

/-- `Encoder::GetDataBlockSize`. -/
def dataBlockSize : Encoder → Nat
  | .lsb e => e.blockSize
  | .hamming e => e.dataBlockSize

/-- `Encoder::GetCodewordBlockSize`. -/
def codewordBlockSize : Encoder → Nat
  | .lsb e => e.blockSize
  | .hamming e => e.codewordBlockSize

/-- `Encoder::Embed`. -/
def embed (e : Encoder) (codeword data : List UInt8) : Except Failure (List UInt8) :=
  match e with
  | .lsb e => e.embed codeword data
  | .hamming e => e.embed codeword data

/-- `Encoder::Extract`. -/
def extract (e : Encoder) (codeword : List UInt8) : Except Failure (List UInt8) :=
  match e with
  | .lsb e => e.extract codeword
  | .hamming e => e.extract codeword

end Encoder
end StegoDisk
