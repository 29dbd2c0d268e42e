import StegoDisk.Failures

/-!
`hash/hash.cc`, `hash/hash_impl.cc` and `keys/key.cc` over an arbitrary digest
function of 32 bytes, which stands for keccak.
-/
namespace StegoDisk

/-- The 32 bytes of a hash state. -/
abbrev Digest := {bytes : List UInt8 // bytes.length = 32}

/-- A key holds the state of a hash. -/
abbrev Key := Digest

/-- `keccak` with a digest of 32 bytes. -/
abbrev Keccak := List UInt8 → Digest

namespace Hash

/-- The state of a `Hash` before anything is processed. -/
def initial : Digest := ⟨List.replicate 32 0,by simp⟩

/-- `Hash::Process`: the state becomes the digest of the data, which is not at a null pointer here. -/
def process (keccak : Keccak) (data : List UInt8) : Digest := keccak data

/-- `Hash::Process` of a buffer, whose length reaches the digest function as an `int`: a
    negative one makes it copy far more than the buffer. An empty buffer throws `NullptrArgument` instead; none is
    digested here. -/
def processBuffer (keccak : Keccak) (data : List UInt8) : Except Failure Digest :=
  if word32 data.length < 2 ^ 31 then .ok (keccak (data.take (word32 data.length))) else .error .undefined

/-- `HashImpl::Append`: the digest of the data and the old state are digested together. -/
def append (keccak : Keccak) (state : Digest) (data : List UInt8) : Digest :=
  keccak ((keccak data).val ++ state.val)

end Hash

/-- `Key::FromString`. -/
def keyFromString (keccak : Keccak) (input : List UInt8) : Key := Hash.process keccak input

/-- The number that `width` bytes from `offset` on stand for, least significant first. -/
def littleEndian (bytes : List UInt8) (offset width : Nat) : Nat :=
  ((List.range width).map fun j => (bytes.getD (offset + j) 0).toNat * 256 ^ j).sum

/-- The four bytes of a `uint32` in memory. -/
def uint32Bytes (n : Nat) : List UInt8 :=
  (List.range 4).map fun j => UInt8.ofNat (n / 256 ^ j)

end StegoDisk
