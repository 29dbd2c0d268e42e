import StegoDisk.Hash
import StegoDisk.Permutations

/-!
`virtual_storage/virtual_storage.cc`. The buffer holds the user's bytes and, behind
them, the checksum; carriers reach it byte by byte through the global permutation,
users reach it directly. A storage owns its permutation. An operation that can
leave members changed when it fails gives the object after it as well.
-/
namespace StegoDisk

/-- `StorageHashLenght`. -/
def storageHashLength : Nat := 32

structure VirtualStorage where
  permutation : Option Permutation := none
  isSetPermutation : Bool := false
  rawCapacity : Nat := 0
  usableCapacity : Nat := 0
  data : Option MemoryBuffer := none

namespace VirtualStorage

/-- The checks of `GetUsableCapacity` and `GetRawCapacity`. -/
def checkApplied (s : VirtualStorage) : Except Failure Unit :=
  match s.permutation with
  | none => .error (.thrown (.invalidState .getCapacity .permutation .notSetted))
  | some _ =>
    if s.isSetPermutation then .ok () else .error (.thrown (.invalidState .getCapacity .permutation .notApplied))

/-- `VirtualStorage::GetUsableCapacity`. -/
def getUsableCapacity (s : VirtualStorage) : Except Failure Nat := do
  s.checkApplied
  .ok s.usableCapacity

/-- `VirtualStorage::GetRawCapacity`. -/
def getRawCapacity (s : VirtualStorage) : Except Failure Nat := do
  s.checkApplied
  .ok s.rawCapacity

/-- `VirtualStorage::UnSetPermutation`: only the pointer is reset. -/
def unSetPermutation (s : VirtualStorage) : VirtualStorage := { s with permutation := none }

/-- `VirtualStorage::SetPermutation`; no argument is the null pointer. -/
def setPermutation (s : VirtualStorage) : Option Permutation → VirtualStorage × Except Failure Unit
  | none => (s,.error (.thrown (.nullptrArgument "permutation")))
  | some p =>
    let s := if s.permutation.isSome then s.unSetPermutation else s
    ({ s with permutation := some p },.ok ())

/-- The part of `ApplyPermutation` after the permutation `p` was initialised. -/
def allocateData (memory : Nat → UInt8) (s : VirtualStorage) (p : Permutation) (requestedSize : Nat) :
    VirtualStorage × Except Failure Unit :=
  if p.size = 0 then
    (s,.error (.thrown (.rangeError ("VirtualStorage::applyPermutation: size of " ++ p.name ++
      " is Initialized by requested size (" ++ toString requestedSize ++ ") to zero"))))
  else if p.size ≤ storageHashLength then
    (s,.error (.thrown (.outOfRange "VirtualStorage::applyPermutation: capacity ot the storage is too low")))
  else
    match allocate memory p.size with
    | .error failure => (s,.error failure)
    | .ok buffer =>
      ({ s with data := some buffer, rawCapacity := p.size, usableCapacity := p.size - storageHashLength,
                isSetPermutation := true },.ok ())

/-- `VirtualStorage::ApplyPermutation`. -/
def applyPermutation (env : Environment) (memory : Nat → UInt8) (s : VirtualStorage) (requestedSize : Nat)
    (key : List UInt8) : VirtualStorage × Except Failure Unit :=
  match s.permutation with
  | none => (s,.error (.thrown (.invalidState .getCapacity .permutation .notSetted)))
  | some p =>
    match p.init env requestedSize key with
    | (p,.error failure) => ({ s with permutation := some p },.error failure)
    | (p,.ok ()) => allocateData memory { s with permutation := some p } p requestedSize

/-- Where `ReadByte` and `WriteByte` find the byte of a position. -/
def locate (s : VirtualStorage) (position : Nat) : Except Failure Nat :=
  if position ≥ s.rawCapacity then .error (.thrown (.outOfRange "index out of range"))
  else
    match s.permutation with
    | none => .error (.thrown (.invalidState .ioVirtualStorage .storage .notInitialized))
    | some p => p.permute position

/-- `VirtualStorage::ReadByte`. -/
def readByte (s : VirtualStorage) (position : Nat) : Except Failure UInt8 := do
  let index ← s.locate position
  match s.data with
  | none => .error .undefined
  | some data => data.at index

/-- `VirtualStorage::WriteByte`. -/
def writeByte (s : VirtualStorage) (position : Nat) (value : UInt8) : Except Failure VirtualStorage := do
  let index ← s.locate position
  match s.data with
  | none => .error .undefined
  | some data => do
    let _ ← data.at index
    .ok { s with data := some (data.set index value) }

/-- The checks of `Read` and `Write`, and the buffer they copy from or to. The sum of
    offset and length is taken in 64 bits. -/
def userData (s : VirtualStorage) (offset length : Nat) : Except Failure MemoryBuffer :=
  if word64 (offset + length) > s.usableCapacity then .error (.thrown (.outOfRange "index out of range"))
  else if length = 0 then .ok []
  else
    match s.data with
    | none => .error .undefined
    | some data =>
      if data.length = 0 then .error (.thrown (.invalidState .ioVirtualStorage .storage .notInitialized))
      else if offset + length ≤ data.length then .ok data else .error .undefined

/-- `VirtualStorage::Read`. -/
def read (s : VirtualStorage) (offset length : Nat) : Except Failure (List UInt8) := do
  let data ← s.userData offset length
  .ok ((data.drop offset).take length)

/-- The bytes with a block of them replaced. -/
def splice (bytes : List UInt8) (offset : Nat) (block : List UInt8) : List UInt8 :=
  bytes.take offset ++ block ++ bytes.drop (offset + block.length)

/-- `VirtualStorage::Write`. -/
def write (s : VirtualStorage) (offset : Nat) (source : List UInt8) : Except Failure VirtualStorage := do
  let data ← s.userData offset source.length
  if source.length = 0 then .ok s else .ok { s with data := some (splice data offset source) }

/-- The checksum of the bytes before it. -/
def checksum (keccak : Keccak) (s : VirtualStorage) (data : MemoryBuffer) : Except Failure Digest :=
  if s.usableCapacity ≤ data.length then Hash.processBuffer keccak (data.take s.usableCapacity) else .error .undefined

/-- `VirtualStorage::IsValidChecksum`. -/
def isValidChecksum (keccak : Keccak) (s : VirtualStorage) : Except Failure Bool :=
  match s.data with
  | none => .error .undefined
  | some data =>
    if data.length = 0 then .error (.thrown (.emptyMember "data"))
    else if s.usableCapacity = 0 then .error (.thrown (.emptyMember "usable_capacity"))
    else do
      let digest ← s.checksum keccak data
      if s.usableCapacity + storageHashLength ≤ data.length then
        .ok ((data.drop s.usableCapacity).take storageHashLength == digest.val)
      else .error .undefined

/-- `VirtualStorage::WriteChecksum`. -/
def writeChecksum (keccak : Keccak) (s : VirtualStorage) : Except Failure VirtualStorage :=
  match s.data with
  | none => .error .undefined
  | some data =>
    if data.length = 0 ∨ s.usableCapacity = 0 then
      .error (.thrown (.invalidState .ioVirtualStorage .storage .notInitialized))
    else do
      let digest ← s.checksum keccak data
      if s.usableCapacity + storageHashLength > data.length then
        .error (.thrown (.outOfRange "MemoryBuffer: write: offset + length > size"))
      else .ok { s with data := some (splice data s.usableCapacity digest.val) }

/-- An `ApplyPermutation` either throws, and then only the permutation may have changed, or it
    gives a buffer of the size of the permutation. -/
theorem applyPermutation_cases {env : Environment} {memory : Nat → UInt8} {s : VirtualStorage} {p : Permutation}
    (holds : s.permutation = some p) (requestedSize : Nat) (key : List UInt8) :
    (∃ failure, s.applyPermutation env memory requestedSize key =
        ({ s with permutation := some (p.init env requestedSize key).1 },.error failure) ∧
      ((p.init env requestedSize key).2 ≠ .ok () ∨ (p.init env requestedSize key).1.size ≤ storageHashLength ∨
        addressSpace ≤ (p.init env requestedSize key).1.size)) ∨
    ((p.init env requestedSize key).2 = .ok () ∧ storageHashLength < (p.init env requestedSize key).1.size ∧
      (p.init env requestedSize key).1.size < addressSpace ∧
      s.applyPermutation env memory requestedSize key =
        ({ permutation := some (p.init env requestedSize key).1, isSetPermutation := true,
           rawCapacity := (p.init env requestedSize key).1.size,
           usableCapacity := (p.init env requestedSize key).1.size - storageHashLength,
           data := some ((List.range (p.init env requestedSize key).1.size).map memory) },.ok ())) := by
  simp only [applyPermutation,holds]
  rcases p.init env requestedSize key with ⟨q,failure | done⟩
  · exact .inl ⟨failure,rfl,.inl (by simp)⟩
  · simp only [allocateData]
    by_cases zero : q.size = 0
    · rw [if_pos zero]
      exact .inl ⟨_,rfl,.inr (.inl (by omega))⟩
    by_cases low : q.size ≤ storageHashLength
    · rw [if_neg zero,if_pos low]
      exact .inl ⟨_,rfl,.inr (.inl low)⟩
    rw [if_neg zero,if_neg low,allocate]
    by_cases fits : q.size < addressSpace
    · rw [if_pos fits]
      exact .inr ⟨trivial,by omega,fits,rfl⟩
    · rw [if_neg fits]
      exact .inl ⟨_,rfl,.inr (.inr (by omega))⟩

end VirtualStorage
end StegoDisk
