import StegoDisk.VirtualStorage
import StegoDisk.Keccak

/-!
What the checksum of a storage covers. The number of bytes in front of it is a `size_t` up to
`KeccakHashImpl::Process`, which makes an `int` of it; no storage is too large for `ApplyPermutation` but for the
address space.
-/
namespace StegoDisk

/-! ### The length -/

namespace Keccak

/-- A length is its own `int` when an `int` can hold it. -/
theorem int_eq_iff (n : Nat) : int n = n ↔ n < 2 ^ 31 := by
  have small := word32_lt n
  constructor
  · intro same
    rw [int] at same
    split at same <;> omega
  · intro narrow
    have whole : word32 n = n := Nat.mod_eq_of_lt (by omega)
    rw [int,whole,if_pos narrow]

/-- The code digests as many bytes of a buffer as the low half of the length says, or copies far outside its
    temporary. -/
theorem process_cases {data : MemoryBuffer} {n : Nat} (inside : n ≤ data.length) :
    process data n = if word32 n < 2 ^ 31 then .ok (digest (data.take (word32 n))) else .error .undefined := by
  have small := word32_lt n
  rw [process,int]
  split
  · exact keccak_eq ((Nat.mod_le _ _).trans inside)
  · exact keccak_undefined _ (by omega) (by omega)

/-- The bytes behind the length do not matter. -/
theorem process_take {data : MemoryBuffer} {n : Nat} (inside : n ≤ data.length) :
    process (data.take n) n = process data n := by
  have length : (data.take n).length = n := by rw [List.length_take,min_eq_left inside]
  have short : word32 n ≤ n := Nat.mod_le _ _
  rw [process_cases inside,process_cases (le_of_eq length.symm),List.take_take,min_eq_left short]

end Keccak

namespace VirtualStorage
open Keccak

/-- The checksum of a storage is what the code computes from the buffer and the number of bytes in front of the
    checksum. -/
theorem checksum_eq {s : VirtualStorage} {data : MemoryBuffer} (inside : s.usableCapacity ≤ data.length) :
    s.checksum digest data = process data s.usableCapacity := by
  have length : (data.take s.usableCapacity).length = s.usableCapacity := by rw [List.length_take,min_eq_left inside]
  have same := process_eq (data.take s.usableCapacity)
  rw [length,process_take inside] at same
  rw [checksum,if_pos inside,same]

/-! ### What is covered -/

/-- The length that reaches the sponge is the number of bytes in front of the checksum, the code computes the sponge
    over them all and nothing is copied from outside the data or to outside the temporary, and this is the digest that
    is stored and the one that is compared with the stored one. -/
structure Covered (s : VirtualStorage) (data : MemoryBuffer) : Prop where
  reaches : int s.usableCapacity = s.usableCapacity
  absorbed : process data s.usableCapacity = .ok (digest (data.take s.usableCapacity))
  stored : writeChecksum digest { s with data := some data } =
    .ok { s with data := some (splice data s.usableCapacity (digest (data.take s.usableCapacity)).val) }
  recomputed : isValidChecksum digest { s with data := some data } =
    .ok ((data.drop s.usableCapacity).take storageHashLength == (digest (data.take s.usableCapacity)).val)

/-- A buffer with bytes in front of a checksum. -/
theorem covered_iff {s : VirtualStorage} {data : MemoryBuffer} (positive : 0 < s.usableCapacity)
    (length : data.length = s.usableCapacity + storageHashLength) : Covered s data ↔ s.usableCapacity < 2 ^ 31 := by
  have inside : s.usableCapacity ≤ data.length := by omega
  constructor
  · intro covered
    exact (int_eq_iff _).mp covered.reaches
  · intro narrow
    have whole : word32 s.usableCapacity = s.usableCapacity := Nat.mod_eq_of_lt (by omega)
    have absorbed : process data s.usableCapacity = .ok (digest (data.take s.usableCapacity)) := by
      rw [process_cases inside,whole,if_pos narrow]
    have computed : checksum digest { s with data := some data } data = .ok (digest (data.take s.usableCapacity)) :=
      (checksum_eq inside).trans absorbed
    have some_ : data.length ≠ 0 := by omega
    have users : s.usableCapacity ≠ 0 := by omega
    refine ⟨(int_eq_iff _).mpr narrow,absorbed,?_,?_⟩
    · have room : ¬ s.usableCapacity + storageHashLength > data.length := by omega
      simp only [writeChecksum,some_,users,or_self,if_false,computed,ok_bind,room]
    · have room : s.usableCapacity + storageHashLength ≤ data.length := by omega
      simp only [isValidChecksum,some_,users,if_false,computed,ok_bind,room,if_true]

/-- What `ApplyPermutation` leaves when it returns. -/
theorem applyPermutation_parts {env : Environment} {memory : Nat → UInt8} {s₀ s : VirtualStorage} {requestedSize : Nat}
    {key : List UInt8} (applied : s₀.applyPermutation env memory requestedSize key = (s,.ok ())) :
    0 < s.usableCapacity ∧ s.rawCapacity = s.usableCapacity + storageHashLength := by
  obtain none_ | ⟨p,holds⟩ : s₀.permutation = none ∨ ∃ p, s₀.permutation = some p := by
    cases s₀.permutation with
    | none => exact .inl rfl
    | some p => exact .inr ⟨p,rfl⟩
  · rw [applyPermutation,none_] at applied
    cases applied
  · rcases @applyPermutation_cases env memory s₀ p holds requestedSize key with
      ⟨failure,fails,-⟩ | ⟨-,large,-,returns⟩
    · rw [fails] at applied
      cases applied
    · rw [returns] at applied
      cases applied
      dsimp only
      omega

/-- The checksum of a storage that was applied covers the bytes in front of it, whatever they are, exactly when there
    are fewer of them than 2³¹. -/
theorem checksum_covers_iff {env : Environment} {memory : Nat → UInt8} {s₀ s : VirtualStorage} {requestedSize : Nat}
    {key : List UInt8} (applied : s₀.applyPermutation env memory requestedSize key = (s,.ok ())) {data : MemoryBuffer}
    (length : data.length = s.rawCapacity) : Covered s data ↔ s.usableCapacity < 2 ^ 31 := by
  obtain ⟨positive,parts⟩ := applyPermutation_parts applied
  exact covered_iff positive (length.trans parts)

/-- An environment in which no number counts as a prime. -/
private def primeless : Environment := ⟨digest,fun _ _ => false,0⟩

/-- A storage to which the identity was given. -/
private def identityStorage : VirtualStorage := { permutation := some (.identity {}) }

theorem checksum_covers_eight :
    ∃ s, identityStorage.applyPermutation primeless (fun _ => 0) 40 (List.replicate 32 0) = (s,.ok ()) ∧
    (Covered s (List.replicate 40 7) ↔ s.usableCapacity < 2 ^ 31) := by
  refine ⟨_,rfl,?_⟩
  exact @checksum_covers_iff primeless (fun _ => 0) identityStorage _ 40 (List.replicate 32 0) rfl _ rfl

/-- In front of a checksum 2³¹ bytes away the length is negative, and the copy of the last bytes leaves the data. -/
theorem checksum_covers_half :
    ∃ s, identityStorage.applyPermutation primeless (fun _ => 0) (2 ^ 31 + 32) (List.replicate 32 0) =
      (s,.ok ()) ∧ s.usableCapacity = 2 ^ 31 ∧
    ∀ data, data.length = s.rawCapacity → process data s.usableCapacity = .error .undefined ∧ ¬ Covered s data := by
  rcases @applyPermutation_cases primeless (fun _ => 0) identityStorage (.identity {}) rfl (2 ^ 31 + 32) (List.replicate 32 0) with
    ⟨failure,-,none_ | low | high⟩ | ⟨-,-,-,returns⟩
  · exact absurd rfl none_
  · exact absurd low (by decide)
  · exact absurd high (by decide)
  · refine ⟨_,returns,rfl,fun data length => ?_⟩
    have size : ((Permutation.identity {}).init primeless (2 ^ 31 + 32) (List.replicate 32 0)).1.size = 2 ^ 31 + 32 := rfl
    simp only [size,storageHashLength] at length ⊢
    constructor
    · rw [process_cases (by omega),if_neg (by decide)]
    · intro covered
      exact absurd ((int_eq_iff _).mp covered.reaches) (by decide)

end VirtualStorage
end StegoDisk
