import StegoDisk.Attached

/-!
The checksum of a storage and what users read and write in front of it. A checksum that was
written is valid and leaves what users read as it was.
-/
namespace StegoDisk
namespace VirtualStorage

variable {env : Environment} {g : PermutationType} {requestedSize : Nat} {key : List UInt8} {s s' : VirtualStorage}
  {n : Nat} {f : Nat → Nat} {keccak : Keccak}

/-- The bytes of a storage that is applied, with the sizes of its two parts. -/
theorem AppliedAs.parts (applied : s.AppliedAs env g requestedSize key) (mapped : s.Mapped n f) :
    ∃ data, s.data = some data ∧ data.length = n ∧ s.usableCapacity = n - 32 ∧ 32 < n := by
  obtain ⟨data,holds,length⟩ := mapped.holds
  have usable := applied.usable
  have large := applied.large
  rw [mapped.raw] at usable large
  exact ⟨data,holds,length,usable,large⟩

/-- The bytes in front of the checksum as they are kept when it is replaced. -/
theorem splice_take (bytes block : List UInt8) {start : Nat} (inside : start ≤ bytes.length) :
    (splice bytes start block).take start = bytes.take start := by
  rw [splice,List.append_assoc,List.take_append_of_le_length (by simp [inside]),List.take_take,min_self]

theorem processBuffer_ok {data : List UInt8} (narrow : word32 data.length < 2 ^ 31) :
    Hash.processBuffer keccak data = .ok (keccak (data.take (word32 data.length))) := by
  rw [Hash.processBuffer,if_pos narrow]

/-- The checksum can be computed exactly when the length is a positive `int`. -/
theorem isValidChecksum_iff (applied : s.AppliedAs env g requestedSize key) (mapped : s.Mapped n f) :
    (∃ valid, s.isValidChecksum keccak = .ok valid) ↔ word32 (n - 32) < 2 ^ 31 := by
  obtain ⟨data,holds,length,usable,large⟩ := applied.parts mapped
  have front : (data.take s.usableCapacity).length = n - 32 := by rw [List.length_take]; omega
  have some_ : data.length ≠ 0 := by omega
  have users : s.usableCapacity ≠ 0 := by omega
  have room : s.usableCapacity + storageHashLength ≤ data.length := by
    rw [storageHashLength]
    omega
  simp only [isValidChecksum,holds,some_,users,if_false,checksum,(Nat.le_add_right _ _).trans room,if_true]
  by_cases narrow : word32 (n - 32) < 2 ^ 31
  · rw [processBuffer_ok (by rw [front]; exact narrow),ok_bind,if_pos room]
    exact ⟨fun _ => narrow,fun _ => ⟨_,rfl⟩⟩
  · rw [Hash.processBuffer,if_neg (by rw [front]; exact narrow),error_bind]
    exact ⟨fun ⟨_,returned⟩ => by simp at returned,fun small => absurd small narrow⟩

/-- `WriteChecksum` changes the bytes behind those of the users, and the checksum is valid then. -/
theorem writeChecksum_ok (applied : s.AppliedAs env g requestedSize key) (mapped : s.Mapped n f)
    (narrow : word32 (n - 32) < 2 ^ 31) :
    ∃ data, s.writeChecksum keccak = .ok { s with data := data } ∧ Mapped { s with data := data } n f ∧
      isValidChecksum keccak { s with data := data } = .ok true ∧
      ∀ offset length, read { s with data := data } offset length = s.read offset length := by
  obtain ⟨data,holds,length,usable,large⟩ := applied.parts mapped
  have front : (data.take s.usableCapacity).length = n - 32 := by rw [List.length_take]; omega
  obtain ⟨digest,same⟩ : ∃ digest, digest =
    keccak ((data.take s.usableCapacity).take (word32 (data.take s.usableCapacity).length)) := ⟨_,rfl⟩
  have room : s.usableCapacity + digest.val.length ≤ data.length := by
    rw [digest.property]
    omega
  have kept := splice_length room
  have some_ : data.length ≠ 0 := by omega
  have users : s.usableCapacity ≠ 0 := by omega
  have inside : s.usableCapacity ≤ data.length := by omega
  have fits : ¬ s.usableCapacity + 32 > data.length := by omega
  have short : word32 (data.take s.usableCapacity).length < 2 ^ 31 := by rwa [front]
  have before := splice_take data digest.val inside
  refine ⟨some (splice data s.usableCapacity digest.val),?_,mapped.replace (kept.trans length),?_,?_⟩
  · simp only [writeChecksum,holds,some_,users,or_self,if_false,checksum,inside,if_true,processBuffer_ok short,ok_bind,
      storageHashLength,fits,← same]
  · have behind : ((splice data s.usableCapacity digest.val).drop s.usableCapacity).take storageHashLength = digest.val := by
      have block := VirtualStorage.splice_block data digest.val room
      rwa [digest.property] at block
    simp only [isValidChecksum,kept,some_,users,if_false,checksum,inside,if_true,before,processBuffer_ok short,ok_bind,behind,
      ← same]
    rw [if_pos (by simp only [storageHashLength]; omega)]
    simp
  · intro offset count
    simp only [read,userData,holds,kept]
    by_cases far : word64 (offset + count) > s.usableCapacity
    · simp [far]
    by_cases none_ : count = 0
    · simp [none_]
    by_cases within : offset + count ≤ data.length
    · simp only [far,none_,some_,within,if_false,if_true,ok_bind]
      have fits := mapped.fits
      simp only [addressSpace] at fits
      rw [word64_of_lt (by omega)] at far
      -- what is read lies in front of the checksum
      have slice : ∀ bytes : List UInt8, (bytes.drop offset).take count =
          ((bytes.take s.usableCapacity).drop offset).take count := by
        intro bytes
        rw [List.drop_take,List.take_take,min_eq_left (by omega)]
      rw [slice,slice data,before]
    · simp [far,none_,some_,within]

/-! ### Users -/

/-- A `Write` that returns changes bytes alone. -/
theorem Mapped.write_keeps (mapped : s.Mapped n f) {offset : Nat} {source : List UInt8}
    (written : s.write offset source = .ok s') : ∃ data, s' = { s with data := data } ∧ Mapped { s with data := data } n f := by
  rcases write_eq_ok written with rfl | ⟨data,holds,inside,rfl⟩
  · exact ⟨s'.data,rfl,mapped⟩
  · obtain ⟨held,there,length⟩ := mapped.holds
    obtain rfl := Option.some.inj (there.symm.trans holds)
    exact ⟨_,rfl,mapped.replace ((splice_length inside).trans length)⟩

/-- A `Write` in front of the checksum returns. -/
theorem AppliedAs.write_ok (applied : s.AppliedAs env g requestedSize key) (mapped : s.Mapped n f) {offset : Nat}
    {source : List UInt8} (inRange : offset + source.length ≤ s.usableCapacity) : ∃ s', s.write offset source = .ok s' := by
  obtain ⟨data,holds,length,usable,large⟩ := applied.parts mapped
  have fits := mapped.fits
  simp only [addressSpace] at fits
  have small : word64 (offset + source.length) = offset + source.length := word64_of_lt (by omega)
  by_cases none_ : source.length = 0
  · rw [none_] at small
    refine ⟨s,?_⟩
    have below : ¬ offset + 0 > s.usableCapacity := by omega
    simp only [VirtualStorage.write,userData,none_,small,below,if_false,if_true,ok_bind]
  · refine ⟨{ s with data := some (splice data offset source) },?_⟩
    have some_ : data.length ≠ 0 := by omega
    have within : offset + source.length ≤ data.length := by omega
    simp only [VirtualStorage.write,userData,small,Nat.not_lt.mpr inRange,none_,holds,some_,within,if_false,if_true,ok_bind]

/-- Writes one after another. -/
def writes (s : VirtualStorage) (calls : List (Nat × List UInt8)) : Except Failure VirtualStorage :=
  calls.foldlM (fun s call => s.write call.1 call.2) s

theorem AppliedAs.writes_ok (applied : s.AppliedAs env g requestedSize key) (mapped : s.Mapped n f)
    {calls : List (Nat × List UInt8)} (inRange : ∀ call ∈ calls, call.1 + call.2.length ≤ s.usableCapacity) :
    ∃ data, s.writes calls = .ok { s with data := data } ∧ Mapped { s with data := data } n f := by
  induction calls generalizing s with
  | nil => exact ⟨s.data,rfl,mapped⟩
  | cons call rest ih =>
    obtain ⟨s',written⟩ := applied.write_ok mapped (inRange call List.mem_cons_self)
    obtain ⟨data,rfl,mapped'⟩ := mapped.write_keeps written
    obtain ⟨data',ran,mapped''⟩ := ih (applied.replace data) mapped' fun c member => inRange c (List.mem_cons_of_mem _ member)
    refine ⟨data',?_,mapped''⟩
    rw [writes,List.foldlM_cons,written]
    exact ran

end VirtualStorage
end StegoDisk
