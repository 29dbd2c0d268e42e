import StegoDisk.RoundTrip

/-!
How many bytes carriers have. `SetEncoder` counts blocks in 32 bits and multiplies in 32 bits, so that a large image has
fewer than it should. `GetCapacityUsingEncoder`, which should tell beforehand what `SetEncoder` will give, returns before
it has computed anything: its test for a missing encoder or permutation is the wrong way round.
-/
namespace StegoDisk

namespace CarrierFile

/-- `CarrierFile::GetCapacityUsingEncoder`; no argument is the null pointer, and a carrier always has a permutation. -/
def getCapacityUsingEncoder (env : Environment) (file : CarrierFile) (encoder : Option Encoder) : Except Failure Nat :=
  if encoder.isSome then .ok 0
  else do
    let size ← file.predictedSize env
    match encoder with
    | none => .error .undefined
    | some e => .ok (word64 (size / 8 / e.codewordBlockSize * e.dataBlockSize))

/-- What `SetEncoder` and `AddToVirtualStorage` count is what there is: the blocks in the predicted size, the bytes
    of data in them, and the blocks that the bytes used take. -/
structure Counts (env : Environment) (e : Encoder) (file : CarrierFile) (size bytesUsed : Nat) : Prop where
  blockCount : (file.setEncoder env e).1.blockCount = size / 8 / e.codewordBlockSize
  capacity : (file.setEncoder env e).1.capacity = size / 8 / e.codewordBlockSize * e.dataBlockSize
  blocksUsed : ∀ storage offset, ((file.setEncoder env e).1.addToVirtualStorage storage offset bytesUsed).blocksUsed =
    (bytesUsed + e.dataBlockSize - 1) / e.dataBlockSize

end CarrierFile

namespace CarrierFilesManager

/-- `CarrierFilesManager::GetCapacityUsingEncoder`. -/
def getCapacityUsingEncoder (env : Environment) (m : CarrierFilesManager) : Option Encoder → Except Failure Nat
  | none => .error (.thrown (.invalidState .getCapacity .encoder .notSetted))
  | some e => m.carrierFiles.foldlM (fun capacity file => do
      let own ← file.getCapacityUsingEncoder env (some e)
      .ok (word64 (capacity + own))) 0

/-- The preview is what `GetCapacity` answers once the encoder is applied, and file by file what each carrier has then. -/
structure Previewed (env : Environment) (m : CarrierFilesManager) (e : Encoder) : Prop where
  total : m.getCapacityUsingEncoder env (some e) = ((m.setEncoder e).applyEncoder env).1.getCapacity
  each : ∀ (i : Nat) (c c' : CarrierFile), m.carrierFiles[i]? = some c → ((m.setEncoder e).applyEncoder env).1.carrierFiles[i]? = some c' →
    c.getCapacityUsingEncoder env (some e) = .ok c'.capacity

variable {env : Environment} {e : Encoder} {m m' : CarrierFilesManager}

theorem getCapacityUsingEncoder_zero (env : Environment) (m : CarrierFilesManager) (e : Encoder) :
    m.getCapacityUsingEncoder env (some e) = .ok 0 := by
  unfold getCapacityUsingEncoder
  induction m.carrierFiles with
  | nil => rfl
  | cons file rest ih => exact ih

/-- An `ApplyEncoder` that throws leaves the encoder inactive. -/
theorem applyEncoder_inactive {failure : Failure} (inactive : m.isActiveEncoder = false)
    (failed : m.applyEncoder env = (m',.error failure)) : m'.isActiveEncoder = false := by
  cases holds : m.encoder with
  | none =>
    simp only [applyEncoder,holds,Prod.mk.injEq] at failed
    rw [← failed.1]
    exact inactive
  | some e =>
    by_cases empty : m.carrierFiles.isEmpty = true
    · simp only [applyEncoder,holds,generateMasterKey,empty,if_true,Prod.mk.injEq] at failed
      rw [← failed.1]
      exact inactive
    simp only [applyEncoder,holds,generateMasterKey,empty,Bool.false_eq_true,if_false] at failed
    split at failed
    · obtain ⟨rfl,_⟩ := Prod.mk.inj failed
      exact inactive
    · split at failed
      · obtain ⟨rfl,_⟩ := Prod.mk.inj failed
        exact inactive
      · cases (Prod.mk.inj failed).2

/-- No preview is right: it is 0, and `ApplyEncoder` either finds more than 0 bytes or throws. -/
theorem not_previewed (env : Environment) (m : CarrierFilesManager) (e : Encoder) : ¬ Previewed env m e := by
  rintro ⟨total,_⟩
  rw [getCapacityUsingEncoder_zero] at total
  rcases ran : (m.setEncoder e).applyEncoder env with ⟨m',failure | _⟩
  · rw [ran,getCapacity,applyEncoder_inactive rfl ran] at total
    simp at total
    split at total <;> cases total
  · obtain ⟨_,_,some_,rfl⟩ := (applyEncoder_eq_ok (setEncoder_holds m e)).mp ran
    rw [ran,getCapacity,if_neg (by simp [applied,setEncoder_holds m e])] at total
    exact some_ (Except.ok.inj total).symm

/-- For a picture of 34 bytes the preview is 0. -/
theorem not_previewed_picture : pictureOpened.getCapacityUsingEncoder Permutation.twoPrimes (some (.lsb .default)) = .ok 0 ∧
    ((pictureOpened.setEncoder (.lsb .default)).applyEncoder Permutation.twoPrimes).1.getCapacity = .ok 34 ∧
    ¬ Previewed Permutation.twoPrimes pictureOpened (.lsb .default) := by
  have ran : pictureOpened.getCapacityUsingEncoder Permutation.twoPrimes (some (.lsb .default)) = .ok 0 ∧
      ((pictureOpened.setEncoder (.lsb .default)).applyEncoder Permutation.twoPrimes).1.getCapacity = .ok 34 := by
    decide +kernel
  refine ⟨ran.1,ran.2,?_⟩
  rintro ⟨total,_⟩
  rw [ran.1,ran.2] at total
  cases total

end CarrierFilesManager

theorem Encoder.dataBlockSize_pos (e : Encoder) : 0 < e.dataBlockSize := by
  cases e with
  | lsb e => exact e.inRange.1
  | hamming e => exact e.dataBlockSize_pos

namespace CarrierFile

/-- The blocks that some bytes take. -/
theorem blocksUsed_eq (file : CarrierFile) (storage offset bytesUsed : Nat) (positive : 0 < file.dataBlockSize) :
    (file.addToVirtualStorage storage offset bytesUsed).blocksUsed =
      word32 ((bytesUsed + file.dataBlockSize - 1) / file.dataBlockSize) := by
  simp only [addToVirtualStorage]
  cases bytesUsed with
  | zero => rw [if_pos rfl,Nat.div_eq_of_lt (by omega)]; rfl
  | succ n =>
    rw [if_neg (Nat.succ_ne_zero n),Nat.add_sub_cancel,show n + 1 + file.dataBlockSize - 1 = n + file.dataBlockSize by omega,
      Nat.add_div_right _ positive]

/-- What is counted is what there is exactly when the bytes of data, and the blocks that the bytes used take, fit in
    32 bits. -/
theorem counts_iff (env : Environment) (e : Encoder) (file : CarrierFile) (size : Nat) (bytesUsed : UInt64)
    (predicted : file.predictedSize env = .ok size) :
    file.Counts env e size bytesUsed.toNat ↔ size / 8 / e.codewordBlockSize * e.dataBlockSize < 2 ^ 32 ∧
      (bytesUsed.toNat + e.dataBlockSize - 1) / e.dataBlockSize < 2 ^ 32 := by
  have positive := e.dataBlockSize_pos
  have counted : file.setEncoder env e = ({ file with
      encoder := some e, dataBlockSize := e.dataBlockSize, codewordBlockSize := e.codewordBlockSize,
      blockCount := word32 (size / 8 / e.codewordBlockSize),
      capacity := word32 (word32 (size / 8 / e.codewordBlockSize) * e.dataBlockSize) },.ok ()) := by
    have same : { file with encoder := some e, dataBlockSize := e.dataBlockSize,
                            codewordBlockSize := e.codewordBlockSize }.predictedSize env = .ok size := predicted
    simp only [setEncoder,same]
  constructor
  · rintro ⟨_,capacity,blocksUsed⟩
    have used := blocksUsed 0 0
    rw [counted] at capacity used
    rw [blocksUsed_eq _ _ _ _ positive] at used
    exact ⟨capacity ▸ word32_lt _,used ▸ word32_lt _⟩
  · rintro ⟨small,few⟩
    have blocks : size / 8 / e.codewordBlockSize < 2 ^ 32 := (Nat.le_mul_of_pos_right _ positive).trans_lt small
    refine ⟨?_,?_,?_⟩
    · rw [counted]
      exact word32_of_lt blocks
    · rw [counted]
      simp only [word32_of_lt blocks,word32_of_lt small]
    · intro storage offset
      rw [counted,blocksUsed_eq _ _ _ _ positive]
      exact word32_of_lt few

/-- The carrier of a PNG image whose header declares 131072 pixels in each direction. -/
def declared : CarrierFile where
  file := ⟨[],[97,46,112,110,103]⟩
  rawCapacity := 131072 * 131072 * 3 / 8
  permutation := .fresh .identity
  subkey := some ⟨Permutation.zeroKey,by decide⟩

theorem counts_small : Counts Permutation.twoPrimes (.hamming .default) { declared with rawCapacity := 1000 } 8000 100 :=
  (counts_iff Permutation.twoPrimes (.hamming .default) { declared with rawCapacity := 1000 } 8000 100 rfl).mpr
    (by decide +kernel)

/-- Six gigabytes are counted as two. -/
theorem not_counts_declared : declared.predictedSize Permutation.twoPrimes = .ok 51539607552 ∧
    (declared.setEncoder Permutation.twoPrimes (.lsb .default)).1.capacity = 2147483648 ∧
    ¬ Counts Permutation.twoPrimes (.lsb .default) declared 51539607552 0 := by
  have ran : declared.predictedSize Permutation.twoPrimes = .ok 51539607552 ∧
      (declared.setEncoder Permutation.twoPrimes (.lsb .default)).1.capacity = 2147483648 := by
    decide +kernel
  refine ⟨ran.1,ran.2,?_⟩
  rintro ⟨_,capacity,_⟩
  rw [ran.2] at capacity
  revert capacity
  decide

end CarrierFile
end StegoDisk
