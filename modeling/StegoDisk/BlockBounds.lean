import StegoDisk.Capacities

/-!
The blocks of a carrier and its buffer. Only the first byte of a block is checked, and the encoder works through a raw
pointer from there: that it stays in the buffer follows from how many blocks `SetEncoder` counts and from how many of
them `AddToVirtualStorage` uses.
-/
namespace StegoDisk
open Loops CarrierFilesManager

namespace CarrierFile

variable {env : Environment} {e : Encoder} {file : CarrierFile} {s : VirtualStorage} {n : Nat} {f : Nat → Nat}

/-- The bytes of the buffer that the blocks in use take, from its first byte on. -/
def bytesTouched (e : Encoder) (file : CarrierFile) : Nat := file.blocksUsed * e.codewordBlockSize

/-- What is done with a buffer of the raw capacity stays in it, and in as many elements of the carrier as it has bits. -/
structure Inside (e : Encoder) (file : CarrierFile) : Prop where
  blocks : file.bytesTouched e ≤ file.rawCapacity
  /-- Each bit of the blocks is backed by an element. -/
  backed : ∀ k < 8 * file.bytesTouched e, ∃ i < file.permutation.size, file.permutation.permute i = .ok k
  /-- Each index of the loops has an element, and a bit in the buffer. -/
  indices : ∀ i < file.permutation.size, i < 8 * file.rawCapacity ∧
    ∃ k, file.permutation.permute i = .ok k ∧ k < file.permutation.size ∧ k / 8 < file.rawCapacity
  /-- The blocks lie in the buffer, and the encoder stays in its block. -/
  slices : ∀ buffer : MemoryBuffer, buffer.length = file.rawCapacity → ∀ b < file.blocksUsed, ∃ codeword data,
    blockAt buffer (b * file.codewordBlockSize) e.codewordBlockSize = .ok codeword ∧ e.extract codeword = .ok data ∧
      data.length = file.dataBlockSize ∧ ∀ stored : List UInt8, stored.length = file.dataBlockSize →
        ∃ after, e.embed codeword stored = .ok after ∧ after.length = e.codewordBlockSize
  extracts : ∀ s n f, VirtualStorage.Mapped s n f → ∀ buffer buffer' : MemoryBuffer, buffer.length = file.rawCapacity →
    buffer'.length = file.rawCapacity → (∀ j < file.bytesTouched e, buffer.getD j 0 = buffer'.getD j 0) →
    ∃ s' code, file.extractBufferUsingEncoder buffer s = (s',.ok code) ∧ file.extractBufferUsingEncoder buffer' s = (s',.ok code)
  embeds : ∀ s n f, VirtualStorage.Mapped s n f → ∀ buffer : MemoryBuffer, buffer.length = file.rawCapacity →
    0 < file.blocksUsed → ∃ after, file.embedBufferUsingEncoder buffer s = .ok after ∧ after.length = file.rawCapacity ∧
      ∀ j, file.bytesTouched e ≤ j → after.getD j 0 = buffer.getD j 0
  gathers : ∀ image, Opened file image → ∃ buffer, file.unpack file.permutation.size image = .ok buffer ∧
    buffer.length = file.rawCapacity
  scatters : ∀ image, Opened file image → ∀ buffer : MemoryBuffer, buffer.length = file.rawCapacity →
    ∃ after, file.pack buffer image = .ok after ∧
      ∀ i, 8 * file.rawCapacity ≤ i → after.bits.getD i false = image.bits.getD i false

/-- Blocks that agree are decoded alike, and nothing behind them is read. -/
theorem decoded_congr (encodes : file.Encodes e n) {buffer buffer' : MemoryBuffer} (whole : buffer.length = n)
    (whole' : buffer'.length = n) (same : ∀ j < file.bytesTouched e, buffer.getD j 0 = buffer'.getD j 0) {b : Nat}
    (used : b < file.blocksUsed) : file.extractedBlock e buffer b = file.extractedBlock e buffer' b := by
  have inside := encodes.block used
  refine extractedBlock_congr (whole.trans whole'.symm) (by omega) ?_
  intro j _ high
  apply same
  have upto := Nat.mul_le_mul_right e.codewordBlockSize (show b + 1 ≤ file.blocksUsed from used)
  rw [Nat.succ_mul] at upto
  rw [encodes.codewordBlockSize] at high
  exact high.trans_le upto

theorem calls_congr (encodes : file.Encodes e n) {buffer buffer' : MemoryBuffer} (whole : buffer.length = n)
    (whole' : buffer'.length = n) (same : ∀ j < file.bytesTouched e, buffer.getD j 0 = buffer'.getD j 0) :
    file.calls (file.decoded e buffer) = file.calls (file.decoded e buffer') := by
  unfold calls
  apply List.flatMap_congr
  intro b member
  have blocks := decoded_congr encodes whole whole' same (List.mem_range.mp member)
  simp only [decoded,blocks]

/-- Embedding leaves what is behind the blocks as it was. -/
theorem embedBufferUsingEncoder_frame (encodes : file.Encodes e n) {buffer : MemoryBuffer} (whole : buffer.length = n)
    {m : Nat} (mapped : s.Mapped m f) (blocks : 0 < file.blocksUsed) :
    ∃ after, file.embedBufferUsingEncoder buffer s = .ok after ∧ after.length = n ∧
      ∀ j, file.bytesTouched e ≤ j → after.getD j 0 = buffer.getD j 0 := by
  have some_ := encodes.some_
  have positive := e.codewordBlockSize_pos
  have width := encodes.codewordBlockSize
  have filled : buffer.length ≠ 0 := by omega
  have wide : file.codewordBlockSize ≠ 0 := by omega
  have used : file.blocksUsed ≠ 0 := by omega
  simp only [embedBufferUsingEncoder,filled,encodes.encoder,wide,used,if_false,bytesTouched]
  refine foldlM_range (fun i (after : MemoryBuffer) => after.length = n ∧
    ∀ j, i * e.codewordBlockSize ≤ j → after.getD j 0 = buffer.getD j 0) ⟨whole,fun _ _ => rfl⟩ ?_
  rintro b used before ⟨size,behind⟩
  obtain ⟨after,ran,size',_,others⟩ := embedBlock_ok encodes size mapped used
  refine ⟨after,ran,size',?_⟩
  intro j beyond
  rw [Nat.succ_mul] at beyond
  rw [others j (by rw [width]; omega),behind j (by omega)]

theorem Ready.inside (ready : Ready env e file f) : file.Inside e := by
  have encodes := ready.encodes
  have fits := ready.fills.fits
  have blocks := ready.blocks
  refine ⟨encodes.blocks,?_,?_,?_,?_,?_,?_,?_⟩
  · intro k low
    rw [bytesTouched] at low
    obtain ⟨i,below,rfl⟩ := ready.fills.permutes.onto (show k < file.permutation.size by omega)
    exact ⟨i,below,ready.fills.values i below⟩
  · intro i below
    have place := ready.fills.permutes.lt below
    exact ⟨by omega,f i,ready.fills.values i below,place,by omega⟩
  · intro buffer length b used
    have room := encodes.block used
    have whole : ((buffer.drop (b * file.codewordBlockSize)).take e.codewordBlockSize).length = e.codewordBlockSize := by
      rw [List.length_take,List.length_drop]
      omega
    obtain ⟨data,extracted,size⟩ := e.extract_total whole
    refine ⟨_,data,blockAt_ok e.codewordBlockSize_pos (by omega),extracted,size.trans encodes.dataBlockSize.symm,?_⟩
    intro stored size'
    obtain ⟨after,embedded,width,_⟩ := e.embed_extract whole (size'.trans encodes.dataBlockSize)
    exact ⟨after,embedded,width⟩
  · intro s n f mapped buffer buffer' whole whole' same
    exact ⟨_,_,extractBufferUsingEncoder_ok encodes whole mapped,
      by rw [extractBufferUsingEncoder_ok encodes whole' mapped,calls_congr encodes whole whole' same]⟩
  · intro s n f mapped buffer whole some_
    exact embedBufferUsingEncoder_frame encodes whole mapped some_
  · intro image opened
    obtain ⟨buffer,unpacked,length,_⟩ := ready.unpacks opened
    exact ⟨buffer,unpacked,length⟩
  · intro image opened buffer length
    obtain ⟨after,packed,_,bits,_⟩ := pack_ok opened ready.fills ready.positive ready.enough length
    refine ⟨after,packed,?_⟩
    intro i beyond
    simp only [bits,overlay,List.getD_eq_getElem?_getD,List.getElem?_mapIdx,Nat.zero_add]
    have outside : ¬ i < file.permutation.size := by omega
    cases image.bits[i]? with
    | none => rfl
    | some bit => simp [outside]

/-- A carrier that has an encoder and a share of its capacity keeps its blocks below the size of its permutation, and
    with a buffer that can be allocated everything stays inside. -/
theorem blocks_inside (env : Environment) (e : Encoder) {file file₁ file₂ : CarrierFile} {storage offset bytesUsed : Nat}
    (subkey : file.subkey.isSome) (settled : file.permutation.size = 0 ∨ file.Initializes env file.permutation)
    (encoded : file.setEncoder env e = (file₁,.ok ())) (enough : bytesUsed ≤ file₁.capacity)
    (ready : (file₁.addToVirtualStorage storage offset bytesUsed).initPermutation env = (file₂,.ok ())) :
    8 * file₂.bytesTouched e ≤ file₂.permutation.size ∧
      ∀ memory buffer, allocate memory file.rawCapacity = .ok buffer → file₂.Inside e := by
  have same := setEncoder_eq encoded
  have subkey₁ : (file₁.addToVirtualStorage storage offset bytesUsed).subkey.isSome := by
    rw [same]
    exact subkey
  have settled₁ : file₁.permutation.size = 0 ∨ file₁.Initializes env file₁.permutation := by
    rw [same]
    exact settled
  have raw : (file₁.addToVirtualStorage storage offset bytesUsed).rawCapacity = file.rawCapacity := by
    rw [same]
    rfl
  obtain ⟨q,rfl,initializes⟩ := initPermutation_initializes subkey₁ settled₁ ready
  have positive : 0 < file.rawCapacity := by
    by_contra none_
    obtain ⟨key,p,_,_,returns⟩ := id initializes
    rw [raw,Nat.eq_zero_of_not_pos none_] at returns
    have size := Permutation.init_size machine_exact (by decide) (fun _ => StegoMath.sqrt32_eq (by decide)) returns
    have zero : word64 (0 * 8) = 0 := rfl
    omega
  have prepared := (setEncoder_prepared positive subkey settled encoded).1
  have shared := prepared_addToVirtualStorage prepared storage offset bytesUsed
  obtain ⟨used,few⟩ := (prepared.shaped e.dataBlockSize_lt).blocksUsed enough storage offset
  have most : (file₁.addToVirtualStorage storage offset bytesUsed).blocksUsed ≤ file₁.blockCount := used.trans_le few
  constructor
  · have fits := (Nat.mul_le_mul_right e.codewordBlockSize most).trans (shared.blocks_le initializes)
    simp only [bytesTouched]
    omega
  · intro memory buffer allocated
    have small : file.rawCapacity < addressSpace := by
      unfold allocate at allocated
      split at allocated
      · assumption
      · cases allocated
    have kept : word64 (file.rawCapacity * 8) ≤ file.rawCapacity * 8 := Nat.mod_le _ _
    have room : word64 ((file₁.addToVirtualStorage storage offset bytesUsed).rawCapacity * 8) < 2 ^ 52 := by
      simp only [addressSpace] at small
      rw [raw]
      omega
    obtain ⟨_,f,_,_,held⟩ := shared.ready most room ready
    exact held.inside

/-- A carrier of 1200 bits, of which the permutation takes 1184. -/
def mixedCarrier : CarrierFile := { declared with rawCapacity := 150, permutation := .fresh .feistelMix }

theorem blocks_inside_mixed : ∃ file₁ file₂, mixedCarrier.setEncoder Permutation.twoPrimes (.hamming ⟨3,by decide⟩) = (file₁,.ok ()) ∧
    (file₁.addToVirtualStorage 0 0 50).initPermutation Permutation.twoPrimes = (file₂,.ok ()) ∧
    8 * file₂.bytesTouched (.hamming ⟨3,by decide⟩) ≤ file₂.permutation.size ∧
      ∀ memory buffer, allocate memory mixedCarrier.rawCapacity = .ok buffer → file₂.Inside (.hamming ⟨3,by decide⟩) := by
  have ran : (mixedCarrier.setEncoder Permutation.twoPrimes (.hamming ⟨3,by decide⟩)).2 = .ok () ∧
      50 ≤ (mixedCarrier.setEncoder Permutation.twoPrimes (.hamming ⟨3,by decide⟩)).1.capacity ∧
      (((mixedCarrier.setEncoder Permutation.twoPrimes (.hamming ⟨3,by decide⟩)).1.addToVirtualStorage 0 0 50).initPermutation
        Permutation.twoPrimes).2 = .ok () := by
    decide +kernel
  rcases encoded : mixedCarrier.setEncoder Permutation.twoPrimes (.hamming ⟨3,by decide⟩) with ⟨file₁,result⟩
  rw [encoded] at ran
  rcases ready : (file₁.addToVirtualStorage 0 0 50).initPermutation Permutation.twoPrimes with ⟨file₂,result₂⟩
  rw [ready] at ran
  obtain ⟨rfl,enough,rfl⟩ := ran
  exact ⟨file₁,file₂,rfl,ready,blocks_inside Permutation.twoPrimes (.hamming ⟨3,by decide⟩) rfl (.inl rfl) encoded enough ready⟩

end CarrierFile
end StegoDisk
