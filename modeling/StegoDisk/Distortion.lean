import StegoDisk.HammingMinimal
import StegoDisk.LoadSave

/-!
What saving does to the pixels of a picture under a Hamming encoder. Gathering and scattering
use one permutation and one order of bits, so that a pixel changes only where the bit at its
place in the buffer does, and a block changes a bit of each of its codewords at most.
-/
namespace StegoDisk
open Bits Loops Feistel

namespace Bits

/-- The bits that differ, from the least significant bit of each byte up. -/
def flips (xs ys : List UInt8) : Finset Nat := {k ∈ Finset.range (8 * xs.length) | low xs k ≠ low ys k}

theorem mem_flips {xs ys : List UInt8} {k : Nat} : k ∈ flips xs ys ↔ k < 8 * xs.length ∧ low xs k ≠ low ys k := by
  simp [flips]

theorem flips_self (xs : List UInt8) : flips xs xs = ∅ := by
  simp [flips]

/-- Two changes after each other flip no more bits than both of them. -/
theorem card_flips_le {xs ys zs : List UInt8} (same : xs.length = ys.length) :
    (flips xs zs).card ≤ (flips xs ys).card + (flips ys zs).card := by
  refine (Finset.card_le_card ?_).trans (Finset.card_union_le _ _)
  intro k differ
  obtain ⟨inside,differ⟩ := mem_flips.mp differ
  rw [Finset.mem_union,mem_flips,mem_flips,← same]
  by_cases kept : low xs k = low ys k
  · exact .inr ⟨inside,kept ▸ differ⟩
  · exact .inl ⟨inside,kept⟩

/-- The same bit in the other order. -/
def mirror (k : Nat) : Nat := 8 * (k / 8) + (7 - k % 8)

theorem low_eq_high (xs : List UInt8) (k : Nat) : low xs k = high xs (mirror k) := by
  simp only [low,high,mirror,show (8 * (k / 8) + (7 - k % 8)) / 8 = k / 8 by omega,
    show 7 - (8 * (k / 8) + (7 - k % 8)) % 8 = k % 8 by omega]

/-- Where one block of a list is replaced, as many bits differ as in the block. -/
theorem card_flips_splice {bytes block : List UInt8} {start : Nat} (inside : start + block.length ≤ bytes.length) :
    (flips bytes (VirtualStorage.splice bytes start block)).card ≤
      HammingEncoder.distance ((bytes.drop start).take block.length) block := by
  have own : ∀ k ∈ flips bytes (VirtualStorage.splice bytes start block), start ≤ k / 8 ∧ k / 8 < start + block.length := by
    intro k differ
    by_contra outside
    refine (mem_flips.mp differ).2 ?_
    simp only [low,VirtualStorage.splice_getD bytes block inside,if_neg outside]
  apply Finset.card_le_card_of_injOn (fun k => mirror k - 8 * start)
  · intro k differ
    obtain ⟨low_,high_⟩ := own k differ
    have place : 8 * start + (mirror k - 8 * start) = mirror k := by
      simp only [mirror]
      omega
    have narrow : mirror k - 8 * start < 8 * block.length := by
      simp only [mirror]
      omega
    simp only [SetLike.mem_coe,HammingEncoder.mem_differing,Nat.zero_add]
    refine ⟨by rw [List.length_take,List.length_drop]; omega,?_⟩
    have differs := (mem_flips.mp differ).2
    rw [high_take _ narrow,high_drop,place,← low_eq_high]
    simp only [low,VirtualStorage.splice_getD bytes block inside,if_pos (⟨low_,high_⟩ : _ ∧ _)] at differs ⊢
    simp only [high,mirror]
    rw [show (8 * (k / 8) + (7 - k % 8) - 8 * start) / 8 = k / 8 - start by omega,
      show 7 - (8 * (k / 8) + (7 - k % 8) - 8 * start) % 8 = k % 8 by omega]
    exact differs
  · intro k differ k' differ' same
    have here := own k differ
    have here' := own k' differ'
    simp only [mirror] at same
    omega

end Bits

/-- The pixels of a picture; a JPEG image has coefficients instead. -/
def Image.pixels : Image → List UInt8
  | .bmp pixels => pixels
  | .png pixels => pixels
  | .jpeg _ => []

namespace CarrierFile

variable {env : Environment} {file file' : CarrierFile} {e : HammingEncoder} {s : VirtualStorage} {p : Permutation}
  {f : Nat → Nat} {buffer : MemoryBuffer}

/-! ### Blocks -/

/-- A block that is embedded changes a bit of each of its codewords at most, and no byte outside. -/
theorem embedBlock_changes (sizes : file.dataBlockSize = e.dataBlockSize) {b : Nat} {after : MemoryBuffer}
    (ran : file.embedBlock (.hamming e) s buffer b = .ok after) :
    after.length = buffer.length ∧ (flips buffer after).card ≤ e.codewordsInBlock ∧
      ∀ j, ¬ (b * file.codewordBlockSize ≤ j ∧ j < b * file.codewordBlockSize + e.codewordBlockSize) →
        after.getD j 0 = buffer.getD j 0 := by
  obtain ⟨data,read,rest⟩ := bind_eq_ok.mp ran
  obtain ⟨codeword,sliced,rest⟩ := bind_eq_ok.mp rest
  obtain ⟨codeword',embedded,last⟩ := bind_eq_ok.mp rest
  obtain rfl := Except.ok.inj last
  obtain ⟨inside,rfl,whole⟩ := blockAt_inv sliced
  have block : data.length = e.dataBlockSize := by
    rw [mapM_length read,List.length_range,sizes]
  obtain ⟨after,returned,width,each⟩ := HammingEncoder.embed_ok whole block
  obtain rfl := Except.ok.inj (returned.symm.trans embedded)
  have room : b * file.codewordBlockSize + after.length ≤ buffer.length := by rw [width]; exact inside
  refine ⟨VirtualStorage.splice_length room,?_,?_⟩
  · refine (card_flips_splice room).trans ?_
    rw [width]
    refine (HammingEncoder.distance_le_missing whole fun i inBlock => ?_).trans (HammingEncoder.card_missing_le _ data)
    obtain ⟨_,p,_,zero,bits⟩ := each i inBlock
    exact ⟨p,zero,bits⟩
  · intro j outside
    rw [VirtualStorage.splice_getD _ _ room,if_neg (by rw [width]; exact outside)]

/-- The blocks of a share change a bit of each of their codewords at most, and no byte behind them. -/
theorem embedBufferUsingEncoder_changes (encoder : file.encoder = some (.hamming e))
    (sizes : file.dataBlockSize = e.dataBlockSize) (widths : file.codewordBlockSize = e.codewordBlockSize) {after : MemoryBuffer}
    (ran : file.embedBufferUsingEncoder buffer s = .ok after) :
    after.length = buffer.length ∧ (flips buffer after).card ≤ file.blocksUsed * e.codewordsInBlock ∧
      ∀ j, file.blocksUsed * file.codewordBlockSize ≤ j → after.getD j 0 = buffer.getD j 0 := by
  unfold embedBufferUsingEncoder at ran
  simp only [encoder] at ran
  split at ran
  · cases ran
  split at ran
  · cases ran
  split at ran
  · cases ran
  refine foldlM_range_inv (fun i (after : MemoryBuffer) => after.length = buffer.length ∧
    (flips buffer after).card ≤ i * e.codewordsInBlock ∧
    ∀ j, i * file.codewordBlockSize ≤ j → after.getD j 0 = buffer.getD j 0) ⟨rfl,by simp [flips_self],fun _ _ => rfl⟩ ?_ ran
  rintro b used before after stepped ⟨length,few,behind⟩
  obtain ⟨length',few',outside⟩ := embedBlock_changes sizes stepped
  refine ⟨length'.trans length,?_,?_⟩
  · rw [Nat.succ_mul]
    exact (card_flips_le length.symm).trans (Nat.add_le_add few few')
  · intro j beyond
    rw [Nat.succ_mul] at beyond
    rw [outside j (by omega),behind j (by omega)]

/-! ### Pixels -/

/-- A loop over the pixels that returned had a pixel for every bit. -/
theorem gather_enough {access : List UInt8 → Nat → Except Failure UInt8} {pixels : List UInt8} {n : Nat}
    (reads : ∀ (pixels : List UInt8) i value, access pixels i = .ok value → i < pixels.length)
    (ran : gather access p n pixels = .ok buffer) : p.size ≤ pixels.length := by
  have all := foldlM_range_inv (fun i _ => ∀ j < i, j < pixels.length) (by simp) (by
    rintro i inside before after stepped earlier j upto
    obtain ⟨value,read,_⟩ := bind_eq_ok.mp stepped
    rcases Nat.lt_succ_iff_lt_or_eq.mp upto with below | rfl
    · exact earlier j below
    · exact reads pixels j value read) ran
  by_contra few
  exact absurd (all pixels.length (by omega)) (lt_irrefl _)

/-- What becomes of pixels: some of them change, in their least significant bits, and none behind the permutation
    or with its place behind the first bytes of the buffer. -/
structure Changes (p : Permutation) (f : Nat → Nat) (most bytes : Nat) (before after : List UInt8) : Prop where
  length : after.length = before.length
  few : {i ∈ Finset.range before.length | after.getD i 0 ≠ before.getD i 0}.card ≤ most
  lowest : ∀ i, after.getD i 0 &&& 0xFE = before.getD i 0 &&& 0xFE
  beyond : ∀ i, p.size ≤ i → after.getD i 0 = before.getD i 0
  spared : ∀ i < p.size, bytes ≤ f i / 8 → after.getD i 0 = before.getD i 0

variable {most bytes : Nat}

/-- Pixels whose bits are gathered into a buffer and scattered from one that differs little. -/
theorem changes_of_flips {access : List UInt8 → Nat → Except Failure UInt8} {pixels pixels' : List UInt8} {n : Nat}
    (reads : ∀ (pixels : List UInt8) i value, access pixels i = .ok value ↔ i < pixels.length ∧ value = pixels.getD i 0)
    (fills : Fills p f n) (gathered : gather access p n pixels = .ok buffer) {after : MemoryBuffer}
    (length : after.length = buffer.length) (few : (flips buffer after).card ≤ most)
    (behind : ∀ j, bytes ≤ j → after.getD j 0 = buffer.getD j 0) (scattered : scatter access p after pixels = .ok pixels') :
    Changes p f most bytes pixels pixels' := by
  have inRange : ∀ pixels : List UInt8, ∀ i < pixels.length, access pixels i = .ok (pixels.getD i 0) :=
    fun pixels i inside => (reads pixels i _).mpr ⟨inside,rfl⟩
  have enough := gather_enough (fun pixels i value read => ((reads pixels i value).mp read).1) gathered
  obtain ⟨_,ran,size,bits⟩ := gather_ok (inRange pixels) fills enough
  obtain rfl := Except.ok.inj (gathered.symm.trans ran)
  obtain ⟨placed,_⟩ := bits.values fills
  obtain ⟨_,ran,same,values⟩ := scatter_pixels inRange fills (length.trans size) enough
  obtain rfl := Except.ok.inj (scattered.symm.trans ran)
  -- a pixel keeps its value where the bit at its place does
  have kept : ∀ i < p.size, low after (f i) = low buffer (f i) → pixels'.getD i 0 = pixels.getD i 0 := by
    intro i inside bit
    rw [values,if_pos inside,bit,placed i inside,replaced_lsb]
  have changed : ∀ i ∈ {i ∈ Finset.range pixels.length | pixels'.getD i 0 ≠ pixels.getD i 0}, i < p.size ∧
      low buffer (f i) ≠ low after (f i) := by
    intro i differ
    obtain ⟨_,differ⟩ := Finset.mem_filter.mp differ
    have inside : i < p.size := by
      by_contra outside
      exact differ (by rw [values,if_neg outside])
    exact ⟨inside,fun bit => differ (kept i inside bit.symm)⟩
  refine ⟨same,?_,?_,?_,?_⟩
  · refine (Finset.card_le_card_of_injOn f ?_ ?_).trans few
    · intro i differ
      obtain ⟨inside,bit⟩ := changed i differ
      have below := fills.permutes.lt inside
      have fits := fills.fits
      exact mem_flips.mpr ⟨by omega,bit⟩
    · exact fun i differ i' differ' place => fills.permutes.inj (changed i differ).1 (changed i' differ').1 place
  · intro i
    rw [values]
    split
    · exact cleared_replaced _ _
    · rfl
  · intro i outside
    rw [values,if_neg (by omega)]
  · intro i inside far
    exact kept i inside (low_eq_of_byte (behind _ far) rfl)

/-- What follows the pixels is left alone. -/
theorem Changes.append {front front' : List UInt8} (changes : Changes p f most bytes front front') (back : List UInt8) :
    Changes p f most bytes (front ++ back) (front' ++ back) := by
  obtain ⟨length,few,lowest,beyond,spared⟩ := changes
  have inFront : ∀ i < front.length, (front' ++ back).getD i 0 = front'.getD i 0 ∧ (front ++ back).getD i 0 = front.getD i 0 :=
    fun i inside => ⟨List.getD_append _ _ _ _ (by omega),List.getD_append _ _ _ _ inside⟩
  have behind : ∀ i, front.length ≤ i → (front' ++ back).getD i 0 = (front ++ back).getD i 0 := by
    intro i outside
    rw [List.getD_append_right _ _ _ _ (by omega),List.getD_append_right _ _ _ _ outside,length]
  refine ⟨by simp [length],?_,?_,?_,?_⟩
  · refine (Finset.card_le_card ?_).trans few
    intro i differ
    obtain ⟨_,differ⟩ := Finset.mem_filter.mp differ
    have inside : i < front.length := by
      by_contra outside
      exact differ (behind i (by omega))
    obtain ⟨value',value⟩ := inFront i inside
    rw [value',value] at differ
    exact Finset.mem_filter.mpr ⟨Finset.mem_range.mpr inside,differ⟩
  all_goals
    intro i
    rcases Nat.lt_or_ge i front.length with inside | outside
    · obtain ⟨value',value⟩ := inFront i inside
      simp only [value',value]
      first | exact lowest i | exact beyond i | exact spared i
    · simp only [behind i outside,implies_true]

private theorem at_iff (pixels : List UInt8) (i : Nat) (value : UInt8) :
    MemoryBuffer.at pixels i = .ok value ↔ i < pixels.length ∧ value = pixels.getD i 0 := by
  by_cases inside : i < pixels.length
  · rw [MemoryBuffer.at_of_lt inside,List.getD_eq_getElem _ _ inside,Except.ok.injEq,eq_comm]
    exact (and_iff_right inside).symm
  · simp [MemoryBuffer.at,inside]

private theorem peek_iff (pixels : List UInt8) (i : Nat) (value : UInt8) :
    peek pixels i = .ok value ↔ i < pixels.length ∧ value = pixels.getD i 0 := by
  by_cases inside : i < pixels.length
  · rw [peek_of_lt inside,Except.ok.injEq,eq_comm]
    exact (and_iff_right inside).symm
  · simp [peek,inside]

/-- Under a Hamming encoder `SaveFile` changes a pixel for each codeword of the share at most, and that in its least
    significant bit; it leaves the pixels that the permutation does not have, and those whose place in the
    buffer is behind the blocks of the share. -/
theorem saveFile_changes {image image' : Image} (encoder : file.encoder = some (.hamming e))
    (sizes : file.dataBlockSize = e.dataBlockSize) (widths : file.codewordBlockSize = e.codewordBlockSize)
    (saved : file.saveFile env image s = (file',.ok image')) (fills : Fills file'.permutation f file'.rawCapacity) :
    Changes file'.permutation f (file.blocksUsed * e.codewordsInBlock) (file.blocksUsed * file.codewordBlockSize)
      image.pixels image'.pixels := by
  obtain ⟨q,buffer,after,same,unpacked,embedded,packed⟩ := saveFile_inv saved
  obtain ⟨length,few,behind⟩ := embedBufferUsingEncoder_changes (show file'.encoder = _ by rw [same]; exact encoder)
    (by rw [same]; exact sizes) (by rw [same]; exact widths) embedded
  rw [show file'.blocksUsed = file.blocksUsed by rw [same]] at few behind
  rw [show file'.codewordBlockSize = file.codewordBlockSize by rw [same]] at behind
  cases image with
  | bmp pixels =>
    obtain ⟨front,scattered,last⟩ := bind_eq_ok.mp packed
    obtain rfl := Except.ok.inj last
    have changes := changes_of_flips at_iff fills unpacked length few behind scattered
    simpa only [Image.pixels,List.take_append_drop] using
      changes.append (pixels.drop (word64 (file'.rawCapacity * 8)))
  | png pixels =>
    obtain ⟨pixels',scattered,last⟩ := bind_eq_ok.mp packed
    obtain rfl := Except.ok.inj last
    simp only [unpack] at unpacked
    split at unpacked
    · cases unpacked
    split at unpacked
    · cases unpacked
    exact changes_of_flips peek_iff fills unpacked length few behind scattered
  | jpeg blocks =>
    obtain ⟨blocks',_,last⟩ := bind_eq_ok.mp packed
    obtain rfl := Except.ok.inj last
    exact ⟨rfl,by simp [Image.pixels],fun _ => rfl,fun _ _ => rfl,fun _ _ _ => rfl⟩

/-- A carrier of 72 bits that is loaded and has one block, of eight codewords. -/
def smallCarrier : CarrierFile :=
  { CarrierFilesManager.encoded 9 with
    permutation := .identity { size := 72, initialized := true }
    blocksUsed := 1
    fileLoaded := true }

/-- A storage of ones. -/
def ones : VirtualStorage where
  permutation := some (.identity { size := 40, initialized := true })
  isSetPermutation := true
  rawCapacity := 40
  usableCapacity := 8
  data := some (List.replicate 40 255)

theorem saveFile_changes_small : ∃ image',
    smallCarrier.saveFile Permutation.twoPrimes (.png (List.replicate 75 6)) ones = (smallCarrier,.ok image') ∧
      Changes smallCarrier.permutation (fun i => i)
        (smallCarrier.blocksUsed * (⟨3,by decide⟩ : HammingEncoder).codewordsInBlock)
        (smallCarrier.blocksUsed * smallCarrier.codewordBlockSize) (List.replicate 75 6) image'.pixels := by
  have returns : (smallCarrier.saveFile Permutation.twoPrimes (.png (List.replicate 75 6)) ones).2.toOption.isSome = true := by
    decide +kernel
  rcases saved : smallCarrier.saveFile Permutation.twoPrimes (.png (List.replicate 75 6)) ones with ⟨file',failure | image'⟩
  · rw [saved] at returns
    cases returns
  have kept : (smallCarrier.saveFile Permutation.twoPrimes (.png (List.replicate 75 6)) ones).1 = smallCarrier := rfl
  rw [saved] at kept
  obtain rfl : file' = smallCarrier := kept
  have fills : Fills smallCarrier.permutation (fun i => i) smallCarrier.rawCapacity := fills_identity (by decide)
  exact ⟨image',rfl,saveFile_changes rfl (by decide +kernel) (by decide +kernel) saved fills⟩

end CarrierFile
end StegoDisk
