import Mathlib.Algebra.BigOperators.Group.Finset.Basic
import Mathlib.Algebra.BigOperators.Intervals
import StegoDisk.Distortion

/-!
What saving alters in an image. An image is its cover, in which the least significant bits of its elements are cleared, and
those bits. Packing leaves the cover, and no encoder alters more bits of a carrier than differ between the data
that the carrier has and the data that it is given.
-/
namespace StegoDisk
open Bits Loops Feistel

/-! ### Encoders -/

namespace HammingEncoder

variable {e : HammingEncoder}

/-- Where a block carries other data, a codeword that lacks its message has a bit of it that differs. -/
theorem missing_le_data {codeword old data : List UInt8} (length : old.length = e.dataBlockSize)
    (carried : ∀ i < e.codewordsInBlock, e.Carries codeword old i) :
    (e.missing codeword data).card ≤ distance old data := by
  have range := e.inRange
  apply Finset.card_le_card_of_surjOn (fun k => k / e.parityBits)
  intro i misses
  obtain ⟨inside,lacks⟩ := mem_missing.mp misses
  have differs : ∃ t < e.parityBits, high old (i * e.parityBits + (e.parityBits - 1 - t)) ≠
      high data (i * e.parityBits + (e.parityBits - 1 - t)) := by
    by_contra same
    push Not at same
    exact lacks fun t narrow => (carried i inside t narrow).trans (same t narrow)
  obtain ⟨t,narrow,differ⟩ := differs
  have fits := message_inside inside
  have bits := e.dataBits
  refine ⟨i * e.parityBits + (e.parityBits - 1 - t),?_,?_⟩
  · simp only [SetLike.mem_coe,mem_differing,Nat.zero_add]
    exact ⟨by omega,differ⟩
  · show (i * e.parityBits + (e.parityBits - 1 - t)) / e.parityBits = i
    rw [Nat.mul_comm,Nat.mul_add_div (by omega),Nat.div_eq_of_lt (by omega),Nat.add_zero]

end HammingEncoder

namespace Encoder
open HammingEncoder

/-- Embedding alters a block in no more bits than the data differ in from what the block carries. -/
theorem embed_distance (e : Encoder) {codeword old data after : List UInt8} (whole : codeword.length = e.codewordBlockSize)
    (block : data.length = e.dataBlockSize) (carries : e.extract codeword = .ok old)
    (embedded : e.embed codeword data = .ok after) : distance codeword after ≤ distance old data := by
  cases e with
  | lsb e =>
    have size : codeword.length = e.blockSize := whole
    have size' : data.length = e.blockSize := block
    have same : codeword = old := by
      simpa [extract,LsbEncoder.extract,size,List.take_of_length_le size.le] using carries
    have written : data = after := by
      simpa [embed,LsbEncoder.embed,size,size',List.take_of_length_le size'.le,List.drop_eq_nil_of_le size.le] using embedded
    rw [same,written]
  | hamming e =>
    obtain ⟨out,ran,length,carried⟩ := HammingEncoder.extract_carries whole
    obtain rfl : out = old := Except.ok.inj (ran.symm.trans carries)
    obtain ⟨_,returned,_,each⟩ := HammingEncoder.embed_ok whole block
    obtain rfl := Except.ok.inj (returned.symm.trans embedded)
    refine (distance_le_missing whole fun i inBlock => ?_).trans (missing_le_data length carried)
    obtain ⟨_,p,_,zero,bits⟩ := each i inBlock
    exact ⟨p,zero,bits⟩

end Encoder

/-! ### Images -/

namespace Image
open CarrierFile

/-- A coefficient without the bit that hides data, if it does. -/
def clear (c : UInt16) : UInt16 := if eligible c then c &&& 0xFFFE else c

/-- The image without the bits that hide data. -/
def cover : Image → Image
  | .bmp pixels => .bmp (pixels.map fun pixel => pixel &&& 0xFE)
  | .png pixels => .png (pixels.map fun pixel => pixel &&& 0xFE)
  | .jpeg blocks => .jpeg (blocks.map fun block => { block with ac := block.ac.map clear })

/-- The bits in which two images differ. -/
def altered (a b : Image) : Finset Nat := {i ∈ Finset.range a.bits.length | a.bits.getD i false ≠ b.bits.getD i false}

theorem mem_altered {a b : Image} {i : Nat} :
    i ∈ altered a b ↔ i < a.bits.length ∧ a.bits.getD i false ≠ b.bits.getD i false := by
  simp [altered]

theorem altered_self (a : Image) : altered a a = ∅ := by
  simp [altered]

/-- Two alterations after each other alter no more bits than both of them. -/
theorem card_altered_le {a b c : Image} (same : a.bits.length = b.bits.length) :
    (altered a c).card ≤ (altered a b).card + (altered b c).card := by
  refine (Finset.card_le_card ?_).trans (Finset.card_union_le _ _)
  intro i differ
  obtain ⟨inside,differ⟩ := mem_altered.mp differ
  rw [Finset.mem_union,mem_altered,mem_altered,← same]
  by_cases kept : a.bits.getD i false = b.bits.getD i false
  · exact .inr ⟨inside,kept ▸ differ⟩
  · exact .inl ⟨inside,kept⟩

theorem clear_replaced {c : UInt16} (hides : eligible c = true) (bit : Bool) :
    clear ((c &&& 0xFFFE) ||| if bit then 1 else 0) = clear c := by
  rw [clear,eligible_replaced,if_pos hides,cleared_replaced16,clear,if_pos hides]

end Image

namespace CarrierFile
open Image

variable {file : CarrierFile} {image image' : Image} {buffer after : MemoryBuffer} {f : Nat → Nat} {p : Permutation}

/-! ### Packing -/

theorem value_of_at {pixels : List UInt8} {i : Nat} {value : UInt8} (read : MemoryBuffer.at pixels i = .ok value) :
    value = pixels.getD i 0 := by
  by_cases inside : i < pixels.length
  · rw [MemoryBuffer.at_of_lt inside,Except.ok.injEq] at read
    rw [← read,List.getD_eq_getElem _ _ inside]
  · simp [MemoryBuffer.at,inside] at read

theorem value_of_peek {pixels : List UInt8} {i : Nat} {value : UInt8} (read : peek pixels i = .ok value) :
    value = pixels.getD i 0 := by
  by_cases inside : i < pixels.length
  · rw [peek_of_lt inside,Except.ok.injEq] at read
    exact read.symm
  · simp [peek,inside] at read

theorem scatter_cover {access : List UInt8 → Nat → Except Failure UInt8} {pixels pixels' : List UInt8}
    (reads : ∀ (pixels : List UInt8) i value, access pixels i = .ok value → value = pixels.getD i 0)
    (scattered : scatter access p buffer pixels = .ok pixels') :
    pixels'.map (fun pixel => pixel &&& 0xFE) = pixels.map fun pixel => pixel &&& 0xFE := by
  refine foldlM_keeps (fun now : List UInt8 => now.map (fun pixel => pixel &&& 0xFE) = pixels.map fun pixel => pixel &&& 0xFE)
    ?_ scattered rfl
  intro i before next stepped same
  obtain ⟨pixel,read,rest⟩ := bind_eq_ok.mp stepped
  obtain ⟨bit,_,last⟩ := bind_eq_ok.mp rest
  obtain rfl := Except.ok.inj last
  rw [← same,List.map_set,cleared_replaced,reads before i pixel read]
  apply List.ext_getElem (by simp)
  intro j left right
  rw [List.getElem_set]
  split
  · rename_i here
    subst here
    rw [List.length_map] at right
    rw [List.getElem_map,List.getD_eq_getElem _ _ right]
  · rfl

theorem scatterCoefficients_cover {n : Nat} : ∀ {cs : List UInt16} {counter : Nat} {after : List UInt16 × Option Nat},
    scatterCoefficients p n buffer cs counter = .ok after → after.1.map clear = cs.map clear := by
  intro cs
  induction cs with
  | nil =>
    intro counter after ran
    obtain rfl := Except.ok.inj ran
    rfl
  | cons c rest ih =>
    intro counter after ran
    rw [scatterCoefficients] at ran
    split at ran
    · rename_i hides
      obtain ⟨bit,_,ran⟩ := bind_eq_ok.mp ran
      by_cases ends : word32 (counter + 1) ≥ n
      · rw [if_pos ends] at ran
        obtain rfl := Except.ok.inj ran
        rw [List.map_cons,List.map_cons,clear_replaced hides]
      · rw [if_neg ends] at ran
        obtain ⟨others,later,last⟩ := bind_eq_ok.mp ran
        obtain rfl := Except.ok.inj last
        rw [List.map_cons,List.map_cons,clear_replaced hides,ih later]
    · obtain ⟨others,later,last⟩ := bind_eq_ok.mp ran
      obtain rfl := Except.ok.inj last
      rw [List.map_cons,List.map_cons,ih later]

theorem scatterBlocks_cover {n : Nat} : ∀ {blocks after : List JpegBlock} {counter : Nat},
    scatterBlocks p n buffer blocks counter = .ok after → cover (.jpeg after) = cover (.jpeg blocks) := by
  intro blocks
  induction blocks with
  | nil =>
    intro after counter ran
    obtain rfl := Except.ok.inj ran
    rfl
  | cons block rest ih =>
    intro after counter ran
    rw [scatterBlocks] at ran
    obtain ⟨first,scattered,ran⟩ := bind_eq_ok.mp ran
    have same := scatterCoefficients_cover scattered
    split at ran
    · obtain rfl := Except.ok.inj ran
      simp only [cover,List.map_cons,same]
    · obtain ⟨others,later,last⟩ := bind_eq_ok.mp ran
      obtain rfl := Except.ok.inj last
      have tail_ := ih later
      simp only [cover,Image.jpeg.injEq] at tail_
      simp only [cover,List.map_cons,same,tail_]

/-- Packing leaves the cover. -/
theorem pack_cover (packed : file.pack buffer image = .ok image') : image'.cover = image.cover := by
  cases image with
  | bmp pixels =>
    obtain ⟨front,scattered,last⟩ := bind_eq_ok.mp packed
    obtain rfl := Except.ok.inj last
    have same := scatter_cover (fun _ _ _ => value_of_at) scattered
    simp only [cover,List.map_append,same]
    rw [← List.map_append,List.take_append_drop]
  | png pixels =>
    obtain ⟨front,scattered,last⟩ := bind_eq_ok.mp packed
    obtain rfl := Except.ok.inj last
    exact congrArg Image.png (scatter_cover (fun _ _ _ => value_of_peek) scattered)
  | jpeg blocks =>
    obtain ⟨after,scattered,last⟩ := bind_eq_ok.mp packed
    obtain rfl := Except.ok.inj last
    exact scatterBlocks_cover scattered

/-- Packing a buffer that differs from what the image was unpacked to alters no more bits of the image. -/
theorem pack_altered (opened : Opened file image) (fills : Fills file.permutation f file.rawCapacity)
    (positive : 0 < file.permutation.size) (enough : file.permutation.size ≤ word64 (file.rawCapacity * 8))
    (unpacked : file.unpack file.permutation.size image = .ok buffer) (length : after.length = buffer.length)
    (packed : file.pack after image = .ok image') : (altered image image').card ≤ (flips buffer after).card := by
  obtain ⟨_,ran,size,gathered⟩ := unpack_ok opened fills positive enough
  obtain rfl := Except.ok.inj (unpacked.symm.trans ran)
  obtain ⟨_,returned,_,bits,_⟩ := pack_ok opened fills positive enough (length.trans size)
  obtain rfl := Except.ok.inj (packed.symm.trans returned)
  -- a bit of the image that is altered is one of the permutation, and its place in the buffer is flipped
  have place : ∀ i ∈ altered image image', i < file.permutation.size ∧ f i ∈ flips buffer after := by
    intro i differ
    obtain ⟨inside,differ⟩ := mem_altered.mp differ
    have both : image'.bits.getD i false =
        if i < file.permutation.size then low after (f i) else image.bits.getD i false := by
      simp [bits,overlay,List.getD_eq_getElem?_getD,inside]
    by_cases below : i < file.permutation.size
    · have far := fills.permutes.lt below
      have fits := fills.fits
      rw [both,if_pos below,← (gathered.values fills).1 i below] at differ
      exact ⟨below,mem_flips.mpr ⟨by omega,differ⟩⟩
    · rw [both,if_neg below] at differ
      exact absurd rfl differ
  exact Finset.card_le_card_of_injOn f (fun i differ => (place i differ).2)
    fun i differ i' differ' same => fills.permutes.inj (place i differ).1 (place i' differ').1 same

/-! ### Saving -/

variable {env : Environment} {e : Encoder} {s : VirtualStorage} {n length : Nat} {g : Nat → Nat} {old : Nat → List UInt8}

theorem embedBlock_flips (encodes : file.Encodes e length) (whole : buffer.length = length) (mapped : s.Mapped n g) {b : Nat}
    (used : b < file.blocksUsed) (holds : file.extractedBlock e buffer b = .ok (old b))
    (ran : file.embedBlock e s buffer b = .ok after) :
    (flips buffer after).card ≤ HammingEncoder.distance (old b) (file.stored s b) := by
  have inside := encodes.block used
  have positive := e.codewordBlockSize_pos
  have sliced : blockAt buffer (b * file.codewordBlockSize) e.codewordBlockSize = _ := blockAt_ok positive (by omega)
  have block : (file.stored s b).length = e.dataBlockSize := by simp [stored,encodes.dataBlockSize]
  have size : ((buffer.drop (b * file.codewordBlockSize)).take e.codewordBlockSize).length = e.codewordBlockSize := by
    rw [List.length_take,List.length_drop]
    omega
  rw [extractedBlock,sliced,ok_bind] at holds
  rw [embedBlock,stored_ok mapped,ok_bind,sliced,ok_bind] at ran
  obtain ⟨codeword,embedded,last⟩ := bind_eq_ok.mp ran
  obtain rfl := Except.ok.inj last
  have width := (Encoder.embed_length embedded).trans size
  refine (card_flips_splice (by omega)).trans ?_
  rw [width]
  exact e.embed_distance size block holds embedded

/-- The blocks of a carrier flip no more bits of its buffer than differ between the data that they carry and
    the bytes of the storage. -/
theorem embedBufferUsingEncoder_flips (encodes : file.Encodes e length) (whole : buffer.length = length)
    (mapped : s.Mapped n g) (holds : ∀ b < file.blocksUsed, file.extractedBlock e buffer b = .ok (old b))
    (ran : file.embedBufferUsingEncoder buffer s = .ok after) :
    (flips buffer after).card ≤
      ∑ b ∈ Finset.range file.blocksUsed, HammingEncoder.distance (old b) (file.stored s b) := by
  simp only [embedBufferUsingEncoder,encodes.encoder] at ran
  split at ran
  · cases ran
  split at ran
  · cases ran
  split at ran
  · cases ran
  refine (foldlM_range_inv (fun i (after : MemoryBuffer) => after.length = length ∧
    (flips buffer after).card ≤ ∑ b ∈ Finset.range i, HammingEncoder.distance (old b) (file.stored s b) ∧
    ∀ b, i ≤ b → b < file.blocksUsed → file.extractedBlock e after b = .ok (old b))
    ⟨whole,by simp [flips_self],fun b _ => holds b⟩ ?_ ran).2.1
  rintro c used before after stepped ⟨size,few,later⟩
  obtain ⟨_,returned,size',_,others⟩ := embedBlock_ok encodes size mapped used
  obtain rfl := Except.ok.inj (stepped.symm.trans returned)
  refine ⟨size',?_,?_⟩
  · rw [Finset.sum_range_succ]
    exact (card_flips_le (whole.trans size.symm)).trans
      (Nat.add_le_add few (embedBlock_flips encodes size mapped used (later c le_rfl used) stepped))
  · intro b behind inside
    rw [← later b (by omega) inside]
    have block := encodes.block inside
    apply extractedBlock_congr (size'.trans size.symm) (by omega)
    intro j low_ _
    apply others
    -- block `c` ends where the next one begins
    have next := Nat.mul_le_mul_right file.codewordBlockSize (show c + 1 ≤ b from behind)
    rw [Nat.succ_mul] at next
    have same := encodes.codewordBlockSize
    omega

/-- A save of a carrier alters no more bits of its image than differ between the data that the image holds and
    the bytes of the storage. -/
theorem saveFile_altered (loaded : file.fileLoaded = true) (ready : Ready env e file f) (opened : Opened file image)
    (mapped : s.Mapped n g) (decodes : ∀ b < file.blocksUsed, file.DecodesTo e image b (old b))
    (saved : file.saveFile env image s = (file,.ok image')) :
    image'.cover = image.cover ∧ (altered image image').card ≤
      ∑ b ∈ Finset.range file.blocksUsed, HammingEncoder.distance (old b) (file.stored s b) := by
  obtain ⟨buffer,unpacked,length,_⟩ := ready.unpacks opened
  have holds : ∀ b < file.blocksUsed, file.extractedBlock e buffer b = .ok (old b) := by
    intro b used
    obtain ⟨buffer',unpacked',decoded⟩ := decodes b used
    obtain rfl := Except.ok.inj (unpacked.symm.trans unpacked')
    exact decoded
  rw [saveFile_eq loaded ready opened,Prod.mk.injEq,unpacked,ok_bind] at saved
  obtain ⟨after,embedded,packed⟩ := bind_eq_ok.mp saved.2
  have same := embedBufferUsingEncoder_length embedded
  exact ⟨pack_cover packed,(pack_altered opened ready.fills ready.positive ready.enough unpacked same packed).trans
    (embedBufferUsingEncoder_flips ready.encodes length mapped holds embedded)⟩

end CarrierFile
end StegoDisk
