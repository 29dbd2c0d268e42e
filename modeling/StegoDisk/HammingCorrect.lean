import StegoDisk.Bits
import StegoDisk.Encoders
import StegoDisk.Loops

/-!
What `Extract` reads is what `Embed` has put in. The syndrome of a codeword is the
xor of the positions, counted from 1, of its set bits; flipping the bit at position
`h` changes it by `h`, so flipping at the difference between syndrome and message
makes it the message.
-/
namespace StegoDisk.HammingEncoder
open Bits Loops

/-- The xor of the positions of the set bits among the first `n` from bit `start` on. -/
def syndrome (bytes : List UInt8) (start : Nat) : Nat → Nat
  | 0 => 0
  | n+1 => if high bytes (start + n) then syndrome bytes start n ^^^ (n + 1) else syndrome bytes start n

theorem syndrome_congr {xs ys : List UInt8} {start n : Nat} (same : ∀ k < n, high xs (start + k) = high ys (start + k)) :
    syndrome xs start n = syndrome ys start n := by
  induction n with
  | zero => rfl
  | succ n ih => simp only [syndrome,same n (by omega),ih fun k inside => same k (by omega)]

theorem syndrome_lt (bytes : List UInt8) (start : Nat) {n w : Nat} (narrow : n < 2 ^ w) :
    syndrome bytes start n < 2 ^ w := by
  induction n with
  | zero => exact narrow
  | succ n ih =>
    have before := ih (by omega)
    simp only [syndrome]
    split
    · exact Nat.xor_lt_two_pow before narrow
    · exact before

/-- Flipping bit `p` changes the syndrome by its position. -/
theorem syndrome_flip {xs ys : List UInt8} {start n p : Nat} (inside : p < n)
    (flipped : ∀ k < n, high ys (start + k) = (high xs (start + k) ^^ decide (k = p))) :
    syndrome ys start n = syndrome xs start n ^^^ (p + 1) := by
  induction n with
  | zero => omega
  | succ n ih =>
    simp only [syndrome,flipped n (by omega)]
    by_cases last : n = p
    · subst last
      have before : syndrome ys start n = syndrome xs start n :=
        syndrome_congr fun k below => by simp [flipped k (by omega),Nat.ne_of_lt below]
      rw [before]
      cases high xs (start + n) <;> simp
    · rw [ih (by omega) fun k below => flipped k (by omega)]
      simp only [last,decide_false,Bool.xor_false]
      split
      · rw [Nat.xor_assoc,Nat.xor_comm (p + 1),Nat.xor_assoc]
      · rfl

/-! ### The sizes of the blocks -/

variable (e : HammingEncoder)

theorem totalBits_pos : 0 < e.totalBits := by
  have grows : 2 ^ 3 ≤ 2 ^ e.parityBits := Nat.pow_le_pow_right (by decide) e.inRange.1
  unfold totalBits
  omega

theorem totalBits_lt : e.totalBits < 2 ^ e.parityBits := by
  have positive : 0 < 2 ^ e.parityBits := Nat.pow_pos (by decide)
  unfold totalBits
  omega

/-- A codeword fits in its bytes. -/
theorem totalBits_le : e.totalBits ≤ 8 * e.codewordBufferSize := by
  have positive := e.totalBits_pos
  unfold codewordBufferSize
  omega

/-- The codewords of a block take exactly its bits of data. -/
theorem dataBits : e.codewordsInBlock * e.parityBits = 8 * e.dataBlockSize := by
  have range := e.inRange
  have eight : 8 ∣ Nat.lcm e.parityBits 8 := Nat.dvd_lcm_right _ _
  have parity : e.parityBits ∣ Nat.lcm e.parityBits 8 := Nat.dvd_lcm_left _ _
  unfold codewordsInBlock dataBlockSize
  rw [StegoMath.lcm_eq,Nat.div_mul_cancel eight,Nat.div_mul_cancel parity,Nat.mul_div_cancel' eight]

theorem dataBlockSize_pos : 0 < e.dataBlockSize := by
  have lcm : 0 < Nat.lcm e.parityBits 8 := Nat.lcm_pos (by have := e.inRange; omega) (by decide)
  unfold dataBlockSize
  rw [StegoMath.lcm_eq]
  exact Nat.div_pos (Nat.le_of_dvd lcm (Nat.dvd_lcm_right _ _)) (by decide)

theorem dataBlockSize_le : e.dataBlockSize ≤ e.parityBits := by
  have positive : 0 < e.parityBits * 8 := by have := e.inRange; omega
  have lcm : Nat.lcm e.parityBits 8 ≤ e.parityBits * 8 := Nat.le_of_dvd positive (Nat.lcm_dvd_mul _ _)
  unfold dataBlockSize
  rw [StegoMath.lcm_eq]
  omega

theorem codewordsInBlock_pos : 0 < e.codewordsInBlock := by
  have bits := e.dataBits
  have positive := e.dataBlockSize_pos
  rcases Nat.eq_zero_or_pos e.codewordsInBlock with none | some
  · rw [none] at bits
    omega
  · exact some

/-! ### Single operations -/

variable {e}

/-- `ComputeH` is the syndrome of the bits of the codeword. -/
theorem computeH_ok {buffer : List UInt8} {start : Nat} (inside : start + e.codewordBufferSize ≤ buffer.length) :
    e.computeH buffer start = .ok (syndrome buffer (8 * start) e.totalBits) := by
  have run : ∃ state, (List.range (8 * e.codewordBufferSize)).foldlM (e.computeHStep buffer start) (1,0) = .ok state ∧
      state.1 = min (8 * e.codewordBufferSize) e.totalBits + 1 ∧
      state.2 = syndrome buffer (8 * start) (min (8 * e.codewordBufferSize) e.totalBits) := by
    refine foldlM_range (fun t (state : Nat × Nat) =>
      state.1 = min t e.totalBits + 1 ∧ state.2 = syndrome buffer (8 * start) (min t e.totalBits))
      ⟨by simp,by simp [syndrome]⟩ ?_
    intro t before state inv
    obtain ⟨line,result⟩ := inv
    unfold computeHStep
    by_cases more : t < e.totalBits
    · rw [if_pos (by omega),peek_of_lt (by omega),ok_bind]
      refine ⟨_,rfl,by simp only; omega,?_⟩
      have bit : high buffer (8 * start + t) = (buffer.getD (start + t / 8) 0).toNat.testBit (7 - t % 8) := by
        simp only [high,show (8 * start + t) / 8 = start + t / 8 by omega,show (8 * start + t) % 8 = t % 8 by omega]
      rw [show min (t + 1) e.totalBits = t + 1 by omega,syndrome,bit,result,line,show min t e.totalBits = t by omega]
    · rw [if_neg (by omega)]
      exact ⟨state,rfl,by omega,by rw [result,show min (t + 1) e.totalBits = min t e.totalBits by omega]⟩
  obtain ⟨state,ran,_,result⟩ := run
  rw [computeH,ran,ok_bind,result,Nat.min_eq_right e.totalBits_le]

/-- `SwapBitInCodeword` flips the bit at its position. -/
theorem swapBitInCodeword_ok {buffer : List UInt8} {start bitIn : Nat}
    (inside : bitIn ≠ 0 → start + (bitIn - 1) / 8 < buffer.length) :
    ∃ swapped, swapBitInCodeword buffer start bitIn = .ok swapped ∧ swapped.length = buffer.length ∧
      ∀ k, high swapped k = (high buffer k ^^ decide (k + 1 = 8 * start + bitIn ∧ bitIn ≠ 0)) := by
  unfold swapBitInCodeword
  by_cases zero : bitIn = 0
  · exact ⟨buffer,by simp [zero],rfl,by simp [zero]⟩
  · rw [if_neg zero,peek_of_lt (inside zero),ok_bind,poke_of_lt (inside zero)]
    refine ⟨_,rfl,by simp,?_⟩
    intro k
    have mask : (UInt8.ofNat (2 ^ (7 - (bitIn - 1) % 8))).toNat = 2 ^ (7 - (bitIn - 1) % 8) := by
      rw [UInt8.toNat_ofNat']
      exact Nat.mod_eq_of_lt (Nat.pow_lt_pow_right (by decide) (by omega))
    rw [high_xor _ (inside zero),mask,Nat.testBit_two_pow]
    congr 1
    rw [← Bool.decide_and,decide_eq_decide]
    omega

private theorem testBit_byteMask (t : Nat) : Nat.testBit 0xFF t = decide (t < 8) :=
  Nat.testBit_two_pow_sub_one 8 t

/-- The bits that one round of `ReadBitsFromBuffer` takes from a byte. -/
theorem taken_testBit (byte bitOffset rest t : Nat) (inByte : bitOffset < 8) :
    (((if rest < 8 - bitOffset then ((byte <<< bitOffset) &&& 0xFF) >>> (8 - bitOffset - rest)
        else (byte <<< bitOffset) &&& 0xFF) >>> bitOffset).testBit t) =
      (decide (t < min rest (8 - bitOffset)) && byte.testBit (7 - (bitOffset + (min rest (8 - bitOffset) - 1 - t)))) := by
  by_cases last : rest < 8 - bitOffset
  · rw [if_pos last,Nat.min_eq_left last.le]
    simp only [Nat.testBit_shiftRight,Nat.testBit_and,Nat.testBit_shiftLeft,testBit_byteMask]
    by_cases inside : t < rest
    · have above : bitOffset ≤ 8 - bitOffset - rest + (bitOffset + t) := by omega
      have index : 8 - bitOffset - rest + (bitOffset + t) - bitOffset = 7 - (bitOffset + (rest - 1 - t)) := by omega
      simp [above,index,inside,show 8 - bitOffset - rest + (bitOffset + t) < 8 by omega]
    · simp [inside,show ¬ 8 - bitOffset - rest + (bitOffset + t) < 8 by omega]
  · rw [if_neg last,Nat.min_eq_right (by omega)]
    simp only [Nat.testBit_shiftRight,Nat.testBit_and,Nat.testBit_shiftLeft,testBit_byteMask]
    by_cases inside : t < 8 - bitOffset
    · have index : bitOffset + t - bitOffset = 7 - (bitOffset + (8 - bitOffset - 1 - t)) := by omega
      simp [inside,show bitOffset + t < 8 by omega]
      congr 1
      omega
    · simp [inside,show ¬ bitOffset + t < 8 by omega]

/-- `ReadBitsFromBuffer` puts the bits from `offset` on below those it already has, the first
    one highest. -/
theorem readBitsFromBuffer_ok {buffer : List UInt8} {length rest : Nat} : ∀ {offset writtenBits result : Nat},
    length = writtenBits + rest → offset + rest ≤ 8 * buffer.length →
    ∃ value, readBitsFromBuffer buffer length offset writtenBits result = .ok value ∧
      ∀ t, value.testBit t = (result.testBit t ^^ (decide (t < rest) && high buffer (offset + (rest - 1 - t)))) := by
  induction rest using Nat.strong_induction_on with
  | _ rest ih =>
    intro offset writtenBits result whole inside
    unfold readBitsFromBuffer
    by_cases done : rest = 0
    · rw [if_neg (by omega)]
      exact ⟨result,rfl,by simp [done]⟩
    · rw [if_pos (by omega),peek_of_lt (by omega),ok_bind]
      simp only [show length - writtenBits = rest by omega]
      have taken : (if rest < 8 - offset % 8 then rest else 8 - offset % 8) = min rest (8 - offset % 8) := by
        split <;> omega
      rw [taken]
      have bits := taken_testBit (buffer.getD (offset / 8) 0).toNat (offset % 8) rest
      generalize (if rest < 8 - offset % 8 then ((buffer.getD (offset / 8) 0).toNat <<< (offset % 8) &&& 0xFF) >>>
          (8 - offset % 8 - rest) else (buffer.getD (offset / 8) 0).toNat <<< (offset % 8) &&& 0xFF) >>> (offset % 8) =
        chunk at bits
      have some : 0 < min rest (8 - offset % 8) := by omega
      have fewer : min rest (8 - offset % 8) ≤ rest := Nat.min_le_left _ _
      have inByte : min rest (8 - offset % 8) ≤ 8 - offset % 8 := Nat.min_le_right _ _
      generalize min rest (8 - offset % 8) = count at bits some fewer inByte
      obtain ⟨value,ran,values⟩ := @ih (rest - count) (by omega) (offset + count) (writtenBits + count)
        (result ^^^ chunk <<< (rest - count)) (by omega) (by omega)
      refine ⟨value,ran,?_⟩
      intro t
      rw [values t,Nat.testBit_xor,Nat.testBit_shiftLeft,bits (t - (rest - count)) (by omega)]
      by_cases below : t < rest - count
      · -- read by the later rounds
        simp [below,show ¬ rest - count ≤ t by omega,show t < rest by omega,
          show offset + count + (rest - count - 1 - t) = offset + (rest - 1 - t) by omega]
      · by_cases here : t < rest
        · have byte : high buffer (offset + (rest - 1 - t)) =
              (buffer.getD (offset / 8) 0).toNat.testBit (7 - (offset % 8 + (count - 1 - (t - (rest - count))))) := by
            simp only [high,show (offset + (rest - 1 - t)) / 8 = offset / 8 by omega,
              show (offset + (rest - 1 - t)) % 8 = offset % 8 + (count - 1 - (t - (rest - count))) by omega]
          simp [below,here,byte,show rest - count ≤ t by omega,show t - (rest - count) < count by omega]
        · simp [below,here,show ¬ t - (rest - count) < count by omega]

/-- The bits of the byte that one round of `WriteBitsToBuffer` writes. -/
theorem written_testBit (value left right : Nat) {shiftLeft : Prop} [Decidable shiftLeft] {u : Nat} (inByte : u < 8) :
    (UInt8.ofNat (if shiftLeft then (value <<< left) &&& ((0xFF <<< left) &&& 0xFF)
        else (value >>> right) &&& 0xFF)).toNat.testBit u =
      if shiftLeft then decide (left ≤ u) && value.testBit (u - left) else value.testBit (right + u) := by
  rw [UInt8.toNat_ofNat',Nat.testBit_mod_two_pow]
  by_cases toLeft : shiftLeft
  · simp only [toLeft,if_true,Nat.testBit_and,Nat.testBit_shiftLeft,testBit_byteMask,inByte,decide_true,Bool.true_and,
      Bool.and_true]
    by_cases above : left ≤ u
    · simp [above,show u - left < 8 by omega]
    · simp [above]
  · simp [toLeft,Nat.testBit_and,Nat.testBit_shiftRight,testBit_byteMask,inByte]

theorem high_written (buffer : List UInt8) {i : Nat} (inside : i < buffer.length) (value left right : Nat)
    {shiftLeft : Prop} [Decidable shiftLeft] (k : Nat) :
    high (buffer.set i (buffer.getD i 0 ^^^ UInt8.ofNat (if shiftLeft then (value <<< left) &&& ((0xFF <<< left) &&& 0xFF)
        else (value >>> right) &&& 0xFF))) k =
      (high buffer k ^^ (decide (k / 8 = i) && if shiftLeft then
        decide (left ≤ 7 - k % 8) && value.testBit (7 - k % 8 - left) else value.testBit (right + (7 - k % 8)))) := by
  rw [high_xor _ inside,written_testBit _ _ _ (by omega)]

/-- The last round of `WriteBitsToBuffer` puts the low bits of the value at the offset. -/
theorem writeBits_last {parityBits value : Nat} {buffer : List UInt8} {offset writtenBits : Nat}
    (more : writtenBits < parityBits) (last : parityBits + offset % 8 ≤ 8 + writtenBits)
    (inside : offset / 8 < buffer.length) (fresh : writtenBits = 0 ∧ value < 2 ^ parityBits ∨ offset % 8 = 0) :
    ∃ written, writeBitsToBuffer parityBits value buffer offset writtenBits = .ok written ∧
      written.length = buffer.length ∧ ∀ k, high written k = (high buffer k ^^
        (decide (offset ≤ k ∧ k < offset + (parityBits - writtenBits)) &&
          value.testBit (parityBits - writtenBits - 1 - (k - offset)))) := by
  unfold writeBitsToBuffer
  rw [if_pos more,peek_of_lt inside,ok_bind,poke_of_lt inside,ok_bind]
  simp only [show parityBits + offset % 8 - 8 - writtenBits = 0 by omega,if_true]
  rw [writeBitsToBuffer,if_neg (by omega)]
  refine ⟨_,rfl,by simp,?_⟩
  intro k
  rw [high_written _ inside]
  congr 1
  by_cases sameByte : k / 8 = offset / 8
  · have index : (if parityBits + offset % 8 < 8 + writtenBits then
          decide (8 + writtenBits - parityBits - offset % 8 ≤ 7 - k % 8) &&
            value.testBit (7 - k % 8 - (8 + writtenBits - parityBits - offset % 8))
        else value.testBit (0 + (7 - k % 8))) =
        (decide (k < offset + (parityBits - writtenBits)) &&
          value.testBit (parityBits - writtenBits + offset % 8 - 1 - k % 8)) := by
      split
      · congr 1
        · rw [decide_eq_decide]
          omega
        · congr 1
          omega
      · rw [show 0 + (7 - k % 8) = parityBits - writtenBits + offset % 8 - 1 - k % 8 by omega]
        simp [show k < offset + (parityBits - writtenBits) by omega]
    rw [index]
    simp only [sameByte,decide_true,Bool.true_and,Bool.decide_and]
    by_cases after : offset ≤ k
    · simp [after,show parityBits - writtenBits + offset % 8 - 1 - k % 8 = parityBits - writtenBits - 1 - (k - offset)
        by omega]
    · -- above the value there is nothing to write
      rcases fresh with ⟨none,small⟩ | aligned
      · have clear : value.testBit (parityBits - writtenBits + offset % 8 - 1 - k % 8) = false := by
          apply Nat.testBit_eq_false_of_lt
          exact small.trans_le (Nat.pow_le_pow_right (by decide) (by omega))
        simp [after,clear]
      · omega
  · simp only [sameByte,decide_false,Bool.false_and]
    symm
    simp only [Bool.and_eq_false_imp,decide_eq_true_eq]
    omega

/-- The first round of two fills the byte at the offset with the high bits of the value. -/
theorem writeBits_first {parityBits value : Nat} {buffer : List UInt8} {offset : Nat}
    (twice : 8 < parityBits + offset % 8) (inside : offset / 8 < buffer.length) :
    ∃ filled, writeBitsToBuffer parityBits value buffer offset 0 =
        writeBitsToBuffer parityBits value filled (offset + (8 - offset % 8)) (8 - offset % 8) ∧
      filled.length = buffer.length ∧ ∀ k, high filled k = (high buffer k ^^
        (decide (k / 8 = offset / 8) && value.testBit (parityBits + offset % 8 - 8 + (7 - k % 8)))) := by
  rw [writeBitsToBuffer,if_pos (by omega),peek_of_lt inside,ok_bind,poke_of_lt inside,ok_bind]
  simp only [show parityBits + offset % 8 - 8 - 0 ≠ 0 by omega,if_false,
    show parityBits - (parityBits + offset % 8 - 8 - 0) = 8 - offset % 8 by omega]
  refine ⟨_,rfl,by simp,?_⟩
  intro k
  rw [high_written _ inside,if_neg (by omega)]
  rfl

/-- `WriteBitsToBuffer` xors the value into the bits from the offset on, its highest bit first. -/
theorem writeBitsToBuffer_ok {parityBits value : Nat} {buffer : List UInt8} {offset : Nat} (positive : 0 < parityBits)
    (narrow : parityBits ≤ 8) (small : value < 2 ^ parityBits) (inside : offset + parityBits ≤ 8 * buffer.length) :
    ∃ written, writeBitsToBuffer parityBits value buffer offset 0 = .ok written ∧
      written.length = buffer.length ∧ ∀ k, high written k = (high buffer k ^^
        (decide (offset ≤ k ∧ k < offset + parityBits) && value.testBit (parityBits - 1 - (k - offset)))) := by
  by_cases once : parityBits + offset % 8 ≤ 8
  · exact writeBits_last positive once (by omega) (.inl ⟨rfl,small⟩)
  · obtain ⟨filled,step,same,first⟩ := @writeBits_first parityBits value buffer offset (by omega) (by omega)
    obtain ⟨written,ran,length,second⟩ := @writeBits_last parityBits value filled (offset + (8 - offset % 8))
      (8 - offset % 8) (by omega) (by omega) (by omega) (.inr (by omega))
    refine ⟨written,by rw [step,ran],by omega,?_⟩
    intro k
    rw [second k,first k,Bool.xor_assoc]
    congr 1
    by_cases here : k / 8 = offset / 8
    · by_cases after : offset ≤ k
      · simp [here,after,show ¬ offset + (8 - offset % 8) ≤ k by omega,show k < offset + parityBits by omega,
          show parityBits + offset % 8 - 8 + (7 - k % 8) = parityBits - 1 - (k - offset) by omega]
      · have clear : value.testBit (parityBits + offset % 8 - 8 + (7 - k % 8)) = false := by
          apply Nat.testBit_eq_false_of_lt
          exact small.trans_le (Nat.pow_le_pow_right (by decide) (by omega))
        simp [here,after,clear,show ¬ offset + (8 - offset % 8) ≤ k by omega]
    · by_cases beyond : offset + (8 - offset % 8) ≤ k
      · simp [here,beyond,show offset ≤ k by omega,
          show offset + (8 - offset % 8) + (parityBits - (8 - offset % 8)) = offset + parityBits by omega,
          show parityBits - (8 - offset % 8) - 1 - (k - (offset + (8 - offset % 8))) = parityBits - 1 - (k - offset)
            by omega]
      · simp [here,beyond,show ¬ offset ≤ k by omega]

/-! ### The round trip -/

/-- Bit `k` of codeword `i` is bit `k` of its bytes. -/
abbrev codewordStart (e : HammingEncoder) (i : Nat) : Nat := 8 * (i * e.codewordBufferSize)

/-- The message of codeword `i` in a block of data. -/
def Carries (e : HammingEncoder) (codeword data : List UInt8) (i : Nat) : Prop :=
  ∀ t < e.parityBits, (syndrome codeword (e.codewordStart i) e.totalBits).testBit t =
    high data (i * e.parityBits + (e.parityBits - 1 - t))

/-- Different codewords lie apart. -/
theorem codewords_apart (e : HammingEncoder) {i j : Nat} (differ : j ≠ i) :
    e.codewordStart j + 8 * e.codewordBufferSize ≤ e.codewordStart i ∨
      e.codewordStart i + 8 * e.codewordBufferSize ≤ e.codewordStart j := by
  rcases Nat.lt_or_gt_of_ne differ with before | behind
  · left
    have next := Nat.mul_le_mul_right e.codewordBufferSize (show j + 1 ≤ i by omega)
    rw [Nat.succ_mul] at next
    simp only [codewordStart]
    omega
  · right
    have next := Nat.mul_le_mul_right e.codewordBufferSize (show i + 1 ≤ j by omega)
    rw [Nat.succ_mul] at next
    simp only [codewordStart]
    omega

theorem codeword_inside {i : Nat} (inside : i < e.codewordsInBlock) :
    i * e.codewordBufferSize + e.codewordBufferSize ≤ e.codewordBlockSize := by
  have next := Nat.mul_le_mul_right e.codewordBufferSize (show i + 1 ≤ e.codewordsInBlock by omega)
  rw [Nat.succ_mul,Nat.mul_comm e.codewordsInBlock] at next
  exact next

theorem message_inside {i : Nat} (inside : i < e.codewordsInBlock) :
    i * e.parityBits + e.parityBits ≤ 8 * e.dataBlockSize := by
  have next := Nat.mul_le_mul_right e.parityBits (show i + 1 ≤ e.codewordsInBlock by omega)
  rw [Nat.succ_mul,e.dataBits] at next
  exact next

/-- Step `i` of `Embed` flips at most one bit of codeword `i`, none if the codeword carries its
    message already, and no other bit; it makes the codeword carry the message. -/
theorem embedStep_ok {codeword data : List UInt8} (whole : codeword.length = e.codewordBlockSize)
    (block : data.length = e.dataBlockSize) {i : Nat} (inside : i < e.codewordsInBlock) :
    ∃ after p, e.embedStep data codeword i = .ok after ∧ after.length = codeword.length ∧ e.Carries after data i ∧
      p ≤ e.totalBits ∧ (p = 0 ↔ e.Carries codeword data i) ∧
      ∀ k, high after k = (high codeword k ^^ decide (k + 1 = e.codewordStart i + p ∧ p ≠ 0)) := by
  have bytes := codeword_inside inside
  have bits := message_inside inside
  obtain ⟨m,read,message⟩ := @readBitsFromBuffer_ok data e.parityBits e.parityBits (i * e.parityBits) 0 0
    (by omega) (by omega)
  simp only [Nat.zero_testBit,Bool.false_xor] at message
  have mSmall : m < 2 ^ e.parityBits := by
    apply Nat.lt_pow_two_of_testBit
    intro t beyond
    simp [message t,show ¬ t < e.parityBits by omega]
  have carries_iff : ∀ block, e.Carries block data i ↔ syndrome block (e.codewordStart i) e.totalBits = m := by
    intro block
    constructor
    · intro carries
      apply Nat.eq_of_testBit_eq
      intro t
      by_cases inParity : t < e.parityBits
      · simp [carries t inParity,message t,inParity]
      · have small := (syndrome_lt block (e.codewordStart i) e.totalBits_lt).trans_le
          (Nat.pow_le_pow_right (by decide) (Nat.le_of_not_lt inParity))
        simp [Nat.testBit_eq_false_of_lt small,message t,inParity]
    · intro same t inParity
      simp [same,message t,inParity]
  have hSmall := syndrome_lt codeword (e.codewordStart i) e.totalBits_lt
  have total := e.totalBits_le
  unfold embedStep
  rw [computeH_ok (by omega),ok_bind,read,ok_bind,carries_iff codeword]
  generalize hash : syndrome codeword (8 * (i * e.codewordBufferSize)) e.totalBits = h at hSmall
  have differ : h ^^^ m ≤ e.totalBits := by
    have small := Nat.xor_lt_two_pow hSmall mSmall
    unfold totalBits
    omega
  obtain ⟨after,swap,same,flipped⟩ := @swapBitInCodeword_ok codeword (i * e.codewordBufferSize) (h ^^^ m)
    (fun _ => by omega)
  refine ⟨after,h ^^^ m,swap,same,(carries_iff after).mpr ?_,differ,Nat.xor_eq_zero_iff,flipped⟩
  by_cases zero : h ^^^ m = 0
  · have kept : syndrome after (e.codewordStart i) e.totalBits = syndrome codeword (e.codewordStart i) e.totalBits :=
      syndrome_congr fun k _ => by simp [flipped,zero]
    rw [kept,hash]
    exact Nat.xor_eq_zero_iff.mp zero
  · have moved := @syndrome_flip codeword after (e.codewordStart i) e.totalBits ((h ^^^ m) - 1) (by omega) (by
      intro k _
      rw [flipped,codewordStart]
      congr 1
      simp only [decide_eq_decide]
      omega)
    rw [moved,hash,Nat.sub_add_cancel (by omega),← Nat.xor_assoc,Nat.xor_self,Nat.zero_xor]

/-- What a codeword carries depends on its own bits. -/
theorem carries_congr {xs ys data : List UInt8} {i : Nat}
    (same : ∀ k < e.totalBits, high xs (e.codewordStart i + k) = high ys (e.codewordStart i + k)) :
    e.Carries xs data i ↔ e.Carries ys data i := by
  unfold Carries
  rw [syndrome_congr same]

/-- `Embed` returns a block whose codewords carry the data, with at most one bit of each
    codeword flipped, and none of a codeword that carries its message already. -/
theorem embed_ok {codeword data : List UInt8} (whole : codeword.length = e.codewordBlockSize)
    (block : data.length = e.dataBlockSize) :
    ∃ after, e.embed codeword data = .ok after ∧ after.length = e.codewordBlockSize ∧
      ∀ i < e.codewordsInBlock, e.Carries after data i ∧ ∃ p ≤ e.totalBits, (p = 0 ↔ e.Carries codeword data i) ∧
        ∀ k < 8 * e.codewordBufferSize, high after (e.codewordStart i + k) =
          (high codeword (e.codewordStart i + k) ^^ decide (k + 1 = p)) := by
  have run : ∃ after, e.embed codeword data = .ok after ∧ after.length = e.codewordBlockSize ∧
      (∀ i < e.codewordsInBlock, e.Carries after data i ∧ ∃ p ≤ e.totalBits, (p = 0 ↔ e.Carries codeword data i) ∧
        ∀ k < 8 * e.codewordBufferSize, high after (e.codewordStart i + k) =
          (high codeword (e.codewordStart i + k) ^^ decide (k + 1 = p))) ∧
      ∀ i, e.codewordsInBlock ≤ i → ∀ k < 8 * e.codewordBufferSize,
        high after (e.codewordStart i + k) = high codeword (e.codewordStart i + k) := by
    refine foldlM_range (fun n after => after.length = e.codewordBlockSize ∧
      (∀ i < n, e.Carries after data i ∧ ∃ p ≤ e.totalBits, (p = 0 ↔ e.Carries codeword data i) ∧
        ∀ k < 8 * e.codewordBufferSize, high after (e.codewordStart i + k) =
          (high codeword (e.codewordStart i + k) ^^ decide (k + 1 = p))) ∧
      ∀ i, n ≤ i → ∀ k < 8 * e.codewordBufferSize,
        high after (e.codewordStart i + k) = high codeword (e.codewordStart i + k)) ⟨whole,by omega,fun _ _ _ _ => rfl⟩ ?_
    intro n inside before inv
    obtain ⟨length,done,rest⟩ := inv
    obtain ⟨after,p,step,same,carries,small,zero,flipped⟩ := embedStep_ok length block inside
    have total := e.totalBits_le
    -- the other codewords keep their bits
    have others : ∀ i, i ≠ n → ∀ k < 8 * e.codewordBufferSize,
        high after (e.codewordStart i + k) = high before (e.codewordStart i + k) := by
      intro i differs k inCodeword
      have apart := e.codewords_apart differs
      rw [flipped,decide_eq_false (by omega),Bool.xor_false]
    refine ⟨after,step,by omega,?_,?_⟩
    · intro i below
      by_cases last : i = n
      · subst last
        refine ⟨carries,p,small,zero.trans (carries_congr fun k inTotal => rest i le_rfl k (by omega)),?_⟩
        intro k inCodeword
        rw [flipped,rest i le_rfl k inCodeword]
        congr 1
        rw [decide_eq_decide]
        omega
      · obtain ⟨carried,q,small,zero,before⟩ := done i (by omega)
        refine ⟨(carries_congr fun k inTotal => others i last k (by omega)).mpr carried,q,small,zero,?_⟩
        intro k inCodeword
        rw [others i last k inCodeword,before k inCodeword]
    · intro i above k inCodeword
      rw [others i (by omega) k inCodeword,rest i (by omega) k inCodeword]
  obtain ⟨after,ran,length,each,_⟩ := run
  exact ⟨after,ran,length,each⟩

/-- `Extract` returns a block of data, and it is what the codewords carry. -/
theorem extract_carries {codeword : List UInt8} (whole : codeword.length = e.codewordBlockSize) :
    ∃ data, e.extract codeword = .ok data ∧ data.length = e.dataBlockSize ∧
      ∀ i < e.codewordsInBlock, e.Carries codeword data i := by
  have run : ∃ out, e.extract codeword = .ok out ∧ out.length = e.dataBlockSize ∧
      (∀ i < e.codewordsInBlock, e.Carries codeword out i) ∧
      ∀ k, e.codewordsInBlock * e.parityBits ≤ k → high out k = false := by
    refine foldlM_range (fun n out => out.length = e.dataBlockSize ∧ (∀ i < n, e.Carries codeword out i) ∧
      ∀ k, n * e.parityBits ≤ k → high out k = false)
      ⟨List.length_replicate,by omega,fun k _ => high_replicate _ k⟩ ?_
    intro n inside out inv
    obtain ⟨length,carried,clear⟩ := inv
    have bytes := codeword_inside inside
    have bits := message_inside inside
    have range := e.inRange
    obtain ⟨written,write,same,after⟩ := @writeBitsToBuffer_ok e.parityBits _ out (n * e.parityBits) (by omega)
      range.2 (syndrome_lt codeword (e.codewordStart n) e.totalBits_lt) (by omega)
    refine ⟨written,by rw [extractStep,computeH_ok (by omega),ok_bind,write],by omega,?_,?_⟩
    · intro i below t inParity
      rw [after]
      by_cases last : i = n
      · subst last
        rw [clear _ (by omega)]
        simp [show i * e.parityBits + (e.parityBits - 1 - t) < i * e.parityBits + e.parityBits by omega,
          show e.parityBits - 1 - (e.parityBits - 1 - t) = t by omega]
      · have before := Nat.mul_le_mul_right e.parityBits (show i + 1 ≤ n by omega)
        rw [Nat.succ_mul] at before
        rw [decide_eq_false (by omega),Bool.false_and,Bool.xor_false]
        exact carried i (by omega) t inParity
    · intro k above
      rw [Nat.succ_mul] at above
      rw [after,clear k (by omega),decide_eq_false (by omega)]
      rfl
  obtain ⟨data,ran,length,carried,_⟩ := run
  exact ⟨data,ran,length,carried⟩

/-- The bits of a block of data are those of the messages. -/
theorem data_ext {codeword xs ys : List UInt8} (left : xs.length = e.dataBlockSize) (right : ys.length = e.dataBlockSize)
    (first : ∀ i < e.codewordsInBlock, e.Carries codeword xs i)
    (second : ∀ i < e.codewordsInBlock, e.Carries codeword ys i) : xs = ys := by
  apply high_ext (by omega)
  intro k inside
  have range := e.inRange
  have split : e.parityBits * (k / e.parityBits) + k % e.parityBits = k := Nat.div_add_mod k e.parityBits
  rw [Nat.mul_comm] at split
  have rest : k % e.parityBits < e.parityBits := Nat.mod_lt k (by omega)
  have message : k / e.parityBits < e.codewordsInBlock := by
    rw [Nat.div_lt_iff_lt_mul (by omega),e.dataBits]
    omega
  have position : k / e.parityBits * e.parityBits + (e.parityBits - 1 - (e.parityBits - 1 - k % e.parityBits)) = k := by
    omega
  have bit := (first _ message (e.parityBits - 1 - k % e.parityBits) (by omega)).symm.trans
    (second _ message (e.parityBits - 1 - k % e.parityBits) (by omega))
  rwa [position] at bit

/-- `Extract` returns the data exactly when the block carries it. -/
theorem extract_iff {codeword data : List UInt8} (whole : codeword.length = e.codewordBlockSize)
    (block : data.length = e.dataBlockSize) :
    e.extract codeword = .ok data ↔ ∀ i < e.codewordsInBlock, e.Carries codeword data i := by
  obtain ⟨out,ran,length,carried⟩ := extract_carries whole
  constructor
  · intro returned
    obtain rfl := Except.ok.inj (ran.symm.trans returned)
    exact carried
  · intro carries
    rw [ran,data_ext length block carried carries]

/-- The codeword of a bit of a block, and its place there. -/
theorem codeword_of_bit {k : Nat} (inside : k < 8 * e.codewordBlockSize) :
    k / (8 * e.codewordBufferSize) < e.codewordsInBlock ∧
      e.codewordStart (k / (8 * e.codewordBufferSize)) + k % (8 * e.codewordBufferSize) = k ∧
      k % (8 * e.codewordBufferSize) < 8 * e.codewordBufferSize := by
  have positive : 0 < 8 * e.codewordBufferSize := by
    unfold codewordBufferSize
    omega
  refine ⟨?_,?_,Nat.mod_lt k positive⟩
  · rw [Nat.div_lt_iff_lt_mul positive,Nat.mul_comm,Nat.mul_assoc]
    exact inside
  · have split := Nat.div_add_mod k (8 * e.codewordBufferSize)
    rwa [Nat.mul_assoc,Nat.mul_comm e.codewordBufferSize] at split

/-- A block that carries the data is left alone. -/
theorem embed_still {codeword data : List UInt8} (whole : codeword.length = e.codewordBlockSize)
    (block : data.length = e.dataBlockSize) (carried : e.extract codeword = .ok data) : e.embed codeword data = .ok codeword := by
  obtain ⟨after,ran,length,each⟩ := embed_ok whole block
  have same : after = codeword := by
    apply high_ext (by omega)
    intro k inside
    rw [length] at inside
    obtain ⟨message,place,fits⟩ := codeword_of_bit inside
    obtain ⟨_,p,_,zero,bits⟩ := each _ message
    obtain rfl := zero.mpr ((extract_iff whole block).mp carried _ message)
    simpa [place] using bits _ fits
  rw [ran,same]

/-! ### Lengths -/

theorem poke_length {bytes after : List UInt8} {i : Nat} {value : UInt8} (ran : poke bytes i value = .ok after) :
    after.length = bytes.length := by
  unfold poke at ran
  split at ran
  · obtain rfl := Except.ok.inj ran
    exact List.length_set
  · cases ran

theorem embed_length {e : HammingEncoder} {codeword data after : List UInt8} (ran : e.embed codeword data = .ok after) :
    after.length = codeword.length := by
  refine foldlM_keeps (fun bytes => bytes.length = codeword.length) ?_ ran rfl
  intro i before after stepped same
  obtain ⟨h,_,rest⟩ := bind_eq_ok.mp stepped
  obtain ⟨m,_,swapped⟩ := bind_eq_ok.mp rest
  unfold swapBitInCodeword at swapped
  split at swapped
  · obtain rfl := Except.ok.inj swapped
    exact same
  · obtain ⟨byte,_,poked⟩ := bind_eq_ok.mp swapped
    exact (poke_length poked).trans same

end StegoDisk.HammingEncoder

namespace StegoDisk.Encoder

/-- An `Embed` that returns keeps the size of the block. -/
theorem embed_length {e : Encoder} {codeword data after : List UInt8} (ran : e.embed codeword data = .ok after) :
    after.length = codeword.length := by
  cases e with
  | lsb e =>
    simp only [embed,LsbEncoder.embed] at ran
    split at ran
    · obtain rfl := Except.ok.inj ran
      simp
      omega
    · cases ran
  | hamming e => exact HammingEncoder.embed_length ran

/-- Both encoders give back what they have embedded, in blocks of their sizes, and have
    data in every block. -/
theorem embed_extract (e : Encoder) {codeword data : List UInt8} (whole : codeword.length = e.codewordBlockSize)
    (block : data.length = e.dataBlockSize) :
    ∃ after, e.embed codeword data = .ok after ∧ after.length = e.codewordBlockSize ∧ e.extract after = .ok data := by
  cases e with
  | lsb e =>
    simp only [codewordBlockSize,dataBlockSize] at whole block
    have joined : (data.take e.blockSize ++ codeword.drop e.blockSize).length = e.blockSize := by simp [whole,block]
    refine ⟨_,by simp only [embed,LsbEncoder.embed,whole,block,le_refl,and_self,if_true],joined,?_⟩
    simp [extract,LsbEncoder.extract,block,List.take_of_length_le block.le,List.drop_of_length_le whole.le]
  | hamming e =>
    obtain ⟨after,ran,length,each⟩ := HammingEncoder.embed_ok whole block
    exact ⟨after,ran,length,(HammingEncoder.extract_iff length block).mpr fun i inside => (each i inside).1⟩

theorem embed_still (e : Encoder) {codeword data : List UInt8} (whole : codeword.length = e.codewordBlockSize)
    (block : data.length = e.dataBlockSize) (carried : e.extract codeword = .ok data) : e.embed codeword data = .ok codeword := by
  cases e with
  | lsb e =>
    simp only [codewordBlockSize,dataBlockSize] at whole block
    simp only [extract,LsbEncoder.extract,whole,le_refl,if_true,Except.ok.injEq,List.take_of_length_le whole.le] at carried
    simp only [embed,LsbEncoder.embed,whole,le_refl,and_self,if_true,← carried,List.take_append_drop]
  | hamming e => exact HammingEncoder.embed_still whole block carried

theorem dataBlockSize_lt (e : Encoder) : e.dataBlockSize < 2 ^ 32 := by
  cases e with
  | lsb e =>
    have least := e.inRange.2
    simp only [dataBlockSize]
    omega
  | hamming e =>
    have least := e.dataBlockSize_le
    have range := e.inRange
    simp only [dataBlockSize]
    omega

theorem codewordBlockSize_pos (e : Encoder) : 0 < e.codewordBlockSize := by
  cases e with
  | lsb e => exact e.inRange.1
  | hamming e => exact Nat.mul_pos (by unfold HammingEncoder.codewordBufferSize; omega) e.codewordsInBlock_pos

/-- `Extract` returns a block of data for every block of its size. -/
theorem extract_total (e : Encoder) {codeword : List UInt8} (whole : codeword.length = e.codewordBlockSize) :
    ∃ data, e.extract codeword = .ok data ∧ data.length = e.dataBlockSize := by
  cases e with
  | lsb e =>
    simp only [codewordBlockSize] at whole
    exact ⟨codeword,by simp [extract,LsbEncoder.extract,whole,List.take_of_length_le whole.le],whole⟩
  | hamming e =>
    obtain ⟨data,ran,length,_⟩ := HammingEncoder.extract_carries whole
    exact ⟨data,ran,length⟩

end StegoDisk.Encoder
