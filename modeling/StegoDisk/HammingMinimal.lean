import Mathlib.Data.Finset.Card
import StegoDisk.HammingCorrect

/-!
How much `Embed` changes. It flips one bit in each codeword that does not carry its
message yet, and nothing else; every block that carries the data differs from the
carrier in each of these codewords, so no such block is nearer to the carrier.
-/
namespace StegoDisk.HammingEncoder
open Bits

/-- The positions of the bits that differ among `n` bits from bit `start` on. -/
def differing (xs ys : List UInt8) (start n : Nat) : Finset Nat :=
  {k ∈ Finset.range n | high xs (start + k) ≠ high ys (start + k)}

/-- Hamming distance of two blocks. -/
def distance (xs ys : List UInt8) : Nat := (differing xs ys 0 (8 * xs.length)).card

theorem mem_differing {xs ys : List UInt8} {start n k : Nat} :
    k ∈ differing xs ys start n ↔ k < n ∧ high xs (start + k) ≠ high ys (start + k) := by
  simp [differing]

variable {e : HammingEncoder}

/-- The codewords that do not carry their message. -/
noncomputable def missing (e : HammingEncoder) (codeword data : List UInt8) : Finset Nat :=
  open Classical in {i ∈ Finset.range e.codewordsInBlock | ¬ e.Carries codeword data i}

theorem mem_missing {codeword data : List UInt8} {i : Nat} :
    i ∈ e.missing codeword data ↔ i < e.codewordsInBlock ∧ ¬ e.Carries codeword data i := by
  simp [missing]

theorem card_missing_le (codeword data : List UInt8) : (e.missing codeword data).card ≤ e.codewordsInBlock := by
  classical
  exact (Finset.card_le_card fun _ misses => Finset.mem_range.mpr (mem_missing.mp misses).1).trans (Finset.card_range _).le

/-- A block that carries the data differs in every codeword that does not. -/
theorem missing_le_distance {codeword other data : List UInt8} (whole : codeword.length = e.codewordBlockSize)
    (carried : ∀ i < e.codewordsInBlock, e.Carries other data i) :
    (e.missing codeword data).card ≤ distance codeword other := by
  apply Finset.card_le_card_of_surjOn (fun k => k / (8 * e.codewordBufferSize))
  intro i misses
  obtain ⟨inside,lacks⟩ := mem_missing.mp misses
  have differs : ∃ k < e.totalBits, high codeword (e.codewordStart i + k) ≠ high other (e.codewordStart i + k) := by
    by_contra same
    push Not at same
    exact lacks ((carries_congr same).mpr (carried i inside))
  obtain ⟨k,inTotal,differ⟩ := differs
  have fits := inTotal.trans_le e.totalBits_le
  have bytes := codeword_inside inside
  refine ⟨e.codewordStart i + k,?_,?_⟩
  · simp only [SetLike.mem_coe,mem_differing,Nat.zero_add]
    exact ⟨by simp only [codewordStart]; omega,differ⟩
  · simp only [codewordStart]
    rw [← Nat.mul_assoc,Nat.mul_comm 8 i,Nat.mul_assoc,Nat.mul_comm i,Nat.mul_add_div (by omega),
      Nat.div_eq_of_lt fits,Nat.add_zero]

/-- A block with at most one bit flipped in each codeword, and none where the message is
    carried, is as near as the number of codewords that do not carry theirs. -/
theorem distance_le_missing {codeword after data : List UInt8} (whole : codeword.length = e.codewordBlockSize)
    (each : ∀ i < e.codewordsInBlock, ∃ p, (p = 0 ↔ e.Carries codeword data i) ∧ ∀ k < 8 * e.codewordBufferSize,
      high after (e.codewordStart i + k) = (high codeword (e.codewordStart i + k) ^^ decide (k + 1 = p))) :
    distance codeword after ≤ (e.missing codeword data).card := by
  -- where a bit differs, it is the flipped one
  have flipped : ∀ k ∈ differing codeword after 0 (8 * codeword.length), ∃ p,
      (p = 0 ↔ e.Carries codeword data (k / (8 * e.codewordBufferSize))) ∧ k % (8 * e.codewordBufferSize) + 1 = p ∧
      ∀ j < 8 * e.codewordBufferSize, high after (e.codewordStart (k / (8 * e.codewordBufferSize)) + j) =
        (high codeword (e.codewordStart (k / (8 * e.codewordBufferSize)) + j) ^^ decide (j + 1 = p)) := by
    intro k differ
    obtain ⟨inside,differ⟩ := mem_differing.mp differ
    rw [whole] at inside
    obtain ⟨message,place,fits⟩ := codeword_of_bit inside
    obtain ⟨p,zero,bits⟩ := each _ message
    refine ⟨p,zero,?_,bits⟩
    by_contra other
    have bit := bits _ fits
    rw [place,decide_eq_false other,Bool.xor_false] at bit
    rw [Nat.zero_add] at differ
    exact differ bit.symm
  apply Finset.card_le_card_of_injOn (fun k => k / (8 * e.codewordBufferSize))
  · intro k differ
    have inside := (mem_differing.mp differ).1
    rw [whole] at inside
    obtain ⟨p,zero,here,_⟩ := flipped k differ
    simp only [SetLike.mem_coe,mem_missing]
    exact ⟨(codeword_of_bit inside).1,fun carries => by have := zero.mpr carries; omega⟩
  · intro k differ k' differ' same
    have inside' := (mem_differing.mp differ').1
    rw [whole] at inside'
    obtain ⟨p,_,here,bits⟩ := flipped k differ
    obtain ⟨_,place',fits'⟩ := codeword_of_bit inside'
    have same : k / (8 * e.codewordBufferSize) = k' / (8 * e.codewordBufferSize) := same
    have moved := (mem_differing.mp differ').2
    rw [Nat.zero_add,← place',← same,bits _ fits'] at moved
    have here' : k' % (8 * e.codewordBufferSize) + 1 = p := by
      by_contra other
      simp [other] at moved
    have split := Nat.div_add_mod k (8 * e.codewordBufferSize)
    have split' := Nat.div_add_mod k' (8 * e.codewordBufferSize)
    rw [← same] at split'
    omega

theorem init_ok {parityBits : Nat} {e : HammingEncoder} (accepted : init parityBits = .ok e) : e.parityBits = parityBits := by
  unfold init at accepted
  split at accepted
  · obtain rfl := Except.ok.inj accepted
    rfl
  · cases accepted

/-- `Extract` returns what `Embed` was given. An access outside a block would be undefined, so
    there is none. -/
theorem extract_embed {parityBits : Nat} {e : HammingEncoder} (_ : init parityBits = .ok e)
    {codeword data : List UInt8} (whole : codeword.length = e.codewordBlockSize)
    (block : data.length = e.dataBlockSize) :
    ∃ after, e.embed codeword data = .ok after ∧ after.length = e.codewordBlockSize ∧ e.extract after = .ok data := by
  obtain ⟨after,ran,length,each⟩ := embed_ok whole block
  exact ⟨after,ran,length,(extract_iff length block).mpr fun i inside => (each i inside).1⟩

theorem extract_embed_three : ∃ after, (⟨3,by decide⟩ : HammingEncoder).embed [1,2,3,4,5,6,7,8] [9,10,11] = .ok after ∧
    after.length = (⟨3,by decide⟩ : HammingEncoder).codewordBlockSize ∧
    (⟨3,by decide⟩ : HammingEncoder).extract after = .ok [9,10,11] :=
  extract_embed (show init 3 = .ok ⟨3,by decide⟩ from rfl) (by decide +kernel) (by decide +kernel)

/-- What `Embed` owes to the carrier: at most one bit of each codeword differs and no padding bit,
    none if the block carries the data, and no block that carries the data is nearer. -/
structure Minimal (e : HammingEncoder) (codeword data after : List UInt8) : Prop where
  single : ∀ i < e.codewordsInBlock, (differing codeword after (e.codewordStart i) (8 * e.codewordBufferSize)).card ≤ 1
  unpadded : ∀ i < e.codewordsInBlock,
    ∀ k ∈ differing codeword after (e.codewordStart i) (8 * e.codewordBufferSize), k < e.totalBits
  still : after = codeword ↔ e.extract codeword = .ok data
  nearest : ∀ other, other.length = e.codewordBlockSize → e.extract other = .ok data →
    distance codeword after ≤ distance codeword other

theorem embed_minimal {parityBits : Nat} {e : HammingEncoder} (accepted : init parityBits = .ok e)
    {codeword data : List UInt8} (whole : codeword.length = e.codewordBlockSize)
    (block : data.length = e.dataBlockSize) :
    e.totalBits = 2 ^ parityBits - 1 ∧ ∃ after, e.embed codeword data = .ok after ∧
      after.length = e.codewordBlockSize ∧ e.Minimal codeword data after := by
  obtain ⟨after,ran,length,each⟩ := embed_ok whole block
  have flipped : ∀ i < e.codewordsInBlock, ∃ p ≤ e.totalBits,
      ∀ k ∈ differing codeword after (e.codewordStart i) (8 * e.codewordBufferSize), k + 1 = p := by
    intro i inside
    obtain ⟨_,p,small,_,bits⟩ := each i inside
    refine ⟨p,small,?_⟩
    intro k differ
    obtain ⟨fits,differ⟩ := mem_differing.mp differ
    by_contra other
    simp [bits k fits,other] at differ
  refine ⟨by rw [totalBits,init_ok accepted],after,ran,length,?_,?_,?_,?_⟩
  · intro i inside
    obtain ⟨p,_,here⟩ := flipped i inside
    rw [Finset.card_le_one]
    intro k differ k' differ'
    have first := here k differ
    have second := here k' differ'
    omega
  · intro i inside k differ
    obtain ⟨p,small,here⟩ := flipped i inside
    have position := here k differ
    omega
  · rw [extract_iff whole block]
    constructor
    · intro same i inside
      rw [← same]
      exact (each i inside).1
    · intro carries
      exact Except.ok.inj (ran.symm.trans (embed_still whole block ((extract_iff whole block).mpr carries)))
  · intro other length' returned
    calc distance codeword after ≤ (e.missing codeword data).card :=
          distance_le_missing whole fun i inside => by
            obtain ⟨_,p,_,zero,bits⟩ := each i inside
            exact ⟨p,zero,bits⟩
      _ ≤ distance codeword other := missing_le_distance whole ((extract_iff length' block).mp returned)

theorem embed_minimal_three : (⟨3,by decide⟩ : HammingEncoder).totalBits = 2 ^ 3 - 1 ∧
    ∃ after, (⟨3,by decide⟩ : HammingEncoder).embed [1,2,3,4,5,6,7,8] [9,10,11] = .ok after ∧
      after.length = (⟨3,by decide⟩ : HammingEncoder).codewordBlockSize ∧
      Minimal ⟨3,by decide⟩ [1,2,3,4,5,6,7,8] [9,10,11] after :=
  embed_minimal (show init 3 = .ok ⟨3,by decide⟩ from rfl) (by decide +kernel) (by decide +kernel)

end StegoDisk.HammingEncoder
