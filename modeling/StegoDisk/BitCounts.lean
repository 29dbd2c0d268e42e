import StegoDisk.Encoders
import StegoDisk.Fields

/-!
`StegoMath::Popcount` counts the bits of a word that are one: it adds neighbouring fields of
one, two and four bits, and then the bytes. `LsbEncoder::Init` accepts the powers of two in its
range with it.
-/
namespace StegoDisk
namespace StegoMath
open Fields

/-- The bytes of a word, none above 8, are added up in its lowest byte. -/
theorem gather {x s₂ s₄ : Nat} (bounded : Bounded 8 8 8 x) (by2 : s₂ = x + x / 2 ^ 8) (by4 : s₄ = s₂ + s₂ / 2 ^ 16) :
    s₄ + s₄ / 2 ^ 32 < 2 ^ 64 ∧ (s₄ + s₄ / 2 ^ 32) % 2 ^ 7 = fieldSum 8 8 x := by
  have small := bounded.lt
  obtain ⟨b₀,x₁,row₀,le₀,bounded,next,sum₀⟩ := bounded.parts
  obtain ⟨b₁,x₂,row₁,le₁,bounded,_,sum₁⟩ := bounded.parts
  obtain ⟨b₂,x₃,row₂,le₂,bounded,_,sum₂⟩ := bounded.parts
  obtain ⟨b₃,x₄,row₃,le₃,bounded,_,sum₃⟩ := bounded.parts
  obtain ⟨b₄,x₅,row₄,le₄,bounded,_,sum₄⟩ := bounded.parts
  obtain ⟨b₅,x₆,row₅,le₅,bounded,_,sum₅⟩ := bounded.parts
  obtain ⟨b₆,x₇,row₆,le₆,bounded,_,sum₆⟩ := bounded.parts
  obtain ⟨b₇,x₈,row₇,le₇,none_,_,sum₇⟩ := bounded.parts
  rw [next] at by2
  have noMore : x₈ = 0 := none_
  have half : s₂ / 2 ^ 16 = x₂ + x₃ := div_of_sum (b₀ + b₁ + 2 ^ 8 * (b₁ + b₂)) (by linarith) (by linarith)
  rw [half] at by4
  have half' : s₄ / 2 ^ 32 = x₄ + x₅ + x₆ + x₇ :=
    div_of_sum (b₀ + b₁ + b₂ + b₃ + 2 ^ 8 * (b₁ + b₂ + b₃ + b₄) + 2 ^ 16 * (b₂ + b₃ + b₄ + b₅) +
      2 ^ 24 * (b₃ + b₄ + b₅ + b₆)) (by linarith) (by linarith)
  have total : fieldSum 8 8 x = b₀ + b₁ + b₂ + b₃ + b₄ + b₅ + b₆ + b₇ := by
    rw [sum₀,sum₁,sum₂,sum₃,sum₄,sum₅,sum₆,sum₇,fieldSum]
    ring
  have whole : s₄ + s₄ / 2 ^ 32 = fieldSum 8 8 x + 2 ^ 7 * (2 * (x₁ + x₂ + x₃ + x₄ + x₅ + x₆ + x₇)) := by
    rw [half',total]
    linarith
  constructor
  · linarith
  · rw [whole,Nat.add_mul_mod_self_left,Nat.mod_eq_of_lt (by linarith)]

/-- The step from bits to pairs takes the upper bit of each pair away. -/
theorem pairs_toNat (x : UInt64) : (x - ((x >>> 1) &&& (0x5555555555555555 : UInt64))).toNat = addPairs 1 32 x.toNat := by
  have mask : (0x5555555555555555 : UInt64).toNat = lowHalves 1 32 := by decide
  have whole := halves_add (w := 1) 32 x.toNat x.toNat_lt
  have upper : ((x >>> 1) &&& (0x5555555555555555 : UInt64)).toNat = x.toNat >>> 1 &&& lowHalves 1 32 := by
    rw [UInt64.toNat_and,UInt64.toNat_shiftRight,mask]
    rfl
  rw [UInt64.toNat_sub_of_le _ _ (by rw [UInt64.le_iff_toNat_le,upper]; omega),upper,addPairs]
  omega

theorem nibbles_toNat {x : UInt64} (bounded : Bounded 2 2 32 x.toNat) :
    ((x &&& (0x3333333333333333 : UInt64)) + ((x >>> 2) &&& (0x3333333333333333 : UInt64))).toNat = addPairs 2 16 x.toNat := by
  have mask : (0x3333333333333333 : UInt64).toNat = lowHalves 2 16 := by decide
  have small : addPairs 2 16 x.toNat < 2 ^ 64 := (bounded.addPairs (by decide) (n := 16)).lt
  rw [UInt64.toNat_add,UInt64.toNat_and,UInt64.toNat_and,UInt64.toNat_shiftRight,mask]
  exact Nat.mod_eq_of_lt small

theorem bytes_toNat {x : UInt64} (bounded : Bounded 4 4 16 x.toNat) :
    ((x + (x >>> 4)) &&& (0x0f0f0f0f0f0f0f0f : UInt64)).toNat = addPairs 4 8 x.toNat := by
  have mask : (0x0f0f0f0f0f0f0f0f : UInt64).toNat = lowHalves 4 8 := by decide
  have small : addPairs 4 8 x.toNat < 2 ^ 64 := (bounded.addPairs (by decide) (n := 8)).lt
  have narrow : lowHalves 4 8 = lowHalves 4 8 % 2 ^ 64 := by decide
  have sum := and_add_shift (n := 8) (by decide) bounded
  rw [UInt64.toNat_and,UInt64.toNat_add,UInt64.toNat_shiftRight,mask,narrow,← Nat.and_mod_two_pow]
  exact (congrArg (· % 2 ^ 64) sum).trans (Nat.mod_eq_of_lt small)

theorem add_shift_toNat (x k : UInt64) (fits : x.toNat + x.toNat / 2 ^ (k.toNat % 64) < 2 ^ 64) :
    (x + (x >>> k)).toNat = x.toNat + x.toNat / 2 ^ (k.toNat % 64) := by
  rw [UInt64.toNat_add,UInt64.toNat_shiftRight,Nat.shiftRight_eq_div_pow,Nat.mod_eq_of_lt fits]

/-- The three last steps, on bytes of which none is above 8. -/
theorem gather_toNat {x s₂ s₄ : UInt64} (bounded : Bounded 8 8 8 x.toNat) (by2 : s₂ = x + (x >>> 8))
    (by4 : s₄ = s₂ + (s₂ >>> 16)) : ((s₄ + (s₄ >>> 32)) &&& (0x7f : UInt64)).toUInt8.toNat = fieldSum 8 8 x.toNat := by
  obtain ⟨fits,sum⟩ := gather bounded rfl rfl
  have two : s₂.toNat = x.toNat + x.toNat / 2 ^ 8 := by
    rw [by2]
    have first : x.toNat + x.toNat / 2 ^ 8 < 2 ^ 64 := by omega
    exact add_shift_toNat x 8 first
  rw [← two] at fits sum
  have four : s₄.toNat = s₂.toNat + s₂.toNat / 2 ^ 16 := by
    rw [by4]
    have second : s₂.toNat + s₂.toNat / 2 ^ 16 < 2 ^ 64 := by omega
    exact add_shift_toNat s₂ 16 second
  rw [← four] at fits sum
  have eight : (s₄ + (s₄ >>> 32)).toNat = s₄.toNat + s₄.toNat / 2 ^ 32 := add_shift_toNat s₄ 32 fits
  rw [← eight] at sum
  rw [UInt64.toNat_toUInt8,UInt64.toNat_and]
  have low : (s₄ + (s₄ >>> 32)).toNat &&& 2 ^ 7 - 1 = fieldSum 8 8 x.toNat := by
    rw [Nat.and_two_pow_sub_one_eq_mod,sum]
  exact (congrArg (· % 2 ^ 8) low).trans (Nat.mod_eq_of_lt (by omega))

/-- `Popcount` counts the bits that are one. -/
theorem popcount_eq (x : UInt64) : (popcount x).toNat = ones 64 x.toNat := by
  have pairs := (bounded_one x.toNat_lt).addPairs (by decide) (n := 32)
  have nibbles := pairs.addPairs (by decide) (n := 16)
  have bytes := nibbles.addPairs (by decide) (n := 8)
  rw [← pairs_toNat] at pairs nibbles bytes
  rw [← nibbles_toNat pairs] at nibbles bytes
  rw [← bytes_toNat nibbles] at bytes
  rw [popcount,gather_toNat bytes rfl rfl,bytes_toNat nibbles,fieldSum_addPairs (w := 4) (by decide) 8,nibbles_toNat pairs,
    fieldSum_addPairs (w := 2) (by decide) 16,pairs_toNat,fieldSum_addPairs (w := 1) (by decide) 32,fieldSum_one]

end StegoMath

namespace LsbEncoder
open StegoMath Fields

/-- The block sizes of an encoder object. -/
structure Members where
  dataBlockSize : Nat := 0
  codewordBlockSize : Nat := 0

/-- `LsbEncoder::Init` as it assigns the members of an object. -/
def initMembers (members : Members) (blockSize : UInt32) : Members × Except Failure Unit :=
  if popcount blockSize.toUInt64 ≠ 1 then (members,.error (.thrown (.invalidArgument
    ("LsbEncoder::init: 'block_size' should be power of two, but is " ++ toString blockSize.toNat))))
  else if blockSize.toNat < 1 ∨ blockSize.toNat > 1024 then (members,.error (.thrown (.invalidArgument
    ("LsbEncoder::init: 'block_size' is " ++ toString blockSize.toNat ++ " but should be in range <" ++ ",1024" ++ ">"))))
  else ({ dataBlockSize := blockSize.toNat, codewordBlockSize := blockSize.toNat },.ok ())

/-- The object after `Init` is the encoder that `Init` makes, and it is as it was where `Init` throws. -/
theorem initMembers_init (members : Members) (blockSize : UInt32) :
    (∀ e, init blockSize.toNat = .ok e → initMembers members blockSize = (⟨e.blockSize,e.blockSize⟩,.ok ())) ∧
      ∀ failure, init blockSize.toNat = .error failure → initMembers members blockSize = (members,.error failure) := by
  have same : UInt64.ofNat blockSize.toNat = blockSize.toUInt64 := UInt64.ofNat_uInt32ToNat _
  unfold initMembers
  rw [← same]
  unfold init
  by_cases power : popcount (UInt64.ofNat blockSize.toNat) = 1
  · rw [if_neg (by simpa using power),dif_pos power]
    by_cases inRange : 1 ≤ blockSize.toNat ∧ blockSize.toNat ≤ 1024
    · rw [if_neg (by omega),dif_pos inRange]
      refine ⟨?_,by simp⟩
      rintro _ ⟨⟩
      rfl
    · rw [if_pos (by omega),dif_neg inRange]
      refine ⟨by simp,?_⟩
      rintro _ ⟨⟩
      rfl
  · rw [if_pos power,dif_neg power]
    refine ⟨by simp,?_⟩
    rintro _ ⟨⟩
    rfl

theorem init_returns_iff (blockSize : UInt32) : (∃ e, init blockSize.toNat = .ok e) ↔
    popcount blockSize.toUInt64 = 1 ∧ 1 ≤ blockSize.toNat ∧ blockSize.toNat ≤ 1024 := by
  have same : UInt64.ofNat blockSize.toNat = blockSize.toUInt64 := UInt64.ofNat_uInt32ToNat _
  rw [← same]
  unfold init
  constructor
  · rintro ⟨e,made⟩
    split at made
    · split at made
      · exact ⟨‹_›,‹_›⟩
      · cases made
    · cases made
  · rintro ⟨power,inRange⟩
    exact ⟨_,by rw [dif_pos power,dif_pos inRange]⟩

theorem init_blockSize {blockSize : Nat} {e : LsbEncoder} (made : init blockSize = .ok e) : e.blockSize = blockSize := by
  unfold init at made
  split at made
  · split at made
    · obtain rfl := Except.ok.inj made
      rfl
    · cases made
  · cases made

theorem init_throws {blockSize : Nat} {failure : Failure} (failed : init blockSize = .error failure) :
    ∃ exception, failure = .thrown exception := by
  unfold init at failed
  split at failed
  · split at failed
    · cases failed
    · exact ⟨_,(Except.error.inj failed).symm⟩
  · exact ⟨_,(Except.error.inj failed).symm⟩

theorem popcount_eq_one (blockSize : UInt32) : popcount blockSize.toUInt64 = 1 ↔ ∃ k, blockSize.toNat = 2 ^ k := by
  have small : blockSize.toNat < 2 ^ 64 := blockSize.toNat_lt.trans (by decide)
  have counted : (popcount blockSize.toUInt64).toNat = ones 64 blockSize.toNat := popcount_eq blockSize.toUInt64
  generalize popcount blockSize.toUInt64 = count at counted
  rw [← ones_eq_one small,← counted,← UInt8.toNat_inj,UInt8.toNat_one]

/-- `Popcount` counts the bits of a word that are one; so `Init` returns for the powers of two in its range, and where
    it throws the block sizes are what they were. -/
theorem popcount_init :
    (∀ x : UInt64, (popcount x).toNat = (List.range 64).countP x.toNat.testBit) ∧
      ∀ (members : Members) (blockSize : UInt32),
        ((initMembers members blockSize).2 = .ok () ↔
          (∃ k, blockSize.toNat = 2 ^ k) ∧ 1 ≤ blockSize.toNat ∧ blockSize.toNat ≤ 1024) ∧
        ((initMembers members blockSize).2 = .ok () → (initMembers members blockSize).1 = ⟨blockSize.toNat,blockSize.toNat⟩) ∧
        (∀ failure, (initMembers members blockSize).2 = .error failure →
          (∃ exception, failure = .thrown exception) ∧ (initMembers members blockSize).1 = members) := by
  refine ⟨popcount_eq,fun members blockSize => ?_⟩
  obtain ⟨returned,thrown⟩ := initMembers_init members blockSize
  rw [← popcount_eq_one,← init_returns_iff]
  cases ran : init blockSize.toNat with
  | ok e =>
    have sized := init_blockSize ran
    rw [returned e ran]
    exact ⟨⟨fun _ => ⟨e,rfl⟩,fun _ => rfl⟩,fun _ => (by rw [sized]),fun failure failed => (by cases failed)⟩
  | error failure =>
    rw [thrown failure ran]
    refine ⟨⟨fun returns => (by cases returns),fun ⟨_,made⟩ => (by cases made)⟩,fun returns => (by cases returns),?_⟩
    intro failure' same
    obtain rfl := Except.error.inj same
    exact ⟨init_throws ran,rfl⟩

end LsbEncoder
end StegoDisk
