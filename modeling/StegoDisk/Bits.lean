import Mathlib.Data.Nat.Bitwise
import Mathlib.Data.List.Basic

/-!
Bits of a list of bytes, in the two orders in use: from the least significant
bit of each byte up (`low`), or from the most significant one down (`high`). A list
of known length is determined by its bits in either order.
-/
namespace StegoDisk.Bits

/-- Bit `k` when each byte is read from its least significant bit. -/
def low (bytes : List UInt8) (k : Nat) : Bool := (bytes.getD (k / 8) 0).toNat.testBit (k % 8)

/-- Bit `k` when each byte is read from its most significant bit. -/
def high (bytes : List UInt8) (k : Nat) : Bool := (bytes.getD (k / 8) 0).toNat.testBit (7 - k % 8)

theorem byte_ext {a b : UInt8} (same : ∀ t < 8, a.toNat.testBit t = b.toNat.testBit t) : a = b := by
  apply UInt8.toNat_inj.mp
  apply Nat.eq_of_testBit_eq
  intro t
  rcases Nat.lt_or_ge t 8 with inside | outside
  · exact same t inside
  · have bound : 2 ^ 8 ≤ 2 ^ t := Nat.pow_le_pow_right (by decide) outside
    rw [Nat.testBit_eq_false_of_lt (a.toNat_lt.trans_le bound),Nat.testBit_eq_false_of_lt (b.toNat_lt.trans_le bound)]

private theorem ext_of_bytes {xs ys : List UInt8} (length : xs.length = ys.length)
    (same : ∀ i < xs.length, ∀ t < 8, (xs.getD i 0).toNat.testBit t = (ys.getD i 0).toNat.testBit t) : xs = ys := by
  apply List.ext_getElem length
  intro i left right
  have bytes : xs.getD i 0 = ys.getD i 0 := byte_ext (same i left)
  simpa [List.getD_eq_getElem,left,right] using bytes

/-- Bytes are the same when their bits are. -/
theorem getD_eq_of_low {xs ys : List UInt8} {j : Nat} (same : ∀ k, k / 8 = j → low xs k = low ys k) :
    xs.getD j 0 = ys.getD j 0 := by
  apply byte_ext
  intro t narrow
  have bit := same (8 * j + t) (by omega)
  simpa [low,show (8 * j + t) / 8 = j by omega,show (8 * j + t) % 8 = t by omega] using bit

theorem high_ext {xs ys : List UInt8} (length : xs.length = ys.length)
    (same : ∀ k < 8 * xs.length, high xs k = high ys k) : xs = ys := by
  apply ext_of_bytes length
  intro i inside t narrow
  have bit := same (8 * i + (7 - t)) (by omega)
  simpa [high,show (8 * i + (7 - t)) / 8 = i by omega,show (8 * i + (7 - t)) % 8 = 7 - t by omega,
    show 7 - (7 - t) = t by omega] using bit

theorem low_eq_of_byte {xs ys : List UInt8} {i k : Nat} (same : xs.getD i 0 = ys.getD i 0) (inByte : k / 8 = i) :
    low xs k = low ys k := by
  simp only [low,inByte,same]

/-! ### Slices -/

theorem getD_drop (bytes : List UInt8) (m i : Nat) : (bytes.drop m).getD i 0 = bytes.getD (m + i) 0 := by
  simp [List.getD_eq_getElem?_getD,List.getElem?_drop]

theorem getD_take (bytes : List UInt8) {m i : Nat} (inside : i < m) : (bytes.take m).getD i 0 = bytes.getD i 0 := by
  simp [List.getD_eq_getElem?_getD,List.getElem?_take_of_lt inside]

theorem high_drop (bytes : List UInt8) (m k : Nat) : high (bytes.drop m) k = high bytes (8 * m + k) := by
  simp only [high,getD_drop,show (8 * m + k) / 8 = m + k / 8 by omega,show (8 * m + k) % 8 = k % 8 by omega]

theorem high_take (bytes : List UInt8) {m k : Nat} (inside : k < 8 * m) : high (bytes.take m) k = high bytes k := by
  simp only [high,getD_take bytes (show k / 8 < m by omega)]

theorem high_replicate (n k : Nat) : high (List.replicate n 0) k = false := by
  simp only [high,List.getD_eq_getElem?_getD,List.getElem?_replicate]
  split <;> simp

theorem low_replicate (n k : Nat) : low (List.replicate n 0) k = false := by
  simp only [low,List.getD_eq_getElem?_getD,List.getElem?_replicate]
  split <;> simp

/-! ### Changing a byte -/

theorem getD_set (bytes : List UInt8) {i : Nat} (inside : i < bytes.length) (value : UInt8) (j : Nat) :
    (bytes.set i value).getD j 0 = if j = i then value else bytes.getD j 0 := by
  by_cases same : j = i
  · subst same
    simp [List.getD_eq_getElem?_getD,inside]
  · simp [List.getD_eq_getElem?_getD,List.getElem?_set_ne (Ne.symm same),same]

private theorem mask_toNat (j : Nat) : (UInt8.ofNat (2 ^ (j % 8))).toNat = 2 ^ (j % 8) := by
  rw [UInt8.toNat_ofNat']
  exact Nat.mod_eq_of_lt (Nat.pow_lt_pow_right (by decide) (by omega))

/-- Testing bit `j` of its byte. -/
theorem low_testBit (bytes : List UInt8) (j : Nat) :
    (bytes.getD (j / 8) 0 &&& UInt8.ofNat (2 ^ (j % 8)) != 0) = low bytes j := by
  have bit : (bytes.getD (j / 8) 0 &&& UInt8.ofNat (2 ^ (j % 8))).toNat = (low bytes j).toNat * 2 ^ (j % 8) := by
    rw [UInt8.toNat_and,mask_toNat,Nat.and_two_pow]
    rfl
  have zero : bytes.getD (j / 8) 0 &&& UInt8.ofNat (2 ^ (j % 8)) = 0 ↔ low bytes j = false := by
    rw [← UInt8.toNat_inj,bit]
    cases low bytes j <;> simp
  cases set_ : low bytes j with
  | false => simpa using zero.mpr set_
  | true => simpa [set_] using zero

/-- Setting bit `j` sets that bit and no other. -/
theorem low_setBit (bytes : List UInt8) {j : Nat} (inside : j / 8 < bytes.length) (k : Nat) :
    low (bytes.set (j / 8) (bytes.getD (j / 8) 0 ||| UInt8.ofNat (2 ^ (j % 8)))) k = (decide (k = j) || low bytes k) := by
  simp only [low,getD_set bytes inside]
  by_cases sameByte : k / 8 = j / 8
  · rw [if_pos sameByte,UInt8.toNat_or,mask_toNat,Nat.testBit_or,Nat.testBit_two_pow,sameByte,Bool.or_comm]
    congr 1
    simp only [decide_eq_decide]
    omega
  · have other : k ≠ j := fun same => sameByte (by rw [same])
    rw [if_neg sameByte]
    simp [other]

/-- Xor with a byte changes the bits that are set in it. -/
theorem high_xor (bytes : List UInt8) {i : Nat} (inside : i < bytes.length) (value : UInt8) (k : Nat) :
    high (bytes.set i (bytes.getD i 0 ^^^ value)) k =
      (high bytes k ^^ (decide (k / 8 = i) && value.toNat.testBit (7 - k % 8))) := by
  simp only [high,getD_set bytes inside]
  by_cases sameByte : k / 8 = i
  · simp [sameByte,UInt8.toNat_xor,Nat.testBit_xor]
  · simp [sameByte]

end StegoDisk.Bits
