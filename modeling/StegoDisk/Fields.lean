import Mathlib.Data.List.Count
import Mathlib.Data.Nat.Bitwise
import Mathlib.Tactic.Linarith
import Mathlib.Tactic.Ring

/-!
Numbers as rows of fields of `w` bits. Neighbouring fields can be added all at once with a mask
that keeps every other field: the sum of the fields stays what it was, and the bits of a number
are its fields of one bit.
-/
namespace StegoDisk.Fields

variable {w n x c : Nat}

/-- The sum of the first `n` fields of `w` bits. -/
def fieldSum (w : Nat) : Nat → Nat → Nat
  | 0,_ => 0
  | n+1,x => x % 2 ^ w + fieldSum w n (x / 2 ^ w)

/-- No field is above `c`, and there are no more than `n`. -/
def Bounded (w c : Nat) : Nat → Nat → Prop
  | 0,x => x = 0
  | n+1,x => x % 2 ^ w ≤ c ∧ Bounded w c n (x / 2 ^ w)

/-- The mask of the lower field in each of `n` pairs. -/
def lowHalves (w : Nat) : Nat → Nat
  | 0 => 0
  | n+1 => 2 ^ w - 1 + 2 ^ (2 * w) * lowHalves w n

/-- The fields of each of `n` pairs added. -/
def addPairs (w n x : Nat) : Nat := (x &&& lowHalves w n) + (x >>> w &&& lowHalves w n)

/-- A number and a mask divided at the same bit. -/
theorem and_split (x m k : Nat) : x &&& m = (x % 2 ^ k &&& m % 2 ^ k) + 2 ^ k * (x / 2 ^ k &&& m / 2 ^ k) := by
  rw [← Nat.and_mod_two_pow,← Nat.and_div_two_pow,Nat.mod_add_div]

theorem two_pow_double (w : Nat) : 2 ^ (2 * w) = 2 ^ w * 2 ^ w := by rw [two_mul,pow_add]

theorem and_lowHalves_succ (w n x : Nat) :
    x &&& lowHalves w (n + 1) = x % 2 ^ w + 2 ^ (2 * w) * (x / 2 ^ (2 * w) &&& lowHalves w n) := by
  have positive := Nat.two_pow_pos w
  have wide : 2 ^ w - 1 < 2 ^ (2 * w) := by
    have larger := Nat.pow_le_pow_right (n := 2) (by decide) (show w ≤ 2 * w by omega)
    omega
  rw [and_split x _ (2 * w),lowHalves,Nat.add_mul_mod_self_left,Nat.mod_eq_of_lt wide,Nat.add_mul_div_left _ _ (Nat.two_pow_pos _),
    Nat.div_eq_of_lt wide,Nat.zero_add,Nat.and_two_pow_sub_one_eq_mod,two_pow_double,Nat.mod_mul_right_mod]

theorem shift_and_lowHalves_succ (w n x : Nat) :
    x >>> w &&& lowHalves w (n + 1) = x / 2 ^ w % 2 ^ w + 2 ^ (2 * w) * ((x / 2 ^ (2 * w)) >>> w &&& lowHalves w n) := by
  rw [and_lowHalves_succ,Nat.shiftRight_eq_div_pow,Nat.shiftRight_eq_div_pow,Nat.div_div_eq_div_mul,Nat.div_div_eq_div_mul,
    Nat.mul_comm (2 ^ w)]

theorem addPairs_succ (w n x : Nat) :
    addPairs w (n + 1) x = x % 2 ^ w + x / 2 ^ w % 2 ^ w + 2 ^ (2 * w) * addPairs w n (x / 2 ^ (2 * w)) := by
  rw [addPairs,and_lowHalves_succ,shift_and_lowHalves_succ,addPairs]
  ring

/-- Two fields of `w` bits have room for their sum. -/
theorem pair_lt (large : 1 ≤ w) (x : Nat) : x % 2 ^ w + x / 2 ^ w % 2 ^ w < 2 ^ (2 * w) := by
  have first := Nat.mod_lt x (Nat.two_pow_pos w)
  have second := Nat.mod_lt (x / 2 ^ w) (Nat.two_pow_pos w)
  have two : 2 ≤ 2 ^ w := Nat.pow_le_pow_right (n := 2) (by decide) large
  rw [two_pow_double]
  nlinarith

theorem fieldSum_double (w n x : Nat) :
    fieldSum w (2 * (n + 1)) x = x % 2 ^ w + x / 2 ^ w % 2 ^ w + fieldSum w (2 * n) (x / 2 ^ (2 * w)) := by
  rw [show 2 * (n + 1) = 2 * n + 1 + 1 by ring,fieldSum,fieldSum,Nat.div_div_eq_div_mul,two_pow_double]
  ring

/-- Adding neighbours keeps the sum of the fields. -/
theorem fieldSum_addPairs (large : 1 ≤ w) (n x : Nat) : fieldSum (2 * w) n (addPairs w n x) = fieldSum w (2 * n) x := by
  induction n generalizing x with
  | zero => rfl
  | succ n ih =>
    rw [fieldSum,addPairs_succ,Nat.add_mul_mod_self_left,Nat.mod_eq_of_lt (pair_lt large x),
      Nat.add_mul_div_left _ _ (Nat.two_pow_pos _),Nat.div_eq_of_lt (pair_lt large x),Nat.zero_add,ih,fieldSum_double]

theorem bounded_double (bounded : Bounded w c (2 * (n + 1)) x) :
    x % 2 ^ w ≤ c ∧ x / 2 ^ w % 2 ^ w ≤ c ∧ Bounded w c (2 * n) (x / 2 ^ (2 * w)) := by
  rw [show 2 * (n + 1) = 2 * n + 1 + 1 by ring] at bounded
  obtain ⟨first,second,rest⟩ := bounded
  rw [Nat.div_div_eq_div_mul,← two_pow_double] at rest
  exact ⟨first,second,rest⟩

theorem Bounded.addPairs (large : 1 ≤ w) (bounded : Bounded w c (2 * n) x) : Bounded (2 * w) (2 * c) n (addPairs w n x) := by
  induction n generalizing x with
  | zero =>
    obtain rfl : x = 0 := bounded
    simp [Bounded,Fields.addPairs]
  | succ n ih =>
    obtain ⟨first,second,rest⟩ := bounded_double bounded
    rw [Bounded,addPairs_succ,Nat.add_mul_mod_self_left,Nat.mod_eq_of_lt (pair_lt large x),
      Nat.add_mul_div_left _ _ (Nat.two_pow_pos _),Nat.div_eq_of_lt (pair_lt large x),Nat.zero_add]
    exact ⟨by omega,ih rest⟩

theorem Bounded.lt (bounded : Bounded w c n x) : x < 2 ^ (w * n) := by
  induction n generalizing x with
  | zero =>
    obtain rfl : x = 0 := bounded
    simp
  | succ n ih =>
    have rest := ih bounded.2
    rw [Nat.mul_succ,Nat.add_comm,pow_add]
    exact Nat.lt_mul_of_div_lt rest (Nat.two_pow_pos w) |>.trans_eq (by ring)

theorem Bounded.parts (bounded : Bounded w c (n + 1) x) :
    ∃ low above, x = low + 2 ^ w * above ∧ low ≤ c ∧ Bounded w c n above ∧ x / 2 ^ w = above ∧
      fieldSum w (n + 1) x = low + fieldSum w n above :=
  ⟨x % 2 ^ w,x / 2 ^ w,(Nat.mod_add_div x _).symm,bounded.1,bounded.2,rfl,rfl⟩

/-- What is left of a number without its lowest bits. -/
theorem div_of_sum (low : Nat) {above k : Nat} (sum : x = low + 2 ^ k * above) (small : low < 2 ^ k) : x / 2 ^ k = above := by
  rw [sum,Nat.add_mul_div_left _ _ (Nat.two_pow_pos k),Nat.div_eq_of_lt small,Nat.zero_add]

/-- Where no sum of neighbours leaves its field, one mask is enough. -/
theorem and_add_shift (small : 2 * c < 2 ^ w) (bounded : Bounded w c (2 * n) x) :
    (x + x >>> w) &&& lowHalves w n = addPairs w n x := by
  induction n generalizing x with
  | zero => simp [lowHalves,addPairs]
  | succ n ih =>
    obtain ⟨first,second,rest⟩ := bounded_double bounded
    have step := ih rest
    rw [Nat.shiftRight_eq_div_pow] at step ⊢
    have positive := Nat.two_pow_pos w
    -- the number as two fields and the fields above them
    obtain ⟨low,high,above,split_,lowLe,highLe,sameLow,sameHigh,sameAbove⟩ : ∃ low high above,
        x = low + 2 ^ w * (high + 2 ^ w * above) ∧ low ≤ c ∧ high ≤ c ∧ x % 2 ^ w = low ∧ x / 2 ^ w % 2 ^ w = high ∧
          x / 2 ^ (2 * w) = above := by
      refine ⟨x % 2 ^ w,x / 2 ^ w % 2 ^ w,x / 2 ^ (2 * w),?_,first,second,rfl,rfl,rfl⟩
      rw [two_pow_double,← Nat.div_div_eq_div_mul,Nat.mod_add_div,Nat.mod_add_div]
    rw [addPairs_succ,sameLow,sameHigh,sameAbove,and_lowHalves_succ]
    rw [sameAbove] at step rest
    have halved : x / 2 ^ w = high + 2 ^ w * above := by
      rw [split_,Nat.add_mul_div_left _ _ positive,Nat.div_eq_of_lt (by omega),Nat.zero_add]
    -- the first field of what is above is the only one that joins the pair
    have next : (above % 2 ^ w) ≤ c := by
      cases n with
      | zero =>
        obtain rfl : above = 0 := rest
        simp
      | succ n => exact (bounded_double rest).1
    have sum : x + x / 2 ^ w = low + high + 2 ^ w * (high + above % 2 ^ w) + 2 ^ (2 * w) * (above + above / 2 ^ w) := by
      have parts := Nat.mod_add_div above (2 ^ w)
      rw [halved,two_pow_double]
      calc x + (high + 2 ^ w * above) = low + high + 2 ^ w * (high + above) + 2 ^ w * 2 ^ w * above := by rw [split_]; ring
        _ = low + high + 2 ^ w * (high + (above % 2 ^ w + 2 ^ w * (above / 2 ^ w))) + 2 ^ w * 2 ^ w * above := by rw [parts]
        _ = _ := by ring
    have pair : low + high + 2 ^ w * (high + above % 2 ^ w) < 2 ^ (2 * w) := by
      rw [two_pow_double]
      have bound : 2 ^ w * (high + above % 2 ^ w + 1) ≤ 2 ^ w * 2 ^ w := Nat.mul_le_mul_left _ (by omega)
      rw [Nat.mul_add,Nat.mul_one] at bound
      omega
    have lower : (x + x / 2 ^ w) % 2 ^ w = low + high := by
      rw [sum,two_pow_double,Nat.mul_assoc,Nat.add_assoc,← Nat.mul_add,Nat.add_mul_mod_self_left,Nat.mod_eq_of_lt (by omega)]
    have upper : (x + x / 2 ^ w) / 2 ^ (2 * w) = above + above / 2 ^ w := by
      rw [sum,Nat.add_mul_div_left _ _ (Nat.two_pow_pos _),Nat.div_eq_of_lt pair,Nat.zero_add]
    rw [lower,upper,step]

/-- A number is its lower and its upper fields. -/
theorem halves_add (n x : Nat) (small : x < 2 ^ (2 * w * n)) :
    x = (x &&& lowHalves w n) + 2 ^ w * (x >>> w &&& lowHalves w n) := by
  induction n generalizing x with
  | zero =>
    obtain rfl : x = 0 := by simpa using small
    simp
  | succ n ih =>
    have rest : x / 2 ^ (2 * w) < 2 ^ (2 * w * n) := by
      rw [Nat.div_lt_iff_lt_mul (Nat.two_pow_pos _),← pow_add]
      exact small.trans_eq (by ring_nf)
    have above := ih _ rest
    rw [and_lowHalves_succ,shift_and_lowHalves_succ]
    calc x = x % 2 ^ w + 2 ^ w * (x / 2 ^ w % 2 ^ w + 2 ^ w * (x / 2 ^ w / 2 ^ w)) := by rw [Nat.mod_add_div,Nat.mod_add_div]
      _ = x % 2 ^ w + 2 ^ w * (x / 2 ^ w % 2 ^ w + 2 ^ w * (x / 2 ^ (2 * w))) := by
        rw [Nat.div_div_eq_div_mul,← two_pow_double]
      _ = x % 2 ^ w + 2 ^ w * (x / 2 ^ w % 2 ^ w + 2 ^ w * ((x / 2 ^ (2 * w) &&& lowHalves w n) +
          2 ^ w * ((x / 2 ^ (2 * w)) >>> w &&& lowHalves w n))) := by rw [← above]
      _ = _ := by rw [two_pow_double]; ring

/-! ### Bits -/

/-- How many of the first `n` bits are one. -/
def ones (n x : Nat) : Nat := (List.range n).countP x.testBit

theorem ones_succ (n x : Nat) : ones (n + 1) x = x % 2 + ones n (x / 2) := by
  have shifted : x.testBit ∘ Nat.succ = (x / 2).testBit := by
    funext i
    exact Nat.testBit_succ x i
  rw [ones,List.range_succ_eq_map,List.countP_cons,List.countP_map,shifted,ones,Nat.testBit_zero]
  rcases Nat.mod_two_eq_zero_or_one x with even | odd
  · simp [even]
  · simp [odd,Nat.add_comm]

/-- The bits of a number are its fields of one bit. -/
theorem fieldSum_one (n x : Nat) : fieldSum 1 n x = ones n x := by
  induction n generalizing x with
  | zero => rfl
  | succ n ih => rw [fieldSum,ones_succ,ih,pow_one]

theorem bounded_one (small : x < 2 ^ n) : Bounded 1 1 n x := by
  induction n generalizing x with
  | zero => exact Nat.lt_one_iff.mp small
  | succ n ih => exact ⟨by omega,ih (by rw [pow_succ] at small; omega)⟩

theorem ones_eq_zero (small : x < 2 ^ n) : ones n x = 0 ↔ x = 0 := by
  induction n generalizing x with
  | zero => simpa [ones] using Nat.lt_one_iff.mp small
  | succ n ih =>
    have rest := ih (x := x / 2) (by rw [pow_succ] at small; omega)
    rw [ones_succ]
    omega

/-- Exactly one bit is one in the powers of two. -/
theorem ones_eq_one (small : x < 2 ^ n) : ones n x = 1 ↔ ∃ k, x = 2 ^ k := by
  induction n generalizing x with
  | zero =>
    obtain rfl : x = 0 := Nat.lt_one_iff.mp small
    exact ⟨fun one => by simp [ones] at one,fun ⟨k,power⟩ => absurd power (Nat.two_pow_pos k).ne⟩
  | succ n ih =>
    have half : x / 2 < 2 ^ n := by rw [pow_succ] at small; omega
    rw [ones_succ]
    rcases Nat.mod_two_eq_zero_or_one x with even | odd
    · rw [even,Nat.zero_add,ih half]
      constructor
      · rintro ⟨k,power⟩
        exact ⟨k + 1,by rw [pow_succ,← power]; omega⟩
      · rintro ⟨k,rfl⟩
        cases k with
        | zero => simp at even
        | succ k => exact ⟨k,by rw [pow_succ]; omega⟩
    · rw [odd]
      have none_ := ones_eq_zero half
      constructor
      · intro one
        exact ⟨0,by have := none_.mp (by omega); omega⟩
      · rintro ⟨k,rfl⟩
        cases k with
        | zero => rw [none_.mpr (by simp)]
        | succ k => rw [pow_succ] at odd; omega

end StegoDisk.Fields
