import Mathlib.Data.Nat.Log
import Mathlib.Data.Nat.Prime.Basic
import StegoDisk.Failures
import StegoDisk.SquareRoot

/-!
`utils/stego_math.cc`: greatest common divisors, the search for a prime, modular
multiplication and the bit counts. The primality test is a parameter of the
search: it draws its witnesses from `rand()`, so its answer may depend on how
many questions were asked before. `mulmod` takes the register its intermediate
results go through, the machine's or one that refuses a result of 65 bits.
-/
namespace StegoDisk.StegoMath
open SquareRoot

/-- `StegoMath::Gcd`: two division steps in each round of the loop. -/
def gcd (a b : Nat) : Nat :=
  if a % b = 0 then b
  else if b % (a % b) = 0 then a % b
  else gcd (a % b) (b % (a % b))
termination_by b
decreasing_by
  rcases Nat.eq_zero_or_pos b with rfl | positive
  · simp at *
  · exact (Nat.mod_lt _ (by omega)).trans (Nat.mod_lt a positive)

theorem gcd_eq (a b : Nat) : gcd a b = Nat.gcd a b := by
  fun_induction gcd a b with
  | case1 a b zero => rw [Nat.gcd_comm,Nat.gcd_rec,zero,Nat.gcd_zero_left]
  | case2 a b _ zero => rw [Nat.gcd_comm,Nat.gcd_rec,Nat.gcd_rec,zero,Nat.gcd_zero_left]
  | case3 a b _ _ ih => rw [ih,Nat.gcd_comm a b,Nat.gcd_rec b a,Nat.gcd_rec (a % b) b,Nat.gcd_comm]

/-- `StegoMath::Lcm`. -/
def lcm (a b : Nat) : Nat := a * b / gcd a b

theorem lcm_eq (a b : Nat) : lcm a b = Nat.lcm a b := by
  rw [lcm,gcd_eq]
  rfl

/-! ### The search for a prime -/

/-- The answers of `StegoMath::MillerRabin`: `test k n` is the answer to question
    number `k` when it asks about `n`. -/
abbrev PrimalityTest := Nat → Nat → Bool

/-- The loop of `ClosestSmallerPrime`, and the number of questions asked so far. -/
def descend (test : PrimalityTest) (asked : Nat) : Nat → Nat × Nat
  | n+3 => if test asked (n+3) then (n+3,asked+1) else descend test (asked+1) (n+1)
  | n => (n,asked+1)

/-- `StegoMath::ClosestSmallerPrime`. -/
def closestSmallerPrime (test : PrimalityTest) (asked number : Nat) : Nat × Nat :=
  if number < 2 then (0,asked)
  else
    let odd := if number % 2 = 0 then number - 1 else number
    let found := descend test asked odd
    if found.1 > 1 then found else (0,found.2)

theorem descend_le (test : PrimalityTest) (asked number : Nat) : (descend test asked number).1 ≤ number := by
  fun_induction descend test asked number with
  | case1 => exact le_rfl
  | case2 asked n _ ih => omega
  | case3 => exact le_rfl

theorem descend_odd (test : PrimalityTest) (asked number : Nat) (odd : number % 2 = 1) :
    (descend test asked number).1 % 2 = 1 := by
  fun_induction descend test asked number with
  | case1 => exact odd
  | case2 asked n _ ih => exact ih (by omega)
  | case3 => exact odd

/-- What the search returns is 0, or odd, at least 3 and at most the number. -/
theorem closestSmallerPrime_range (test : PrimalityTest) (asked number : Nat) :
    (closestSmallerPrime test asked number).1 = 0 ∨
      (3 ≤ (closestSmallerPrime test asked number).1 ∧ (closestSmallerPrime test asked number).1 ≤ number ∧
        (closestSmallerPrime test asked number).1 % 2 = 1) := by
  unfold closestSmallerPrime
  by_cases small : number < 2
  · simp [small]
  · have oddStart : (if number % 2 = 0 then number - 1 else number) % 2 = 1 := by split <;> omega
    have startLe : (if number % 2 = 0 then number - 1 else number) ≤ number := by split <;> omega
    have below := descend_le test asked (if number % 2 = 0 then number - 1 else number)
    have odd := descend_odd test asked _ oddStart
    simp only [small,if_false]
    generalize descend test asked (if number % 2 = 0 then number - 1 else number) = found at below odd
    by_cases big : found.1 > 1
    · right; simp only [big,if_true]; omega
    · left; simp only [big,if_false]

theorem descend_none (prime : Nat → Bool) (asked : Nat) {number : Nat} (odd : number % 2 = 1) :
    (descend (fun _ => prime) asked number).1 ≤ 1 ↔ ∀ n, 3 ≤ n → n ≤ number → n % 2 = 1 → prime n = false := by
  fun_induction descend (fun _ => prime) asked number with
  | case1 asked n accepted =>
    refine ⟨fun impossible => by omega,fun refused => ?_⟩
    simp [refused (n+3) (by omega) le_rfl odd] at accepted
  | case2 asked n refused ih =>
    rw [ih (by omega)]
    refine ⟨fun below m low high mOdd => ?_,fun all m low high => all m low (by omega)⟩
    rcases Nat.lt_or_ge (n+1) m with above | inside
    · have top : m = n+3 := by omega
      simpa [top] using refused
    · exact below m low inside mOdd
  | case3 asked n few =>
    have small : n < 3 := by
      by_contra large
      exact few (n-3) (by omega)
    exact ⟨fun _ m low high _ => by omega,fun _ => by omega⟩

theorem descend_accepted (prime : Nat → Bool) (asked number : Nat) :
    (descend (fun _ => prime) asked number).1 < 3 ∨ prime (descend (fun _ => prime) asked number).1 = true := by
  fun_induction descend (fun _ => prime) asked number with
  | case1 asked n accepted => exact .inr accepted
  | case2 asked n _ ih => exact ih
  | case3 asked n few =>
    left
    by_contra large
    exact few (n-3) (by dsimp only at large; omega)

/-- With a test that answers each number always alike, the search finds nothing exactly
    when the test accepts no odd number from 3 on. -/
theorem closestSmallerPrime_none (prime : Nat → Bool) (asked number : Nat) :
    (closestSmallerPrime (fun _ => prime) asked number).1 = 0 ↔
      ∀ n, 3 ≤ n → n ≤ number → n % 2 = 1 → prime n = false := by
  unfold closestSmallerPrime
  by_cases small : number < 2
  · simp only [small,if_true,true_iff]
    intro n low high
    omega
  · have odd : (if number % 2 = 0 then number - 1 else number) % 2 = 1 := by split <;> omega
    have same : ∀ n, n % 2 = 1 → (n ≤ number ↔ n ≤ if number % 2 = 0 then number - 1 else number) := by
      intro n nOdd
      split <;> omega
    have none := descend_none prime asked odd
    have below := descend_odd (fun _ => prime) asked _ odd
    simp only [small,if_false]
    generalize descend (fun _ => prime) asked (if number % 2 = 0 then number - 1 else number) = found at none below
    constructor
    · intro zero n low high nOdd
      refine none.mp ?_ n low ((same n nOdd).mp high) nOdd
      by_contra big
      rw [if_pos (by omega)] at zero
      omega
    · intro all
      have few := none.mpr fun n low high nOdd => all n low ((same n nOdd).mpr high) nOdd
      rw [if_neg (by omega)]

theorem closestSmallerPrime_accepted (prime : Nat → Bool) (asked number : Nat) :
    (closestSmallerPrime (fun _ => prime) asked number).1 = 0 ∨
      prime (closestSmallerPrime (fun _ => prime) asked number).1 = true := by
  have range := closestSmallerPrime_range (fun _ => prime) asked number
  unfold closestSmallerPrime at range ⊢
  by_cases small : number < 2
  · simp [small]
  · have accepted := descend_accepted prime asked (if number % 2 = 0 then number - 1 else number)
    simp only [small,if_false] at range ⊢
    generalize descend (fun _ => prime) asked (if number % 2 = 0 then number - 1 else number) = found at accepted range
    by_cases big : found.1 > 1
    · simp only [big,if_true] at range ⊢
      rcases accepted with few | accepted
      · omega
      · exact .inr accepted
    · simp [big]

/-! ### Modular multiplication -/

/-- The loop of `Mulmod`. -/
def mulmodLoop (store : Store) (m res a b : Nat) : Except Failure Nat :=
  if a = 0 then .ok res
  else do
    let res ← if a % 2 = 1 then do let sum ← store (res + b); .ok (sum % m) else .ok res
    let double ← store (b * 2)
    mulmodLoop store m res (a / 2) (double % m)
termination_by a

/-- `StegoMath::Mulmod`. -/
def mulmod (store : Store) (a b m : Nat) : Except Failure Nat :=
  if a < 0xFFFFFF ∧ b < 0xFFFFFF then do
    let product ← store (a * b)
    .ok (product % m)
  else mulmodLoop store m 0 a b

/-- Every sum and every double that the loop makes from `res` and `b` fits in 64 bits. -/
def Fits (m res a b : Nat) : Prop :=
  ∀ i, 2 ^ i ≤ a → (a.testBit i = true → (res + a % 2 ^ i * b) % m + 2 ^ i * b % m < 2 ^ 64) ∧ 2 ^ i * b % m * 2 < 2 ^ 64

/-- What fits in the loop is what fits in its first round and in the rest of it. -/
theorem fits_round {m res a b : Nat} (more : a ≠ 0) (resLt : res < m) (bLt : b < m) :
    Fits m res a b ↔ (a % 2 = 1 → res + b < 2 ^ 64) ∧ b * 2 < 2 ^ 64 ∧
      Fits m ((res + a % 2 * b) % m) (a / 2) (b * 2 % m) := by
  have next : ∀ i, (2 ^ (i + 1) ≤ a ↔ 2 ^ i ≤ a / 2) ∧ a.testBit (i + 1) = (a / 2).testBit i ∧
      (res + a % 2 ^ (i + 1) * b) % m = ((res + a % 2 * b) % m + a / 2 % 2 ^ i * (b * 2 % m)) % m ∧
      2 ^ (i + 1) * b % m = 2 ^ i * (b * 2 % m) % m := by
    intro i
    refine ⟨?_,Nat.testBit_succ a i,?_,?_⟩
    · rw [pow_succ,Nat.le_div_iff_mul_le (by decide)]
    · have low : a % 2 ^ (i + 1) = a % 2 + 2 * (a / 2 % 2 ^ i) := by rw [pow_succ',Nat.mod_mul]
      rw [low,show res + (a % 2 + 2 * (a / 2 % 2 ^ i)) * b = res + a % 2 * b + a / 2 % 2 ^ i * (b * 2) by ring]
      simp [Nat.add_mod,Nat.mul_mod]
    · rw [pow_succ,show 2 ^ i * 2 * b = 2 ^ i * (b * 2) by ring]
      simp [Nat.mul_mod]
  have zero : (res + a % 2 ^ 0 * b) % m = res ∧ 2 ^ 0 * b % m = b := by
    simp [Nat.mod_one,Nat.mod_eq_of_lt resLt,Nat.mod_eq_of_lt bLt]
  have bit : a.testBit 0 = true ↔ a % 2 = 1 := by simp
  constructor
  · intro fits
    have first := fits 0 (by omega)
    rw [zero.1,zero.2,bit] at first
    refine ⟨first.1,first.2,fun i inside => ?_⟩
    have later := fits (i + 1) ((next i).1.mpr inside)
    rwa [(next i).2.1,(next i).2.2.1,(next i).2.2.2] at later
  · rintro ⟨sum,double,rest⟩ i inside
    cases i with
    | zero =>
      rw [zero.1,zero.2,bit]
      exact ⟨sum,double⟩
    | succ i =>
      rw [(next i).2.1,(next i).2.2.1,(next i).2.2.2]
      exact rest i ((next i).1.mp inside)

/-- A loop in which everything fits keeps `res + a * b` modulo `m`. -/
theorem mulmodLoop_of_fits {store : Store} (exact : store.Exact) {m : Nat} (a : Nat) :
    ∀ {res b : Nat}, res < m → b < m → Fits m res a b → mulmodLoop store m res a b = .ok ((res + a * b) % m) := by
  induction a using Nat.strong_induction_on with
  | _ a ih =>
    intro res b resLt bLt fits
    have positive : 0 < m := by omega
    rw [mulmodLoop]
    by_cases done : a = 0
    · simp [done,Nat.mod_eq_of_lt resLt]
    · obtain ⟨sum,double,rest⟩ := (fits_round done resLt bLt).mp fits
      have halved : a / 2 < a := by omega
      have doubled : store (b * 2) = .ok (b * 2) := exact _ double
      have parts : a = 2 * (a / 2) + a % 2 := (Nat.div_add_mod a 2).symm
      have whole : res + a * b = res + a % 2 * b + a / 2 * (b * 2) := by
        conv_lhs => rw [parts]
        ring
      have tail := ih (a / 2) halved (Nat.mod_lt _ positive) (Nat.mod_lt _ positive) rest
      have value : ((res + a % 2 * b) % m + a / 2 * (b * 2 % m)) % m = (res + a * b) % m := by
        rw [whole]
        simp [Nat.add_mod,Nat.mul_mod]
      rw [value] at tail
      by_cases odd : a % 2 = 1
      · have added : store (res + b) = .ok (res + b) := exact _ (sum odd)
        rw [odd,Nat.one_mul] at tail
        simp only [done,odd,if_true,if_false,added,doubled,ok_bind,tail]
      · have even : a % 2 = 0 := by omega
        rw [even,Nat.zero_mul,Nat.add_zero,Nat.mod_eq_of_lt resLt] at tail
        simp only [done,odd,if_false,doubled,ok_bind,tail]

/-- Nothing wraps below half the range. -/
theorem fits_of_le {m : Nat} (half : m ≤ 2 ^ 63) (positive : 0 < m) (res a b : Nat) : Fits m res a b := by
  intro i _
  have first := Nat.mod_lt (res + a % 2 ^ i * b) positive
  have second := Nat.mod_lt (2 ^ i * b) positive
  exact ⟨fun _ => by omega,by omega⟩

theorem mulmodLoop_eq {store : Store} (exact : store.Exact) {m : Nat} (fits : m ≤ 2 ^ 63) (a : Nat) :
    ∀ {res b : Nat}, res < m → b < m → mulmodLoop store m res a b = .ok ((res + a * b) % m) :=
  fun resLt bLt => mulmodLoop_of_fits exact a resLt bLt (fits_of_le fits (by omega) _ _ _)

/-- For moduli up to `2 ^ 63`, `Mulmod` is multiplication modulo `m`. -/
theorem mulmod_eq {store : Store} (exact : store.Exact) {a b m : Nat} (fits : m ≤ 2 ^ 63) (bLt : b < m) :
    mulmod store a b m = .ok (a * b % m) := by
  unfold mulmod
  by_cases small : a < 0xFFFFFF ∧ b < 0xFFFFFF
  · have product : a * b < 2 ^ 64 := by
      have := Nat.mul_le_mul small.1.le small.2.le
      omega
    simp [small,exact _ product]
  · simp only [small,if_false]
    rw [mulmodLoop_eq exact fits a (by omega) bLt,Nat.zero_add]

/-! ### Bit counts -/

/-- The loop of `Log2` over leading zeros, from bit `bit` down. -/
def leadingZeros (number : Nat) : Nat → Nat
  | 0 => 63
  | bit+1 => if number / 2 ^ (bit+1) % 2 = 0 then leadingZeros number bit else 63 - (bit+1)

/-- `StegoMath::Log2`: the length of the binary representation. -/
def log2 (number : Nat) : Nat := if number = 0 then 0 else 64 - leadingZeros number 63

private theorem leadingZeros_eq {number : Nat} (positive : 0 < number) (bit : Nat) (inRange : bit ≤ 63)
    (bound : number < 2 ^ (bit + 1)) : leadingZeros number bit = 63 - number.log2 := by
  induction bit with
  | zero =>
    have one : number = 1 := by omega
    subst one; decide
  | succ bit ih =>
    rw [leadingZeros]
    by_cases clear : number < 2 ^ (bit + 1)
    · rw [if_pos (by rw [Nat.div_eq_of_lt clear]),ih (by omega) clear]
    · have top : number.log2 = bit + 1 := (Nat.log2_eq_iff (by omega)).mpr ⟨by omega,bound⟩
      have one : number / 2 ^ (bit + 1) = 1 := by
        have upper : number / 2 ^ (bit + 1) < 2 := by
          rw [Nat.div_lt_iff_lt_mul (Nat.pow_pos (by decide)),← Nat.pow_succ']; exact bound
        have lower : 1 ≤ number / 2 ^ (bit + 1) := (Nat.one_le_div_iff (Nat.pow_pos (by decide))).mpr (by omega)
        omega
      rw [one,top]; rfl

theorem log2_eq {number : Nat} (positive : 0 < number) (small : number < 2 ^ 64) :
    log2 number = number.log2 + 1 := by
  have top : number.log2 < 64 := (Nat.log2_lt (by omega)).mpr small
  rw [log2,if_neg (by omega),leadingZeros_eq positive 63 le_rfl small]
  omega

/-- `StegoMath::Popcount`. -/
def popcount (x : UInt64) : UInt8 :=
  let mask1 : UInt64 := 0x5555555555555555
  let mask2 : UInt64 := 0x3333333333333333
  let mask4 : UInt64 := 0x0f0f0f0f0f0f0f0f
  let mask7 : UInt64 := 0x7f
  let pairs : UInt64 := x - ((x >>> 1) &&& mask1)
  let nibbles : UInt64 := (pairs &&& mask2) + ((pairs >>> 2) &&& mask2)
  let bytes : UInt64 := (nibbles + (nibbles >>> 4)) &&& mask4
  let sum2 : UInt64 := bytes + (bytes >>> 8)
  let sum4 : UInt64 := sum2 + (sum2 >>> 16)
  let sum8 : UInt64 := sum4 + (sum4 >>> 32)
  (sum8 &&& mask7).toUInt8

/-- `static_cast<uint32>(sqrt(static_cast<double>(number)))`; where the root does not
    fit, the compiled conversion keeps its low 32 bits. -/
def sqrt32 (number : Nat) : Nat := word32 (doubleSqrt number)

theorem sqrt32_eq {number : Nat} (small : number < 2 ^ 52) : sqrt32 number = number.sqrt := by
  have fits : number.sqrt < 2 ^ 32 := Nat.sqrt_lt.mpr (by omega)
  rw [sqrt32,doubleSqrt_eq_sqrt small,word32_of_lt fits]

theorem sqrt32_top {number : Nat} (large : 2 ^ 64 - 1024 ≤ number) (small : number < 2 ^ 64) : sqrt32 number = 0 := by
  rw [sqrt32,doubleSqrt_top large small]
  rfl

theorem sqrt32_pos {number : Nat} (positive : 0 < number) (small : number < 2 ^ 64 - 1024) : 0 < sqrt32 number := by
  rw [sqrt32,word32_of_lt (doubleSqrt_lt small)]
  exact doubleSqrt_pos positive

end StegoDisk.StegoMath
