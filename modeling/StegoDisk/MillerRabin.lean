import Mathlib.FieldTheory.Finite.Basic
import StegoDisk.StegoMath

/-!
`StegoMath::MillerRabin` with the values of `rand()` as an argument. A prime is never rejected: in the squares of a base
1 comes after `p - 1` alone, and the last square is 1.
-/
namespace StegoDisk.StegoMath

/-- The value an unsigned integer of 128 bits keeps. -/
def word128 (n : Nat) : Nat := n % 2 ^ 128

/-- The loop of `Modulo`, in 128 bits. -/
def moduloLoop (c x y b : Nat) : Nat :=
  if b = 0 then x
  else moduloLoop c (if b % 2 = 1 then word128 (x * y) % c else x) (word128 (y * y) % c) (b / 2)
termination_by b

/-- `StegoMath::Modulo`. -/
def modulo (a b c : Nat) : Nat := moduloLoop c 1 a b % c

/-- The loop that halves `s` while it is even; it does not end at 0. -/
def oddPart (s : Nat) : Except Failure Nat :=
  if s = 0 then .error .endless
  else if s % 2 = 0 then oddPart (s / 2)
  else .ok s
termination_by s

/-- The loop over the squares of a base, watched for a number of rounds. -/
def squares (p : Nat) : Nat → Nat → Nat → Except Failure (Nat × Nat)
  | 0,_,_ => .error .endless
  | rounds+1,temp,mod =>
    if temp ≠ p - 1 ∧ mod ≠ 1 ∧ mod ≠ p - 1 then do
      let mod ← mulmod machine mod mod p
      squares p rounds (word64 (temp * 2)) mod
    else .ok (temp,mod)

/-- The test with one value of `rand()`. -/
def passes (p s r : Nat) : Except Failure Bool := do
  let a := r % (p - 1) + 1
  let last ← squares p 65 s (modulo a s p)
  .ok (!(last.2 != p - 1 && last.1 % 2 == 0))

/-- The tests one after another, up to the first that fails. -/
def trials (p s : Nat) : List Nat → Except Failure Bool
  | [] => .ok true
  | r::rest => do
    let passed ← passes p s r
    if passed then trials p s rest else .ok false

/-- `StegoMath::MillerRabin`; there are as many tests as witnesses in the table, whose values are not used. -/
def millerRabin (rand : Nat → Nat) (p : Nat) : Except Failure Bool :=
  if p < 2 then .ok false
  else if p ≠ 2 ∧ p % 2 = 0 then .ok false
  else do
    let s ← oddPart (p - 1)
    trials p s ((List.range 26).map rand)

/-! ### Powers -/

theorem word128_mul {x y : Nat} (xLt : x < 2 ^ 64) (yLt : y < 2 ^ 64) : word128 (x * y) = x * y := by
  refine Nat.mod_eq_of_lt ?_
  calc x * y < 2 ^ 64 * 2 ^ 64 := Nat.mul_lt_mul'' xLt yLt
    _ = 2 ^ 128 := by norm_num

/-- The loop keeps `x * y ^ b` modulo `c`. -/
theorem moduloLoop_mod {c : Nat} (positive : 0 < c) (small : c ≤ 2 ^ 64) (b : Nat) :
    ∀ {x y : Nat}, x < 2 ^ 64 → y < 2 ^ 64 → moduloLoop c x y b % c = x * y ^ b % c := by
  induction b using Nat.strong_induction_on with
  | _ b ih =>
    intro x y xLt yLt
    rw [moduloLoop]
    by_cases done : b = 0
    · simp [done]
    have halved : b / 2 < b := by omega
    have reduced (n : Nat) : n % c < 2 ^ 64 := (Nat.mod_lt n positive).trans_le small
    have square : (y * y % c) ^ (b / 2) ≡ y ^ (2 * (b / 2)) [MOD c] := by
      rw [pow_mul,pow_two]
      exact (Nat.mod_modEq _ _).pow _
    rw [if_neg done,word128_mul xLt yLt,word128_mul yLt yLt]
    by_cases odd : b % 2 = 1
    · rw [if_pos odd,ih _ halved (reduced _) (reduced _)]
      have parts : y * y ^ (2 * (b / 2)) = y ^ b := by
        rw [← pow_succ']
        congr 1
        omega
      calc x * y % c * (y * y % c) ^ (b / 2) % c = x * y * y ^ (2 * (b / 2)) % c := (Nat.mod_modEq _ _).mul square
        _ = x * y ^ b % c := by rw [mul_assoc,parts]
    · rw [if_neg odd,ih _ halved xLt (reduced _)]
      have parts : 2 * (b / 2) = b := by omega
      calc x * (y * y % c) ^ (b / 2) % c = x * y ^ (2 * (b / 2)) % c := (Nat.ModEq.refl x).mul square
        _ = x * y ^ b % c := by rw [parts]

/-- `Modulo` is the power modulo `c`. -/
theorem modulo_eq {a c : Nat} (aLt : a < c) (small : c ≤ 2 ^ 64) (b : Nat) : modulo a b c = a ^ b % c := by
  rw [modulo,moduloLoop_mod (by omega) small b (by norm_num) (by omega),Nat.one_mul]

/-- The odd part of a positive number, and the power of two that is left. -/
theorem oddPart_ok {s : Nat} (positive : 0 < s) : ∃ q j, oddPart s = .ok q ∧ q % 2 = 1 ∧ q * 2 ^ j = s := by
  induction s using Nat.strong_induction_on with
  | _ s ih =>
    rw [oddPart,if_neg (by omega)]
    by_cases even : s % 2 = 0
    · obtain ⟨q,j,ran,odd,product⟩ := ih (s / 2) (by omega) (by omega)
      refine ⟨q,j + 1,by rw [if_pos even,ran],odd,?_⟩
      rw [pow_succ,← mul_assoc,product]
      omega
    · exact ⟨s,0,by rw [if_neg even],by omega,by simp⟩

/-! ### Termination -/

/-- The machine's `Mulmod` always returns. -/
theorem mulmod_returns (a b m : Nat) : ∃ n, mulmod machine a b m = .ok n := by
  have loop : ∀ a res b, ∃ n, mulmodLoop machine m res a b = .ok n := by
    intro a
    induction a using Nat.strong_induction_on with
    | _ a ih =>
      intro res b
      rw [mulmodLoop]
      by_cases done : a = 0
      · exact ⟨res,by rw [if_pos done]⟩
      · have halved : a / 2 < a := by omega
        simp only [done,if_false,machine,ok_bind]
        split
        · exact ih _ halved _ _
        · exact ih _ halved _ _
  unfold mulmod
  split
  · exact ⟨_,rfl⟩
  · exact loop a 0 b

/-- `temp` doubles until it is `p - 1`. -/
theorem squares_returns {p : Nat} (small : p < 2 ^ 64) (j : Nat) :
    ∀ {rounds temp mod : Nat}, temp * 2 ^ j = p - 1 → j < rounds → ∃ last, squares p rounds temp mod = .ok last := by
  induction j with
  | zero =>
    intro rounds temp mod product more
    obtain ⟨n,rfl⟩ : ∃ n, rounds = n + 1 := ⟨rounds - 1,by omega⟩
    exact ⟨_,by rw [squares,if_neg (by omega)]⟩
  | succ j ih =>
    intro rounds temp mod product more
    obtain ⟨n,rfl⟩ : ∃ n, rounds = n + 1 := ⟨rounds - 1,by omega⟩
    have double : temp * 2 * 2 ^ j = p - 1 := by rw [← product,pow_succ']; ring
    have below : temp * 2 ≤ p - 1 := double ▸ Nat.le_mul_of_pos_right _ (Nat.two_pow_pos j)
    obtain ⟨mod',multiplied⟩ := mulmod_returns mod mod p
    rw [squares]
    split
    · rw [multiplied,ok_bind,word64_of_lt (by omega)]
      exact ih double (by omega)
    · exact ⟨_,rfl⟩

/-- A number of 64 bits is halved fewer than 65 times. -/
theorem rounds_lt {p q j : Nat} (small : p < 2 ^ 64) (odd : q % 2 = 1) (product : q * 2 ^ j = p - 1) : j < 65 := by
  have power : 2 ^ j ≤ p - 1 := product ▸ Nat.le_mul_of_pos_left _ (by omega)
  have below : 2 ^ j < 2 ^ 64 := power.trans_lt (by omega)
  exact ((Nat.pow_lt_pow_iff_right (by decide)).mp below).trans (by decide)

theorem passes_returns {p q j : Nat} (small : p < 2 ^ 64) (odd : q % 2 = 1) (product : q * 2 ^ j = p - 1) (r : Nat) :
    ∃ passed, passes p q r = .ok passed := by
  obtain ⟨last,ran⟩ : ∃ last, squares p 65 q (modulo (r % (p - 1) + 1) q p) = .ok last :=
    squares_returns small j product (rounds_lt small odd product)
  simp only [passes,ran,ok_bind]
  exact ⟨_,rfl⟩

theorem trials_returns {p q : Nat} (each : ∀ r, ∃ passed, passes p q r = .ok passed) (rs : List Nat) :
    ∃ answer, trials p q rs = .ok answer := by
  induction rs with
  | nil => exact ⟨_,rfl⟩
  | cons r rest ih =>
    obtain ⟨passed,ran⟩ := each r
    rw [trials,ran,ok_bind]
    split
    · exact ih
    · exact ⟨_,rfl⟩

theorem trials_all {p q : Nat} {rs : List Nat} (each : ∀ r ∈ rs, passes p q r = .ok true) : trials p q rs = .ok true := by
  induction rs with
  | nil => rfl
  | cons r rest ih =>
    rw [trials,each r List.mem_cons_self,ok_bind,if_pos rfl]
    exact ih fun other member => each other (List.mem_cons_of_mem _ member)

/-- The test returns for every number of 64 bits. -/
theorem millerRabin_returns (rand : Nat → Nat) {p : Nat} (small : p < 2 ^ 64) : ∃ answer, millerRabin rand p = .ok answer := by
  unfold millerRabin
  by_cases low : p < 2
  · exact ⟨false,by rw [if_pos low]⟩
  by_cases even : p ≠ 2 ∧ p % 2 = 0
  · exact ⟨false,by rw [if_neg low,if_pos even]⟩
  obtain ⟨q,j,ran,odd,product⟩ := oddPart_ok (s := p - 1) (by omega)
  rw [if_neg low,if_neg even,ran,ok_bind]
  exact trials_returns (passes_returns small odd product) _

/-! ### Primes -/

variable {p : Nat}

/-- 1 has two square roots modulo a prime. -/
theorem root_of_one (prime : p.Prime) {n : Nat} (below : n < p) (square : n * n % p = 1) : n = 1 ∨ n = p - 1 := by
  have two := prime.two_le
  have positive : 0 < n := Nat.pos_of_ne_zero fun none_ => by simp [none_] at square
  have divides : p ∣ (n - 1) * (n + 1) := by
    have product : n * n - 1 = (n - 1) * (n + 1) := by
      obtain ⟨k,rfl⟩ : ∃ k, n = k + 1 := ⟨n - 1,by omega⟩
      exact Nat.sub_eq_of_eq_add (by rw [Nat.add_sub_cancel]; ring)
    rw [← product]
    exact (Nat.modEq_iff_dvd' (Nat.mul_pos positive positive)).mp ((Nat.mod_eq_of_lt two).trans square.symm)
  rcases prime.dvd_mul.mp divides with lower | upper
  · left
    have := Nat.eq_zero_of_dvd_of_lt lower (by omega)
    omega
  · right
    have := Nat.le_of_dvd (by omega) upper
    omega

/-- For a prime the squares of a number whose power is 1 end at `p - 1`, or with the first of them. -/
theorem squares_prime (prime : p.Prime) (small : p ≤ 2 ^ 63) (j : Nat) :
    ∀ {rounds temp mod : Nat}, temp * 2 ^ j = p - 1 → j < rounds → mod < p → mod ^ 2 ^ j % p = 1 →
      (mod = 1 → temp % 2 = 1) →
      ∃ last, squares p rounds temp mod = .ok last ∧ (last.2 = p - 1 ∨ last.1 % 2 = 1) := by
  have two := prime.two_le
  induction j with
  | zero =>
    intro rounds temp mod product more below power first
    obtain ⟨n,rfl⟩ : ∃ n, rounds = n + 1 := ⟨rounds - 1,by omega⟩
    rw [pow_zero,pow_one,Nat.mod_eq_of_lt below] at power
    exact ⟨_,by rw [squares,if_neg (by omega)],.inr (first power)⟩
  | succ j ih =>
    intro rounds temp mod product more below power first
    obtain ⟨n,rfl⟩ : ∃ n, rounds = n + 1 := ⟨rounds - 1,by omega⟩
    rw [squares]
    by_cases one : mod = 1
    · exact ⟨_,by rw [if_neg (by omega)],.inr (first one)⟩
    by_cases last : mod = p - 1
    · exact ⟨_,by rw [if_neg (by omega)],.inl last⟩
    have double : temp * 2 * 2 ^ j = p - 1 := by rw [← product,pow_succ']; ring
    have less : temp * 2 ≤ p - 1 := double ▸ Nat.le_mul_of_pos_right _ (Nat.two_pow_pos j)
    by_cases all : temp = p - 1
    · omega
    rw [if_pos ⟨all,one,last⟩,mulmod_eq machine_exact small below,ok_bind,word64_of_lt (by omega)]
    refine ih double (by omega) (Nat.mod_lt _ (by omega)) ?_ fun next => ?_
    · rw [← Nat.pow_mod,← pow_two,← pow_mul,← pow_succ']
      exact power
    · rcases root_of_one prime below next with is | is
      · exact absurd is one
      · exact absurd is last

theorem passes_prime (prime : p.Prime) (small : p < 2 ^ 63) {q j : Nat} (odd : q % 2 = 1) (product : q * 2 ^ j = p - 1)
    (r : Nat) : passes p q r = .ok true := by
  have two := prime.two_le
  have base : r % (p - 1) + 1 < p := by
    have := Nat.mod_lt r (show 0 < p - 1 by omega)
    omega
  have coprime : (r % (p - 1) + 1).Coprime p :=
    (Nat.coprime_of_lt_prime (Nat.succ_ne_zero _) base prime).symm
  have fermat : (r % (p - 1) + 1) ^ (p - 1) % p = 1 := by
    have power := Nat.ModEq.pow_totient coprime
    rw [Nat.totient_prime prime] at power
    exact Eq.trans power (Nat.mod_eq_of_lt two)
  have power := modulo_eq base (by omega) q
  have below : modulo (r % (p - 1) + 1) q p < p := by
    rw [power]
    exact Nat.mod_lt _ (by omega)
  have last_ : modulo (r % (p - 1) + 1) q p ^ 2 ^ j % p = 1 := by rw [power,← Nat.pow_mod,← pow_mul,product,fermat]
  obtain ⟨last,ran,good⟩ := squares_prime prime small.le j product (rounds_lt (by omega) odd product) below last_ fun _ => odd
  simp only [passes,ran,ok_bind]
  rcases good with is | is
  · simp [is]
  · simp [is]

/-- No prime below half the range is rejected, whatever `rand()` gives. -/
theorem millerRabin_prime (rand : Nat → Nat) (prime : p.Prime) (small : p < 2 ^ 63) : millerRabin rand p = .ok true := by
  have two := prime.two_le
  have odd : ¬ (p ≠ 2 ∧ p % 2 = 0) := by
    rintro ⟨large,even⟩
    exact large ((prime.eq_two_or_odd).resolve_right (by omega))
  obtain ⟨q,j,ran,qOdd,product⟩ := oddPart_ok (s := p - 1) (by omega)
  rw [millerRabin,if_neg (by omega),if_neg odd,ran,ok_bind]
  exact trials_all fun r _ => passes_prime prime small qOdd product r

/-- With the base 1 every odd number is accepted. -/
theorem millerRabin_zero {n : Nat} (odd : n % 2 = 1) (large : 3 ≤ n) (small : n < 2 ^ 64) :
    millerRabin (fun _ => 0) n = .ok true := by
  obtain ⟨q,j,ran,qOdd,_⟩ := oddPart_ok (s := n - 1) (by omega)
  have base : modulo (0 % (n - 1) + 1) q n = 1 := by
    rw [Nat.zero_mod,Nat.zero_add,modulo_eq (by omega) small.le,one_pow,Nat.mod_eq_of_lt (by omega)]
  have passed : passes n q 0 = .ok true := by
    rw [passes,base,squares,if_neg (by omega),ok_bind]
    simp [qOdd]
  rw [millerRabin,if_neg (by omega),if_neg (by omega),ran,ok_bind]
  refine trials_all fun r member => ?_
  obtain ⟨_,_,rfl⟩ := List.mem_map.mp member
  exact passed

/-- The test returns for every number of 64 bits, and for the primes below half the range it answers yes. -/
theorem millerRabin_correct (rand : Nat → Nat) :
    (∀ p, p.Prime → p < 2 ^ 63 → millerRabin rand p = .ok true) ∧
      ∀ p < 2 ^ 64, ∃ answer, millerRabin rand p = .ok answer :=
  ⟨fun _ prime small => millerRabin_prime rand prime small,fun _ small => millerRabin_returns rand small⟩

end StegoDisk.StegoMath
