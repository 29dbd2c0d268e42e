import Mathlib.Order.Bounds.Basic
import StegoDisk.StegoMath

/-!
`StegoMath::ClosestSmallerPrime` with a test that is exact. The search asks about odd numbers only, so that it never
finds 2.
-/
namespace StegoDisk
namespace StegoMath

variable {test : PrimalityTest} {asked number : Nat}

/-- The search over odd numbers ends at the greatest prime, or below the first odd prime. -/
theorem descend_greatest (exact_ : ∀ k, ∀ n ≤ number, test k n = true ↔ n.Prime) (odd : number % 2 = 1) :
    ((descend test asked number).1 = 1 ∧ ∀ p ≤ number, p.Prime → p = 2) ∨
      3 ≤ (descend test asked number).1 ∧ IsGreatest {p | p.Prime ∧ p ≤ number} (descend test asked number).1 := by
  fun_induction descend test asked number with
  | case1 asked n accepted =>
    exact .inr ⟨by omega,⟨(exact_ asked _ le_rfl).mp accepted,le_rfl⟩,fun p member => member.2⟩
  | case2 asked n refused ih =>
    have notPrime : ¬ (n + 3).Prime := fun prime => refused ((exact_ asked _ le_rfl).mpr prime)
    -- the number below is even
    have other (p : Nat) (prime : p.Prime) (below : p ≤ n + 3) : p = 2 ∨ p ≤ n + 1 := by
      rcases prime.eq_two_or_odd with two | oddPrime
      · exact .inl two
      · have not_ : p ≠ n + 3 := fun same => notPrime (same ▸ prime)
        exact .inr (by omega)
    rcases ih (fun k m below => exact_ k m (by omega)) (by omega) with ⟨one,none_⟩ | ⟨large,⟨prime,below⟩,greatest⟩
    · refine .inl ⟨one,fun p below prime => ?_⟩
      rcases other p prime below with two | lower
      · exact two
      · exact none_ p lower prime
    · refine .inr ⟨large,⟨prime,by omega⟩,fun p member => ?_⟩
      rcases other p member.1 member.2 with two | lower
      · omega
      · exact greatest ⟨member.1,lower⟩
  | case3 asked n few =>
    have small : n < 3 := by
      by_contra large
      exact few (n - 3) (by omega)
    refine .inl ⟨by dsimp only; omega,fun p below prime => ?_⟩
    have := prime.two_le
    omega

/-- What is the greatest prime up to a number, or 0 where there is none. -/
def Closest (number found : Nat) : Prop :=
  IsGreatest {p | p.Prime ∧ p ≤ number} found ∨ found = 0 ∧ ∀ p ≤ number, ¬ p.Prime

/-- With a test that is exact, the search gives the greatest prime up to the number for every number but 2. -/
theorem closestSmallerPrime_iff (test : PrimalityTest) (asked number : Nat)
    (exact_ : ∀ k, ∀ n ≤ number, test k n = true ↔ n.Prime) :
    Closest number (closestSmallerPrime test asked number).1 ↔ number ≠ 2 := by
  rcases Nat.lt_trichotomy number 2 with small | rfl | large
  · rw [closestSmallerPrime,if_pos small]
    refine ⟨fun _ => by omega,fun _ => .inr ⟨rfl,fun p below prime => ?_⟩⟩
    have := prime.two_le
    omega
  · have zero : (closestSmallerPrime test asked 2).1 = 0 := rfl
    rw [zero]
    refine ⟨?_,fun other => absurd rfl other⟩
    rintro (⟨⟨prime,_⟩,_⟩ | ⟨_,none_⟩)
    · exact absurd prime Nat.not_prime_zero
    · exact absurd Nat.prime_two (none_ 2 le_rfl)
  · obtain ⟨start,begins,odd,low,high⟩ : ∃ start, (if number % 2 = 0 then number - 1 else number) = start ∧ start % 2 = 1 ∧
        number ≤ start + 1 ∧ start ≤ number := ⟨_,rfl,by split <;> omega,by split <;> omega,by split <;> omega⟩
    have search := @descend_greatest test asked start (fun k n below => exact_ k n (by omega)) odd
    have three : ¬ ∀ p ≤ start, p.Prime → p = 2 := fun all => absurd (all 3 (by omega) Nat.prime_three) (by decide)
    obtain ⟨atLeast,⟨prime,below⟩,greatest⟩ := search.resolve_left fun none_ => three none_.2
    refine ⟨fun _ => by omega,fun _ => .inl ?_⟩
    simp only [closestSmallerPrime,begins]
    rw [if_neg (by omega),if_pos (by omega)]
    refine ⟨⟨prime,by omega⟩,fun p member => ?_⟩
    rcases member.1.eq_two_or_odd with two | oddPrime
    · omega
    · have upTo := member.2
      exact greatest ⟨member.1,by omega⟩

theorem closestSmallerPrime_iff_ten :
    Closest 10 (closestSmallerPrime (fun _ n => decide n.Prime) 0 10).1 :=
  (closestSmallerPrime_iff (fun _ n => decide n.Prime) 0 10 fun _ _ _ => decide_eq_true_iff).mpr (by decide)

/-- The prime 2 is not found. -/
theorem not_closest_two : (closestSmallerPrime (fun _ n => decide n.Prime) 0 2).1 = 0 ∧ Nat.Prime 2 ∧
    ¬ Closest 2 (closestSmallerPrime (fun _ n => decide n.Prime) 0 2).1 := by
  have zero : (closestSmallerPrime (fun _ n => decide n.Prime) 0 2).1 = 0 := rfl
  refine ⟨zero,Nat.prime_two,?_⟩
  rw [zero]
  rintro (⟨⟨prime,_⟩,_⟩ | ⟨_,none_⟩)
  · exact absurd prime Nat.not_prime_zero
  · exact absurd Nat.prime_two (none_ 2 le_rfl)

end StegoMath
end StegoDisk
