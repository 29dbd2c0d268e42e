import StegoDisk.StegoMath

/-!
`StegoMath::Mulmod` for every modulus of 64 bits. The loop is exact where its sums and doubles fit in
the register, and for moduli above half the range some of them do not.
-/
namespace StegoDisk.StegoMath

/-- A loop that returns where a result of 65 bits is refused makes none. -/
theorem fits_of_returns {m : Nat} (a : Nat) :
    ∀ {res b n : Nat}, res < m → b < m → mulmodLoop checked m res a b = .ok n → Fits m res a b := by
  induction a using Nat.strong_induction_on with
  | _ a ih =>
    intro res b n resLt bLt returns
    have positive : 0 < m := by omega
    by_cases done : a = 0
    · intro i inside
      exact absurd (Nat.two_pow_pos i) (by omega)
    rw [mulmodLoop,if_neg done] at returns
    have halved : a / 2 < a := by omega
    rw [fits_round done resLt bLt]
    by_cases odd : a % 2 = 1
    · simp only [odd,if_true] at returns
      obtain ⟨sum,added,returns⟩ := bind_eq_ok.mp returns
      rw [ok_bind] at returns
      obtain ⟨double,doubled,returns⟩ := bind_eq_ok.mp returns
      obtain ⟨room,rfl⟩ := checked_eq_ok.mp added
      obtain ⟨small,rfl⟩ := checked_eq_ok.mp doubled
      rw [odd,Nat.one_mul]
      exact ⟨fun _ => room,small,ih _ halved (Nat.mod_lt _ positive) (Nat.mod_lt _ positive) returns⟩
    · simp only [odd,if_false,ok_bind] at returns
      obtain ⟨double,doubled,returns⟩ := bind_eq_ok.mp returns
      obtain ⟨small,rfl⟩ := checked_eq_ok.mp doubled
      rw [show a % 2 = 0 by omega,Nat.zero_mul,Nat.add_zero,Nat.mod_eq_of_lt resLt]
      exact ⟨fun one => absurd one (by decide),small,ih _ halved resLt (Nat.mod_lt _ positive) returns⟩

/-- `Mulmod` gives the product modulo `m`, and none of its results needs more than 64 bits. -/
def Multiplies (a b m : Nat) : Prop :=
  mulmod machine a b m = .ok (a * b % m) ∧ ∃ n, mulmod checked a b m = .ok n

theorem mulmod_of_small {store : Store} (exact : store.Exact) {a b m : Nat} (small : a < 0xFFFFFF ∧ b < 0xFFFFFF) :
    mulmod store a b m = .ok (a * b % m) := by
  have product : a * b < 2 ^ 64 := by
    have := Nat.mul_le_mul small.1.le small.2.le
    omega
  simp only [mulmod,small,and_self,if_true,exact _ product,ok_bind]

theorem multiplies_iff {a b m : Nat} (bLt : b < m) :
    Multiplies a b m ↔ (a < 0xFFFFFF ∧ b < 0xFFFFFF) ∨ Fits m 0 a b := by
  constructor
  · rintro ⟨_,n,returns⟩
    by_cases small : a < 0xFFFFFF ∧ b < 0xFFFFFF
    · exact .inl small
    · rw [mulmod,if_neg small] at returns
      exact .inr (fits_of_returns a (by omega) bLt returns)
  · rintro (small | fits)
    · exact ⟨mulmod_of_small machine_exact small,_,mulmod_of_small checked_exact small⟩
    · by_cases small : a < 0xFFFFFF ∧ b < 0xFFFFFF
      · exact ⟨mulmod_of_small machine_exact small,_,mulmod_of_small checked_exact small⟩
      · refine ⟨?_,(0 + a * b) % m,?_⟩
        · rw [mulmod,if_neg small,mulmodLoop_of_fits machine_exact a (by omega) bLt fits,Nat.zero_add]
        · rw [mulmod,if_neg small,mulmodLoop_of_fits checked_exact a (by omega) bLt fits]

/-- The product of two numbers below the modulus is exact if and only if they are small or everything in the loop
    fits; all products of a modulus are exact if it is at most half the range. -/
theorem mulmod_exact_iff (m : Nat) :
    (∀ a b, a < m → b < m → (Multiplies a b m ↔ (a < 0xFFFFFF ∧ b < 0xFFFFFF) ∨ Fits m 0 a b)) ∧
      ((∀ a b, a < m → b < m → Multiplies a b m) ↔ m ≤ 2 ^ 63) := by
  refine ⟨fun a b _ bLt => multiplies_iff bLt,?_⟩
  constructor
  · intro all
    by_contra large
    -- the largest number below the modulus is doubled to 65 bits in the first round
    rcases (multiplies_iff (by omega)).mp (all (m - 1) (m - 1) (by omega) (by omega)) with small | fits
    · omega
    · have first := (fits 0 (by omega)).2
      rw [pow_zero,Nat.one_mul,Nat.mod_eq_of_lt (by omega)] at first
      omega
  · intro half a b _ bLt
    exact (multiplies_iff bLt).mpr (.inr (fits_of_le half (by omega) 0 a b))

/-- With the largest modulus, 2 times the largest number below it is one too small. -/
theorem not_multiplies_two : mulmod machine 2 (2 ^ 64 - 2) (2 ^ 64 - 1) = .ok (2 ^ 64 - 4) ∧
    2 * (2 ^ 64 - 2) % (2 ^ 64 - 1) = 2 ^ 64 - 3 ∧ ¬ Multiplies 2 (2 ^ 64 - 2) (2 ^ 64 - 1) := by
  have product : mulmod machine 2 (2 ^ 64 - 2) (2 ^ 64 - 1) = .ok (2 ^ 64 - 4) := by
    simp [mulmod,mulmodLoop,machine,word64]
  refine ⟨product,by decide,?_⟩
  rintro ⟨exact_,-⟩
  rw [product] at exact_
  exact absurd (Except.ok.inj exact_) (by decide)

end StegoDisk.StegoMath
