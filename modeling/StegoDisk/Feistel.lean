import Mathlib.Data.Set.Finite.Lattice
import Mathlib.Order.Interval.Finset.Nat
import Mathlib.Data.Nat.ModEq

/-!
Permutations of the numbers below a bound, and the ways of building them that
ciphers on small domains use: adding a constant modulo the bound, multiplying
by a unit, xor with a mask, and Feistel networks. A Feistel network splits a
number below `A * B` into halves below `A` and `B` and changes one half at a time by a
permutation that the other half selects; the two halves may differ in size.
-/
namespace StegoDisk.Feistel

/-- The function maps the numbers below `n` one-to-one onto themselves. -/
def Permutes (n : Nat) (f : Nat → Nat) : Prop := Set.BijOn f (Set.Iio n) (Set.Iio n)

theorem Permutes.lt {n : Nat} {f : Nat → Nat} (permutes : Permutes n f) {i : Nat} (inside : i < n) : f i < n :=
  permutes.mapsTo inside

theorem Permutes.inj {n : Nat} {f : Nat → Nat} (permutes : Permutes n f) {i j : Nat} (first : i < n)
    (second : j < n) (same : f i = f j) : i = j :=
  permutes.injOn first second same

theorem Permutes.onto {n : Nat} {f : Nat → Nat} (permutes : Permutes n f) {j : Nat} (inside : j < n) :
    ∃ i < n, f i = j := by
  obtain ⟨i,below,image⟩ := permutes.surjOn inside
  exact ⟨i,below,image⟩

/-- Below a bound, one-to-one is enough: there are as many images as numbers. -/
theorem permutes_of_inj {n : Nat} {f : Nat → Nat} (maps : ∀ i < n, f i < n)
    (inj : ∀ i < n, ∀ j < n, f i = f j → i = j) : Permutes n f := by
  have injOn : Set.InjOn f (Set.Iio n) := fun i first j second same => inj i first j second same
  exact ((Set.finite_Iio n).injOn_iff_bijOn_of_mapsTo maps).mp injOn

theorem permutes_id (n : Nat) : Permutes n (fun i => i) :=
  permutes_of_inj (fun _ inside => inside) (fun _ _ _ _ same => same)

/-- Adding a constant modulo `n`. -/
theorem permutes_add {n : Nat} (t : Nat) : Permutes n (fun i => (i + t) % n) := by
  refine permutes_of_inj (fun i inside => Nat.mod_lt _ (by omega)) ?_
  intro i first j second same
  have cancelled : i ≡ j [MOD n] := Nat.ModEq.add_right_cancel' t same
  exact cancelled.eq_of_lt_of_lt first second

/-- Multiplying by a number coprime to `n`, modulo `n`. -/
theorem permutes_mul {n a : Nat} (coprime : Nat.gcd a n = 1) : Permutes n (fun i => i * a % n) := by
  refine permutes_of_inj (fun i inside => Nat.mod_lt _ (by omega)) ?_
  intro i first j second same
  have cancelled : i ≡ j [MOD n] :=
    Nat.ModEq.cancel_right_of_coprime (by rwa [Nat.gcd_comm]) same
  exact cancelled.eq_of_lt_of_lt first second

/-- The affine permutation: a unit times the number, plus a constant. -/
theorem permutes_affine {n a : Nat} (b : Nat) (coprime : Nat.gcd a n = 1) :
    Permutes n (fun i => (i * a % n + b) % n) :=
  Set.BijOn.comp (permutes_add b) (permutes_mul coprime)

/-- Xor with a mask of the same width. -/
theorem permutes_xor {k mask : Nat} (narrow : mask < 2 ^ k) : Permutes (2 ^ k) (fun i => i ^^^ mask) := by
  refine permutes_of_inj (fun i inside => Nat.xor_lt_two_pow inside narrow) ?_
  intro i first j second same
  have cancelled := congrArg (· ^^^ mask) same
  simpa only [Nat.xor_assoc,Nat.xor_self,Nat.xor_zero] using cancelled

/-! ### Networks -/

/-- One round: the half it changes and how, given the other half. -/
structure Round where
  right : Bool
  mix : Nat → Nat → Nat

/-- The halves after a round. -/
def Round.apply (round : Round) (halves : Nat × Nat) : Nat × Nat :=
  if round.right then (halves.1,round.mix halves.1 halves.2) else (round.mix halves.2 halves.1,halves.2)

/-- Whatever the other half is, the round permutes the half it changes. -/
def Round.Sound (A B : Nat) (round : Round) : Prop :=
  if round.right then ∀ left < A, Permutes B (round.mix left) else ∀ right < B, Permutes A (round.mix right)

/-- The halves after all rounds. -/
def network (rounds : List Round) (halves : Nat × Nat) : Nat × Nat :=
  rounds.foldl (fun halves round => round.apply halves) halves

/-- The pairs of halves. -/
def Halves (A B : Nat) : Set (Nat × Nat) := {halves | halves.1 < A ∧ halves.2 < B}

theorem Round.bijOn {A B : Nat} {round : Round} (sound : round.Sound A B) :
    Set.BijOn round.apply (Halves A B) (Halves A B) := by
  unfold Round.Sound at sound
  by_cases right : round.right
  · simp only [right,if_true] at sound
    refine ⟨?_,?_,?_⟩
    · rintro ⟨l,r⟩ ⟨leftLt,rightLt⟩
      exact ⟨by simpa [Round.apply,right] using leftLt,
        by simpa [Round.apply,right] using (sound l leftLt).lt rightLt⟩
    · rintro ⟨l,r⟩ ⟨leftLt,rightLt⟩ ⟨l',r'⟩ ⟨leftLt',rightLt'⟩ same
      simp only [Round.apply,right,if_true,Prod.mk.injEq] at same
      obtain ⟨rfl,same⟩ := same
      exact Prod.ext rfl ((sound l leftLt).inj rightLt rightLt' same)
    · rintro ⟨l,r⟩ ⟨leftLt,rightLt⟩
      obtain ⟨before,beforeLt,image⟩ := (sound l leftLt).onto rightLt
      exact ⟨(l,before),⟨leftLt,beforeLt⟩,by simp [Round.apply,right,image]⟩
  · simp only [right,Bool.false_eq_true,if_false] at sound
    refine ⟨?_,?_,?_⟩
    · rintro ⟨l,r⟩ ⟨leftLt,rightLt⟩
      exact ⟨by simpa [Round.apply,right] using (sound r rightLt).lt leftLt,
        by simpa [Round.apply,right] using rightLt⟩
    · rintro ⟨l,r⟩ ⟨leftLt,rightLt⟩ ⟨l',r'⟩ ⟨leftLt',rightLt'⟩ same
      simp only [Round.apply,right,Bool.false_eq_true,if_false,Prod.mk.injEq] at same
      obtain ⟨same,rfl⟩ := same
      exact Prod.ext ((sound r rightLt).inj leftLt leftLt' same) rfl
    · rintro ⟨l,r⟩ ⟨leftLt,rightLt⟩
      obtain ⟨before,beforeLt,image⟩ := (sound r rightLt).onto leftLt
      exact ⟨(before,r),⟨beforeLt,rightLt⟩,by simp [Round.apply,right,image]⟩

theorem network_bijOn {A B : Nat} (rounds : List Round) (sound : ∀ round ∈ rounds, round.Sound A B) :
    Set.BijOn (network rounds) (Halves A B) (Halves A B) := by
  induction rounds with
  | nil => exact Set.bijOn_id _
  | cons round rest ih =>
    have tail := ih (fun other member => sound other (List.mem_cons_of_mem _ member))
    exact tail.comp (Round.bijOn (sound round List.mem_cons_self))

theorem network_halves {A B : Nat} {rounds : List Round} (sound : ∀ round ∈ rounds, round.Sound A B)
    {halves : Nat × Nat} (inside : halves ∈ Halves A B) : network rounds halves ∈ Halves A B :=
  (network_bijOn rounds sound).mapsTo inside

theorem split_bijOn {A B : Nat} (positive : 0 < B) :
    Set.BijOn (fun i => (i / B,i % B)) (Set.Iio (A * B)) (Halves A B) := by
  refine ⟨?_,?_,?_⟩
  · intro i inside
    exact ⟨(Nat.div_lt_iff_lt_mul positive).mpr inside,Nat.mod_lt i positive⟩
  · intro i _ j _ same
    simp only [Prod.mk.injEq] at same
    rw [← Nat.div_add_mod i B,← Nat.div_add_mod j B,same.1,same.2]
  · rintro ⟨l,r⟩ ⟨leftLt,rightLt⟩
    refine ⟨l * B + r,?_,?_⟩
    · calc l * B + r < l * B + B := Nat.add_lt_add_left rightLt _
        _ = (l + 1) * B := by rw [Nat.add_mul,Nat.one_mul]
        _ ≤ A * B := Nat.mul_le_mul_right _ leftLt
    · simp [Nat.mul_comm l B,Nat.mul_add_div positive,Nat.div_eq_of_lt rightLt,Nat.mod_eq_of_lt rightLt]

theorem join_bijOn {A B : Nat} (positive : 0 < B) :
    Set.BijOn (fun halves : Nat × Nat => halves.1 * B + halves.2) (Halves A B) (Set.Iio (A * B)) := by
  have back : Set.InvOn (fun i => (i / B,i % B)) (fun halves : Nat × Nat => halves.1 * B + halves.2)
      (Halves A B) (Set.Iio (A * B)) := by
    refine ⟨?_,fun i _ => by simp only [Nat.mul_comm _ B,Nat.div_add_mod]⟩
    rintro ⟨l,r⟩ ⟨_,rightLt⟩
    simp [Nat.mul_comm l B,Nat.mul_add_div positive,Nat.div_eq_of_lt rightLt,Nat.mod_eq_of_lt rightLt]
  exact Set.BijOn.symm back (split_bijOn positive)

/-- A network of sound rounds permutes the numbers below the product. -/
theorem permutes_network {A B : Nat} (positive : 0 < B) (rounds : List Round)
    (sound : ∀ round ∈ rounds, round.Sound A B) :
    Permutes (A * B) (fun i =>
      (network rounds (i / B,i % B)).1 * B + (network rounds (i / B,i % B)).2) :=
  (join_bijOn positive).comp ((network_bijOn rounds sound).comp (split_bijOn positive))

end StegoDisk.Feistel
