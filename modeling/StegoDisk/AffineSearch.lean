import Mathlib.Order.OrderIsoNat
import StegoDisk.MillerRabin
import StegoDisk.PermutationSizes

/-!
The search of `AffinePermutation::GetSizeUsingParams` for a size and parameters. Where a number shares a factor with its
multiplier, the search asks for the closest prime again, from the number itself: it ends unless it is caught at a number
that is accepted every time from then on.
-/
namespace StegoDisk

/-- The answers of `MillerRabin` when question number `k` draws the values `rand k`. -/
def StegoMath.drawn (rand : Nat → Nat → Nat) : PrimalityTest := fun k n =>
  match millerRabin (rand k) n with
  | .ok answer => answer
  | .error _ => false

namespace AffinePermutation
open StegoMath

/-! ### Divisions -/

/-- A remainder whose divisor is checked. -/
def remainder (n divisor : Nat) : Except Failure Nat :=
  if divisor = 0 then .error .undefined else .ok (n % divisor)

/-- `Gcd` with its divisors checked. -/
def gcdChecked (a b : Nat) : Except Failure Nat :=
  if b = 0 then .error .undefined
  else if a % b = 0 then .ok b
  else if b % (a % b) = 0 then .ok (a % b)
  else gcdChecked (a % b) (b % (a % b))
termination_by b
decreasing_by exact (Nat.mod_lt _ (by omega)).trans (Nat.mod_lt a (by omega))

/-- The loop of `GetSizeUsingParams(requested_size, key, overwrite_members)` with its divisors checked. -/
def searchChecked (env : Environment) (key : List UInt8) : Nat → Nat → Nat → Except Failure (Option AffineParams)
  | 0,_,_ => .error .endless
  | rounds+1,asked,number => do
    let found := closestSmallerPrime env.millerRabin asked number
    let prime := found.1
    if prime < 1 then .ok none
    else if key.length < 8 then
      .error (.thrown (.invalidArgument "AffinePermutation: key must be longer than 8 bytes"))
    else if key.length % 16 ≠ 0 then
      .error (.thrown (.invalidArgument "AffinePermutation: wrong key length! should be nonzero multiple of 16"))
    else
      let a ← remainder (xorWords key 0 (key.length / 2)) (prime / 2)
      let b ← remainder (xorWords key (key.length / 2) key.length) (prime / 2)
      let a ← machine (a + prime / 2)
      let b ← machine (b + prime / 2)
      let divisor ← gcdChecked a prime
      if divisor = 1 then .ok (some ⟨prime,a,b⟩) else searchChecked env key rounds found.2 prime

/-- `GetSizeUsingParams(requested_size, key, overwrite_members)` with its divisors checked. -/
def paramsChecked (env : Environment) (requestedSize : Nat) (key : List UInt8) : Except Failure (Option AffineParams) :=
  if key.length = 0 then .error (.thrown (.emptyArgument "key"))
  else searchChecked env key (env.watched + 1) 0 requestedSize

theorem gcdChecked_eq {a b : Nat} (positive : b ≠ 0) : gcdChecked a b = .ok (StegoMath.gcd a b) := by
  fun_induction gcdChecked a b with
  | case1 => exact absurd rfl positive
  | case2 a b _ zero => rw [StegoMath.gcd,if_pos zero]
  | case3 a b _ more zero => rw [StegoMath.gcd,if_neg more,if_pos zero]
  | case4 a b _ more more' ih => rw [StegoMath.gcd,if_neg more,if_neg more',ih more']

/-- No divisor of the search is 0. -/
theorem searchChecked_eq (env : Environment) (key : List UInt8) (rounds asked number : Nat) (small : number < 2 ^ 64) :
    searchChecked env key rounds asked number = search machine env key rounds asked number := by
  induction rounds generalizing asked number with
  | zero => rfl
  | succ rounds ih =>
    have range := closestSmallerPrime_range env.millerRabin asked number
    simp only [searchChecked,search]
    generalize closestSmallerPrime env.millerRabin asked number = found at range
    by_cases none_ : found.1 < 1
    · rw [if_pos none_,if_pos none_]
    have half : found.1 / 2 ≠ 0 := by omega
    have whole : found.1 ≠ 0 := by omega
    simp only [remainder,half,if_false,ok_bind,machine,gcdChecked_eq whole]
    rw [ih _ _ (by omega)]

theorem paramsChecked_eq (env : Environment) {requestedSize : Nat} (small : requestedSize < 2 ^ 64) (key : List UInt8) :
    paramsChecked env requestedSize key = params machine env requestedSize key := by
  rw [paramsChecked,params,searchChecked_eq env key _ _ _ small]

/-! ### Questions -/

variable {test : PrimalityTest} {key : List UInt8} {size : Nat}

/-- The multiplier that is made from the key for a number. -/
def multiplier (key : List UInt8) (n : Nat) : Nat := xorWords key 0 (key.length / 2) % (n / 2) + n / 2

/-- The number that question `k` is about, where no answer before it ends the search. -/
def candidate (test : PrimalityTest) (size : Nat) : Nat → Nat
  | 0 => if size % 2 = 0 then size - 1 else size
  | k+1 => if test k (candidate test size k) then candidate test size k else candidate test size k - 2

/-- The search ends with question `k`: there is nothing to ask about, or what is accepted has no factor in common with
    its multiplier. -/
def Stops (test : PrimalityTest) (key : List UInt8) (size k : Nat) : Prop :=
  candidate test size k < 3 ∨
    test k (candidate test size k) = true ∧
      (multiplier key (candidate test size k)).gcd (candidate test size k) = 1

/-- The search comes to a number that has a factor in common with its multiplier and is accepted every time from then
    on. -/
def Caught (test : PrimalityTest) (key : List UInt8) (size : Nat) : Prop :=
  ∃ k, 3 ≤ candidate test size k ∧ (∀ j, k ≤ j → test j (candidate test size k) = true) ∧
    ∀ j ≤ k, test j (candidate test size j) = true →
      (multiplier key (candidate test size j)).gcd (candidate test size j) ≠ 1

theorem candidate_parity (test : PrimalityTest) (size k : Nat) : candidate test size k % 2 = 1 ∨ candidate test size k = 0 := by
  induction k with
  | zero => rw [candidate]; split <;> omega
  | succ k ih => rw [candidate]; split <;> omega

theorem candidate_antitone (test : PrimalityTest) (size : Nat) : Antitone (candidate test size) := by
  refine antitone_nat_of_succ_le fun k => ?_
  rw [candidate]
  split <;> omega

theorem candidate_kept {k : Nat} (accepted : test k (candidate test size k) = true) :
    candidate test size (k + 1) = candidate test size k := by
  rw [candidate,if_pos accepted]

/-- A number that is accepted every time stays. -/
theorem candidate_stays {k : Nat} (accepted : ∀ j, k ≤ j → test j (candidate test size k) = true) {j : Nat} (later : k ≤ j) :
    candidate test size j = candidate test size k := by
  induction j, later using Nat.le_induction with
  | base => rfl
  | succ j later ih => rw [candidate,ih,if_pos (accepted j later)]

/-- The search is caught exactly when no question ends it. -/
theorem caught_iff : Caught test key size ↔ ∀ k, ¬ Stops test key size k := by
  constructor
  · rintro ⟨k,large,accepted,shared⟩ j stops
    rcases Nat.le_total j k with before | after
    · have above := candidate_antitone test size before
      rcases stops with small | ⟨yes,coprime⟩
      · omega
      · exact shared j before yes coprime
    · have same := candidate_stays accepted after
      rcases stops with small | ⟨_,coprime⟩
      · omega
      · rw [same] at coprime
        exact shared k le_rfl (accepted k le_rfl) coprime
  · intro endless
    -- numbers that go down stay at one of them
    obtain ⟨k,constant⟩ := WellFoundedLT.antitone_chain_condition (candidate_antitone test size)
    have large (j : Nat) : 3 ≤ candidate test size j := Nat.le_of_not_lt fun small => endless j (.inl small)
    refine ⟨k,large k,fun j later => ?_,fun j _ yes coprime => endless j (.inr ⟨yes,coprime⟩)⟩
    by_contra refused
    have next := constant (j + 1) (by omega)
    rw [candidate,← constant j later,if_neg (by rwa [constant j later] at refused ⊢)] at next
    have := large k
    omega

/-- One search for a prime, from the number of its first question: it ends at the first number that is accepted. -/
theorem descend_candidate (test : PrimalityTest) (size k : Nat) :
    ∃ i, descend test k (candidate test size k) = (candidate test size (k + i),k + i + 1) ∧
      (∀ j, k ≤ j → j < k + i → 3 ≤ candidate test size j ∧ test j (candidate test size j) = false) ∧
      (candidate test size (k + i) < 3 ∨ test (k + i) (candidate test size (k + i)) = true) := by
  induction number : candidate test size k using Nat.strong_induction_on generalizing k with
  | _ n ih =>
    rcases Nat.lt_or_ge n 3 with small | large
    · refine ⟨0,?_,fun j from_ to_ => absurd to_ (by omega),.inl (by rwa [Nat.add_zero,number])⟩
      show descend test k n = (candidate test size k,k + 1)
      rw [number]
      match n,small with
      | 0,_ => rfl
      | 1,_ => rfl
      | 2,_ => rfl
    · obtain ⟨m,rfl⟩ : ∃ m, n = m + 3 := ⟨n - 3,by omega⟩
      rcases answer : test k (m + 3) with _ | _
      · have next : candidate test size (k + 1) = m + 1 := by rw [candidate,number,answer]; rfl
        obtain ⟨i,ran,refused,last⟩ := ih (m + 1) (by omega) (k + 1) next
        rw [Nat.add_right_comm k 1 i] at ran refused last
        refine ⟨i + 1,?_,fun j from_ to_ => ?_,last⟩
        · rw [descend,answer,if_neg (by decide)]
          exact ran
        · rcases Nat.eq_or_lt_of_le from_ with rfl | later
          · exact ⟨by omega,by rw [number,answer]⟩
          · exact refused j later to_
      · refine ⟨0,?_,fun j from_ to_ => absurd to_ (by omega),.inr (by rw [Nat.add_zero,number,answer])⟩
        show descend test k (m + 3) = (candidate test size k,k + 1)
        rw [number,descend,answer,if_pos rfl]

/-! ### Rounds -/

variable {env : Environment}

/-- A round of the search begins with question `k`. -/
def Begins (test : PrimalityTest) (size k number : Nat) : Prop :=
  2 ≤ number ∧ number < 2 ^ 64 ∧ (if number % 2 = 0 then number - 1 else number) = candidate test size k

/-- A round asks until a number is accepted, or there is nothing to ask about, and returns or begins again with this
    number. -/
theorem search_round {k number : Nat} (wide : key.length = 32) (begins : Begins env.millerRabin size k number) (rounds : Nat) :
    ∃ i, (∀ j, k ≤ j → j < k + i → ¬ Stops env.millerRabin key size j) ∧
      (candidate env.millerRabin size (k + i) < 3 ∧ search machine env key (rounds + 1) k number = .ok none ∨
        Stops env.millerRabin key size (k + i) ∧ (∃ chosen, search machine env key (rounds + 1) k number = .ok (some chosen)) ∨
        ¬ Stops env.millerRabin key size (k + i) ∧
          Begins env.millerRabin size (k + i + 1) (candidate env.millerRabin size (k + i)) ∧
          search machine env key (rounds + 1) k number =
            search machine env key rounds (k + i + 1) (candidate env.millerRabin size (k + i))) := by
  obtain ⟨two,fits,start⟩ := begins
  obtain ⟨i,ran,refused,last⟩ := descend_candidate env.millerRabin size k
  refine ⟨i,fun j from_ to_ stops => ?_,?_⟩
  · obtain ⟨large,no⟩ := refused j from_ to_
    rcases stops with small | ⟨yes,_⟩
    · omega
    · rw [no] at yes
      cases yes
  have atMost : candidate env.millerRabin size (k + i) ≤ number := by
    have down := candidate_antitone env.millerRabin size (Nat.le_add_right k i)
    rw [← start] at down
    split at down <;> omega
  have found : closestSmallerPrime env.millerRabin k number = if candidate env.millerRabin size (k + i) > 1
      then (candidate env.millerRabin size (k + i),k + i + 1) else (0,k + i + 1) := by
    simp only [closestSmallerPrime,start,ran]
    rw [if_neg (by omega)]
  have parity := candidate_parity env.millerRabin size (k + i)
  by_cases small : candidate env.millerRabin size (k + i) < 3
  · refine .inl ⟨small,?_⟩
    rw [if_neg (by omega)] at found
    simp only [search,found]
    rw [if_pos (by decide)]
  · have accepted := last.resolve_left small
    rw [if_pos (by omega)] at found
    have half : 0 < candidate env.millerRabin size (k + i) / 2 := by omega
    have aLt := Nat.mod_lt (xorWords key 0 (key.length / 2)) half
    have bLt := Nat.mod_lt (xorWords key (key.length / 2) key.length) half
    have ran : search machine env key (rounds + 1) k number =
        if (multiplier key (candidate env.millerRabin size (k + i))).gcd (candidate env.millerRabin size (k + i)) = 1
        then .ok (some ⟨candidate env.millerRabin size (k + i),multiplier key (candidate env.millerRabin size (k + i)),
          xorWords key (key.length / 2) key.length % (candidate env.millerRabin size (k + i) / 2) +
            candidate env.millerRabin size (k + i) / 2⟩)
        else search machine env key rounds (k + i + 1) (candidate env.millerRabin size (k + i)) := by
      simp only [search,found]
      rw [if_neg (by omega),if_neg (by omega),if_neg (by omega),machine_of_lt (by omega),machine_of_lt (by omega),ok_bind,
        ok_bind,gcd_eq]
      rfl
    by_cases coprime : (multiplier key (candidate env.millerRabin size (k + i))).gcd
        (candidate env.millerRabin size (k + i)) = 1
    · exact .inr (.inl ⟨.inr ⟨accepted,coprime⟩,_,by rw [ran,if_pos coprime]⟩)
    · refine .inr (.inr ⟨?_,⟨by omega,by omega,?_⟩,by rw [ran,if_neg coprime]⟩)
      · rintro (few | ⟨_,shares⟩)
        · exact small few
        · exact coprime shares
      · rw [Nat.add_assoc k i 1,← Nat.add_assoc,candidate_kept accepted,if_neg (by omega)]

/-- A search that has an end before it returns, when it is watched so far. -/
theorem search_returns (wide : key.length = 32) {m : Nat} (stops : Stops env.millerRabin key size m) (rounds : Nat) :
    ∀ {k number : Nat}, k ≤ m → m < k + rounds → Begins env.millerRabin size k number →
      ∃ found, search machine env key rounds k number = .ok found := by
  induction rounds with
  | zero => exact fun before watched => absurd watched (by omega)
  | succ rounds ih =>
    intro k number before watched begins
    obtain ⟨i,going,round⟩ := search_round wide begins rounds
    have reached : k + i ≤ m := Nat.le_of_not_lt fun later => going m before later stops
    rcases round with ⟨_,none_⟩ | ⟨_,chosen,some_⟩ | ⟨goes,again,same⟩
    · exact ⟨_,none_⟩
    · exact ⟨_,some_⟩
    · have more : k + i ≠ m := fun here => goes (here ▸ stops)
      rw [same]
      exact ih (by omega) (by omega) again

/-- A search that has no end before it does not return. -/
theorem search_endless (wide : key.length = 32) (endless : ∀ m, ¬ Stops env.millerRabin key size m) (rounds : Nat) :
    ∀ {k number : Nat}, Begins env.millerRabin size k number → search machine env key rounds k number = .error .endless := by
  induction rounds with
  | zero => exact fun _ => rfl
  | succ rounds ih =>
    intro k number begins
    obtain ⟨i,_,round⟩ := search_round wide begins rounds
    rcases round with ⟨small,_⟩ | ⟨stops,_⟩ | ⟨_,again,same⟩
    · exact absurd (.inl small) (endless (k + i))
    · exact absurd stops (endless (k + i))
    · rw [same]
      exact ih again

/-- `GetSizeUsingParams` returns after some rounds without a division by zero, and what it returns is 0 or a size with
    parameters below it and a multiplier that has no factor in common with it. -/
def Finds (env : Environment) (key : List UInt8) (size : Nat) : Prop :=
  ∃ watched found, paramsChecked { env with watched := watched } size key = .ok found ∧
    ∀ chosen, found = some chosen →
      chosen.size ≤ size ∧ chosen.a < chosen.size ∧ chosen.b < chosen.size ∧ Nat.gcd chosen.a chosen.size = 1

theorem not_finds (wide : key.length = 32) (fits : size < 2 ^ 64) (caught : Caught env.millerRabin key size) :
    ¬ Finds env key size := by
  rintro ⟨watched,found,ran,_⟩
  have endless := caught_iff.mp caught
  rw [paramsChecked_eq _ fits,params,if_neg (by omega)] at ran
  rcases Nat.lt_or_ge size 2 with tiny | two
  · exact endless 0 (.inl (by rw [candidate]; split <;> omega))
  · have loops := @search_endless key size { env with watched := watched } wide endless (watched + 1) 0 size ⟨two,fits,rfl⟩
    rw [loops] at ran
    cases ran

theorem finds_of_stops (wide : key.length = 32) (fits : size < 2 ^ 64) {m : Nat} (stops : Stops env.millerRabin key size m) :
    Finds env key size := by
  obtain ⟨found,ran⟩ : ∃ found, paramsChecked { env with watched := m } size key = .ok found := by
    rw [paramsChecked_eq _ fits,params,if_neg (by omega)]
    rcases Nat.lt_or_ge size 2 with tiny | two
    · refine ⟨none,?_⟩
      simp only [search,closestSmallerPrime,tiny,if_true]
      rfl
    · exact @search_returns key size { env with watched := m } wide m stops (m + 1) 0 size (Nat.zero_le m) (by omega)
        ⟨two,fits,rfl⟩
  refine ⟨m,found,ran,?_⟩
  rintro chosen rfl
  rw [paramsChecked_eq _ fits] at ran
  obtain ⟨_,atMost,coprime,aLt,bLt⟩ := Permutation.params_correct machine_exact fits ran
  exact ⟨atMost,aLt,bLt,coprime⟩

/-- For every key of 32 bytes, every size and all values of `rand()`, the search does what it should exactly when it is
    not caught. -/
theorem finds_iff (env : Environment) (rand : Nat → Nat → Nat) {key : List UInt8} {size : Nat} (wide : key.length = 32)
    (small : size < 2 ^ 32) :
    Finds { env with millerRabin := drawn rand } key size ↔ ¬ Caught (drawn rand) key size := by
  have fits : size < 2 ^ 64 := by omega
  constructor
  · exact fun finds caught => not_finds wide fits caught finds
  · intro free
    rw [caught_iff,not_forall_not] at free
    obtain ⟨m,stops⟩ := free
    exact finds_of_stops wide fits stops

/-- A key whose first byte is 2 and whose other bytes are 0. -/
def twoKey : List UInt8 := 2::List.replicate 31 0

theorem finds_seven : Finds { Permutation.twoPrimes with millerRabin := drawn fun _ _ => 0 } twoKey 7 := by
  refine (finds_iff Permutation.twoPrimes (fun _ _ => 0) (by decide) (by decide)).mpr ?_
  rintro ⟨k,_,_,shared⟩
  have accepted : drawn (fun _ _ => 0) 0 7 = true := by rw [drawn,millerRabin_zero (by decide) (by decide) (by decide)]
  exact shared 0 (Nat.zero_le k) accepted (by decide +kernel)

/-- The multiplier for 9 is 6, and with the base 1 the number 9 is accepted every time. -/
theorem not_finds_nine : multiplier twoKey 9 = 6 ∧
    ¬ Finds { Permutation.twoPrimes with millerRabin := drawn fun _ _ => 0 } twoKey 9 := by
  have accepted (k : Nat) : drawn (fun _ _ => 0) k 9 = true := by
    rw [drawn,millerRabin_zero (by decide) (by decide) (by decide)]
  have six : multiplier twoKey 9 = 6 := by decide +kernel
  refine ⟨six,not_finds (by decide) (by decide) ⟨0,by decide,fun j _ => accepted j,fun j first _ => ?_⟩⟩
  obtain rfl := Nat.le_zero.mp first
  rw [show candidate (drawn fun _ _ => 0) 9 0 = 9 from rfl,six]
  decide

end AffinePermutation
end StegoDisk
