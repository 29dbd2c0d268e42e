import StegoDisk.PermutationCorrect

/-!
`GetSizeUsingParams` against `Init`. The capacities are computed from the first and
the buffers are allocated after the second, so they should agree: the predicted size
is the size after `Init`, and is 0 when `Init` throws. `Affine64Permutation` lifts
the limit of `2 ^ 32` from `Init` but inherits the prediction that keeps it, and near
`2 ^ 64` the square root of `FeistelNumPermutation` overflows its 32 bits.
-/
namespace StegoDisk.Permutation
open StegoMath

/-- The prediction is the size after an `Init` that returns, and is 0 exactly when `Init` throws. -/
def PredictsSize (env : Environment) (p : Permutation) (requestedSize : Nat) (key : List UInt8) : Prop :=
  (∀ q, p.init env requestedSize key = (q,.ok ()) → p.getSizeUsingParams env requestedSize key = .ok q.size) ∧
    (p.getSizeUsingParams env requestedSize key = .ok 0 ↔ Throws (p.init env requestedSize key).2)

/-- What the prediction of `Affine64Permutation` overlooks: sizes above the inherited
    limit for which there is a prime to be found. -/
def BeyondInheritedLimit (prime : Nat → Bool) (p : Permutation) (requestedSize : Nat) : Prop :=
  p.type = .affine64 ∧ requestedSize > 0xFFFFFFFF ∧ ∃ n, 3 ≤ n ∧ n ≤ requestedSize ∧ n % 2 = 1 ∧ prime n = true

/-- The sizes whose square root is rounded to `2 ^ 32`. -/
def RootOverflows (p : Permutation) (requestedSize : Nat) : Prop :=
  p.type = .feistelNum ∧ requestedSize ≥ 2 ^ 64 - 1024

variable {env : Environment} {requestedSize : Nat} {key : List UInt8}

/-- With a key of 32 bytes the search for affine parameters does not throw. -/
theorem search_not_throws (wide : key.length = 32) (rounds asked : Nat) {number : Nat} :
    ¬ Throws (AffinePermutation.search machine env key rounds asked number) := by
  induction rounds generalizing asked number with
  | zero =>
    rintro ⟨e,thrown⟩
    simp [AffinePermutation.search] at thrown
  | succ rounds ih =>
    unfold AffinePermutation.search
    simp only [machine,ok_bind,wide]
    split
    · exact not_throws_ok _
    · split
      · omega
      · split
        · omega
        · split
          · exact not_throws_ok _
          · exact ih _

/-- A prime that was found is found again, so the search gives up only at the start. -/
theorem search_none {prime : Nat → Bool} (deterministic : env.millerRabin = fun _ => prime) (wide : key.length = 32)
    (rounds asked number : Nat) :
    AffinePermutation.search machine env key (rounds + 1) asked number = .ok none ↔
      ∀ n, 3 ≤ n → n ≤ number → n % 2 = 1 → prime n = false := by
  rw [← closestSmallerPrime_none prime asked number]
  induction rounds generalizing asked number with
  | zero =>
    rw [AffinePermutation.search,deterministic]
    simp only [machine,ok_bind,wide,AffinePermutation.search]
    constructor
    · intro given
      split at given
      · omega
      · simp at given
        split at given <;> simp at given
    · intro zero
      rw [if_pos (by omega)]
  | succ rounds ih =>
    have range := closestSmallerPrime_range (fun _ => prime) asked number
    have accepted := closestSmallerPrime_accepted prime asked number
    rw [AffinePermutation.search,deterministic]
    simp only [machine,ok_bind,wide]
    generalize closestSmallerPrime (fun _ => prime) asked number = found at range accepted
    constructor
    · intro given
      by_contra some
      rw [if_neg (by omega)] at given
      simp only [show ¬ 32 < 8 by decide,show ¬ 32 % 16 ≠ 0 by decide,if_false] at given
      split at given
      · simp at given
      · have again := (closestSmallerPrime_none prime found.2 found.1).mp ((ih found.2 found.1).mp given)
        have refused := again found.1 (by omega) le_rfl (by omega)
        rcases accepted with zero | accepted
        · exact some zero
        · simp [refused] at accepted
    · intro zero
      rw [if_pos (by omega)]

theorem params_not_throws (wide : key.length = 32) :
    ¬ Throws (AffinePermutation.params machine env requestedSize key) := by
  rw [AffinePermutation.params,if_neg (by omega)]
  exact search_not_throws wide _ _

theorem params_none {prime : Nat → Bool} (deterministic : env.millerRabin = fun _ => prime) (wide : key.length = 32) :
    AffinePermutation.params machine env requestedSize key = .ok none ↔
      ∀ n, 3 ≤ n → n ≤ requestedSize → n % 2 = 1 → prime n = false := by
  rw [AffinePermutation.params,if_neg (by omega)]
  exact search_none deterministic wide _ _ _

/-- `Init` of the affine classes throws exactly when the search gives up. -/
theorem adopt_throws (wide : key.length = 32) (wrap : AffinePermutation → Permutation) (p : AffinePermutation)
    (refusal : Exception) :
    Throws (Prod.map wrap id
        (AffinePermutation.adopt p (AffinePermutation.params machine env requestedSize key) refusal)).2 ↔
      AffinePermutation.params machine env requestedSize key = .ok none := by
  have quiet : ¬ Throws (AffinePermutation.params machine env requestedSize key) := params_not_throws wide
  cases found : AffinePermutation.params machine env requestedSize key with
  | error failure =>
    rw [found] at quiet
    simpa [AffinePermutation.adopt,throws_error] using quiet
  | ok chosen =>
    cases chosen with
    | none => simp [AffinePermutation.adopt,Throws]
    | some chosen => simp [AffinePermutation.adopt,Throws]

/-- The size the search found is 0 exactly when it gave up, since a prime is not 0. -/
theorem size_zero_iff (small : requestedSize < 2 ^ 64) :
    (do let found ← AffinePermutation.params machine env requestedSize key
        .ok ((found.map AffineParams.size).getD 0)) = (.ok 0 : Except Failure Nat) ↔
      AffinePermutation.params machine env requestedSize key = .ok none := by
  cases found : AffinePermutation.params machine env requestedSize key with
  | error failure => simp
  | ok chosen =>
    cases chosen with
    | none => simp
    | some chosen =>
      obtain ⟨low,_⟩ := params_correct machine_exact small found
      simp
      omega

/-- Below the limit the affine classes predict what `Init` gives. -/
theorem affine_predicts (wrap : AffinePermutation → Permutation) (sizes : ∀ p, (wrap p).size = p.size)
    (p : AffinePermutation) (refusal : Exception) (q : Permutation)
    (returns : Prod.map wrap id
      (AffinePermutation.adopt p (AffinePermutation.params machine env requestedSize key) refusal) = (q,.ok ())) :
    (do let found ← AffinePermutation.params machine env requestedSize key
        .ok ((found.map AffineParams.size).getD 0)) = (.ok q.size : Except Failure Nat) := by
  obtain ⟨chosen,found,rfl⟩ := adopt_ok.mp returns
  simp [found,sizes]

theorem identity_agrees (p : IdentityPermutation) : PredictsSize env (.identity p) requestedSize key := by
  unfold PredictsSize init initWith getSizeUsingParams IdentityPermutation.init IdentityPermutation.getSizeUsingParams
  by_cases zero : requestedSize = 0
  · simp [zero,Throws]
  · simp only [zero,if_false,Prod.map,id,Prod.mk.injEq,and_true,not_throws_ok,iff_false]
    refine ⟨?_,by simp [zero]⟩
    rintro q rfl
    rfl

theorem affine_agrees (wide : key.length = 32) (small : requestedSize < 2 ^ 64) (p : AffinePermutation) :
    PredictsSize env (.affine p) requestedSize key := by
  unfold PredictsSize init initWith getSizeUsingParams AffinePermutation.init AffinePermutation.getSizeUsingParams
  by_cases large : requestedSize > 0xFFFFFFFF
  · simp [large,Throws]
  · simp only [large,if_false]
    refine ⟨affine_predicts .affine (fun _ => rfl) p _,?_⟩
    rw [size_zero_iff small,adopt_throws wide]

theorem affine64_iff {prime : Nat → Bool} (deterministic : env.millerRabin = fun _ => prime) (wide : key.length = 32)
    (small : requestedSize < 2 ^ 64) (p : AffinePermutation) :
    PredictsSize env (.affine64 p) requestedSize key ↔ ¬ BeyondInheritedLimit prime (.affine64 p) requestedSize := by
  unfold PredictsSize init initWith getSizeUsingParams AffinePermutation.init64 AffinePermutation.getSizeUsingParams
  rw [adopt_throws wide,params_none deterministic wide]
  by_cases large : requestedSize > 0xFFFFFFFF
  · simp only [large,if_true,true_iff]
    constructor
    · rintro ⟨_,refused⟩ ⟨_,_,n,low,high,odd,accepted⟩
      simp [refused n low high odd] at accepted
    · intro none
      have refused : ∀ n, 3 ≤ n → n ≤ requestedSize → n % 2 = 1 → prime n = false := by
        intro n low high odd
        by_contra accepted
        exact none ⟨rfl,large,n,low,high,odd,by simpa using accepted⟩
      refine ⟨?_,refused⟩
      intro q returns
      obtain ⟨chosen,found,_⟩ := adopt_ok.mp returns
      simp [(params_none deterministic wide).mpr refused] at found
  · have inherits : ¬ BeyondInheritedLimit prime (.affine64 p) requestedSize := fun beyond => large beyond.2.1
    simp only [large,if_false,inherits,not_false_eq_true,iff_true]
    refine ⟨affine_predicts .affine64 (fun _ => rfl) p _,?_⟩
    rw [size_zero_iff small,params_none deterministic wide]

theorem feistelNum_iff (wide : key.length = 32) (small : requestedSize < 2 ^ 64) (p : FeistelNumPermutation) :
    PredictsSize env (.feistelNum p) requestedSize key ↔ ¬ RootOverflows (.feistelNum p) requestedSize := by
  unfold PredictsSize RootOverflows init initWith getSizeUsingParams FeistelNumPermutation.init
    FeistelNumPermutation.getSizeUsingParams
  simp only [show ¬ key.length = 0 by omega,if_false,type,true_and]
  by_cases few : requestedSize < 1024
  · simp [few,Throws]
    omega
  · simp only [few,if_false,machine,Prod.map,id,Prod.mk.injEq,and_true,not_throws_ok,iff_false]
    constructor
    · rintro ⟨_,positive⟩ top
      simp [sqrt32_top top small,word64] at positive
    · intro below
      refine ⟨?_,?_⟩
      · rintro q rfl
        rfl
      · have root := sqrt32_pos (show 0 < requestedSize by omega) (by omega)
        have narrow : sqrt32 requestedSize < 2 ^ 32 := word32_lt _
        have square : sqrt32 requestedSize * sqrt32 requestedSize < 2 ^ 64 :=
          lt_of_lt_of_eq (Nat.mul_lt_mul'' narrow narrow) (by decide)
        rw [word64_of_lt square]
        have positive := Nat.mul_pos root root
        simp only [Except.ok.injEq]
        omega

theorem feistelMix_agrees (wide : key.length = 32) (small : requestedSize < 2 ^ 64) (p : FeistelMixPermutation) :
    PredictsSize env (.feistelMix p) requestedSize key := by
  unfold PredictsSize init initWith getSizeUsingParams FeistelMixPermutation.init
    FeistelMixPermutation.getSizeUsingParams
  simp only [show ¬ key.length = 0 by omega,if_false]
  by_cases few : requestedSize < 1024
  · simp [few,Throws]
  · by_cases short : log2 requestedSize < 8
    · simp [few,short,Throws]
    · simp only [few,short,if_false,machine,Prod.map,id,Prod.mk.injEq,and_true,not_throws_ok,iff_false]
      refine ⟨?_,?_⟩
      · rintro q rfl
        rfl
      · have bits := log2_eq (show 0 < requestedSize by omega) small
        have low : 2 ^ (log2 requestedSize - log2 requestedSize / 2) ≤ requestedSize := by
          rw [bits]
          exact (Nat.pow_le_pow_right (by decide) (by omega)).trans (Nat.log2_self_le (by omega))
        have down := Nat.div_mul_le_self requestedSize (2 ^ (log2 requestedSize - log2 requestedSize / 2))
        have unit := Nat.pow_pos (n := log2 requestedSize - log2 requestedSize / 2) (show 0 < 2 by decide)
        have positive := Nat.mul_pos (Nat.div_pos low unit) unit
        rw [word64_of_lt (by omega)]
        simp only [Except.ok.injEq]
        omega

/-- With a 32-byte key and a test that answers each number always alike, the predicted size
    is the real one except for `Affine64` sizes beyond the inherited limit and `NumericFeistel`
    sizes whose root overflows. -/
theorem predictsSize_iff (env : Environment) (prime : Nat → Bool) (deterministic : env.millerRabin = fun _ => prime)
    (p : Permutation) (requestedSize : Nat) (small : requestedSize < 2 ^ 64) (key : List UInt8) (wide : key.length = 32) :
    PredictsSize env p requestedSize key ↔
      ¬ BeyondInheritedLimit prime p requestedSize ∧ ¬ RootOverflows p requestedSize := by
  cases p with
  | identity p => simp [BeyondInheritedLimit,RootOverflows,type,identity_agrees]
  | affine p => simp [BeyondInheritedLimit,RootOverflows,type,affine_agrees wide small]
  | affine64 p =>
    rw [affine64_iff deterministic wide small p]
    simp [RootOverflows,type]
  | feistelNum p =>
    rw [feistelNum_iff wide small p]
    simp [BeyondInheritedLimit,type]
  | feistelMix p => simp [BeyondInheritedLimit,RootOverflows,type,feistelMix_agrees wide small]

/-- An environment for runs: digests of zeros, and a test that accepts the primes 1021
    and 4294967291. -/
def twoPrimes : Environment where
  keccak _ := ⟨List.replicate 32 0,rfl⟩
  millerRabin _ n := n = 1021 || n = 4294967291
  watched := 0

def zeroKey : List UInt8 := List.replicate 32 0

private theorem search_twoPrimes : AffinePermutation.params machine twoPrimes 4294967296 zeroKey =
    .ok (some ⟨4294967291,2147483645,2147483645⟩) := by
  have found : closestSmallerPrime twoPrimes.millerRabin 0 4294967296 = (4294967291,3) := by
    simp [closestSmallerPrime,descend,twoPrimes]
  have wide : zeroKey.length = 32 := by decide
  have words : AffinePermutation.xorWords zeroKey 0 16 = 0 ∧ AffinePermutation.xorWords zeroKey 16 32 = 0 := by decide
  have coprime : StegoMath.gcd 2147483645 4294967291 = 1 := by
    rw [gcd_eq]
    rfl
  simp [AffinePermutation.params,AffinePermutation.search,found,wide,words,coprime]

/-- `Affine64` predicts nothing for a request of `2 ^ 32`, but `Init` returns. -/
theorem predictsSize_affine64 : ¬ PredictsSize twoPrimes (fresh .affine64) 4294967296 zeroKey := by
  rintro ⟨predicted,_⟩
  have returns : (fresh .affine64).init twoPrimes 4294967296 zeroKey =
      (.affine64 ⟨4294967291,true,2147483645,2147483645⟩,.ok ()) :=
    adopt_ok.mpr ⟨_,search_twoPrimes,rfl⟩
  have size := predicted _ returns
  simp [fresh,getSizeUsingParams,AffinePermutation.getSizeUsingParams,Permutation.size] at size

/-- Within the limit `Affine64` predicts the size. -/
theorem predictsSize_small : PredictsSize twoPrimes (fresh .affine64) 1024 zeroKey :=
  (predictsSize_iff twoPrimes (fun n => n = 1021 || n = 4294967291) rfl (fresh .affine64) 1024 (by decide)
    zeroKey (by decide)).mpr
    ⟨fun beyond => absurd beyond.2.1 (by decide),fun overflows => nomatch overflows.1⟩

end StegoDisk.Permutation
