import StegoDisk.Feistel
import StegoDisk.Permutations

/-!
What an `Init` that returns establishes (`Ready`), and that a ready object
permutes the numbers below its size, in any register that keeps 64 bits exactly.
The Feistel classes are networks in the sense of `StegoDisk.Feistel` whose rounds
come from the hash tables.
-/
namespace StegoDisk.Permutation
open StegoMath Feistel

/-- All entries that five rounds can look up exist and are below `n`. -/
def Tables (tables : List (List Nat)) (n : Nat) : Prop :=
  ∀ r < 5, ∀ i < n, ∃ value < n, tableEntry tables r i = .ok value

/-- What `Init` establishes when it returns. -/
def Ready : Permutation → Prop
  | .identity p => p.initialized = true ∧ 0 < p.size
  | .affine p => p.initialized = true ∧ Nat.gcd p.keyParamA p.size = 1 ∧ p.keyParamA < p.size ∧
      p.keyParamB < p.size ∧ p.size < 2 ^ 32
  | .affine64 p => p.initialized = true ∧ Nat.gcd p.keyParamA p.size = 1 ∧ p.keyParamA < p.size ∧
      p.keyParamB < p.size ∧ p.size ≤ 2 ^ 63
  | .feistelNum p => p.initialized = true ∧ 0 < p.modulus ∧ p.modulus < 2 ^ 32 ∧ p.size = p.modulus * p.modulus ∧
      Tables p.hashTables p.modulus
  | .feistelMix p => p.initialized = true ∧ 0 < p.leftMod ∧ p.leftMod ≤ 2 ^ p.rightBits ∧ p.rightBits ≤ 31 ∧
      p.rightMask = 2 ^ p.rightBits - 1 ∧ p.size = p.leftMod * 2 ^ p.rightBits ∧ Tables p.hashTables (2 ^ p.rightBits)

/-- The tables that `Init` makes of the hash values `outputs t i`. -/
def tablesOf (outputs : Nat → Nat → Nat) (n : Nat) : List (List Nat) :=
  (List.range 5).map fun t => (List.range n).map fun i => outputs t i % n

theorem tablesOf_ok (outputs : Nat → Nat → Nat) {n : Nat} (positive : 0 < n) : Tables (tablesOf outputs n) n := by
  intro r inFive i inside
  refine ⟨outputs r i % n,Nat.mod_lt _ positive,?_⟩
  simp [tableEntry,tablesOf,List.getElem?_map,List.getElem?_range inFive,List.getElem?_range inside]

theorem hashTables_ok (env : Environment) (key : List UInt8) {n : Nat} (positive : 0 < n) :
    Tables (hashTables env key n) n :=
  tablesOf_ok (hashValue env key) positive

/-! ### What `Init` computes -/

/-- The search returns a size that the prime search found for some number, with
    both parameters below it and the factor coprime to it. -/
theorem search_correct {store : Store} (exact : store.Exact) (env : Environment) (key : List UInt8) {rounds asked number : Nat}
    (small : number < 2 ^ 64) {chosen : AffineParams}
    (found : AffinePermutation.search store env key rounds asked number = .ok (some chosen)) :
    3 ≤ chosen.size ∧ chosen.size ≤ number ∧ Nat.gcd chosen.a chosen.size = 1 ∧ chosen.a < chosen.size ∧
      chosen.b < chosen.size := by
  induction rounds generalizing asked number with
  | zero => simp [AffinePermutation.search] at found
  | succ rounds ih =>
    have range := closestSmallerPrime_range env.millerRabin asked number
    simp only [AffinePermutation.search] at found
    generalize closestSmallerPrime env.millerRabin asked number = step at found range
    by_cases none : step.1 < 1
    · simp [none] at found
    · have big : 3 ≤ step.1 := by omega
      have half : 0 < step.1 / 2 := by omega
      have aLt := Nat.mod_lt (AffinePermutation.xorWords key 0 (key.length / 2)) half
      have bLt := Nat.mod_lt (AffinePermutation.xorWords key (key.length / 2) key.length) half
      by_cases short : key.length < 8
      · simp [none,short] at found
      by_cases odd : key.length % 16 ≠ 0
      · simp [none,short,odd] at found
      have aStored := exact (AffinePermutation.xorWords key 0 (key.length / 2) % (step.1 / 2) + step.1 / 2) (by omega)
      have bStored := exact (AffinePermutation.xorWords key (key.length / 2) key.length % (step.1 / 2) + step.1 / 2)
        (by omega)
      simp only [none,short,odd,if_false,aStored,bStored,ok_bind] at found
      by_cases coprime : StegoMath.gcd (AffinePermutation.xorWords key 0 (key.length / 2) % (step.1 / 2) + step.1 / 2)
          step.1 = 1
      · rw [if_pos coprime] at found
        simp only [Except.ok.injEq,Option.some.injEq] at found
        subst found
        rw [gcd_eq] at coprime
        exact ⟨big,by dsimp only; omega,coprime,by dsimp only; omega,by dsimp only; omega⟩
      · rw [if_neg coprime] at found
        obtain ⟨low,high,rest⟩ := ih (by omega) found
        exact ⟨low,by omega,rest⟩

theorem params_correct {store : Store} (exact : store.Exact) {env : Environment} {key : List UInt8} {requestedSize : Nat}
    (small : requestedSize < 2 ^ 64) {chosen : AffineParams}
    (found : AffinePermutation.params store env requestedSize key = .ok (some chosen)) :
    3 ≤ chosen.size ∧ chosen.size ≤ requestedSize ∧ Nat.gcd chosen.a chosen.size = 1 ∧ chosen.a < chosen.size ∧
      chosen.b < chosen.size := by
  unfold AffinePermutation.params at found
  split at found
  · cases found
  · exact search_correct exact env key small found

theorem adopt_ok {p : AffinePermutation} {found : Except Failure (Option AffineParams)} {refusal : Exception}
    {wrap : AffinePermutation → Permutation} {q : Permutation} :
    Prod.map wrap id (AffinePermutation.adopt p found refusal) = (q,.ok ()) ↔
      ∃ chosen, found = .ok (some chosen) ∧
        q = wrap { size := chosen.size, initialized := true, keyParamA := chosen.a, keyParamB := chosen.b } := by
  cases found with
  | error failure => simp [AffinePermutation.adopt]
  | ok chosen =>
    cases chosen with
    | none => simp [AffinePermutation.adopt]
    | some chosen => simp [AffinePermutation.adopt,eq_comm]

/-! An `Init` that returns has passed its checks and leaves an object that nothing of the old one is in. -/
section
variable {store : Store} {env : Environment} {q : Permutation} {requestedSize : Nat} {key : List UInt8}

theorem initWith_identity {p : IdentityPermutation} :
    (identity p).initWith store env requestedSize key = (q,.ok ()) ↔
      0 < requestedSize ∧ q = identity { size := requestedSize, initialized := true } := by
  simp only [initWith,IdentityPermutation.init]
  split
  · simp
    omega
  · simp only [Prod.map,id,Prod.mk.injEq,and_true]
    rw [and_iff_right (by omega),eq_comm]

theorem initWith_affine {p : AffinePermutation} :
    (affine p).initWith store env requestedSize key = (q,.ok ()) ↔
      requestedSize ≤ 0xFFFFFFFF ∧
        ∃ chosen, AffinePermutation.params store env requestedSize key = .ok (some chosen) ∧
          q = affine { size := chosen.size, initialized := true, keyParamA := chosen.a, keyParamB := chosen.b } := by
  simp only [initWith,AffinePermutation.init]
  split
  · simp
    omega
  · rw [adopt_ok,and_iff_right (by omega)]

theorem initWith_affine64 {p : AffinePermutation} :
    (affine64 p).initWith store env requestedSize key = (q,.ok ()) ↔
      ∃ chosen, AffinePermutation.params store env requestedSize key = .ok (some chosen) ∧
        q = affine64 { size := chosen.size, initialized := true, keyParamA := chosen.a, keyParamB := chosen.b } :=
  adopt_ok

theorem initWith_feistelNum {p : FeistelNumPermutation} :
    (feistelNum p).initWith store env requestedSize key = (q,.ok ()) ↔
      key.length ≠ 0 ∧ 1024 ≤ requestedSize ∧
        ∃ size, store (sqrt32 requestedSize * sqrt32 requestedSize) = .ok size ∧
          q = feistelNum
            { size := size, initialized := true, hashTables := hashTables env key (sqrt32 requestedSize),
              modulus := sqrt32 requestedSize } := by
  simp only [initWith,FeistelNumPermutation.init]
  split
  · simp [*]
  split
  · simp
    omega
  · rename_i some_ large
    rw [and_iff_right some_,and_iff_right (by omega)]
    cases store (sqrt32 requestedSize * sqrt32 requestedSize) <;> simp [eq_comm]

theorem initWith_feistelMix {p : FeistelMixPermutation} :
    (feistelMix p).initWith store env requestedSize key = (q,.ok ()) ↔
      key.length ≠ 0 ∧ 1024 ≤ requestedSize ∧ 8 ≤ log2 requestedSize ∧
        ∃ rightBits, rightBits = log2 requestedSize - log2 requestedSize / 2 ∧
        ∃ size, store (requestedSize / 2 ^ rightBits * 2 ^ rightBits) = .ok size ∧
          q = feistelMix
            { size := size, initialized := true,
              hashTables := hashTables env key (word32 (2 ^ (rightBits % 32) - 1 + 1)),
              leftBits := log2 requestedSize / 2, leftMod := requestedSize / 2 ^ rightBits,
              rightMask := 2 ^ (rightBits % 32) - 1, rightBits := rightBits } := by
  simp only [initWith,FeistelMixPermutation.init]
  split
  · simp [*]
  split
  · simp
    omega
  split
  · simp
    omega
  · rename_i some_ large eight
    rw [and_iff_right some_,and_iff_right (by omega),and_iff_right (by omega)]
    simp only [exists_eq_left]
    cases store (requestedSize / 2 ^ (log2 requestedSize - log2 requestedSize / 2) *
      2 ^ (log2 requestedSize - log2 requestedSize / 2)) <;> simp [eq_comm]
end

/-- The halves of a number of `length` bits. -/
theorem mix_split {length requestedSize : Nat} (eight : 8 ≤ length) (top : length ≤ 61)
    (low : 2 ^ (length - 1) ≤ requestedSize) (high : requestedSize < 2 ^ length) :
    length - length / 2 ≤ 31 ∧ 0 < requestedSize / 2 ^ (length - length / 2) ∧
      requestedSize / 2 ^ (length - length / 2) ≤ 2 ^ (length - length / 2) ∧
      requestedSize / 2 ^ (length - length / 2) * 2 ^ (length - length / 2) ≤ requestedSize := by
  have lower : 2 ^ (length - length / 2) ≤ 2 ^ (length - 1) := Nat.pow_le_pow_right (by decide) (by omega)
  have upper : 2 ^ length ≤ 2 ^ (length - length / 2) * 2 ^ (length - length / 2) := by
    rw [← Nat.pow_add]
    exact Nat.pow_le_pow_right (by decide) (by omega)
  refine ⟨by omega,Nat.div_pos (by omega) (Nat.pow_pos (by decide)),?_,Nat.div_mul_le_self _ _⟩
  exact (Nat.div_lt_of_lt_mul (by omega)).le

theorem search_store {store store' : Store} (exact : store.Exact) (exact' : store'.Exact) (env : Environment)
    (key : List UInt8) (rounds asked : Nat) {number : Nat} (small : number < 2 ^ 64) :
    AffinePermutation.search store env key rounds asked number =
      AffinePermutation.search store' env key rounds asked number := by
  induction rounds generalizing asked number with
  | zero => rfl
  | succ rounds ih =>
    have range := closestSmallerPrime_range env.millerRabin asked number
    simp only [AffinePermutation.search]
    generalize closestSmallerPrime env.millerRabin asked number = step at range
    by_cases none : step.1 < 1
    · simp only [none,if_true]
    · have aLt := Nat.mod_lt (AffinePermutation.xorWords key 0 (key.length / 2)) (show 0 < step.1 / 2 by omega)
      have bLt := Nat.mod_lt (AffinePermutation.xorWords key (key.length / 2) key.length) (show 0 < step.1 / 2 by omega)
      have aSmall : AffinePermutation.xorWords key 0 (key.length / 2) % (step.1 / 2) + step.1 / 2 < 2 ^ 64 := by omega
      have bSmall : AffinePermutation.xorWords key (key.length / 2) key.length % (step.1 / 2) + step.1 / 2 < 2 ^ 64 := by
        omega
      simp only [exact _ aSmall,exact _ bSmall,exact' _ aSmall,exact' _ bSmall,ok_bind,
        ih step.2 (show step.1 < 2 ^ 64 by omega)]

/-- `Init` gives the same in every register that keeps 64 bits exactly: nothing in it wraps. -/
theorem init_store {store store' : Store} (exact : store.Exact) (exact' : store'.Exact) (env : Environment)
    (p : Permutation) {requestedSize : Nat} (key : List UInt8) (small : requestedSize < 2 ^ 64) :
    p.initWith store env requestedSize key = p.initWith store' env requestedSize key := by
  cases p with
  | identity p => rfl
  | affine p =>
    simp only [initWith,AffinePermutation.init,AffinePermutation.params,search_store exact exact' env key _ _ small]
  | affine64 p =>
    simp only [initWith,AffinePermutation.init64,AffinePermutation.params,search_store exact exact' env key _ _ small]
  | feistelNum p =>
    have narrow : sqrt32 requestedSize ≤ 2 ^ 32 - 1 := Nat.le_pred_of_lt (word32_lt _)
    have square := Nat.mul_le_mul narrow narrow
    simp only [initWith,FeistelNumPermutation.init,exact _ (show sqrt32 requestedSize * sqrt32 requestedSize < 2 ^ 64 by omega),
      exact' _ (show sqrt32 requestedSize * sqrt32 requestedSize < 2 ^ 64 by omega)]
  | feistelMix p =>
    have down := Nat.div_mul_le_self requestedSize (2 ^ (log2 requestedSize - log2 requestedSize / 2))
    simp only [initWith,FeistelMixPermutation.init,exact _ (lt_of_le_of_lt down small),exact' _ (lt_of_le_of_lt down small)]

/-- An `Init` that returns leaves a ready object, as long as its size is below `2 ^ 60`
    and not zero. -/
theorem init_ready {store : Store} (exact : store.Exact) {env : Environment} {p q : Permutation} {requestedSize : Nat}
    {key : List UInt8} (small : requestedSize < 2 ^ 64) (positive : 0 < q.size) (bound : q.size < 2 ^ 60)
    (returns : p.initWith store env requestedSize key = (q,.ok ())) : q.Ready := by
  cases p with
  | identity p =>
    obtain ⟨some_,rfl⟩ := initWith_identity.mp returns
    exact ⟨rfl,positive⟩
  | affine p =>
    obtain ⟨inRange,chosen,found,rfl⟩ := initWith_affine.mp returns
    obtain ⟨low,high,coprime,aLt,bLt⟩ := params_correct exact small found
    exact ⟨rfl,coprime,aLt,bLt,by dsimp only; omega⟩
  | affine64 p =>
    obtain ⟨chosen,found,rfl⟩ := initWith_affine64.mp returns
    obtain ⟨low,high,coprime,aLt,bLt⟩ := params_correct exact small found
    exact ⟨rfl,coprime,aLt,bLt,by simp only [size] at bound ⊢; omega⟩
  | feistelNum p =>
    obtain ⟨keyed,large,total,stored,rfl⟩ := initWith_feistelNum.mp returns
    have modulusLt : sqrt32 requestedSize < 2 ^ 32 := word32_lt _
    have square : sqrt32 requestedSize * sqrt32 requestedSize < 2 ^ 64 := by
      have := Nat.mul_le_mul (Nat.le_pred_of_lt modulusLt) (Nat.le_pred_of_lt modulusLt)
      simp only [Nat.pred_eq_sub_one] at this
      omega
    obtain rfl := Except.ok.inj ((exact _ square).symm.trans stored)
    have root : 0 < sqrt32 requestedSize := by
      rcases Nat.eq_zero_or_pos (sqrt32 requestedSize) with zero | root
      · simp [size,zero] at positive
      · exact root
    exact ⟨rfl,root,modulusLt,rfl,hashTables_ok env key root⟩
  | feistelMix p =>
    obtain ⟨keyed,large,eight,rightBits,halves,total,stored,rfl⟩ := initWith_feistelMix.mp returns
    have bits := log2_eq (by omega) small
    have low : 2 ^ (log2 requestedSize - 1) ≤ requestedSize := by
      rw [bits]
      exact Nat.log2_self_le (by omega)
    have high : requestedSize < 2 ^ log2 requestedSize := by
      rw [bits]
      exact Nat.lt_log2_self
    have word : log2 requestedSize ≤ 64 := by
      have := (Nat.log2_lt (by omega)).mpr small
      omega
    have down := Nat.div_mul_le_self requestedSize (2 ^ rightBits)
    obtain rfl := Except.ok.inj ((exact _ (by omega)).symm.trans stored)
    simp only [size] at bound
    have top : log2 requestedSize ≤ 61 := by
      by_contra more
      have big : 2 ^ 61 ≤ 2 ^ (log2 requestedSize - 1) := Nat.pow_le_pow_right (by decide) (by omega)
      have right : 2 ^ rightBits ≤ 2 ^ 32 := Nat.pow_le_pow_right (by decide) (by omega)
      have rest := Nat.mod_lt requestedSize (Nat.pow_pos (n := rightBits) (show 0 < 2 by decide))
      have whole := Nat.div_add_mod' requestedSize (2 ^ rightBits)
      omega
    obtain ⟨rightLe,leftPositive,leftLe,_⟩ := mix_split eight top low high
    rw [← halves] at rightLe leftPositive leftLe
    have mask : rightBits % 32 = rightBits := Nat.mod_eq_of_lt (by omega)
    have entries : word32 (2 ^ rightBits - 1 + 1) = 2 ^ rightBits := by
      have one := Nat.pow_pos (n := rightBits) (show 0 < 2 by decide)
      have few : 2 ^ rightBits ≤ 2 ^ 31 := Nat.pow_le_pow_right (by decide) rightLe
      rw [Nat.sub_add_cancel one,word32_of_lt (by omega)]
    refine ⟨rfl,leftPositive,leftLe,rightLe,by simp only [mask],rfl,?_⟩
    simp only [mask,entries]
    exact hashTables_ok env key (Nat.pow_pos (by decide))

/-- The size is positive and at most the requested one, where the square root is exact. -/
theorem init_size {store : Store} (exact : store.Exact) {env : Environment} {p q : Permutation} {requestedSize : Nat}
    {key : List UInt8} (small : requestedSize < 2 ^ 60)
    (root : p.type = .feistelNum → sqrt32 requestedSize = requestedSize.sqrt)
    (returns : p.initWith store env requestedSize key = (q,.ok ())) : 0 < q.size ∧ q.size ≤ requestedSize := by
  cases p with
  | identity p =>
    obtain ⟨some_,rfl⟩ := initWith_identity.mp returns
    exact ⟨some_,le_rfl⟩
  | affine p =>
    obtain ⟨inRange,chosen,found,rfl⟩ := initWith_affine.mp returns
    obtain ⟨low,high,_⟩ := params_correct exact (by omega) found
    exact ⟨by simp only [size]; omega,high⟩
  | affine64 p =>
    obtain ⟨chosen,found,rfl⟩ := initWith_affine64.mp returns
    obtain ⟨low,high,_⟩ := params_correct exact (by omega) found
    exact ⟨by simp only [size]; omega,high⟩
  | feistelNum p =>
    obtain ⟨keyed,large,total,stored,rfl⟩ := initWith_feistelNum.mp returns
    have square := Nat.sqrt_le requestedSize
    rw [root rfl,exact _ (by omega)] at stored
    obtain rfl := Except.ok.inj stored
    have rootPositive : 0 < requestedSize.sqrt := Nat.sqrt_pos.mpr (by omega)
    exact ⟨Nat.mul_pos rootPositive rootPositive,square⟩
  | feistelMix p =>
    obtain ⟨keyed,large,eight,rightBits,halves,total,stored,rfl⟩ := initWith_feistelMix.mp returns
    have low : 2 ^ rightBits ≤ requestedSize := by
      have bits := log2_eq (show 0 < requestedSize by omega) (by omega)
      exact (Nat.pow_le_pow_right (by decide) (by omega)).trans (Nat.log2_self_le (by omega))
    have down := Nat.div_mul_le_self requestedSize (2 ^ rightBits)
    obtain rfl := Except.ok.inj ((exact _ (by omega)).symm.trans stored)
    have one := Nat.pow_pos (n := rightBits) (show 0 < 2 by decide)
    exact ⟨Nat.mul_pos (Nat.div_pos low one) one,down⟩

/-- An `Init` that returns leaves an initialised object. -/
theorem init_initialized {p q : Permutation} {requestedSize : Nat} {key : List UInt8}
    (returns : p.init env requestedSize key = (q,.ok ())) : q.initialized = true := by
  cases p with
  | identity p =>
    obtain ⟨_,rfl⟩ := initWith_identity.mp returns
    rfl
  | affine p =>
    obtain ⟨_,chosen,_,rfl⟩ := initWith_affine.mp returns
    rfl
  | affine64 p =>
    obtain ⟨chosen,_,rfl⟩ := initWith_affine64.mp returns
    rfl
  | feistelNum p =>
    obtain ⟨_,_,size,_,rfl⟩ := initWith_feistelNum.mp returns
    rfl
  | feistelMix p =>
    obtain ⟨_,_,_,rightBits,_,size,_,rfl⟩ := initWith_feistelMix.mp returns
    rfl

theorem adopt_none {p : AffinePermutation} {found : Except Failure (Option AffineParams)} (refusal : Exception)
    (none_ : ∀ chosen, found ≠ .ok (some chosen)) : (p.adopt found refusal).1 = { p with initialized := false } := by
  cases found with
  | error failure => rfl
  | ok chosen =>
    cases chosen with
    | none => rfl
    | some chosen => exact absurd rfl (none_ chosen)

/-- An `Init` that does not return keeps the object, or takes an affine one out of use for which it finds no parameters. -/
theorem init_refused_eq {env : Environment} {p : Permutation} {requestedSize : Nat} {key : List UInt8}
    (refused : (p.init env requestedSize key).2 ≠ .ok ()) :
    (p.init env requestedSize key).1 = p ∨
      (∀ chosen, AffinePermutation.params machine env requestedSize key ≠ .ok (some chosen)) ∧ ∃ a : AffinePermutation,
        p = affine a ∧ requestedSize ≤ 0xFFFFFFFF ∧ (p.init env requestedSize key).1 = affine { a with initialized := false } ∨
        p = affine64 a ∧ (p.init env requestedSize key).1 = affine64 { a with initialized := false } := by
  cases p with
  | identity p =>
    simp only [init,initWith,IdentityPermutation.init] at refused ⊢
    split
    · exact .inl rfl
    · rename_i some_
      simp [some_] at refused
  | affine a =>
    by_cases small : requestedSize ≤ 0xFFFFFFFF
    · have none_ : ∀ chosen, AffinePermutation.params machine env requestedSize key ≠ .ok (some chosen) := by
        intro chosen found
        exact refused (congrArg Prod.snd (initWith_affine.mpr ⟨small,chosen,found,rfl⟩))
      refine .inr ⟨none_,a,.inl ⟨rfl,small,?_⟩⟩
      simp only [init,initWith,AffinePermutation.init,if_neg (Nat.not_lt.mpr small),Prod.map,adopt_none _ none_]
    · left
      simp only [init,initWith,AffinePermutation.init,if_pos (Nat.not_le.mp small),Prod.map]
  | affine64 a =>
    have none_ : ∀ chosen, AffinePermutation.params machine env requestedSize key ≠ .ok (some chosen) := by
      intro chosen found
      exact refused (congrArg Prod.snd (initWith_affine64.mpr ⟨chosen,found,rfl⟩))
    refine .inr ⟨none_,a,.inr ⟨rfl,?_⟩⟩
    simp only [init,initWith,AffinePermutation.init64,Prod.map,adopt_none _ none_]
  | feistelNum p =>
    simp only [init,initWith,FeistelNumPermutation.init,machine] at refused ⊢
    split
    · exact .inl rfl
    split
    · exact .inl rfl
    · rename_i some_ large
      simp [some_,large] at refused
  | feistelMix p =>
    simp only [init,initWith,FeistelMixPermutation.init,machine] at refused ⊢
    split
    · exact .inl rfl
    split
    · exact .inl rfl
    split
    · exact .inl rfl
    · rename_i some_ large eight
      simp [some_,large,eight] at refused

/-- It keeps the size, and it keeps the object or leaves it not initialised. -/
theorem init_refused {env : Environment} {p : Permutation} {requestedSize : Nat} {key : List UInt8}
    (refused : (p.init env requestedSize key).2 ≠ .ok ()) :
    (p.init env requestedSize key).1.size = p.size ∧
      ((p.init env requestedSize key).1 = p ∨ (p.init env requestedSize key).1.initialized = false) := by
  rcases init_refused_eq refused with kept | ⟨_,a,⟨rfl,_,down⟩ | ⟨rfl,down⟩⟩
  · exact ⟨congrArg size kept,.inl kept⟩
  · rw [down]
    exact ⟨rfl,.inr rfl⟩
  · rw [down]
    exact ⟨rfl,.inr rfl⟩

/-! ### What `Permute` computes -/

/-- The entry that a round looks up. -/
def entryOf (tables : List (List Nat)) (r i : Nat) : Nat := (tableEntry tables r i).toOption.getD 0

theorem entryOf_spec {tables : List (List Nat)} {n r i : Nat} (complete : Tables tables n) (inFive : r < 5)
    (inside : i < n) : tableEntry tables r i = .ok (entryOf tables r i) ∧ entryOf tables r i < n := by
  obtain ⟨value,below,found⟩ := complete r inFive i inside
  have same : entryOf tables r i = value := by simp [entryOf,found,Except.toOption]
  exact ⟨by rw [found,same],by omega⟩

/-- Steps that agree with sound rounds on all halves run as the network of these rounds. -/
theorem foldlM_network {A B : Nat} {step : Nat × Nat → Nat → Except Failure (Nat × Nat)} {rounds : Nat → Round}
    (indices : List Nat) (sound : ∀ r ∈ indices, (rounds r).Sound A B)
    (agrees : ∀ r ∈ indices, ∀ halves ∈ Halves A B, step halves r = .ok ((rounds r).apply halves))
    {halves : Nat × Nat} (inside : halves ∈ Halves A B) :
    indices.foldlM step halves = .ok (network (indices.map rounds) halves) := by
  induction indices generalizing halves with
  | nil => rfl
  | cons r rest ih =>
    have after := (Round.bijOn (sound r List.mem_cons_self)).mapsTo inside
    rw [List.foldlM_cons,agrees r List.mem_cons_self halves inside,ok_bind,
      ih (fun other member => sound other (List.mem_cons_of_mem _ member))
        (fun other member => agrees other (List.mem_cons_of_mem _ member)) after]
    rfl

/-- Joining halves neither wraps nor reaches the size. -/
theorem join_ok {store : Store} (exact : store.Exact) {A B : Nat} (positive : 0 < B) (fits : A * B < 2 ^ 64)
    {halves : Nat × Nat} (inside : halves ∈ Halves A B) :
    (do let high ← store (halves.1 * B)
        let permuted ← store (high + halves.2)
        if permuted ≥ A * B then .error (.thrown .permutationFailed) else .ok permuted) =
      .ok (halves.1 * B + halves.2) := by
  have below : halves.1 * B + halves.2 < A * B := (join_bijOn positive).mapsTo inside
  rw [exact _ (by omega),ok_bind,exact _ (by omega),ok_bind,if_neg (by omega)]

/-- Round `r` of `FeistelNumPermutation` as a round of a network. -/
def numRound (p : FeistelNumPermutation) (r : Nat) : Round where
  right := r % 2 = 1
  mix other half := (half + entryOf p.hashTables r other) % p.modulus

/-- Round `r` of `FeistelMixPermutation` as a round of a network. -/
def mixRound (p : FeistelMixPermutation) (r : Nat) : Round where
  right := r % 2 = 1
  mix other half :=
    if r % 2 = 1 then half ^^^ (entryOf p.hashTables r other &&& p.rightMask)
    else (half + entryOf p.hashTables r other / 2 ^ p.rightBits) % p.leftMod

theorem numRound_sound (p : FeistelNumPermutation) (r : Nat) : (numRound p r).Sound p.modulus p.modulus := by
  unfold Round.Sound numRound
  split
  · intro left _
    exact permutes_add (entryOf p.hashTables r left)
  · intro right _
    exact permutes_add (entryOf p.hashTables r right)

theorem mixRound_sound {p : FeistelMixPermutation} (mask : p.rightMask = 2 ^ p.rightBits - 1) (r : Nat) :
    (mixRound p r).Sound p.leftMod (2 ^ p.rightBits) := by
  unfold Round.Sound mixRound
  by_cases odd : r % 2 = 1
  · simp only [odd,decide_true,if_true]
    intro left _
    refine permutes_xor ?_
    rw [mask,Nat.and_two_pow_sub_one_eq_mod]
    exact Nat.mod_lt _ (Nat.pow_pos (by decide))
  · simp only [odd,decide_false,Bool.false_eq_true,if_false]
    intro right _
    exact permutes_add (entryOf p.hashTables r right / 2 ^ p.rightBits)

theorem numRound_ok {store : Store} (exact : store.Exact) {p : FeistelNumPermutation} (narrow : p.modulus < 2 ^ 32)
    (complete : Tables p.hashTables p.modulus) {r : Nat} (inFive : r < 5) {halves : Nat × Nat}
    (inside : halves ∈ Halves p.modulus p.modulus) :
    FeistelNumPermutation.round store p halves r = .ok ((numRound p r).apply halves) := by
  obtain ⟨left,right⟩ := inside
  unfold FeistelNumPermutation.round Round.apply numRound
  by_cases odd : r % 2 = 1
  · obtain ⟨found,below⟩ := entryOf_spec complete inFive left
    have sum := exact (halves.2 + entryOf p.hashTables r halves.1) (by omega)
    simp only [odd,decide_true,if_true,found,ok_bind,sum]
  · obtain ⟨found,below⟩ := entryOf_spec complete inFive right
    have sum := exact (halves.1 + entryOf p.hashTables r halves.2) (by omega)
    simp only [odd,decide_false,Bool.false_eq_true,if_false,found,ok_bind,sum]

theorem mixRound_ok {store : Store} (exact : store.Exact) {p : FeistelMixPermutation} (ready : (feistelMix p).Ready)
    {r : Nat} (inFive : r < 5) {halves : Nat × Nat} (inside : halves ∈ Halves p.leftMod (2 ^ p.rightBits)) :
    FeistelMixPermutation.round store p halves r = .ok ((mixRound p r).apply halves) := by
  obtain ⟨left,right⟩ := inside
  obtain ⟨_,_,leftLe,rightLe,_,_,complete⟩ := ready
  have few : 2 ^ p.rightBits ≤ 2 ^ 31 := Nat.pow_le_pow_right (by decide) rightLe
  unfold FeistelMixPermutation.round Round.apply mixRound
  by_cases odd : r % 2 = 1
  · -- the left half indexes a table with one entry for every right half
    obtain ⟨found,below⟩ := entryOf_spec complete inFive (lt_of_lt_of_le left leftLe)
    simp only [odd,decide_true,if_true,found,ok_bind]
  · obtain ⟨found,below⟩ := entryOf_spec complete inFive right
    have shifted := Nat.div_le_self (entryOf p.hashTables r halves.2) (2 ^ p.rightBits)
    have sum := exact (halves.1 + entryOf p.hashTables r halves.2 / 2 ^ p.rightBits) (by omega)
    simp only [odd,decide_false,Bool.false_eq_true,if_false,found,ok_bind,sum]

/-- `Permute` is the network of its five rounds between a split and a join. -/
theorem mixPermute_eq {store : Store} (exact : store.Exact) {p : FeistelMixPermutation} (ready : (feistelMix p).Ready)
    {i : Nat} (inside : i < p.size) :
    p.permute store i = .ok ((network ((List.range 5).map (mixRound p)) (i / 2 ^ p.rightBits,i % 2 ^ p.rightBits)).1 *
        2 ^ p.rightBits + (network ((List.range 5).map (mixRound p)) (i / 2 ^ p.rightBits,i % 2 ^ p.rightBits)).2) := by
  have ready' := ready
  obtain ⟨_,_,leftLe,rightLe,mask,whole,_⟩ := ready
  have positive : 0 < 2 ^ p.rightBits := Nat.pow_pos (by decide)
  have few : 2 ^ p.rightBits ≤ 2 ^ 31 := Nat.pow_le_pow_right (by decide) rightLe
  have fits : p.leftMod * 2 ^ p.rightBits < 2 ^ 64 := by
    have := Nat.mul_le_mul (leftLe.trans few) few
    omega
  have sound : ∀ round ∈ (List.range 5).map (mixRound p), round.Sound p.leftMod (2 ^ p.rightBits) := by
    simp only [List.mem_map]
    rintro _ ⟨r,_,rfl⟩
    exact mixRound_sound mask r
  have start : (i / 2 ^ p.rightBits,i % 2 ^ p.rightBits) ∈ Halves p.leftMod (2 ^ p.rightBits) :=
    (split_bijOn positive).mapsTo (show i < _ by omega)
  have masked : i &&& p.rightMask = i % 2 ^ p.rightBits := by rw [mask,Nat.and_two_pow_sub_one_eq_mod]
  simp only [FeistelMixPermutation.permute,commonPermuteInputCheck,if_neg (Nat.not_le.mpr inside),ok_bind,
    masked,foldlM_network (List.range 5) (fun r _ => mixRound_sound mask r)
      (fun r member _ => mixRound_ok exact ready' (List.mem_range.mp member)) start]
  rw [whole]
  exact join_ok exact positive fits (network_halves sound start)

/-- A ready object permutes the numbers below its size, and every register that keeps
    64 bits exactly gives the same images. -/
theorem Ready.permutes {p : Permutation} (ready : p.Ready) :
    ∃ f, Permutes p.size f ∧ ∀ store : Store, store.Exact → ∀ i < p.size, p.permuteWith store i = .ok (f i) := by
  cases p with
  | identity p =>
    refine ⟨fun i => i,permutes_id _,?_⟩
    intro store _ i inside
    simp only [size] at inside
    simp only [permuteWith,IdentityPermutation.permute,commonPermuteInputCheck,if_neg (Nat.not_le.mpr inside),ok_bind]
  | affine p =>
    obtain ⟨_,coprime,aLt,bLt,narrow⟩ := ready
    refine ⟨fun i => (i * p.keyParamA % p.size + p.keyParamB) % p.size,permutes_affine _ coprime,?_⟩
    intro store exact i inside
    simp only [size] at inside
    have product : i * p.keyParamA < 2 ^ 64 :=
      calc i * p.keyParamA ≤ p.size * p.size := Nat.mul_le_mul inside.le aLt.le
        _ < 2 ^ 32 * 2 ^ 32 := Nat.mul_lt_mul'' narrow narrow
    have below := Nat.mod_lt (i * p.keyParamA) (show 0 < p.size by omega)
    have sum := exact (i * p.keyParamA % p.size + p.keyParamB) (by omega)
    simp only [permuteWith,AffinePermutation.permute,commonPermuteInputCheck,if_neg (Nat.not_le.mpr inside),ok_bind,
      exact _ product,sum]
  | affine64 p =>
    obtain ⟨_,coprime,aLt,bLt,fits⟩ := ready
    refine ⟨fun i => (i * p.keyParamA % p.size + p.keyParamB) % p.size,permutes_affine _ coprime,?_⟩
    intro store exact i inside
    simp only [size] at inside
    have below := Nat.mod_lt (i * p.keyParamA) (show 0 < p.size by omega)
    have sum := exact (i * p.keyParamA % p.size + p.keyParamB) (by omega)
    simp only [permuteWith,AffinePermutation.permute64,commonPermuteInputCheck,if_neg (Nat.not_le.mpr inside),ok_bind,
      mulmod_eq exact fits aLt,sum]
  | feistelNum p =>
    obtain ⟨_,positive,narrow,whole,complete⟩ := ready
    have fits : p.modulus * p.modulus < 2 ^ 64 :=
      calc p.modulus * p.modulus < 2 ^ 32 * 2 ^ 32 := Nat.mul_lt_mul'' narrow narrow
        _ = 2 ^ 64 := by decide
    have sound : ∀ round ∈ (List.range 5).map (numRound p), round.Sound p.modulus p.modulus := by
      simp only [List.mem_map]
      rintro _ ⟨r,_,rfl⟩
      exact numRound_sound p r
    have permutes := permutes_network positive _ sound
    rw [← whole] at permutes
    refine ⟨_,permutes,?_⟩
    intro store exact i inside
    simp only [size] at inside
    have start : (i / p.modulus,i % p.modulus) ∈ Halves p.modulus p.modulus :=
      (split_bijOn positive).mapsTo (show i < _ by omega)
    simp only [permuteWith,FeistelNumPermutation.permute,commonPermuteInputCheck,if_neg (Nat.not_le.mpr inside),ok_bind,
      foldlM_network (List.range 5) (fun r _ => numRound_sound p r)
        (fun r member _ => numRound_ok exact narrow complete (List.mem_range.mp member)) start]
    rw [whole]
    exact join_ok exact positive fits (network_halves sound start)
  | feistelMix p =>
    have ready' := ready
    obtain ⟨_,_,_,_,mask,whole,_⟩ := ready
    have sound : ∀ round ∈ (List.range 5).map (mixRound p), round.Sound p.leftMod (2 ^ p.rightBits) := by
      simp only [List.mem_map]
      rintro _ ⟨r,_,rfl⟩
      exact mixRound_sound mask r
    have permutes := permutes_network (Nat.pow_pos (by decide)) _ sound
    rw [← whole] at permutes
    exact ⟨_,permutes,fun store exact i inside => mixPermute_eq exact ready' inside⟩

/-- From the size on, an index is refused before anything is computed. -/
theorem permute_out_of_range {store : Store} {p : Permutation} {i : Nat} (outside : p.size ≤ i) :
    p.permuteWith store i = .error (.thrown (.outOfRange "Permutation: element index out of range")) := by
  cases p <;> simp only [size] at outside <;>
    simp [permuteWith,IdentityPermutation.permute,AffinePermutation.permute,AffinePermutation.permute64,
      FeistelNumPermutation.permute,FeistelMixPermutation.permute,commonPermuteInputCheck,outside]

/-- For requested sizes below `2 ^ 60` and an exact square root, an `Init` that returns
    leaves an object that is a permutation of the numbers below its size, which is
    positive and at most the requested one. Neither `Init` nor `Permute` wraps: with registers
    that refuse a result of more than 64 bits they end the same way. -/
theorem init_correct (env : Environment) (p q : Permutation) (requestedSize : Nat) (key : List UInt8)
    (small : requestedSize < 2 ^ 60) (root : p.type = .feistelNum → sqrt32 requestedSize = requestedSize.sqrt)
    (returns : p.init env requestedSize key = (q,.ok ())) :
    0 < q.size ∧ q.size ≤ requestedSize ∧
      (∃ f, Permutes q.size f ∧ ∀ i < q.size, q.permute i = .ok (f i)) ∧
      (∀ i, q.size ≤ i → q.permute i = .error (.thrown (.outOfRange "Permutation: element index out of range"))) ∧
      p.initWith checked env requestedSize key = (q,.ok ()) ∧ ∀ i, q.permuteWith checked i = q.permute i := by
  obtain ⟨positive,least⟩ := init_size machine_exact small root returns
  have ready := init_ready machine_exact (by omega) positive (by omega) returns
  obtain ⟨f,permutes,values⟩ := ready.permutes
  refine ⟨positive,least,⟨f,permutes,values machine machine_exact⟩,fun i outside => permute_out_of_range outside,?_,?_⟩
  · rw [init_store checked_exact machine_exact env p key (by omega)]
    exact returns
  · intro i
    unfold permute
    by_cases inside : i < q.size
    · rw [values checked checked_exact i inside,values machine machine_exact i inside]
    · rw [permute_out_of_range (Nat.not_lt.mp inside),permute_out_of_range (Nat.not_lt.mp inside)]

/-- With digests of zeros and a key of 32 zeros, a new `FeistelNumPermutation` of 1024 has size 1024. -/
theorem init_correct_num :
    let env : Environment :=
      { keccak := fun _ => ⟨List.replicate 32 0,rfl⟩, millerRabin := fun _ _ => false, watched := 1 }
    let q := ((fresh .feistelNum).init env 1024 (List.replicate 32 0)).1
    q.size = 1024 ∧ ∃ f, Permutes q.size f ∧ ∀ i < q.size, q.permute i = .ok (f i) := by
  intro env q
  have root : sqrt32 1024 = Nat.sqrt 1024 := sqrt32_eq (by decide)
  have exactly : Nat.sqrt 1024 = 32 := by decide +kernel
  have returns : (fresh .feistelNum).init env 1024 (List.replicate 32 0) = (q,.ok ()) := by
    refine Prod.ext rfl ?_
    simp [fresh,init,initWith,FeistelNumPermutation.init,root,exactly,machine_of_lt]
  have size : q.size = 1024 := by
    simp [q,fresh,init,initWith,FeistelNumPermutation.init,root,exactly,machine_of_lt,Permutation.size]
  exact ⟨size,(init_correct env _ q 1024 _ (by decide) (fun _ => root) returns).2.2.1⟩

end StegoDisk.Permutation
