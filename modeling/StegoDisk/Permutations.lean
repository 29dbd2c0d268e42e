import StegoDisk.Hash
import StegoDisk.StegoMath

/-!
The five classes of `permutations/`. `init` gives the object after the call
together with how the call ended, since an `Init` that throws has often changed
some members already. Every intermediate 64-bit result goes through a register
(`Store`); the program itself is the instance `machine`.
-/
namespace StegoDisk
open StegoMath

/-- `PermutationFactory::PermutationType`. -/
inductive PermutationType
  | identity
  | affine
  | affine64
  | feistelNum
  | feistelMix
  deriving DecidableEq

/-- What the permutations are computed from besides size and key: the digest
    function, the answers of the primality test, and how many rounds the affine
    search is watched before it counts as endless. -/
structure Environment where
  keccak : Keccak
  millerRabin : PrimalityTest
  watched : Nat

/-- `Permutation::CommonPermuteInputCheck`. The `InvalidState` for an object that
    is not initialised is constructed there but not thrown. -/
def commonPermuteInputCheck (size index : Nat) : Except Failure Unit :=
  if index ≥ size then .error (.thrown (.outOfRange "Permutation: element index out of range")) else .ok ()

/-! ### Identity -/

structure IdentityPermutation where
  size : Nat := 0
  initialized : Bool := false

namespace IdentityPermutation

/-- `IdentityPermutation::Init`. -/
def init (p : IdentityPermutation) (requestedSize : Nat) : IdentityPermutation × Except Failure Unit :=
  if requestedSize = 0 then (p,.error (.thrown (.emptyArgument "requested_size")))
  else ({ size := requestedSize, initialized := true },.ok ())

/-- `IdentityPermutation::Permute`. -/
def permute (p : IdentityPermutation) (index : Nat) : Except Failure Nat := do
  commonPermuteInputCheck p.size index
  .ok index

/-- `IdentityPermutation::GetSizeUsingParams`. -/
def getSizeUsingParams (requestedSize : Nat) : Nat := requestedSize

end IdentityPermutation

/-! ### Affine -/

/-- The members of `AffinePermutation` and of `Affine64Permutation`, which derives from it. -/
structure AffinePermutation where
  size : Nat := 0
  initialized : Bool := false
  keyParamA : Nat := 0
  keyParamB : Nat := 0

/-- What the search for parameters writes to the members. -/
structure AffineParams where
  size : Nat
  a : Nat
  b : Nat

namespace AffinePermutation

/-- The xor of the 64-bit words of a key from byte `first` to byte `last`. -/
def xorWords (key : List UInt8) (first last : Nat) : Nat :=
  ((List.range ((last - first) / 8)).map fun i => littleEndian key (first + 8 * i) 8).foldl (· ^^^ ·) 0

/-- The loop of `GetSizeUsingParams(requested_size, key, overwrite_members)`, watched
    for a number of rounds. -/
def search (store : Store) (env : Environment) (key : List UInt8) :
    Nat → Nat → Nat → Except Failure (Option AffineParams)
  | 0,_,_ => .error .endless
  | rounds+1,asked,number => do
    let found := closestSmallerPrime env.millerRabin asked number
    let prime := found.1
    if prime < 1 then .ok none
    else if key.length < 8 then
      .error (.thrown (.invalidArgument "AffinePermutation: key must be longer than 8 bytes"))
    else if key.length % 16 ≠ 0 then
      .error (.thrown (.invalidArgument "AffinePermutation: wrong key length! should be nonzero multiple of 16"))
    else
      let a ← store (xorWords key 0 (key.length / 2) % (prime / 2) + prime / 2)
      let b ← store (xorWords key (key.length / 2) key.length % (prime / 2) + prime / 2)
      if StegoMath.gcd a prime = 1 then .ok (some ⟨prime,a,b⟩)
      else search store env key rounds found.2 prime

/-- `AffinePermutation::GetSizeUsingParams(requested_size, key, overwrite_members)`. -/
def params (store : Store) (env : Environment) (requestedSize : Nat) (key : List UInt8) :
    Except Failure (Option AffineParams) :=
  if key.length = 0 then .error (.thrown (.emptyArgument "key"))
  else search store env key (env.watched + 1) 0 requestedSize

/-- `AffinePermutation::GetSizeUsingParams(requested_size, key)`, which
    `Affine64Permutation` inherits. -/
def getSizeUsingParams (env : Environment) (requestedSize : Nat) (key : List UInt8) : Except Failure Nat :=
  if requestedSize > 0xFFFFFFFF then .ok 0
  else do
    let found ← params machine env requestedSize key
    .ok ((found.map AffineParams.size).getD 0)

/-- The object after the search has overwritten its members, or has not. -/
def adopt (p : AffinePermutation) (found : Except Failure (Option AffineParams)) (refusal : Exception) :
    AffinePermutation × Except Failure Unit :=
  match found with
  | .ok (some chosen) =>
    ({ size := chosen.size, initialized := true, keyParamA := chosen.a, keyParamB := chosen.b },.ok ())
  | .ok none => ({ p with initialized := false },.error (.thrown refusal))
  | .error failure => ({ p with initialized := false },.error failure)

/-- `AffinePermutation::Init`. -/
def init (store : Store) (env : Environment) (p : AffinePermutation) (requestedSize : Nat) (key : List UInt8) :
    AffinePermutation × Except Failure Unit :=
  if requestedSize > 0xFFFFFFFF then
    (p,.error (.thrown (.invalidArgument "AffinePermutation: max requested size is (2^32)-1")))
  else adopt p (params store env requestedSize key) (.runtimeError "AffinePermutation: requested size is too small")

/-- `Affine64Permutation::Init`. -/
def init64 (store : Store) (env : Environment) (p : AffinePermutation) (requestedSize : Nat) (key : List UInt8) :
    AffinePermutation × Except Failure Unit :=
  adopt p (params store env requestedSize key) (.invalidArgument "Affine64Permutation: requested size is too small")

/-- `AffinePermutation::Permute`. -/
def permute (store : Store) (p : AffinePermutation) (index : Nat) : Except Failure Nat := do
  commonPermuteInputCheck p.size index
  let product ← store (index * p.keyParamA)
  let sum ← store (product % p.size + p.keyParamB)
  .ok (sum % p.size)

/-- `Affine64Permutation::Permute`. -/
def permute64 (store : Store) (p : AffinePermutation) (index : Nat) : Except Failure Nat := do
  commonPermuteInputCheck p.size index
  let product ← mulmod store index p.keyParamA p.size
  let sum ← store (product + p.keyParamB)
  .ok (sum % p.size)

end AffinePermutation

/-! ### Feistel -/

/-- The 32-bit hash value of entry `i` of table `t`. -/
def hashValue (env : Environment) (key : List UInt8) (t i : Nat) : Nat :=
  let state := Hash.append env.keccak (Hash.append env.keccak (Hash.process env.keccak key) (uint32Bytes i))
    (uint32Bytes t)
  littleEndian state.val 0 4

/-- The hash tables of `Init`: five tables of `maxHash` values below `maxHash`. -/
def hashTables (env : Environment) (key : List UInt8) (maxHash : Nat) : List (List Nat) :=
  (List.range 5).map fun t => (List.range maxHash).map fun i => hashValue env key t i % maxHash

/-- `hash_tables_[r][i]`, without a bound check. -/
def tableEntry (tables : List (List Nat)) (r i : Nat) : Except Failure Nat :=
  match tables[r]? with
  | none => .error .undefined
  | some table =>
    match table[i]? with
    | none => .error .undefined
    | some value => .ok value

structure FeistelNumPermutation where
  size : Nat := 0
  initialized : Bool := false
  hashTables : List (List Nat) := []
  modulus : Nat := 0

namespace FeistelNumPermutation

/-- `FeistelNumPermutation::Init`. -/
def init (store : Store) (env : Environment) (p : FeistelNumPermutation) (requestedSize : Nat) (key : List UInt8) :
    FeistelNumPermutation × Except Failure Unit :=
  if key.length = 0 then (p,.error (.thrown (.emptyArgument "key")))
  else if requestedSize < 1024 then
    (p,.error (.thrown (.invalidArgument "FeistelNumPermutation: requestedSize < FNP_MIN_REQ_SIZE")))
  else
    let modulus := sqrt32 requestedSize
    match store (modulus * modulus) with
    | .error failure => ({ p with initialized := false, modulus := modulus },.error failure)
    | .ok size =>
      ({ size := size, initialized := true, hashTables := StegoDisk.hashTables env key modulus, modulus := modulus },
        .ok ())

/-- Round `r` of `Permute`. -/
def round (store : Store) (p : FeistelNumPermutation) (halves : Nat × Nat) (r : Nat) : Except Failure (Nat × Nat) :=
  if r % 2 = 1 then do
    let entry ← tableEntry p.hashTables r halves.1
    let sum ← store (halves.2 + entry)
    .ok (halves.1,sum % p.modulus)
  else do
    let entry ← tableEntry p.hashTables r halves.2
    let sum ← store (halves.1 + entry)
    .ok (sum % p.modulus,halves.2)

/-- `FeistelNumPermutation::Permute`. -/
def permute (store : Store) (p : FeistelNumPermutation) (index : Nat) : Except Failure Nat := do
  commonPermuteInputCheck p.size index
  let halves ← (List.range 5).foldlM (round store p) (index / p.modulus,index % p.modulus)
  let high ← store (halves.1 * p.modulus)
  let permuted ← store (high + halves.2)
  if permuted ≥ p.size then .error (.thrown .permutationFailed) else .ok permuted

/-- `FeistelNumPermutation::GetSizeUsingParams`. -/
def getSizeUsingParams (requestedSize : Nat) : Nat :=
  if requestedSize < 1024 then 0 else word64 (sqrt32 requestedSize * sqrt32 requestedSize)

end FeistelNumPermutation

structure FeistelMixPermutation where
  size : Nat := 0
  initialized : Bool := false
  hashTables : List (List Nat) := []
  leftBits : Nat := 0
  leftMod : Nat := 0
  rightMask : Nat := 0
  rightBits : Nat := 0

namespace FeistelMixPermutation

/-- `FeistelMixPermutation::Init`. The mask is computed in 32-bit integers, where the
    machine takes the shift count modulo 32. -/
def init (store : Store) (env : Environment) (p : FeistelMixPermutation) (requestedSize : Nat) (key : List UInt8) :
    FeistelMixPermutation × Except Failure Unit :=
  if key.length = 0 then (p,.error (.thrown (.emptyArgument "key")))
  else if requestedSize < 1024 then
    (p,.error (.thrown (.invalidArgument "FeistelMixPermutation: requested_size < FMP_MIN_REQ_SIZE (=1024)")))
  else if log2 requestedSize < 8 then
    (p,.error (.thrown (.invalidArgument "FeistelMixPermutation: requested size is too small")))
  else
    let leftBits := log2 requestedSize / 2
    let rightBits := log2 requestedSize - leftBits
    let leftMod := requestedSize / 2 ^ rightBits
    let rightMask := 2 ^ (rightBits % 32) - 1
    match store (leftMod * 2 ^ rightBits) with
    | .error failure => ({ p with initialized := false },.error failure)
    | .ok size =>
      ({ size := size, initialized := true, hashTables := StegoDisk.hashTables env key (word32 (rightMask + 1)),
         leftBits := leftBits, leftMod := leftMod, rightMask := rightMask, rightBits := rightBits },.ok ())

/-- Round `r` of `Permute`. -/
def round (store : Store) (p : FeistelMixPermutation) (halves : Nat × Nat) (r : Nat) : Except Failure (Nat × Nat) :=
  if r % 2 = 1 then do
    let entry ← tableEntry p.hashTables r halves.1
    .ok (halves.1,halves.2 ^^^ (entry &&& p.rightMask))
  else do
    let entry ← tableEntry p.hashTables r halves.2
    let sum ← store (halves.1 + entry / 2 ^ p.rightBits)
    .ok (sum % p.leftMod,halves.2)

/-- `FeistelMixPermutation::Permute`. -/
def permute (store : Store) (p : FeistelMixPermutation) (index : Nat) : Except Failure Nat := do
  commonPermuteInputCheck p.size index
  let halves ← (List.range 5).foldlM (round store p) (index / 2 ^ p.rightBits,index &&& p.rightMask)
  let high ← store (halves.1 * 2 ^ p.rightBits)
  let permuted ← store (high + halves.2)
  if permuted ≥ p.size then .error (.thrown .permutationFailed) else .ok permuted

/-- `FeistelMixPermutation::GetSizeUsingParams`. -/
def getSizeUsingParams (requestedSize : Nat) : Nat :=
  if requestedSize < 1024 then 0
  else if log2 requestedSize < 8 then 0
  else
    let rightBits := log2 requestedSize - log2 requestedSize / 2
    word64 (requestedSize / 2 ^ rightBits * 2 ^ rightBits)

end FeistelMixPermutation

/-! ### The interface -/

/-- A permutation object of one of the classes. -/
inductive Permutation
  | identity (p : IdentityPermutation)
  | affine (p : AffinePermutation)
  | affine64 (p : AffinePermutation)
  | feistelNum (p : FeistelNumPermutation)
  | feistelMix (p : FeistelMixPermutation)

namespace Permutation

/-- `PermutationFactory::GetPermutation`: a new object of the class. -/
def fresh : PermutationType → Permutation
  | .identity => .identity {}
  | .affine => .affine {}
  | .affine64 => .affine64 {}
  | .feistelNum => .feistelNum {}
  | .feistelMix => .feistelMix {}

/-- The class of an object. -/
def type : Permutation → PermutationType
  | .identity _ => .identity
  | .affine _ => .affine
  | .affine64 _ => .affine64
  | .feistelNum _ => .feistelNum
  | .feistelMix _ => .feistelMix

/-- `Permutation::GetNameInstance`. -/
def name : Permutation → String
  | .identity _ => "Identity"
  | .affine _ => "Affine"
  | .affine64 _ => "Affine64"
  | .feistelNum _ => "NumericFeistel"
  | .feistelMix _ => "MixedFeistel"

/-- `Permutation::GetSize`. -/
def size : Permutation → Nat
  | .identity p => p.size
  | .affine p => p.size
  | .affine64 p => p.size
  | .feistelNum p => p.size
  | .feistelMix p => p.size

/-- `Permutation::IsInitialized`. -/
def initialized : Permutation → Bool
  | .identity p => p.initialized
  | .affine p => p.initialized
  | .affine64 p => p.initialized
  | .feistelNum p => p.initialized
  | .feistelMix p => p.initialized

/-- `Permutation::Init`. -/
def initWith (store : Store) (env : Environment) (p : Permutation) (requestedSize : Nat) (key : List UInt8) :
    Permutation × Except Failure Unit :=
  match p with
  | .identity p => Prod.map .identity id (p.init requestedSize)
  | .affine p => Prod.map .affine id (p.init store env requestedSize key)
  | .affine64 p => Prod.map .affine64 id (p.init64 store env requestedSize key)
  | .feistelNum p => Prod.map .feistelNum id (p.init store env requestedSize key)
  | .feistelMix p => Prod.map .feistelMix id (p.init store env requestedSize key)

/-- `Permutation::Permute`. -/
def permuteWith (store : Store) (p : Permutation) (index : Nat) : Except Failure Nat :=
  match p with
  | .identity p => p.permute index
  | .affine p => p.permute store index
  | .affine64 p => p.permute64 store index
  | .feistelNum p => p.permute store index
  | .feistelMix p => p.permute store index

/-- `Init` as the machine computes it. -/
def init (env : Environment) (p : Permutation) (requestedSize : Nat) (key : List UInt8) :
    Permutation × Except Failure Unit :=
  p.initWith machine env requestedSize key

/-- `Permute` as the machine computes it. -/
def permute (p : Permutation) (index : Nat) : Except Failure Nat := p.permuteWith machine index

/-- `Permutation::GetSizeUsingParams`. -/
def getSizeUsingParams (env : Environment) (p : Permutation) (requestedSize : Nat) (key : List UInt8) :
    Except Failure Nat :=
  match p with
  | .identity _ => .ok (IdentityPermutation.getSizeUsingParams requestedSize)
  | .affine _ => AffinePermutation.getSizeUsingParams env requestedSize key
  | .affine64 _ => AffinePermutation.getSizeUsingParams env requestedSize key
  | .feistelNum _ => .ok (FeistelNumPermutation.getSizeUsingParams requestedSize)
  | .feistelMix _ => .ok (FeistelMixPermutation.getSizeUsingParams requestedSize)

@[simp] theorem type_fresh (t : PermutationType) : (fresh t).type = t := by cases t <;> rfl
@[simp] theorem size_fresh (t : PermutationType) : (fresh t).size = 0 := by cases t <;> rfl
@[simp] theorem initialized_fresh (t : PermutationType) : (fresh t).initialized = false := by cases t <;> rfl

end Permutation
end StegoDisk
