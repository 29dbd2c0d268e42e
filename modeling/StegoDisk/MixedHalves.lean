import StegoDisk.PermutationCorrect
import StegoDisk.PermutationSizes

/-!
The two halves of `FeistelMixPermutation`. `Init` reduces every hash value modulo the
number of right halves and `Permute` shifts the entry right by the bits of a right half
before it adds it to the left half, so it adds 0: whatever the hash values are, only
the right half changes.
-/
namespace StegoDisk.FeistelMixPermutation
open StegoMath Feistel Permutation

/-- The object with the tables that `Init` would make of other hash values. -/
def draw (p : FeistelMixPermutation) (outputs : Nat → Nat → Nat) : FeistelMixPermutation :=
  { p with hashTables := tablesOf outputs (word32 (p.rightMask + 1)) }

/-- Some 32-bit hash values send the index to the left half. -/
def Reaches (p : FeistelMixPermutation) (index left : Nat) : Prop :=
  ∃ outputs : Nat → Nat → Nat, (∀ t i, outputs t i < 2 ^ 32) ∧
    ∃ permuted, (p.draw outputs).permute machine index = .ok permuted ∧ permuted / 2 ^ p.rightBits = left

/-- What `Init` leaves depends on the hash values only in the tables. -/
theorem init_draw {env : Environment} {p q : FeistelMixPermutation} {requestedSize : Nat} {key : List UInt8}
    (returns : init machine env p requestedSize key = (q,.ok ())) : q = q.draw (hashValue env key) := by
  unfold init machine at returns
  split_ifs at returns
  all_goals simp only [Prod.mk.injEq,reduceCtorEq,and_false,and_true] at returns
  rw [← returns]
  rfl

theorem Ready.draw {p : FeistelMixPermutation} (ready : (feistelMix p).Ready) (outputs : Nat → Nat → Nat) :
    (feistelMix (p.draw outputs)).Ready := by
  obtain ⟨initialized,positive,leftLe,rightLe,mask,size,_⟩ := ready
  refine ⟨initialized,positive,leftLe,rightLe,mask,size,?_⟩
  have one : 0 < 2 ^ p.rightBits := Nat.pow_pos (by decide)
  have few : 2 ^ p.rightBits ≤ 2 ^ 31 := Nat.pow_le_pow_right (by decide) rightLe
  have entries : word32 (p.rightMask + 1) = 2 ^ p.rightBits := by
    rw [mask,Nat.sub_add_cancel one]
    exact Nat.mod_eq_of_lt (by omega)
  simp only [FeistelMixPermutation.draw,entries]
  exact tablesOf_ok outputs one

/-- No round changes the left half. -/
theorem round_left {p : FeistelMixPermutation} (ready : (feistelMix p).Ready) {r : Nat} (inFive : r < 5)
    {halves : Nat × Nat} (inside : halves ∈ Halves p.leftMod (2 ^ p.rightBits)) :
    ((mixRound p r).apply halves).1 = halves.1 := by
  obtain ⟨left,right⟩ := inside
  obtain ⟨_,_,_,_,_,_,complete⟩ := ready
  unfold Round.apply mixRound
  by_cases odd : r % 2 = 1
  · simp only [odd,decide_true,if_true]
  · have below := (entryOf_spec complete inFive right).2
    simp only [odd,decide_false,Bool.false_eq_true,if_false,Nat.div_eq_of_lt below,Nat.add_zero,Nat.mod_eq_of_lt left]

theorem network_left {p : FeistelMixPermutation} (ready : (feistelMix p).Ready) {indices : List Nat}
    (inFive : ∀ r ∈ indices, r < 5) {halves : Nat × Nat} (inside : halves ∈ Halves p.leftMod (2 ^ p.rightBits)) :
    (network (indices.map (mixRound p)) halves).1 = halves.1 := by
  induction indices generalizing halves with
  | nil => rfl
  | cons r rest ih =>
    have after := (Round.bijOn (mixRound_sound ready.2.2.2.2.1 r)).mapsTo inside
    have first := round_left ready (inFive r List.mem_cons_self) inside
    exact (ih (fun r member => inFive r (List.mem_cons_of_mem _ member)) after).trans first

/-- `Permute` keeps the left half. -/
theorem permute_left {p : FeistelMixPermutation} (ready : (feistelMix p).Ready) {index : Nat} (inside : index < p.size) :
    ∃ permuted, p.permute machine index = .ok permuted ∧ permuted / 2 ^ p.rightBits = index / 2 ^ p.rightBits := by
  refine ⟨_,mixPermute_eq machine_exact ready inside,?_⟩
  have positive : 0 < 2 ^ p.rightBits := Nat.pow_pos (by decide)
  have sound : ∀ round ∈ (List.range 5).map (mixRound p), round.Sound p.leftMod (2 ^ p.rightBits) := by
    simp only [List.mem_map]
    rintro _ ⟨r,_,rfl⟩
    exact mixRound_sound ready.2.2.2.2.1 r
  have start : (index / 2 ^ p.rightBits,index % 2 ^ p.rightBits) ∈ Halves p.leftMod (2 ^ p.rightBits) := by
    have whole := ready.2.2.2.2.2.1
    exact (split_bijOn positive).mapsTo (show index < _ by omega)
  obtain ⟨_,right⟩ := network_halves sound start
  have left := network_left ready (fun r member => List.mem_range.mp member) start
  rw [left,Nat.mul_comm,Nat.mul_add_div positive,Nat.div_eq_of_lt right,Nat.add_zero]

theorem reaches_iff {env : Environment} {p q : FeistelMixPermutation} {requestedSize : Nat} {key : List UInt8}
    (small : requestedSize < 2 ^ 32) (returns : init machine env p requestedSize key = (q,.ok ())) {index : Nat}
    (inside : index < q.size) (left : Nat) : q.Reaches index left ↔ left = index / 2 ^ q.rightBits := by
  have wrapped : (feistelMix p).initWith machine env requestedSize key = (feistelMix q,.ok ()) := by
    simp only [initWith,returns,Prod.map,id]
  obtain ⟨positive,least⟩ := init_size machine_exact (by omega) (by simp [Permutation.type]) wrapped
  have ready := init_ready machine_exact (by omega) positive (by omega) wrapped
  constructor
  · rintro ⟨outputs,_,permuted,ran,rfl⟩
    obtain ⟨image,ran',kept⟩ := permute_left (Ready.draw ready outputs) (show index < (q.draw outputs).size from inside)
    obtain rfl := Except.ok.inj (ran.symm.trans ran')
    exact kept
  · rintro rfl
    obtain ⟨permuted,ran,kept⟩ := permute_left (Ready.draw ready fun _ _ => 0)
      (show index < (q.draw fun _ _ => 0).size from inside)
    exact ⟨fun _ _ => 0,fun _ _ => by simp,permuted,ran,kept⟩

/-- For sizes from 1024 up to the 32-bit limit `Init` returns. -/
theorem init_returns (env : Environment) (p : FeistelMixPermutation) {requestedSize : Nat} {key : List UInt8}
    (large : 1024 ≤ requestedSize) (small : requestedSize < 2 ^ 32) (keyed : key ≠ []) :
    ∃ q, init machine env p requestedSize key = (q,.ok ()) := by
  have bits := log2_eq (show 0 < requestedSize by omega) (by omega)
  have ten : 10 ≤ requestedSize.log2 := (Nat.le_log2 (by omega)).mpr large
  unfold init machine
  rw [if_neg (by simpa using keyed),if_neg (by omega),if_neg (by omega)]
  exact ⟨_,rfl⟩

/-- Hash values that send an index to a left half exist exactly when it is the left half of
    the index already. -/
theorem mixes_iff (env : Environment) (p : FeistelMixPermutation) {requestedSize : Nat} {key : List UInt8}
    (large : 1024 ≤ requestedSize) (small : requestedSize < 2 ^ 32) (keyed : key ≠ []) :
    ∃ q, init machine env p requestedSize key = (q,.ok ()) ∧ q = q.draw (hashValue env key) ∧
      ∀ index < q.size, ∀ left < q.leftMod, (q.Reaches index left ↔ left = index / 2 ^ q.rightBits) := by
  obtain ⟨q,returns⟩ := init_returns env p large small keyed
  exact ⟨q,returns,init_draw returns,fun index inside left _ => reaches_iff small returns inside left⟩

/-- Hash values of zeros. -/
abbrev zeroHashes : Environment :=
  { keccak := twoPrimes.keccak, millerRabin := fun _ _ => false, watched := 1 }

theorem mixes_iff_1024 : ∃ q, init machine zeroHashes {} 1024 (List.replicate 32 0) = (q,.ok ()) ∧
    q = q.draw (hashValue zeroHashes (List.replicate 32 0)) ∧
    ∀ index < q.size, ∀ left < q.leftMod, (q.Reaches index left ↔ left = index / 2 ^ q.rightBits) :=
  mixes_iff zeroHashes {} (by decide) (by decide) (by decide)

/-- In the permutation of 1024 elements index 0 never gets to the left half 1. -/
theorem not_reaches : ∃ q, init machine zeroHashes {} 1024 (List.replicate 32 0) = (q,.ok ()) ∧
    0 < q.size ∧ 1 < q.leftMod ∧ ¬ q.Reaches 0 1 := by
  obtain ⟨q,returns⟩ := init_returns zeroHashes {} (show 1024 ≤ 1024 by decide) (by decide)
    (show List.replicate 32 (0 : UInt8) ≠ [] by decide)
  have halves : q.size = 1024 ∧ q.leftMod = 16 := by
    have bits := log2_eq (show 0 < 1024 by decide) (by decide)
    have ten : Nat.log2 1024 = 10 := by decide
    unfold init at returns
    simp [bits,ten] at returns
    rw [← returns]
    exact ⟨rfl,rfl⟩
  refine ⟨q,returns,by omega,by omega,?_⟩
  rw [reaches_iff (by decide) returns (by omega) 1]
  simp

end StegoDisk.FeistelMixPermutation
