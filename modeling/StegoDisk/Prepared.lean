import StegoDisk.Packing
import StegoDisk.PermutationSizes
import StegoDisk.Shares

/-!
A carrier after `SetEncoder`, and its local permutation. What `Init` gives depends on the class,
the size and the key alone, so that a carrier opened again gets the permutation that
it was saved with; a carrier that has blocks has them below the size of the permutation.
-/
namespace StegoDisk

namespace Permutation
open StegoMath

variable {env : Environment} {requestedSize : Nat} {key : List UInt8}

theorem init_type (p : Permutation) : (p.init env requestedSize key).1.type = p.type := by
  cases p <;> rfl

/-- An `Init` that returns gives the same object whatever the object was before. -/
theorem init_of_type {p p' q : Permutation} (same : p.type = p'.type) (returns : p.init env requestedSize key = (q,.ok ())) :
    p'.init env requestedSize key = (q,.ok ()) := by
  cases p <;> cases p' <;> simp only [type,reduceCtorEq] at same
  case identity.identity p p' => exact initWith_identity.mpr (initWith_identity.mp returns)
  case affine.affine p p' => exact initWith_affine.mpr (initWith_affine.mp returns)
  case affine64.affine64 p p' => exact initWith_affine64.mpr (initWith_affine64.mp returns)
  case feistelNum.feistelNum p p' => exact initWith_feistelNum.mpr (initWith_feistelNum.mp returns)
  case feistelMix.feistelMix p p' => exact initWith_feistelMix.mpr (initWith_feistelMix.mp returns)

theorem getSizeUsingParams_type {p p' : Permutation} (same : p.type = p'.type) :
    p.getSizeUsingParams env requestedSize key = p'.getSizeUsingParams env requestedSize key := by
  cases p <;> cases p' <;> simp only [type,reduceCtorEq] at same <;> rfl

private theorem params_of_predicted {size : Nat} (predicted :
      AffinePermutation.getSizeUsingParams env requestedSize key = .ok size) (positive : 0 < size) :
    ¬ requestedSize > 0xFFFFFFFF ∧
      ∃ chosen, AffinePermutation.params machine env requestedSize key = .ok (some chosen) ∧ chosen.size = size := by
  unfold AffinePermutation.getSizeUsingParams at predicted
  split at predicted
  · simp only [Except.ok.injEq] at predicted
    omega
  · rename_i small
    obtain ⟨found,params,rest⟩ := bind_eq_ok.mp predicted
    refine ⟨small,?_⟩
    cases found with
    | none =>
      simp only [Option.map_none,Option.getD_none,Except.ok.injEq] at rest
      omega
    | some chosen => exact ⟨chosen,params,Except.ok.inj rest⟩

/-- A prediction that is not zero is what `Init` gives. -/
theorem init_of_predicted {p : Permutation} {size : Nat} (wide : key.length = 32)
    (predicted : p.getSizeUsingParams env requestedSize key = .ok size) (positive : 0 < size) :
    ∃ q, p.init env requestedSize key = (q,.ok ()) ∧ q.size = size := by
  have keyed : key.length ≠ 0 := by omega
  cases p with
  | identity p =>
    obtain rfl : requestedSize = size := Except.ok.inj predicted
    exact ⟨_,initWith_identity.mpr ⟨positive,rfl⟩,rfl⟩
  | affine p =>
    obtain ⟨small,chosen,params,rfl⟩ := params_of_predicted predicted positive
    exact ⟨_,initWith_affine.mpr ⟨by omega,chosen,params,rfl⟩,rfl⟩
  | affine64 p =>
    obtain ⟨_,chosen,params,rfl⟩ := params_of_predicted predicted positive
    exact ⟨_,initWith_affine64.mpr ⟨chosen,params,rfl⟩,rfl⟩
  | feistelNum p =>
    simp only [getSizeUsingParams,FeistelNumPermutation.getSizeUsingParams,Except.ok.injEq] at predicted
    split at predicted
    · omega
    · rename_i large
      exact ⟨_,initWith_feistelNum.mpr ⟨keyed,by omega,size,congrArg Except.ok predicted,rfl⟩,rfl⟩
  | feistelMix p =>
    simp only [getSizeUsingParams,FeistelMixPermutation.getSizeUsingParams,Except.ok.injEq] at predicted
    split at predicted
    · omega
    · rename_i large
      split at predicted
      · omega
      · rename_i eight
        exact ⟨_,initWith_feistelMix.mpr
          ⟨keyed,by omega,by omega,_,rfl,size,congrArg Except.ok predicted,rfl⟩,rfl⟩

/-- A size that can be addressed is at most the requested one. -/
theorem init_size_le {p q : Permutation} (small : requestedSize < 2 ^ 64) (bound : q.size < 2 ^ 52)
    (returns : p.init env requestedSize key = (q,.ok ())) : q.size ≤ requestedSize := by
  rcases Nat.lt_or_ge requestedSize (2 ^ 52) with exact | beyond
  · exact (init_size machine_exact (by omega) (fun _ => sqrt32_eq exact) returns).2
  · omega

end Permutation

namespace CarrierFile
open Permutation

/-- `Init` with the size and the subkey of the carrier gives `q`. -/
def Initializes (env : Environment) (file : CarrierFile) (q : Permutation) : Prop :=
  ∃ (key : Key) (p : Permutation), file.subkey = some key ∧ p.type = file.permutation.type ∧
    p.init env (word64 (file.rawCapacity * 8)) key.val = (q,.ok ())

theorem Initializes.unique {env : Environment} {file : CarrierFile} {q q' : Permutation}
    (first : file.Initializes env q) (second : file.Initializes env q') : q = q' := by
  obtain ⟨key,p,holds,type,returns⟩ := first
  obtain ⟨key',p',holds',type',returns'⟩ := second
  obtain rfl := Option.some.inj (holds.symm.trans holds')
  rw [init_of_type (type.trans type'.symm) returns] at returns'
  exact congrArg Prod.fst returns'

/-- A carrier after `SetEncoder`. -/
structure Prepared (env : Environment) (e : Encoder) (file : CarrierFile) : Prop where
  positive : 0 < file.rawCapacity
  encoder : file.encoder = some e
  dataBlockSize : file.dataBlockSize = e.dataBlockSize
  codewordBlockSize : file.codewordBlockSize = e.codewordBlockSize
  subkey : file.subkey.isSome
  sizes : ∃ size, file.predictedSize env = .ok size ∧
    file.blockCount = word32 (size / 8 / e.codewordBlockSize) ∧
    file.capacity = word32 (file.blockCount * e.dataBlockSize)
  settled : file.permutation.size = 0 ∨ file.Initializes env file.permutation

variable {env : Environment} {e : Encoder} {file file' : CarrierFile}

theorem Prepared.shaped (prepared : Prepared env e file) (narrow : e.dataBlockSize < 2 ^ 32) :
    CarrierFilesManager.Shaped file := by
  obtain ⟨size,_,count,capacity⟩ := prepared.sizes
  refine ⟨by rw [count]; exact word32_lt _,by rw [prepared.dataBlockSize]; exact narrow,?_⟩
  rw [capacity,prepared.dataBlockSize]
  exact Nat.mod_le _ _

/-- A carrier with blocks has them below the size that `Init` gives. -/
theorem Prepared.predicted (prepared : Prepared env e file) (blocks : 0 < file.blockCount) :
    ∃ q, file.Initializes env q ∧ file.blockCount * e.codewordBlockSize ≤ q.size / 8 := by
  obtain ⟨size,predicted,count,_⟩ := prepared.sizes
  obtain ⟨key,holds⟩ := Option.isSome_iff_exists.mp prepared.subkey
  have least : file.blockCount ≤ size / 8 / e.codewordBlockSize := by
    rw [count]
    exact Nat.mod_le _ _
  have large : size ≠ 0 := by
    rintro rfl
    simp at least
    omega
  rw [predictedSize,holds] at predicted
  obtain ⟨q,returns,rfl⟩ := init_of_predicted key.property predicted (Nat.pos_of_ne_zero large)
  exact ⟨q,⟨key,file.permutation,holds,rfl,returns⟩,
    (Nat.mul_le_mul_right _ least).trans (Nat.div_mul_le_self (q.size / 8) e.codewordBlockSize)⟩

theorem Prepared.blocks_le (prepared : Prepared env e file) {q : Permutation} (initializes : file.Initializes env q) :
    file.blockCount * e.codewordBlockSize ≤ q.size / 8 := by
  rcases Nat.eq_zero_or_pos file.blockCount with none_ | blocks
  · simp [none_]
  · obtain ⟨q',initializes',fits⟩ := prepared.predicted blocks
    rwa [initializes.unique initializes']

/-- `InitPermutation` assigns the permutation alone. -/
theorem initPermutation_eq (env : Environment) (file : CarrierFile) :
    ∃ q, (file.initPermutation env).1 = { file with permutation := q } := by
  unfold initPermutation
  split
  · split <;> exact ⟨_,rfl⟩
  · exact ⟨_,rfl⟩

theorem initPermutation_type (env : Environment) (file : CarrierFile) :
    (file.initPermutation env).1.permutation.type = file.permutation.type := by
  unfold initPermutation
  split
  · split
    · rfl
    · exact init_type _
  · rfl

theorem Prepared.initPermutation_ok (prepared : Prepared env e file) (blocks : 0 < file.blockCount) :
    (file.initPermutation env).2 = .ok () := by
  unfold initPermutation
  split
  · obtain ⟨q,⟨key,p,holds,type,returns⟩,_⟩ := prepared.predicted blocks
    rw [holds]
    simp only [init_of_type type returns]
  · rfl

/-- The permutation that `InitPermutation` leaves is the one that `Init` gives. -/
theorem initPermutation_initializes (subkey : file.subkey.isSome)
    (settled : file.permutation.size = 0 ∨ file.Initializes env file.permutation)
    (ran : file.initPermutation env = (file',.ok ())) :
    ∃ q, file' = { file with permutation := q } ∧ file.Initializes env q := by
  unfold initPermutation at ran
  split at ran
  · obtain ⟨key,holds⟩ := Option.isSome_iff_exists.mp subkey
    rw [holds] at ran
    obtain ⟨rfl,returns⟩ := Prod.mk.inj ran
    exact ⟨(file.permutation.init env (word64 (file.rawCapacity * 8)) key.val).1,by rw [holds],key,file.permutation,holds,
      rfl,Prod.ext rfl returns⟩
  · rename_i large
    obtain ⟨rfl,_⟩ := Prod.mk.inj ran
    exact ⟨_,rfl,settled.resolve_left large⟩

/-- An initialised local permutation has its place in the buffer, and the blocks theirs in it. -/
theorem Prepared.fills (prepared : Prepared env e file) (few : word64 (file.rawCapacity * 8) < 2 ^ 52)
    (ran : file.initPermutation env = (file',.ok ())) :
    ∃ q f, file' = { file with permutation := q } ∧ file.Initializes env q ∧ Fills q f file.rawCapacity ∧ 0 < q.size ∧
      q.size ≤ word64 (file.rawCapacity * 8) ∧ file.blockCount * e.codewordBlockSize ≤ q.size / 8 := by
  obtain ⟨q,rfl,initializes⟩ := initPermutation_initializes prepared.subkey prepared.settled ran
  obtain ⟨key,p,_,_,returns⟩ := id initializes
  obtain ⟨positive,least⟩ := init_size machine_exact (by omega) (fun _ => StegoMath.sqrt32_eq few) returns
  have kept : word64 (file.rawCapacity * 8) ≤ file.rawCapacity * 8 := Nat.mod_le _ _
  have ready := init_ready machine_exact (by omega) positive (by omega) returns
  obtain ⟨f,permutes,values⟩ := ready.permutes
  exact ⟨q,f,rfl,initializes,⟨permutes,values machine machine_exact,by omega⟩,positive,least,prepared.blocks_le initializes⟩

theorem setEncoder_eq (returns : file.setEncoder env e = (file',.ok ())) :
    file' = { file with
      encoder := some e, dataBlockSize := e.dataBlockSize, codewordBlockSize := e.codewordBlockSize,
      blockCount := file'.blockCount, capacity := file'.capacity } := by
  simp only [setEncoder] at returns
  split at returns
  · simp at returns
  · obtain ⟨rfl,_⟩ := Prod.mk.inj returns
    rfl

/-- `SetEncoder` prepares a carrier that has a subkey and changes its sizes alone. -/
theorem setEncoder_prepared (positive : 0 < file.rawCapacity) (subkey : file.subkey.isSome)
    (settled : file.permutation.size = 0 ∨ file.Initializes env file.permutation)
    (returns : file.setEncoder env e = (file',.ok ())) :
    Prepared env e file' ∧ file' = { file with
      encoder := some e, dataBlockSize := e.dataBlockSize, codewordBlockSize := e.codewordBlockSize,
      blockCount := file'.blockCount, capacity := file'.capacity } := by
  refine ⟨?_,setEncoder_eq returns⟩
  simp only [setEncoder] at returns
  split at returns
  · simp at returns
  · rename_i size predicted
    obtain ⟨rfl,_⟩ := Prod.mk.inj returns
    exact ⟨positive,rfl,rfl,rfl,subkey,⟨size,predicted,rfl,rfl⟩,settled⟩

/-! ### Calls -/

/-- `LoadFile` assigns the permutation, of the same class, and whether the file is loaded. -/
theorem loadFile_carrier (env : Environment) (file : CarrierFile) (image : Image) (s : VirtualStorage) :
    ∃ q loaded, (file.loadFile env image s).1.1 = { file with permutation := q, fileLoaded := loaded } ∧
      q.type = file.permutation.type := by
  have same := file.initPermutation_type env
  obtain ⟨q,assigned⟩ := initPermutation_eq env file
  rw [assigned] at same
  unfold loadFile
  split
  · exact ⟨file.permutation,file.fileLoaded,rfl,rfl⟩
  cases file.openImage image with
  | error failure => exact ⟨file.permutation,file.fileLoaded,rfl,rfl⟩
  | ok _ =>
    rcases ran : file.initPermutation env with ⟨ready,failure | _⟩
    · rw [ran] at assigned
      exact ⟨q,file.fileLoaded,assigned,same⟩
    rw [ran] at assigned
    obtain rfl : ready = { file with permutation := q } := assigned
    dsimp only
    split
    · exact ⟨q,file.fileLoaded,rfl,same⟩
    split
    · exact ⟨q,file.fileLoaded,rfl,same⟩
    split
    · exact ⟨q,file.fileLoaded,rfl,same⟩
    · exact ⟨q,true,rfl,same⟩

/-- `SaveFile` assigns the permutation alone. -/
theorem saveFile_carrier (env : Environment) (file : CarrierFile) (image : Image) (s : VirtualStorage) :
    ∃ q, (file.saveFile env image s).1 = { file with permutation := q } := by
  obtain ⟨q,assigned⟩ := initPermutation_eq env file
  unfold saveFile
  split
  · exact ⟨file.permutation,rfl⟩
  cases file.openImage image with
  | error failure => exact ⟨file.permutation,rfl⟩
  | ok _ =>
    rcases ran : file.initPermutation env with ⟨ready,failure | _⟩
    · rw [ran] at assigned
      exact ⟨q,assigned⟩
    · rw [ran] at assigned
      exact ⟨q,assigned⟩

/-- A `SaveFile` that returned has unpacked, embedded and packed the image. -/
theorem saveFile_inv {image image' : Image} {s : VirtualStorage} (saved : file.saveFile env image s = (file',.ok image')) :
    ∃ q buffer after, file' = { file with permutation := q } ∧ file'.unpack (word32 file'.permutation.size) image = .ok buffer ∧
      file'.embedBufferUsingEncoder buffer s = .ok after ∧ file'.pack after image = .ok image' := by
  unfold saveFile at saved
  split at saved
  · cases saved
  split at saved
  · cases saved
  obtain ⟨q,same⟩ := initPermutation_eq env file
  rcases ran : file.initPermutation env with ⟨ready,failure | _⟩
  · simp [ran] at saved
  rw [ran] at saved same
  obtain ⟨rfl,written⟩ := Prod.mk.inj saved
  obtain ⟨buffer,unpacked,rest⟩ := bind_eq_ok.mp written
  obtain ⟨after,embedded,packed⟩ := bind_eq_ok.mp rest
  exact ⟨q,buffer,after,same,unpacked,embedded,packed⟩

end CarrierFile
end StegoDisk
