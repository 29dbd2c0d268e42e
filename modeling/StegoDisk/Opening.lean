import StegoDisk.Prepared

/-!
What `LoadDirectory` and `ApplyEncoder` leave depends on the files, the password and the
configuration alone: opening the same files again gives carriers with the same keys, sizes
and shares.
-/
namespace StegoDisk
open Segments

namespace CarrierFile

/-- The carrier as `CreateCarrierFile` made it. -/
def blank (c : CarrierFile) : CarrierFile :=
  { file := c.file, rawCapacity := c.rawCapacity, permutation := .fresh c.permutation.type }

/-- The carrier without what a load leaves in it. -/
def sized (c : CarrierFile) : CarrierFile :=
  { c with permutation := .fresh c.permutation.type, fileLoaded := false, virtualStorage := none, blocksUsed := 0,
           virtualStorageOffset := 0 }

/-- The carrier and its share, without what reading it leaves in it. -/
def plan (c : CarrierFile) : CarrierFile :=
  { c with permutation := .fresh c.permutation.type, fileLoaded := false, virtualStorage := none }

/-- The carrier with a subkey and after `SetEncoder`. -/
def encode (env : Environment) (e : Encoder) (key : Key) (c : CarrierFile) : CarrierFile × Except Failure Unit :=
  { c with subkey := some key }.setEncoder env e

variable {env : Environment} {e : Encoder} {key : Key} {c : CarrierFile}

theorem sized_capacity (c : CarrierFile) : c.sized.capacity = c.capacity := rfl

private theorem predictedSize_blank (c : CarrierFile) :
    { c with encoder := some e, dataBlockSize := e.dataBlockSize, codewordBlockSize := e.codewordBlockSize,
             subkey := some key }.predictedSize env =
      { c.blank with encoder := some e, dataBlockSize := e.dataBlockSize, codewordBlockSize := e.codewordBlockSize,
                     subkey := some key }.predictedSize env := by
  simp only [predictedSize,blank]
  exact Permutation.getSizeUsingParams_type (by simp)

/-- `SetEncoder` sees of a carrier what was there when it was created. -/
theorem encode_blank (env : Environment) (e : Encoder) (key : Key) (c : CarrierFile) :
    (c.encode env e key).2 = (c.blank.encode env e key).2 ∧
      ((c.encode env e key).2 = .ok () → (c.encode env e key).1.sized = (c.blank.encode env e key).1) := by
  have same := @predictedSize_blank env e key c
  simp only [encode,setEncoder]
  simp only [same]
  rcases CarrierFile.predictedSize env _ with failure | size
  · simp
  · refine ⟨rfl,fun _ => ?_⟩
    simp [sized,blank]

theorem plan_addToVirtualStorage (c : CarrierFile) (ref ref' o used : Nat) :
    (c.addToVirtualStorage ref o used).plan = (c.sized.addToVirtualStorage ref' o used).plan := by
  simp [plan,sized,addToVirtualStorage]

end CarrierFile

namespace CarrierFilesManager

variable {env : Environment} {e : Encoder}

/-- The carriers after `SetEncoder`, with their subkeys. -/
def encodeAll (env : Environment) (e : Encoder) (key : Key) (files : List CarrierFile) : List CarrierFile :=
  files.mapIdx fun i c => (c.encode env e (subkey env key i c)).1

/-- `SetEncoder` returns for all carriers. -/
def Encodable (env : Environment) (e : Encoder) (key : Key) (files : List CarrierFile) : Prop :=
  ∀ (i : Nat) (c : CarrierFile), files[i]? = some c → (c.encode env e (subkey env key i c)).2 = .ok ()

/-- The master key of some carriers. -/
def masterKeyOf (env : Environment) (passwordHash : Digest) (files : List CarrierFile) : Key :=
  files.foldl (fun state file => Hash.append env.keccak state (file.permKey env).val)
    (Hash.process env.keccak passwordHash.val)

theorem masterKeyOf_blank (passwordHash : Digest) (files : List CarrierFile) :
    masterKeyOf env passwordHash (files.map CarrierFile.blank) = masterKeyOf env passwordHash files := by
  rw [masterKeyOf,List.foldl_map]
  rfl

theorem encodable_blank {key : Key} {files : List CarrierFile} :
    Encodable env e key (files.map CarrierFile.blank) ↔ Encodable env e key files := by
  constructor
  · intro all i c here
    rw [(CarrierFile.encode_blank env e _ c).1]
    exact all i c.blank (by rw [List.getElem?_map,here]; rfl)
  · intro all i c here
    rw [List.getElem?_map] at here
    obtain ⟨original,there,rfl⟩ := Option.map_eq_some_iff.mp here
    rw [← all i original there]
    exact ((CarrierFile.encode_blank env e _ original).1).symm

theorem encodeAll_sized {key : Key} {files : List CarrierFile} (all : Encodable env e key files) :
    (encodeAll env e key files).map CarrierFile.sized = encodeAll env e key (files.map CarrierFile.blank) := by
  apply List.ext_getElem?
  intro i
  simp only [encodeAll,List.getElem?_map,List.getElem?_mapIdx]
  cases here : files[i]? with
  | none => rfl
  | some c => exact congrArg some ((CarrierFile.encode_blank env e _ c).2 (all i c here))

/-- The shares are decided by the sizes. -/
theorem assignShares_plan (files : List CarrierFile) (ref ref' n : Nat) :
    (assignShares files ref n).map CarrierFile.plan =
      (assignShares (files.map CarrierFile.sized) ref' n).map CarrierFile.plan := by
  have offsets : ∀ k, offset (files.map CarrierFile.sized) k = offset files k := by
    intro k
    simp only [offset,List.map_map]
    rfl
  apply List.ext_getElem?
  intro k
  simp only [List.getElem?_map,assignShares_get,offsets]
  cases files[k]? with
  | none => rfl
  | some c =>
    refine congrArg some ?_
    rw [CarrierFile.plan_addToVirtualStorage c ref ref']
    simp only [bytesUsed,offsets]
    rfl

/-- Carriers that were created alike get the same sizes and shares. -/
theorem encodeAll_plan {key : Key} {files files' : List CarrierFile}
    (same : files.map CarrierFile.blank = files'.map CarrierFile.blank) (all : Encodable env e key files)
    (all' : Encodable env e key files') (ref ref' n : Nat) :
    (encodeAll env e key files).map CarrierFile.capacity = (encodeAll env e key files').map CarrierFile.capacity ∧
      (assignShares (encodeAll env e key files) ref n).map CarrierFile.plan =
        (assignShares (encodeAll env e key files') ref' n).map CarrierFile.plan := by
  have sizes : (encodeAll env e key files).map CarrierFile.sized = (encodeAll env e key files').map CarrierFile.sized := by
    rw [encodeAll_sized all,encodeAll_sized all',same]
  constructor
  · have capacities := congrArg (List.map CarrierFile.capacity) sizes
    simpa only [List.map_map,Function.comp_def,CarrierFile.sized_capacity] using capacities
  · rw [assignShares_plan _ ref ref,assignShares_plan _ ref' ref,sizes]

/-! ### `ApplyEncoder` -/

theorem setEncoders_eq_ok {files files' : List CarrierFile} {capacity : Nat} :
    setEncoders env e files = (files',.ok capacity) ↔
      (∀ c ∈ files, (c.setEncoder env e).2 = .ok ()) ∧ files' = files.map (fun c => (c.setEncoder env e).1) ∧
        capacity = (files'.map CarrierFile.capacity).sum := by
  induction files generalizing files' capacity with
  | nil =>
    simp only [setEncoders,Prod.mk.injEq,Except.ok.injEq]
    constructor
    · rintro ⟨rfl,rfl⟩
      simp
    · rintro ⟨_,rfl,rfl⟩
      simp
  | cons c rest ih =>
    rw [setEncoders]
    rcases own : c.setEncoder env e with ⟨c',failure | _⟩
    · simp [own]
    · rcases others : setEncoders env e rest with ⟨rest',failure | sum⟩
      · have refused : ¬ ∀ c ∈ rest, (c.setEncoder env e).2 = .ok () := by
          intro all
          have := ih.mpr ⟨all,rfl,rfl⟩
          simp [this] at others
        simp only [Prod.mk.injEq,reduceCtorEq,and_false,false_iff]
        rintro ⟨all,_⟩
        exact refused fun c member => all c (List.mem_cons_of_mem _ member)
      · obtain ⟨all,rfl,rfl⟩ := ih.mp others
        simp only [Prod.mk.injEq,Except.ok.injEq]
        constructor
        · rintro ⟨rfl,rfl⟩
          refine ⟨?_,by simp [own],by simp⟩
          intro c member
          rcases List.mem_cons.mp member with rfl | later
          · rw [own]
          · exact all c later
        · rintro ⟨_,rfl,rfl⟩
          simp [own]

theorem deriveSubkeys_encodable {key : Key} {files : List CarrierFile} :
    (∀ c ∈ files.mapIdx fun i file => { file with subkey := some (subkey env key i file) },
      (c.setEncoder env e).2 = .ok ()) ↔ Encodable env e key files := by
  constructor
  · intro all i c here
    exact all _ (List.mem_iff_getElem?.mpr ⟨i,by rw [List.getElem?_mapIdx,here]; rfl⟩)
  · intro all c member
    obtain ⟨i,there⟩ := List.mem_iff_getElem?.mp member
    rw [List.getElem?_mapIdx] at there
    obtain ⟨original,here,rfl⟩ := Option.map_eq_some_iff.mp there
    exact all i original here

theorem deriveSubkeys_encodeAll {key : Key} (files : List CarrierFile) :
    (files.mapIdx fun i file => { file with subkey := some (subkey env key i file) }).map
      (fun c => (c.setEncoder env e).1) = encodeAll env e key files := by
  apply List.ext_getElem?
  intro i
  simp only [encodeAll,List.getElem?_map,List.getElem?_mapIdx]
  cases files[i]? with
  | none => rfl
  | some c => rfl

/-- The manager after an `ApplyEncoder` that returned. -/
def applied (env : Environment) (e : Encoder) (m : CarrierFilesManager) : CarrierFilesManager :=
  let key := masterKeyOf env m.passwordHash m.carrierFiles
  { m with
    masterKey := some key
    carrierFiles := encodeAll env e key m.carrierFiles
    capacity := word64 (((encodeAll env e key m.carrierFiles).map CarrierFile.capacity).sum)
    isActiveEncoder := true }

/-- `ApplyEncoder` returns for carriers that `SetEncoder` accepts and that have some capacity. -/
theorem applyEncoder_eq_ok {m m' : CarrierFilesManager} (holds : m.encoder = some e) :
    m.applyEncoder env = (m',.ok ()) ↔
      m.carrierFiles ≠ [] ∧ Encodable env e (masterKeyOf env m.passwordHash m.carrierFiles) m.carrierFiles ∧
        (m.applied env e).capacity ≠ 0 ∧ m' = m.applied env e := by
  have empty : m.carrierFiles.isEmpty = true ↔ m.carrierFiles = [] := List.isEmpty_iff
  by_cases none_ : m.carrierFiles = []
  · simp [applyEncoder,generateMasterKey,holds,none_]
  simp only [applyEncoder,generateMasterKey,holds,deriveSubkeys,empty,none_,if_false,ne_eq,not_false_eq_true,true_and]
  obtain ⟨key,same⟩ : ∃ key, key = masterKeyOf env m.passwordHash m.carrierFiles := ⟨_,rfl⟩
  have folded : m.carrierFiles.foldl (fun state file => Hash.append env.keccak state (file.permKey env).val)
      (Hash.process env.keccak m.passwordHash.val) = key := same.symm
  simp only [applied,folded,← same,← deriveSubkeys_encodable,← deriveSubkeys_encodeAll]
  rcases ran : setEncoders env e (m.carrierFiles.mapIdx fun i file => { file with subkey := some (subkey env key i file) })
    with ⟨files,failure | capacity⟩
  · rw [ran]
    simp only [Prod.mk.injEq,reduceCtorEq,and_false,false_iff]
    rintro ⟨all,_⟩
    have returns := setEncoders_eq_ok.mpr ⟨all,rfl,rfl⟩
    simp [returns] at ran
  · rw [ran]
    obtain ⟨all,rfl,rfl⟩ := setEncoders_eq_ok.mp ran
    rw [and_iff_right all]
    dsimp only
    split
    · rename_i zero
      simp only [Prod.mk.injEq,reduceCtorEq,and_false,false_iff]
      exact fun nonzero => nonzero.1 zero
    · rename_i nonzero
      rw [and_iff_right nonzero,Prod.mk.injEq,and_iff_left rfl,← holds]
      exact eq_comm

end CarrierFilesManager
end StegoDisk
