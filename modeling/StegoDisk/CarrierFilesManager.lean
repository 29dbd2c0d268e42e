import StegoDisk.CarrierFile
import Mathlib.Data.List.Sort

/-!
`file_management/carrier_files_manager.cc`. The tasks that load and save carriers run
one after another here, in the order of the list; every task runs, also when an
earlier one has failed, and the first failure in the list is the one that is thrown.
-/
namespace StegoDisk

/-- What opening a file gives: the exception of a constructor that rejects it, or its image. -/
abbrev Content := Except Exception Image

/-- The files there are, in the order in which they are enumerated. -/
structure Directory where
  entries : List (File × Content)
  distinct : (entries.map Prod.fst).Nodup

namespace Directory

/-- What a file holds. -/
def image (directory : Directory) (file : File) : Except Failure Image :=
  match directory.entries.find? (fun entry => entry.1 = file) with
  | some (_,.ok image) => .ok image
  | some (_,.error e) => .error (.thrown e)
  | none => .error (.thrown (.errorOpenFile file.absolutePath))

/-- The directory after a file was written. -/
def write (directory : Directory) (file : File) (image : Image) : Directory where
  entries := directory.entries.map fun entry => if entry.1 = file then (entry.1,.ok image) else entry
  distinct := by
    have names : (directory.entries.map fun entry => if entry.1 = file then (entry.1,Except.ok image) else entry).map
        Prod.fst = directory.entries.map Prod.fst := by
      rw [List.map_map]
      apply List.map_congr_left
      intro entry _
      simp only [Function.comp_apply]
      split <;> rfl
    rw [names]
    exact directory.distinct

end Directory

/-- `CarrierFile::operator<`: the lower-cased relative paths are compared byte by byte. -/
def CarrierFile.less (a b : CarrierFile) : Bool := a.file.relativePath.map toLower < b.file.relativePath.map toLower

/-- No element is less than one before it. -/
def SortedByName (files : List CarrierFile) : Prop := files.Pairwise fun a b => b.less a = false

/-- `std::sort` with `CompareBySharedPointers`: whatever it does with elements of which neither
    is less, it sorts. -/
structure Sorting where
  sort : List CarrierFile → List CarrierFile
  perm : ∀ files, (sort files).Perm files
  sorted : ∀ files, SortedByName (sort files)

theorem less_trans {a b c : CarrierFile} (first : b.less a = false) (second : c.less b = false) : c.less a = false := by
  simp only [CarrierFile.less,decide_eq_false_iff_not,List.not_lt] at first second ⊢
  exact List.le_trans first second

theorem less_total (a b : CarrierFile) : b.less a = false ∨ a.less b = false := by
  simp only [CarrierFile.less,decide_eq_false_iff_not,List.not_lt]
  exact List.le_total _ _

/-- Sorting by insertion. -/
def Sorting.byInsertion : Sorting where
  sort := List.insertionSort fun a b => b.less a = false
  perm := List.perm_insertionSort _
  sorted files := by
    have total : Std.Total fun a b : CarrierFile => b.less a = false := ⟨less_total⟩
    have transitive : IsTrans CarrierFile fun a b => b.less a = false := ⟨fun _ _ _ => less_trans⟩
    exact List.pairwise_insertionSort _ files

/-- The digits of `std::to_string`. -/
def decimal (n : Nat) : List UInt8 := (Nat.toDigits 10 n).map fun c => UInt8.ofNat c.toNat

structure CarrierFilesManager where
  carrierFiles : List CarrierFile := []
  capacity : Nat := 0
  encoder : Option Encoder := none
  isActiveEncoder : Bool := false
  passwordHash : Digest := Hash.initial
  masterKey : Option Key := none
  virtualStorage : Option Nat := none

namespace CarrierFilesManager

/-- `CarrierFilesManager::SetPassword`. -/
def setPassword (env : Environment) (m : CarrierFilesManager) (password : List UInt8) : CarrierFilesManager :=
  { m with passwordHash := Hash.process env.keccak password }

/-- The carriers of the enumerated files before they are sorted, up to the first one that
    is rejected. -/
def foundCarriers (localPermutation : Format → PermutationType) :
    List (File × Content) → List CarrierFile × Except Failure Unit
  | [] => ([],.ok ())
  | (_,.error e)::_ => ([],.error (.thrown e))
  | (file,.ok image)::rest =>
    ((createCarrierFile localPermutation file image).toList ++ (foundCarriers localPermutation rest).1,
      (foundCarriers localPermutation rest).2)

/-- `CarrierFilesManager::LoadDirectory` of the files that are enumerated. -/
def loadDirectory (sorting : Sorting) (localPermutation : Format → PermutationType) (m : CarrierFilesManager)
    (entries : List (File × Content)) : CarrierFilesManager × Except Failure Unit :=
  match foundCarriers localPermutation entries with
  | (files,.error failure) => ({ m with carrierFiles := files, capacity := 0 },.error failure)
  | (files,.ok ()) => ({ m with carrierFiles := sorting.sort files, capacity := 0 },.ok ())

/-- `CarrierFilesManager::UnSetEncoder`. -/
def unSetEncoder (m : CarrierFilesManager) : CarrierFilesManager :=
  { m with carrierFiles := m.carrierFiles.map CarrierFile.unSetEncoder, encoder := none, isActiveEncoder := false }

/-- `CarrierFilesManager::SetEncoder` with an encoder. -/
def setEncoder (m : CarrierFilesManager) (e : Encoder) : CarrierFilesManager :=
  let m := if m.encoder.isSome then m.unSetEncoder else m
  { m with encoder := some e, isActiveEncoder := false }

/-- `CarrierFilesManager::GenerateMasterKey`. -/
def generateMasterKey (env : Environment) (m : CarrierFilesManager) : CarrierFilesManager × Except Failure Unit :=
  if m.carrierFiles.isEmpty then (m,.error (.thrown (.emptyMember "carrier_files")))
  else
    let key := m.carrierFiles.foldl (fun state file => Hash.append env.keccak state (file.permKey env).val)
      (Hash.process env.keccak m.passwordHash.val)
    ({ m with masterKey := some key },.ok ())

/-- The subkey of carrier number `i`. -/
def subkey (env : Environment) (masterKey : Key) (i : Nat) (file : CarrierFile) : Key :=
  Hash.append env.keccak
    (Hash.append env.keccak (Hash.process env.keccak masterKey.val) (decimal i)) file.file.normalizedPath

/-- `CarrierFilesManager::DeriveSubkeys`. -/
def deriveSubkeys (env : Environment) (m : CarrierFilesManager) (masterKey : Key) : CarrierFilesManager :=
  { m with carrierFiles := m.carrierFiles.mapIdx fun i file =>
      { file with subkey := some (subkey env masterKey i file) } }

/-- The loop of `ApplyEncoder`: the carriers after it, and the sum of their capacities. -/
def setEncoders (env : Environment) (e : Encoder) : List CarrierFile → List CarrierFile × Except Failure Nat
  | [] => ([],.ok 0)
  | file::rest =>
    match file.setEncoder env e with
    | (file,.error failure) => (file::rest,.error failure)
    | (file,.ok ()) =>
      match setEncoders env e rest with
      | (rest,.error failure) => (file::rest,.error failure)
      | (rest,.ok capacity) => (file::rest,.ok (file.capacity + capacity))

/-- `CarrierFilesManager::ApplyEncoder`. -/
def applyEncoder (env : Environment) (m : CarrierFilesManager) : CarrierFilesManager × Except Failure Unit :=
  match m.encoder with
  | none => (m,.error (.thrown (.invalidState .applyEncoder .encoder .notSetted)))
  | some e =>
    match m.generateMasterKey env with
    | (m,.error failure) => (m,.error failure)
    | (m,.ok ()) =>
      match m.masterKey with
      | none => (m,.error .undefined)
      | some key =>
        let m := m.deriveSubkeys env key
        match setEncoders env e m.carrierFiles with
        | (files,.error failure) => ({ m with carrierFiles := files },.error failure)
        | (files,.ok capacity) =>
          if word64 capacity = 0 then ({ m with carrierFiles := files },.error (.thrown .zeroAllocatedSize))
          else ({ m with carrierFiles := files, capacity := word64 capacity, isActiveEncoder := true },.ok ())

/-- `CarrierFilesManager::GetCapacity`. -/
def getCapacity (m : CarrierFilesManager) : Except Failure Nat :=
  if m.encoder.isNone then .error (.thrown (.invalidState .getCapacity .encoder .notSetted))
  else if m.isActiveEncoder then .ok m.capacity
  else .error (.thrown (.invalidState .getCapacity .encoder .notActive))

/-- The shares that `LoadVirtualStorage` gives to files of these capacities: offset and bytes
    used of each, the remaining capacity going down from the raw capacity. -/
def shares : List Nat → Nat → Nat → List (Nat × Nat)
  | [],_,_ => []
  | capacity::rest,offset,remaining =>
    if remaining > capacity then (offset,capacity)::shares rest (word64 (offset + capacity)) (remaining - capacity)
    else (offset,remaining)::shares rest (word64 (offset + capacity)) 0

/-- The carriers with their shares. -/
def assignShares (files : List CarrierFile) (storage rawCapacity : Nat) : List CarrierFile :=
  (files.zip (shares (files.map CarrierFile.capacity) 0 rawCapacity)).map fun (file,offset,bytesUsed) =>
    file.addToVirtualStorage storage offset bytesUsed

/-- The `LoadFile` tasks: the carriers and the storage after all of them. -/
def loadFiles (env : Environment) (directory : Directory) :
    List CarrierFile → VirtualStorage → (List CarrierFile × VirtualStorage) × Except Failure Unit
  | [],s => (([],s),.ok ())
  | file::rest,s =>
    match directory.image file.file with
    | .error failure =>
      let after := loadFiles env directory rest s
      ((file::after.1.1,after.1.2),if file.fileLoaded then after.2 else .error failure)
    | .ok image =>
      let loaded := file.loadFile env image s
      let after := loadFiles env directory rest loaded.1.2
      ((loaded.1.1::after.1.1,after.1.2),loaded.2 >>= fun _ => after.2)

/-- `CarrierFilesManager::LoadVirtualStorage` with the storage that `ref` refers to. -/
def loadVirtualStorage (env : Environment) (memory : Nat → UInt8) (directory : Directory) (m : CarrierFilesManager)
    (ref : Nat) (s : VirtualStorage) : (CarrierFilesManager × VirtualStorage) × Except Failure Bool :=
  match m.encoder with
  | none => ((m,s),.error (.thrown (.invalidState .loadVirtualStorage .encoder .notSetted)))
  | some _ =>
    if m.isActiveEncoder = false then
      ((m,s),.error (.thrown (.invalidState .loadVirtualStorage .encoder .notActive)))
    else
      match m.masterKey with
      | none => ((m,s),.error .undefined)
      | some key =>
        match s.applyPermutation env memory m.capacity key.val with
        | (s,.error failure) => ((m,s),.error failure)
        | (s,.ok ()) =>
          let files := assignShares m.carrierFiles ref s.rawCapacity
          let loaded := loadFiles env directory files s
          let m := { m with carrierFiles := loaded.1.1 }
          match loaded.2 with
          | .error failure => ((m,loaded.1.2),.error failure)
          | .ok () => (({ m with virtualStorage := some ref },loaded.1.2),loaded.1.2.isValidChecksum env.keccak)

/-- The `SaveFile` tasks: the carriers and the directory after all of them. The storages
    are looked up by what the carriers refer to. -/
def saveFiles (env : Environment) (storages : List VirtualStorage) :
    List CarrierFile → Directory → (List CarrierFile × Directory) × Except Failure Unit
  | [],directory => (([],directory),.ok ())
  | file::rest,directory =>
    match directory.image file.file with
    | .error failure =>
      let after := saveFiles env storages rest directory
      ((file::after.1.1,after.1.2),.error failure)
    | .ok image =>
      let saved := file.saveFile env image ((file.virtualStorage.bind (storages[·]?)).getD {})
      let directory := match saved.2 with
        | .ok image => directory.write file.file image
        | .error _ => directory
      let after := saveFiles env storages rest directory
      ((saved.1::after.1.1,after.1.2),saved.2 >>= fun _ => after.2)

/-- `CarrierFilesManager::SaveVirtualStorage`. -/
def saveVirtualStorage (env : Environment) (m : CarrierFilesManager) (storages : List VirtualStorage)
    (directory : Directory) : (CarrierFilesManager × List VirtualStorage × Directory) × Except Failure Unit :=
  match m.virtualStorage with
  | none => ((m,storages,directory),.error (.thrown (.invalidState .saveVirtualStorage .virtualStorage .notInitialized)))
  | some ref =>
    match storages[ref]? with
    | none => ((m,storages,directory),.error .undefined)
    | some s =>
      match s.writeChecksum env.keccak with
      | .error failure => ((m,storages,directory),.error failure)
      | .ok s =>
        let storages := storages.set ref s
        let saved := saveFiles env storages m.carrierFiles directory
        (({ m with carrierFiles := saved.1.1 },storages,saved.1.2),saved.2)

end CarrierFilesManager
end StegoDisk
