import StegoDisk.CarrierFilesManager

/-!
`stego_storage.cc`. The storages that `Load` has created are kept in a list, and an
object refers to one by its index, since the storage of `StegoStorage`, the one of the
manager and those of the carriers need not be the same.
-/
namespace StegoDisk

/-- `StegoConfig`; before the first `Configure` the members are zero. -/
structure StegoConfig where
  initialized : Bool := false
  encoder : EncoderType := .lsb
  globalPerm : PermutationType := .identity
  localPerm : PermutationType := .identity
  filePerm : Format → Option PermutationType := fun _ => none

/-- `CarrierFileFactory::CreatePermutation`: the class for the format, or the local one. -/
def StegoConfig.localPermutation (config : StegoConfig) (format : Format) : PermutationType :=
  (config.filePerm format).getD config.localPerm

/-- What a run depends on besides its inputs: the digest function and the primality test, the
    sorting of the standard library, and what each allocation finds in memory. -/
structure Platform where
  env : Environment
  sorting : Sorting
  memory : Nat → Nat → UInt8

structure StegoStorage where
  config : StegoConfig := {}
  directory : Directory
  storages : List VirtualStorage := []
  opened : Bool := false
  virtualStorage : Option Nat := none
  manager : CarrierFilesManager := {}

namespace StegoStorage

/-- `StegoStorage::Configure`, given the configuration it leaves. -/
def configure (s : StegoStorage) (config : StegoConfig) : StegoStorage :=
  { s with config := { config with initialized := true } }

/-- `StegoStorage::Open`. What it selects are the regular files below the base path whose name ends in a dot and one of the
    extensions of the filter, in any case, and whose extension is that of a format. An empty filter is replaced by the
    types that the configuration includes; where there are none, the formats alone select. -/
def open_ (platform : Platform) (s : StegoStorage) (select : File → Bool) (password : List UInt8) :
    StegoStorage × Except Failure Unit :=
  let loaded := (s.manager.setPassword platform.env password).loadDirectory platform.sorting
    s.config.localPermutation (s.directory.entries.filter fun entry => select entry.1)
  match loaded with
  | (m,.error failure) => ({ s with manager := m, opened := false },.error failure)
  | (m,.ok ()) => ({ s with manager := m, opened := true },.ok ())

/-- `StegoStorage::Load`. -/
def load (platform : Platform) (s : StegoStorage) : StegoStorage × Except Failure Unit :=
  if s.config.initialized = false then
    (s,.error (.thrown (.invalidState .loadStegoStrorage .storage .notConfigured)))
  else if s.opened = false then
    (s,.error (.thrown (.invalidState .loadStegoStrorage .storage .notOpened)))
  else
    match (s.manager.setEncoder (Encoder.ofType s.config.encoder)).applyEncoder platform.env with
    | (m,.error failure) => ({ s with manager := m },.error failure)
    | (m,.ok ()) =>
      let ref := s.storages.length
      let storage := (VirtualStorage.setPermutation {} (some (.fresh s.config.globalPerm))).1
      let loaded := m.loadVirtualStorage platform.env (platform.memory ref) s.directory ref storage
      ({ s with manager := loaded.1.1, storages := s.storages ++ [loaded.1.2], virtualStorage := some ref },
        loaded.2.map fun _ => ())

/-- `StegoStorage::Save`. -/
def save (platform : Platform) (s : StegoStorage) : StegoStorage × Except Failure Unit :=
  if s.opened = false then (s,.error (.thrown (.invalidState .saveStegoStrorage .storage .notOpened)))
  else if s.virtualStorage.isNone then (s,.error (.thrown (.invalidState .saveStegoStrorage .storage .notLoaded)))
  else
    let saved := s.manager.saveVirtualStorage platform.env s.storages s.directory
    ({ s with manager := saved.1.1, storages := saved.1.2.1, directory := saved.1.2.2 },saved.2)

/-- The storage that `Read`, `Write` and `GetSize` use. -/
def current (s : StegoStorage) : Option VirtualStorage := s.virtualStorage.bind (s.storages[·]?)

/-- `StegoStorage::Read`. -/
def read (s : StegoStorage) (offset length : Nat) : Except Failure (List UInt8) :=
  match s.current with
  | none => .error (.thrown (.invalidState .ioStegoStorage .storage .notLoaded))
  | some storage => storage.read offset length

/-- `StegoStorage::Write`. -/
def write (s : StegoStorage) (offset : Nat) (source : List UInt8) : StegoStorage × Except Failure Unit :=
  match s.virtualStorage, s.current with
  | some ref, some storage =>
    match storage.write offset source with
    | .error failure => (s,.error failure)
    | .ok storage => ({ s with storages := s.storages.set ref storage },.ok ())
  | _, _ => (s,.error (.thrown (.invalidState .ioStegoStorage .storage .notLoaded)))

/-- `StegoStorage::GetSize`. -/
def getSize (s : StegoStorage) : Except Failure Nat :=
  match s.current with
  | none => .ok 0
  | some storage => storage.getUsableCapacity

end StegoStorage
end StegoDisk
