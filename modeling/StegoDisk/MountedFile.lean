import StegoDisk.ConfiguredRuns
import StegoDisk.Reflection
import StegoDisk.UserAccess

/-!
Reading and writing the virtual file, `fuse/fuse_service.cc` and `fuse/dokan_service.cc`. All four callbacks cut the
range of a request off at the capacity. The two of Dokan report how many bytes are left of it; the
two of FUSE report how many were asked for.
-/
namespace StegoDisk

/-- `static_cast<int>`. -/
def int32 (n : Nat) : Int := if word32 n < 2 ^ 31 then word32 n else word32 n - 2 ^ 32

/-- What `Init` of a service keeps. -/
structure Mount where
  stegoStorage : StegoStorage
  capacity : Nat

namespace Mount

/-- `FuseService::Init` and `DokanService::Init`, as far as the storage goes. -/
def init (s : StegoStorage) : Except Failure Mount := do
  let capacity ← s.getSize
  .ok ⟨s,capacity⟩

/-- The tests on the range of a request: how many bytes are left of it, if it does not begin behind the end. -/
def trim (capacity offset64 size64 : Nat) : Option Nat :=
  if offset64 ≥ capacity then none
  else some (if word64 (offset64 + size64) > capacity then capacity - offset64 else size64)

variable (m : Mount)

/-! ### FUSE -/

/-- `file_path`. -/
def filePath : String := "/virtualdisc.iso"

/-- `ENOENT`. -/
def enoent : Int := 2

/-- `sfs_read`: what it returns, and the bytes that are put into `buf`. The offset is given by the bits of the `off_t`. -/
def sfsRead (path : String) (size offset : UInt64) : Except Failure (Int × List UInt8) :=
  if path ≠ filePath then .ok (-enoent,[])
  else
    match trim m.capacity offset.toNat size.toNat with
    | none => .ok (0,[])
    | some size64 => do
      let bytes ← m.stegoStorage.read offset.toNat size64
      .ok (int32 size.toNat,bytes)

/-- `sfs_write`. -/
def sfsWrite (path : String) (buf : List UInt8) (size offset : UInt64) : Mount × Except Failure Int :=
  if path ≠ filePath then (m,.ok (-enoent))
  else
    match trim m.capacity offset.toNat size.toNat with
    | none => (m,.ok 0)
    | some size64 =>
      if size64 ≤ buf.length then
        let written := m.stegoStorage.write offset.toNat (buf.take size64)
        ({ m with stegoStorage := written.1 },written.2.map fun _ => int32 size.toNat)
      else (m,.error .undefined)

/-! ### Dokan -/

/-- `DokanService::file_path_`. -/
def dokanPath : String := "\\virtualdisc.iso"

/-- The results of the callbacks. -/
inductive NTStatus
  | success
  | noSuchFile
  | endOfFile
  deriving DecidableEq

/-- `SFSReadFile`: the status, what `ReadLength` is set to, and the bytes that are put into `Buffer`. -/
def sfsReadFile (fileName : String) (bufferLength : UInt32) (offset : UInt64) :
    Except Failure (NTStatus × Option Nat × List UInt8) :=
  if fileName ≠ dokanPath then .ok (.noSuchFile,none,[])
  else
    match trim m.capacity offset.toNat bufferLength.toNat with
    | none => .ok (.endOfFile,some 0,[])
    | some size64 => do
      let bytes ← m.stegoStorage.read offset.toNat size64
      .ok (.success,some (word32 size64),bytes)

/-- `SFSWriteFile`: the status, and what `NumberOfBytesWritten` is set to. -/
def sfsWriteFile (fileName : String) (buffer : List UInt8) (numberOfBytesToWrite : UInt32) (offset : UInt64) :
    Mount × Except Failure (NTStatus × Option Nat) :=
  if fileName ≠ dokanPath then (m,.ok (.noSuchFile,none))
  else
    match trim m.capacity offset.toNat numberOfBytesToWrite.toNat with
    | none => (m,.ok (.endOfFile,some 0))
    | some size64 =>
      if size64 ≤ buffer.length then
        let written := m.stegoStorage.write offset.toNat (buffer.take size64)
        ({ m with stegoStorage := written.1 },written.2.map fun _ => (.success,some (word32 size64)))
      else (m,.error .undefined)

/-! ### What a request should do -/

/-- The bytes that are stored, those of the file in front. -/
def bytes : List UInt8 := (m.stegoStorage.current.bind VirtualStorage.data).getD []

/-- How many bytes of a range the file has. -/
def available (capacity offset size : Nat) : Nat := min (offset + size) capacity - offset

/-- Exactly the bytes of a range that the file has are transferred, and both services say how many. -/
structure Reports (size offset : UInt64) (buf : List UInt8) : Prop where
  read : m.sfsRead filePath size offset = .ok (available m.capacity offset.toNat size.toNat,
    (m.bytes.drop offset.toNat).take (available m.capacity offset.toNat size.toNat))
  write : ∃ m', m.sfsWrite filePath buf size offset = (m',.ok (available m.capacity offset.toNat size.toNat)) ∧
    m'.bytes = VirtualStorage.splice m.bytes offset.toNat (buf.take (available m.capacity offset.toNat size.toNat))
  readFile : ∀ length : UInt32, length.toNat = size.toNat → ∃ status, m.sfsReadFile dokanPath length offset =
    .ok (status,some (available m.capacity offset.toNat size.toNat),
      (m.bytes.drop offset.toNat).take (available m.capacity offset.toNat size.toNat))
  writeFile : ∀ length : UInt32, length.toNat = size.toNat → ∃ m' status, m.sfsWriteFile dokanPath buf length offset =
      (m',.ok (status,some (available m.capacity offset.toNat size.toNat))) ∧
    m'.bytes = VirtualStorage.splice m.bytes offset.toNat (buf.take (available m.capacity offset.toNat size.toNat))

end Mount

/-! ### The storage -/

namespace VirtualStorage

variable {s : VirtualStorage} {offset length : Nat}

theorem Sized.userData_ok (sized : s.Sized) (inside : offset + length ≤ s.usableCapacity) : ∃ data, s.data = some data ∧
    offset + length ≤ data.length ∧ s.userData offset length = .ok (if length = 0 then [] else data) := by
  have cases_ := sized.userData (.read (UInt64.ofNat offset) (UInt64.ofNat length))
  obtain ⟨_,_,size,fits⟩ := sized
  have space : addressSpace ≤ 2 ^ 63 := by decide
  have first : (UInt64.ofNat offset).toNat = offset := UInt64.toNat_ofNat_of_lt' (show offset < 2 ^ 64 by omega)
  have second : (UInt64.ofNat length).toNat = length := UInt64.toNat_ofNat_of_lt' (show length < 2 ^ 64 by omega)
  simp only [Access.InRange,Access.ComesAround,Access.offset,Access.length,first,second] at cases_
  rcases cases_ with ⟨_,data,holds,within,checked⟩ | ⟨around,_⟩ | ⟨outside,_⟩
  · exact ⟨data,holds,within,checked⟩
  · omega
  · exact absurd inside outside

theorem Sized.read_ok (sized : s.Sized) (inside : offset + length ≤ s.usableCapacity) :
    s.read offset length = .ok (((s.data.getD []).drop offset).take length) := by
  obtain ⟨data,holds,_,checked⟩ := sized.userData_ok inside
  rw [read,checked,ok_bind,holds]
  by_cases nothing : length = 0
  · simp [nothing]
  · rw [if_neg nothing]
    rfl

theorem Sized.write_ok (sized : s.Sized) {source : List UInt8} (inside : offset + source.length ≤ s.usableCapacity) :
    s.write offset source = .ok { s with data := some (splice (s.data.getD []) offset source) } := by
  obtain ⟨data,holds,_,checked⟩ := sized.userData_ok inside
  rw [write,checked,ok_bind,holds]
  by_cases nothing : source.length = 0
  · obtain rfl := List.eq_nil_of_length_eq_zero nothing
    have same : { s with data := some data } = s := by rw [← holds]
    simp [splice,same]
  · rw [if_neg nothing,if_neg nothing]
    rfl

/-- A `WriteChecksum` that returns changes bytes of the buffer and nothing else. -/
theorem writeChecksum_eq_ok {keccak : Keccak} {s s' : VirtualStorage} (written : s.writeChecksum keccak = .ok s') :
    ∃ data, ∃ digest : Digest, s.data = some data ∧ s.usableCapacity + digest.val.length ≤ data.length ∧
      s' = { s with data := some (splice data s.usableCapacity digest.val) } := by
  rcases holds : s.data with _ | data
  · simp [writeChecksum,holds] at written
  simp only [writeChecksum,holds] at written
  split at written
  · cases written
  obtain ⟨digest,_,last⟩ := bind_eq_ok.mp written
  split at last
  · cases last
  · rename_i inside
    refine ⟨data,digest,rfl,?_,(Except.ok.inj last).symm⟩
    rw [digest.property]
    exact Nat.not_lt.mp inside

theorem Sized.changed {s : VirtualStorage} {data changed : MemoryBuffer} (holds : s.data = some data)
    (same : changed.length = data.length) (sized : s.isSetPermutation = true → s.Sized) :
    s.isSetPermutation = true → Sized { s with data := some changed } :=
  fun applied => (sized applied).data holds same

end VirtualStorage

namespace StegoStorage
open VirtualStorage

variable {platform : Platform} {s : StegoStorage}

/-- Every storage to which a permutation was applied has room for its checksum. -/
def Sound (s : StegoStorage) : Prop := ∀ storage ∈ s.storages, storage.isSetPermutation = true → storage.Sized

theorem Sound.set (sound : s.Sound) {ref : Nat} {storage storage' : VirtualStorage} (there : s.storages[ref]? = some storage)
    (keeps : (storage.isSetPermutation = true → storage.Sized) → storage'.isSetPermutation = true → storage'.Sized) :
    Sound { s with storages := s.storages.set ref storage' } := by
  intro other member
  rcases List.mem_or_eq_of_mem_set member with old | rfl
  · exact sound other old
  · exact keeps (sound storage (List.mem_of_getElem? there))

theorem Sound.write (sound : s.Sound) (offset : Nat) (source : List UInt8) : (s.write offset source).1.Sound := by
  rcases write_eq s offset source with same | ⟨ref,storage,storage',_,there,written,same⟩
  · rwa [same]
  · rw [same]
    apply sound.set there
    rcases write_eq_ok written with rfl | ⟨data,holds,inside,rfl⟩
    · exact id
    · exact Sized.changed holds (splice_length inside)

theorem Sound.save (sound : s.Sound) : (s.save platform).1.Sound := by
  rcases save_eq platform s with ⟨_,same⟩ | ⟨_,_,m,storages,directory,result,ran,same⟩
  · rwa [same]
  · rw [same]
    rcases s.manager.saveVirtualStorage_cases s.storages s.directory with ⟨failure,refused⟩ |
      ⟨ref,storage,storage',_,there,written,saved⟩
    · obtain ⟨⟨_,rfl,_⟩,_⟩ := Prod.mk.inj (refused.symm.trans ran)
      exact sound
    · simp only [saved,Prod.mk.injEq] at ran
      obtain ⟨⟨_,rfl,_⟩,_⟩ := ran
      obtain ⟨data,digest,holds,inside,rfl⟩ := writeChecksum_eq_ok written
      exact sound.set there (Sized.changed holds (splice_length inside))

/-- What `LoadVirtualStorage` makes of a new storage. -/
theorem loadVirtualStorage_sized {m m' : CarrierFilesManager} {ref : Nat} {memory : Nat → UInt8} {directory : Directory}
    {s s' : VirtualStorage} {p : Permutation} {result : Except Failure Bool} (holds : s.permutation = some p)
    (unset : s.isSetPermutation = false)
    (loaded : m.loadVirtualStorage platform.env memory directory ref s = ((m',s'),result)) :
    s'.isSetPermutation = true → s'.Sized := by
  have fresh : s.isSetPermutation = true → s.Sized := by simp [unset]
  rcases CarrierFilesManager.loadVirtualStorage_outcome platform.env memory directory ref m s with
    ⟨failure,refused⟩ | ⟨e,key,t,applied,_,allocated,outcome⟩
  · obtain ⟨same,_⟩ := Prod.mk.inj (loaded.symm.trans refused)
    rwa [(Prod.mk.inj same).2]
  rcases outcome with ⟨failure,rfl,failed⟩ | ⟨rfl,files,s₁,ran,tasks,outcome⟩
  · obtain ⟨same,_⟩ := Prod.mk.inj (loaded.symm.trans failed)
    rw [(Prod.mk.inj same).2]
    rcases applyPermutation_cases holds m.capacity key with ⟨_,kept,_⟩ | ⟨_,_,_,made⟩
    · obtain ⟨rfl,_⟩ := Prod.mk.inj (allocated.symm.trans kept)
      simp [unset]
    · cases (Prod.mk.inj (allocated.symm.trans made)).2
  · have kept := @CarrierFilesManager.loadFiles_keeps platform.env directory
      (fun s : VirtualStorage => s.isSetPermutation = true → s.Sized) (fun _ _ _ held same => Sized.changed held same)
      (CarrierFilesManager.assignShares m.carrierFiles ref t.rawCapacity) t fun _ => applyPermutation_sized allocated
    rw [tasks] at kept
    rcases outcome with ⟨failure,rfl,failed⟩ | ⟨rfl,returned⟩
    · obtain ⟨same,_⟩ := Prod.mk.inj (loaded.symm.trans failed)
      rwa [(Prod.mk.inj same).2]
    · obtain ⟨same,_⟩ := Prod.mk.inj (loaded.symm.trans returned)
      rwa [(Prod.mk.inj same).2]

theorem Sound.load (sound : s.Sound) : (s.load platform).1.Sound := by
  rcases load_eq platform s with ⟨_,e,same⟩ | ⟨_,_,⟨m,failure,_,same⟩ | ⟨m,_,m',storage,result,ran,same⟩⟩
  · rwa [same]
  · rw [same]
    exact sound
  · rw [same]
    intro other member
    rcases List.mem_append.mp member with old | new
    · exact sound other old
    · obtain rfl := List.mem_singleton.mp new
      exact loadVirtualStorage_sized rfl rfl ran

theorem Sound.step (sound : s.Sound) (op : Op) : (step platform s op).Sound := by
  cases op with
  | configure config => exact sound
  | open_ select password =>
    obtain ⟨m,result,_,⟨_,left⟩ | ⟨_,left⟩⟩ := open_eq platform s select password
    · simp only [StegoStorage.step,perform,left]
      exact sound
    · simp only [StegoStorage.step,perform,left]
      exact sound
  | load => exact sound.load
  | read offset length => exact sound
  | write offset source => exact sound.write offset source
  | getSize => exact sound
  | save => exact sound.save

theorem Sound.after (sound : s.Sound) (ops : List Op) : (after platform s ops).Sound := by
  induction ops generalizing s with
  | nil => exact sound
  | cons op rest ih => exact ih (sound.step op)

end StegoStorage

/-! ### The callbacks -/

namespace Mount
open StegoStorage VirtualStorage

variable {m : Mount} {offset count : Nat} {source : List UInt8}

/-- The storage behind a service that has something to serve. -/
structure Serves (m : Mount) (ref : Nat) (storage : VirtualStorage) : Prop where
  inUse : m.stegoStorage.virtualStorage = some ref
  there : m.stegoStorage.storages[ref]? = some storage
  sized : storage.Sized
  capacity : storage.usableCapacity = m.capacity

/-- Without a storage the file is empty. -/
theorem serves_of_init {s : StegoStorage} (sound : s.Sound) (mounted : init s = .ok m) :
    m.capacity = 0 ∨ ∃ ref storage, m.Serves ref storage := by
  obtain ⟨capacity,size,last⟩ := bind_eq_ok.mp mounted
  obtain rfl := Except.ok.inj last
  rw [getSize] at size
  split at size
  · exact .inl (Except.ok.inj size).symm
  · rename_i storage holds
    right
    rw [current,Option.bind_eq_some_iff] at holds
    obtain ⟨ref,inUse,there⟩ := holds
    obtain ⟨_,checked,last⟩ := bind_eq_ok.mp size
    have applied : storage.isSetPermutation = true := by
      rw [checkApplied] at checked
      split at checked
      · cases checked
      · by_contra unset
        rw [if_neg unset] at checked
        cases checked
    exact ⟨ref,storage,inUse,there,sound storage (List.mem_of_getElem? there) applied,Except.ok.inj last⟩

theorem Serves.current {ref : Nat} {storage : VirtualStorage} (serves : m.Serves ref storage) :
    m.stegoStorage.current = some storage := by
  rw [StegoStorage.current,serves.inUse,Option.bind_some,serves.there]

theorem Serves.bytes {ref : Nat} {storage : VirtualStorage} (serves : m.Serves ref storage) :
    m.bytes = storage.data.getD [] := by
  rw [Mount.bytes,serves.current,Option.bind_some]

theorem Serves.read {ref : Nat} {storage : VirtualStorage} (serves : m.Serves ref storage)
    (inside : offset + count ≤ m.capacity) :
    m.stegoStorage.read offset count = .ok ((m.bytes.drop offset).take count) := by
  rw [StegoStorage.read,serves.current,serves.bytes]
  exact serves.sized.read_ok (serves.capacity ▸ inside)

theorem Serves.write {ref : Nat} {storage : VirtualStorage} (serves : m.Serves ref storage)
    (inside : offset + source.length ≤ m.capacity) : ∃ s, m.stegoStorage.write offset source = (s,.ok ()) ∧
      Mount.bytes { m with stegoStorage := s } = splice m.bytes offset source := by
  have written := serves.sized.write_ok (serves.capacity ▸ inside)
  obtain ⟨below,_⟩ := List.getElem?_eq_some_iff.mp serves.there
  obtain ⟨changed,same⟩ : ∃ changed : VirtualStorage,
      changed = { storage with data := some (splice (storage.data.getD []) offset source) } := ⟨_,rfl⟩
  rw [← same] at written
  refine ⟨{ m.stegoStorage with storages := m.stegoStorage.storages.set ref changed },?_,?_⟩
  · simp only [StegoStorage.write,serves.inUse,serves.current,written]
  · rw [serves.bytes]
    simp only [Mount.bytes,StegoStorage.current,serves.inUse,Option.bind_some,List.getElem?_set_self below,same,
      Option.getD_some]

theorem trim_eq {capacity size : Nat} (below : offset + size < 2 ^ 64) :
    trim capacity offset size = if capacity ≤ offset then none else some (available capacity offset size) := by
  rw [trim,word64_of_lt below]
  by_cases behind : capacity ≤ offset
  · rw [if_pos behind,if_pos behind]
  · rw [if_neg behind,if_neg behind,available]
    split
    · congr 1
      omega
    · congr 1
      omega

theorem available_inside {capacity size : Nat} (front : offset ≤ capacity) : offset + available capacity offset size ≤ capacity := by
  unfold available
  omega

theorem available_behind {capacity size : Nat} (behind : capacity ≤ offset) : available capacity offset size = 0 := by
  unfold available
  omega

theorem available_le (capacity offset size : Nat) : available capacity offset size ≤ size := by
  unfold available
  omega

theorem splice_nil (bytes : List UInt8) (offset : Nat) : splice bytes offset [] = bytes := by
  simp [splice]

/-! What the callbacks do, for a request below the sizes where 64 bits are not enough. -/

section
variable (serves : m.capacity = 0 ∨ ∃ ref storage, m.Serves ref storage)
include serves

/-- The read that is made of a request that begins in the file. -/
theorem read_available (size : Nat) (front : ¬ m.capacity ≤ offset) :
    m.stegoStorage.read offset (available m.capacity offset size) =
      .ok ((m.bytes.drop offset).take (available m.capacity offset size)) := by
  obtain empty | ⟨ref,storage,serves⟩ := serves
  · omega
  · exact serves.read (available_inside (Nat.le_of_not_le front))

/-- The write that is made of a request that begins in the file. -/
theorem write_available (buf : List UInt8) (size : Nat) (front : ¬ m.capacity ≤ offset) :
    ∃ s, m.stegoStorage.write offset (buf.take (available m.capacity offset size)) = (s,.ok ()) ∧
      Mount.bytes { m with stegoStorage := s } =
        splice m.bytes offset (buf.take (available m.capacity offset size)) := by
  have inside := @available_inside _ m.capacity size (Nat.le_of_not_le front)
  obtain empty | ⟨ref,storage,serves⟩ := serves
  · omega
  · exact serves.write (by rw [List.length_take]; omega)

theorem sfsRead_eq {size offset : UInt64} (below : offset.toNat + size.toNat < 2 ^ 63) : m.sfsRead filePath size offset =
    .ok (if m.capacity ≤ offset.toNat then 0 else int32 size.toNat,
      (m.bytes.drop offset.toNat).take (available m.capacity offset.toNat size.toNat)) := by
  rw [sfsRead,if_neg (not_not_intro rfl),trim_eq (by omega)]
  by_cases behind : m.capacity ≤ offset.toNat
  · simp only [if_pos behind,available_behind behind,List.take_zero]
  · simp only [if_neg behind,read_available serves size.toNat behind,ok_bind]

theorem sfsReadFile_eq {length : UInt32} {offset : UInt64} (below : offset.toNat + length.toNat < 2 ^ 63) :
    m.sfsReadFile dokanPath length offset =
      .ok (if m.capacity ≤ offset.toNat then .endOfFile else .success,some (available m.capacity offset.toNat length.toNat),
        (m.bytes.drop offset.toNat).take (available m.capacity offset.toNat length.toNat)) := by
  rw [sfsReadFile,if_neg (not_not_intro rfl),trim_eq (by omega)]
  by_cases behind : m.capacity ≤ offset.toNat
  · simp only [if_pos behind,available_behind behind,List.take_zero]
  · have small := (available_le m.capacity offset.toNat length.toNat).trans_lt length.toNat_lt
    simp only [if_neg behind,read_available serves length.toNat behind,ok_bind,word32_of_lt small]

theorem sfsWrite_eq {size offset : UInt64} {buf : List UInt8} (whole : buf.length = size.toNat)
    (below : offset.toNat + size.toNat < 2 ^ 63) :
    ∃ m', m.sfsWrite filePath buf size offset = (m',.ok (if m.capacity ≤ offset.toNat then 0 else int32 size.toNat)) ∧
      m'.bytes = splice m.bytes offset.toNat (buf.take (available m.capacity offset.toNat size.toNat)) := by
  rw [sfsWrite,if_neg (not_not_intro rfl),trim_eq (by omega)]
  by_cases behind : m.capacity ≤ offset.toNat
  · simp only [if_pos behind,available_behind behind,List.take_zero,splice_nil]
    exact ⟨m,rfl,rfl⟩
  · have within := (available_le m.capacity offset.toNat size.toNat).trans_eq whole.symm
    obtain ⟨s,written,bytes⟩ := write_available serves buf size.toNat behind
    simp only [if_neg behind,if_pos within,written]
    exact ⟨_,rfl,bytes⟩

theorem sfsWriteFile_eq {length : UInt32} {offset : UInt64} {buf : List UInt8} (whole : buf.length = length.toNat)
    (below : offset.toNat + length.toNat < 2 ^ 63) : ∃ m', m.sfsWriteFile dokanPath buf length offset =
        (m',.ok (if m.capacity ≤ offset.toNat then .endOfFile else .success,
          some (available m.capacity offset.toNat length.toNat))) ∧
      m'.bytes = splice m.bytes offset.toNat (buf.take (available m.capacity offset.toNat length.toNat)) := by
  rw [sfsWriteFile,if_neg (not_not_intro rfl),trim_eq (by omega)]
  by_cases behind : m.capacity ≤ offset.toNat
  · simp only [if_pos behind,available_behind behind,List.take_zero,splice_nil]
    exact ⟨m,rfl,rfl⟩
  · have within := available_le m.capacity offset.toNat length.toNat
    obtain ⟨s,written,bytes⟩ := write_available serves buf length.toNat behind
    simp only [if_neg behind,if_pos (within.trans_eq whole.symm),written,word32_of_lt (within.trans_lt length.toNat_lt)]
    exact ⟨_,rfl,bytes⟩

end

/-- The size that was asked for, as an `int`, is the number of bytes that are left of it. -/
theorem int32_eq_available {capacity size : Nat} (front : offset < capacity) :
    int32 size = available capacity offset size ↔ offset + size ≤ capacity ∧ size < 2 ^ 31 ∨
      capacity < offset + size ∧ capacity - offset < 2 ^ 31 ∧ 2 ^ 32 ∣ offset + size - capacity := by
  unfold int32 available word32
  by_cases inside : offset + size ≤ capacity
  · rw [Nat.min_eq_left inside]
    split <;> omega
  · rw [Nat.min_eq_right (by omega)]
    split <;> omega

end Mount

namespace StegoStorage
open Mount CarrierFilesManager

/-- A service tells how much it has transferred exactly when a request begins behind the end, or ends in
    front of it and is no larger than an `int`, or when what is cut off is a multiple of 2³². -/
theorem reports_iff (platform : Platform) (directory : Directory) (ops : List Op) (m : Mount)
    (mounted : Mount.init (after platform { directory := directory } ops) = .ok m) (size offset : UInt64) (buf : List UInt8)
    (whole : buf.length = size.toNat) (below : offset.toNat + size.toNat < 2 ^ 63) :
    m.Reports size offset buf ↔ m.capacity ≤ offset.toNat ∨
      offset.toNat + size.toNat ≤ m.capacity ∧ size.toNat < 2 ^ 31 ∨
      m.capacity < offset.toNat + size.toNat ∧ m.capacity - offset.toNat < 2 ^ 31 ∧
        2 ^ 32 ∣ offset.toNat + size.toNat - m.capacity := by
  have new : Sound { directory := directory } := by simp [Sound]
  have serves := serves_of_init (new.after ops) mounted
  have counts : (if m.capacity ≤ offset.toNat then 0 else int32 size.toNat) =
      (available m.capacity offset.toNat size.toNat : Int) ↔ m.capacity ≤ offset.toNat ∨
      offset.toNat + size.toNat ≤ m.capacity ∧ size.toNat < 2 ^ 31 ∨
      m.capacity < offset.toNat + size.toNat ∧ m.capacity - offset.toNat < 2 ^ 31 ∧
        2 ^ 32 ∣ offset.toNat + size.toNat - m.capacity := by
    by_cases behind : m.capacity ≤ offset.toNat
    · simp [behind,available_behind behind]
    · rw [if_neg behind,int32_eq_available (Nat.lt_of_not_le behind)]
      simp only [behind,false_or]
  rw [← counts]
  constructor
  · intro reports
    have said := reports.read
    rw [sfsRead_eq serves below] at said
    exact (Prod.mk.inj (Except.ok.inj said)).1
  · intro same
    obtain ⟨m',written,bytes⟩ := sfsWrite_eq serves whole below
    refine ⟨?_,⟨m',?_,bytes⟩,?_,?_⟩
    · rw [sfsRead_eq serves below,same]
    · rw [written,same]
    · intro length equal
      rw [← equal] at below ⊢
      exact ⟨_,sfsReadFile_eq serves below⟩
    · intro length equal
      rw [← equal] at below ⊢
      obtain ⟨m',written,bytes⟩ := sfsWriteFile_eq serves (whole.trans equal.symm) below
      exact ⟨m',_,written,bytes⟩

/-- The storage of a picture, which has room for two bytes. -/
def loadedPicture : StegoStorage :=
  after countedMemory { directory := onePicture } [.configure {},.open_ (fun _ => true) [],.load]

theorem loadedPicture_mounted : Mount.init loadedPicture = .ok ⟨loadedPicture,2⟩ := by
  have size : loadedPicture.getSize = .ok 2 := by decide +kernel
  rw [Mount.init,size]
  rfl

theorem reports_iff_two : Mount.Reports ⟨loadedPicture,2⟩ 2 0 [7,9] :=
  (reports_iff countedMemory onePicture _ _ loadedPicture_mounted 2 0 [7,9] rfl (by decide)).mpr (.inr (.inl ⟨by decide,by decide⟩))

/-- Of four bytes from the second one on only one is read, and `sfs_read` returns 4. -/
theorem not_reports_four : Mount.sfsRead ⟨loadedPicture,2⟩ filePath 4 1 = .ok (4,[0]) ∧
    Mount.sfsReadFile ⟨loadedPicture,2⟩ dokanPath 4 1 = .ok (.success,some 1,[0]) ∧
    ¬ Mount.Reports ⟨loadedPicture,2⟩ 4 1 [7,7,7,7] := by
  have ran : Mount.sfsRead ⟨loadedPicture,2⟩ filePath 4 1 = .ok (4,[0]) ∧
      Mount.sfsReadFile ⟨loadedPicture,2⟩ dokanPath 4 1 = .ok (.success,some 1,[0]) := by
    decide +kernel
  refine ⟨ran.1,ran.2,?_⟩
  intro reports
  have said := reports.read
  rw [ran.1] at said
  exact absurd (Prod.mk.inj (Except.ok.inj said)).1 (by decide)

end StegoStorage
end StegoDisk
