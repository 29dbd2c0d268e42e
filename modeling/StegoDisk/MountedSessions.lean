import StegoDisk.DiskRefinement
import StegoDisk.MountedFile

/-!
Mounting, `fuse/fuse_service.cc`. `MountFuse` forks: the callbacks run in the child on its copy of the storage, while the
parent waits. The kernel sees a volume with one file, whose bytes are those of the disk when it was mounted; the parent
goes on with the storage that it had.
-/
namespace StegoDisk

/-- A request of the kernel. `sfs_write` is called with the size of its buffer. -/
inductive FuseRequest
  | readdir (path : String)
  | getattr (path : String)
  | access (path : String) (mask : Nat)
  | readlink (path : String) (size : Nat)
  | mkdir (path : String) (mode : Nat)
  | unlink (path : String)
  | rmdir (path : String)
  | rename (source target : String)
  | chmod (path : String) (mode : Nat)
  | chown (path : String) (uid gid : Nat)
  | open_ (path : String)
  | create (path : String) (mode : Nat)
  | read (path : String) (size offset : UInt64)
  | write (path : String) (buf : List UInt8) (offset : UInt64)

/-- What a callback returns, with what it hands over: the names that it fills in and whether it sends `SIGUSR1` to the
    parent, the attributes, the bytes. -/
inductive FuseReply
  | status (code : Int)
  | entries (code : Int) (names : List String) (signals : Bool)
  | attributes (code : Int) (mode nlink size : Nat)
  | data (code : Int) (bytes : List UInt8)
  deriving DecidableEq

/-- The static members of `FuseService`. -/
structure FuseService where
  mount : Mount
  fuseMounted : Bool := false

namespace FuseService
open Mount

/-- `file_path + 1`. -/
def fileName : String := "virtualdisc.iso"

/-- `ENOSYS` and `EROFS`. -/
def enosys : Int := 38
def erofs : Int := 30

/-- `S_IFDIR | 0755` and `S_IFREG | 0777`. -/
def directoryMode : Nat := 0x4000 ||| 0x1ED
def fileMode : Nat := 0x8000 ||| 0x1FF

/-- `sfs_getattr` for a file of some size. -/
def sfsGetattr (capacity : Nat) (path : String) : FuseReply :=
  if path = "/" then .attributes 0 directoryMode 3 0
  else if path = filePath then .attributes 0 fileMode 1 capacity
  else .attributes (-enoent) 0 0 0

/-- `sfs_readdir`. -/
def sfsReaddir (fuseMounted : Bool) (path : String) : Bool × FuseReply :=
  if path ≠ "/" then (fuseMounted,.entries (-enoent) [] false)
  else (true,.entries 0 [".","..",fileName] (!fuseMounted))

def perform (f : FuseService) : FuseRequest → FuseService × Except Failure FuseReply
  | .readdir path => ({ f with fuseMounted := (sfsReaddir f.fuseMounted path).1 },.ok (sfsReaddir f.fuseMounted path).2)
  | .getattr path => (f,.ok (sfsGetattr f.mount.capacity path))
  | .access _ _ => (f,.ok (.status 0))
  | .readlink _ _ => (f,.ok (.status (-enosys)))
  | .mkdir _ _ => (f,.ok (.status (-erofs)))
  | .unlink _ => (f,.ok (.status 0))
  | .rmdir _ => (f,.ok (.status (-erofs)))
  | .rename _ _ => (f,.ok (.status (-erofs)))
  | .chmod _ _ => (f,.ok (.status 0))
  | .chown _ _ _ => (f,.ok (.status 0))
  | .open_ _ => (f,.ok (.status 0))
  | .create _ _ => (f,.ok (.status 0))
  | .read path size offset => (f,(f.mount.sfsRead path size offset).map fun result => .data result.1 result.2)
  | .write path buf offset =>
    let written := f.mount.sfsWrite path buf (UInt64.ofNat buf.length) offset
    ({ f with mount := written.1 },written.2.map .status)

def answers (f : FuseService) : List FuseRequest → List (Except Failure FuseReply)
  | [] => []
  | request::rest => (f.perform request).2::answers (f.perform request).1 rest

/-- `FuseService::MountFuse`, with the requests that the kernel makes of the child until it is unmounted: the parent after
    it, the code and what the child answers. -/
def mountFuse (f : FuseService) (forks : Bool) (requests : List FuseRequest) :
    FuseService × Int × List (Except Failure FuseReply) :=
  let f := { f with fuseMounted := false }
  if forks then (f,0,f.answers requests) else (f,-1,[])

end FuseService

/-- What the kernel sees: one file with some bytes, and whether the root was listed. -/
structure Volume where
  bytes : List UInt8
  listed : Bool := false

namespace Volume
open Mount FuseService

/-- No call fails. The file can be neither renamed nor removed, nor does its size change; a call that reads or writes it
    says that all was done that was asked for, unless it begins behind the end. -/
def perform (v : Volume) : FuseRequest → Volume × FuseReply
  | .readdir path => ({ v with listed := (sfsReaddir v.listed path).1 },(sfsReaddir v.listed path).2)
  | .getattr path => (v,sfsGetattr v.bytes.length path)
  | .access _ _ | .unlink _ | .chmod _ _ | .chown _ _ _ | .open_ _ | .create _ _ => (v,.status 0)
  | .mkdir _ _ | .rmdir _ | .rename _ _ => (v,.status (-erofs))
  | .readlink _ _ => (v,.status (-enosys))
  | .read path size offset =>
    if path ≠ filePath then (v,.data (-enoent) [])
    else if v.bytes.length ≤ offset.toNat then (v,.data 0 [])
    else (v,.data (int32 size.toNat) ((v.bytes.drop offset.toNat).take size.toNat))
  | .write path buf offset =>
    if path ≠ filePath then (v,.status (-enoent))
    else if v.bytes.length ≤ offset.toNat then (v,.status 0)
    else ({ v with bytes := VirtualStorage.splice v.bytes offset.toNat (buf.take (v.bytes.length - offset.toNat)) },
      .status (int32 buf.length))

def answers (v : Volume) : List FuseRequest → List (Except Failure FuseReply)
  | [] => []
  | request::rest => .ok (v.perform request).2::answers (v.perform request).1 rest

end Volume

/-- The file of a disk that is mounted: it is empty where nothing is loaded. -/
def Disk.volume {size : Nat} (d : Disk size) : Volume := ⟨(d.working.map Subtype.val).getD [],false⟩

/-- The ranges of requests end below the largest `off_t`. -/
def FuseRequest.Proper : FuseRequest → Prop
  | .read _ size offset => offset.toNat + size.toNat < 2 ^ 63
  | .write _ buf offset => offset.toNat + buf.length < 2 ^ 63
  | _ => True

namespace StegoStorage
open CarrierFilesManager VirtualStorage

variable {platform : Platform} {config : StegoConfig} {select : File → Bool} {password : List UInt8}
  {directory : Directory} {m₀ : CarrierFilesManager} {size : Nat} {s : StegoStorage} {d : Disk size} {bytes : Bytes size}
  {offset : Nat}

theorem Works.small (works : Works platform config m₀ s bytes) : size + 32 < 2 ^ 48 := by
  obtain ⟨_,_,_,_,_,_,_,mapped,_⟩ := works
  exact mapped.fits

/-- Inside the disk users read its bytes. -/
theorem Works.read (works : Works platform config m₀ s bytes) {length : Nat} (inside : offset + length ≤ size) :
    s.read offset length = .ok ((bytes.val.drop offset).take length) := by
  have small := works.small
  obtain ⟨ref,storage,f,holds,_,there,applied,mapped,same⟩ := works
  have reads := applied.read_users mapped (show offset + length < 2 ^ 64 by omega)
  rw [Nat.add_sub_cancel,same,if_pos inside] at reads
  simp only [StegoStorage.read,current_eq holds there,reads]

/-- Inside the disk a write is made. -/
theorem Simulates.write_inside (simulates : Simulates platform config select password directory m₀ s d)
    (working : d.working = some bytes) {source : List UInt8} (inside : offset + source.length ≤ size) :
    ∃ s', s.write offset source = (s',.ok ()) ∧ Simulates platform config select password directory m₀ s'
      { d with working := some (bytes.write offset source inside) } := by
  have small := (simulates.works bytes working).small
  obtain ⟨after,returned⟩ := simulates.write (show offset + source.length < 2 ^ 64 by omega)
  have step : d.step (.write offset source) = { d with working := some (bytes.write offset source inside) } := by
    simp [Disk.step,Disk.perform,working,inside]
  rw [step] at after
  simp only [Disk.perform,working,inside,dif_pos] at returned
  rcases written : s.write offset source with ⟨s',failure | _⟩
  · rw [written] at returned
    cases returned
  · rw [written] at after
    exact ⟨s',rfl,after⟩

end StegoStorage

namespace FuseService
open Mount StegoStorage CarrierFilesManager VirtualStorage

variable {platform : Platform} {config : StegoConfig} {select : File → Bool} {password : List UInt8}
  {directory : Directory} {m₀ : CarrierFilesManager} {size : Nat} {f : FuseService} {v : Volume}

/-- The service shows the volume: the file has the bytes of a disk, or none. -/
structure Shows (platform : Platform) (config : StegoConfig) (select : File → Bool) (password : List UInt8)
    (directory : Directory) (m₀ : CarrierFilesManager) (size : Nat) (f : FuseService) (v : Volume) : Prop where
  capacity : f.mount.capacity = v.bytes.length
  listed : f.fuseMounted = v.listed
  disk : v.bytes = [] ∨ ∃ (d : Disk size) (bytes : Bytes size),
    Simulates platform config select password directory m₀ f.mount.stegoStorage d ∧ d.working = some bytes ∧
      v.bytes = bytes.val

theorem Shows.read (shows_ : Shows platform config select password directory m₀ size f v) (path : String)
    {count offset : UInt64} (below : offset.toNat + count.toNat < 2 ^ 63) :
    (f.mount.sfsRead path count offset).map (fun result => FuseReply.data result.1 result.2) =
      .ok (v.perform (.read path count offset)).2 := by
  by_cases other : path = filePath
  · have trims := @trim_eq offset.toNat v.bytes.length count.toNat (by omega)
    simp only [sfsRead,Volume.perform,other,ne_eq,not_true_eq_false,if_false,shows_.capacity,trims]
    by_cases behind : v.bytes.length ≤ offset.toNat
    · simp only [behind,if_true,Except.map]
    · obtain empty | ⟨d,bytes,simulates,working,same⟩ := shows_.disk
      · simp [empty] at behind
      have length : v.bytes.length = size := by rw [same,bytes.property]
      have inside := @available_inside offset.toNat v.bytes.length count.toNat (Nat.le_of_not_le behind)
      have reads := (simulates.works bytes working).read (inside.trans length.le)
      simp only [behind,if_false,reads,ok_bind,Except.map,← same]
      congr 2
      rw [List.take_eq_take_iff,List.length_drop,available]
      omega
  · simp [sfsRead,Volume.perform,other,Except.map]

theorem Shows.write (shows_ : Shows platform config select password directory m₀ size f v) (path : String)
    {buf : List UInt8} {offset : UInt64} (below : offset.toNat + buf.length < 2 ^ 63) :
    ∃ mount, f.mount.sfsWrite path buf (UInt64.ofNat buf.length) offset =
        (mount,.ok (if path ≠ filePath then -enoent else if v.bytes.length ≤ offset.toNat then 0 else int32 buf.length)) ∧
      Shows platform config select password directory m₀ size { f with mount := mount } (v.perform (.write path buf offset)).1 := by
  have count : (UInt64.ofNat buf.length).toNat = buf.length := UInt64.toNat_ofNat_of_lt' (show buf.length < 2 ^ 64 by omega)
  by_cases other : path = filePath
  · have trims := @trim_eq offset.toNat v.bytes.length buf.length (by omega)
    simp only [sfsWrite,Volume.perform,other,ne_eq,not_true_eq_false,if_false,shows_.capacity,count,trims]
    by_cases behind : v.bytes.length ≤ offset.toNat
    · simp only [behind,if_true]
      exact ⟨f.mount,rfl,shows_⟩
    · obtain empty | ⟨d,bytes,simulates,working,same⟩ := shows_.disk
      · simp [empty] at behind
      have length : v.bytes.length = size := by rw [same,bytes.property]
      have inside := @available_inside offset.toNat v.bytes.length buf.length (Nat.le_of_not_le behind)
      have whole := available_le v.bytes.length offset.toNat buf.length
      have cut : buf.take (available v.bytes.length offset.toNat buf.length) = buf.take (v.bytes.length - offset.toNat) := by
        rw [List.take_eq_take_iff,available]
        omega
      have taken : offset.toNat + (buf.take (available v.bytes.length offset.toNat buf.length)).length ≤ size := by
        rw [List.length_take]
        omega
      obtain ⟨s',written,after⟩ := simulates.write_inside working taken
      simp only [behind,whole,if_false,if_true,written,Except.map]
      have same' : splice v.bytes offset.toNat (buf.take (v.bytes.length - offset.toNat)) =
          (bytes.write offset.toNat (buf.take (available v.bytes.length offset.toNat buf.length)) taken).val := by
        rw [← cut]
        exact congrArg (fun all => splice all offset.toNat (buf.take (available v.bytes.length offset.toNat buf.length))) same
      refine ⟨⟨s',v.bytes.length⟩,rfl,?_,shows_.listed,.inr ⟨_,_,after,rfl,same'⟩⟩
      show v.bytes.length = (splice v.bytes offset.toNat (buf.take (v.bytes.length - offset.toNat))).length
      rw [same']
      exact length.trans (bytes.write offset.toNat _ taken).property.symm
  · simp only [sfsWrite,Volume.perform,other,ne_eq,not_false_eq_true,if_true]
    exact ⟨f.mount,rfl,shows_⟩

theorem Shows.perform (shows_ : Shows platform config select password directory m₀ size f v) {request : FuseRequest}
    (proper : request.Proper) :
    (f.perform request).2 = .ok (v.perform request).2 ∧
      Shows platform config select password directory m₀ size (f.perform request).1 (v.perform request).1 := by
  cases request with
  | readdir path => exact ⟨by simp only [FuseService.perform,Volume.perform,shows_.listed],
      shows_.capacity,by simp only [FuseService.perform,Volume.perform,shows_.listed],shows_.disk⟩
  | getattr path => exact ⟨by simp only [FuseService.perform,Volume.perform,shows_.capacity],shows_⟩
  | access path mask => exact ⟨rfl,shows_⟩
  | readlink path size => exact ⟨rfl,shows_⟩
  | mkdir path mode => exact ⟨rfl,shows_⟩
  | unlink path => exact ⟨rfl,shows_⟩
  | rmdir path => exact ⟨rfl,shows_⟩
  | rename source target => exact ⟨rfl,shows_⟩
  | chmod path mode => exact ⟨rfl,shows_⟩
  | chown path uid gid => exact ⟨rfl,shows_⟩
  | open_ path => exact ⟨rfl,shows_⟩
  | create path mode => exact ⟨rfl,shows_⟩
  | read path size offset =>
    have same : (v.perform (.read path size offset)).1 = v := by
      simp only [Volume.perform]
      split
      · rfl
      · split <;> rfl
    rw [same]
    exact ⟨shows_.read path proper,shows_⟩
  | write path buf offset =>
    obtain ⟨mount,written,after⟩ := shows_.write path proper
    simp only [FuseService.perform,written]
    refine ⟨?_,after⟩
    simp only [Volume.perform,Except.map]
    split
    · rfl
    · split <;> rfl

/-- The callbacks answer as the volume does. -/
theorem Shows.answers (shows_ : Shows platform config select password directory m₀ size f v) {requests : List FuseRequest}
    (proper : ∀ request ∈ requests, request.Proper) : f.answers requests = v.answers requests := by
  induction requests generalizing f v with
  | nil => rfl
  | cons request rest ih =>
    obtain ⟨answer,after⟩ := shows_.perform (proper request List.mem_cons_self)
    have others := ih after fun other member => proper other (List.mem_cons_of_mem _ member)
    rw [FuseService.answers,Volume.answers,answer,others]

/-- A disk that is mounted. -/
theorem Shows.of_init {s : StegoStorage} {d : Disk size} {mount : Mount}
    (simulates : Simulates platform config select password directory m₀ s d) (mounted : Mount.init s = .ok mount) :
    mount.stegoStorage = s ∧ Shows platform config select password directory m₀ size ⟨mount,false⟩ d.volume := by
  obtain ⟨capacity,sized,last⟩ := bind_eq_ok.mp mounted
  obtain rfl := Except.ok.inj last
  have size_ := simulates.getSize
  rw [sized] at size_
  cases working : d.working with
  | none =>
    simp only [Disk.perform,working,Except.map,Option.isSome_none,Bool.false_eq_true,if_false,Except.ok.injEq,
      Answer.size.injEq] at size_
    exact ⟨rfl,by simp [Disk.volume,working,size_],rfl,.inl (by simp [Disk.volume,working])⟩
  | some bytes =>
    simp only [Disk.perform,working,Except.map,Option.isSome_some,if_true,Except.ok.injEq,Answer.size.injEq] at size_
    refine ⟨rfl,?_,rfl,.inr ⟨d,bytes,simulates,working,by simp [Disk.volume,working]⟩⟩
    simp [Disk.volume,working,size_,bytes.property]

end FuseService

/-! ### A process that mounts its disk -/

/-- What a program does with a storage: it makes a request, or mounts it and waits until it is unmounted. -/
inductive Use
  | disk (request : Disk.Request)
  | mount (requests : List FuseRequest)

/-- What it gets: an answer, or the code of `MountFuse` and what the child has answered. -/
inductive Outcome
  | answer (result : Except Failure StegoStorage.Answer)
  | mounted (result : Except Failure (Int × List (Except Failure FuseReply)))

namespace StegoStorage
open CarrierFilesManager FuseService

/-- `FuseService::Init` and `MountFuse` with a fork that succeeds. -/
def use (platform : Platform) (select : File → Bool) (password : List UInt8) (s : StegoStorage) : Use → StegoStorage × Outcome
  | .disk request =>
    ((s.perform platform (opOf select password request)).1,.answer (s.perform platform (opOf select password request)).2)
  | .mount requests =>
    match Mount.init s with
    | .error failure => (s,.mounted (.error failure))
    | .ok mount =>
      let unmounted := mountFuse { mount := mount } true requests
      (unmounted.1.mount.stegoStorage,.mounted (.ok unmounted.2))

def outcomes (platform : Platform) (select : File → Bool) (password : List UInt8) (s : StegoStorage) : List Use → List Outcome
  | [] => []
  | use_::rest =>
    (s.use platform select password use_).2::outcomes platform select password (s.use platform select password use_).1 rest

end StegoStorage

namespace Disk

variable {size : Nat}

/-- Mounting shows the bytes of the disk, and leaves it as it was whatever is written. -/
def use (d : Disk size) : Use → Disk size × Outcome
  | .disk request => ((d.perform request).1,.answer (d.perform request).2)
  | .mount requests => (d,.mounted (.ok (0,d.volume.answers requests)))

def outcomes (d : Disk size) : List Use → List Outcome
  | [] => []
  | use_::rest => (d.use use_).2::outcomes (d.use use_).1 rest

def ProperUse (d : Disk size) : Use → Prop
  | .disk request => d.Proper request
  | .mount requests => ∀ request ∈ requests, request.Proper

end Disk

namespace StegoStorage
open CarrierFilesManager FuseService

variable {platform : Platform} {config : StegoConfig} {select : File → Bool} {password : List UInt8}
  {directory : Directory} {m₀ : CarrierFilesManager} {size : Nat} {s : StegoStorage} {d : Disk size}

theorem Simulates.use (simulates : Simulates platform config select password directory m₀ s d)
    (serves : Serves platform config select password directory m₀ size) {use_ : Use} (proper : d.ProperUse use_) :
    (s.use platform select password use_).2 = (d.use use_).2 ∧
      Simulates platform config select password directory m₀ (s.use platform select password use_).1 (d.use use_).1 := by
  cases use_ with
  | disk request =>
    obtain ⟨after,answer⟩ := simulates.step serves proper
    exact ⟨congrArg Outcome.answer answer,after⟩
  | mount requests =>
    -- `GetSize` returns, so that there is something to mount
    rcases mounted : Mount.init s with failure | mount
    · rcases sized : s.getSize with failure | capacity
      · have refused := simulates.getSize
        rw [sized] at refused
        cases refused
      · simp [Mount.init,sized] at mounted
    obtain ⟨rfl,shows_⟩ := Shows.of_init simulates mounted
    simp only [StegoStorage.use,mounted,mountFuse,if_true,Disk.use,shows_.answers proper]
    exact ⟨trivial,simulates⟩

theorem Simulates.outcomes (simulates : Simulates platform config select password directory m₀ s d)
    (serves : Serves platform config select password directory m₀ size) {uses : List Use}
    (proper : Runs.AllMeet (fun d use_ => (d.use use_).1) Disk.ProperUse d uses) :
    s.outcomes platform select password uses = d.outcomes uses := by
  induction uses generalizing s d with
  | nil => rfl
  | cons use_ rest ih =>
    obtain ⟨outcome,after⟩ := simulates.use serves proper.1
    rw [StegoStorage.outcomes,Disk.outcomes,outcome,ih after proper.2]

end StegoStorage
end StegoDisk
