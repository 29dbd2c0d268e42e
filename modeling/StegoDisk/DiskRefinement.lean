import StegoDisk.Disk
import StegoDisk.Reflection

/-!
The storage in images is a disk. One hypothesis is enough: that the first `Open`, `Load` and `Save` on a directory
return. Then, as long as no carrier is loaded twice, every object that is configured alike answers as the disk does, in
one session after another, whatever new memory holds.
-/
namespace StegoDisk
open Loops

namespace VirtualStorage

variable {env : Environment} {g : PermutationType} {requestedSize : Nat} {key : List UInt8} {s : VirtualStorage}
  {n : Nat} {f : Nat → Nat}

/-- The bytes in front of the checksum. -/
def users (s : VirtualStorage) : List UInt8 := (s.data.getD []).take s.usableCapacity

theorem AppliedAs.users_length (applied : s.AppliedAs env g requestedSize key) (mapped : s.Mapped n f) :
    s.users.length = n - 32 := by
  obtain ⟨data,holds,length,usable,large⟩ := applied.parts mapped
  rw [users,holds,Option.getD_some,List.length_take]
  omega

theorem AppliedAs.read_users (applied : s.AppliedAs env g requestedSize key) (mapped : s.Mapped n f) {offset length : Nat}
    (small : offset + length < 2 ^ 64) :
    s.read offset length = if offset + length ≤ n - 32 then .ok ((s.users.drop offset).take length)
      else .error (.thrown (.outOfRange "index out of range")) := by
  obtain ⟨data,holds,size,usable,large⟩ := applied.parts mapped
  rw [← usable]
  simp only [read,userData,word64_of_lt small,users,holds,Option.getD_some]
  by_cases inRange : offset + length ≤ s.usableCapacity
  · simp only [Nat.not_lt.mpr inRange,inRange,if_true,if_false]
    by_cases none_ : length = 0
    · simp [none_]
    have some_ : data.length ≠ 0 := by omega
    have within : offset + length ≤ data.length := by omega
    simp only [none_,some_,within,if_true,if_false,ok_bind]
    rw [List.drop_take,List.take_take,min_eq_left (by omega)]
  · simp only [Nat.lt_of_not_le inRange,inRange,if_true,if_false,error_bind]

theorem take_splice {bytes block : List UInt8} {start last : Nat} (inside : start + block.length ≤ last)
    (whole : last ≤ bytes.length) : (splice bytes start block).take last = splice (bytes.take last) start block := by
  have front : (bytes.take start).length = start := List.length_take_of_le (by omega)
  simp only [splice,List.append_assoc,List.take_append,front,List.take_take]
  rw [min_eq_right (by omega : start ≤ last),min_eq_left (by omega : start ≤ last),List.take_of_length_le (by omega : block.length ≤ last - start),List.drop_take]
  congr 3
  omega

theorem AppliedAs.write_users (applied : s.AppliedAs env g requestedSize key) (mapped : s.Mapped n f) {offset : Nat}
    {source : List UInt8} (small : offset + source.length < 2 ^ 64) :
    (offset + source.length ≤ n - 32 ∧ ∃ data, s.write offset source = .ok { s with data := data } ∧
      Mapped { s with data := data } n f ∧ users { s with data := data } = splice s.users offset source) ∨
    (¬ offset + source.length ≤ n - 32 ∧
      s.write offset source = .error (.thrown (.outOfRange "index out of range"))) := by
  obtain ⟨data,holds,size,usable,large⟩ := applied.parts mapped
  rw [← usable]
  by_cases inRange : offset + source.length ≤ s.usableCapacity
  · have fits : ¬ word64 (offset + source.length) > s.usableCapacity := by
      rw [word64_of_lt small]
      omega
    by_cases nothing : source.length = 0
    · refine .inl ⟨inRange,s.data,?_,mapped,?_⟩
      · rw [nothing] at fits
        simp only [VirtualStorage.write,userData,nothing,fits,if_false,if_true,ok_bind]
      · obtain rfl := List.length_eq_zero_iff.mp nothing
        simp [splice]
    have held : data.length ≠ 0 := by omega
    have within : offset + source.length ≤ data.length := by omega
    refine .inl ⟨inRange,some (splice data offset source),?_,mapped.replace ((splice_length within).trans size),?_⟩
    · simp only [VirtualStorage.write,userData,fits,nothing,holds,held,within,if_true,if_false,ok_bind]
    · simp only [users,holds,Option.getD_some]
      exact take_splice inRange (by omega)
  · refine .inr ⟨inRange,?_⟩
    simp only [VirtualStorage.write,userData,word64_of_lt small,Nat.lt_of_not_le inRange,if_true,error_bind]

/-- What users read decides their bytes. -/
theorem AppliedAs.users_eq {data : Option MemoryBuffer} (applied : s.AppliedAs env g requestedSize key)
    (mapped : s.Mapped n f) (mapped' : Mapped { s with data := data } n f)
    (reads : ∀ offset length, read { s with data := data } offset length = s.read offset length) :
    users { s with data := data } = s.users := by
  have fits := mapped.fits
  simp only [addressSpace] at fits
  have small : 0 + (n - 32) < 2 ^ 64 := by omega
  have all := reads 0 (n - 32)
  have length := applied.users_length mapped
  have length' := (applied.replace data).users_length mapped'
  rw [applied.read_users mapped small,(applied.replace data).read_users mapped' small,if_pos (by omega),if_pos (by omega),
    List.drop_zero,List.drop_zero,List.take_of_length_le length.le,List.take_of_length_le length'.le] at all
  exact Except.ok.inj all

end VirtualStorage

namespace CarrierFilesManager
open CarrierFile VirtualStorage Segments

variable {env : Environment} {e : Encoder} {g : PermutationType} {m m' : CarrierFilesManager} {ref ref' n n' : Nat}
  {s s' : VirtualStorage} {f f' : Nat → Nat} {directory : Directory}

/-- Images that hold a storage hold its bytes. -/
theorem Stored.reflects (stored : Stored e directory m.carrierFiles s) : Reflects e directory m.carrierFiles n s := by
  rintro k b i p ⟨c,here,block,byte,place⟩ _ _
  obtain ⟨image,found,_,decodes⟩ := stored c (List.mem_of_getElem? here)
  refine ⟨c,image,_,here,found,decodes b block,?_⟩
  simp only at byte place
  rw [← place]
  simp [CarrierFile.stored,byte]

/-- Two storages that were loaded from the same images have the same bytes. -/
theorem Attached.reflects_unique (attached : Attached env e g m ref s n f) (attached' : Attached env e g m' ref' s' n' f')
    (shaped : ∀ c ∈ m.planned env e, Shaped c) (alike : OpenedAlike m m') (reflects : Reflects e directory m.carrierFiles n s)
    (reflects' : Reflects e directory m'.carrierFiles n' s') : s' = { s with data := s'.data } ∧ s'.data = s.data := by
  obtain ⟨rfl,frame,plans⟩ := attached.alike_shares attached' alike
  have applied' := attached'.applied
  rw [← alike.total,← alike.key] at applied'
  have mapped' := attached.applied.mapped applied' attached.mapped attached'.mapped
  obtain ⟨data,holds,_⟩ := attached.mapped.holds
  obtain ⟨data',holds',_⟩ := mapped'.holds
  refine ⟨frame,?_⟩
  rw [holds,holds']
  refine congrArg some (Mapped.ext mapped' attached.mapped holds' holds ?_)
  intro p inside
  obtain ⟨k,b,i,access,own⟩ := attached.exists_access shaped inside
  obtain ⟨c,image,bytes,here,found,decodes,value⟩ := reflects k b i p access inside own
  obtain ⟨c',image',bytes',here',found',decodes',value'⟩ := reflects' k b i p (accesses_plan plans access) inside
    (by rwa [← offset_plan plans])
  have same : c.plan = c'.plan := by
    have both := congrArg (·[k]?) plans
    simpa only [List.getElem?_map,here,here',Option.map_some,Option.some.injEq] using both
  have equal := attached.carrier_eq attached' (List.mem_of_getElem? here) (List.mem_of_getElem? here') same
  rw [equal] at found' decodes'
  obtain rfl := Except.ok.inj (found.symm.trans found')
  obtain rfl := decodes.unique decodes'
  rw [value,value']

/-- Carriers that are not loaded are not saved. -/
theorem saveFiles_unloaded {storages : List VirtualStorage} {files : List CarrierFile} (some_ : files ≠ [])
    (fresh : ∀ c ∈ files, c.fileLoaded = false) (openable : Openable directory files) :
    saveFiles env storages files directory =
      ((files,directory),.error (.thrown (.invalidState .save .file .notLoaded))) := by
  induction files with
  | nil => exact absurd rfl some_
  | cons c rest ih =>
    obtain ⟨image,found,_⟩ := openable c List.mem_cons_self
    have refused : ∀ s, c.saveFile env image s = (c,.error (.thrown (.invalidState .save .file .notLoaded))) := by
      intro s
      rw [saveFile,if_pos (fresh c List.mem_cons_self)]
    simp only [saveFiles,found,refused,error_bind]
    cases rest with
    | nil => rfl
    | cons d others =>
      rw [ih (by simp) (fun c member => fresh c (List.mem_cons_of_mem _ member))
        (fun c member => openable c (List.mem_cons_of_mem _ member))]

end CarrierFilesManager

namespace StegoStorage
open CarrierFilesManager CarrierFile VirtualStorage

variable {platform : Platform} {config : StegoConfig} {select : File → Bool} {password : List UInt8}
  {directory directory' : Directory} {m₀ : CarrierFilesManager} {size : Nat} {s : StegoStorage} {d : Disk size}

/-- The files of a directory, opened as `m₀`, have room for a disk of so many bytes: every carrier has a share. -/
structure Serves (platform : Platform) (config : StegoConfig) (select : File → Bool) (password : List UInt8)
    (directory : Directory) (m₀ : CarrierFilesManager) (size : Nat) : Prop where
  opened : openDirectory platform.env platform.sorting config.localPermutation select password {} directory = (m₀,.ok ())
  some_ : m₀.carrierFiles ≠ []
  accepts : m₀.Accepts platform.env (Encoder.ofType config.encoder)
  capacity : m₀.total platform.env (Encoder.ofType config.encoder) ≠ 0
  applied : ∃ s f, AppliedAs platform.env config.globalPerm (m₀.total platform.env (Encoder.ofType config.encoder))
    (m₀.key platform.env).val s ∧ s.Mapped (size + 32) f
  used : ∀ c ∈ assignShares (m₀.planned platform.env (Encoder.ofType config.encoder)) 0 (size + 32), 0 < c.blocksUsed
  openable : Openable directory m₀.carrierFiles
  narrow : word32 size < 2 ^ 31

/-- The images of the carriers hold some bytes for users. -/
def Contains (platform : Platform) (config : StegoConfig) (m₀ : CarrierFilesManager) (directory : Directory)
    (bytes : List UInt8) : Prop :=
  ∃ m ref s n f, Attached platform.env (Encoder.ofType config.encoder) config.globalPerm m ref s n f ∧ OpenedAlike m m₀ ∧
    Reflects (Encoder.ofType config.encoder) directory m.carrierFiles n s ∧ s.users = bytes

/-- The storage that users read and write, of the size of the disk. -/
def Works (platform : Platform) (config : StegoConfig) (m₀ : CarrierFilesManager) (s : StegoStorage) (bytes : Bytes size) :
    Prop :=
  ∃ ref storage f, s.virtualStorage = some ref ∧ s.manager.virtualStorage = some ref ∧ s.storages[ref]? = some storage ∧
    AppliedAs platform.env config.globalPerm (m₀.total platform.env (Encoder.ofType config.encoder))
      (m₀.key platform.env).val storage ∧ storage.Mapped (size + 32) f ∧ storage.users = bytes.val

/-- The storage behaves as the disk from here on. -/
structure Simulates (platform : Platform) (config : StegoConfig) (select : File → Bool) (password : List UInt8)
    (directory : Directory) (m₀ : CarrierFilesManager) (s : StegoStorage) (d : Disk size) : Prop where
  kept : Kept platform config select password directory s
  opened : s.opened = d.opened
  contains : Contains platform config m₀ s.directory d.kept.val
  absent : d.working = none → s.virtualStorage = none
  works : ∀ bytes, d.working = some bytes → Works platform config m₀ s bytes
  fresh : d.loaded = false → ∀ c ∈ s.manager.carrierFiles, c.fileLoaded = false
  held : d.loaded = true → d.opened = true ∧ d.working ≠ none ∧ ∀ c ∈ s.manager.carrierFiles, c.fileLoaded = true

theorem Simulates.alike (simulates : Simulates platform config select password directory m₀ s d)
    (serves : Serves platform config select password directory m₀ size) (opened : s.opened = true) :
    OpenedAlike s.manager m₀ := by
  obtain ⟨m,ran,alike⟩ := simulates.kept.opened opened
  obtain rfl : m = m₀ := congrArg Prod.fst (ran.symm.trans serves.opened)
  exact alike

/-- A storage that is applied as the files have it has the size of the disk. -/
theorem Serves.size_eq (serves : Serves platform config select password directory m₀ size) {storage : VirtualStorage}
    {n : Nat} {f : Nat → Nat}
    (applied : AppliedAs platform.env config.globalPerm (m₀.total platform.env (Encoder.ofType config.encoder))
      (m₀.key platform.env).val storage) (mapped : storage.Mapped n f) : n = size + 32 := by
  obtain ⟨_,_,applied',mapped'⟩ := serves.applied
  rw [← mapped.raw,applied'.same applied]
  exact mapped'.raw

theorem load_opened (platform : Platform) (s : StegoStorage) : (s.load platform).1.opened = s.opened := by
  rcases load_eq platform s with ⟨_,_,same⟩ | ⟨_,_,⟨_,_,_,same⟩ | ⟨_,_,_,_,_,_,same⟩⟩ <;> rw [same]

/-- `Open` keeps the storage that the manager refers to. -/
theorem open_keeps (platform : Platform) (s : StegoStorage) (select : File → Bool) (password : List UInt8) :
    (s.open_ platform select password).1.virtualStorage = s.virtualStorage ∧
      (s.open_ platform select password).1.manager.virtualStorage = s.manager.virtualStorage ∧
      (s.open_ platform select password).1.storages = s.storages ∧
      (s.open_ platform select password).1.directory = s.directory := by
  unfold open_ loadDirectory
  dsimp only
  rcases foundCarriers s.config.localPermutation (s.directory.entries.filter fun entry => select entry.1) with
    ⟨files,failure | _⟩ <;> exact ⟨rfl,rfl,rfl,rfl⟩

theorem Simulates.open_ (simulates : Simulates platform config select password directory m₀ s d)
    (serves : Serves platform config select password directory m₀ size) :
    Simulates platform config select password directory m₀ (s.open_ platform select password).1 (d.step .open_) ∧
      (s.open_ platform select password).2 = .ok () := by
  have kept := simulates.kept
  obtain ⟨m,again,_⟩ := openDirectory_again serves.opened kept.files s.manager
  obtain ⟨created,_⟩ := @openDirectory_carriers platform.env platform.sorting config.localPermutation select password
    s.manager s.directory
  have unloaded := @unloaded_of_created platform.env select _ s.directory s.directory created (.refl _)
  rw [again] at unloaded
  have result : s.open_ platform select password = ({ s with manager := m, opened := true },.ok ()) := by
    have classes : s.config.localPermutation = config.localPermutation := by
      rw [kept.configuration]
      rfl
    unfold openDirectory at again
    simp only [StegoStorage.open_,classes,again]
  obtain ⟨same,refers,storages,files⟩ := open_keeps platform s select password
  have now := kept.open_
  rw [result] at now same refers storages files ⊢
  refine ⟨⟨now,rfl,?_,?_,?_,?_,?_⟩,rfl⟩
  · exact simulates.contains
  · exact simulates.absent
  · intro bytes holds
    obtain ⟨ref,storage,f,here,there,found,applied⟩ := simulates.works bytes holds
    exact ⟨ref,storage,f,here,refers.trans there,found,applied⟩
  · exact fun _ => unloaded.fresh
  · intro loaded
    cases loaded

/-- A load of carriers that are not loaded returns, with the bytes that the files hold. -/
theorem Simulates.load (simulates : Simulates platform config select password directory m₀ s d)
    (serves : Serves platform config select password directory m₀ size) (fresh : d.loaded = false) :
    Simulates platform config select password directory m₀ (s.load platform).1 (d.step .load) ∧
      ((s.load platform).2.map fun _ => Answer.done) = (d.perform .load).2 := by
  have kept := simulates.kept
  have opened := simulates.opened
  cases open_ : d.opened with
  | false =>
    have refused : s.load platform = (s,.error (.thrown (.invalidState .loadStegoStrorage .storage .notOpened))) := by
      unfold StegoStorage.load
      rw [if_neg (by simp [kept.configuration]),if_pos (opened.trans open_)]
    have same : d.step .load = d := by simp [Disk.step,Disk.perform,open_]
    rw [refused,same]
    exact ⟨simulates,by simp [Disk.perform,open_,Except.map]⟩
  | true =>
    rw [open_] at opened
    obtain ⟨now,files,loaded⟩ := kept.load (simulates.fresh fresh)
    have alike := simulates.alike serves opened
    -- the manager with the encoder set, which is loaded as any manager that is opened so
    obtain ⟨cores,hash⟩ := setEncoder_core s.manager (Encoder.ofType config.encoder)
    have alike' : OpenedAlike (s.manager.setEncoder (Encoder.ofType config.encoder)) m₀ :=
      (OpenedAlike.of_core cores hash).trans alike
    have holds := setEncoder_holds s.manager (Encoder.ofType config.encoder)
    have unloaded : Unloaded platform.env s.directory (s.manager.setEncoder (Encoder.ofType config.encoder)) :=
      Unloaded.of_core ⟨kept.settled,simulates.fresh fresh,kept.sizes⟩ cores.symm hash.symm
    have accepts := alike'.accepts.mpr serves.accepts
    have applies : (s.manager.setEncoder (Encoder.ofType config.encoder)).applyEncoder platform.env =
        ((s.manager.setEncoder (Encoder.ofType config.encoder)).applied platform.env (Encoder.ofType config.encoder),.ok ()) := by
      refine (applyEncoder_eq_ok holds).mpr ⟨alike'.symm.nonempty serves.some_,accepts,?_,rfl⟩
      rw [applied_capacity accepts,alike'.total]
      exact serves.capacity
    obtain ⟨_,f,applied,mapped⟩ := serves.applied
    obtain ⟨s₀,returned⟩ := applied.again mapped (platform.memory s.storages.length)
    have applied' := (applyPermutation_applied (word64_lt _) returned).1
    have raw : s₀.rawCapacity = size + 32 := by
      rw [applied.same applied']
      exact mapped.raw
    rw [← alike'.total,← alike'.key] at returned
    have openable : Openable s.directory (s.manager.setEncoder (Encoder.ofType config.encoder)).carrierFiles :=
      (serves.openable.sameFiles kept.files).blanks alike'.blanks.symm
    have used : ∀ c ∈ assignShares ((s.manager.setEncoder (Encoder.ofType config.encoder)).planned platform.env
        (Encoder.ofType config.encoder)) 0 s₀.rawCapacity, 0 < c.blocksUsed := by
      rw [raw,alike'.planned]
      exact serves.used
    obtain ⟨carriers,storage,n,f',outcome,attached,_,loadedAlike⟩ := @loadVirtualStorage_ok platform.env _ config.globalPerm _
      s.storages.length s₀ s.directory (platform.memory s.storages.length) holds unloaded accepts openable returned used
    have whole : n = size + 32 := by
      have applied'' := attached.applied
      rw [(loadedAlike.trans alike').total,(loadedAlike.trans alike').key] at applied''
      exact serves.size_eq applied'' attached.mapped
    obtain ⟨valid,checked⟩ := (@isValidChecksum_iff _ _ _ _ _ _ _ platform.env.keccak attached.applied attached.mapped).mpr
      (by rw [whole]; exact serves.narrow)
    have returns : (s.load platform).2 = .ok () := by
      have encoder : s.config.encoder = config.encoder := by rw [kept.configuration]
      have global : s.config.globalPerm = config.globalPerm := by rw [kept.configuration]
      have ready : ¬ s.config.initialized = false := by simp [kept.configuration]
      unfold unapplied at outcome
      rw [checked] at outcome
      simp only [StegoStorage.load,ready,opened,encoder,global,applies,outcome,Bool.true_eq_false,if_false,Except.map]
    obtain ⟨_,_,same,ref,storage',n',f'',reflecting⟩ := loaded returns
    obtain ⟨here,there,attached',reflects,openable'⟩ := reflecting
    have now' := same.trans alike
    have step : d.step .load = { d with loaded := true, working := some d.kept } := by
      simp [Disk.step,Disk.perform,open_]
    have applied₁ := attached'.applied
    rw [now'.total,now'.key] at applied₁
    obtain rfl := serves.size_eq applied₁ attached'.mapped
    refine ⟨?_,by simp [returns,Disk.perform,open_,Except.map]⟩
    rw [step]
    refine ⟨now,by rw [load_opened,opened,open_],?_,fun none_ => (by cases none_),?_,fun fresh => (by cases fresh),?_⟩
    · rw [files]
      exact simulates.contains
    · rintro bytes holds
      obtain rfl := Option.some.inj holds
      refine ⟨ref,storage',f'',here,attached'.refers,there,applied₁,attached'.mapped,?_⟩
      obtain ⟨m₁,ref₁,s₁,n₁,f₁,attached₁,alike₁,reflects₁,bytes⟩ := simulates.contains
      have positive : ∀ c ∈ m₁.planned platform.env (Encoder.ofType config.encoder), Shaped c := by
        rw [(alike₁.trans alike'.symm).planned]
        exact planned_shaped accepts unloaded.positive
      rw [files] at reflects
      obtain ⟨frame,same⟩ := attached₁.reflects_unique attached' positive (alike₁.trans now'.symm) reflects₁ reflects
      rw [frame,same]
      exact bytes
    · exact fun _ => ⟨open_,by simp,fun c member => (attached'.loaded c member).1⟩

theorem Simulates.read (simulates : Simulates platform config select password directory m₀ s d) {offset length : Nat}
    (small : offset + length < 2 ^ 64) :
    ((s.read offset length).map Answer.bytes) = (d.perform (.read offset length)).2 := by
  cases working : d.working with
  | none =>
    have none_ : s.current = none := by
      rw [current,simulates.absent working]
      rfl
    simp [StegoStorage.read,none_,Disk.perform,working,Except.map]
  | some bytes =>
    obtain ⟨ref,storage,f,holds,_,there,applied,mapped,same⟩ := simulates.works bytes working
    have reads := applied.read_users mapped small
    rw [Nat.add_sub_cancel,same] at reads
    simp only [StegoStorage.read,current_eq holds there,reads,Disk.perform,working]
    by_cases inRange : offset + length ≤ size
    · simp [inRange,Bytes.read,Except.map]
    · simp [inRange,Except.map]

theorem Simulates.getSize (simulates : Simulates platform config select password directory m₀ s d) :
    (s.getSize.map Answer.size) = (d.perform .getSize).2 := by
  cases working : d.working with
  | none =>
    have none_ : s.current = none := by
      rw [current,simulates.absent working]
      rfl
    simp [StegoStorage.getSize,none_,Disk.perform,working,Except.map]
  | some bytes =>
    obtain ⟨ref,storage,f,holds,_,there,applied,mapped,same⟩ := simulates.works bytes working
    obtain ⟨q,_,permutation,_⟩ := applied.global
    obtain ⟨_,_,_,usable,_⟩ := applied.parts mapped
    simp only [StegoStorage.getSize,current_eq holds there,getUsableCapacity,checkApplied,permutation,applied.isSet,
      Disk.perform,working,usable]
    simp [Except.map]

theorem Simulates.write (simulates : Simulates platform config select password directory m₀ s d) {offset : Nat}
    {source : List UInt8} (small : offset + source.length < 2 ^ 64) :
    Simulates platform config select password directory m₀ (s.write offset source).1 (d.step (.write offset source)) ∧
      ((s.write offset source).2.map fun _ => Answer.done) = (d.perform (.write offset source)).2 := by
  cases working : d.working with
  | none =>
    have none_ := simulates.absent working
    have refused : s.write offset source = (s,.error (.thrown (.invalidState .ioStegoStorage .storage .notLoaded))) := by
      simp [StegoStorage.write,none_]
    have same : d.step (.write offset source) = d := by simp [Disk.step,Disk.perform,working]
    rw [refused,same]
    exact ⟨simulates,by simp [Disk.perform,working,Except.map]⟩
  | some bytes =>
    obtain ⟨ref,storage,f,holds,refers,there,applied,mapped,same⟩ := simulates.works bytes working
    rcases applied.write_users mapped small with ⟨inRange,data,written,mapped',users_⟩ | ⟨outside,refused⟩
    · rw [Nat.add_sub_cancel] at inRange
      have result : s.write offset source =
          ({ s with storages := s.storages.set ref { storage with data := data } },.ok ()) := by
        simp only [StegoStorage.write,current_eq holds there,holds,written]
      have step : d.step (.write offset source) = { d with working := some (bytes.write offset source inRange) } := by
        simp [Disk.step,Disk.perform,working,inRange]
      obtain ⟨inside,_⟩ := List.getElem?_eq_some_iff.mp there
      have now := simulates.kept.write offset source
      rw [result] at now ⊢
      rw [step]
      refine ⟨⟨now,simulates.opened,simulates.contains,fun none_ => (by cases none_),?_,simulates.fresh,?_⟩,?_⟩
      · intro changed kept
        obtain rfl := Option.some.inj kept
        refine ⟨ref,{ storage with data := data },f,holds,refers,List.getElem?_set_self inside,applied.replace data,mapped',?_⟩
        rw [users_,same]
        rfl
      · intro loaded
        obtain ⟨opened,_,all⟩ := simulates.held loaded
        exact ⟨opened,by simp,all⟩
      · simp [Disk.perform,working,inRange,Except.map]
    · rw [Nat.add_sub_cancel] at outside
      have result : s.write offset source = (s,.error (.thrown (.outOfRange "index out of range"))) := by
        simp only [StegoStorage.write,current_eq holds there,holds,refused]
      have step : d.step (.write offset source) = d := by simp [Disk.step,Disk.perform,working,outside]
      rw [result,step]
      exact ⟨simulates,by simp [Disk.perform,working,outside,Except.map]⟩

/-- A save of carriers that are not loaded is refused; it may write a checksum in memory. -/
theorem Simulates.save_unloaded (simulates : Simulates platform config select password directory m₀ s d)
    (serves : Serves platform config select password directory m₀ size) (opened : d.opened = true) {bytes : Bytes size}
    (working : d.working = some bytes) (fresh : d.loaded = false) :
    Simulates platform config select password directory m₀ (s.save platform).1 d ∧
      (s.save platform).2 = .error (.thrown (.invalidState .save .file .notLoaded)) := by
  obtain ⟨ref,storage,f,holds,refers,there,applied,mapped,same⟩ := simulates.works bytes working
  have alike := simulates.alike serves (simulates.opened.trans opened)
  obtain ⟨data,written,mapped',_,reads⟩ := @writeChecksum_ok _ _ _ _ _ _ _ platform.env.keccak applied mapped
    (by rw [Nat.add_sub_cancel]; exact serves.narrow)
  have refused := @saveFiles_unloaded platform.env s.directory (s.storages.set ref { storage with data := data })
    s.manager.carrierFiles (alike.symm.nonempty serves.some_) (simulates.fresh fresh)
    ((serves.openable.sameFiles simulates.kept.files).blanks alike.blanks.symm)
  have result : s.save platform = ({ s with storages := s.storages.set ref { storage with data := data } },
      .error (.thrown (.invalidState .save .file .notLoaded))) := by
    have saved : s.manager.saveVirtualStorage platform.env s.storages s.directory =
        ((s.manager,s.storages.set ref { storage with data := data },s.directory),
          .error (.thrown (.invalidState .save .file .notLoaded))) := by
      simp only [saveVirtualStorage,refers,there,written,refused]
      rw [← refers]
    simp only [StegoStorage.save,simulates.opened.trans opened,holds,saved,Bool.true_eq_false,if_false,Option.isNone_some,
      Bool.false_eq_true]
  have now := simulates.kept.save
  rw [result] at now ⊢
  obtain ⟨inside,_⟩ := List.getElem?_eq_some_iff.mp there
  refine ⟨⟨now,simulates.opened,simulates.contains,simulates.absent,?_,simulates.fresh,simulates.held⟩,rfl⟩
  intro bytes' working'
  obtain rfl := Option.some.inj (working.symm.trans working')
  exact ⟨ref,_,f,holds,refers,List.getElem?_set_self inside,applied.replace data,mapped',
    (applied.users_eq mapped mapped' reads).trans same⟩

/-- A save of carriers that are loaded keeps the bytes. -/
theorem Simulates.save_loaded (simulates : Simulates platform config select password directory m₀ s d)
    (serves : Serves platform config select password directory m₀ size) {bytes : Bytes size}
    (working : d.working = some bytes) (loaded : d.loaded = true) :
    Simulates platform config select password directory m₀ (s.save platform).1 { d with kept := bytes } ∧
      (s.save platform).2 = .ok () := by
  obtain ⟨opened,_,all⟩ := simulates.held loaded
  have alike := simulates.alike serves (simulates.opened.trans opened)
  obtain ⟨ref,storage,f,holds,refers,there,_,_,same⟩ := simulates.works bytes working
  obtain ⟨ref',storage',n,f',holds',there',attached,openable⟩ :=
    simulates.kept.attached (alike.symm.nonempty serves.some_) all
  obtain rfl := Option.some.inj (holds.symm.trans holds')
  obtain rfl := Option.some.inj (there.symm.trans there')
  have applied := attached.applied
  rw [alike.total,alike.key] at applied
  obtain rfl := serves.size_eq applied attached.mapped
  have used : ∀ c ∈ s.manager.carrierFiles, 0 < c.blocksUsed :=
    used_of_plan attached.shares.symm (by rw [alike.planned]; exact serves.used)
  have distinct : (s.manager.carrierFiles.map CarrierFile.file).Nodup := by
    rw [alike.names]
    exact (openDirectory_eq_ok serves.opened).2
  obtain ⟨directory',data,saved,attached',stored,_,_,reads⟩ := attached.saveVirtualStorage_ok there used openable distinct
    (by rw [Nat.add_sub_cancel]; exact serves.narrow)
  have result : s.save platform =
      ({ s with storages := s.storages.set ref { storage with data := data }, directory := directory' },.ok ()) := by
    simp only [StegoStorage.save,simulates.opened.trans opened,holds,saved,Bool.true_eq_false,if_false,Option.isNone_some,
      Bool.false_eq_true]
  have now := simulates.kept.save
  rw [result] at now ⊢
  have users_ := (attached.applied.users_eq attached.mapped attached'.mapped reads).trans same
  obtain ⟨inside,_⟩ := List.getElem?_eq_some_iff.mp there
  refine ⟨⟨now,simulates.opened,?_,simulates.absent,?_,simulates.fresh,simulates.held⟩,rfl⟩
  · exact ⟨s.manager,ref,_,_,f',attached',alike,stored.reflects,users_⟩
  · intro bytes' working'
    obtain rfl := Option.some.inj (working.symm.trans working')
    exact ⟨ref,_,f',holds,refers,List.getElem?_set_self inside,applied.replace data,attached'.mapped,users_⟩

theorem Simulates.save (simulates : Simulates platform config select password directory m₀ s d)
    (serves : Serves platform config select password directory m₀ size) :
    Simulates platform config select password directory m₀ (s.save platform).1 (d.step .save) ∧
      ((s.save platform).2.map fun _ => Answer.done) = (d.perform .save).2 := by
  cases opened : d.opened with
  | false =>
    have refused : s.save platform = (s,.error (.thrown (.invalidState .saveStegoStrorage .storage .notOpened))) := by
      rw [StegoStorage.save,if_pos (simulates.opened.trans opened)]
    have same : d.step .save = d := by simp [Disk.step,Disk.perform,opened]
    rw [refused,same]
    exact ⟨simulates,by simp [Disk.perform,opened,Except.map]⟩
  | true =>
    cases working : d.working with
    | none =>
      have refused : s.save platform = (s,.error (.thrown (.invalidState .saveStegoStrorage .storage .notLoaded))) := by
        simp [StegoStorage.save,simulates.opened.trans opened,simulates.absent working]
      have same : d.step .save = d := by simp [Disk.step,Disk.perform,opened,working]
      rw [refused,same]
      exact ⟨simulates,by simp [Disk.perform,opened,working,Except.map]⟩
    | some bytes =>
      cases loaded : d.loaded with
      | false =>
        obtain ⟨after,refused⟩ := simulates.save_unloaded serves opened working loaded
        have same : d.step .save = d := by simp [Disk.step,Disk.perform,opened,working,loaded]
        rw [refused,same]
        exact ⟨after,by simp [Disk.perform,opened,working,loaded,Except.map]⟩
      | true =>
        obtain ⟨after,returned⟩ := simulates.save_loaded serves working loaded
        have step : d.step .save = { d with kept := bytes } := by simp [Disk.step,Disk.perform,opened,working,loaded]
        rw [returned,step]
        exact ⟨after,by simp [Disk.perform,opened,working,loaded,Except.map]⟩

/-! ### Runs and sessions -/

/-- The call that makes a request of the disk. -/
def opOf (select : File → Bool) (password : List UInt8) : Disk.Request → Op
  | .open_ => .open_ select password
  | .load => .load
  | .read offset length => .read offset length
  | .write offset source => .write offset source
  | .getSize => .getSize
  | .save => .save

theorem Simulates.step (simulates : Simulates platform config select password directory m₀ s d)
    (serves : Serves platform config select password directory m₀ size) {request : Disk.Request}
    (proper : d.Proper request) :
    Simulates platform config select password directory m₀ (step platform s (opOf select password request))
        (d.step request) ∧ (s.perform platform (opOf select password request)).2 = (d.perform request).2 := by
  cases request with
  | open_ =>
    obtain ⟨after,returned⟩ := simulates.open_ serves
    exact ⟨after,by simp [opOf,StegoStorage.perform,returned,Except.map,Disk.perform]⟩
  | load => exact simulates.load serves proper
  | read offset length =>
    have same : d.step (.read offset length) = d := by
      simp only [Disk.step,Disk.perform]
      split
      · rfl
      · split <;> rfl
    rw [same]
    exact ⟨simulates,simulates.read proper⟩
  | write offset source => exact simulates.write proper
  | getSize => exact ⟨simulates,simulates.getSize⟩
  | save => exact simulates.save serves

/-- As long as the requests are proper, the storage answers as the disk does. -/
theorem Simulates.run (simulates : Simulates platform config select password directory m₀ s d)
    (serves : Serves platform config select password directory m₀ size) {requests : List Disk.Request}
    (proper : Runs.AllMeet Disk.step Disk.Proper d requests) :
    answers platform s (requests.map (opOf select password)) = d.answers requests ∧
      Simulates platform config select password directory m₀ (after platform s (requests.map (opOf select password)))
        (d.after requests) := by
  induction requests generalizing s d with
  | nil => exact ⟨rfl,simulates⟩
  | cons request rest ih =>
    obtain ⟨next,answer⟩ := simulates.step serves proper.1
    obtain ⟨others,last⟩ := ih next proper.2
    refine ⟨?_,last⟩
    rw [List.map_cons,answers,Disk.answers,answer,others]

/-- A new object is the disk after a restart. -/
theorem Contains.restart (contains : Contains platform config m₀ directory d.kept.val) :
    Simulates platform config select password directory m₀ (configured config directory) d.restart := by
  refine ⟨kept_configured,rfl,contains,fun _ => rfl,fun bytes working => (by cases working),?_,fun loaded => (by cases loaded)⟩
  intro _ c member
  simp [configured,configure] at member

/-- The files serve as well when the bits of their images have changed. -/
theorem Serves.sameFiles (serves : Serves platform config select password directory m₀ size)
    (same : directory'.SameFiles directory) :
    ∃ m₁, Serves platform config select password directory' m₁ size ∧ OpenedAlike m₀ m₁ := by
  obtain ⟨m₁,opened,carriers,hash⟩ := openDirectory_again serves.opened same {}
  have alike : OpenedAlike m₀ m₁ := ⟨congrArg (List.map blank) carriers.symm,hash.symm⟩
  refine ⟨m₁,⟨opened,?_,alike.accepts.mp serves.accepts,alike.total ▸ serves.capacity,?_,alike.planned ▸ serves.used,?_,
    serves.narrow⟩,alike⟩
  · rw [carriers]
    exact serves.some_
  · rw [← alike.total,← alike.key]
    exact serves.applied
  · exact (serves.openable.sameFiles same).blanks alike.blanks

/-- What one object after another answers, each with the directory that the one before has left and with memory of
    its own. -/
def sessions (platform : Platform) (config : StegoConfig) (select : File → Bool) (password : List UInt8)
    (directory : Directory) : List ((Nat → Nat → UInt8) × List Disk.Request) → List (List (Except Failure Answer))
  | [] => []
  | (memory,requests)::rest =>
    let machine := { platform with memory := memory }
    let ops := requests.map (opOf select password)
    answers machine (configured config directory) ops::
      sessions platform config select password (after machine (configured config directory) ops).directory rest

theorem Serves.sessions (serves : Serves platform config select password directory m₀ size)
    (contains : Contains platform config m₀ directory d.kept.val)
    {all : List ((Nat → Nat → UInt8) × List Disk.Request)} (proper : d.AllProper (all.map Prod.snd)) :
    sessions platform config select password directory all = d.sessions (all.map Prod.snd) := by
  induction all generalizing directory m₀ d with
  | nil => rfl
  | cons session rest ih =>
    obtain ⟨memory,requests⟩ := session
    obtain ⟨first,later⟩ := proper
    -- nothing that is needed depends on what new memory holds
    have serves' : Serves { platform with memory := memory } config select password directory m₀ size :=
      ⟨serves.opened,serves.some_,serves.accepts,serves.capacity,serves.applied,serves.used,serves.openable,serves.narrow⟩
    have restarted : Simulates { platform with memory := memory } config select password directory m₀
        (configured config directory) d.restart := Contains.restart contains
    obtain ⟨answered,simulates⟩ := restarted.run serves' first
    obtain ⟨m₁,serves₁,alike⟩ := serves.sameFiles simulates.kept.files
    obtain ⟨m,ref,s,n,f,attached,alike',reflects,bytes⟩ := simulates.contains
    have contains₁ : Contains platform config m₁ _ (d.restart.after requests).kept.val :=
      ⟨m,ref,s,n,f,attached,alike'.trans alike,reflects,bytes⟩
    rw [List.map_cons,StegoStorage.sessions,Disk.sessions,answered,ih serves₁ contains₁ later]

/-- The first `Open` is that of the directory. -/
theorem configured_open (platform : Platform) (config : StegoConfig) (select : File → Bool) (password : List UInt8)
    (directory : Directory) : ∃ m result,
      openDirectory platform.env platform.sorting config.localPermutation select password {} directory = (m,result) ∧
        (configured config directory).open_ platform select password =
          ({ configured config directory with manager := m, opened := result.isOk },result) := by
  rcases opened : openDirectory platform.env platform.sorting config.localPermutation select password {} directory with
    ⟨m,result⟩
  refine ⟨m,result,rfl,?_⟩
  have loaded : ((configured config directory).manager.setPassword platform.env password).loadDirectory platform.sorting
      (configured config directory).config.localPermutation
      ((configured config directory).directory.entries.filter fun entry => select entry.1) = (m,result) := opened
  unfold StegoStorage.open_
  rw [loaded]
  rcases result with failure | _ <;> rfl

/-- Once `Open`, `Load` and `Save` have returned, the files serve as a disk. -/
theorem serves_of_returns (returns : answers platform (configured config directory) [.open_ select password,.load,.save] =
    List.replicate 3 (.ok .done)) :
    ∃ m₀ size bytes, Serves platform config select password directory m₀ size ∧
      Contains platform config m₀ directory bytes ∧ bytes.length = size := by
  simp only [answers,List.replicate_succ,List.replicate_zero,List.cons.injEq,and_true] at returns
  obtain ⟨opens,loads,saves⟩ := returns
  have done : ∀ {α : Type} {result : Except Failure α}, (result.map fun _ => Answer.done) = .ok .done →
      ∃ value, result = .ok value := by
    intro α result mapped
    rcases result with failure | value
    · cases mapped
    · exact ⟨value,rfl⟩
  obtain ⟨m₀,result₀,opened,ran⟩ := configured_open platform config select password directory
  obtain ⟨_,returned₀⟩ := done opens
  rw [ran] at returned₀
  obtain rfl : result₀ = .ok () := returned₀
  have first : StegoStorage.step platform (configured config directory) (.open_ select password) =
      { configured config directory with manager := m₀, opened := true } := congrArg Prod.fst ran
  rw [first] at loads saves
  obtain ⟨_,returned⟩ := done loads
  rcases load_eq platform { configured config directory with manager := m₀, opened := true } with
    ⟨_,_,same⟩ | ⟨_,_,⟨_,_,_,same⟩ | ⟨m₁,applied,m₂,storage,result,loaded,same⟩⟩
  · rw [same] at returned
    cases returned
  · rw [same] at returned
    cases returned
  rw [same] at returned
  obtain ⟨valid,rfl⟩ : ∃ valid, result = .ok valid := by
    rcases result with failure | valid
    · cases returned
    · exact ⟨valid,rfl⟩
  obtain ⟨rfl,unloaded,accepts,distinct,_⟩ := applied_of_opened opened applied
  obtain ⟨n,f,attached,reflects,alike,openable,checked⟩ := attached_of_load (setEncoder_holds m₀ _) unloaded accepts loaded
  have second : StegoStorage.step platform { configured config directory with manager := m₀, opened := true } .load =
      { configured config directory with
        manager := m₂, opened := true, storages := [storage], virtualStorage := some 0 } := congrArg Prod.fst same
  rw [second] at saves
  obtain ⟨_,saved⟩ := done saves
  rcases save_eq platform { configured config directory with
      manager := m₂, opened := true, storages := [storage], virtualStorage := some 0 } with
    ⟨_,same⟩ | ⟨_,_,m₃,storages,directory',result,ran,same⟩
  · rw [same] at saved
    cases saved
  rw [same] at saved
  obtain rfl : result = .ok () := saved
  have ran : m₂.saveVirtualStorage platform.env [storage] directory = ((m₃,storages,directory'),.ok ()) := ran
  rcases @saveVirtualStorage_cases platform.env m₂ [storage] directory with
    ⟨failure,refused⟩ | ⟨ref,s,s',_,_,_,outcome⟩
  · rw [refused] at ran
    cases ran
  rw [outcome] at ran
  have used := saveFiles_used (congrArg Prod.snd ran)
  obtain ⟨cores,hash⟩ := setEncoder_core m₀ (Encoder.ofType config.encoder)
  have alike₀ := alike.trans (OpenedAlike.of_core cores hash)
  obtain ⟨_,_,_,usable,large⟩ := attached.applied.parts attached.mapped
  have whole : n - 32 + 32 = n := by omega
  have applied' := attached.applied
  rw [alike₀.total,alike₀.key] at applied'
  obtain ⟨_,again⟩ := applied'.again attached.mapped (platform.memory 0)
  obtain ⟨applied'',_,least⟩ := applyPermutation_applied (word64_lt _) again
  have capacity : n ≤ m₀.total platform.env (Encoder.ofType config.encoder) := by
    rw [← attached.mapped.raw,applied''.same applied']
    exact least
  refine ⟨m₀,n - 32,storage.users,⟨opened,?_,alike₀.accepts.mp attached.accepts,by omega,?_,?_,openable.blanks alike₀.blanks,?_⟩,
    ⟨m₂,_,storage,n,f,attached,alike₀,reflects,rfl⟩,attached.applied.users_length attached.mapped⟩
  · obtain ⟨some_,_⟩ := (applyEncoder_eq_ok (setEncoder_holds m₀ _)).mp applied
    exact (OpenedAlike.of_core cores hash).nonempty some_
  · rw [whole]
    exact ⟨storage,f,applied',attached.mapped⟩
  · rw [whole,← alike₀.planned]
    exact used_of_plan attached.shares used
  · exact (isValidChecksum_iff attached.applied attached.mapped).mp ⟨valid,checked⟩

end StegoStorage
end StegoDisk
