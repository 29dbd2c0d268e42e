import StegoDisk.Reflection

/-!
Loads that fail. `Load` replaces the storage of `StegoStorage`, those of the carriers and that of
the manager one after another and does not take the changes back, so that a failed one
leaves everything as it was only when it had not begun.
-/
namespace StegoDisk

namespace CarrierFile

variable {env : Environment} {image : Image} {s : VirtualStorage}

theorem loadFile_refers (env : Environment) (file : CarrierFile) (image : Image) (s : VirtualStorage) :
    (file.loadFile env image s).1.1.virtualStorage = file.virtualStorage := by
  obtain ⟨q,loaded,same,_⟩ := loadFile_carrier env file image s
  rw [same]

theorem saveFile_refers (env : Environment) (file : CarrierFile) (image : Image) (s : VirtualStorage) :
    (file.saveFile env image s).1.virtualStorage = file.virtualStorage ∧
      (file.saveFile env image s).1.fileLoaded = file.fileLoaded := by
  obtain ⟨q,same⟩ := saveFile_carrier env file image s
  rw [same]
  exact ⟨rfl,rfl⟩

end CarrierFile

namespace CarrierFilesManager
open CarrierFile

variable {env : Environment} {m m' : CarrierFilesManager} {directory : Directory} {storages : List VirtualStorage}

theorem loadFiles_refers (files : List CarrierFile) (s : VirtualStorage) :
    (loadFiles env directory files s).1.1.map CarrierFile.virtualStorage = files.map CarrierFile.virtualStorage := by
  induction files generalizing s with
  | nil => rfl
  | cons file rest ih =>
    simp only [loadFiles]
    rcases directory.image file.file with failure | image
    · simp only [List.map_cons,ih]
    · simp only [List.map_cons,ih,file.loadFile_refers env image s]

theorem saveFiles_refers (files : List CarrierFile) (directory : Directory) :
    ∀ c ∈ (saveFiles env storages files directory).1.1, ∃ file ∈ files,
      c.virtualStorage = file.virtualStorage ∧ c.fileLoaded = file.fileLoaded := by
  induction files generalizing directory with
  | nil => simp [saveFiles]
  | cons file rest ih =>
    simp only [saveFiles]
    rcases directory.image file.file with failure | image
    · intro c member
      rcases List.mem_cons.mp member with rfl | later
      · exact ⟨c,List.mem_cons_self,rfl,rfl⟩
      · obtain ⟨d,held,same⟩ := ih directory c later
        exact ⟨d,List.mem_cons_of_mem _ held,same⟩
    · intro c member
      rcases List.mem_cons.mp member with rfl | later
      · exact ⟨file,List.mem_cons_self,file.saveFile_refers env image _⟩
      · obtain ⟨d,held,same⟩ := ih _ c later
        exact ⟨d,List.mem_cons_of_mem _ held,same⟩

/-- A load that returned refers to its storage everywhere. -/
theorem loadVirtualStorage_refers {memory : Nat → UInt8} {ref : Nat} {s s' : VirtualStorage} {valid : Bool}
    (loaded : m.loadVirtualStorage env memory directory ref s = ((m',s'),.ok valid)) :
    m'.virtualStorage = some ref ∧ ∀ c ∈ m'.carrierFiles, c.virtualStorage = some ref := by
  rcases holds : m.encoder with _ | e
  · simp [loadVirtualStorage,holds] at loaded
  by_cases active : m.isActiveEncoder = true
  · rcases master : m.masterKey with _ | key
    · simp [loadVirtualStorage,holds,active,master] at loaded
    rw [loadVirtualStorage_eq holds active master] at loaded
    rcases ran : s.applyPermutation env memory m.capacity key.val with ⟨s₀,failure | _⟩
    · simp [ran] at loaded
    simp only [ran] at loaded
    have refers := @loadFiles_refers env directory (assignShares m.carrierFiles ref s₀.rawCapacity) s₀
    rcases tasks : loadFiles env directory (assignShares m.carrierFiles ref s₀.rawCapacity) s₀ with ⟨⟨files,s₁⟩,failure | _⟩
    · simp [tasks] at loaded
    rw [tasks] at loaded refers
    obtain ⟨rfl,_⟩ := Prod.mk.inj (Prod.mk.inj loaded).1
    refine ⟨rfl,?_⟩
    intro c member
    have there : c.virtualStorage ∈ files.map CarrierFile.virtualStorage := List.mem_map_of_mem member
    rw [refers] at there
    obtain ⟨d,held,same⟩ := List.mem_map.mp there
    rw [← same]
    exact assignShares_refers held
  · simp [loadVirtualStorage,holds,active] at loaded

/-- What `SaveVirtualStorage` reads of a manager. -/
theorem saveVirtualStorage_congr (refers : m'.virtualStorage = m.virtualStorage) (files : m'.carrierFiles = m.carrierFiles)
    (storages : List VirtualStorage) (directory : Directory) :
    (m'.saveVirtualStorage env storages directory).2 = (m.saveVirtualStorage env storages directory).2 ∧
      (m'.saveVirtualStorage env storages directory).1.2 = (m.saveVirtualStorage env storages directory).1.2 ∧
      (m'.saveVirtualStorage env storages directory).1.1.carrierFiles =
        (m.saveVirtualStorage env storages directory).1.1.carrierFiles ∧
      (m'.saveVirtualStorage env storages directory).1.1.virtualStorage =
        (m.saveVirtualStorage env storages directory).1.1.virtualStorage := by
  unfold saveVirtualStorage
  rw [refers,files]
  rcases m.virtualStorage with _ | ref
  · exact ⟨rfl,rfl,files,refers⟩
  simp only
  rcases storages[ref]? with _ | s
  · exact ⟨rfl,rfl,files,refers⟩
  simp only
  rcases s.writeChecksum env.keccak with failure | s'
  · exact ⟨rfl,rfl,files,refers⟩
  · exact ⟨rfl,rfl,rfl,rfl⟩

end CarrierFilesManager

namespace StegoStorage
open CarrierFilesManager CarrierFile VirtualStorage

variable {platform : Platform} {s s' : StegoStorage}

/-- The calls that use what was loaded. -/
def IsUse : Op → Prop
  | .read _ _ | .write _ _ | .getSize | .save => True
  | .configure _ | .open_ _ _ | .load => False

/-- The storage that users read is the one whose checksum is written and the one that the carriers embed. -/
structure OneStorage (s : StegoStorage) : Prop where
  manager : s.manager.virtualStorage = s.virtualStorage
  carriers : ∀ c ∈ s.manager.carrierFiles, c.fileLoaded = true → c.virtualStorage = s.virtualStorage

/-- The block sizes and the number of blocks of a carrier. -/
def sizes (c : CarrierFile) : Option Encoder × Nat × Nat × Nat :=
  (c.encoder,c.codewordBlockSize,c.dataBlockSize,c.blockCount)

/-- What holds between two states when the second is as usable as the first. -/
structure Undisturbed (platform : Platform) (s s' : StegoStorage) : Prop where
  answers : ∀ ops, (∀ op ∈ ops, IsUse op) → answers platform s' ops = answers platform s ops
  files : ∀ ops, (∀ op ∈ ops, IsUse op) → (after platform s' ops).directory = (after platform s ops).directory
  one : OneStorage s'
  sizes : s'.manager.carrierFiles.map sizes = s.manager.carrierFiles.map sizes

/-- Every `Load` of a run that throws leaves the storage usable. -/
def FailuresUndisturbed (platform : Platform) (s : StegoStorage) (ops : List Op) : Prop :=
  ∀ front back, ops = front ++ .load::back → Throws ((after platform s front).load platform).2 →
    Undisturbed platform (after platform s front) (after platform s (front ++ [.load]))

/-- A `Load` that does not return fails before it has changed a carrier. -/
def Harmless (platform : Platform) (s : StegoStorage) : Op → Prop
  | .load => (s.load platform).2 = .ok () ∨ s.config.initialized = false ∨ s.opened = false ∨ s.manager.carrierFiles = []
  | _ => True

instance (s : StegoStorage) : ∀ op, Decidable (Harmless platform s op)
  | .load => inferInstanceAs (Decidable (_ ∨ _ ∨ _ ∨ _))
  | .configure _ | .open_ _ _ | .read _ _ | .write _ _ | .getSize | .save => isTrue trivial

/-- Two states that agree on everything that uses look at. -/
structure Agree (s s' : StegoStorage) : Prop where
  opened : s'.opened = s.opened
  virtualStorage : s'.virtualStorage = s.virtualStorage
  storages : s'.storages = s.storages
  directory : s'.directory = s.directory
  refers : s'.manager.virtualStorage = s.manager.virtualStorage
  carriers : s'.manager.carrierFiles = s.manager.carrierFiles

theorem Agree.current (agree : Agree s s') : s'.current = s.current := by
  rw [StegoStorage.current,StegoStorage.current,agree.virtualStorage,agree.storages]

theorem Agree.perform (agree : Agree s s') {op : Op} (use : IsUse op) :
    (s'.perform platform op).2 = (s.perform platform op).2 ∧ Agree (s.perform platform op).1 (s'.perform platform op).1 := by
  cases op with
  | configure config => exact use.elim
  | open_ select password => exact use.elim
  | load => exact use.elim
  | read offset length =>
    refine ⟨?_,agree⟩
    simp only [StegoStorage.perform,read,agree.current]
  | getSize =>
    refine ⟨?_,agree⟩
    simp only [StegoStorage.perform,getSize,agree.current]
  | write offset source =>
    simp only [StegoStorage.perform,write,agree.current,agree.virtualStorage,agree.storages]
    split
    · split
      · exact ⟨rfl,agree⟩
      · exact ⟨rfl,agree.opened,rfl,rfl,agree.directory,agree.refers,agree.carriers⟩
    · exact ⟨rfl,agree⟩
  | save =>
    simp only [StegoStorage.perform,save,agree.opened,agree.virtualStorage,agree.storages,agree.directory]
    obtain ⟨result,changed,carriers,refers⟩ :=
      @saveVirtualStorage_congr platform.env _ _ agree.refers agree.carriers s.storages s.directory
    split
    · exact ⟨rfl,agree⟩
    split
    · exact ⟨rfl,agree⟩
    · exact ⟨by rw [result],rfl,rfl,by rw [changed],by rw [changed],refers,carriers⟩

theorem Agree.uses (agree : Agree s s') {ops : List Op} (uses : ∀ op ∈ ops, IsUse op) :
    answers platform s' ops = answers platform s ops ∧ Agree (after platform s ops) (after platform s' ops) := by
  induction ops generalizing s s' with
  | nil => exact ⟨rfl,agree⟩
  | cons op rest ih =>
    obtain ⟨answer,agree'⟩ := @Agree.perform platform _ _ agree op (uses op List.mem_cons_self)
    obtain ⟨others,last⟩ := ih agree' fun op member => uses op (List.mem_cons_of_mem _ member)
    refine ⟨?_,last⟩
    rw [answers,answers,answer]
    exact congrArg _ others

theorem Agree.undisturbed (agree : Agree s s') (one : OneStorage s) : Undisturbed platform s s' := by
  refine ⟨fun ops uses => (agree.uses uses).1,fun ops uses => (agree.uses uses).2.directory,⟨?_,?_⟩,by rw [agree.carriers]⟩
  · rw [agree.refers,agree.virtualStorage,one.manager]
  · rw [agree.carriers,agree.virtualStorage]
    exact one.carriers

/-! ### Runs -/

/-- A `Load` that fails before it has changed a carrier. -/
theorem Agree.of_harmless (harmless : Harmless platform s .load) (failed : (s.load platform).2 ≠ .ok ()) :
    Agree s (s.load platform).1 := by
  have same : Agree s s := ⟨rfl,rfl,rfl,rfl,rfl,rfl⟩
  rcases load_eq platform s with ⟨_,e,outcome⟩ | ⟨configured,opened,applies⟩
  · rw [outcome]
    exact same
  have none_ : s.manager.carrierFiles = [] := by
    rcases harmless with returned | early | early | none_
    · exact absurd returned failed
    · simp [configured] at early
    · simp [opened] at early
    · exact none_
  obtain ⟨cores,_⟩ := setEncoder_core s.manager (Encoder.ofType s.config.encoder)
  obtain ⟨cores',_,refers⟩ := applyEncoder_core platform.env (s.manager.setEncoder (Encoder.ofType s.config.encoder))
  have refers' : (s.manager.setEncoder (Encoder.ofType s.config.encoder)).virtualStorage = s.manager.virtualStorage := by
    simp only [CarrierFilesManager.setEncoder]
    split <;> rfl
  rcases applies with ⟨m,failure,applied,outcome⟩ | ⟨m,applied,_⟩
  · rw [applied] at cores' refers
    rw [outcome]
    refine ⟨rfl,rfl,rfl,rfl,refers.trans refers',?_⟩
    have empty := cores'.trans cores
    rw [none_,List.map_nil,List.map_eq_nil_iff] at empty
    rw [empty,none_]
  · have some_ := ((applyEncoder_eq_ok (setEncoder_holds _ _)).mp applied).1
    rw [none_,List.map_nil,List.map_eq_nil_iff] at cores
    exact absurd cores some_

/-- Opening leaves carriers that are not loaded. -/
theorem OneStorage.open_ (one : OneStorage s) (select : File → Bool) (password : List UInt8) :
    OneStorage (s.open_ platform select password).1 := by
  obtain ⟨created,_⟩ := @openDirectory_carriers platform.env platform.sorting s.config.localPermutation select password
    s.manager s.directory
  obtain ⟨m,result,ran,opens⟩ := open_eq platform s select password
  have refers : m.virtualStorage = s.manager.virtualStorage := by
    have kept := congrArg (·.1.virtualStorage) ran
    simp only [loadDirectory] at kept
    rw [← kept]
    split <;> rfl
  rw [show openDirectory platform.env platform.sorting s.config.localPermutation select password s.manager s.directory =
    (m,result) from ran] at created
  have unread : ∀ c ∈ m.carrierFiles, c.fileLoaded = true → c.virtualStorage = s.virtualStorage := by
    intro c member loaded
    rw [← (created c member).fresh] at loaded
    simp [blank] at loaded
  rcases opens with ⟨_,same⟩ | ⟨_,same⟩ <;> rw [same] <;> exact ⟨refers.trans one.manager,unread⟩

/-- Saving keeps which carriers are loaded and what they refer to. -/
theorem OneStorage.save (one : OneStorage s) : OneStorage (s.save platform).1 := by
  rcases save_eq platform s with ⟨_,same⟩ | ⟨_,_,m,storages,files,result,ran,same⟩ <;> rw [same]
  · exact one
  rcases @saveVirtualStorage_cases platform.env s.manager s.storages s.directory with
    ⟨failure,refused⟩ | ⟨ref,_,storage',_,_,_,outcome⟩
  · rw [refused] at ran
    obtain ⟨⟨rfl,rfl,rfl⟩,_⟩ := by simpa only [Prod.mk.injEq] using ran
    exact one
  rw [outcome] at ran
  obtain ⟨⟨rfl,rfl,rfl⟩,_⟩ := by simpa only [Prod.mk.injEq] using ran
  refine ⟨one.manager,?_⟩
  intro c member loaded
  obtain ⟨file,held,refers,flag⟩ := saveFiles_refers s.manager.carrierFiles s.directory c member
  exact refers.trans (one.carriers file held (flag.symm.trans loaded))

/-- A call keeps one storage for all, if a `Load` that fails is harmless. -/
theorem OneStorage.step (one : OneStorage s) {op : Op} (harmless : Harmless platform s op) :
    OneStorage (step platform s op) := by
  cases op with
  | configure config => exact ⟨one.manager,one.carriers⟩
  | read offset length => exact one
  | getSize => exact one
  | open_ select password =>
    exact one.open_ select password
  | write offset source =>
    show OneStorage (s.write offset source).1
    rcases s.write_eq offset source with same | ⟨_,_,_,_,_,_,same⟩ <;> rw [same]
    · exact one
    · exact ⟨one.manager,one.carriers⟩
  | save =>
    exact one.save
  | load =>
    show OneStorage (s.load platform).1
    by_cases returned : (s.load platform).2 = .ok ()
    · rcases load_eq platform s with ⟨_,_,same⟩ | ⟨_,_,⟨_,_,_,same⟩ | ⟨m,_,m',storage,result,loaded,same⟩⟩
      · simp [same] at returned
      · simp [same] at returned
      · rw [same] at returned ⊢
        cases result with
        | error failure => simp [Except.map] at returned
        | ok valid =>
          obtain ⟨refers,carriers⟩ := loadVirtualStorage_refers loaded
          exact ⟨refers,fun c member _ => carriers c member⟩
    · have agree := Agree.of_harmless harmless returned
      exact (@Agree.undisturbed platform _ _ agree one).one

/-- In runs in which every `Load` that fails has failed before it changed a carrier, one that throws
    leaves the storage usable. -/
theorem failuresUndisturbed (platform : Platform) (directory : Directory) (ops : List Op)
    (harmless : Runs.AllMeet (step platform) (Harmless platform) { directory := directory } ops) :
    FailuresUndisturbed platform { directory := directory } ops := by
  rintro front back rfl throws
  obtain ⟨harmless₁,last,_⟩ := Runs.allMeet_append.mp harmless
  have one : OneStorage (after platform { directory := directory } front) :=
    harmless₁.run_keeps (fun _ _ _ one harmless => one.step harmless) ⟨rfl,fun c member => by simp at member⟩
  rw [after_append]
  refine Agree.undisturbed (Agree.of_harmless last ?_) one
  intro returned
  simp [returned,Throws] at throws

/-- A storage is loaded before it is opened, and again after that. -/
theorem failuresUndisturbed_early : FailuresUndisturbed countedMemory { directory := onePicture }
    [.configure {},.load,.open_ (fun _ => true) [],.load] :=
  failuresUndisturbed countedMemory onePicture _ (by decide +kernel)

/-- A storage that was loaded gets an encoder for which its carrier is too small. -/
def tooSmall : List Op := [.configure {},.open_ (fun _ => true) [],.load,.configure { encoder := .hamming }]

/-- After the `Load` that throws nothing can be read. -/
theorem not_failuresUndisturbed_small : ¬ FailuresUndisturbed countedMemory { directory := onePicture } (tooSmall ++ [.load]) := by
  intro undisturbed
  have ran : ((after countedMemory { directory := onePicture } tooSmall).load countedMemory).2 =
        .error (.thrown (.outOfRange "VirtualStorage::applyPermutation: capacity ot the storage is too low")) ∧
      answers countedMemory (after countedMemory { directory := onePicture } tooSmall) [.read 0 1] = [.ok (.bytes [0])] ∧
      answers countedMemory (after countedMemory { directory := onePicture } (tooSmall ++ [.load])) [.read 0 1] =
        [.error (.thrown (.outOfRange "index out of range"))] := by
    decide +kernel
  obtain ⟨throws,before,later⟩ := ran
  have same := (undisturbed tooSmall [] rfl ⟨_,throws⟩).answers [.read 0 1] (by simp [IsUse])
  rw [before,later] at same
  simp at same

end StegoStorage
end StegoDisk
