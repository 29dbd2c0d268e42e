import StegoDisk.Sessions

/-!
The round trip. Carriers are opened, loaded, written to and saved; opened again from the
files that were saved, with any other manager, they give the storage that was saved.
-/
namespace StegoDisk

namespace CarrierFile

/-- The carrier without what `ApplyEncoder` and `LoadVirtualStorage` give to it anew. -/
def core (c : CarrierFile) : CarrierFile :=
  { file := c.file, rawCapacity := c.rawCapacity, permutation := c.permutation, fileLoaded := c.fileLoaded }

theorem blank_of_core (c : CarrierFile) : c.core.blank = c.blank := rfl

end CarrierFile

namespace CarrierFilesManager
open CarrierFile VirtualStorage Segments

variable {env : Environment} {sorting : Sorting} {localPermutation : Format → PermutationType} {e : Encoder}
  {g : PermutationType} {select : File → Bool} {password : List UInt8} {m m' : CarrierFilesManager}
  {directory directory' : Directory} {files : List CarrierFile} {entries : List (File × Content)}

/-! ### Opening -/

/-- A carrier as it was created for one of the files. -/
structure Created (entries : List (File × Content)) (c : CarrierFile) : Prop where
  fresh : c.blank = c
  positive : 0 < c.rawCapacity
  file : ∃ image, (c.file,.ok image) ∈ entries ∧ image.rawCapacity = c.rawCapacity

theorem Created.cons {c : CarrierFile} (created : Created entries c) (entry : File × Content) : Created (entry::entries) c := by
  obtain ⟨image,member,raw⟩ := created.file
  exact ⟨created.fresh,created.positive,image,List.mem_cons_of_mem _ member,raw⟩

theorem createCarrierFile_created {file : File} {image : Image} {c : CarrierFile}
    (returned : createCarrierFile localPermutation file image = some c) :
    c.file = file ∧ Created ((file,.ok image)::entries) c := by
  unfold createCarrierFile at returned
  split at returned
  · simp at returned
  · rename_i large
    obtain rfl := Option.some.inj returned
    exact ⟨rfl,by simp [blank],by simp only; omega,image,List.mem_cons_self,rfl⟩

/-- The carriers that are found are created for files, at most one for each. -/
theorem foundCarriers_created (entries : List (File × Content)) :
    (∀ c ∈ (foundCarriers localPermutation entries).1, Created entries c) ∧
      ((foundCarriers localPermutation entries).1.map CarrierFile.file).Sublist (entries.map Prod.fst) := by
  induction entries with
  | nil => simp [foundCarriers]
  | cons entry rest ih =>
    obtain ⟨file,failure | image⟩ := entry
    · simp [foundCarriers]
    obtain ⟨all,sub⟩ := ih
    simp only [foundCarriers]
    cases made : createCarrierFile localPermutation file image with
    | none => exact ⟨fun c member => (all c (by simpa using member)).cons _,by simpa using sub.cons file⟩
    | some c =>
      obtain ⟨name,created⟩ := createCarrierFile_created made
      refine ⟨?_,by simpa [name] using sub⟩
      intro d member
      rcases List.mem_cons.mp (by simpa using member) with rfl | later
      · exact created
      · exact (all d later).cons _

/-- `SetPassword` and `LoadDirectory` of the files that are selected. -/
def openDirectory (env : Environment) (sorting : Sorting) (localPermutation : Format → PermutationType)
    (select : File → Bool) (password : List UInt8) (m : CarrierFilesManager) (directory : Directory) :
    CarrierFilesManager × Except Failure Unit :=
  (m.setPassword env password).loadDirectory sorting localPermutation
    (directory.entries.filter fun entry => select entry.1)

/-- What opening leaves, whether it returns or not. -/
theorem openDirectory_carriers (m : CarrierFilesManager) (directory : Directory) :
    (∀ c ∈ (openDirectory env sorting localPermutation select password m directory).1.carrierFiles,
      Created (directory.entries.filter fun entry => select entry.1) c) ∧
      (openDirectory env sorting localPermutation select password m directory).1.passwordHash =
        Hash.process env.keccak password := by
  obtain ⟨created,_⟩ := @foundCarriers_created localPermutation (directory.entries.filter fun entry => select entry.1)
  unfold openDirectory loadDirectory
  rcases found : foundCarriers localPermutation (directory.entries.filter fun entry => select entry.1) with
    ⟨files,failure | _⟩
  · rw [found] at created
    exact ⟨created,rfl⟩
  · rw [found] at created
    exact ⟨fun c member => created c ((sorting.perm files).mem_iff.mp member),rfl⟩

theorem openDirectory_eq_ok (opened : openDirectory env sorting localPermutation select password m directory = (m',.ok ())) :
    m'.carrierFiles = sorting.sort (foundCarriers localPermutation (directory.entries.filter fun entry => select entry.1)).1 ∧
      (m'.carrierFiles.map CarrierFile.file).Nodup := by
  obtain ⟨_,sub⟩ := @foundCarriers_created localPermutation (directory.entries.filter fun entry => select entry.1)
  unfold openDirectory loadDirectory at opened
  rcases found : foundCarriers localPermutation (directory.entries.filter fun entry => select entry.1) with
    ⟨files,failure | _⟩
  · simp [found] at opened
  · rw [found] at sub
    simp only [found,Prod.mk.injEq,and_true] at opened
    obtain rfl := opened
    refine ⟨rfl,?_⟩
    have names : ((directory.entries.filter fun entry => select entry.1).map Prod.fst).Sublist (directory.entries.map Prod.fst) :=
      List.filter_sublist.map Prod.fst
    exact ((sorting.perm files).map CarrierFile.file).nodup_iff.mpr ((directory.distinct.sublist names).sublist sub)

/-- The same files are opened again, whatever bits their images hold. -/
theorem openDirectory_again (opened : openDirectory env sorting localPermutation select password m directory = (m',.ok ()))
    (same : directory'.SameFiles directory) (n : CarrierFilesManager) :
    ∃ n', openDirectory env sorting localPermutation select password n directory' = (n',.ok ()) ∧
      n'.carrierFiles = m'.carrierFiles ∧ n'.passwordHash = m'.passwordHash := by
  have found := @foundCarriers_alike localPermutation _ _ (Directory.alike_filter same select)
  unfold openDirectory loadDirectory at opened ⊢
  rw [found]
  rcases ran : foundCarriers localPermutation (directory.entries.filter fun entry => select entry.1) with
    ⟨files,failure | _⟩
  · simp [ran] at opened
  · simp only [ran,Prod.mk.injEq,and_true] at opened
    subst opened
    exact ⟨_,rfl,rfl,rfl⟩

/-! ### `SetEncoder` -/

theorem setEncoder_holds (m : CarrierFilesManager) (e : Encoder) : (m.setEncoder e).encoder = some e := rfl

theorem setEncoder_core (m : CarrierFilesManager) (e : Encoder) :
    (m.setEncoder e).carrierFiles.map core = m.carrierFiles.map core ∧ (m.setEncoder e).passwordHash = m.passwordHash := by
  unfold setEncoder
  dsimp only
  split
  · exact ⟨by simp only [unSetEncoder,List.map_map]; rfl,rfl⟩
  · exact ⟨rfl,rfl⟩

theorem OpenedAlike.trans {m'' : CarrierFilesManager} (first : OpenedAlike m m') (second : OpenedAlike m' m'') :
    OpenedAlike m m'' := ⟨first.blanks.trans second.blanks,first.passwordHash.trans second.passwordHash⟩

theorem OpenedAlike.of_core (same : m.carrierFiles.map core = m'.carrierFiles.map core)
    (hash : m.passwordHash = m'.passwordHash) : OpenedAlike m m' := by
  have created := congrArg (List.map blank) same
  simp only [List.map_map,Function.comp_def,blank_of_core] at created
  exact ⟨created,hash⟩

/-- Whether carriers can be loaded does not depend on what `ApplyEncoder` gives to them anew. -/
theorem Unloaded.of_core (unloaded : Unloaded env directory m) (same : m.carrierFiles.map core = m'.carrierFiles.map core)
    (hash : m.passwordHash = m'.passwordHash) : Unloaded env directory m' := by
  have key := @OpenedAlike.key env _ _ (.of_core same hash)
  have before : ∀ (i : Nat) (c' : CarrierFile), m'.carrierFiles[i]? = some c' →
      ∃ c, m.carrierFiles[i]? = some c ∧ c.core = c'.core := by
    intro i c' here
    have there : (m.carrierFiles.map core)[i]? = some c'.core := by rw [same,List.getElem?_map,here]; rfl
    rw [List.getElem?_map] at there
    exact Option.map_eq_some_iff.mp there
  refine ⟨?_,?_,?_⟩
  · intro i c' here
    obtain ⟨c,there,cores⟩ := before i c' here
    have settled : SettledFor env (subkey env (m.key env) i c.core) c.core := unloaded.settled i c there
    rw [cores,key] at settled
    exact settled
  · intro c' member
    obtain ⟨i,here⟩ := List.mem_iff_getElem?.mp member
    obtain ⟨c,there,cores⟩ := before i c' here
    exact (congrArg CarrierFile.fileLoaded cores).symm.trans (unloaded.fresh c (List.mem_of_getElem? there))
  · intro c' member image found
    obtain ⟨i,here⟩ := List.mem_iff_getElem?.mp member
    obtain ⟨c,there,cores⟩ := before i c' here
    have file := congrArg CarrierFile.file cores
    have raw := congrArg CarrierFile.rawCapacity cores
    simp only [core] at file raw
    rw [← raw]
    exact unloaded.sizes c (List.mem_of_getElem? there) image (by rw [file]; exact found)

/-- Carriers that were created for files can be loaded, also when the bits of the files have changed. -/
theorem unloaded_of_created (created : ∀ c ∈ m.carrierFiles, Created (directory.entries.filter fun entry => select entry.1) c)
    (same : directory.SameFiles directory') : Unloaded env directory' m := by
  have initial : ∀ c ∈ m.carrierFiles, c.permutation.size = 0 ∧ c.fileLoaded = false := by
    intro c member
    rw [← (created c member).fresh]
    exact ⟨Permutation.size_fresh _,rfl⟩
  refine ⟨?_,fun c member => (initial c member).2,?_⟩
  · intro i c here
    have member := List.mem_of_getElem? here
    exact ⟨(created c member).positive,.inl (initial c member).1⟩
  · intro c member image found
    obtain ⟨before,there,raw⟩ := (created c member).file
    obtain ⟨image',found',shape⟩ := same.image (Directory.image_eq_ok.mpr (List.mem_of_mem_filter there))
    obtain rfl := Except.ok.inj (found'.symm.trans found)
    rw [← shape.rawCapacity,raw]

theorem Unloaded.positive (unloaded : Unloaded env directory m) : ∀ c ∈ m.carrierFiles, 0 < c.rawCapacity := by
  intro c member
  obtain ⟨i,here⟩ := List.mem_iff_getElem?.mp member
  exact (unloaded.settled i c here).1

theorem OpenedAlike.names (alike : OpenedAlike m m') :
    m.carrierFiles.map CarrierFile.file = m'.carrierFiles.map CarrierFile.file := by
  have names := congrArg (List.map CarrierFile.file) alike.blanks
  rw [CarrierFilesManager.blanks,CarrierFilesManager.blanks,List.map_map,List.map_map] at names
  exact names

/-- The carriers as they were planned have blocks that fit. -/
theorem planned_shaped (accepts : m.Accepts env e) (positive : ∀ c ∈ m.carrierFiles, 0 < c.rawCapacity) :
    ∀ c ∈ m.planned env e, Shaped c := by
  have settled : Settled env (m.key env) m.blanks := by
    intro i c here
    rw [blanks,List.getElem?_map] at here
    obtain ⟨original,there,rfl⟩ := Option.map_eq_some_iff.mp here
    exact ⟨positive original (List.mem_of_getElem? there),.inl (Permutation.size_fresh _)⟩
  exact fun c member => (encodeAll_shaped settled (encodable_blank.mpr accepts) c member).2

theorem createdOf_opened (opened : openDirectory env sorting localPermutation select password m directory = (m',.ok ())) :
    ∀ c ∈ m'.carrierFiles, Created (directory.entries.filter fun entry => select entry.1) c := by
  have created := (@openDirectory_carriers env sorting localPermutation select password m directory).1
  rwa [opened] at created

/-- A manager that was opened and has its encoder applied. -/
theorem applied_of_opened {m₀ m₁ m₂ : CarrierFilesManager}
    (opened : openDirectory env sorting localPermutation select password m₀ directory = (m₁,.ok ()))
    (applied : (m₁.setEncoder e).applyEncoder env = (m₂,.ok ())) :
    m₂ = (m₁.setEncoder e).applied env e ∧ Unloaded env directory (m₁.setEncoder e) ∧ (m₁.setEncoder e).Accepts env e ∧
      ((m₁.setEncoder e).carrierFiles.map CarrierFile.file).Nodup ∧
      ∀ c ∈ (m₁.setEncoder e).carrierFiles, ∃ image, directory.image c.file = .ok image := by
  obtain ⟨_,distinct⟩ := openDirectory_eq_ok opened
  have created := createdOf_opened opened
  obtain ⟨cores,hash⟩ := setEncoder_core m₁ e
  have names := (OpenedAlike.of_core cores hash).names
  obtain ⟨_,accepts,_,same⟩ := (applyEncoder_eq_ok (setEncoder_holds m₁ e)).mp applied
  refine ⟨same,(unloaded_of_created created (.refl directory)).of_core cores.symm hash.symm,accepts,names ▸ distinct,?_⟩
  intro c member
  have there : c.file ∈ m₁.carrierFiles.map CarrierFile.file := names ▸ List.mem_map_of_mem member
  obtain ⟨d,held,name⟩ := List.mem_map.mp there
  obtain ⟨image,entry,_⟩ := (created d held).file
  exact ⟨image,Directory.image_eq_ok.mpr (name ▸ List.mem_of_mem_filter entry)⟩

/-! ### There and back -/

variable {ref n : Nat} {s : VirtualStorage} {f : Nat → Nat}

/-- Carriers that are opened again from images that hold a storage are loaded into that storage. -/
theorem Attached.reload (attached : Attached env e g m ref s n f) (used : ∀ c ∈ m.carrierFiles, 0 < c.blocksUsed)
    (stored : Stored e directory m.carrierFiles s) (valid : s.isValidChecksum env.keccak = .ok true)
    (holds : m'.encoder = some e) (unloaded : Unloaded env directory m') (alike : OpenedAlike m m')
    (memory : Nat → UInt8) (ref' : Nat) :
    ∃ files, (m'.applied env e).loadVirtualStorage env memory directory ref' (unapplied g) =
      (((m'.applied env e).withLoaded files ref',s),.ok true) := by
  have accepts := alike.accepts.mp attached.accepts
  obtain ⟨s₀,returned⟩ := attached.applied.again attached.mapped memory
  rw [alike.total,alike.key] at returned
  have raw : s₀.rawCapacity = n := by
    have applied := attached.applied
    rw [alike.total,alike.key] at applied
    rw [applied.same (applyPermutation_applied (word64_lt _) returned).1]
    exact attached.mapped.raw
  have shares : ∀ c ∈ assignShares (m'.planned env e) 0 s₀.rawCapacity, 0 < c.blocksUsed := by
    rw [raw,← alike.planned]
    exact used_of_plan attached.shares used
  have openable : Openable directory m'.carrierFiles := by
    refine Openable.blanks (fun c member => ?_) alike.blanks
    obtain ⟨image,found,opens,_⟩ := stored c member
    exact ⟨image,found,opens⟩
  obtain ⟨files,s',n',f',load,attached',reflects,alike'⟩ := @loadVirtualStorage_ok env e g m' ref' s₀ directory memory
    holds unloaded accepts openable returned shares
  have shaped : ∀ c ∈ m.planned env e, Shaped c := by
    rw [alike.planned]
    exact planned_shaped accepts unloaded.positive
  obtain ⟨frame,bytes⟩ := attached.data_eq attached' shaped (alike.trans ⟨alike'.blanks.symm,alike'.passwordHash.symm⟩)
    stored reflects
  obtain rfl : s' = s := by rw [frame,bytes]
  exact ⟨files,by rw [load,valid]⟩

/-- After a load, whatever bytes the storage has, files of the same shapes are saved. -/
theorem attached_of_session {m₀ m₁ m₂ m₃ : CarrierFilesManager} {memory : Nat → UInt8} {valid : Bool}
    (opened : openDirectory env sorting localPermutation select password m₀ directory = (m₁,.ok ()))
    (applied : (m₁.setEncoder e).applyEncoder env = (m₂,.ok ()))
    (loaded : m₂.loadVirtualStorage env memory directory ref (unapplied g) = ((m₃,s),.ok valid)) :
    ∃ n f, Attached env e g m₃ ref s n f ∧ OpenedAlike m₃ (m₁.setEncoder e) ∧ ∀ directory₁ : Directory,
      directory₁.SameFiles directory → (∀ c ∈ m₃.carrierFiles, 0 < c.blocksUsed) →
      ∀ data, Mapped { s with data := data } n f →
      ∀ storages : List VirtualStorage, storages[ref]? = some { s with data := data } → ∃ directory' data',
        m₃.saveVirtualStorage env storages directory₁ =
          ((m₃,storages.set ref { s with data := data' },directory'),.ok ()) ∧
        Attached env e g m₃ ref { s with data := data' } n f ∧ Stored e directory' m₃.carrierFiles { s with data := data' } ∧
        directory'.SameFiles directory₁ ∧ isValidChecksum env.keccak { s with data := data' } = .ok true ∧
        ∀ offset length, read { s with data := data' } offset length = read { s with data := data } offset length := by
  obtain ⟨rfl,unloaded,accepts,distinct,_⟩ := applied_of_opened opened applied
  obtain ⟨n,f,attached,_,alike,openable,checked⟩ := attached_of_load (setEncoder_holds m₁ e) unloaded accepts loaded
  have narrow := (isValidChecksum_iff attached.applied attached.mapped).mp ⟨valid,checked⟩
  refine ⟨n,f,attached,alike,?_⟩
  intro directory₁ same used data mapped storages there
  rw [← alike.names] at distinct
  exact (attached.replace mapped).saveVirtualStorage_ok there used (openable.sameFiles same) distinct narrow

/-- The files of a manager that is attached, opened again as they were opened for it, are loaded into its storage. -/
theorem Attached.reopen {directory' : Directory} {m₀ m₁ m₂ : CarrierFilesManager} (attached : Attached env e g m ref s n f)
    (used : ∀ c ∈ m.carrierFiles, 0 < c.blocksUsed) (stored : Stored e directory' m.carrierFiles s)
    (valid : s.isValidChecksum env.keccak = .ok true)
    (opened : openDirectory env sorting localPermutation select password m₀ directory = (m₁,.ok ()))
    (applied : (m₁.setEncoder e).applyEncoder env = (m₂,.ok ())) (alike : OpenedAlike m (m₁.setEncoder e))
    (same : directory'.SameFiles directory) (n₀ : CarrierFilesManager) (memory : Nat → UInt8) (ref' : Nat) :
    ∃ n₁ n₂ n₃, openDirectory env sorting localPermutation select password n₀ directory' = (n₁,.ok ()) ∧
      (n₁.setEncoder e).applyEncoder env = (n₂,.ok ()) ∧
      n₂.loadVirtualStorage env memory directory' ref' (unapplied g) = ((n₃,s),.ok true) ∧
      OpenedAlike m n₃ ∧ ∃ n' f', Attached env e g n₃ ref' s n' f' := by
  have created := createdOf_opened opened
  obtain ⟨cores,hash⟩ := setEncoder_core m₁ e
  obtain ⟨some_,accepts,capacity,_⟩ := (applyEncoder_eq_ok (setEncoder_holds m₁ e)).mp applied
  obtain ⟨n₁,opened',carriers',hash'⟩ := openDirectory_again opened same n₀
  obtain ⟨cores',hash''⟩ := setEncoder_core n₁ e
  have again : OpenedAlike (m₁.setEncoder e) (n₁.setEncoder e) := by
    refine .of_core ?_ ?_
    · rw [cores,cores',carriers']
    · rw [hash,hash'',hash']
  have unloaded' : Unloaded env directory' (n₁.setEncoder e) := by
    rw [← carriers'] at created
    exact (unloaded_of_created created same.symm).of_core cores'.symm hash''.symm
  have accepts' : (n₁.setEncoder e).Accepts env e := again.accepts.mp accepts
  have capacity' : ((n₁.setEncoder e).applied env e).capacity ≠ 0 := by
    rw [applied_capacity accepts',← again.total,← applied_capacity accepts]
    exact capacity
  have some' : (n₁.setEncoder e).carrierFiles ≠ [] := by
    intro none_
    have empty := again.blanks
    simp [blanks,none_] at empty
    exact some_ empty
  obtain ⟨files,reloaded⟩ := attached.reload used stored valid (setEncoder_holds n₁ e) unloaded' (alike.trans again) memory ref'
  obtain ⟨n',f',attached',_,alike',_⟩ := attached_of_load (setEncoder_holds n₁ e) unloaded' accepts' reloaded
  exact ⟨n₁,_,_,opened',(applyEncoder_eq_ok (setEncoder_holds n₁ e)).mpr ⟨some',accepts',capacity',rfl⟩,reloaded,
    (alike.trans again).trans ⟨alike'.blanks.symm,alike'.passwordHash.symm⟩,n',f',attached'⟩

/-- Carriers are opened with a password and an encoder, loaded into a storage, which is written to,
    and saved, every carrier having a block at least. Then the saved files, opened by any manager
    with the same password, encoder and permutations, are loaded with a valid checksum into
    the storage that was saved. -/
theorem round_trip (env : Environment) (sorting : Sorting) (localPermutation : Format → PermutationType)
    (g : PermutationType) (e : Encoder) (select : File → Bool) (password : List UInt8) (directory : Directory)
    (m₀ m₁ m₂ m₃ : CarrierFilesManager) (memory : Nat → UInt8) (ref : Nat) (s : VirtualStorage) (valid : Bool)
    (calls : List (Nat × List UInt8))
    (opened : openDirectory env sorting localPermutation select password m₀ directory = (m₁,.ok ()))
    (applied : (m₁.setEncoder e).applyEncoder env = (m₂,.ok ()))
    (loaded : m₂.loadVirtualStorage env memory directory ref (unapplied g) = ((m₃,s),.ok valid))
    (used : ∀ c ∈ m₃.carrierFiles, 0 < c.blocksUsed)
    (inRange : ∀ call ∈ calls, call.1 + call.2.length ≤ s.usableCapacity) :
    ∃ written, s.writes calls = .ok written ∧ ∀ storages : List VirtualStorage, storages[ref]? = some written →
      ∃ m₄ storages' directory' saved,
        m₃.saveVirtualStorage env storages directory = ((m₄,storages',directory'),.ok ()) ∧
        storages'[ref]? = some saved ∧ (∀ offset length, saved.read offset length = written.read offset length) ∧
        ∀ (n₀ : CarrierFilesManager) (memory' : Nat → UInt8) (ref' : Nat), ∃ n₁ n₂ n₃ s',
          openDirectory env sorting localPermutation select password n₀ directory' = (n₁,.ok ()) ∧
          (n₁.setEncoder e).applyEncoder env = (n₂,.ok ()) ∧
          n₂.loadVirtualStorage env memory' directory' ref' (unapplied g) = ((n₃,s'),.ok true) ∧
          s'.data = saved.data ∧ s'.rawCapacity = saved.rawCapacity ∧ s'.usableCapacity = saved.usableCapacity := by
  obtain ⟨n,f,attached,alike,saves⟩ := attached_of_session opened applied loaded
  obtain ⟨data,written,mapped⟩ := attached.applied.writes_ok attached.mapped inRange
  refine ⟨{ s with data := data },written,?_⟩
  intro storages there
  obtain ⟨directory',data',ran,attached',stored,same,valid',reads⟩ :=
    saves directory (.refl _) used data mapped storages there
  obtain ⟨inside,_⟩ := List.getElem?_eq_some_iff.mp there
  refine ⟨m₃,_,directory',_,ran,List.getElem?_set_self inside,reads,?_⟩
  intro n₀ memory' ref'
  obtain ⟨n₁,n₂,n₃,opened',applied',reloaded,_⟩ :=
    attached'.reopen used stored valid' opened applied alike same n₀ memory' ref'
  exact ⟨n₁,n₂,n₃,_,opened',applied',reloaded,rfl,rfl,rfl⟩

/-- A directory with one image of 91 pixels of three bytes, all of them zero. -/
def onePicture : Directory where
  entries := [(⟨[],[97,46,112,110,103]⟩,.ok (.png (List.replicate 273 0)))]
  distinct := by decide

/-- Its carrier after `LoadDirectory`, `ApplyEncoder` and `LoadVirtualStorage`, with identity
    permutations and blocks of one byte. -/
def pictureOpened : CarrierFilesManager :=
  (openDirectory Permutation.twoPrimes .byInsertion (fun _ => .identity) (fun _ => true) [] {} onePicture).1

def pictureApplied : CarrierFilesManager :=
  ((pictureOpened.setEncoder (.lsb .default)).applyEncoder Permutation.twoPrimes).1

def pictureLoaded : CarrierFilesManager × VirtualStorage :=
  (pictureApplied.loadVirtualStorage Permutation.twoPrimes (fun _ => 0) onePicture 0 (unapplied .identity)).1

theorem pictureOpened_eq : openDirectory Permutation.twoPrimes .byInsertion (fun _ => .identity) (fun _ => true) [] {}
    onePicture = (pictureOpened,.ok ()) :=
  eq_of_returns (by decide +kernel)

theorem pictureApplied_eq : (pictureOpened.setEncoder (.lsb .default)).applyEncoder Permutation.twoPrimes =
    (pictureApplied,.ok ()) :=
  eq_of_returns (by decide +kernel)

/-- The files are loaded once for all that is asked about the result. -/
theorem pictureLoaded_facts :
    (pictureApplied.loadVirtualStorage Permutation.twoPrimes (fun _ => 0) onePicture 0 (unapplied .identity)).2 = .ok true ∧
      (∀ c ∈ pictureLoaded.1.carrierFiles, 0 < c.blocksUsed) ∧ 2 ≤ pictureLoaded.2.usableCapacity := by decide +kernel

theorem pictureLoaded_eq : pictureApplied.loadVirtualStorage Permutation.twoPrimes (fun _ => 0) onePicture 0
    (unapplied .identity) = (pictureLoaded,.ok true) :=
  eq_of_returns pictureLoaded_facts.1

theorem pictureLoaded_used : ∀ c ∈ pictureLoaded.1.carrierFiles, 0 < c.blocksUsed := pictureLoaded_facts.2.1

/-- Two bytes are written to it, and it is saved and opened again. -/
theorem round_trip_picture : ∃ written m storages directory' saved n₁ n₂ n₃ s',
    pictureLoaded.2.writes [(0,[7]),(1,[9])] = .ok written ∧
    pictureLoaded.1.saveVirtualStorage Permutation.twoPrimes [written] onePicture = ((m,storages,directory'),.ok ()) ∧
    storages[0]? = some saved ∧
    openDirectory Permutation.twoPrimes .byInsertion (fun _ => .identity) (fun _ => true) [] {} directory' = (n₁,.ok ()) ∧
    (n₁.setEncoder (.lsb .default)).applyEncoder Permutation.twoPrimes = (n₂,.ok ()) ∧
    n₂.loadVirtualStorage Permutation.twoPrimes (fun _ => 255) directory' 0 (unapplied .identity) = ((n₃,s'),.ok true) ∧
    s'.data = saved.data := by
  have loads := pictureLoaded_eq
  have used := pictureLoaded_used
  have room := pictureLoaded_facts.2.2
  generalize pictureLoaded = loaded at *
  obtain ⟨m₃,s⟩ := loaded
  have inRange : ∀ call ∈ [(0,[(7 : UInt8)]),(1,[9])], call.1 + call.2.length ≤ s.usableCapacity := by
    simp only [List.mem_cons,List.not_mem_nil,or_false,forall_eq_or_imp,forall_eq,List.length_cons,List.length_nil]
    dsimp only at room
    omega
  obtain ⟨written,wrote,after⟩ := round_trip Permutation.twoPrimes .byInsertion (fun _ => .identity) .identity (.lsb .default)
    (fun _ => true) [] onePicture {} pictureOpened pictureApplied m₃ (fun _ => 0) 0 s true
    [(0,[7]),(1,[9])] pictureOpened_eq pictureApplied_eq loads used inRange
  obtain ⟨m,storages,directory',saved,save,there,_,again⟩ := after [written] rfl
  obtain ⟨n₁,n₂,n₃,s',opened,applied,load,bytes,_⟩ := again {} (fun _ => 255) 0
  exact ⟨written,m,storages,directory',saved,n₁,n₂,n₃,s',wrote,save,there,opened,applied,load,bytes⟩

end CarrierFilesManager
end StegoDisk
