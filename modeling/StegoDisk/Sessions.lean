import StegoDisk.Checksums
import StegoDisk.Saving

/-!
`LoadVirtualStorage` and `SaveVirtualStorage` as a whole: a load whose tasks return attaches
the manager to the new storage, and a manager that is attached stores it in the images.
-/
namespace StegoDisk
namespace CarrierFilesManager
open CarrierFile VirtualStorage Segments

variable {env : Environment} {e : Encoder} {g : PermutationType} {m m' : CarrierFilesManager} {ref n : Nat}
  {s s₀ : VirtualStorage} {f : Nat → Nat} {directory : Directory} {memory : Nat → UInt8}

/-- A load of a manager whose encoder is applied. -/
theorem loadVirtualStorage_eq {key : Key} (holds : m.encoder = some e) (active : m.isActiveEncoder = true)
    (master : m.masterKey = some key) :
    m.loadVirtualStorage env memory directory ref s =
      match s.applyPermutation env memory m.capacity key.val with
      | (s,.error failure) => ((m,s),.error failure)
      | (s,.ok ()) =>
        match loadFiles env directory (assignShares m.carrierFiles ref s.rawCapacity) s with
        | ((files,s),.error failure) => (({ m with carrierFiles := files },s),.error failure)
        | ((files,s),.ok ()) => ((m.withLoaded files ref,s),s.isValidChecksum env.keccak) := by
  obtain ⟨_,_,_,_,_,_,_⟩ := m
  subst holds active master
  simp only [loadVirtualStorage,Bool.true_eq_false,if_false,withLoaded]
  rcases s.applyPermutation env memory _ key.val with ⟨s₀,failure | _⟩
  · rfl
  · simp only
    rcases loadFiles env directory _ s₀ with ⟨⟨files,s⟩,failure | _⟩ <;> rfl

/-- What a load can do: it is refused, the permutation is, or the tasks run on the storage that was allocated. -/
theorem loadVirtualStorage_outcome (env : Environment) (memory : Nat → UInt8) (directory : Directory) (ref : Nat)
    (m : CarrierFilesManager) (s : VirtualStorage) :
    (∃ failure, m.loadVirtualStorage env memory directory ref s = ((m,s),.error failure)) ∨
    ∃ e key t result, m.encoder = some e ∧ s.applyPermutation env memory m.capacity key = (t,result) ∧
      ((∃ failure, result = .error failure ∧ m.loadVirtualStorage env memory directory ref s = ((m,t),.error failure)) ∨
        result = .ok () ∧ ∃ files s' ran, loadFiles env directory (assignShares m.carrierFiles ref t.rawCapacity) t = ((files,s'),ran) ∧
          ((∃ failure, ran = .error failure ∧
              m.loadVirtualStorage env memory directory ref s = (({ m with carrierFiles := files },s'),.error failure)) ∨
            ran = .ok () ∧ m.loadVirtualStorage env memory directory ref s = ((m.withLoaded files ref,s'),s'.isValidChecksum env.keccak))) := by
  rcases Option.eq_none_or_eq_some m.encoder with holds | ⟨e,holds⟩
  · exact .inl ⟨_,by simp only [loadVirtualStorage,holds]; rfl⟩
  by_cases active : m.isActiveEncoder = false
  · exact .inl ⟨_,by simp only [loadVirtualStorage,holds,active,if_true]; rfl⟩
  rcases Option.eq_none_or_eq_some m.masterKey with master | ⟨key,master⟩
  · exact .inl ⟨_,by simp only [loadVirtualStorage,holds,active,Bool.true_eq_false,if_false,master]; rfl⟩
  have load := @loadVirtualStorage_eq env e m ref s directory memory key holds (by simpa using active) master
  rcases applied : s.applyPermutation env memory m.capacity key.val with ⟨t,failure | _⟩
  · rw [applied] at load
    exact .inr ⟨e,key.val,t,_,holds,applied,.inl ⟨failure,rfl,load⟩⟩
  · rw [applied] at load
    dsimp only at load
    rcases loaded : loadFiles env directory (assignShares m.carrierFiles ref t.rawCapacity) t with ⟨⟨files,s'⟩,failure | _⟩
    · rw [loaded] at load
      exact .inr ⟨e,key.val,t,_,holds,applied,.inr ⟨rfl,files,s',_,loaded,.inl ⟨failure,rfl,load⟩⟩⟩
    · rw [loaded] at load
      exact .inr ⟨e,key.val,t,_,holds,applied,.inr ⟨rfl,files,s',_,loaded,.inr ⟨rfl,load⟩⟩⟩

/-- What a load of the manager with its encoder applied can do: it fails before any carrier is
    touched, it fails with the carriers that the tasks leave, or the tasks return. -/
theorem loadVirtualStorage_cases (holds : m.encoder = some e) (accepts : m.Accepts env e) :
    (∃ s failure, (unapplied g).applyPermutation env memory (m.total env e) (m.key env).val = (s,.error failure) ∧
      (m.applied env e).loadVirtualStorage env memory directory ref (unapplied g) =
        ((m.applied env e,s),.error failure)) ∨
    ∃ s₀ files s result, (unapplied g).applyPermutation env memory (m.total env e) (m.key env).val = (s₀,.ok ()) ∧
      loadFiles env directory (assignShares (m.applied env e).carrierFiles ref s₀.rawCapacity) s₀ = ((files,s),result) ∧
      ((∃ failure, result = .error failure ∧
          (m.applied env e).loadVirtualStorage env memory directory ref (unapplied g) =
            (({ m.applied env e with carrierFiles := files },s),.error failure)) ∨
        result = .ok () ∧ (m.applied env e).loadVirtualStorage env memory directory ref (unapplied g) =
          (((m.applied env e).withLoaded files ref,s),s.isValidChecksum env.keccak)) := by
  have load := @loadVirtualStorage_eq env e (m.applied env e) ref (unapplied g) directory memory (m.key env) holds rfl rfl
  rw [← applied_capacity accepts,load]
  rcases ran : (unapplied g).applyPermutation env memory (m.applied env e).capacity (m.key env).val with ⟨s₀,failure | _⟩
  · exact .inl ⟨s₀,failure,rfl,rfl⟩
  · refine .inr ⟨s₀,_,_,_,rfl,rfl,?_⟩
    rcases loaded : loadFiles env directory (assignShares (m.applied env e).carrierFiles ref s₀.rawCapacity) s₀ with
      ⟨⟨files,s⟩,failure | _⟩
    · exact .inl ⟨failure,rfl,by simp [loaded]⟩
    · exact .inr ⟨rfl,by simp [loaded]⟩

theorem opened_blank {c c' : CarrierFile} {image : Image} (same : c.blank = c'.blank) (opened : Opened c image) :
    Opened c' image := by
  have file := congrArg CarrierFile.file same
  have raw := congrArg CarrierFile.rawCapacity same
  simp only [blank] at file raw
  obtain ⟨size,opens,decodes⟩ := opened
  refine ⟨size.trans raw,?_,decodes⟩
  cases image with
  | bmp pixels => simpa only [openImage,file,raw] using opens
  | png pixels => rfl
  | jpeg blocks => rfl

/-- The images of the carriers can be opened. -/
def Openable (directory : Directory) (files : List CarrierFile) : Prop :=
  ∀ c ∈ files, ∃ image, directory.image c.file = .ok image ∧ Opened c image

theorem Openable.blanks {files files' : List CarrierFile} (openable : Openable directory files)
    (same : files.map blank = files'.map blank) : Openable directory files' := by
  intro c member
  have there : c.blank ∈ files.map blank := same ▸ List.mem_map_of_mem member
  obtain ⟨c',held,blanks⟩ := List.mem_map.mp there
  obtain ⟨image,found,opened⟩ := openable c' held
  have file := congrArg CarrierFile.file blanks
  simp only [blank] at file
  exact ⟨image,file ▸ found,opened_blank blanks opened⟩

theorem Openable.sameFiles {directory' : Directory} {files : List CarrierFile} (openable : Openable directory files)
    (same : directory'.SameFiles directory) : Openable directory' files := by
  intro c member
  obtain ⟨image,found,opened⟩ := openable c member
  obtain ⟨image',found',shape⟩ := same.symm.image found
  exact ⟨image',found',opened.shape ⟨shape.format.symm,shape.bits.symm⟩⟩

/-- Carriers that were loaded can be opened. -/
theorem openable_of_results {files : List CarrierFile} {results : List (CarrierFile × List Call)}
    (all : List.Forall₂ (LoadedAs env e directory) files results) : Openable directory (results.map Prod.fst) := by
  intro c member
  obtain ⟨k,here⟩ := List.mem_iff_getElem?.mp member
  rw [List.getElem?_map] at here
  obtain ⟨result,there,rfl⟩ := Option.map_eq_some_iff.mp here
  obtain ⟨file,_,loaded⟩ := Loops.forall₂_right all there
  have plans := congrArg blank loaded.plan
  rw [blank_of_plan,blank_of_plan] at plans
  obtain ⟨image,found,_,_,_,opened,_⟩ := loaded
  have name := congrArg CarrierFile.file plans
  simp only [blank] at name
  exact ⟨image,name ▸ found,opened_blank plans.symm opened⟩

/-- A load that returned has attached the manager, and the storage has the bytes of the images. -/
theorem attached_of_loadFiles (unloaded : Unloaded env directory m) (accepts : m.Accepts env e)
    (returned : (unapplied g).applyPermutation env memory (m.total env e) (m.key env).val = (s₀,.ok ()))
    {files : List CarrierFile}
    (ran : loadFiles env directory (assignShares (m.applied env e).carrierFiles ref s₀.rawCapacity) s₀ =
      ((files,s),.ok ())) :
    ∃ n f, Attached env e g ((m.applied env e).withLoaded files ref) ref s n f ∧ Reflects e directory files n s ∧
      OpenedAlike ((m.applied env e).withLoaded files ref) m ∧ Openable directory files := by
  obtain ⟨_,⟨f,mapped⟩,_⟩ := applyPermutation_applied (word64_lt _) returned
  obtain ⟨waiting,sizes⟩ := unloaded.waiting accepts ref s₀.rawCapacity
  obtain ⟨results,all,rfl,rfl⟩ := loadFiles_inv waiting sizes mapped ran
  obtain ⟨attached,reflects,alike⟩ := attached_of_results unloaded accepts returned mapped all
  exact ⟨_,f,attached,reflects,alike,openable_of_results all⟩

/-- A load that returned has attached the manager to the storage. -/
theorem attached_of_load (holds : m.encoder = some e) (unloaded : Unloaded env directory m) (accepts : m.Accepts env e)
    {valid : Bool} (loaded : (m.applied env e).loadVirtualStorage env memory directory ref (unapplied g) =
      ((m',s),.ok valid)) :
    ∃ n f, Attached env e g m' ref s n f ∧ Reflects e directory m'.carrierFiles n s ∧ OpenedAlike m' m ∧
      Openable directory m'.carrierFiles ∧ s.isValidChecksum env.keccak = .ok valid := by
  rcases @loadVirtualStorage_cases env e g m ref directory memory holds accepts with
    ⟨_,failure,_,outcome⟩ | ⟨s₀,files,s₁,result,returned,ran,outcome⟩
  · rw [outcome] at loaded
    simp at loaded
  rcases outcome with ⟨failure,_,outcome⟩ | ⟨rfl,outcome⟩
  · rw [outcome] at loaded
    simp at loaded
  · rw [outcome] at loaded
    obtain ⟨both,checked⟩ := Prod.mk.inj loaded
    obtain ⟨rfl,rfl⟩ := Prod.mk.inj both
    obtain ⟨n,f,attached,reflects,alike,openable⟩ := attached_of_loadFiles unloaded accepts returned ran
    exact ⟨n,f,attached,reflects,alike,openable,checked⟩

theorem used_of_plan {files files' : List CarrierFile} (same : files.map plan = files'.map plan)
    (used : ∀ c ∈ files, 0 < c.blocksUsed) : ∀ c ∈ files', 0 < c.blocksUsed := by
  intro c member
  have there : c.plan ∈ files.map plan := same ▸ List.mem_map_of_mem member
  obtain ⟨c',held,plans⟩ := List.mem_map.mp there
  have blocks := congrArg CarrierFile.blocksUsed plans
  simp only [plan] at blocks
  rw [← blocks]
  exact used c' held

/-- Carriers that all have a share of the storage are loaded. -/
theorem loadVirtualStorage_ok (holds : m.encoder = some e) (unloaded : Unloaded env directory m)
    (accepts : m.Accepts env e) (openable : Openable directory m.carrierFiles)
    (returned : (unapplied g).applyPermutation env memory (m.total env e) (m.key env).val = (s₀,.ok ()))
    (used : ∀ c ∈ assignShares (m.planned env e) 0 s₀.rawCapacity, 0 < c.blocksUsed) :
    ∃ files s n f, (m.applied env e).loadVirtualStorage env memory directory ref (unapplied g) =
        (((m.applied env e).withLoaded files ref,s),s.isValidChecksum env.keccak) ∧
      Attached env e g ((m.applied env e).withLoaded files ref) ref s n f ∧ Reflects e directory files n s ∧
      OpenedAlike ((m.applied env e).withLoaded files ref) m := by
  obtain ⟨_,⟨h,mapped⟩,_⟩ := applyPermutation_applied (word64_lt _) returned
  obtain ⟨waiting,_⟩ := unloaded.waiting accepts ref s₀.rawCapacity
  have shares := used_of_plan (applied_shares accepts ref 0 s₀.rawCapacity).symm used
  have created : m.carrierFiles.map blank = (assignShares (m.applied env e).carrierFiles ref s₀.rawCapacity).map blank := by
    rw [blanks_assignShares]
    exact (@applied_alike env e m).blanks.symm
  obtain ⟨results,_,ran⟩ := loadFiles_ok waiting shares (openable.blanks created) s₀.rawCapacity h
  rcases @loadVirtualStorage_cases env e g m ref directory memory holds accepts with
    ⟨_,failure,refused,_⟩ | ⟨s₁,files,s,result,returned',ran',outcome⟩
  · simp [returned] at refused
  · obtain rfl : s₀ = s₁ := congrArg Prod.fst (returned.symm.trans returned')
    rw [ran s₀ mapped] at ran'
    obtain ⟨both,rfl⟩ := Prod.mk.inj ran'
    obtain ⟨rfl,rfl⟩ := Prod.mk.inj both
    rcases outcome with ⟨failure,failed,_⟩ | ⟨_,outcome⟩
    · simp at failed
    · obtain ⟨n,f,attached,reflects,alike,_⟩ := attached_of_loadFiles unloaded accepts returned (ran s₀ mapped)
      exact ⟨_,_,n,f,outcome,attached,reflects,alike⟩

/-! ### `SaveVirtualStorage` -/

theorem Attached.replace (attached : Attached env e g m ref s n f) {data : Option MemoryBuffer}
    (mapped : Mapped { s with data := data } n f) : Attached env e g m ref { s with data := data } n f :=
  ⟨attached.accepts,attached.applied.replace data,mapped,attached.enough,attached.shares,attached.refers,attached.loaded,
    attached.ready⟩

/-- A manager that is attached and whose carriers all have a share saves the storage with its checksum. -/
theorem Attached.saveVirtualStorage_ok {storages : List VirtualStorage} (attached : Attached env e g m ref s n f)
    (there : storages[ref]? = some s) (used : ∀ c ∈ m.carrierFiles, 0 < c.blocksUsed)
    (openable : Openable directory m.carrierFiles) (distinct : (m.carrierFiles.map CarrierFile.file).Nodup)
    (narrow : word32 (n - 32) < 2 ^ 31) :
    ∃ directory' data, m.saveVirtualStorage env storages directory =
        ((m,storages.set ref { s with data := data },directory'),.ok ()) ∧
      Attached env e g m ref { s with data := data } n f ∧
      Stored e directory' m.carrierFiles { s with data := data } ∧ directory'.SameFiles directory ∧
      isValidChecksum env.keccak { s with data := data } = .ok true ∧
      ∀ offset length, read { s with data := data } offset length = s.read offset length := by
  obtain ⟨data,written,mapped,valid,reads⟩ := writeChecksum_ok attached.applied attached.mapped narrow
  obtain ⟨inside,_⟩ := List.getElem?_eq_some_iff.mp there
  have now : (storages.set ref { s with data := data })[ref]? = some { s with data := data } :=
    List.getElem?_set_self inside
  obtain ⟨directory',ran,stored,_⟩ := saveFiles_ok now mapped attached.loaded attached.ready used openable distinct
  have kept := @saveFiles_sameFiles env (storages.set ref { s with data := data }) m.carrierFiles directory
  rw [ran] at kept
  refine ⟨directory',data,?_,attached.replace mapped,stored,kept,valid,reads⟩
  simp only [saveVirtualStorage,attached.refers,there,written,ran]
  rw [← attached.refers]

end CarrierFilesManager
end StegoDisk
