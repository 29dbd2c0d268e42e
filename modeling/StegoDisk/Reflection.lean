import StegoDisk.Interrupted
import StegoDisk.Operations
import StegoDisk.SpareCarriers

/-!
Runs of `StegoStorage` with one configuration and one password. As long as no `Load` is made
while a carrier is loaded, every `Load` that returns gives the bytes that the files hold, and
after a `Save` those that were saved.
-/
namespace StegoDisk
open Loops

namespace VirtualStorage

variable {env : Environment} {g : PermutationType} {requestedSize : Nat} {key : List UInt8} {s s' : VirtualStorage}
  {n : Nat} {f : Nat → Nat} {keccak : Keccak}

/-- What a `WriteChecksum` that returned has done. -/
theorem writeChecksum_inv (applied : s.AppliedAs env g requestedSize key) (mapped : s.Mapped n f)
    (written : s.writeChecksum keccak = .ok s') :
    ∃ data, s' = { s with data := data } ∧ Mapped { s with data := data } n f ∧ ∀ offset length, s'.read offset length = s.read offset length := by
  obtain ⟨data,holds,length,usable,large⟩ := applied.parts mapped
  have front : (data.take s.usableCapacity).length = n - 32 := by rw [List.length_take]; omega
  have narrow : word32 (n - 32) < 2 ^ 31 := by
    by_contra wide
    simp only [writeChecksum,holds,show data.length ≠ 0 by omega,show s.usableCapacity ≠ 0 by omega,or_self,if_false,
      checksum,show s.usableCapacity ≤ data.length by omega,if_true,Hash.processBuffer] at written
    rw [if_neg (by rw [front]; exact wide),error_bind] at written
    simp at written
  obtain ⟨changed,ran,mapped',_,reads⟩ := @writeChecksum_ok _ _ _ _ _ _ _ keccak applied mapped narrow
  obtain rfl := Except.ok.inj (written.symm.trans ran)
  exact ⟨changed,rfl,mapped',reads⟩

/-- A `Read` in front of the checksum returns. -/
theorem AppliedAs.read_ok (applied : s.AppliedAs env g requestedSize key) (mapped : s.Mapped n f) {offset length : Nat}
    (inRange : offset + length ≤ s.usableCapacity) : ∃ bytes, s.read offset length = .ok bytes := by
  obtain ⟨data,holds,size,usable,large⟩ := applied.parts mapped
  have fits := mapped.fits
  simp only [addressSpace] at fits
  have small : word64 (offset + length) = offset + length := word64_of_lt (by omega)
  simp only [read,userData,small,show ¬ offset + length > s.usableCapacity by omega,if_false,holds,
    show data.length ≠ 0 by omega,show offset + length ≤ data.length by omega,if_true]
  split <;> exact ⟨_,rfl⟩

end VirtualStorage

namespace CarrierFilesManager
open CarrierFile VirtualStorage Segments

variable {env : Environment} {e : Encoder} {g : PermutationType} {m m' : CarrierFilesManager} {ref n : Nat}
  {s : VirtualStorage} {f : Nat → Nat} {directory directory' : Directory} {files : List CarrierFile}
  {storages : List VirtualStorage}

theorem Matches.sameFiles (sizes : Matches directory files) (same : directory'.SameFiles directory) : Matches directory' files := by
  intro c member image found
  obtain ⟨before,there,shape⟩ := same.image found
  rw [shape.rawCapacity]
  exact sizes c member before there

/-- Saving changes no carrier when those that are loaded are initialised. -/
theorem saveFiles_same (initialized : ∀ c ∈ files, c.fileLoaded = true → 0 < c.permutation.size) :
    (saveFiles env storages files directory).1.1 = files := by
  induction files generalizing directory with
  | nil => rfl
  | cons c rest ih =>
    have later := fun d member => initialized d (List.mem_cons_of_mem c member)
    simp only [saveFiles]
    rcases opened : directory.image c.file with failure | image
    · exact congrArg (c::·) (ih later)
    · simp only [saveFile_same (initialized c List.mem_cons_self)]
      exact congrArg (c::·) (ih later)

/-- A save that returned has saved carriers that are loaded. -/
theorem saveFiles_loaded (saved : (saveFiles env storages files directory).2 = .ok ()) :
    ∀ c ∈ files, c.fileLoaded = true := by
  induction files generalizing directory with
  | nil => simp
  | cons c rest ih =>
    simp only [saveFiles] at saved
    rcases opened : directory.image c.file with failure | image
    · simp [opened] at saved
    · simp only [opened] at saved
      obtain ⟨image',own,others⟩ := bind_eq_ok.mp saved
      intro d member
      rcases List.mem_cons.mp member with rfl | later
      · by_contra fresh
        rw [saveFile,if_pos (by simpa using fresh)] at own
        simp at own
      · exact ih others d later

/-- `SaveVirtualStorage` fails and changes nothing, or the checksum is written and the tasks run. -/
theorem saveVirtualStorage_cases (m : CarrierFilesManager) (storages : List VirtualStorage) (directory : Directory) :
    (∃ failure, m.saveVirtualStorage env storages directory = ((m,storages,directory),.error failure)) ∨
    ∃ ref s s', m.virtualStorage = some ref ∧ storages[ref]? = some s ∧ s.writeChecksum env.keccak = .ok s' ∧
      m.saveVirtualStorage env storages directory =
        (({ m with carrierFiles := (saveFiles env (storages.set ref s') m.carrierFiles directory).1.1 },storages.set ref s',
          (saveFiles env (storages.set ref s') m.carrierFiles directory).1.2),
          (saveFiles env (storages.set ref s') m.carrierFiles directory).2) := by
  unfold saveVirtualStorage
  rcases holds : m.virtualStorage with _ | ref
  · exact .inl ⟨_,rfl⟩
  simp only
  rcases there : storages[ref]? with _ | s
  · exact .inl ⟨_,rfl⟩
  simp only
  rcases written : s.writeChecksum env.keccak with failure | s'
  · exact .inl ⟨_,rfl⟩
  · refine .inr ⟨ref,s,s',rfl,there,written,?_⟩
    simp only [← holds]

/-- The files of the carriers hold a value for a position of the storage: it is a byte of the
    block that the carrier which owns the position has there. -/
def Holds (e : Encoder) (directory : Directory) (files : List CarrierFile) (p : Nat) (value : UInt8) : Prop :=
  ∃ k b i c image data, Accesses files (k,b,i) p ∧ p < offset files (k + 1) ∧ files[k]? = some c ∧
    directory.image c.file = .ok image ∧ c.DecodesTo e image b data ∧ data[i]? = some value

/-- What a storage reflects its files hold. -/
theorem Attached.holds (attached : Attached env e g m ref s n f) (shaped : ∀ c ∈ m.planned env e, Shaped c)
    (openable : Openable directory m.carrierFiles) (reflects : Reflects e directory m.carrierFiles n s) {p : Nat}
    (inside : p < n) : Holds e directory m.carrierFiles p (s.byteAt p) := by
  obtain ⟨k,b,i,access,own⟩ := attached.exists_access shaped inside
  obtain ⟨c,image,data,here,found,decodes,value⟩ := reflects k b i p access inside own
  refine ⟨k,b,i,c,image,data,access,own,here,found,decodes,?_⟩
  obtain ⟨c',here',block,byte,_⟩ := access
  obtain rfl := Option.some.inj (here'.symm.trans here)
  obtain ⟨h,ready⟩ := attached.ready c' (List.mem_of_getElem? here)
  obtain ⟨image',found',opened⟩ := openable c' (List.mem_of_getElem? here)
  obtain rfl := Except.ok.inj (found'.symm.trans found)
  obtain ⟨buffer,unpacked,_,blocks⟩ := ready.unpacks opened
  obtain ⟨data',decoded,length,_⟩ := blocks b block
  obtain rfl := decodes.unique ⟨buffer,unpacked,decoded⟩
  have within : i < data.length := by rw [length]; exact byte
  rw [value]
  simp [within]

theorem OpenedAlike.symm (alike : OpenedAlike m m') : OpenedAlike m' m := ⟨alike.blanks.symm,alike.passwordHash.symm⟩

theorem OpenedAlike.nonempty (alike : OpenedAlike m m') (some_ : m.carrierFiles ≠ []) : m'.carrierFiles ≠ [] := by
  intro none_
  have empty := alike.blanks
  simp [CarrierFilesManager.blanks,none_] at empty
  exact some_ empty

theorem applied_core (env : Environment) (e : Encoder) (m : CarrierFilesManager) :
    (m.applied env e).carrierFiles.map core = m.carrierFiles.map core := by
  apply List.ext_getElem?
  intro i
  simp only [applied,encodeAll,List.getElem?_map,List.getElem?_mapIdx]
  cases m.carrierFiles[i]? with
  | none => rfl
  | some c => exact congrArg some (CarrierFile.setEncoder_core env e _)

/-- What a load of carriers that are not loaded leaves. A failure leaves one of them not loaded, or
    the manager is attached and only the checksum could not be computed. -/
theorem Unloaded.loadVirtualStorage (unloaded : Unloaded env directory m) (holds : m.encoder = some e)
    (accepts : m.Accepts env e) (some_ : m.carrierFiles ≠ []) {memory : Nat → UInt8} {result : Except Failure Bool}
    (loaded : (m.applied env e).loadVirtualStorage env memory directory ref (unapplied g) = ((m',s),result)) :
    OpenedAlike m' m ∧ Settled env (m'.key env) m'.carrierFiles ∧ Matches directory m'.carrierFiles ∧
      (∀ c ∈ m'.carrierFiles, c.fileLoaded = true → 0 < c.permutation.size) ∧
      ((∃ failure, result = .error failure) ∧ (∃ c ∈ m'.carrierFiles, c.fileLoaded = false) ∨
        ∃ n f, Attached env e g m' ref s n f ∧ Reflects e directory m'.carrierFiles n s ∧ Openable directory m'.carrierFiles) := by
  have matches_of : ∀ {m' : CarrierFilesManager}, OpenedAlike m' m → Matches directory m'.carrierFiles := by
    intro m' alike
    rw [← matches_blank]
    show Matches directory m'.blanks
    rw [alike.blanks]
    exact matches_blank.mpr unloaded.sizes
  rcases @loadVirtualStorage_cases env e g m ref directory memory holds accepts with
    ⟨_,failure,_,outcome⟩ | ⟨s₀,files,s₁,result₁,returned,ran,outcome⟩
  · rw [loaded] at outcome
    obtain ⟨⟨rfl,rfl⟩,rfl⟩ := by simpa only [Prod.mk.injEq] using outcome
    have alike := @applied_alike env e m
    have unloaded' : Unloaded env directory (m.applied env e) := unloaded.of_core (applied_core env e m).symm rfl
    obtain ⟨c,member⟩ := List.exists_mem_of_ne_nil _ (alike.symm.nonempty some_)
    refine ⟨alike,unloaded'.settled,unloaded'.sizes,?_,.inl ⟨⟨failure,rfl⟩,c,member,unloaded'.fresh c member⟩⟩
    exact fun c member loaded => absurd loaded (by simp [unloaded'.fresh c member])
  obtain ⟨_,⟨f₀,mapped₀⟩,_⟩ := applyPermutation_applied (word64_lt _) returned
  obtain ⟨created,settled,initialized,unread⟩ := unloaded.after_tasks accepts mapped₀ ran
  rcases outcome with ⟨failure,rfl,outcome⟩ | ⟨rfl,outcome⟩
  · rw [loaded] at outcome
    obtain ⟨⟨rfl,rfl⟩,rfl⟩ := by simpa only [Prod.mk.injEq] using outcome
    have alike : OpenedAlike { m.applied env e with carrierFiles := files } m := ⟨created,rfl⟩
    exact ⟨alike,alike.key ▸ settled,matches_of alike,initialized,.inl ⟨⟨failure,rfl⟩,unread (by simp)⟩⟩
  · rw [loaded] at outcome
    obtain ⟨⟨rfl,rfl⟩,rfl⟩ := by simpa only [Prod.mk.injEq] using outcome
    obtain ⟨n,f,attached,reflects,alike,openable⟩ := attached_of_loadFiles unloaded accepts returned ran
    exact ⟨alike,alike.key ▸ settled,matches_of alike,initialized,.inr ⟨n,f,attached,reflects,openable⟩⟩

end CarrierFilesManager

namespace StegoStorage
open CarrierFilesManager CarrierFile VirtualStorage

/-- The calls of a run with one configuration and one password: `Configure` is not among them, and
    every `Open` is the same. -/
def Fixed (select : File → Bool) (password : List UInt8) : Op → Prop
  | .configure _ => False
  | .open_ select' password' => select' = select ∧ password' = password
  | _ => True

/-- A `Load` is made while no carrier is loaded. -/
def Careful (s : StegoStorage) : Op → Prop
  | .load => ∀ c ∈ s.manager.carrierFiles, c.fileLoaded = false
  | _ => True

instance (s : StegoStorage) : ∀ op, Decidable (Careful s op)
  | .load => inferInstanceAs (Decidable (∀ c ∈ s.manager.carrierFiles, c.fileLoaded = false))
  | .configure _ | .open_ _ _ | .read _ _ | .write _ _ | .getSize | .save => isTrue trivial

/-- A storage that is configured, before the first `Open`. -/
def configured (config : StegoConfig) (directory : Directory) : StegoStorage := configure { directory := directory } config

variable {platform : Platform} {config : StegoConfig} {select : File → Bool} {password : List UInt8}
  {directory : Directory} {s s' : StegoStorage}

/-- What the calls of such a run keep. -/
structure Kept (platform : Platform) (config : StegoConfig) (select : File → Bool) (password : List UInt8)
    (directory : Directory) (s : StegoStorage) : Prop where
  configuration : s.config = { config with initialized := true }
  files : s.directory.SameFiles directory
  opened : s.opened = true → ∃ m, openDirectory platform.env platform.sorting config.localPermutation select password {}
    directory = (m,.ok ()) ∧ OpenedAlike s.manager m
  settled : Settled platform.env (s.manager.key platform.env) s.manager.carrierFiles
  sizes : Matches s.directory s.manager.carrierFiles
  initialized : ∀ c ∈ s.manager.carrierFiles, c.fileLoaded = true → 0 < c.permutation.size
  attached : s.manager.carrierFiles ≠ [] → (∀ c ∈ s.manager.carrierFiles, c.fileLoaded = true) →
    ∃ ref storage n f, s.virtualStorage = some ref ∧ s.storages[ref]? = some storage ∧
      Attached platform.env (Encoder.ofType config.encoder) config.globalPerm s.manager ref storage n f ∧
      Openable s.directory s.manager.carrierFiles

/-- While no carrier is loaded, little has to be kept. -/
theorem Kept.of_unloaded (same : s.config = { config with initialized := true }) (files : s.directory.SameFiles directory)
    (opened : s.opened = true → ∃ m, openDirectory platform.env platform.sorting config.localPermutation select password {}
      directory = (m,.ok ()) ∧ OpenedAlike s.manager m)
    (unloaded : Unloaded platform.env s.directory s.manager) : Kept platform config select password directory s := by
  refine ⟨same,files,opened,unloaded.settled,unloaded.sizes,?_,?_⟩
  · intro c member loaded
    simp [unloaded.fresh c member] at loaded
  · intro some_ loaded
    obtain ⟨c,member⟩ := List.exists_mem_of_ne_nil _ some_
    simpa [unloaded.fresh c member] using loaded c member

theorem kept_configured : Kept platform config select password directory (configured config directory) := by
  refine .of_unloaded rfl (.refl directory) (fun opened => by simp [configured,configure] at opened) ⟨?_,?_,?_⟩
  · intro i c here
    simp [configured,configure] at here
  · exact fun c member => by simp [configured,configure] at member
  · exact fun c member => by simp [configured,configure] at member

/-! ### One call -/

theorem Kept.open_ (kept : Kept platform config select password directory s) :
    Kept platform config select password directory (s.open_ platform select password).1 := by
  obtain ⟨created,_⟩ := @openDirectory_carriers platform.env platform.sorting config.localPermutation select password
    s.manager s.directory
  have unloaded := @unloaded_of_created platform.env select _ s.directory s.directory created (.refl _)
  obtain ⟨m,result,ran,opens⟩ := open_eq platform s select password
  rw [kept.configuration] at ran
  have ran : openDirectory platform.env platform.sorting config.localPermutation select password s.manager s.directory =
    (m,result) := ran
  rw [ran] at unloaded
  rcases opens with ⟨_,same⟩ | ⟨rfl,same⟩
  · rw [same]
    exact .of_unloaded kept.configuration kept.files (fun opened => by simp at opened) unloaded
  · rw [same]
    obtain ⟨m',ran',carriers,hash⟩ := openDirectory_again ran kept.files.symm {}
    exact .of_unloaded kept.configuration kept.files
      (fun _ => ⟨m',ran',congrArg (List.map blank) carriers.symm,hash.symm⟩) unloaded

theorem Kept.write (kept : Kept platform config select password directory s) (offset : Nat) (source : List UInt8) :
    Kept platform config select password directory (s.write offset source).1 := by
  rcases s.write_eq offset source with same | ⟨ref,storage,storage',holds,there,written,same⟩
  · rw [same]
    exact kept
  rw [same]
  refine ⟨kept.configuration,kept.files,kept.opened,kept.settled,kept.sizes,kept.initialized,?_⟩
  intro some_ loaded
  obtain ⟨ref',held,n,f,refers,found,attached,openable⟩ := kept.attached some_ loaded
  obtain rfl := Option.some.inj (holds.symm.trans refers)
  obtain rfl := Option.some.inj (there.symm.trans found)
  obtain ⟨data,rfl,mapped⟩ := attached.mapped.write_keeps written
  obtain ⟨inside,_⟩ := List.getElem?_eq_some_iff.mp there
  exact ⟨ref,_,n,f,holds,List.getElem?_set_self inside,attached.replace mapped,openable⟩

theorem Kept.save (kept : Kept platform config select password directory s) :
    Kept platform config select password directory (s.save platform).1 := by
  rcases save_eq platform s with ⟨e,same⟩ | ⟨_,_,m,storages,files,result,ran,same⟩
  · rw [same]
    exact kept
  rw [same]
  rcases @saveVirtualStorage_cases platform.env s.manager s.storages s.directory with
    ⟨failure,refused⟩ | ⟨ref,storage,storage',refers,there,written,outcome⟩
  · rw [refused] at ran
    obtain ⟨⟨rfl,rfl,rfl⟩,_⟩ := by simpa only [Prod.mk.injEq] using ran
    exact kept
  have unchanged := @saveFiles_same platform.env s.directory s.manager.carrierFiles (s.storages.set ref storage') kept.initialized
  have shapes := @saveFiles_sameFiles platform.env (s.storages.set ref storage') s.manager.carrierFiles s.directory
  rw [outcome,unchanged] at ran
  obtain ⟨⟨rfl,rfl,rfl⟩,_⟩ := by simpa only [Prod.mk.injEq] using ran
  refine ⟨kept.configuration,shapes.trans kept.files,kept.opened,kept.settled,kept.sizes.sameFiles shapes,kept.initialized,?_⟩
  intro some_ loaded
  obtain ⟨ref',held,n,f,holds,found,attached,openable⟩ := kept.attached some_ loaded
  obtain rfl := Option.some.inj (refers.symm.trans attached.refers)
  obtain rfl := Option.some.inj (there.symm.trans found)
  obtain ⟨data,rfl,mapped,_⟩ := writeChecksum_inv attached.applied attached.mapped written
  obtain ⟨inside,_⟩ := List.getElem?_eq_some_iff.mp there
  exact ⟨ref,_,n,f,holds,List.getElem?_set_self inside,attached.replace mapped,openable.sameFiles shapes⟩

/-- The manager is attached to the storage that users read, which has the bytes of the files. -/
structure Reflecting (platform : Platform) (config : StegoConfig) (s : StegoStorage) (ref : Nat) (storage : VirtualStorage)
    (n : Nat) (f : Nat → Nat) : Prop where
  holds : s.virtualStorage = some ref
  there : s.storages[ref]? = some storage
  attached : Attached platform.env (Encoder.ofType config.encoder) config.globalPerm s.manager ref storage n f
  reflects : Reflects (Encoder.ofType config.encoder) s.directory s.manager.carrierFiles n storage
  openable : Openable s.directory s.manager.carrierFiles

/-- A `Load` while no carrier is loaded keeps the files, and attaches the carriers when it returns. -/
theorem Kept.load (kept : Kept platform config select password directory s)
    (fresh : ∀ c ∈ s.manager.carrierFiles, c.fileLoaded = false) :
    Kept platform config select password directory (s.load platform).1 ∧ (s.load platform).1.directory = s.directory ∧
      ((s.load platform).2 = .ok () → s.opened = true ∧ s.manager.carrierFiles ≠ [] ∧
        OpenedAlike (s.load platform).1.manager s.manager ∧
        ∃ ref storage n f, Reflecting platform config (s.load platform).1 ref storage n f) := by
  have unloaded : Unloaded platform.env s.directory s.manager := ⟨kept.settled,fresh,kept.sizes⟩
  rcases load_eq platform s with ⟨_,failure,same⟩ | ⟨_,opened,applies⟩
  · rw [same]
    exact ⟨kept,rfl,fun returned => by simp at returned⟩
  obtain ⟨m₀,open₀,alike₀⟩ := kept.opened opened
  rw [kept.configuration] at applies
  obtain ⟨cores,hash⟩ := setEncoder_core s.manager (Encoder.ofType config.encoder)
  have holds := setEncoder_holds s.manager (Encoder.ofType config.encoder)
  have alike : OpenedAlike (s.manager.setEncoder (Encoder.ofType config.encoder)) s.manager := .of_core cores hash
  have unloaded' := unloaded.of_core cores.symm hash.symm
  rcases applies with ⟨m,failure,applied,same⟩ | ⟨m,applied,m',storage,result,loaded,same⟩
  · -- `ApplyEncoder` has failed, and no carrier is loaded
    obtain ⟨cores',hash',_⟩ := applyEncoder_core platform.env (s.manager.setEncoder (Encoder.ofType config.encoder))
    rw [applied] at cores' hash'
    rw [same]
    have alike' : OpenedAlike m s.manager := (OpenedAlike.of_core cores' hash').trans alike
    exact ⟨.of_unloaded rfl kept.files (fun _ => ⟨m₀,open₀,alike'.trans alike₀⟩) (unloaded'.of_core cores'.symm hash'.symm),
      rfl,fun returned => by simp at returned⟩
  · obtain ⟨some_,accepts,_,rfl⟩ := (applyEncoder_eq_ok holds).mp applied
    obtain ⟨alike',settled,sizes,initialized,after⟩ := unloaded'.loadVirtualStorage holds accepts some_ loaded
    rw [same]
    have opened' : s.opened = true → ∃ m, openDirectory platform.env platform.sorting config.localPermutation select password
        {} directory = (m,.ok ()) ∧ OpenedAlike m' m := fun _ => ⟨m₀,open₀,(alike'.trans alike).trans alike₀⟩
    rcases after with ⟨⟨failure,rfl⟩,c,member,absent⟩ | ⟨n,f,attached,reflects,openable⟩
    · refine ⟨⟨rfl,kept.files,opened',settled,sizes,initialized,?_⟩,rfl,fun returned => by simp [Except.map] at returned⟩
      exact fun _ all => absurd (all c member) (by simp [absent])
    · have there : (s.storages ++ [storage])[s.storages.length]? = some storage := by simp
      refine ⟨⟨rfl,kept.files,opened',settled,sizes,initialized,?_⟩,rfl,?_⟩
      · exact fun _ _ => ⟨_,storage,n,f,rfl,there,attached,openable⟩
      · exact fun _ => ⟨opened,alike.nonempty some_,alike'.trans alike,_,storage,n,f,rfl,there,attached,reflects,openable⟩

/-- A call of such a run keeps what it needs, if every `Load` is careful. -/
theorem Kept.step (kept : Kept platform config select password directory s) {op : Op} (fixed : Fixed select password op)
    (careful : Careful s op) : Kept platform config select password directory (step platform s op) := by
  cases op with
  | configure config => exact fixed.elim
  | open_ select' password' =>
    obtain ⟨rfl,rfl⟩ := fixed
    exact kept.open_
  | load => exact (kept.load careful).1
  | read offset length => exact kept
  | write offset source => exact kept.write offset source
  | getSize => exact kept
  | save => exact kept.save

theorem Kept.after (kept : Kept platform config select password directory s) {ops : List Op}
    (fixed : ∀ op ∈ ops, Fixed select password op) (careful : Runs.AllMeet (StegoStorage.step platform) Careful s ops) :
    Kept platform config select password directory (after platform s ops) :=
  careful.run_keeps (fun _ op member kept careful => kept.step (fixed op member) careful) kept

/-! ### What is read -/

theorem current_eq {ref : Nat} {storage : VirtualStorage} (holds : s.virtualStorage = some ref)
    (there : s.storages[ref]? = some storage) : s.current = some storage := by
  rw [current,holds]
  exact there

/-- After a `Save` that returned the files hold the storage that users read. -/
theorem Kept.saved (kept : Kept platform config select password directory s) (some_ : s.manager.carrierFiles ≠ [])
    (returned : (s.save platform).2 = .ok ()) :
    ∃ ref saved n f,
      Attached platform.env (Encoder.ofType config.encoder) config.globalPerm s.manager ref saved n f ∧
        Stored (Encoder.ofType config.encoder) (s.save platform).1.directory s.manager.carrierFiles saved ∧
        ∀ offset length, s.read offset length = saved.read offset length := by
  rcases save_eq platform s with ⟨e,same⟩ | ⟨opened,_,m,storages,files,result,ran,same⟩
  · simp [same] at returned
  rw [same] at returned ⊢
  obtain rfl : result = .ok () := returned
  rcases @saveVirtualStorage_cases platform.env s.manager s.storages s.directory with
    ⟨failure,refused⟩ | ⟨ref,storage,storage',refers,there,written,outcome⟩
  · simp [refused] at ran
  rw [outcome] at ran
  obtain ⟨⟨rfl,rfl,rfl⟩,saved⟩ := by simpa only [Prod.mk.injEq] using ran
  obtain ⟨ref',held,n,f,holds,found,attached,openable⟩ := kept.attached some_ (saveFiles_loaded saved)
  obtain rfl := Option.some.inj (refers.symm.trans attached.refers)
  obtain rfl := Option.some.inj (there.symm.trans found)
  obtain ⟨data,rfl,mapped,reads⟩ := writeChecksum_inv attached.applied attached.mapped written
  obtain ⟨inside,_⟩ := List.getElem?_eq_some_iff.mp there
  obtain ⟨m₀,open₀,alike₀⟩ := kept.opened opened
  have distinct : (s.manager.carrierFiles.map CarrierFile.file).Nodup := by
    rw [alike₀.names]
    exact (openDirectory_eq_ok open₀).2
  obtain ⟨directory',ran',stored,_⟩ := saveFiles_ok (List.getElem?_set_self inside) mapped attached.loaded attached.ready
    (saveFiles_used saved) openable distinct
  refine ⟨ref,_,n,f,attached.replace mapped,?_,?_⟩
  · rw [ran']
    exact stored
  · intro offset length
    rw [read,current_eq holds found]
    exact (reads offset length).symm

/-! ### Runs -/

/-- Every byte of new memory is the number of the allocation. -/
def countedMemory : Platform where
  env := Permutation.twoPrimes
  sorting := .byInsertion
  memory ref _ := UInt8.ofNat ref

end StegoStorage
end StegoDisk
