import StegoDisk.ConfiguredRuns
import StegoDisk.Layout

/-!
The settings of file types. `CreatePermutation` looks for the permutation of an entry when a carrier is created;
nothing looks for its encoder, and `ApplyEncoder` gives one encoder to all carriers.
-/
namespace StegoDisk

namespace Settings

/-- The encoder that a file type should have: that of its entry, or the global one. -/
def encoderFor (s : Settings) (format : Format) : EncoderType := ((s.fileConfig format.extension).map Prod.fst).getD s.encoder

/-- The local permutation that a file type should have. -/
def permutationFor (s : Settings) (format : Format) : PermutationType :=
  ((s.fileConfig format.extension).map Prod.snd).getD s.localPerm

end Settings

/-- Every carrier has the encoder and the permutation of its type, and its capacity under that encoder; and the capacity
    of the manager is the sum of these. -/
structure TypesHonoured (env : Environment) (settings : Settings) (directory : Directory) (m : CarrierFilesManager) : Prop where
  carriers : ∀ c ∈ m.carrierFiles, ∃ image, directory.image c.file = .ok image ∧
    c.encoder = some (Encoder.ofType (settings.encoderFor image.format)) ∧
    c.permutation.type = settings.permutationFor image.format ∧
    c.capacity = (c.setEncoder env (Encoder.ofType (settings.encoderFor image.format))).1.capacity
  capacity : m.capacity = word64 ((m.carrierFiles.map CarrierFile.capacity).sum)

theorem Settings.view_localPermutation (s : Settings) (format : Format) :
    s.view.localPermutation format = s.permutationFor format := by
  simp only [StegoConfig.localPermutation,view,permutationFor]

theorem Encoder.ofType_injective : Function.Injective Encoder.ofType := by
  intro a b same
  cases a <;> cases b <;> simp only [Encoder.ofType,reduceCtorEq] at same <;> rfl

namespace CarrierFile

variable {env : Environment} {e : Encoder}

theorem setEncoder_capacity {c d : CarrierFile} (planned : c.plan = d.plan) :
    (c.setEncoder env e).1.capacity = (d.setEncoder env e).1.capacity := by
  have subkey : c.subkey = d.subkey := (congrArg CarrierFile.subkey planned : c.plan.subkey = d.plan.subkey)
  have raw : c.rawCapacity = d.rawCapacity := (congrArg CarrierFile.rawCapacity planned : c.plan.rawCapacity = d.plan.rawCapacity)
  have capacity : c.capacity = d.capacity := (congrArg CarrierFile.capacity planned : c.plan.capacity = d.plan.capacity)
  have type : c.permutation.type = d.permutation.type := by
    have same := congrArg (fun c : CarrierFile => c.permutation.type) planned
    simpa [plan] using same
  have size : { c with encoder := some e, dataBlockSize := e.dataBlockSize, codewordBlockSize := e.codewordBlockSize }.predictedSize
      env = { d with encoder := some e, dataBlockSize := e.dataBlockSize, codewordBlockSize := e.codewordBlockSize }.predictedSize
      env := by
    simp only [predictedSize,subkey,raw]
    split
    · rfl
    · exact Permutation.getSizeUsingParams_type type
  simp only [setEncoder,size]
  split
  · exact capacity
  · rfl

/-- Setting the encoder again changes nothing about the capacity. -/
theorem setEncoder_again (c : CarrierFile) (ref offset used : Nat) :
    (((c.setEncoder env e).1.addToVirtualStorage ref offset used).setEncoder env e).1.capacity =
      (c.setEncoder env e).1.capacity := by
  cases size : { c with encoder := some e, dataBlockSize := e.dataBlockSize,
                        codewordBlockSize := e.codewordBlockSize }.predictedSize env with
  | error failure =>
    simp only [setEncoder,size,addToVirtualStorage]
    simp only [predictedSize] at size ⊢
    rw [size]
  | ok n =>
    simp only [setEncoder,size,addToVirtualStorage]
    simp only [predictedSize] at size ⊢
    rw [size]

end CarrierFile

namespace CarrierFilesManager
open CarrierFile

variable {env : Environment} {e : Encoder} {m m' : CarrierFilesManager} {ref n : Nat}

/-- A carrier that has got its share was created, and has the encoder and the capacity that it had with it. -/
theorem planned_carrier
    (plans : m'.carrierFiles.map plan = (assignShares ((m.setEncoder e).applied env e).carrierFiles ref n).map plan) :
    m'.blanks = m.blanks ∧ (∀ c ∈ m'.carrierFiles, c.encoder = some e ∧ c.capacity = (c.setEncoder env e).1.capacity) ∧
      m'.carrierFiles.map CarrierFile.capacity = ((m.setEncoder e).applied env e).carrierFiles.map CarrierFile.capacity := by
  obtain ⟨cores,hash⟩ := setEncoder_core m e
  refine ⟨?_,?_,?_⟩
  · have same := congrArg (List.map blank) plans
    simp only [List.map_map,Function.comp_def,blank_of_plan] at same
    exact (same.trans (blanks_assignShares _ ref n)).trans
      ((@applied_alike env e (m.setEncoder e)).blanks.trans (OpenedAlike.of_core cores hash).blanks)
  · intro c member
    have planned := List.mem_map_of_mem (f := plan) member
    rw [plans] at planned
    obtain ⟨d,assigned,same⟩ := List.mem_map.mp planned
    obtain ⟨k,there⟩ := List.mem_iff_getElem?.mp assigned
    rw [assignShares_get] at there
    obtain ⟨original,held,rfl⟩ := Option.map_eq_some_iff.mp there
    have encoder := applied_encoder (m.setEncoder e) e original (List.mem_of_getElem? held)
    obtain ⟨i,x,_,rfl⟩ := List.mem_mapIdx.mp (List.mem_of_getElem? held)
    refine ⟨(congrArg CarrierFile.encoder same).symm.trans encoder,?_⟩
    rw [setEncoder_capacity same.symm,encode,setEncoder_again]
    exact (congrArg CarrierFile.capacity same).symm
  · have same := congrArg (List.map CarrierFile.capacity) plans
    simp only [List.map_map] at same
    refine Eq.trans same (List.ext_getElem? fun k => ?_)
    rw [List.getElem?_map,List.getElem?_map,assignShares_get,Option.map_map]
    rfl

/-- An enumeration that goes through has accepted every file. -/
theorem accepted_of_found {localPermutation : Format → PermutationType} {entries : List (File × Content)}
    (found : (foundCarriers localPermutation entries).2 = .ok ()) : ∀ entry ∈ entries, ∃ image, entry.2 = .ok image := by
  induction entries with
  | nil => simp
  | cons head rest ih =>
    obtain ⟨file,failure | image⟩ := head
    · cases found
    · intro entry member
      rcases List.mem_cons.mp member with rfl | later
      · exact ⟨image,rfl⟩
      · exact ih found entry later

end CarrierFilesManager

namespace StegoStorage
open CarrierFilesManager

variable {platform : Platform} {s s' : StegoStorage} {select : File → Bool} {password : List UInt8}

/-- The carriers of an `Open` that returned are those of the selected files. -/
theorem mem_opened (opened : s.open_ platform select password = (s',.ok ())) {c : CarrierFile} :
    c ∈ s'.manager.carrierFiles ↔ ∃ image, (c.file,.ok image) ∈ s.directory.entries ∧ select c.file = true ∧
      createCarrierFile s.config.localPermutation c.file image = some c := by
  obtain ⟨m,result,ran,outcome⟩ := open_eq platform s select password
  have manager : s'.manager = m := by
    rw [opened] at outcome
    rcases outcome with ⟨_,left⟩ | ⟨_,left⟩
    · exact congrArg StegoStorage.manager left
    · exact congrArg StegoStorage.manager left
  have returned : result = .ok () := by
    rcases outcome with ⟨⟨failure,rfl⟩,_⟩ | ⟨same,_⟩
    · simp only [StegoStorage.open_,ran,Prod.mk.injEq,reduceCtorEq,and_false] at opened
    · exact same
  subst returned manager
  have ran' : openDirectory platform.env platform.sorting s.config.localPermutation select password s.manager s.directory =
    (s'.manager,.ok ()) := ran
  have found : (foundCarriers s.config.localPermutation (s.directory.entries.filter fun entry => select entry.1)).2 = .ok () := by
    unfold loadDirectory at ran
    split at ran
    · cases (Prod.mk.inj ran).2
    · rename_i same
      rw [same]
  rw [(openDirectory_eq_ok ran').1,(platform.sorting.perm _).mem_iff,mem_foundCarriers (accepted_of_found found)]
  simp only [List.mem_filter,and_assoc]

end StegoStorage

namespace Session
open StegoStorage CarrierFilesManager

/-- An `Open` and a `Load` honour the settings of file types exactly when no selected carrier is of a type whose entry
    has another encoder than the global one. -/
theorem typesHonoured_iff (platform : Platform) (s s₁ s₂ : Session) (select : File → Bool) (password : List UInt8)
    (opened : s.perform platform (.open_ select password) = (s₁,.ok ()))
    (loaded : s₁.perform platform .load = (s₂,.ok ())) :
    TypesHonoured platform.env s.settings s.storage.directory s₂.storage.manager ↔
      ∀ file image e p, (file,.ok image) ∈ s.storage.directory.entries → select file = true → 1 ≤ image.rawCapacity →
        s.settings.fileConfig image.format.extension = some (e,p) → e = s.settings.encoder := by
  obtain ⟨rfl,opens⟩ := Prod.mk.inj opened
  obtain ⟨rfl,loads⟩ := Prod.mk.inj loaded
  have carriers := fun c => @mem_opened platform s.storage _ select password (Prod.ext rfl opens) c
  have config : (s.storage.open_ platform select password).1.config = s.settings.view := (open_config ..).trans s.agrees
  obtain ⟨_,capacity,⟨ref,n,plans⟩,_⟩ := load_plans (Prod.ext rfl loads) (congrArg (fun c => Encoder.ofType c.encoder) config)
  obtain ⟨blanks,encoded,capacities⟩ := planned_carrier plans
  -- the carrier of a file before and after the load
  have blank : ∀ {c d : CarrierFile}, d.blank = c.blank → d.file = c.file ∧ d.permutation.type = c.permutation.type := by
    intro c d same
    have type := congrArg (fun c : CarrierFile => c.permutation.type) same
    exact ⟨(congrArg CarrierFile.file same : d.blank.file = c.blank.file),by simpa [CarrierFile.blank] using type⟩
  constructor
  · intro honoured file image e p entry chosen large configured
    obtain ⟨c,created,name⟩ : ∃ c, createCarrierFile s.storage.config.localPermutation file image = some c ∧ c.file = file :=
      ⟨_,if_neg (Nat.not_lt.mpr large),rfl⟩
    subst name
    have first := List.mem_map_of_mem (f := CarrierFile.blank) ((carriers c).mpr ⟨image,entry,chosen,created⟩)
    rw [← CarrierFilesManager.blanks,← blanks] at first
    obtain ⟨d,member,same⟩ := List.mem_map.mp first
    obtain ⟨image',there,encoder,_⟩ := honoured.carriers d member
    rw [(blank same).1,Directory.image_eq_ok.mpr entry] at there
    obtain rfl := Except.ok.inj there
    rw [(encoded d member).1,Settings.encoderFor,configured] at encoder
    exact (Encoder.ofType_injective (Option.some.inj encoder)).symm
  · intro alike
    refine ⟨?_,?_⟩
    · intro d member
      have last := List.mem_map_of_mem (f := CarrierFile.blank) member
      rw [← CarrierFilesManager.blanks,blanks] at last
      obtain ⟨c,held,same⟩ := List.mem_map.mp last
      obtain ⟨image,entry,chosen,created⟩ := (carriers c).mp held
      obtain ⟨name,type⟩ := blank same.symm
      have large : 1 ≤ image.rawCapacity := by
        by_contra small
        rw [createCarrierFile,if_pos (by omega)] at created
        cases created
      have encoder : s.settings.encoderFor image.format = s.settings.encoder := by
        rw [Settings.encoderFor]
        cases configured : s.settings.fileConfig image.format.extension with
        | none => rfl
        | some entry' => exact alike c.file image entry'.1 entry'.2 entry chosen large configured
      rw [createCarrierFile,if_neg (by omega),Option.some.injEq] at created
      refine ⟨image,?_,?_,?_,?_⟩
      · rw [name,Directory.image_eq_ok]
        exact entry
      · rw [encoder]
        exact (encoded d member).1
      · rw [type,← created,s.agrees,Settings.view_localPermutation,Permutation.type_fresh]
      · rw [encoder]
        exact (encoded d member).2
    · rw [capacity,capacities]
      rfl

/-- The LSB encoder and identity permutations, and an entry for PNG files. -/
def typedDocument (encoder : String) : JsonObject :=
  .object [(text "encoder",.string (text "lsb")),(text "glob_perm",.string (text "identity")),
    (text "local_perm",.string (text "identity")),
    (text "file_types",.array [.object [(text "file_type",.string (text "png")),
      (text "permutation",.string (text "identity")),(text "encoder",.string (text encoder))]])]

def typedSession (encoder : String) : Session := (unconfigured onePicture).configure (typedDocument encoder)

theorem typedSession_directory (encoder : String) : (typedSession encoder).storage.directory = onePicture := rfl

theorem onePicture_format {file : File} {image : Image} (member : (file,.ok image) ∈ onePicture.entries) :
    image.format = .png := by
  have same := Except.ok.inj (Prod.mk.inj (List.mem_singleton.mp member)).2
  rw [same]
  rfl

theorem typesHonoured_lsb : TypesHonoured plainPlatform.env (typedSession "lsb").settings onePicture
    (((typedSession "lsb").perform plainPlatform (.open_ (fun _ => true) [])).1.perform plainPlatform .load).1.storage.manager := by
  have ran : ((typedSession "lsb").perform plainPlatform (.open_ (fun _ => true) [])).2 = .ok () ∧
      (((typedSession "lsb").perform plainPlatform (.open_ (fun _ => true) [])).1.perform plainPlatform .load).2 = .ok () ∧
      (typedSession "lsb").settings.fileConfig (text "png") = some (.lsb,.identity) ∧
      (typedSession "lsb").settings.encoder = .lsb := by
    decide +kernel
  obtain ⟨opens,loads,entry,global⟩ := ran
  have directory := typedSession_directory "lsb"
  generalize typedSession "lsb" = s at *
  rw [← directory]
  refine (typesHonoured_iff plainPlatform s _ _ (fun _ => true) [] (Prod.ext rfl opens) (Prod.ext rfl loads)).mpr ?_
  intro file image e p member _ _ configured
  rw [directory] at member
  rw [onePicture_format member] at configured
  obtain ⟨rfl,_⟩ := Prod.mk.inj (Option.some.inj (configured.symm.trans entry))
  exact global.symm

/-- A PNG file is loaded with the LSB encoder, although its type has the Hamming encoder. -/
theorem not_typesHonoured_hamming :
    ((typedSession "hamming").perform plainPlatform (.open_ (fun _ => true) [])).2 = .ok () ∧
    (((typedSession "hamming").perform plainPlatform (.open_ (fun _ => true) [])).1.perform plainPlatform .load).2 = .ok () ∧
    ¬ TypesHonoured plainPlatform.env (typedSession "hamming").settings onePicture
      (((typedSession "hamming").perform plainPlatform (.open_ (fun _ => true) [])).1.perform
        plainPlatform .load).1.storage.manager := by
  have ran : ((typedSession "hamming").perform plainPlatform (.open_ (fun _ => true) [])).2 = .ok () ∧
      (((typedSession "hamming").perform plainPlatform (.open_ (fun _ => true) [])).1.perform plainPlatform .load).2 = .ok () ∧
      (((typedSession "hamming").perform plainPlatform (.open_ (fun _ => true) [])).1.perform
        plainPlatform .load).1.storage.manager.carrierFiles.length = 1 ∧
      (typedSession "hamming").settings.encoderFor .png = .hamming ∧ (typedSession "hamming").settings.encoder = .lsb := by
    decide +kernel
  obtain ⟨opens,loads,single,own,global⟩ := ran
  generalize typedSession "hamming" = s at *
  refine ⟨opens,loads,?_⟩
  intro honoured
  obtain ⟨c,carriers⟩ := List.length_eq_one_iff.mp single
  have member := carriers ▸ List.mem_singleton_self c
  obtain ⟨image,there,encoder,_⟩ := honoured.carriers c member
  have used := (load_uses (Prod.ext rfl loads)).2.1 c member
  rw [encoder,(s.perform plainPlatform (.open_ (fun _ => true) [])).1.agrees] at used
  have same := Encoder.ofType_injective (Option.some.inj used)
  have entry := Directory.image_eq_ok.mp there
  rw [onePicture_format entry,own] at same
  exact absurd (same.trans global) (by decide)

end Session
end StegoDisk
