import StegoDisk.Configuration
import StegoDisk.Operations
import StegoDisk.RoundTrip

/-!
What the configuration decides: the encoder and the global permutation of a `Load`, and the
local permutations of the carriers that an `Open` creates. The enumerated form of `Configure`
goes through a document whose key for the global permutation is not the one that `Init` reads.
-/
namespace StegoDisk

/-! ### What `Load` uses -/

namespace CarrierFile
open Loops

variable {env : Environment} {Inv : VirtualStorage → Prop}
  (keeps : ∀ s data changed, s.data = some data → changed.length = data.length → Inv s → Inv { s with data := some changed })
include keeps

theorem writeOrSkip_keeps {s : VirtualStorage} (position : Nat) (value : UInt8) (inv : Inv s) :
    Inv (writeOrSkip s position value).1 := by
  unfold writeOrSkip
  split
  · rename_i s' written
    obtain ⟨_,data,holds,rfl⟩ := VirtualStorage.writeByte_eq_ok written
    exact keeps s data _ holds (List.length_set ..) inv
  · exact inv
  · exact inv

theorem extractBufferUsingEncoder_keeps {s : VirtualStorage} (file : CarrierFile) (buffer : MemoryBuffer) (inv : Inv s) :
    Inv (file.extractBufferUsingEncoder buffer s).1 := by
  have block : ∀ (e : Encoder) (b : Nat) (t : VirtualStorage), Inv t → Inv (file.extractBlock e buffer t b).1 := by
    intro e b t held
    unfold extractBlock
    split
    · exact held
    · refine forEach_keeps Inv ?_ held
      intro i _ t held
      split
      · exact held
      · exact writeOrSkip_keeps keeps _ _ held
  unfold extractBufferUsingEncoder
  split
  · exact inv
  split
  · exact inv
  rename_i e _
  split
  · exact inv
  split
  · exact inv
  have kept := forEach_keeps Inv (fun b (_ : b ∈ List.range file.blocksUsed) t held => block e b t held) (s := s) inv
  split
  · rename_i t ran
    rw [ran] at kept
    exact kept
  · rename_i t failure ran
    rw [ran] at kept
    exact kept

theorem loadFile_keeps {s : VirtualStorage} (file : CarrierFile) (image : Image) (inv : Inv s) :
    Inv (file.loadFile env image s).1.2 := by
  unfold loadFile
  split
  · exact inv
  split
  · exact inv
  rcases file.initPermutation env with ⟨file',failure | _⟩
  · exact inv
  dsimp only
  split
  · exact inv
  rename_i buffer _
  have kept := extractBufferUsingEncoder_keeps keeps file' buffer inv
  split
  · rename_i t failure ran
    rw [ran] at kept
    exact kept
  · rename_i t code ran
    rw [ran] at kept
    split
    · exact kept
    · exact kept

omit keeps

/-- `LoadFile` keeps the carrier and its share. -/
theorem loadFile_plan (file : CarrierFile) (image : Image) (s : VirtualStorage) :
    (file.loadFile env image s).1.1.plan = file.plan := by
  obtain ⟨q,loaded,same,type⟩ := loadFile_carrier env file image s
  rw [same]
  simp [plan,type]

end CarrierFile

namespace CarrierFilesManager

variable {env : Environment} {directory : Directory}

theorem loadFiles_keeps {Inv : VirtualStorage → Prop}
    (keeps : ∀ s data changed, s.data = some data → changed.length = data.length → Inv s → Inv { s with data := some changed })
    (files : List CarrierFile) {s : VirtualStorage} (inv : Inv s) :
    Inv (loadFiles env directory files s).1.2 := by
  induction files generalizing s with
  | nil => exact inv
  | cons file rest ih =>
    rw [loadFiles]
    split
    · exact ih inv
    · rename_i image _
      exact ih (CarrierFile.loadFile_keeps keeps file image inv)

theorem loadFiles_plan (files : List CarrierFile) (s : VirtualStorage) :
    (loadFiles env directory files s).1.1.map CarrierFile.plan = files.map CarrierFile.plan := by
  induction files generalizing s with
  | nil => rfl
  | cons file rest ih =>
    rw [loadFiles]
    split
    · simp [ih]
    · simp [ih,CarrierFile.loadFile_plan]

/-- After an `ApplyEncoder` that returned every carrier has the encoder. -/
theorem applied_encoder (m : CarrierFilesManager) (e : Encoder) : ∀ c ∈ (m.applied env e).carrierFiles, c.encoder = some e := by
  intro c member
  simp only [applied,encodeAll,List.mem_mapIdx] at member
  obtain ⟨i,_,rfl⟩ := member
  simp only [CarrierFile.encode,CarrierFile.setEncoder]
  split <;> rfl

/-- A load that returns gives the carriers their shares, and uses the permutation of its storage, initialised. -/
theorem loadVirtualStorage_uses {m m' : CarrierFilesManager} {ref : Nat} {memory : Nat → UInt8} {s s' : VirtualStorage}
    {p : Permutation} {valid : Bool} (holds : s.permutation = some p)
    (loaded : m.loadVirtualStorage env memory directory ref s = ((m',s'),.ok valid)) :
    m'.encoder = m.encoder ∧ m'.capacity = m.capacity ∧
      (∃ n, m'.carrierFiles.map CarrierFile.plan = (assignShares m.carrierFiles ref n).map CarrierFile.plan) ∧
      ∃ q, s'.permutation = some q ∧ q.type = p.type := by
  rcases loadVirtualStorage_outcome env memory directory ref m s with
    ⟨failure,refused⟩ | ⟨e,key,t,applied,_,allocated,outcome⟩
  · simp [refused] at loaded
  have same : t.permutation = some (p.init env m.capacity key).1 := by
    rcases @VirtualStorage.applyPermutation_cases env memory s p holds m.capacity key with ⟨_,made,_⟩ | ⟨_,_,_,made⟩
    · rw [(Prod.mk.inj (allocated.symm.trans made)).1]
    · rw [(Prod.mk.inj (allocated.symm.trans made)).1]
  rcases outcome with ⟨failure,_,failed⟩ | ⟨_,files,s₁,ran,tasks,⟨failure,_,failed⟩ | ⟨_,returned⟩⟩
  · simp [failed] at loaded
  · simp [failed] at loaded
  have permutation := @loadFiles_keeps env directory (fun s => s.permutation = t.permutation)
    (fun _ _ _ _ _ inv => inv) (assignShares m.carrierFiles ref t.rawCapacity) t rfl
  have plans := @loadFiles_plan env directory (assignShares m.carrierFiles ref t.rawCapacity) t
  rw [tasks] at permutation plans
  rw [returned] at loaded
  obtain ⟨both,_⟩ := Prod.mk.inj loaded
  obtain ⟨rfl,rfl⟩ := Prod.mk.inj both
  exact ⟨rfl,rfl,⟨_,plans⟩,_,permutation.trans same,Permutation.init_type p⟩

end CarrierFilesManager

namespace StegoStorage
open CarrierFilesManager

variable {platform : Platform} {s s' : StegoStorage}

/-- A `Load` that returns has applied the encoder of the configuration, has given the carriers their shares, and uses
    the global permutation. -/
theorem load_plans (loaded : s.load platform = (s',.ok ())) {e : Encoder} (chosen : Encoder.ofType s.config.encoder = e) :
    s'.manager.encoder = some e ∧ s'.manager.capacity = ((s.manager.setEncoder e).applied platform.env e).capacity ∧
      (∃ ref n, s'.manager.carrierFiles.map CarrierFile.plan =
        (assignShares ((s.manager.setEncoder e).applied platform.env e).carrierFiles ref n).map CarrierFile.plan) ∧
      ∃ storage p, s'.current = some storage ∧ storage.permutation = some p ∧ p.type = s.config.globalPerm := by
  subst chosen
  rcases load_eq platform s with ⟨_,e,refused⟩ | ⟨_,_,⟨m,failure,_,refused⟩ | ⟨m,applied,m',storage,result,ran,outcome⟩⟩
  · simp [refused] at loaded
  · simp [refused] at loaded
  rw [outcome] at loaded
  obtain ⟨rfl,returned⟩ := Prod.mk.inj loaded
  rcases result with failure | valid
  · cases returned
  obtain ⟨_,_,_,rfl⟩ := (applyEncoder_eq_ok (setEncoder_holds _ _)).mp applied
  obtain ⟨encoder,capacity,⟨n,plans⟩,q,holds,type⟩ := loadVirtualStorage_uses
    (show (VirtualStorage.setPermutation {} (some (.fresh s.config.globalPerm))).1.permutation = some _ from rfl) ran
  refine ⟨encoder,capacity,⟨_,n,plans⟩,storage,q,?_,holds,?_⟩
  · simp [current]
  · rw [type,Permutation.type_fresh]

/-- A `Load` that returns uses the encoder and the global permutation of the configuration. -/
theorem load_uses (loaded : s.load platform = (s',.ok ())) :
    s'.manager.encoder = some (Encoder.ofType s.config.encoder) ∧
      (∀ c ∈ s'.manager.carrierFiles, c.encoder = some (Encoder.ofType s.config.encoder)) ∧
      ∃ storage p, s'.current = some storage ∧ storage.permutation = some p ∧ p.type = s.config.globalPerm := by
  obtain ⟨encoder,_,⟨ref,n,plans⟩,storage⟩ := load_plans loaded rfl
  refine ⟨encoder,?_,storage⟩
  intro c member
  have planned := List.mem_map_of_mem (f := CarrierFile.plan) member
  rw [plans] at planned
  obtain ⟨d,assigned,same⟩ := List.mem_map.mp planned
  obtain ⟨⟨original,share⟩,zipped,rfl⟩ := List.mem_map.mp assigned
  exact (congrArg CarrierFile.encoder same).symm.trans (applied_encoder _ _ original (List.of_mem_zip zipped).1)

/-- `Load` of an opened storage returns when `ApplyEncoder` and `LoadVirtualStorage` do. -/
theorem load_returns (configured : s.config.initialized = true) (opened : s.opened = true) {m m' : CarrierFilesManager}
    {storage : VirtualStorage} {valid : Bool}
    (applied : (s.manager.setEncoder (Encoder.ofType s.config.encoder)).applyEncoder platform.env = (m,.ok ()))
    (loaded : m.loadVirtualStorage platform.env (platform.memory s.storages.length) s.directory s.storages.length
      (VirtualStorage.unapplied s.config.globalPerm) = ((m',storage),.ok valid)) :
    (s.load platform).2 = .ok () := by
  rcases load_eq platform s with ⟨refused | refused,_⟩ | ⟨_,_,⟨_,_,failed,_⟩ | ⟨_,applied',_,_,_,ran,outcome⟩⟩
  · simp [configured] at refused
  · simp [opened] at refused
  · simp [applied] at failed
  · obtain ⟨rfl,_⟩ := Prod.mk.inj (applied.symm.trans applied')
    obtain ⟨_,rfl⟩ := Prod.mk.inj (loaded.symm.trans ran)
    rw [outcome]
    rfl

theorem foundCarriers_permutation {localPermutation : Format → PermutationType} {entries : List (File × Content)} :
    ∀ c ∈ (CarrierFilesManager.foundCarriers localPermutation entries).1, ∃ image,
      (c.file,.ok image) ∈ entries ∧ c.permutation = .fresh (localPermutation image.format) := by
  induction entries with
  | nil => simp [CarrierFilesManager.foundCarriers]
  | cons entry rest ih =>
    obtain ⟨file,failure | image⟩ := entry
    · simp [CarrierFilesManager.foundCarriers]
    intro c member
    rcases List.mem_append.mp member with first | later
    · rw [Option.mem_toList,createCarrierFile] at first
      split at first
      · cases first
      · obtain rfl := Option.some.inj first
        exact ⟨image,List.mem_cons_self,rfl⟩
    · obtain ⟨image',there,permutation⟩ := ih c later
      exact ⟨image',List.mem_cons_of_mem _ there,permutation⟩

/-- The carriers that an `Open` creates, whether it returns or not, have the local permutation of the configuration
    for the format of their file. -/
theorem open_creates (select : File → Bool) (password : List UInt8) :
    ∀ c ∈ (s.open_ platform select password).1.manager.carrierFiles, ∃ image,
      (c.file,.ok image) ∈ s.directory.entries ∧ c.permutation = .fresh (s.config.localPermutation image.format) := by
  intro c member
  obtain ⟨m,result,ran,outcome⟩ := open_eq platform s select password
  have manager : (s.open_ platform select password).1.manager = m := by
    rcases outcome with ⟨_,left⟩ | ⟨_,left⟩ <;> rw [left]
  rw [manager] at member
  have created := @foundCarriers_permutation s.config.localPermutation
    (s.directory.entries.filter fun entry => select entry.1) c
  unfold CarrierFilesManager.loadDirectory at ran
  rcases found : CarrierFilesManager.foundCarriers s.config.localPermutation
    (s.directory.entries.filter fun entry => select entry.1) with ⟨files,failure | _⟩
  · rw [found] at ran created
    obtain ⟨rfl,_⟩ := Prod.mk.inj ran
    obtain ⟨image,there,permutation⟩ := created member
    exact ⟨image,(List.mem_filter.mp there).1,permutation⟩
  · rw [found] at ran created
    obtain ⟨rfl,_⟩ := Prod.mk.inj ran
    obtain ⟨image,there,permutation⟩ := created ((platform.sorting.perm files).mem_iff.mp member)
    exact ⟨image,(List.mem_filter.mp there).1,permutation⟩

end StegoStorage

/-! ### Sessions -/

/-- `file.GetExtension` of the formats. -/
def Format.extension : Format → List UInt8
  | .bmp => text "bmp"
  | .png => text "png"
  | .jpg => text "jpg"

/-- What the storage sees of the configuration. -/
def Settings.view (s : Settings) : StegoConfig where
  initialized := s.stegoConfigLoaded
  encoder := s.encoder
  globalPerm := s.globalPerm
  localPerm := s.localPerm
  filePerm format := (s.fileConfig format.extension).map Prod.snd

/-- A storage and the configuration of the process. -/
structure Session where
  settings : Settings
  storage : StegoStorage
  agrees : storage.config = settings.view

/-- What a call of `Configure` chooses. -/
structure Choices where
  encoder : EncoderType
  globalPerm : PermutationType
  localPerm : PermutationType

/-- The choices in force. -/
def Settings.choices (s : Settings) : Choices := ⟨s.encoder,s.globalPerm,s.localPerm⟩

/-- The choices of a document under its documented keys. What is missing or has no known name is the default. -/
def documented (document : JsonObject) : Choices where
  encoder := getEncoderType (document.field (text "encoder")).toString
  globalPerm := getPermutationType (document.field (text "glob_perm")).toString
  localPerm := getPermutationType (document.field (text "local_perm")).toString

/-- The document that the enumerated form of `Configure` builds. -/
def enumDocument (choices : Choices) : JsonObject :=
  .object [(text "encoder",.string (getEncoderName choices.encoder)),
    (text "global_perm",.string (getPermutationName choices.globalPerm)),
    (text "local_perm",.string (getPermutationName choices.localPerm))]

/-- A document that names the choices, and has no other member that is read. -/
structure Names (document : JsonObject) (choices : Choices) : Prop where
  choices : documented document = choices
  probe : document.field (text "ffprobe_path") = .null
  included : document.field (text "include_types") = .null
  types : document.field (text "file_types") = .null

/-- The enumerated form of the choices leaves the configuration that every document naming them does. -/
def Interchangeable (choices : Choices) : Prop :=
  ∀ document, Names document choices → ∀ s : Settings, s.init (enumDocument choices) = s.init document

theorem init_enumDocument (s : Settings) (choices : Choices) :
    s.init (enumDocument choices) = { s with
      stegoConfigLoaded := true
      ffprobePath := []
      encoder := choices.encoder
      globalPerm := defaultPermutation
      localPerm := choices.localPerm } := by
  have encoder : (enumDocument choices).field (text "encoder") = .string (getEncoderName choices.encoder) := rfl
  have globalPerm : (enumDocument choices).field (text "glob_perm") = .null := rfl
  have localPerm : (enumDocument choices).field (text "local_perm") = .string (getPermutationName choices.localPerm) := rfl
  have probe : (enumDocument choices).field (text "ffprobe_path") = .null := rfl
  have included : (enumDocument choices).field (text "include_types") = .null := rfl
  have types : (enumDocument choices).field (text "file_types") = .null := rfl
  simp only [Settings.init,encoder,globalPerm,localPerm,probe,included,types,JsonObject.toString,JsonObject.items,
    List.foldl_nil,getEncoderType_name,getPermutationType_name]
  rfl

theorem init_names {document : JsonObject} {choices : Choices} (names : Names document choices) (s : Settings) :
    s.init document = { s with
      stegoConfigLoaded := true
      ffprobePath := []
      encoder := choices.encoder
      globalPerm := choices.globalPerm
      localPerm := choices.localPerm } := by
  obtain ⟨rfl,probe,included,types⟩ := names
  simp only [Settings.init,probe,included,types,JsonObject.toString,JsonObject.items,List.foldl_nil,documented]

/-- The document of the choices under the documented keys. -/
theorem exists_names (choices : Choices) : ∃ document, Names document choices := by
  refine ⟨.object [(text "encoder",.string (getEncoderName choices.encoder)),
    (text "glob_perm",.string (getPermutationName choices.globalPerm)),
    (text "local_perm",.string (getPermutationName choices.localPerm))],?_,rfl,rfl,rfl⟩
  obtain ⟨encoder,globalPerm,localPerm⟩ := choices
  cases encoder <;> cases globalPerm <;> cases localPerm <;> rfl

theorem interchangeable_iff (choices : Choices) : Interchangeable choices ↔ choices.globalPerm = defaultPermutation := by
  constructor
  · intro interchangeable
    obtain ⟨document,names⟩ := exists_names choices
    have same := interchangeable document names {}
    rw [init_enumDocument,init_names names] at same
    exact (congrArg Settings.globalPerm same).symm
  · intro plain document names s
    rw [init_enumDocument,init_names names,plain]

namespace Session

/-- The calls of a run. The document of the JSON form is what reading and parsing its file gives. -/
inductive Call
  | configureEnum (choices : Choices)
  | configureJson (document : Except Exception JsonObject)
  | open_ (select : File → Bool) (password : List UInt8)
  | load

/-- What a call chooses, if it is one of `Configure` that returns. -/
def Call.choices : Call → Option Choices
  | .configureEnum choices => some choices
  | .configureJson (.ok document) => some (documented document)
  | _ => none

/-- The choices of the last `Configure`. -/
def lastChoices (calls : List Call) : Option Choices := calls.reverse.findSome? Call.choices

/-- The session after `StegoConfig::Init`. -/
def configure (s : Session) (document : JsonObject) : Session where
  settings := s.settings.init document
  storage := s.storage.configure (s.settings.init document).view
  agrees := rfl

theorem open_config (platform : Platform) (s : StegoStorage) (select : File → Bool) (password : List UInt8) :
    (s.open_ platform select password).1.config = s.config := by
  obtain ⟨m,_,_,⟨_,left⟩ | ⟨_,left⟩⟩ := StegoStorage.open_eq platform s select password <;> rw [left]

theorem load_config (platform : Platform) (s : StegoStorage) : (s.load platform).1.config = s.config := by
  rcases StegoStorage.load_eq platform s with ⟨_,_,outcome⟩ | ⟨_,_,⟨_,_,_,outcome⟩ | ⟨_,_,_,_,_,_,outcome⟩⟩ <;> rw [outcome]

/-- A call, and the session after it. -/
def perform (platform : Platform) (s : Session) : Call → Session × Except Failure Unit
  | .configureEnum choices => (s.configure (enumDocument choices),.ok ())
  | .configureJson (.ok document) => (s.configure document,.ok ())
  | .configureJson (.error e) => (s,.error (.thrown e))
  | .open_ select password =>
    (⟨s.settings,(s.storage.open_ platform select password).1,(open_config ..).trans s.agrees⟩,
      (s.storage.open_ platform select password).2)
  | .load => (⟨s.settings,(s.storage.load platform).1,(load_config ..).trans s.agrees⟩,(s.storage.load platform).2)

/-- The session after some calls. -/
def after (platform : Platform) (s : Session) (calls : List Call) : Session :=
  Runs.run (fun s call => (s.perform platform call).1) s calls

/-- The manager, every carrier and the storage in use have what was chosen. -/
structure Uses (s : StegoStorage) (choices : Choices) : Prop where
  manager : s.manager.encoder = some (Encoder.ofType choices.encoder)
  carriers : ∀ c ∈ s.manager.carrierFiles, c.encoder = some (Encoder.ofType choices.encoder)
  storage : ∃ storage p, s.current = some storage ∧ storage.permutation = some p ∧ p.type = choices.globalPerm

/-- The last choices are used: by a `Load` that returns, and, for the types without settings of their own, by the
    carriers that an `Open` creates. What is enumerated in the run could have been written in a document. -/
structure Honoured (platform : Platform) (s : Session) (calls : List Call) : Prop where
  loads : ∀ before rest choices, calls = before ++ .load::rest → lastChoices before = some choices →
    ((s.after platform before).perform platform .load).2 = .ok () →
    Uses ((s.after platform before).perform platform .load).1.storage choices
  opens : ∀ before select password rest choices, calls = before ++ .open_ select password::rest →
    lastChoices before = some choices →
    ∀ c ∈ ((s.after platform before).perform platform (.open_ select password)).1.storage.manager.carrierFiles, ∃ image,
      (c.file,.ok image) ∈ (s.after platform before).storage.directory.entries ∧
        ((s.after platform before).settings.fileConfig image.format.extension = none → c.permutation.type = choices.localPerm)
  forms : ∀ choices, .configureEnum choices ∈ calls → Interchangeable choices

variable {platform : Platform}

/-- A call of `Configure` that returns makes its choices, and every other call keeps those in force. -/
theorem perform_choices (s : Session) {call : Call}
    (plain : ∀ choices, call = .configureEnum choices → choices.globalPerm = defaultPermutation) :
    (s.perform platform call).1.settings.choices = call.choices.getD s.settings.choices := by
  cases call with
  | configureEnum choices =>
    have settings : (s.perform platform (.configureEnum choices)).1.settings = s.settings.init (enumDocument choices) := rfl
    rw [settings,init_enumDocument,Settings.choices]
    exact congrArg (fun p => Choices.mk choices.encoder p choices.localPerm) (plain choices rfl).symm
  | configureJson document =>
    cases document with
    | error => rfl
    | ok document => rfl
  | open_ => rfl
  | load => rfl

/-- After a run the choices in force are those of its last `Configure`. -/
theorem after_choices (s : Session) {calls : List Call}
    (plain : ∀ choices, .configureEnum choices ∈ calls → choices.globalPerm = defaultPermutation) :
    (s.after platform calls).settings.choices = (lastChoices calls).getD s.settings.choices := by
  induction calls using List.reverseRecOn with
  | nil => rfl
  | append_singleton calls call ih =>
    have earlier := ih fun choices member => plain choices (List.mem_append_left _ member)
    have step : s.after platform (calls ++ [call]) = ((s.after platform calls).perform platform call).1 := by
      rw [after,Runs.run_append]
      rfl
    rw [step,perform_choices _ fun choices same => plain choices (by simp [same]),earlier]
    simp only [lastChoices,List.reverse_append,List.reverse_singleton,List.singleton_append,List.findSome?_cons]
    cases call.choices <;> rfl

/-- The choices are honoured in exactly the runs whose enumerated calls leave the global permutation at its default. -/
theorem honoured_iff (platform : Platform) (s : Session) (calls : List Call) : Honoured platform s calls ↔
    ∀ choices, .configureEnum choices ∈ calls → choices.globalPerm = defaultPermutation := by
  constructor
  · rintro ⟨_,_,forms⟩ choices member
    exact (interchangeable_iff choices).mp (forms choices member)
  intro plain
  have inForce : ∀ before call rest choices, calls = before ++ call::rest → lastChoices before = some choices →
      (s.after platform before).settings.choices = choices := by
    rintro before call rest choices rfl last
    rw [after_choices s fun choices member => plain choices (List.mem_append_left _ member),last,Option.getD_some]
  refine ⟨?_,?_,fun choices member => (interchangeable_iff choices).mpr (plain choices member)⟩
  · intro before rest choices split last returned
    have force := inForce before .load rest choices split last
    obtain ⟨manager,carriers,storage⟩ := StegoStorage.load_uses (Prod.ext rfl returned)
    rw [(s.after platform before).agrees] at manager carriers storage
    subst force
    exact ⟨manager,carriers,storage⟩
  · intro before select password rest choices split last c member
    have force := inForce before (.open_ select password) rest choices split last
    obtain ⟨image,there,permutation⟩ := StegoStorage.open_creates select password c member
    refine ⟨image,there,fun absent => ?_⟩
    rw [permutation,Permutation.type_fresh,(s.after platform before).agrees,← force]
    simp only [StegoConfig.localPermutation,Settings.view,absent]
    rfl

/-- A directory with one picture. -/
def picture (pixels : List UInt8) : Directory where
  entries := [(⟨[],[97,46,112,110,103]⟩,.ok (.png pixels))]
  distinct := List.pairwise_singleton ..

/-- The session of a process that has done nothing. -/
def unconfigured (directory : Directory) : Session where
  settings := {}
  storage := { directory := directory }
  agrees := rfl

/-- With a digest of zeros, and identity permutations chosen in the enumerated form. -/
def plainPlatform : Platform := ⟨Permutation.twoPrimes,.byInsertion,fun _ _ => 0⟩

def identities : Choices := ⟨.lsb,.identity,.identity⟩

/-- The manager after an `Open` of a picture of 2731 pixels of three bytes. -/
def pictureManager : CarrierFilesManager where
  passwordHash := Hash.process Permutation.twoPrimes.keccak []
  carrierFiles := [{ file := ⟨[],[97,46,112,110,103]⟩, rawCapacity := 1024, permutation := .fresh .identity }]

variable {pixels : List UInt8}

theorem picture_opened (length : pixels.length = 8193) :
    CarrierFilesManager.openDirectory Permutation.twoPrimes .byInsertion (fun _ => .identity) (fun _ => true) [] {}
      (picture pixels) = (pictureManager,.ok ()) := by
  have capacity : (Image.png pixels).rawCapacity = 1024 := by
    rw [Image.rawCapacity,length]
  simp only [CarrierFilesManager.openDirectory,CarrierFilesManager.loadDirectory,CarrierFilesManager.foundCarriers,picture,
    List.filter_cons_of_pos,List.filter_nil,createCarrierFile,capacity]
  rfl

/-- The enumerated form leaves the permutation of the storage at its default, which such a picture is
    large enough for. -/
theorem picture_loaded (length : pixels.length = 8193) :
    ∃ m s valid, ((pictureManager.setEncoder (.lsb .default)).applied Permutation.twoPrimes (.lsb .default)).loadVirtualStorage
      Permutation.twoPrimes (fun _ => 0) (picture pixels) 0 (VirtualStorage.unapplied .feistelMix) = ((m,s),.ok valid) := by
  have applied : (pictureManager.setEncoder (.lsb .default)).applyEncoder Permutation.twoPrimes = (_,.ok ()) :=
    eq_of_returns (by decide +kernel)
  obtain ⟨_,unloaded,accepts,_,_⟩ := CarrierFilesManager.applied_of_opened (picture_opened length) applied
  have returned : (VirtualStorage.unapplied .feistelMix).applyPermutation Permutation.twoPrimes (fun _ => 0)
      ((pictureManager.setEncoder (.lsb .default)).total Permutation.twoPrimes (.lsb .default))
      ((pictureManager.setEncoder (.lsb .default)).key Permutation.twoPrimes).val = (_,.ok ()) :=
    eq_of_returns (by decide +kernel)
  have openable : CarrierFilesManager.Openable (picture pixels) (pictureManager.setEncoder (.lsb .default)).carrierFiles := by
    intro c member
    obtain rfl := List.mem_singleton.mp member
    refine ⟨.png pixels,rfl,?_,rfl,?_⟩
    · simp only [Image.rawCapacity,length]
    · rintro _ ⟨⟩
      rw [length]
      decide
  obtain ⟨files,s,n,f,loads,attached,_,alike⟩ := @CarrierFilesManager.loadVirtualStorage_ok _ _ .feistelMix _ 0 _ _ _ rfl
    unloaded accepts openable returned (by decide +kernel)
  have raw : s.rawCapacity = 1024 := by
    have sized := attached.applied
    rw [alike.total,alike.key] at sized
    have same := sized.same (VirtualStorage.applyPermutation_applied (word64_lt _) returned).1
    exact (congrArg VirtualStorage.rawCapacity same).symm.trans (by decide +kernel)
  have narrow : word32 (n - 32) < 2 ^ 31 := by
    rw [← attached.mapped.raw,raw]
    decide
  obtain ⟨valid,checked⟩ := (VirtualStorage.isValidChecksum_iff attached.applied attached.mapped).mpr narrow
  exact ⟨_,s,valid,by rw [loads,checked]⟩

/-- The session before the `Load`. -/
abbrev pictureSession (pixels : List UInt8) : Session :=
  (unconfigured (picture pixels)).after plainPlatform [.configureEnum identities,.open_ (fun _ => true) []]

theorem pictureSession_storage (length : pixels.length = 8193) : (pictureSession pixels).storage =
    { config := (Settings.init {} (enumDocument identities)).view, directory := picture pixels, opened := true,
      manager := pictureManager } := by
  obtain ⟨m,result,ran,outcome⟩ := StegoStorage.open_eq plainPlatform
    ((unconfigured (picture pixels)).configure (enumDocument identities)).storage (fun _ => true) []
  obtain ⟨rfl,rfl⟩ := Prod.mk.inj (ran.symm.trans (picture_opened length))
  obtain ⟨⟨_,failed⟩,_⟩ | ⟨_,left⟩ := outcome
  · cases failed
  · exact left

theorem pictureSession_loads (length : pixels.length = 8193) :
    ((pictureSession pixels).perform plainPlatform .load).2 = .ok () := by
  have applied : (pictureManager.setEncoder (.lsb .default)).applyEncoder Permutation.twoPrimes = (_,.ok ()) :=
    eq_of_returns (by decide +kernel)
  obtain ⟨same,_⟩ := CarrierFilesManager.applied_of_opened (picture_opened length) applied
  obtain ⟨m,s,valid,loaded⟩ := picture_loaded length
  rw [← same] at loaded
  change ((pictureSession pixels).storage.load plainPlatform).2 = .ok ()
  rw [pictureSession_storage length]
  exact StegoStorage.load_returns rfl rfl applied loaded

/-- A `Load` does not use the identity that was chosen for the storage. -/
theorem not_honoured_identities : ¬ Honoured plainPlatform (unconfigured (picture (List.replicate 8193 0)))
    [.configureEnum identities,.open_ (fun _ => true) [],.load] := by
  intro honoured
  have length : (List.replicate 8193 (0 : UInt8)).length = 8193 := List.length_replicate
  generalize List.replicate 8193 (0 : UInt8) = pixels at *
  have loads := pictureSession_loads length
  obtain ⟨_,_,storage,p,current,holds,chosen⟩ := honoured.loads [_,_] [] identities rfl rfl loads
  obtain ⟨_,_,storage',p',current',holds',type⟩ := StegoStorage.load_uses (Prod.ext rfl loads)
  obtain rfl := Option.some.inj (current.symm.trans current')
  obtain rfl := Option.some.inj (holds.symm.trans holds')
  rw [pictureSession_storage length,chosen] at type
  cases type

end Session
end StegoDisk
