import StegoDisk.IncrementalSaves
import StegoDisk.MountedSessions
import StegoDisk.StoredFiles

/-!
A storage in the files of a folder. `Open` makes the objects of the bitmaps, and the calls after it find and write the
pixels where these objects say. Where the bitmaps are safe, a call answers as it does on the images that the
constructors find; so the storage is a disk in every session, also while it is mounted, and its saves alter few bits of
the images and no byte of a bitmap outside the pixels.
-/
namespace StegoDisk
open CarrierFilesManager StegoStorage

/-- A storage, and the files that it is kept in. -/
structure FolderStorage where
  folder : Folder
  /-- The objects of the bitmaps that the carriers have kept since the last `Open`. -/
  headers : File → Option CarrierFileBMP
  storage : StegoStorage
  /-- The constructors find what is in the files. -/
  shown : storage.directory = folder.images

/-- While it is mounted, the storage of the parent stays as it is. -/
theorem StegoStorage.use_mount (platform : Platform) (select : File → Bool) (password : List UInt8) (s : StegoStorage)
    (requests : List FuseRequest) : (s.use platform select password (.mount requests)).1 = s := by
  simp only [StegoStorage.use]
  cases mounted : Mount.init s with
  | error failure => rfl
  | ok mount =>
    obtain ⟨capacity,_,made⟩ := bind_eq_ok.mp mounted
    obtain rfl := Except.ok.inj made
    rfl

namespace FolderStorage

variable {platform : Platform} {config : StegoConfig} {select : File → Bool} {password : List UInt8}
  {folder : Folder} {t : FolderStorage}

/-- A storage on these files. -/
def showing (folder : Folder) (headers : File → Option CarrierFileBMP) (storage : StegoStorage) : FolderStorage :=
  ⟨folder,headers,{ storage with directory := folder.images },rfl⟩

/-- A storage that is configured. Until the first `Open` there is no carrier whose object could matter. -/
def configured (config : StegoConfig) (folder : Folder) : FolderStorage :=
  ⟨folder,folder.headers,StegoStorage.configured config folder.images,rfl⟩

/-- A call of carriers that are there: they find and write the images with the objects that they have kept. -/
def onFiles (platform : Platform) (t : FolderStorage) (op : Op) : FolderStorage × Except Failure Answer :=
  let done := StegoStorage.perform platform { t.storage with directory := t.folder.seen t.headers } op
  (showing (t.folder.written t.headers done.1.directory) t.headers done.1,done.2)

/-- `Open` calls the constructors anew. -/
def perform (platform : Platform) (t : FolderStorage) : Op → FolderStorage × Except Failure Answer
  | .open_ select password =>
    (⟨t.folder,t.folder.headers,(t.storage.open_ platform select password).1,
      (open_keeps platform t.storage select password).2.2.2.trans t.shown⟩,
      (t.storage.open_ platform select password).2.map fun _ => .done)
  | op => t.onFiles platform op

def step (platform : Platform) (t : FolderStorage) (op : Op) : FolderStorage := (t.perform platform op).1

/-- The storage after some calls. -/
def after (platform : Platform) (t : FolderStorage) (ops : List Op) : FolderStorage := Runs.run (step platform) t ops

/-- What some calls answer one after another. -/
def answers (platform : Platform) (t : FolderStorage) : List Op → List (Except Failure Answer)
  | [] => []
  | op::rest => (t.perform platform op).2::answers platform (step platform t op) rest

/-! ### Calls -/

/-- The bitmaps are safe, and the carriers have kept the objects that the constructors would make now. -/
structure Ready (t : FolderStorage) : Prop where
  headers : t.headers = t.folder.headers
  safe : t.folder.Safe
  sizes : Matches t.storage.directory t.storage.manager.carrierFiles

/-- A call does on the files what it does on the images. -/
structure Mirrored (platform : Platform) (t : FolderStorage) (op : Op) : Prop where
  answer : (t.perform platform op).2 = (t.storage.perform platform op).2
  storage : (step platform t op).storage = StegoStorage.step platform t.storage op
  ready : (step platform t op).Ready
  keeps : t.folder.Keeps (step platform t op).folder

theorem ready_configured (safe : folder.Safe) : (configured config folder).Ready :=
  ⟨rfl,safe,fun _ member => absurd member List.not_mem_nil⟩

theorem perform_onFiles {op : Op} (goesOn : ∀ select password, op ≠ .open_ select password) :
    t.perform platform op = t.onFiles platform op := by
  cases op with
  | open_ select password => exact absurd rfl (goesOn select password)
  | configure config => rfl
  | load => rfl
  | read offset length => rfl
  | write offset source => rfl
  | getSize => rfl
  | save => rfl

/-- What carriers write to the images is found in the files. -/
theorem Ready.onFiles (ready : t.Ready) {op : Op} (goesOn : ∀ select password, op ≠ .open_ select password) :
    Mirrored platform t op := by
  obtain ⟨headers,safe,sizes⟩ := ready
  obtain ⟨files,sizes'⟩ := @step_matches platform t.storage sizes op
  have whole : t.storage.directory.Whole := t.shown ▸ t.folder.images_whole
  have sight : t.folder.seen t.headers = t.storage.directory.extend t.folder.rest := by
    rw [headers,t.shown,Folder.seen_headers safe]
  have ran : StegoStorage.perform platform { t.storage with directory := t.folder.seen t.headers } op =
      ({ StegoStorage.step platform t.storage op with
          directory := (StegoStorage.step platform t.storage op).directory.extend t.folder.rest },
        (t.storage.perform platform op).2) := by
    rw [sight]
    exact perform_extend sizes whole goesOn
  have follows := Folder.written_follows safe (t.shown ▸ files)
  rw [← headers] at follows
  have performed := @perform_onFiles platform t op goesOn
  rw [FolderStorage.onFiles,ran] at performed
  have storage : (step platform t op).storage = StegoStorage.step platform t.storage op := by
    rw [step,performed]
    simp only [showing,follows.images]
  refine ⟨congrArg Prod.snd performed,storage,⟨?_,?_,?_⟩,?_⟩
  · rw [step,performed]
    exact headers.trans follows.headers.symm
  · rw [step,performed]
    exact follows.safe
  · rw [storage]
    exact sizes'
  · rw [step,performed]
    exact follows.keeps

/-- `Open` makes the objects anew, and writes to no file. -/
theorem Ready.perform (ready : t.Ready) (op : Op) : Mirrored platform t op := by
  by_cases opens : ∃ select password, op = .open_ select password
  · obtain ⟨select,password,rfl⟩ := opens
    exact ⟨rfl,rfl,⟨rfl,ready.safe,(@step_matches platform t.storage ready.sizes (.open_ select password)).2⟩,.refl t.folder⟩
  · exact ready.onFiles fun select password same => opens ⟨select,password,same⟩

/-! ### Runs -/

/-- A run on the files is one on the images. -/
theorem Ready.run (ready : t.Ready) (ops : List Op) :
    t.answers platform ops = t.storage.answers platform ops ∧
      (after platform t ops).storage = StegoStorage.after platform t.storage ops ∧
      (after platform t ops).Ready ∧ t.folder.Keeps (after platform t ops).folder := by
  induction ops generalizing t with
  | nil => exact ⟨rfl,rfl,ready,.refl t.folder⟩
  | cons op rest ih =>
    obtain ⟨answer,storage,next,keeps⟩ := @Ready.perform platform t ready op
    obtain ⟨others,last,ready',keeps'⟩ := ih next
    rw [storage] at others last
    exact ⟨by rw [answers,StegoStorage.answers,answer,others],last,ready',keeps.trans keeps'⟩

/-- What one object after another answers, each with the files that the one before has left and with memory of its own. -/
def sessions (platform : Platform) (config : StegoConfig) (select : File → Bool) (password : List UInt8) (folder : Folder) :
    List ((Nat → Nat → UInt8) × List Disk.Request) → List (List (Except Failure Answer))
  | [] => []
  | (memory,requests)::rest =>
    let machine := { platform with memory := memory }
    let ops := requests.map (opOf select password)
    answers machine (configured config folder) ops::
      sessions platform config select password (after machine (configured config folder) ops).folder rest

/-- The files that one object after another leaves. -/
def sessionsFolder (platform : Platform) (config : StegoConfig) (select : File → Bool) (password : List UInt8)
    (folder : Folder) : List ((Nat → Nat → UInt8) × List Disk.Request) → Folder
  | [] => folder
  | (memory,requests)::rest =>
    sessionsFolder platform config select password
      (after { platform with memory := memory } (configured config folder) (requests.map (opOf select password))).folder rest

theorem sessions_images (safe : folder.Safe) (all : List ((Nat → Nat → UInt8) × List Disk.Request)) :
    sessions platform config select password folder all =
        StegoStorage.sessions platform config select password folder.images all ∧
      (sessionsFolder platform config select password folder all).images =
        sessionsDirectory platform config select password folder.images all ∧
      folder.Keeps (sessionsFolder platform config select password folder all) := by
  induction all generalizing folder with
  | nil => exact ⟨rfl,rfl,.refl folder⟩
  | cons session rest ih =>
    obtain ⟨memory,requests⟩ := session
    obtain ⟨first,storage,ready,keeps⟩ := @Ready.run { platform with memory := memory } (configured config folder)
      (ready_configured safe) (requests.map (opOf select password))
    obtain ⟨others,last,keeps'⟩ := ih ready.safe
    rw [← FolderStorage.shown,storage] at others last
    exact ⟨by rw [sessions,StegoStorage.sessions,first,others]; rfl,last,keeps.trans keeps'⟩

/-! ### Mounts -/

/-- As for the storage; the callbacks do not look at the files. -/
def use (platform : Platform) (select : File → Bool) (password : List UInt8) (t : FolderStorage) : Use → FolderStorage × Outcome
  | .disk request =>
    ((t.perform platform (opOf select password request)).1,.answer (t.perform platform (opOf select password request)).2)
  | .mount requests => (t,(t.storage.use platform select password (.mount requests)).2)

def outcomes (platform : Platform) (select : File → Bool) (password : List UInt8) (t : FolderStorage) : List Use → List Outcome
  | [] => []
  | use_::rest =>
    (t.use platform select password use_).2::outcomes platform select password (t.use platform select password use_).1 rest

theorem Ready.outcomes (ready : t.Ready) (uses : List Use) :
    t.outcomes platform select password uses = t.storage.outcomes platform select password uses := by
  induction uses generalizing t with
  | nil => rfl
  | cons use_ rest ih =>
    cases use_ with
    | disk request =>
      obtain ⟨answer,storage,next,_⟩ := @Ready.perform platform t ready (opOf select password request)
      have others := ih next
      rw [storage] at others
      rw [FolderStorage.outcomes,StegoStorage.outcomes,use,StegoStorage.use,answer]
      exact congrArg _ others
    | mount requests =>
      rw [FolderStorage.outcomes,StegoStorage.outcomes,use,use_mount,ih ready]

/-! ### A bitmap and a PNG image -/

/-- A bitmap of 91 pixels in one row, of 24 bits each; three bytes fill the row up. -/
def rgbRow : List UInt8 :=
  [66,77,74,1,0,0,0,0,0,0,54,0,0,0] ++ [40,0,0,0,91,0,0,0,1,0,0,0,1,0,24,0] ++ List.replicate 24 0 ++ List.replicate 276 0

/-- It, and a PNG image of nine pixels. -/
def twoFormats : Folder where
  entries := [(⟨[],[97,46,98,109,112]⟩,.bmp rgbRow),(⟨[],[98,46,112,110,103]⟩,.png (.ok (List.replicate 27 0)))]
  distinct := by decide
  named := by decide +kernel

theorem twoFormats_safe : twoFormats.Safe := by
  have header : CarrierFileBMP.create ⟨[],[97,46,98,109,112]⟩ rgbRow = .ok ⟨54,276,34,91,1,false⟩ ∧ rgbRow.length = 330 := by
    decide +kernel
  obtain ⟨accepted,length⟩ := header
  intro entry member
  simp only [twoFormats,List.mem_cons,List.not_mem_nil,or_false] at member
  rcases member with rfl | rfl
  · intro object created
    obtain rfl := Except.ok.inj (accepted.symm.trans created)
    exact CarrierFileBMP.safe_of_room created (by simp [length])
  · trivial

theorem twoFormats_returns : answers countedMemory (configured {} twoFormats) [.open_ (fun _ => true) [],.load,.save] =
    List.replicate 3 (.ok .done) := by decide +kernel

/-! ### Disks -/

theorem returns_images (safe : folder.Safe)
    (returns : answers platform (configured config folder) [.open_ select password,.load,.save] = List.replicate 3 (.ok .done)) :
    StegoStorage.answers platform (StegoStorage.configured config folder.images) [.open_ select password,.load,.save] =
      List.replicate 3 (.ok .done) :=
  ((@Ready.run platform (configured config folder) (ready_configured safe) _).1).symm.trans returns

/-- No carrier of a folder has 2^32 bytes of capacity when no PNG image has. -/
theorem images_small (small : ∀ file pixels, (file,Stored.png (.ok pixels)) ∈ folder.entries → pixels.length < 2 ^ 35)
    (file : File) (image : Image) (member : (file,Except.ok image) ∈ folder.images.entries) : image.rawCapacity < 2 ^ 32 := by
  obtain ⟨⟨name,stored⟩,there,same⟩ := List.mem_map.mp member
  obtain ⟨rfl,content⟩ := Prod.mk.inj same
  cases stored with
  | bmp bytes =>
    rcases created : CarrierFileBMP.create name bytes with failure | object
    · cases failure <;> simp [Stored.content,created] at content
    · have narrow := CarrierFileBMP.small_of_created created
      obtain rfl : Image.bmp (object.pixels bytes) = image := by simpa [Stored.content,created] using content
      simp only [Image.rawCapacity,CarrierFileBMP.pixels_length]
      omega
  | png decoded =>
    cases decoded with
    | error e => cases content
    | ok pixels =>
      obtain rfl := Except.ok.inj content
      have few := small name pixels there
      simp only [Image.rawCapacity]
      omega
  | jpg decoded =>
    cases decoded with
    | error e => cases content
    | ok blocks =>
      obtain rfl := Except.ok.inj content
      have narrow := word32_lt ((coefficients blocks).countP eligible)
      simp only [Image.rawCapacity]
      omega

/-- What later sessions save alters no more bits of all images together than it changes of the disk, with 256 bits for
    each checksum. All else in the images stays as it was, and so does every byte of a bitmap outside its pixels. -/
theorem saves_few (platform : Platform) (config : StegoConfig) (select : File → Bool) (password : List UInt8)
    (folder : Folder) (safe : folder.Safe)
    (small : ∀ file pixels, (file,Stored.png (.ok pixels)) ∈ folder.entries → pixels.length < 2 ^ 35)
    (returns : answers platform (configured config folder) [.open_ select password,.load,.save] =
      List.replicate 3 (.ok .done)) :
    ∃ (saved : Folder) (size : Nat) (bytes : Bytes size),
      saved = (after platform (configured config folder) [.open_ select password,.load,.save]).folder ∧ folder.Keeps saved ∧
      ∀ all : List ((Nat → Nat → UInt8) × List Disk.Request), Disk.AllProper { kept := bytes } (all.map Prod.snd) →
        sessions platform config select password saved all = Disk.sessions { kept := bytes } (all.map Prod.snd) ∧
        saved.Keeps (sessionsFolder platform config select password saved all) ∧
        (sessionsFolder platform config select password saved all).images.covers = saved.images.covers ∧
        saved.images.altered (sessionsFolder platform config select password saved all).images ≤
          Disk.sessionCosts { kept := bytes } (all.map Prod.snd) := by
  obtain ⟨images,size,bytes,left,same⟩ := sessions_altered platform config select password folder.images
    (images_small small) (returns_images safe returns)
  obtain ⟨_,storage,ready,keeps⟩ := @Ready.run platform (configured config folder) (ready_configured safe)
    [.open_ select password,.load,.save]
  have found : images = (after platform (configured config folder) [.open_ select password,.load,.save]).folder.images := by
    rw [left,← FolderStorage.shown,storage]
    rfl
  refine ⟨_,size,bytes,rfl,keeps,fun all proper => ?_⟩
  obtain ⟨answered,covers,few⟩ := same all proper
  obtain ⟨answered',left',keeps'⟩ := @sessions_images platform config select password _ ready.safe all
  rw [← found] at answered' left' ⊢
  rw [answered',left']
  exact ⟨answered,keeps',covers,few⟩

/-- A byte is written and saved, and read in the next session. -/
theorem saves_few_two : ∃ (saved : Folder) (size : Nat) (bytes : Bytes size),
    twoFormats.Keeps saved ∧
    saved.Keeps (sessionsFolder countedMemory {} (fun _ => true) [] saved
        [(fun _ _ => 1,[.open_,.load,.write 0 [7],.save]),(fun _ _ => 2,[.open_,.load,.read 0 1])]) ∧
    saved.images.altered (sessionsFolder countedMemory {} (fun _ => true) [] saved
        [(fun _ _ => 1,[.open_,.load,.write 0 [7],.save]),(fun _ _ => 2,[.open_,.load,.read 0 1])]).images ≤
      Disk.sessionCosts { kept := bytes } [[.open_,.load,.write 0 [7],.save],[.open_,.load,.read 0 1]] := by
  have small : ∀ file pixels, (file,Stored.png (.ok pixels)) ∈ twoFormats.entries → pixels.length < 2 ^ 35 := by
    intro file pixels member
    simp only [twoFormats,List.mem_cons,List.not_mem_nil,or_false,Prod.mk.injEq,reduceCtorEq,and_false,false_or,Stored.png.injEq,
      Except.ok.injEq] at member
    rw [member.2,List.length_replicate]
    decide
  obtain ⟨saved,size,bytes,_,first,all⟩ := saves_few countedMemory {} (fun _ => true) [] twoFormats twoFormats_safe small
    twoFormats_returns
  obtain ⟨_,keeps,_,few⟩ :=
    all [(fun _ _ => 1,[.open_,.load,.write 0 [7],.save]),(fun _ _ => 2,[.open_,.load,.read 0 1])]
      ⟨⟨trivial,rfl,by simp [Disk.Proper],trivial,trivial⟩,⟨trivial,rfl,by simp [Disk.Proper],trivial⟩,trivial⟩
  exact ⟨saved,size,bytes,first,keeps,few⟩

end FolderStorage
end StegoDisk
