import StegoDisk.ConfiguredRuns
import StegoDisk.Reflection

/-!
Bytes behind the pixels of bitmaps. `LoadFile` and `SaveFile` of the bitmap class read eight bytes for each byte of
capacity and write them back; what a file has behind them is neither read nor changed, so that every call answers as it
does without it.
-/
namespace StegoDisk

/-- The image with bytes behind its pixels, if it is a bitmap. -/
def Image.extend (rest : List UInt8) : Image → Image
  | .bmp pixels => .bmp (pixels ++ rest)
  | image => image

namespace Directory

variable {directory directory' : Directory} {file : File} {rest : File → List UInt8}

/-- The directory with bytes behind the pixels of its bitmaps. -/
def extend (directory : Directory) (rest : File → List UInt8) : Directory where
  entries := directory.entries.map fun entry => (entry.1,entry.2.map (Image.extend (rest entry.1)))
  distinct := by
    rw [List.map_map]
    exact directory.distinct

theorem image_extend : (directory.extend rest).image file = (directory.image file).map (Image.extend (rest file)) := by
  unfold image extend
  dsimp only
  induction directory.entries with
  | nil => rfl
  | cons entry others ih =>
    obtain ⟨name,content⟩ := entry
    simp only [List.map_cons,List.find?_cons]
    by_cases here : name = file
    · subst here
      rcases content with failure | image <;> simp [Except.map]
    · simpa only [here,decide_false] using ih

theorem write_extend (image : Image) :
    (directory.extend rest).write file (image.extend (rest file)) = (directory.write file image).extend rest := by
  simp only [write,extend,List.map_map,mk.injEq]
  refine List.map_congr_left fun entry _ => ?_
  by_cases here : entry.1 = file
  · simp [here,Except.map]
  · simp [here]

/-- Its bitmaps have eight pixels for each byte of their capacity. -/
def Whole (directory : Directory) : Prop :=
  ∀ file pixels, directory.image file = .ok (.bmp pixels) → 8 ∣ pixels.length ∧ pixels.length < 2 ^ 64

theorem Whole.sameFiles (whole : directory.Whole) (same : directory'.SameFiles directory) : directory'.Whole := by
  intro file pixels found
  obtain ⟨image,found',shape⟩ := same.image found
  obtain ⟨format,bits⟩ := shape
  cases image with
  | bmp pixels' =>
    have length : pixels.length = pixels'.length := by simpa only [Image.bits,List.length_map] using bits
    rw [length]
    exact whole file pixels' found'
  | png pixels' => cases format
  | jpeg blocks => cases format

end Directory

/-! ### One carrier -/

namespace CarrierFile

variable {env : Environment} {file : CarrierFile} {image : Image} {s : VirtualStorage}

/-- A bitmap has the pixels that the carrier reads, and no more. -/
def Fits (file : CarrierFile) (image : Image) : Prop :=
  ∀ pixels, image = .bmp pixels → pixels.length = word64 (file.rawCapacity * 8)

theorem openImage_extend (fits : file.Fits image) (rest : List UInt8) :
    file.openImage (image.extend rest) = file.openImage image := by
  cases image with
  | bmp pixels =>
    have length := fits pixels rfl
    simp only [Image.extend,openImage,List.length_append,length,Nat.min_eq_right (Nat.le_add_right _ _),Nat.min_self]
  | png pixels => rfl
  | jpeg blocks => rfl

theorem unpack_extend (fits : file.Fits image) (rest : List UInt8) (size : Nat) :
    file.unpack size (image.extend rest) = file.unpack size image := by
  cases image with
  | bmp pixels =>
    have length := fits pixels rfl
    simp only [Image.extend,unpack,← length,List.take_left,List.take_length]
  | png pixels => rfl
  | jpeg blocks => rfl

theorem pack_extend (fits : file.Fits image) (rest : List UInt8) (buffer : MemoryBuffer) :
    file.pack buffer (image.extend rest) = (file.pack buffer image).map (Image.extend rest) := by
  cases image with
  | bmp pixels =>
    have length := fits pixels rfl
    simp only [Image.extend,pack,← length,List.take_left,List.take_length,List.drop_left,List.drop_length,List.append_nil]
    rcases scatter MemoryBuffer.at file.permutation buffer pixels with failure | bitmap <;> rfl
  | png pixels =>
    simp only [Image.extend,pack]
    rcases scatter peek file.permutation buffer pixels with failure | pixels' <;> rfl
  | jpeg blocks =>
    simp only [Image.extend,pack]
    rcases scatterBlocks file.permutation (word32 file.permutation.size) buffer blocks 0 with failure | blocks' <;> rfl

theorem checkExtracted_extend (rest : List UInt8) (code : Int) :
    file.checkExtracted code (image.extend rest) = file.checkExtracted code image := by
  cases image <;> rfl

theorem fits_ready {ready : CarrierFile} {result : Except Failure Unit} (fits : file.Fits image)
    (ran : file.initPermutation env = (ready,result)) : ready.Fits image := by
  obtain ⟨q,same⟩ := initPermutation_eq env file
  rw [ran] at same
  obtain rfl : ready = { file with permutation := q } := same
  exact fits

theorem loadFile_extend (fits : file.Fits image) (rest : List UInt8) :
    file.loadFile env (image.extend rest) s = file.loadFile env image s := by
  unfold loadFile
  rw [openImage_extend fits]
  split
  · rfl
  rcases file.openImage image with failure | _
  · rfl
  rcases ran : file.initPermutation env with ⟨ready,failure | _⟩
  · rfl
  have fits' := fits_ready fits ran
  simp only [unpack_extend fits',checkExtracted_extend]

theorem saveFile_extend (fits : file.Fits image) (rest : List UInt8) : file.saveFile env (image.extend rest) s =
    ((file.saveFile env image s).1,(file.saveFile env image s).2.map (Image.extend rest)) := by
  unfold saveFile
  rw [openImage_extend fits]
  split
  · rfl
  rcases file.openImage image with failure | _
  · rfl
  rcases ran : file.initPermutation env with ⟨ready,failure | _⟩
  · rfl
  have fits' := fits_ready fits ran
  simp only [unpack_extend fits',pack_extend fits']
  rcases ready.unpack (word32 ready.permutation.size) image with failure | buffer
  · rfl
  simp only [ok_bind]
  rcases ready.embedBufferUsingEncoder buffer s with failure | buffer' <;> rfl

end CarrierFile

/-! ### All carriers -/

/-- What the constructor gives to a carrier and no call changes. -/
def CarrierFile.made (c : CarrierFile) : File × Nat := (c.file,c.rawCapacity)

namespace CarrierFilesManager
open CarrierFile

variable {env : Environment} {directory : Directory} {files files' : List CarrierFile} {rest : File → List UInt8}
  {m : CarrierFilesManager} {storages : List VirtualStorage}

theorem Matches.fits (sizes : Matches directory files) (whole : directory.Whole) {file : CarrierFile} (member : file ∈ files)
    {image : Image} (found : directory.image file.file = .ok image) : file.Fits image := by
  rintro pixels rfl
  obtain ⟨divides,small⟩ := whole file.file pixels found
  have raw : pixels.length / 8 = file.rawCapacity := sizes file member _ found
  rw [← raw,Nat.div_mul_cancel divides,word64_of_lt small]

/-- Whether the sizes are right depends on the files and the capacities alone. -/
theorem Matches.of_made (sizes : Matches directory files)
    (same : files'.map made = files.map made) : Matches directory files' := by
  intro c member image found
  have there : c.made ∈ files.map made := by
    rw [← same]
    exact List.mem_map_of_mem member
  obtain ⟨c',held,pair⟩ := List.mem_map.mp there
  obtain ⟨name,raw⟩ := Prod.mk.inj pair
  rw [← raw]
  exact sizes c' held image (name ▸ found)

theorem loadFiles_extend (sizes : Matches directory files) (whole : directory.Whole) (s : VirtualStorage) :
    loadFiles env (directory.extend rest) files s = loadFiles env directory files s := by
  induction files generalizing s with
  | nil => rfl
  | cons file others ih =>
    have later := ih fun c member => sizes c (List.mem_cons_of_mem _ member)
    rcases found : directory.image file.file with failure | image
    · simp only [loadFiles,Directory.image_extend,found,Except.map,later]
    · have fits := sizes.fits whole List.mem_cons_self found
      simp only [loadFiles,Directory.image_extend,found,Except.map,loadFile_extend fits,later]

theorem saveFiles_extend (sizes : Matches directory files) (whole : directory.Whole) :
    saveFiles env storages files (directory.extend rest) =
      (((saveFiles env storages files directory).1.1,(saveFiles env storages files directory).1.2.extend rest),
        (saveFiles env storages files directory).2) := by
  induction files generalizing directory with
  | nil => rfl
  | cons file others ih =>
    have later : Matches directory others := fun c member => sizes c (List.mem_cons_of_mem _ member)
    rcases found : directory.image file.file with failure | image
    · simp only [saveFiles,Directory.image_extend,found,Except.map,ih later whole]
    have fits := sizes.fits whole List.mem_cons_self found
    simp only [saveFiles,Directory.image_extend,found,Except.map,saveFile_extend fits]
    rcases saved : (file.saveFile env image ((file.virtualStorage.bind (storages[·]?)).getD {})).2 with failure | image'
    · simp only [ih later whole]
    · have same : (directory.write file.file image').SameFiles directory := .write found (saveFile_shape saved)
      have later' : Matches (directory.write file.file image') others := Matches.sameFiles later same
      simp only [Directory.write_extend,ih later' (whole.sameFiles same),ok_bind]

theorem loadVirtualStorage_extend (sizes : Matches directory m.carrierFiles) (whole : directory.Whole)
    (memory : Nat → UInt8) (ref : Nat) (s : VirtualStorage) :
    m.loadVirtualStorage env memory (directory.extend rest) ref s = m.loadVirtualStorage env memory directory ref s := by
  unfold loadVirtualStorage
  rcases m.encoder with _ | e
  · rfl
  rcases m.masterKey with _ | key
  · rfl
  simp only
  rcases s.applyPermutation env memory m.capacity key.val with ⟨s',failure | _⟩
  · rfl
  have shares : (assignShares m.carrierFiles ref s'.rawCapacity).map blank = m.carrierFiles.map blank :=
    blanks_assignShares m.carrierFiles ref s'.rawCapacity
  have sizes' : Matches directory (assignShares m.carrierFiles ref s'.rawCapacity) := by
    rw [← matches_blank,shares,matches_blank]
    exact sizes
  simp only [loadFiles_extend sizes' whole]

theorem saveVirtualStorage_extend (sizes : Matches directory m.carrierFiles) (whole : directory.Whole) :
    m.saveVirtualStorage env storages (directory.extend rest) =
      (((m.saveVirtualStorage env storages directory).1.1,(m.saveVirtualStorage env storages directory).1.2.1,
        (m.saveVirtualStorage env storages directory).1.2.2.extend rest),(m.saveVirtualStorage env storages directory).2) := by
  unfold saveVirtualStorage
  rcases m.virtualStorage with _ | ref
  · rfl
  simp only
  rcases storages[ref]? with _ | s
  · rfl
  simp only
  rcases s.writeChecksum env.keccak with failure | s'
  · rfl
  · simp only [saveFiles_extend sizes whole]

/-! ### What the calls keep -/

theorem loadFiles_made (files : List CarrierFile) (s : VirtualStorage) :
    (loadFiles env directory files s).1.1.map made = files.map made := by
  have plans := congrArg (List.map made) (@loadFiles_plan env directory files s)
  rw [List.map_map,List.map_map] at plans
  exact plans

theorem loadVirtualStorage_made (memory : Nat → UInt8) (ref : Nat) (s : VirtualStorage) :
    (m.loadVirtualStorage env memory directory ref s).1.1.carrierFiles.map made = m.carrierFiles.map made := by
  rcases loadVirtualStorage_outcome env memory directory ref m s with
    ⟨failure,outcome⟩ | ⟨e,key,t,result,_,_,⟨failure,_,outcome⟩ | ⟨_,files,s',ran,tasks,outcome⟩⟩
  · rw [outcome]
  · rw [outcome]
  -- the shares change neither, and the tasks do not
  have shares := congrArg (List.map made) (blanks_assignShares m.carrierFiles ref t.rawCapacity)
  rw [List.map_map,List.map_map] at shares
  have loaded := @loadFiles_made env directory (assignShares m.carrierFiles ref t.rawCapacity) t
  rw [tasks] at loaded
  have kept : files.map made = m.carrierFiles.map made := loaded.trans shares
  rcases outcome with ⟨failure,_,outcome⟩ | ⟨_,outcome⟩
  · rw [outcome]
    exact kept
  · rw [outcome]
    exact kept

theorem saveFiles_made (files : List CarrierFile) (directory : Directory) :
    (saveFiles env storages files directory).1.1.map made = files.map made := by
  induction files generalizing directory with
  | nil => rfl
  | cons file others ih =>
    simp only [saveFiles]
    rcases directory.image file.file with failure | image
    · simp only [List.map_cons,ih]
    · obtain ⟨q,same⟩ := saveFile_carrier env file image ((file.virtualStorage.bind (storages[·]?)).getD {})
      simp only [List.map_cons,ih,same,made]

/-- `SetEncoder` and `ApplyEncoder` change neither the files nor the capacities. -/
theorem Matches.applied (sizes : Matches directory m.carrierFiles) {e : Encoder} {m' : CarrierFilesManager}
    {result : Except Failure Unit} (ran : (m.setEncoder e).applyEncoder env = (m',result)) :
    Matches directory m'.carrierFiles := by
  have cores := (applyEncoder_core env (m.setEncoder e)).1.trans (setEncoder_core m e).1
  rw [ran] at cores
  have both := congrArg (List.map made) cores
  rw [List.map_map,List.map_map] at both
  exact sizes.of_made both

end CarrierFilesManager

namespace StegoStorage
open CarrierFilesManager

variable {platform : Platform} {s : StegoStorage} {rest : File → List UInt8}

/-- After every call, also one that fails, the images of the carriers are as large as they were when these were created. -/
theorem step_matches (sizes : Matches s.directory s.manager.carrierFiles) (op : Op) :
    (step platform s op).directory.SameFiles s.directory ∧
      Matches (step platform s op).directory (step platform s op).manager.carrierFiles := by
  cases op with
  | configure config => exact ⟨.refl _,sizes⟩
  | open_ select password =>
    obtain ⟨created,_⟩ := @openDirectory_carriers platform.env platform.sorting s.config.localPermutation select password
      s.manager s.directory
    have unloaded := @unloaded_of_created platform.env select _ s.directory s.directory created (.refl _)
    obtain ⟨m,result,ran,outcome⟩ := open_eq platform s select password
    have left : openDirectory platform.env platform.sorting s.config.localPermutation select password s.manager s.directory =
      (m,result) := ran
    rw [left] at unloaded
    rcases outcome with ⟨_,same⟩ | ⟨_,same⟩
    · simp only [step,perform,same]
      exact ⟨.refl _,unloaded.sizes⟩
    · simp only [step,perform,same]
      exact ⟨.refl _,unloaded.sizes⟩
  | load =>
    rcases load_eq platform s with ⟨_,_,same⟩ | ⟨_,_,⟨m,_,ran,same⟩ | ⟨m,ran,m',storage,result,loaded,same⟩⟩
    · simp only [step,perform,same]
      exact ⟨.refl _,sizes⟩
    · simp only [step,perform,same]
      exact ⟨.refl _,Matches.applied sizes ran⟩
    · simp only [step,perform,same]
      have kept := @loadVirtualStorage_made platform.env s.directory m (platform.memory s.storages.length) s.storages.length
        (VirtualStorage.setPermutation {} (some (.fresh s.config.globalPerm))).1
      rw [loaded] at kept
      exact ⟨.refl _,Matches.of_made (Matches.applied sizes ran) kept⟩
  | read offset length => exact ⟨.refl _,sizes⟩
  | write offset source =>
    rcases s.write_eq offset source with same | ⟨ref,storage,storage',_,_,_,same⟩
    · simp only [step,perform,same]
      exact ⟨.refl _,sizes⟩
    · simp only [step,perform,same]
      exact ⟨.refl _,sizes⟩
  | getSize => exact ⟨.refl _,sizes⟩
  | save =>
    rcases save_eq platform s with ⟨_,same⟩ | ⟨_,_,m,storages,directory,result,ran,same⟩
    · simp only [step,perform,same]
      exact ⟨.refl _,sizes⟩
    simp only [step,perform,same]
    rcases @saveVirtualStorage_cases platform.env s.manager s.storages s.directory with
      ⟨failure,outcome⟩ | ⟨ref,storage,storage',_,_,_,outcome⟩
    · obtain ⟨rfl,both⟩ := Prod.mk.inj (congrArg Prod.fst (ran.symm.trans outcome))
      obtain ⟨_,rfl⟩ := Prod.mk.inj both
      exact ⟨.refl _,sizes⟩
    · obtain ⟨rfl,both⟩ := Prod.mk.inj (congrArg Prod.fst (ran.symm.trans outcome))
      obtain ⟨_,rfl⟩ := Prod.mk.inj both
      have files := @saveFiles_sameFiles platform.env (s.storages.set ref storage') s.manager.carrierFiles s.directory
      exact ⟨files,(sizes.sameFiles files).of_made (saveFiles_made s.manager.carrierFiles s.directory)⟩

/-- A call other than `Open` answers as it does without the bytes behind the pixels, and leaves them there. -/
theorem perform_extend (sizes : Matches s.directory s.manager.carrierFiles) (whole : s.directory.Whole) {op : Op}
    (goesOn : ∀ select password, op ≠ .open_ select password) :
    StegoStorage.perform platform { s with directory := s.directory.extend rest } op =
      ({ (s.perform platform op).1 with directory := (s.perform platform op).1.directory.extend rest },
        (s.perform platform op).2) := by
  cases op with
  | configure config => rfl
  | open_ select password => exact absurd rfl (goesOn select password)
  | load =>
    simp only [perform,load]
    by_cases configured : s.config.initialized = false
    · rw [if_pos configured,if_pos configured]
    rw [if_neg configured,if_neg configured]
    by_cases opened : s.opened = false
    · rw [if_pos opened,if_pos opened]
    rw [if_neg opened,if_neg opened]
    rcases ran : (s.manager.setEncoder (Encoder.ofType s.config.encoder)).applyEncoder platform.env with ⟨m,failure | _⟩
    · rfl
    simp only [loadVirtualStorage_extend (Matches.applied sizes ran) whole]
  | read offset length => rfl
  | write offset source =>
    simp only [perform,write,current]
    split
    · split <;> rfl
    · rfl
  | getSize => rfl
  | save =>
    simp only [perform,save]
    by_cases opened : s.opened = false
    · rw [if_pos opened,if_pos opened]
    rw [if_neg opened,if_neg opened]
    by_cases loaded : s.virtualStorage.isNone = true
    · rw [if_pos loaded,if_pos loaded]
    rw [if_neg loaded,if_neg loaded]
    simp only [saveVirtualStorage_extend sizes whole]

end StegoStorage
end StegoDisk
