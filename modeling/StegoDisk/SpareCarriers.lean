import StegoDisk.RoundTrip

/-!
Carriers without a share of the storage. The bitmap and the PNG class load such a carrier and
refuse to save it, and the JPEG class refuses to load it, so that a load and a save
return exactly when every carrier has some capacity and begins before the end of the storage.
-/
namespace StegoDisk

namespace CarrierFile

/-- A carrier that is saved has a block. -/
theorem embedBufferUsingEncoder_used {file : CarrierFile} {buffer after : MemoryBuffer} {s : VirtualStorage}
    (embedded : file.embedBufferUsingEncoder buffer s = .ok after) : 0 < file.blocksUsed := by
  unfold embedBufferUsingEncoder at embedded
  split at embedded
  · simp at embedded
  split at embedded
  · simp at embedded
  split at embedded
  · simp at embedded
  split at embedded
  · simp at embedded
  · omega

theorem saveFile_used {env : Environment} {file : CarrierFile} {image image' : Image} {s : VirtualStorage}
    (saved : (file.saveFile env image s).2 = .ok image') : 0 < file.blocksUsed := by
  obtain ⟨q,buffer,after,same,_,embedded,_⟩ := saveFile_inv (eq_of_returns saved)
  have used := embedBufferUsingEncoder_used embedded
  rwa [same] at used

end CarrierFile

namespace CarrierFilesManager
open CarrierFile VirtualStorage Segments

variable {env : Environment} {e : Encoder} {g : PermutationType} {m m' : CarrierFilesManager} {ref n : Nat}
  {s : VirtualStorage} {directory : Directory} {memory : Nat → UInt8} {files : List CarrierFile}

theorem saveFiles_used {storages : List VirtualStorage} (saved : (saveFiles env storages files directory).2 = .ok ()) :
    ∀ c ∈ files, 0 < c.blocksUsed := by
  induction files generalizing directory with
  | nil => simp
  | cons c rest ih =>
    simp only [saveFiles] at saved
    rcases opened : directory.image c.file with failure | image
    · simp [opened] at saved
    · simp only [opened] at saved
      obtain ⟨image',own,others⟩ := bind_eq_ok.mp saved
      intro d member
      rcases List.mem_cons.mp member with rfl | later
      · exact saveFile_used own
      · exact ih others d later

/-- Every carrier has some capacity and begins before the end of a storage of `n` bytes. -/
def AllShare (files : List CarrierFile) (n : Nat) : Prop :=
  ∀ (k : Nat) (c : CarrierFile), files[k]? = some c → 0 < c.capacity ∧ offset files k < n

instance (files : List CarrierFile) (n : Nat) : Decidable (AllShare files n) :=
  decidable_of_iff (∀ k : Fin files.length, 0 < files[k].capacity ∧ offset files k < n) <| by
    constructor
    · intro all k c here
      obtain ⟨inside,rfl⟩ := List.getElem?_eq_some_iff.mp here
      exact all ⟨k,inside⟩
    · exact fun all k => all k files[k] (List.getElem?_eq_getElem k.isLt)

theorem allShare_iff (shaped : ∀ c ∈ files, Shaped c) :
    (∀ c ∈ assignShares files ref n, 0 < c.blocksUsed) ↔ AllShare files n := by
  have count : ∀ (k : Nat) (c : CarrierFile), files[k]? = some c →
      (0 < (c.addToVirtualStorage ref (word64 (offset files k)) (bytesUsed files n k c)).blocksUsed ↔
        0 < c.capacity ∧ offset files k < n) := by
    intro k c here
    have least : 0 < bytesUsed files n k c ↔ 0 < c.capacity ∧ offset files k < n := by
      rw [bytesUsed,lt_min_iff]
      omega
    rw [blocksUsed_eq (shaped c (List.mem_of_getElem? here)),blocks,← least]
    split
    · omega
    · simp only [Nat.succ_pos,true_iff]
      omega
  constructor
  · intro used k c here
    exact (count k c here).mp (used _ (List.mem_of_getElem? (by rw [assignShares_get,here]; rfl)))
  · intro all c member
    obtain ⟨k,there⟩ := List.mem_iff_getElem?.mp member
    rw [assignShares_get] at there
    obtain ⟨original,here,rfl⟩ := Option.map_eq_some_iff.mp there
    exact (count k original here).mpr (all k original here)

theorem Unloaded.encoded_sizes (unloaded : Unloaded env directory m) : Matches directory (m.applied env e).carrierFiles := by
  have created : ((m.applied env e).carrierFiles.map blank) = m.carrierFiles.map blank := (@applied_alike env e m).blanks
  exact matches_blank.mp (created ▸ matches_blank.mpr unloaded.sizes)

/-- `LoadVirtualStorage` and `SaveVirtualStorage` after it return. -/
def LoadsAndSaves (env : Environment) (g : PermutationType) (memory : Nat → UInt8) (ref : Nat) (directory : Directory)
    (m : CarrierFilesManager) : Prop :=
  ∃ m' s valid, m.loadVirtualStorage env memory directory ref (unapplied g) = ((m',s),.ok valid) ∧
    ∀ storages : List VirtualStorage, storages[ref]? = some s → (m'.saveVirtualStorage env storages directory).2 = .ok ()

/-- Carriers can be opened when they can with their encoder and their subkeys. -/
theorem openable_of_applied (images : ∀ c ∈ m.carrierFiles, ∃ image, directory.image c.file = .ok image)
    (readable : ∀ c ∈ (m.applied env e).carrierFiles, ∀ image, directory.image c.file = .ok image → Opened c image) :
    Openable directory m.carrierFiles := by
  intro c member
  obtain ⟨image,found⟩ := images c member
  have there : c.blank ∈ (m.applied env e).blanks := by
    rw [(applied_alike _).blanks]
    exact List.mem_map_of_mem member
  obtain ⟨c',held,same⟩ := List.mem_map.mp there
  have name := congrArg CarrierFile.file same
  simp only [blank] at name
  exact ⟨image,found,opened_blank same (readable c' held image (by rw [name]; exact found))⟩

/-- For carriers that are opened, whose encoder is applied and whose files can be read, and a global
    permutation that is applied to a new storage: load and save return exactly when every
    carrier has a share and the checksum is over fewer than 2^31 bytes, modulo 2^32. -/
theorem loadsAndSaves_iff (env : Environment) (sorting : Sorting) (localPermutation : Format → PermutationType)
    (g : PermutationType) (e : Encoder) (select : File → Bool) (password : List UInt8) (directory : Directory)
    (m₀ m₁ m₂ : CarrierFilesManager) (memory : Nat → UInt8) (ref : Nat) (key : Key) (s₀ : VirtualStorage)
    (opened : openDirectory env sorting localPermutation select password m₀ directory = (m₁,.ok ()))
    (applied : (m₁.setEncoder e).applyEncoder env = (m₂,.ok ())) (master : m₂.masterKey = some key)
    (allocated : (unapplied g).applyPermutation env memory m₂.capacity key.val = (s₀,.ok ()))
    (readable : ∀ c ∈ m₂.carrierFiles, ∀ image, directory.image c.file = .ok image → Opened c image) :
    LoadsAndSaves env g memory ref directory m₂ ↔
      AllShare m₂.carrierFiles s₀.rawCapacity ∧ word32 (s₀.rawCapacity - 32) < 2 ^ 31 := by
  obtain ⟨rfl,unloaded,accepts,distinct,images⟩ := applied_of_opened opened applied
  obtain rfl : (m₁.setEncoder e).key env = key := Option.some.inj master
  rw [applied_capacity accepts] at allocated
  have shaped : ∀ c ∈ ((m₁.setEncoder e).applied env e).carrierFiles, Shaped c := fun c member =>
    (encodeAll_shaped unloaded.settled accepts c member).2
  have shares := applied_shares accepts ref 0 s₀.rawCapacity
  obtain ⟨fits,_⟩ := applyPermutation_applied (word64_lt _) allocated
  constructor
  · rintro ⟨m',s,valid,loaded,saves⟩
    obtain ⟨n,f,attached,_,alike,_,checked⟩ := attached_of_load (setEncoder_holds m₁ e) unloaded accepts loaded
    have applied' := attached.applied
    rw [alike.total,alike.key] at applied'
    obtain rfl : s₀.rawCapacity = n := by
      rw [applied'.same fits]
      exact attached.mapped.raw
    refine ⟨?_,(isValidChecksum_iff attached.applied attached.mapped).mp ⟨valid,checked⟩⟩
    have saved := saves (List.replicate ref s ++ [s]) (by simp)
    have used : ∀ c ∈ m'.carrierFiles, 0 < c.blocksUsed := by
      simp only [saveVirtualStorage,attached.refers] at saved
      split at saved
      · simp at saved
      split at saved
      · simp at saved
      · exact saveFiles_used saved
    have plans := attached.shares
    rw [alike.planned,← shares] at plans
    exact (allShare_iff shaped).mp (used_of_plan plans used)
  · rintro ⟨all,narrow⟩
    have used := used_of_plan shares ((allShare_iff shaped).mpr all)
    have openable := openable_of_applied (m := m₁.setEncoder e) images readable
    obtain ⟨files,s,n,f,loaded,attached,_,alike⟩ := @loadVirtualStorage_ok env e g (m₁.setEncoder e) ref s₀ directory memory
      (setEncoder_holds m₁ e) unloaded accepts openable allocated used
    have applied' := attached.applied
    rw [alike.total,alike.key] at applied'
    obtain rfl : s₀.rawCapacity = n := by
      rw [applied'.same fits]
      exact attached.mapped.raw
    obtain ⟨valid,checked⟩ := (isValidChecksum_iff attached.applied attached.mapped).mpr narrow
    refine ⟨_,s,valid,loaded.trans (by rw [checked]),?_⟩
    intro storages there
    rw [← alike.planned] at used
    obtain ⟨_,_,ran,_⟩ := attached.saveVirtualStorage_ok there (used_of_plan attached.shares.symm used)
      (openable.blanks alike.blanks.symm) (by rw [alike.names]; exact distinct) narrow
    rw [ran]

/-- PNG images can be read when their pixels fit in memory. -/
theorem readable_of_png (sizes : Matches directory m.carrierFiles)
    (pictures : ∀ entry ∈ directory.entries, ∃ pixels, entry.2 = .ok (.png pixels) ∧ pixels.length < addressSpace) :
    ∀ c ∈ m.carrierFiles, ∀ image, directory.image c.file = .ok image → Opened c image := by
  intro c member image found
  obtain ⟨pixels,content,fits⟩ := pictures _ (Directory.image_eq_ok.mp found)
  obtain rfl := Except.ok.inj content
  refine ⟨sizes c member _ found,rfl,?_⟩
  intro pixels' same
  obtain rfl := Image.png.inj same
  exact fits

/-- A carrier of 34 bytes has all of the storage. -/
theorem loadsAndSaves_picture :
    LoadsAndSaves Permutation.twoPrimes .identity (fun _ => 0) 0 onePicture pictureApplied := by
  have opened : openDirectory Permutation.twoPrimes .byInsertion (fun _ => .identity) (fun _ => true) [] {} onePicture =
      (pictureOpened,.ok ()) := eq_of_returns (by decide +kernel)
  have applied : (pictureOpened.setEncoder (.lsb .default)).applyEncoder Permutation.twoPrimes = (pictureApplied,.ok ()) :=
    eq_of_returns (by decide +kernel)
  obtain ⟨same,unloaded,accepts,_⟩ := applied_of_opened opened applied
  have sizes : Matches onePicture pictureApplied.carrierFiles := by
    rw [same]
    exact unloaded.encoded_sizes
  refine (loadsAndSaves_iff _ _ _ .identity _ _ _ onePicture {} pictureOpened pictureApplied (fun _ => 0) 0 Hash.initial _
    opened applied (by decide +kernel) (eq_of_returns (by decide +kernel)) (readable_of_png sizes ?_)).mpr (by decide +kernel)
  rintro entry member
  obtain rfl := List.mem_singleton.mp member
  exact ⟨_,rfl,by rw [List.length_replicate]; decide⟩

/-- A second image has three pixels of three bytes: its one byte is less than a block of two. -/
def twoPictures : Directory where
  entries := [(⟨[],[97,46,112,110,103]⟩,.ok (.png (List.replicate 273 0))),(⟨[],[98,46,112,110,103]⟩,.ok (.png (List.replicate 9 0)))]
  distinct := by decide

def twoBytes : Encoder := .lsb ⟨2,by decide +kernel,by decide⟩

def twoOpened : CarrierFilesManager :=
  (openDirectory Permutation.twoPrimes .byInsertion (fun _ => .identity) (fun _ => true) [] {} twoPictures).1

def twoApplied : CarrierFilesManager := ((twoOpened.setEncoder twoBytes).applyEncoder Permutation.twoPrimes).1

theorem not_loadsAndSaves_two : ¬ LoadsAndSaves Permutation.twoPrimes .identity (fun _ => 0) 0 twoPictures twoApplied := by
  have opened : openDirectory Permutation.twoPrimes .byInsertion (fun _ => .identity) (fun _ => true) [] {} twoPictures =
      (twoOpened,.ok ()) := eq_of_returns (by decide +kernel)
  have applied : (twoOpened.setEncoder twoBytes).applyEncoder Permutation.twoPrimes = (twoApplied,.ok ()) :=
    eq_of_returns (by decide +kernel)
  obtain ⟨same,unloaded,accepts,_⟩ := applied_of_opened opened applied
  have sizes : Matches twoPictures twoApplied.carrierFiles := by
    rw [same]
    exact unloaded.encoded_sizes
  have pictures : ∀ entry ∈ twoPictures.entries, ∃ pixels, entry.2 = .ok (.png pixels) ∧ pixels.length < addressSpace := by
    rintro entry member
    rcases List.mem_pair.mp member with rfl | rfl
    · exact ⟨_,rfl,by rw [List.length_replicate]; decide⟩
    · exact ⟨_,rfl,by rw [List.length_replicate]; decide⟩
  intro returns
  have all := (loadsAndSaves_iff _ _ _ .identity _ _ _ twoPictures {} twoOpened twoApplied (fun _ => 0) 0 Hash.initial _
    opened applied (by decide +kernel) (eq_of_returns (by decide +kernel)) (readable_of_png sizes pictures)).mp returns
  revert all
  decide +kernel

end CarrierFilesManager
end StegoDisk
