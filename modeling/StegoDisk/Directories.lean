import StegoDisk.Prepared

/-!
What saving does to the files. It replaces images by images of the same shape, so that the
files are accepted or rejected as before and give the same carriers when they are opened
again.
-/
namespace StegoDisk
open Loops

theorem Image.SameShape.refl (image : Image) : image.SameShape image := ⟨rfl,rfl⟩

/-! ### Images that are written back -/

namespace CarrierFile

variable {p : Permutation} {buffer : MemoryBuffer} {size : Nat}

theorem scatter_length {access : List UInt8 → Nat → Except Failure UInt8} {pixels after : List UInt8}
    (ran : scatter access p buffer pixels = .ok after) : after.length = pixels.length := by
  refine foldlM_keeps (fun after : List UInt8 => after.length = pixels.length) ?_ ran rfl
  intro i s s' stepped same
  obtain ⟨pixel,_,rest⟩ := bind_eq_ok.mp stepped
  obtain ⟨bit,_,last⟩ := bind_eq_ok.mp rest
  obtain rfl := Except.ok.inj last
  rw [List.length_set,same]

/-- Writing keeps which coefficients count. -/
theorem scatterCoefficients_eligible {cs : List UInt16} {counter : Nat} {after : List UInt16 × Option Nat}
    (ran : scatterCoefficients p size buffer cs counter = .ok after) : after.1.map eligible = cs.map eligible := by
  induction cs generalizing counter after with
  | nil =>
    obtain rfl := Except.ok.inj ran
    rfl
  | cons c rest ih =>
    rw [scatterCoefficients] at ran
    split at ran
    · obtain ⟨bit,_,written⟩ := bind_eq_ok.mp ran
      dsimp only at written
      split at written
      · obtain rfl := Except.ok.inj written
        rw [List.map_cons,eligible_replaced,List.map_cons]
      · obtain ⟨others,ran',last⟩ := bind_eq_ok.mp written
        obtain rfl := Except.ok.inj last
        rw [List.map_cons,eligible_replaced,ih ran',List.map_cons]
    · obtain ⟨others,ran',last⟩ := bind_eq_ok.mp ran
      obtain rfl := Except.ok.inj last
      rw [List.map_cons,ih ran',List.map_cons]

/-- It keeps the blocks and their DC coefficients too. -/
theorem scatterBlocks_eligible {blocks after : List JpegBlock} {counter : Nat}
    (ran : scatterBlocks p size buffer blocks counter = .ok after) :
    after.map (fun block => (block.dc,block.ac.map eligible)) = blocks.map fun block => (block.dc,block.ac.map eligible) := by
  induction blocks generalizing counter after with
  | nil =>
    obtain rfl := Except.ok.inj ran
    rfl
  | cons block rest ih =>
    obtain ⟨⟨ac,counter'⟩,first,others⟩ := bind_eq_ok.mp ran
    have own := scatterCoefficients_eligible first
    cases counter' with
    | none =>
      obtain rfl := Except.ok.inj others
      rw [List.map_cons,own,List.map_cons]
    | some counter' =>
      obtain ⟨later,ran',last⟩ := bind_eq_ok.mp others
      obtain rfl := Except.ok.inj last
      rw [List.map_cons,own,ih ran',List.map_cons]

theorem coefficients_eligible {blocks after : List JpegBlock}
    (same : after.map (fun block => (block.dc,block.ac.map eligible)) = blocks.map fun block => (block.dc,block.ac.map eligible)) :
    (coefficients after).map eligible = (coefficients blocks).map eligible := by
  have flat : ∀ blocks : List JpegBlock, (coefficients blocks).map eligible =
      (blocks.map fun block => (block.dc,block.ac.map eligible)).flatMap Prod.snd := by
    intro blocks
    rw [coefficients,List.map_flatMap,List.flatMap_map]
  rw [flat,flat,same]

theorem bits16_length {cs cs' : List UInt16} (same : cs'.map eligible = cs.map eligible) :
    (bits16 cs').length = (bits16 cs).length := by
  have counted : ∀ cs : List UInt16, (bits16 cs).length = (cs.map eligible).countP id := by
    intro cs
    rw [bits16,List.length_map,← List.countP_eq_length_filter,List.countP_map]
    rfl
  rw [counted,counted,same]

/-- An image that is written back has the shape of the one that was read. -/
theorem pack_shape {file : CarrierFile} {image image' : Image} (packed : file.pack buffer image = .ok image') :
    image'.SameShape image := by
  cases image with
  | bmp pixels =>
    obtain ⟨after,ran,last⟩ := bind_eq_ok.mp packed
    obtain rfl := Except.ok.inj last
    have same := scatter_length ran
    refine ⟨rfl,?_⟩
    simp only [Image.bits,List.length_map,List.length_append,List.length_drop,same,List.length_take]
    omega
  | png pixels =>
    obtain ⟨after,ran,last⟩ := bind_eq_ok.mp packed
    obtain rfl := Except.ok.inj last
    exact ⟨rfl,by simp only [Image.bits,List.length_map,scatter_length ran]⟩
  | jpeg blocks =>
    obtain ⟨after,ran,last⟩ := bind_eq_ok.mp packed
    obtain rfl := Except.ok.inj last
    exact ⟨rfl,bits16_length (coefficients_eligible (scatterBlocks_eligible ran))⟩

theorem saveFile_shape {env : Environment} {file : CarrierFile} {image image' : Image} {s : VirtualStorage}
    (saved : (file.saveFile env image s).2 = .ok image') : image'.SameShape image := by
  obtain ⟨_,_,_,_,_,_,packed⟩ := saveFile_inv (eq_of_returns saved)
  exact pack_shape packed

end CarrierFile

/-! ### Files -/

namespace Directory

variable {directory directory' : Directory} {file other : File}

theorem image_eq_ok {image : Image} : directory.image file = .ok image ↔ (file,.ok image) ∈ directory.entries := by
  obtain ⟨entries,distinct⟩ := directory
  unfold Directory.image
  dsimp only
  induction entries with
  | nil => simp
  | cons entry rest ih =>
    obtain ⟨name,content⟩ := entry
    rw [List.map_cons,List.nodup_cons] at distinct
    have ih := ih distinct.2
    by_cases here : name = file
    · subst here
      have absent : (name,.ok image) ∉ rest := fun member => distinct.1 (List.mem_map.mpr ⟨_,member,rfl⟩)
      rcases content with failure | held <;> simp [absent,eq_comm]
    · simp only [List.find?_cons,here,decide_false]
      rw [ih,List.mem_cons,Prod.mk.injEq]
      simp [Ne.symm here]

theorem image_write_other {image : Image} (differ : other ≠ file) : (directory.write file image).image other = directory.image other := by
  unfold Directory.image write
  dsimp only
  induction directory.entries with
  | nil => rfl
  | cons entry rest ih =>
    simp only [List.map_cons,List.find?_cons]
    by_cases here : entry.1 = file
    · have past : entry.1 ≠ other := by
        rw [here]
        exact Ne.symm differ
      simpa only [here,if_true,Ne.symm differ,decide_false] using ih
    · by_cases found : entry.1 = other
      · simp [found,differ]
      · simpa only [here,found,if_false,decide_false] using ih

theorem image_write {before image : Image} (there : directory.image file = .ok before) :
    (directory.write file image).image file = .ok image := by
  rw [image_eq_ok] at there ⊢
  exact List.mem_map.mpr ⟨_,there,by simp⟩

/-- Two files of one name that are both rejected, or have images of the same shape. -/
inductive Alike : File × Content → File × Content → Prop
  | rejected (file : File) (failure : Exception) : Alike (file,.error failure) (file,.error failure)
  | accepted (file : File) {image image' : Image} : image.SameShape image' → Alike (file,.ok image) (file,.ok image')

theorem Alike.refl (entry : File × Content) : Alike entry entry := by
  obtain ⟨file,failure | image⟩ := entry
  · exact .rejected file failure
  · exact .accepted file (.refl image)

theorem Alike.trans {a b c : File × Content} (first : Alike a b) (second : Alike b c) : Alike a c := by
  cases first with
  | rejected => exact second
  | accepted file same =>
    cases second with
    | accepted _ same' => exact .accepted file (same.trans same')

theorem Alike.symm {a b : File × Content} (alike : Alike a b) : Alike b a := by
  cases alike with
  | rejected => exact .rejected _ _
  | accepted file same => exact .accepted file ⟨same.format.symm,same.bits.symm⟩

/-- The same files, with images of the same shapes. -/
def SameFiles (directory directory' : Directory) : Prop := List.Forall₂ Alike directory.entries directory'.entries

theorem SameFiles.refl (directory : Directory) : directory.SameFiles directory := List.forall₂_same.mpr fun a _ => .refl a

theorem SameFiles.symm (same : directory.SameFiles directory') : directory'.SameFiles directory := by
  obtain ⟨length,each⟩ := List.forall₂_iff_get.mp same
  exact List.forall₂_iff_get.mpr ⟨length.symm,fun i here there => (each i there here).symm⟩

theorem SameFiles.trans {a b c : Directory} (first : a.SameFiles b) (second : b.SameFiles c) : a.SameFiles c := by
  obtain ⟨length,each⟩ := List.forall₂_iff_get.mp first
  obtain ⟨length',each'⟩ := List.forall₂_iff_get.mp second
  exact List.forall₂_iff_get.mpr ⟨length.trans length',fun i here there => (each i here (by omega)).trans (each' i (by omega) there)⟩

theorem SameFiles.write {before image : Image} (there : directory.image file = .ok before) (same : image.SameShape before) :
    (directory.write file image).SameFiles directory := by
  unfold SameFiles Directory.write
  rw [List.forall₂_map_left_iff,List.forall₂_same]
  rintro ⟨name,content⟩ member
  dsimp only
  split
  · rename_i here
    subst here
    have held := image_eq_ok.mp there
    obtain rfl : content = .ok before := by
      have unique := List.inj_on_of_nodup_map directory.distinct member held rfl
      exact (Prod.mk.inj unique).2
    exact .accepted _ same
  · exact .refl _

theorem Alike.name {a b : File × Content} (alike : Alike a b) : a.1 = b.1 := by
  cases alike <;> rfl

theorem alike_filter {entries entries' : List (File × Content)} (all : List.Forall₂ Alike entries entries')
    (select : File → Bool) :
    List.Forall₂ Alike (entries.filter fun entry => select entry.1) (entries'.filter fun entry => select entry.1) := by
  induction all with
  | nil => exact .nil
  | cons alike _ ih =>
    rw [List.filter_cons,List.filter_cons,alike.name]
    split
    · exact .cons alike ih
    · exact ih

theorem SameFiles.image {image : Image} (same : directory.SameFiles directory') (there : directory.image file = .ok image) :
    ∃ image', directory'.image file = .ok image' ∧ image.SameShape image' := by
  rw [image_eq_ok] at there
  obtain ⟨k,here⟩ := List.mem_iff_getElem?.mp there
  obtain ⟨entry,there',alike⟩ := forall₂_left same here
  cases alike with
  | accepted _ shape => exact ⟨_,image_eq_ok.mpr (List.mem_of_getElem? there'),shape⟩

end Directory

namespace CarrierFilesManager
open Directory

variable {env : Environment} {storages : List VirtualStorage} {localPermutation : Format → PermutationType}

theorem foundCarriers_alike {entries entries' : List (File × Content)} (all : List.Forall₂ Alike entries entries') :
    foundCarriers localPermutation entries = foundCarriers localPermutation entries' := by
  induction all with
  | nil => rfl
  | cons alike _ ih =>
    cases alike with
    | rejected => rfl
    | accepted file same =>
      simp only [foundCarriers,createCarrierFile,same.rawCapacity,same.format,ih]

/-- Saving keeps the files and the shapes of their images, also when it fails. -/
theorem saveFiles_sameFiles (files : List CarrierFile) (directory : Directory) :
    (saveFiles env storages files directory).1.2.SameFiles directory := by
  induction files generalizing directory with
  | nil => exact .refl directory
  | cons file rest ih =>
    simp only [saveFiles]
    rcases opened : directory.image file.file with failure | image
    · exact ih directory
    · simp only
      rcases saved : (file.saveFile env image ((file.virtualStorage.bind (storages[·]?)).getD {})).2 with failure | image'
      · exact ih directory
      · exact (ih _).trans (.write opened (CarrierFile.saveFile_shape saved))

end CarrierFilesManager
end StegoDisk
