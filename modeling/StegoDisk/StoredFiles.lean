import StegoDisk.BitmapFiles
import StegoDisk.TrailingBytes

/-!
The files as they lie in a directory. A bitmap is the bytes of its file: `Open` makes an object of its header, and
`LoadFile` and `SaveFile` go to the place that this object has kept. A PNG or a JPEG file is what its library decodes it
to. Where the bitmaps are safe, the carriers see images with something behind the pixels, and what they write there
changes no other byte.
-/
namespace StegoDisk

/-! ### Bitmaps -/

namespace CarrierFileBMP

variable {bmp : CarrierFileBMP} {file : File} {bytes painted : List UInt8}

/-- As many pixels as the header says, also where the file has fewer. -/
def pixels (bmp : CarrierFileBMP) (bytes : List UInt8) : List UInt8 :=
  List.takeD (8 * bmp.rawCapacity) (bytes.drop bmp.bmpOffset) 0

/-- The bytes behind the pixels. -/
def behind (bmp : CarrierFileBMP) (bytes : List UInt8) : List UInt8 := bytes.drop (bmp.bmpOffset + 8 * bmp.rawCapacity)

theorem image_eq (safe : Safe file bmp bytes) : bmp.image bytes = .bmp (bmp.pixels bytes ++ bmp.behind bytes) := by
  have split_ : (bytes.drop bmp.bmpOffset).take (8 * bmp.rawCapacity) = bmp.pixels bytes := by
    rcases safe.room with empty | ⟨_,room⟩
    · rw [pixels,empty,List.takeD_zero,List.take_zero]
    · rw [pixels,List.takeD_eq_take _ (by rw [List.length_drop]; omega)]
  rw [image,behind,← List.drop_drop,← split_,List.take_append_drop]

theorem pixels_length : (bmp.pixels bytes).length = 8 * bmp.rawCapacity := List.takeD_length _ _ _

/-- The file with other pixels. -/
def repainted (bmp : CarrierFileBMP) (bytes painted : List UInt8) : List UInt8 :=
  bytes.take bmp.bmpOffset ++ (painted ++ bmp.behind bytes)

theorem repainted_length (safe : Safe file bmp bytes) (length : painted.length = 8 * bmp.rawCapacity) :
    (bmp.repainted bytes painted).length = bytes.length := by
  simp only [repainted,behind,List.length_append,List.length_take,List.length_drop,length]
  rcases safe.room with empty | ⟨_,room⟩ <;> omega

/-- Nothing but the pixels has changed. -/
theorem repainted_outside (safe : Safe file bmp bytes) (length : painted.length = 8 * bmp.rawCapacity) {i : Nat}
    (outside : ¬ (bmp.bmpOffset ≤ i ∧ i < bmp.bmpOffset + 8 * bmp.rawCapacity)) :
    (bmp.repainted bytes painted)[i]? = bytes[i]? := by
  simp only [repainted,behind,List.getElem?_append,List.getElem?_take,List.getElem?_drop,List.length_take,length]
  by_cases before : i < min bmp.bmpOffset bytes.length
  · rw [if_pos before,if_pos (by omega)]
  rw [if_neg before]
  by_cases short : bytes.length ≤ i
  · rw [if_neg (by rcases safe.room with empty | ⟨_,room⟩ <;> omega),List.getElem?_eq_none (by omega),
      List.getElem?_eq_none short]
  · rw [if_neg (by omega)]
    congr 1
    omega

/-- The constructor finds in it what it has found before. -/
theorem repainted_create (safe : Safe file bmp bytes) (length : painted.length = 8 * bmp.rawCapacity) :
    create file (bmp.repainted bytes painted) = create file bytes := by
  refine create_congr ?_ (repainted_length safe length) file
  apply List.ext_getElem?
  intro i
  rw [List.getElem?_take,List.getElem?_take]
  split
  · refine repainted_outside safe length fun inside => ?_
    have header := (safe.inside i inside.1 inside.2).1
    omega
  · rfl

theorem repainted_drop (safe : Safe file bmp bytes) (length : painted.length = 8 * bmp.rawCapacity) (n : Nat) :
    (bmp.repainted bytes painted).drop (bmp.bmpOffset + n) = (painted ++ bmp.behind bytes).drop n := by
  rcases safe.room with empty | ⟨_,room⟩
  · obtain rfl : painted = [] := List.eq_nil_of_length_eq_zero (by omega)
    simp only [repainted,behind,empty,Nat.mul_zero,Nat.add_zero,List.nil_append,List.take_append_drop,List.drop_drop]
  · have front : (bytes.take bmp.bmpOffset).length = bmp.bmpOffset := List.length_take_of_le (by omega)
    rw [repainted,← List.drop_drop,List.drop_left' front]

/-! ### Carriers -/

variable {env : Environment} {carrier : CarrierFile} {s : VirtualStorage}

theorem pixels_fits (created : create file bytes = .ok bmp) (raw : carrier.rawCapacity = bmp.rawCapacity) :
    carrier.Fits (.bmp (bmp.pixels bytes)) := by
  rintro _ ⟨⟩
  have small := small_of_created created
  rw [pixels_length,raw,word64_of_lt (by omega),Nat.mul_comm]

/-- `LoadFile` of a safe file is that of its pixels. -/
theorem loadFile_pixels (created : create file bytes = .ok bmp) (safe : Safe file bmp bytes)
    (raw : carrier.rawCapacity = bmp.rawCapacity) :
    carrier.loadFile env (bmp.image bytes) s = carrier.loadFile env (.bmp (bmp.pixels bytes)) s := by
  rw [image_eq safe]
  exact CarrierFile.loadFile_extend (pixels_fits created raw) (bmp.behind bytes)

/-- `SaveFile` puts the pixels that it makes in the place of those of the file. -/
theorem saveFile_pixels (created : create file bytes = .ok bmp) (safe : Safe file bmp bytes)
    (raw : carrier.rawCapacity = bmp.rawCapacity) :
    saveFile env bmp carrier bytes s = ((carrier.saveFile env (.bmp (bmp.pixels bytes)) s).1,
      (carrier.saveFile env (.bmp (bmp.pixels bytes)) s).2.map fun image => bmp.repainted bytes image.pixels) := by
  have extended := @CarrierFile.saveFile_extend env carrier _ s (pixels_fits created raw) (bmp.behind bytes)
  rw [saveFile,image_eq safe]
  rw [Image.extend] at extended
  rw [extended]
  rcases saved : carrier.saveFile env (.bmp (bmp.pixels bytes)) s with ⟨carrier',failure | image⟩
  · rfl
  obtain ⟨format,_⟩ := CarrierFile.saveFile_shape (congrArg Prod.snd saved)
  cases image with
  | bmp painted => rfl
  | png painted => cases format
  | jpeg blocks => cases format

end CarrierFileBMP

/-! ### Files -/

/-- What lies in a file: the bytes of a bitmap, and what the libraries decode the others to. -/
inductive Stored
  | bmp (bytes : List UInt8)
  | png (decoded : Except Exception (List UInt8))
  | jpg (decoded : Except Exception (List JpegBlock))

namespace Stored

def format : Stored → Format
  | .bmp _ => .bmp
  | .png _ => .png
  | .jpg _ => .jpg

/-- The object that the constructor makes of a bitmap, if it accepts it. -/
def header (file : File) : Stored → Option CarrierFileBMP
  | .bmp bytes => (CarrierFileBMP.create file bytes).toOption
  | _ => none

/-- What the constructors find. -/
def content (file : File) : Stored → Content
  | .bmp bytes =>
    match CarrierFileBMP.create file bytes with
    | .ok object => .ok (.bmp (object.pixels bytes))
    | .error (.thrown e) => .error e
    -- it fails in no other way
    | .error _ => .error (.ioError file.fileName)
  | .png decoded => decoded.map .png
  | .jpg decoded => decoded.map .jpeg

/-- What `LoadFile` and `SaveFile` find, with the object that the carrier has kept. -/
def seen (file : File) (kept : Option CarrierFileBMP) (stored : Stored) : Content :=
  match kept,stored with
  | some object,.bmp bytes => .ok (object.image bytes)
  | _,stored => stored.content file

/-- The file after an image was written to it, if one was. -/
def written (kept : Option CarrierFileBMP) (image : Except Failure Image) (stored : Stored) : Stored :=
  match stored,kept,image with
  | .bmp bytes,some object,.ok (.bmp pixels) => .bmp (bytes.take object.bmpOffset ++ pixels)
  | .png _,_,.ok (.png pixels) => .png (.ok pixels)
  | .jpg _,_,.ok (.jpeg blocks) => .jpg (.ok blocks)
  | stored,_,_ => stored

/-- A bitmap that is accepted is safe. -/
def Safe (file : File) : Stored → Prop
  | .bmp bytes => ∀ object, CarrierFileBMP.create file bytes = .ok object → CarrierFileBMP.Safe file object bytes
  | _ => True

/-- What a bitmap that is accepted has behind its pixels. -/
def rest (file : File) (stored : Stored) : List UInt8 :=
  match stored.header file,stored with
  | some object,.bmp bytes => object.behind bytes
  | _,_ => []

/-- A file later: a bitmap is as long as before and accepted or rejected as before, and outside its pixels, or everywhere
    if it is rejected, it has the same bytes. -/
inductive Keeps (file : File) : Stored → Stored → Prop
  | bmp {bytes bytes' : List UInt8} (length : bytes'.length = bytes.length)
      (accepted : CarrierFileBMP.create file bytes' = CarrierFileBMP.create file bytes)
      (same : ∀ i, (∀ object, CarrierFileBMP.create file bytes = .ok object →
        ¬ (object.bmpOffset ≤ i ∧ i < object.bmpOffset + 8 * object.rawCapacity)) → bytes'[i]? = bytes[i]?) :
      Keeps file (.bmp bytes) (.bmp bytes')
  | png (decoded decoded' : Except Exception (List UInt8)) : Keeps file (.png decoded) (.png decoded')
  | jpg (decoded decoded' : Except Exception (List JpegBlock)) : Keeps file (.jpg decoded) (.jpg decoded')

variable {file : File} {stored stored' stored'' : Stored} {image image' : Image}

theorem written_format (kept : Option CarrierFileBMP) (image : Except Failure Image) (stored : Stored) :
    (stored.written kept image).format = stored.format := by
  unfold written
  split <;> rfl

theorem written_error (kept : Option CarrierFileBMP) (failure : Failure) (stored : Stored) :
    stored.written kept (.error failure) = stored := by
  cases stored <;> cases kept <;> rfl

theorem Keeps.refl (file : File) (stored : Stored) : stored.Keeps file stored := by
  cases stored with
  | bmp bytes => exact .bmp rfl rfl fun _ _ => rfl
  | png decoded => exact .png decoded decoded
  | jpg decoded => exact .jpg decoded decoded

theorem Keeps.trans (first : stored.Keeps file stored') (second : stored'.Keeps file stored'') : stored.Keeps file stored'' := by
  cases first with
  | bmp length accepted same =>
    cases second with
    | bmp length' accepted' same' =>
      refine .bmp (length'.trans length) (accepted'.trans accepted) fun i outside => ?_
      exact (same' i (accepted ▸ outside)).trans (same i outside)
  | png decoded decoded' =>
    cases second with
    | png _ decoded'' => exact .png decoded decoded''
  | jpg decoded decoded' =>
    cases second with
    | jpg _ decoded'' => exact .jpg decoded decoded''

/-- The carriers see what the constructors find, with something behind the pixels of the bitmaps. -/
theorem seen_eq (safe : stored.Safe file) :
    stored.seen file (stored.header file) = (stored.content file).map (Image.extend (stored.rest file)) := by
  cases stored with
  | bmp bytes =>
    rcases created : CarrierFileBMP.create file bytes with failure | object
    · simp only [seen,header,content,created,Except.toOption]
      cases failure <;> rfl
    · have parts := CarrierFileBMP.image_eq (safe object created)
      simp only [seen,header,content,rest,created,Except.toOption,Except.map,Image.extend,parts]
  | png decoded => cases decoded <;> rfl
  | jpg decoded => cases decoded <;> rfl

/-- The constructors find what was written. -/
structure Holds (file : File) (stored stored' : Stored) (content : Content) : Prop where
  content : stored'.content file = content
  header : stored'.header file = stored.header file
  rest : stored'.rest file = stored.rest file
  safe : stored'.Safe file
  keeps : stored.Keeps file stored'

theorem Holds.unchanged (safe : stored.Safe file) : stored.Holds file stored (stored.content file) :=
  ⟨rfl,rfl,rfl,safe,.refl file stored⟩

theorem written_holds (safe : stored.Safe file) (found : stored.content file = .ok image) (shape : image'.SameShape image) :
    stored.Holds file (stored.written (stored.header file) (.ok (image'.extend (stored.rest file)))) (.ok image') := by
  obtain ⟨format,bits⟩ := shape
  cases stored with
  | bmp bytes =>
    rcases created : CarrierFileBMP.create file bytes with failure | object
    · cases failure <;> simp [content,created] at found
    obtain rfl : Image.bmp (object.pixels bytes) = image := by simpa only [content,created,Except.ok.injEq] using found
    cases image' with
    | bmp painted =>
      have length : painted.length = 8 * object.rawCapacity := by
        simpa only [Image.bits,List.length_map,CarrierFileBMP.pixels_length] using bits
      have safe' := safe object created
      have again := (CarrierFileBMP.repainted_create safe' length).trans created
      have front := CarrierFileBMP.repainted_drop safe' length 0
      have back := CarrierFileBMP.repainted_drop safe' length (8 * object.rawCapacity)
      rw [Nat.add_zero,List.drop_zero] at front
      rw [List.drop_left' length] at back
      have result : written ((Stored.bmp bytes).header file) (.ok ((Image.bmp painted).extend ((Stored.bmp bytes).rest file)))
          (.bmp bytes) = .bmp (object.repainted bytes painted) := by
        simp only [written,header,rest,created,Except.toOption,Image.extend,CarrierFileBMP.repainted]
      rw [result]
      refine ⟨?_,?_,?_,?_,.bmp (CarrierFileBMP.repainted_length safe' length) (again.trans created.symm) ?_⟩
      · simp only [content,again,CarrierFileBMP.pixels,front,List.takeD_left' length]
      · simp only [header,again,created]
      · simp only [rest,header,again,created,Except.toOption,CarrierFileBMP.behind] at back ⊢
        exact back
      · intro object' accepted
        obtain rfl := Except.ok.inj (again.symm.trans accepted)
        refine CarrierFileBMP.safe_of_room again ?_
        rw [CarrierFileBMP.repainted_length safe' length]
        exact safe'.room
      · exact fun i outside => CarrierFileBMP.repainted_outside safe' length (outside object created)
    | png painted => cases format
    | jpeg blocks => cases format
  | png decoded =>
    cases decoded with
    | error e => cases found
    | ok pixels =>
      obtain rfl := Except.ok.inj found
      cases image' with
      | bmp painted => cases format
      | png painted => exact ⟨rfl,rfl,rfl,trivial,.png _ _⟩
      | jpeg blocks => cases format
  | jpg decoded =>
    cases decoded with
    | error e => cases found
    | ok blocks =>
      obtain rfl := Except.ok.inj found
      cases image' with
      | bmp painted => cases format
      | png painted => cases format
      | jpeg blocks' => exact ⟨rfl,rfl,rfl,trivial,.jpg _ _⟩

end Stored

/-! ### Folders -/

theorem Directory.image_of_mem {directory : Directory} {file : File} {content : Content}
    (member : (file,content) ∈ directory.entries) : directory.image file = content.mapError .thrown := by
  rw [image,Loops.find?_of_mem directory.distinct member]
  cases content <;> rfl

/-- The carrier files of a directory, each with the extension of its format. -/
structure Folder where
  entries : List (File × Stored)
  distinct : (entries.map Prod.fst).Nodup
  named : ∀ entry ∈ entries, entry.1.extension = entry.2.format.extension

namespace Folder

/-- What lies in a file. -/
def stored (folder : Folder) (file : File) : Option Stored :=
  (folder.entries.find? fun entry => entry.1 = file).map Prod.snd

/-- The objects that the constructors make of the bitmaps. -/
def headers (folder : Folder) (file : File) : Option CarrierFileBMP := (folder.stored file).bind (Stored.header file)

/-- What the constructors find. -/
def images (folder : Folder) : Directory where
  entries := folder.entries.map fun entry => (entry.1,entry.2.content entry.1)
  distinct := by
    rw [List.map_map]
    exact folder.distinct

/-- What carriers find that have kept some objects. -/
def seen (folder : Folder) (kept : File → Option CarrierFileBMP) : Directory where
  entries := folder.entries.map fun entry => (entry.1,entry.2.seen entry.1 (kept entry.1))
  distinct := by
    rw [List.map_map]
    exact folder.distinct

/-- The files after these carriers have written to some of them. -/
def written (folder : Folder) (kept : File → Option CarrierFileBMP) (directory : Directory) : Folder where
  entries := folder.entries.map fun entry => (entry.1,entry.2.written (kept entry.1) (directory.image entry.1))
  distinct := by
    rw [List.map_map]
    exact folder.distinct
  named := by
    intro entry member
    obtain ⟨entry,there,rfl⟩ := List.mem_map.mp member
    exact (folder.named entry there).trans (congrArg Format.extension (Stored.written_format _ _ entry.2).symm)

/-- Every bitmap that is accepted is safe. -/
def Safe (folder : Folder) : Prop := ∀ entry ∈ folder.entries, entry.2.Safe entry.1

/-- What the bitmaps have behind their pixels. -/
def rest (folder : Folder) (file : File) : List UInt8 := ((folder.stored file).map (Stored.rest file)).getD []

/-- The same files later. -/
def Keeps (folder folder' : Folder) : Prop :=
  List.Forall₂ (fun entry entry' => entry.1 = entry'.1 ∧ entry.2.Keeps entry.1 entry'.2) folder.entries folder'.entries

variable {folder : Folder} {directory : Directory} {file : File} {stored : Stored}

theorem stored_of_mem (member : (file,stored) ∈ folder.entries) : folder.stored file = some stored := by
  rw [Folder.stored,Loops.find?_of_mem folder.distinct member,Option.map_some]

theorem mem_of_stored (there : folder.stored file = some stored) : (file,stored) ∈ folder.entries := by
  obtain ⟨entry,found,rfl⟩ := Option.map_eq_some_iff.mp there
  have name : entry.1 = file := by simpa using List.find?_some found
  rw [← name]
  exact List.mem_of_find?_eq_some found

theorem stored_eq_none : folder.stored file = none ↔ ∀ entry ∈ folder.entries, entry.1 ≠ file := by
  rw [Folder.stored,Option.map_eq_none_iff,List.find?_eq_none]
  simp only [decide_eq_true_eq,ne_eq]

theorem written_stored {kept : File → Option CarrierFileBMP} : (folder.written kept directory).stored file =
    (folder.stored file).map fun stored => stored.written (kept file) (directory.image file) := by
  cases there : folder.stored file with
  | none =>
    rw [Option.map_none,stored_eq_none]
    rintro entry member
    obtain ⟨entry,before,rfl⟩ := List.mem_map.mp member
    exact stored_eq_none.mp there entry before
  | some stored => exact stored_of_mem (List.mem_map.mpr ⟨_,mem_of_stored there,rfl⟩)

theorem headers_of_mem (member : (file,stored) ∈ folder.entries) : folder.headers file = stored.header file := by
  rw [headers,stored_of_mem member,Option.bind_some]

theorem rest_of_mem (member : (file,stored) ∈ folder.entries) : folder.rest file = stored.rest file := by
  rw [rest,stored_of_mem member,Option.map_some,Option.getD_some]

/-- What the carriers see. -/
theorem seen_headers (safe : folder.Safe) : folder.seen folder.headers = folder.images.extend folder.rest := by
  simp only [seen,images,Directory.extend,List.map_map,Directory.mk.injEq]
  refine List.map_congr_left fun entry member => ?_
  simp only [Function.comp_apply,headers_of_mem member,rest_of_mem member,Stored.seen_eq (safe entry member)]

theorem images_whole (folder : Folder) : folder.images.Whole := by
  intro file pixels found
  obtain ⟨⟨name,stored⟩,member,same⟩ := List.mem_map.mp (Directory.image_eq_ok.mp found)
  obtain ⟨rfl,content⟩ := Prod.mk.inj same
  cases stored with
  | bmp bytes =>
    rcases created : CarrierFileBMP.create name bytes with failure | object
    · cases failure <;> simp [Stored.content,created] at content
    · have small := CarrierFileBMP.small_of_created created
      obtain rfl : object.pixels bytes = pixels := by simpa [Stored.content,created] using content
      rw [CarrierFileBMP.pixels_length]
      exact ⟨Nat.dvd_mul_right 8 _,by omega⟩
  | png decoded => cases decoded <;> cases content
  | jpg decoded => cases decoded <;> cases content

/-- What a file holds after images of the same shape were written. -/
theorem written_holds (safe : folder.Safe) {images' : Directory} (same : images'.SameFiles folder.images)
    {content' : Content} (member : (file,stored) ∈ folder.entries) (found : (file,content') ∈ images'.entries) :
    stored.Holds file (stored.written (folder.headers file) ((images'.extend folder.rest).image file)) content' := by
  have safe' := safe _ member
  have there : (file,stored.content file) ∈ folder.images.entries := List.mem_map.mpr ⟨_,member,rfl⟩
  rw [Directory.image_extend,Directory.image_of_mem found,headers_of_mem member,rest_of_mem member]
  obtain ⟨k,here⟩ := List.mem_iff_getElem?.mp found
  obtain ⟨entry,there',alike⟩ := Loops.forall₂_left same here
  have unique : entry = (file,stored.content file) :=
    List.inj_on_of_nodup_map folder.images.distinct (List.mem_of_getElem? there') there alike.name.symm
  rw [unique] at alike
  generalize before : stored.content file = content at alike
  cases alike with
  | rejected _ failure =>
    have holds := Stored.Holds.unchanged safe'
    rw [before] at holds
    simp only [Except.mapError,Except.map,Stored.written_error]
    exact holds
  | accepted _ shape => exact Stored.written_holds safe' before shape

theorem Keeps.refl (folder : Folder) : folder.Keeps folder :=
  List.forall₂_same.mpr fun entry _ => ⟨rfl,.refl entry.1 entry.2⟩

theorem Keeps.trans {folder' folder'' : Folder} (first : folder.Keeps folder') (second : folder'.Keeps folder'') :
    folder.Keeps folder'' := by
  obtain ⟨length,each⟩ := List.forall₂_iff_get.mp first
  obtain ⟨length',each'⟩ := List.forall₂_iff_get.mp second
  refine List.forall₂_iff_get.mpr ⟨length.trans length',fun i here there => ?_⟩
  obtain ⟨name,keeps⟩ := each i here (by omega)
  obtain ⟨name',keeps'⟩ := each' i (by omega) there
  exact ⟨name.trans name',keeps.trans (name ▸ keeps')⟩

/-- The same files, in which the constructors find other images. -/
structure Follows (folder folder' : Folder) (images : Directory) : Prop where
  images : folder'.images = images
  headers : folder'.headers = folder.headers
  rest : folder'.rest = folder.rest
  safe : folder'.Safe
  keeps : folder.Keeps folder'

/-- What carriers write to images of a folder with safe bitmaps is what is found in it. -/
theorem written_follows (safe : folder.Safe) {images' : Directory} (same : images'.SameFiles folder.images) :
    folder.Follows (folder.written folder.headers (images'.extend folder.rest)) images' := by
  -- every file holds what the image of its name says
  have each : ∀ file stored, (file,stored) ∈ folder.entries → ∃ content', (file,content') ∈ images'.entries ∧
      stored.Holds file (stored.written (folder.headers file) ((images'.extend folder.rest).image file)) content' := by
    intro file stored member
    have there : (file,stored.content file) ∈ folder.images.entries := List.mem_map.mpr ⟨_,member,rfl⟩
    obtain ⟨k,here⟩ := List.mem_iff_getElem?.mp there
    obtain ⟨⟨name,content'⟩,found,alike⟩ := Loops.forall₂_right same here
    obtain rfl : name = file := alike.name
    exact ⟨content',List.mem_of_getElem? found,written_holds safe same member (List.mem_of_getElem? found)⟩
  refine ⟨?_,?_,?_,?_,?_⟩
  · obtain ⟨entries,distinct⟩ := images'
    simp only [Folder.images,written,List.map_map,Directory.mk.injEq]
    refine Loops.map_of_forall₂ (List.forall₂_map_right_iff.mp same) ?_
    rintro ⟨name,content'⟩ ⟨file,stored⟩ member found alike
    obtain rfl : name = file := alike.name
    rw [Function.comp_apply,(written_holds safe same member found).content]
  · funext file
    rw [headers,headers,written_stored]
    cases there : folder.stored file with
    | none => rfl
    | some stored =>
      obtain ⟨_,_,holds⟩ := each file stored (mem_of_stored there)
      exact holds.header
  · funext file
    rw [rest,rest,written_stored]
    cases there : folder.stored file with
    | none => rfl
    | some stored =>
      obtain ⟨_,_,holds⟩ := each file stored (mem_of_stored there)
      exact holds.rest
  · intro entry member
    obtain ⟨⟨file,stored⟩,before,rfl⟩ := List.mem_map.mp member
    obtain ⟨_,_,holds⟩ := each file stored before
    exact holds.safe
  · unfold Keeps written
    rw [List.forall₂_map_right_iff,List.forall₂_same]
    rintro ⟨file,stored⟩ member
    obtain ⟨_,_,holds⟩ := each file stored member
    exact ⟨rfl,holds.keeps⟩

end Folder
end StegoDisk
