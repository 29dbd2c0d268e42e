import StegoDisk.Directories
import StegoDisk.Distortion

/-!
The bytes of a bitmap file. The constructor takes the size of the file, the place of the pixels and the size of the
picture from the header and checks the first and the last against the file, as if the pixels came right after the 54
bytes of the header; where they begin is not checked.
-/
namespace StegoDisk
open Bits

/-- `CarrierFileBMP`, as far as its constructor goes. -/
structure CarrierFileBMP where
  bmpOffset : Nat
  bmpSize : Nat
  rawCapacity : Nat
  width : Nat
  height : Nat
  isGrayscale : Bool
  deriving DecidableEq

namespace CarrierFileBMP

/-- The little-endian number in `width` bytes of the header. -/
def field (bytes : List UInt8) (start width : Nat) : Nat :=
  ((bytes.drop start).take width).foldr (fun byte rest => byte.toNat + 256 * rest) 0

/-- `abs` of a signed 32-bit number, as an unsigned one. -/
def magnitude (n : Nat) : Nat := if n < 2 ^ 31 then n else 2 ^ 32 - n

/-- The size of the picture: rows of whole 32-bit words, computed in 32 bits. -/
def pictureSize (bytes : List UInt8) : Nat :=
  word32 (word32 (field bytes 28 2 * magnitude (field bytes 18 4) + 31) / 32 * 4 * magnitude (field bytes 22 4))

/-- `CarrierFileBMP::CarrierFileBMP` on the bytes of the file. -/
def create (file : File) (bytes : List UInt8) : Except Failure CarrierFileBMP :=
  if bytes.length < 54 then .error (.thrown (.parseError file.fileName "Wrong header size"))
  else if field bytes 2 4 ≠ bytes.length then .error (.thrown (.parseError file.fileName "Wrong size of file"))
  else if field bytes 30 4 ≠ 0 then
    .error (.thrown (.parseError file.fileName "BMP file uses unsupported file compression"))
  else if pictureSize bytes + 54 > field bytes 2 4 then .error (.thrown (.ioError file.fileName))
  else .ok { bmpOffset := field bytes 10 4, bmpSize := pictureSize bytes, rawCapacity := pictureSize bytes / 8,
             width := magnitude (field bytes 18 4), height := magnitude (field bytes 22 4),
             isGrayscale := field bytes 28 2 = 8 }

/-- What lies from `bmp_offset_` on, of which `LoadFile` and `SaveFile` read 8 bytes for each byte of capacity. -/
def image (bmp : CarrierFileBMP) (bytes : List UInt8) : Image := .bmp (bytes.drop bmp.bmpOffset)

/-- `CarrierFileBMP::SaveFile` on the bytes of the file. -/
def saveFile (env : Environment) (bmp : CarrierFileBMP) (file : CarrierFile) (bytes : List UInt8) (s : VirtualStorage) :
    CarrierFile × Except Failure (List UInt8) :=
  match file.saveFile env (bmp.image bytes) s with
  | (file,.error failure) => (file,.error failure)
  | (file,.ok image) => (file,.ok (bytes.take bmp.bmpOffset ++ image.pixels))

/-- A file that is safe to load and to save. -/
structure Safe (file : File) (bmp : CarrierFileBMP) (bytes : List UInt8) : Prop where
  /-- The pixels lie in the file, behind its header. -/
  inside : ∀ i, bmp.bmpOffset ≤ i → i < bmp.bmpOffset + 8 * bmp.rawCapacity → 54 ≤ i ∧ i < bytes.length
  /-- They can be read. -/
  loads : ∀ carrier : CarrierFile, carrier.rawCapacity = bmp.rawCapacity → carrier.openImage (bmp.image bytes) = .ok ()
  /-- The file that is written has the header that was read, and is accepted with it. -/
  saves : ∀ env (carrier carrier' : CarrierFile) s bytes', carrier.rawCapacity = bmp.rawCapacity →
    saveFile env bmp carrier bytes s = (carrier',.ok bytes') → bytes'.take 54 = bytes.take 54 ∧ create file bytes' = .ok bmp

variable {bmp : CarrierFileBMP} {bytes bytes' : List UInt8}

theorem create_inv {file : File} (created : create file bytes = .ok bmp) : 54 ≤ bytes.length ∧
    pictureSize bytes + 54 ≤ bytes.length ∧ bmp.bmpOffset = field bytes 10 4 ∧ bmp.rawCapacity = pictureSize bytes / 8 := by
  unfold create at created
  split at created
  · cases created
  split at created
  · cases created
  split at created
  · cases created
  split at created
  · cases created
  · obtain rfl := Except.ok.inj created
    exact ⟨by omega,by omega,rfl,rfl⟩

/-- The constructor reads the header and the size of the file alone. -/
theorem field_congr (header : bytes'.take 54 = bytes.take 54) {start width : Nat} (inside : start + width ≤ 54) :
    field bytes' start width = field bytes start width := by
  have slice : ∀ bytes : List UInt8, (bytes.drop start).take width = ((bytes.take 54).drop start).take width := by
    intro bytes
    rw [List.drop_take,List.take_take,Nat.min_eq_left (by omega)]
  rw [field,field,slice,header,← slice]

theorem create_congr (header : bytes'.take 54 = bytes.take 54) (length : bytes'.length = bytes.length) (file : File) :
    create file bytes' = create file bytes := by
  have same : pictureSize bytes' = pictureSize bytes := by simp (disch := decide) only [pictureSize,field_congr header]
  simp (disch := decide) only [create,same,length,field_congr header]

/-- `SaveFile` writes to the pixels that it has read, and nowhere else. -/
theorem saveFile_frame {env : Environment} {file file' : CarrierFile} {s : VirtualStorage} (small : bmp.rawCapacity * 8 < 2 ^ 64)
    (raw : file.rawCapacity = bmp.rawCapacity) (saved : saveFile env bmp file bytes s = (file',.ok bytes')) :
    bytes'.length = bytes.length ∧
      ∀ i, ¬ (bmp.bmpOffset ≤ i ∧ i < bmp.bmpOffset + 8 * bmp.rawCapacity) → bytes'[i]? = bytes[i]? := by
  unfold saveFile at saved
  rcases ran : file.saveFile env (bmp.image bytes) s with ⟨ready,failure | image'⟩
  · simp [ran] at saved
  rw [ran] at saved
  obtain ⟨rfl,written⟩ := Prod.mk.inj saved
  obtain ⟨q,buffer,after,same,_,_,packed⟩ := CarrierFile.saveFile_inv ran
  obtain ⟨bitmap,scattered,last⟩ := bind_eq_ok.mp packed
  obtain rfl := Except.ok.inj last
  obtain rfl := Except.ok.inj written
  have raw' : ready.rawCapacity = bmp.rawCapacity := by
    rw [same]
    exact raw
  have width : word64 (ready.rawCapacity * 8) = bmp.rawCapacity * 8 := by
    rw [raw']
    exact word64_of_lt small
  have length := CarrierFile.scatter_length scattered
  rw [width] at length ⊢
  simp only [List.length_take,List.length_drop] at length
  simp only [Image.pixels]
  constructor
  · simp only [List.length_append,List.length_take,List.length_drop,length]
    omega
  · intro i outside
    simp only [List.getElem?_append,List.getElem?_take,List.getElem?_drop,List.length_take,length]
    by_cases before : i < min bmp.bmpOffset bytes.length
    · rw [if_pos before,if_pos (by omega)]
    · rw [if_neg before]
      by_cases short : bytes.length ≤ i
      · rw [if_neg (by omega),List.getElem?_eq_none (by omega),List.getElem?_eq_none short]
      · rw [if_neg (by omega)]
        congr 1
        omega

/-- The pixels of a safe file have room behind its header. -/
theorem Safe.room {file : File} (safe : Safe file bmp bytes) :
    bmp.rawCapacity = 0 ∨ 54 ≤ bmp.bmpOffset ∧ bmp.bmpOffset + 8 * bmp.rawCapacity ≤ bytes.length := by
  by_cases none_ : bmp.rawCapacity = 0
  · exact .inl none_
  · have first := safe.inside bmp.bmpOffset le_rfl (by omega)
    have last := safe.inside (bmp.bmpOffset + 8 * bmp.rawCapacity - 1) (by omega) (by omega)
    exact .inr ⟨first.1,by omega⟩

theorem small_of_created {file : File} (created : create file bytes = .ok bmp) : bmp.rawCapacity * 8 < 2 ^ 32 := by
  obtain ⟨_,_,_,capacity⟩ := create_inv created
  have narrow : pictureSize bytes < 2 ^ 32 := word32_lt _
  omega

theorem safe_of_room {file : File} (created : create file bytes = .ok bmp)
    (room : bmp.rawCapacity = 0 ∨ 54 ≤ bmp.bmpOffset ∧ bmp.bmpOffset + 8 * bmp.rawCapacity ≤ bytes.length) :
    Safe file bmp bytes := by
  have narrow := small_of_created created
  have inside : ∀ i, bmp.bmpOffset ≤ i → i < bmp.bmpOffset + 8 * bmp.rawCapacity → 54 ≤ i ∧ i < bytes.length := by
    intro i low high
    omega
  refine ⟨inside,?_,?_⟩
  · intro carrier raw
    have width : word64 (carrier.rawCapacity * 8) = bmp.rawCapacity * 8 := by
      rw [raw]
      exact word64_of_lt (by omega)
    have enough : min (bytes.drop bmp.bmpOffset).length (bmp.rawCapacity * 8) = bmp.rawCapacity * 8 := by
      rw [List.length_drop]
      omega
    rw [image,CarrierFile.openImage,width,enough,if_neg (by simp only [addressSpace]; omega),word32_of_lt (by omega),
      if_neg (fun differ => differ rfl)]
  · intro env carrier carrier' s bytes' raw saved
    obtain ⟨length,kept⟩ := saveFile_frame (by omega) raw saved
    have header : bytes'.take 54 = bytes.take 54 := by
      apply List.ext_getElem?
      intro i
      rw [List.getElem?_take,List.getElem?_take]
      split
      · rename_i low
        exact kept i fun range => by have := (inside i range.1 range.2).1; omega
      · rfl
    exact ⟨header,(create_congr header length file).trans created⟩

/-- A file that is accepted is safe exactly when its picture has no byte of capacity, or the place of the pixels in the
    header is behind the header and leaves room for them. -/
theorem safe_iff (file : File) (bytes : List UInt8) (bmp : CarrierFileBMP) (created : create file bytes = .ok bmp) :
    Safe file bmp bytes ↔ pictureSize bytes < 8 ∨
      54 ≤ field bytes 10 4 ∧ field bytes 10 4 + 8 * (pictureSize bytes / 8) ≤ bytes.length := by
  obtain ⟨_,_,place,capacity⟩ := create_inv created
  have empty : bmp.rawCapacity = 0 ↔ pictureSize bytes < 8 := by
    rw [capacity]
    omega
  rw [← place,← capacity,← empty]
  exact ⟨Safe.room,safe_of_room created⟩

/-- A picture of eight pixels in one row, of 8 bits each, whose header puts them at `offset`. -/
def rowOfEight (offset : UInt8) : List UInt8 :=
  [66,77,62,0,0,0,0,0,0,0,offset,0,0,0] ++ [40,0,0,0,8,0,0,0,1,0,0,0,1,0,8,0] ++ List.replicate 24 0 ++ List.replicate 8 0

/-- What the constructor finds in it. -/
def rowHeader (offset : Nat) : CarrierFileBMP := ⟨offset,8,1,8,1,true⟩

/-- Its carrier, loaded, with one block of one byte. -/
def rowCarrier : CarrierFile where
  file := ⟨[],[97,46,98,109,112]⟩
  rawCapacity := 1
  permutation := .identity { size := 8, initialized := true }
  encoder := some (.lsb .default)
  codewordBlockSize := 1
  dataBlockSize := 1
  blocksUsed := 1
  fileLoaded := true

theorem safe_row : Safe ⟨[],[97,46,98,109,112]⟩ (rowHeader 54) (rowOfEight 54) :=
  (safe_iff ⟨[],[97,46,98,109,112]⟩ (rowOfEight 54) (rowHeader 54) (by decide +kernel)).mpr (by decide +kernel)

/-- With pixels at 0, saving makes the size of the file odd, and the file is not accepted any more; with pixels behind its
    end it cannot be loaded. -/
theorem not_safe_row : create ⟨[],[97,46,98,109,112]⟩ (rowOfEight 0) = .ok (rowHeader 0) ∧ ¬ Safe ⟨[],[97,46,98,109,112]⟩ (rowHeader 0) (rowOfEight 0) ∧
    (∃ saved, (saveFile Permutation.twoPrimes (rowHeader 0) rowCarrier (rowOfEight 0) CarrierFile.ones).2 = .ok saved ∧
      create ⟨[],[97,46,98,109,112]⟩ saved = .error (.thrown (.parseError "a.bmp" "Wrong size of file"))) ∧
    create ⟨[],[97,46,98,109,112]⟩ (rowOfEight 99) = .ok (rowHeader 99) ∧
    rowCarrier.openImage ((rowHeader 99).image (rowOfEight 99)) = .error (.thrown (.ioError "a.bmp")) := by
  have ran : create ⟨[],[97,46,98,109,112]⟩ (rowOfEight 0) = .ok (rowHeader 0) ∧
      ((saveFile Permutation.twoPrimes (rowHeader 0) rowCarrier (rowOfEight 0) CarrierFile.ones).2.bind fun saved =>
        create ⟨[],[97,46,98,109,112]⟩ saved) = .error (.thrown (.parseError "a.bmp" "Wrong size of file")) ∧
      create ⟨[],[97,46,98,109,112]⟩ (rowOfEight 99) = .ok (rowHeader 99) ∧
      rowCarrier.openImage ((rowHeader 99).image (rowOfEight 99)) = .error (.thrown (.ioError "a.bmp")) ∧
      (saveFile Permutation.twoPrimes (rowHeader 0) rowCarrier (rowOfEight 0) CarrierFile.ones).2.toOption.isSome = true := by
    decide +kernel
  obtain ⟨accepted,refused,beyond,short,returns⟩ := ran
  refine ⟨accepted,?_,?_,beyond,short⟩
  · rintro ⟨inside,_,_⟩
    have first := (inside 0 (by decide) (by decide)).1
    omega
  · cases saved : (saveFile Permutation.twoPrimes (rowHeader 0) rowCarrier (rowOfEight 0) CarrierFile.ones).2 with
    | error failure =>
      rw [saved] at returns
      cases returns
    | ok bytes' =>
      rw [saved] at refused
      exact ⟨bytes',rfl,refused⟩

end CarrierFileBMP
end StegoDisk
