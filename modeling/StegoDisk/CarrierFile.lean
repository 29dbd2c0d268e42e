import StegoDisk.Encoders
import StegoDisk.Loops
import StegoDisk.VirtualStorage

/-!
`carrier_files/`: a carrier offers the least significant bits of its elements, which
are the bytes of the pixels of a bitmap or a PNG image and the eligible AC
coefficients of a JPEG image. They are gathered into a buffer in the order of the
local permutation, and the encoder works on the blocks of that buffer. Headers, the
compression of PNG and JPEG and the file system are left out: what a file holds is
the image that its format decodes to. The bytes of bitmaps have modules of their own.
-/
namespace StegoDisk
open Loops

/-! ### Names -/

/-- A file: the path of its directory and its name. -/
structure File where
  parent : List UInt8
  name : List UInt8
  deriving DecidableEq

/-- `tolower` in the C locale. -/
def toLower (c : UInt8) : UInt8 := if 65 ≤ c ∧ c ≤ 90 then c + 32 else c

namespace File

/-- `File::GetRelativePath`, which is the name alone. -/
def relativePath (file : File) : List UInt8 := file.name

/-- `File::GetNormalizedPath`; the separator is '/' already. -/
def normalizedPath (file : File) : List UInt8 := file.relativePath.map toLower

/-- `File::GetAbsolutePath`. -/
def absolutePath (file : File) : List UInt8 := file.parent ++ [47] ++ file.name

/-- `File::GetFileName` in a message. -/
def fileName (file : File) : String := String.ofList (file.name.map fun c => Char.ofNat c.toNat)

/-- `File::GetExtension`: what follows the last dot of the name, unless that is its first character. -/
def extension (file : File) : List UInt8 :=
  let suffix := (file.name.reverse.takeWhile fun c => c ≠ 46).reverse
  if suffix.length + 1 < file.name.length then suffix.map toLower else []

end File

/-! ### Images -/

/-- 64 coefficients of the first component. -/
structure JpegBlock where
  dc : UInt16
  ac : List UInt16

/-- What a carrier file holds. -/
inductive Image
  | bmp (pixels : List UInt8)
  | png (pixels : List UInt8)
  | jpeg (blocks : List JpegBlock)

/-- The formats, by the extension of the file. -/
inductive Format
  | bmp
  | png
  | jpg
  deriving DecidableEq

def Image.format : Image → Format
  | .bmp _ => .bmp
  | .png _ => .png
  | .jpeg _ => .jpg

/-- Coefficients 0 and 1 are left alone. A `JCOEF` is its 16 bits here, of which the mask of the source keeps 15. -/
def eligible (c : UInt16) : Bool := c &&& 0xFFFE != 0

/-- The AC coefficients in the order in which they are visited. -/
def coefficients (blocks : List JpegBlock) : List UInt16 := blocks.flatMap JpegBlock.ac

/-- The `raw_capacity_` that the constructors compute; the JPEG counter has 32 bits. -/
def Image.rawCapacity : Image → Nat
  | .bmp pixels => pixels.length / 8
  | .png pixels => pixels.length / 8
  | .jpeg blocks => word32 ((coefficients blocks).countP eligible) / 8

/-! ### Carriers -/

/-- `CarrierFile`. The buffer is not a member here: every use starts by clearing it. -/
structure CarrierFile where
  file : File
  rawCapacity : Nat
  permutation : Permutation
  encoder : Option Encoder := none
  codewordBlockSize : Nat := 0
  dataBlockSize : Nat := 0
  blockCount : Nat := 0
  capacity : Nat := 0
  blocksUsed : Nat := 0
  virtualStorageOffset : Nat := 0
  fileLoaded : Bool := false
  subkey : Option Key := none
  virtualStorage : Option Nat := none

/-- `CarrierFileFactory::CreateCarrierFile` for a file with the extension of its format; others are no carriers, and are
    not selected here. The local permutation is of the class that is configured for the format; an image without a byte
    of capacity is no carrier. -/
def createCarrierFile (localPermutation : Format → PermutationType) (file : File) (image : Image) : Option CarrierFile :=
  if image.rawCapacity < 1 then none
  else some { file := file, rawCapacity := image.rawCapacity, permutation := .fresh (localPermutation image.format) }

namespace CarrierFile

/-- `GetSizeUsingParams` of the local permutation for the bits of the carrier. -/
def predictedSize (env : Environment) (file : CarrierFile) : Except Failure Nat :=
  match file.subkey with
  | none => .error .undefined
  | some key => file.permutation.getSizeUsingParams env (word64 (file.rawCapacity * 8)) key.val

/-- `CarrierFile::SetEncoder` with an encoder. The capacity is a product of 32-bit factors. -/
def setEncoder (env : Environment) (file : CarrierFile) (e : Encoder) : CarrierFile × Except Failure Unit :=
  let file := { file with encoder := some e, dataBlockSize := e.dataBlockSize, codewordBlockSize := e.codewordBlockSize }
  match file.predictedSize env with
  | .error failure => (file,.error failure)
  | .ok size =>
    let blockCount := word32 (size / 8 / e.codewordBlockSize)
    ({ file with blockCount := blockCount, capacity := word32 (blockCount * e.dataBlockSize) },.ok ())

/-- `CarrierFile::UnSetEncoder`. -/
def unSetEncoder (file : CarrierFile) : CarrierFile :=
  { file with dataBlockSize := 1, codewordBlockSize := 1, blockCount := 0, capacity := 0, encoder := none }

/-- `CarrierFile::AddToVirtualStorage`. -/
def addToVirtualStorage (file : CarrierFile) (storage offset bytesUsed : Nat) : CarrierFile :=
  { file with
    virtualStorage := some storage
    virtualStorageOffset := offset
    blocksUsed := if bytesUsed = 0 then 0 else word32 ((bytesUsed - 1) / file.dataBlockSize + 1) }

/-- `CarrierFile::GetPermKey`. -/
def permKey (env : Environment) (file : CarrierFile) : Key := keyFromString env.keccak file.file.normalizedPath

/-! ### Bits -/

/-- `CarrierFile::SetBitInBufferPermuted`. -/
def setBitInBufferPermuted (p : Permutation) (buffer : MemoryBuffer) (index : Nat) : Except Failure MemoryBuffer :=
  if index ≥ p.size then .error (.thrown (.outOfRange "Index is out of range!"))
  else do
    let permuted ← p.permute index
    if permuted ≥ p.size then .error (.thrown (.outOfRange "Permuted index is out of range!"))
    else do
      let byte ← buffer.at (permuted / 8)
      .ok (buffer.set (permuted / 8) (byte ||| UInt8.ofNat (2 ^ (permuted % 8))))

/-- `CarrierFile::GetBitInBufferPermuted`. -/
def getBitInBufferPermuted (p : Permutation) (buffer : MemoryBuffer) (index : Nat) : Except Failure Bool :=
  if index ≥ p.size then .error (.thrown (.outOfRange "Index is out of range!"))
  else do
    let permuted ← p.permute index
    let byte ← buffer.at (permuted / 8)
    .ok (byte &&& UInt8.ofNat (2 ^ (permuted % 8)) != 0)

/-- One element of the loop that reads pixels into the buffer. -/
def gatherStep (access : List UInt8 → Nat → Except Failure UInt8) (p : Permutation) (pixels : List UInt8)
    (buffer : MemoryBuffer) (i : Nat) : Except Failure MemoryBuffer := do
  let pixel ← access pixels i
  if pixel &&& 1 != 0 then setBitInBufferPermuted p buffer i else .ok buffer

/-- The loop over all bits to modify, on a cleared buffer. -/
def gather (access : List UInt8 → Nat → Except Failure UInt8) (p : Permutation) (rawCapacity : Nat)
    (pixels : List UInt8) : Except Failure MemoryBuffer :=
  (List.range p.size).foldlM (gatherStep access p pixels) (List.replicate rawCapacity 0)

/-- One element of the loop that writes the buffer back into the pixels. -/
def scatterStep (access : List UInt8 → Nat → Except Failure UInt8) (p : Permutation) (buffer : MemoryBuffer)
    (pixels : List UInt8) (i : Nat) : Except Failure (List UInt8) := do
  let pixel ← access pixels i
  let bit ← getBitInBufferPermuted p buffer i
  .ok (pixels.set i ((pixel &&& 0xFE) ||| if bit then 1 else 0))

def scatter (access : List UInt8 → Nat → Except Failure UInt8) (p : Permutation) (buffer : MemoryBuffer)
    (pixels : List UInt8) : Except Failure (List UInt8) :=
  (List.range p.size).foldlM (scatterStep access p buffer) pixels

/-- The loop over the coefficients in `LoadFile` and `SaveFile`: the counter counts eligible
    ones, and reaching the bits to modify ends it. -/
def gatherCoefficients (p : Permutation) (bitsToModify : Nat) :
    List UInt16 → Nat → MemoryBuffer → Except Failure MemoryBuffer
  | [],_,buffer => .ok buffer
  | c::rest,counter,buffer =>
    if eligible c then do
      let buffer ← (if c &&& 1 != 0 then setBitInBufferPermuted p buffer counter else .ok buffer)
      if word32 (counter + 1) ≥ bitsToModify then .ok buffer
      else gatherCoefficients p bitsToModify rest (word32 (counter + 1)) buffer
    else gatherCoefficients p bitsToModify rest counter buffer

/-- The loop that writes the buffer back into coefficients. The counter is given back
    unless the loop has ended. -/
def scatterCoefficients (p : Permutation) (bitsToModify : Nat) (buffer : MemoryBuffer) :
    List UInt16 → Nat → Except Failure (List UInt16 × Option Nat)
  | [],counter => .ok ([],some counter)
  | c::rest,counter =>
    if eligible c then do
      let bit ← getBitInBufferPermuted p buffer counter
      let c := (c &&& 0xFFFE) ||| if bit then 1 else 0
      if word32 (counter + 1) ≥ bitsToModify then .ok (c::rest,none)
      else do
        let after ← scatterCoefficients p bitsToModify buffer rest (word32 (counter + 1))
        .ok (c::after.1,after.2)
    else do
      let after ← scatterCoefficients p bitsToModify buffer rest counter
      .ok (c::after.1,after.2)

def scatterBlocks (p : Permutation) (bitsToModify : Nat) (buffer : MemoryBuffer) :
    List JpegBlock → Nat → Except Failure (List JpegBlock)
  | [],_ => .ok []
  | block::rest,counter => do
    let after ← scatterCoefficients p bitsToModify buffer block.ac counter
    match after.2 with
    | none => .ok ({ block with ac := after.1 }::rest)
    | some counter => do
      let others ← scatterBlocks p bitsToModify buffer rest counter
      .ok ({ block with ac := after.1 }::others)

/-! ### Blocks -/

/-- The bytes from `&(*buffer_)[start]` on that the encoder touches; only the first is checked. -/
def blockAt (buffer : MemoryBuffer) (start width : Nat) : Except Failure (List UInt8) := do
  let _ ← buffer.at start
  if start + width ≤ buffer.length then .ok ((buffer.drop start).take width) else .error .undefined

/-- The position in the storage of byte `i` of block `b`. -/
def position (file : CarrierFile) (b i : Nat) : Nat :=
  word64 (file.virtualStorageOffset + b * file.dataBlockSize + i)

/-- `WriteByte`, where an `out_of_range` is taken for the end of the storage. -/
def writeOrSkip (s : VirtualStorage) (position : Nat) (value : UInt8) : VirtualStorage × Except Failure Unit :=
  match s.writeByte position value with
  | .ok s' => (s',.ok ())
  | .error (.thrown (.outOfRange _)) => (s,.ok ())
  | .error failure => (s,.error failure)

/-- `ReadByte`, where an `out_of_range` is taken for the end of the storage. -/
def readOrZero (s : VirtualStorage) (position : Nat) : Except Failure UInt8 :=
  match s.readByte position with
  | .ok value => .ok value
  | .error (.thrown (.outOfRange _)) => .ok 0
  | .error failure => .error failure

/-- The data of block `b` of the buffer. -/
def extractedBlock (file : CarrierFile) (e : Encoder) (buffer : MemoryBuffer) (b : Nat) : Except Failure (List UInt8) := do
  let codeword ← blockAt buffer (b * file.codewordBlockSize) e.codewordBlockSize
  e.extract codeword

/-- Block `b` of `ExtractBufferUsingEncoder`. -/
def extractBlock (file : CarrierFile) (e : Encoder) (buffer : MemoryBuffer) (s : VirtualStorage) (b : Nat) :
    VirtualStorage × Except Failure Unit :=
  match file.extractedBlock e buffer b with
  | .error failure => (s,.error failure)
  | .ok data =>
    forEach (fun s i =>
      match MemoryBuffer.at data i with
      | .error failure => (s,.error failure)
      | .ok value => writeOrSkip s (file.position b i) value) (List.range file.dataBlockSize) s

/-- `CarrierFile::ExtractBufferUsingEncoder`. -/
def extractBufferUsingEncoder (file : CarrierFile) (buffer : MemoryBuffer) (s : VirtualStorage) :
    VirtualStorage × Except Failure Int :=
  if buffer.length = 0 then (s,.ok (-1))
  else
    match file.encoder with
    | none => (s,.ok (-2))
    | some e =>
      if file.codewordBlockSize = 0 then (s,.ok (-3))
      else if file.blocksUsed = 0 then (s,.ok (-4))
      else
        match forEach (file.extractBlock e buffer) (List.range file.blocksUsed) s with
        | (s,.ok ()) => (s,.ok 0)
        | (s,.error failure) => (s,.error failure)

/-- Block `b` of `EmbedBufferUsingEncoder`. -/
def embedBlock (file : CarrierFile) (e : Encoder) (s : VirtualStorage) (buffer : MemoryBuffer) (b : Nat) :
    Except Failure MemoryBuffer := do
  let data ← (List.range file.dataBlockSize).mapM fun i => readOrZero s (file.position b i)
  let codeword ← blockAt buffer (b * file.codewordBlockSize) e.codewordBlockSize
  let codeword ← e.embed codeword data
  .ok (VirtualStorage.splice buffer (b * file.codewordBlockSize) codeword)

/-- `CarrierFile::EmbedBufferUsingEncoder`. -/
def embedBufferUsingEncoder (file : CarrierFile) (buffer : MemoryBuffer) (s : VirtualStorage) :
    Except Failure MemoryBuffer :=
  if buffer.length = 0 then .error (.thrown (.lengthError "Buffer is empty!"))
  else
    match file.encoder with
    | none => .error (.thrown (.invalidState .embedBufferUsingEncoder .encoder .notSetted))
    | some e =>
      if file.codewordBlockSize = 0 then .error (.thrown (.emptyMember "codeword_block_size_"))
      else if file.blocksUsed = 0 then .error (.thrown (.emptyMember "codeword_block_size_"))
      else (List.range file.blocksUsed).foldlM (file.embedBlock e s) buffer

/-! ### Loading and saving -/

/-- What the bitmap class does before its permutation: allocate and read the pixels. The
    number of bytes read is kept in 32 bits. -/
def openImage (file : CarrierFile) : Image → Except Failure Unit
  | .bmp pixels =>
    if word64 (file.rawCapacity * 8) ≥ addressSpace then .error (.thrown .badAlloc)
    else if word32 (min pixels.length (word64 (file.rawCapacity * 8))) ≠ word64 (file.rawCapacity * 8) then
      .error (.thrown (.ioError file.file.fileName))
    else .ok ()
  | .png _ => .ok ()
  | .jpeg _ => .ok ()

/-- The permutation is initialised where it was not. -/
def initPermutation (env : Environment) (file : CarrierFile) : CarrierFile × Except Failure Unit :=
  if file.permutation.size = 0 then
    match file.subkey with
    | none => (file,.error .undefined)
    | some key =>
      ({ file with permutation := (file.permutation.init env (word64 (file.rawCapacity * 8)) key.val).1 },
        (file.permutation.init env (word64 (file.rawCapacity * 8)) key.val).2)
  else (file,.ok ())

/-- The bits of the image in permuted order. -/
def unpack (file : CarrierFile) (bitsToModify : Nat) : Image → Except Failure MemoryBuffer
  | .bmp pixels =>
    gather MemoryBuffer.at file.permutation file.rawCapacity (pixels.take (word64 (file.rawCapacity * 8)))
  | .png pixels =>
    if file.rawCapacity ≥ addressSpace then .error (.thrown .badAlloc)
    else if pixels.length ≥ addressSpace then .error (.thrown (.parseError file.file.fileName "Unable to decode file"))
    else gather peek file.permutation file.rawCapacity pixels
  | .jpeg blocks =>
    if file.rawCapacity ≥ addressSpace then .error (.thrown .badAlloc)
    else gatherCoefficients file.permutation bitsToModify (coefficients blocks) 0 (List.replicate file.rawCapacity 0)

/-- The image with the bits of the buffer. -/
def pack (file : CarrierFile) (buffer : MemoryBuffer) : Image → Except Failure Image
  | .bmp pixels => do
    let bitmap ← scatter MemoryBuffer.at file.permutation buffer (pixels.take (word64 (file.rawCapacity * 8)))
    .ok (.bmp (bitmap ++ pixels.drop (word64 (file.rawCapacity * 8))))
  | .png pixels => do
    let pixels ← scatter peek file.permutation buffer pixels
    .ok (.png pixels)
  | .jpeg blocks => do
    let blocks ← scatterBlocks file.permutation (word32 file.permutation.size) buffer blocks 0
    .ok (.jpeg blocks)

/-- What `LoadFile` makes of a negative code: only the JPEG class looks at it. -/
def checkExtracted (file : CarrierFile) (code : Int) : Image → Except Failure Unit
  | .bmp _ => .ok ()
  | .png _ => .ok ()
  | .jpeg _ =>
    if code ≠ 0 then .error (.thrown (.runtimeError ("File " ++ file.file.fileName ++ " buffer extracting failed!")))
    else .ok ()

/-- `LoadFile` of the three classes. -/
def loadFile (env : Environment) (file : CarrierFile) (image : Image) (s : VirtualStorage) :
    (CarrierFile × VirtualStorage) × Except Failure Unit :=
  if file.fileLoaded then ((file,s),.ok ())
  else
    match file.openImage image with
    | .error failure => ((file,s),.error failure)
    | .ok () =>
      match file.initPermutation env with
      | (file,.error failure) => ((file,s),.error failure)
      | (file,.ok ()) =>
        match file.unpack file.permutation.size image with
        | .error failure => ((file,s),.error failure)
        | .ok buffer =>
          match file.extractBufferUsingEncoder buffer s with
          | (s,.error failure) => ((file,s),.error failure)
          | (s,.ok code) =>
            match file.checkExtracted code image with
            | .error failure => ((file,s),.error failure)
            | .ok () => (({ file with fileLoaded := true },s),.ok ())

/-- `SaveFile` of the three classes, up to the image that is written back. -/
def saveFile (env : Environment) (file : CarrierFile) (image : Image) (s : VirtualStorage) :
    CarrierFile × Except Failure Image :=
  if file.fileLoaded = false then (file,.error (.thrown (.invalidState .save .file .notLoaded)))
  else
    match file.openImage image with
    | .error failure => (file,.error failure)
    | .ok () =>
      match file.initPermutation env with
      | (file,.error failure) => (file,.error failure)
      | (file,.ok ()) =>
        (file,do
          let buffer ← file.unpack (word32 file.permutation.size) image
          let buffer ← file.embedBufferUsingEncoder buffer s
          file.pack buffer image)

end CarrierFile
end StegoDisk
