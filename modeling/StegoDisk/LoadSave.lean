import StegoDisk.Codec

/-!
`LoadFile` and `SaveFile` of one carrier: loading writes to its positions what the blocks of
its image are decoded to, and an image that was saved is decoded to the bytes of the storage.
-/
namespace StegoDisk
open Feistel

namespace CarrierFile

variable {env : Environment} {e : Encoder} {file file' : CarrierFile} {image : Image} {s s' : VirtualStorage}
  {n : Nat} {f : Nat → Nat}

/-- Block `b` of the image is decoded to some bytes. -/
def DecodesTo (file : CarrierFile) (e : Encoder) (image : Image) (b : Nat) (data : List UInt8) : Prop :=
  ∃ buffer, file.unpack file.permutation.size image = .ok buffer ∧ file.extractedBlock e buffer b = .ok data

theorem DecodesTo.unique {b : Nat} {data data' : List UInt8} (first : file.DecodesTo e image b data)
    (second : file.DecodesTo e image b data') : data = data' := by
  obtain ⟨buffer,unpacked,decoded⟩ := first
  obtain ⟨buffer',unpacked',decoded'⟩ := second
  obtain rfl := Except.ok.inj (unpacked.symm.trans unpacked')
  exact Except.ok.inj (decoded.symm.trans decoded')

/-- A carrier that is ready to be read: its blocks are below the size of its permutation. -/
structure Ready (env : Environment) (e : Encoder) (file : CarrierFile) (f : Nat → Nat) : Prop where
  prepared : Prepared env e file
  initializes : file.Initializes env file.permutation
  fills : Fills file.permutation f file.rawCapacity
  positive : 0 < file.permutation.size
  enough : file.permutation.size ≤ word64 (file.rawCapacity * 8)
  blocks : file.blocksUsed * e.codewordBlockSize ≤ file.permutation.size / 8

theorem Prepared.withPermutation (prepared : Prepared env e file) {q : Permutation}
    (type : q.type = file.permutation.type) (initializes : file.Initializes env q) :
    Prepared env e { file with permutation := q } := by
  obtain ⟨key,p,holds,same,returns⟩ := initializes
  refine ⟨prepared.positive,prepared.encoder,prepared.dataBlockSize,prepared.codewordBlockSize,prepared.subkey,?_,
    .inr ⟨key,p,holds,same.trans type.symm,returns⟩⟩
  obtain ⟨size,predicted,sizes⟩ := prepared.sizes
  refine ⟨size,?_,sizes⟩
  rw [predictedSize] at predicted ⊢
  rw [holds] at predicted
  simp only [holds,Permutation.getSizeUsingParams_type type,predicted]

theorem Prepared.ready (prepared : Prepared env e file) (used : file.blocksUsed ≤ file.blockCount)
    (few : word64 (file.rawCapacity * 8) < 2 ^ 52) (ran : file.initPermutation env = (file',.ok ())) :
    ∃ q f, file' = { file with permutation := q } ∧ q.type = file.permutation.type ∧ Ready env e file' f := by
  obtain ⟨q,f,rfl,initializes,fills,positive,enough,blocks⟩ := prepared.fills few ran
  obtain ⟨key,p,holds,type,returns⟩ := id initializes
  have same : q.type = p.type := by
    have kept := @Permutation.init_type env (word64 (file.rawCapacity * 8)) key.val p
    rwa [returns] at kept
  exact ⟨q,f,rfl,same.trans type,prepared.withPermutation (same.trans type) initializes,⟨key,p,holds,same.symm,returns⟩,
    fills,positive,enough,(Nat.mul_le_mul_right _ used).trans blocks⟩

theorem Ready.encodes (ready : Ready env e file f) : file.Encodes e file.rawCapacity := by
  have fits := ready.fills.fits
  have blocks := ready.blocks
  exact ⟨ready.prepared.encoder,ready.prepared.dataBlockSize,ready.prepared.codewordBlockSize,by omega,
    ready.prepared.positive⟩

/-- What an image is unpacked to, and the bytes that its blocks are decoded to. -/
theorem Ready.unpacks (ready : Ready env e file f) (opened : Opened file image) :
    ∃ buffer, file.unpack file.permutation.size image = .ok buffer ∧ buffer.length = file.rawCapacity ∧
      ∀ b < file.blocksUsed, ∃ data, file.extractedBlock e buffer b = .ok data ∧ data.length = file.dataBlockSize ∧
        ∀ i, file.decoded e buffer b i = data.getD i 0 := by
  obtain ⟨buffer,unpacked,length,_⟩ := unpack_ok opened ready.fills ready.positive ready.enough
  refine ⟨buffer,unpacked,length,?_⟩
  intro b used
  obtain ⟨data,decode,size⟩ := extractedBlock_ok ready.encodes length used
  exact ⟨data,decode,size,fun i => by simp [decoded,decode,Except.toOption]⟩

theorem Ready.loaded (ready : Ready env e file f) : Ready env e { file with fileLoaded := true } f := by
  obtain ⟨⟨positive,encoder,data,codeword,subkey,sizes,settled⟩,initializes,fills,size,enough,blocks⟩ := ready
  exact ⟨⟨positive,encoder,data,codeword,subkey,sizes,settled⟩,initializes,fills,size,enough,blocks⟩

/-! ### Loading -/

/-- What loading makes of a carrier and an image: the carrier with its permutation, and its task. -/
def Loads (env : Environment) (e : Encoder) (file : CarrierFile) (image : Image) (file' : CarrierFile)
    (task : List Call) : Prop :=
  ∃ q f buffer, Opened file image ∧ q.type = file.permutation.type ∧ Ready env e { file with permutation := q } f ∧
    file' = { file with permutation := q, fileLoaded := true } ∧
    file'.unpack file'.permutation.size image = .ok buffer ∧ task = file'.calls (file'.decoded e buffer)

/-- `LoadFile` of a carrier that is opened and can be initialised. -/
theorem loadFile_eq (prepared : Prepared env e file) (fresh : file.fileLoaded = false)
    (used : file.blocksUsed ≤ file.blockCount) (opened : Opened file image)
    (ran : file.initPermutation env = (file',.ok ())) (n : Nat) (g : Nat → Nat) :
    ∃ task, Loads env e file image { file' with fileLoaded := true } task ∧ ∀ s : VirtualStorage, s.Mapped n g →
      file.loadFile env image s =
        match file'.checkExtracted (if file.blocksUsed = 0 then -4 else 0) image with
        | .error failure => ((file',s.replay task),.error failure)
        | .ok () => (({ file' with fileLoaded := true },s.replay task),.ok ()) := by
  obtain ⟨q,f,same,type,ready⟩ := prepared.ready used opened.bits.2 ran
  have opened' : Opened file' image := by
    rw [same]
    exact ⟨opened.raw,opened.opens,opened.decodes⟩
  obtain ⟨buffer,unpacked,length,_⟩ := ready.unpacks opened'
  refine ⟨_,⟨q,f,buffer,opened,type,same ▸ ready,by rw [same],unpacked,rfl⟩,?_⟩
  intro s mapped
  rw [loadFile,if_neg (by simp [fresh]),opened.opens,show file.blocksUsed = file'.blocksUsed by rw [same]]
  simp only [ran,unpacked,extractBufferUsingEncoder_ok ready.encodes length mapped]
  rfl

/-- With a share, loading returns. -/
theorem loadFile_ok (prepared : Prepared env e file) (fresh : file.fileLoaded = false)
    (used : file.blocksUsed ≤ file.blockCount) (blocks : 0 < file.blocksUsed) (opened : Opened file image) (n : Nat)
    (g : Nat → Nat) :
    ∃ file' task, Loads env e file image file' task ∧ ∀ s : VirtualStorage, s.Mapped n g →
      file.loadFile env image s = ((file',s.replay task),.ok ()) := by
  have ran : file.initPermutation env = ((file.initPermutation env).1,.ok ()) :=
    Prod.ext rfl (prepared.initPermutation_ok (by omega))
  obtain ⟨task,loads,result⟩ := loadFile_eq prepared fresh used opened ran n g
  refine ⟨_,task,loads,?_⟩
  intro s mapped
  have accepted : (file.initPermutation env).1.checkExtracted 0 image = .ok () := by cases image <;> rfl
  rw [result s mapped]
  simp only [show file.blocksUsed ≠ 0 by omega,if_false,accepted]

/-- A `LoadFile` that returns has loaded. -/
theorem loadFile_inv (prepared : Prepared env e file) (fresh : file.fileLoaded = false)
    (used : file.blocksUsed ≤ file.blockCount) (raw : image.rawCapacity = file.rawCapacity) {g : Nat → Nat}
    (mapped : s.Mapped n g) (returns : file.loadFile env image s = ((file',s'),.ok ())) :
    ∃ task, Loads env e file image file' task ∧ s' = s.replay task := by
  have kept := returns
  rw [loadFile,if_neg (by simp [fresh])] at returns
  split at returns
  · simp at returns
  rename_i opens
  split at returns
  · simp at returns
  rename_i ready ran
  split at returns
  · simp at returns
  rename_i buffer unpacked
  have opened : Opened file image := by
    refine ⟨raw,opens,?_⟩
    rintro pixels rfl
    by_contra beyond
    simp only [unpack,show pixels.length ≥ addressSpace by omega,if_true] at unpacked
    split at unpacked <;> simp at unpacked
  obtain ⟨task,loads,result⟩ := loadFile_eq prepared fresh used opened ran n g
  rw [result s mapped] at kept
  split at kept
  · simp at kept
  · simp only [Prod.mk.injEq,and_true] at kept
    obtain ⟨rfl,rfl⟩ := kept
    exact ⟨task,loads,rfl⟩

/-! ### Saving -/

/-- The number of bits that `SaveFile` keeps in 32 bits matters for JPEG images alone, which have fewer. -/
theorem unpack_word32 (opened : Opened file image) {size : Nat} (enough : size ≤ word64 (file.rawCapacity * 8)) :
    file.unpack (word32 size) image = file.unpack size image := by
  cases image with
  | bmp pixels => rfl
  | png pixels => rfl
  | jpeg blocks =>
    have small := opened.jpeg
    have kept : word64 (file.rawCapacity * 8) ≤ file.rawCapacity * 8 := Nat.mod_le _ _
    rw [word32_of_lt (by omega)]

/-- A permutation that has a size is kept, so that a save unpacks, embeds and packs. -/
theorem saveFile_eq (loaded : file.fileLoaded = true) (ready : Ready env e file f) (opened : Opened file image) :
    file.saveFile env image s =
      (file,do
        let buffer ← file.unpack file.permutation.size image
        let buffer ← file.embedBufferUsingEncoder buffer s
        file.pack buffer image) := by
  have initialized : file.initPermutation env = (file,.ok ()) := by
    have positive := ready.positive
    rw [initPermutation,if_neg (by omega)]
  rw [saveFile,if_neg (by simp [loaded]),opened.opens]
  simp only [initialized,unpack_word32 opened ready.enough]

/-- Saving a loaded carrier gives an image whose blocks are decoded to the bytes of the storage. -/
theorem saveFile_ok (loaded : file.fileLoaded = true) (ready : Ready env e file f) (blocks : 0 < file.blocksUsed)
    (opened : Opened file image) {g : Nat → Nat} (mapped : s.Mapped n g) :
    ∃ image', file.saveFile env image s = (file,.ok image') ∧ image'.SameShape image ∧
      ∀ b < file.blocksUsed, file.DecodesTo e image' b (file.stored s b) := by
  obtain ⟨buffer,unpacked,length,_⟩ := ready.unpacks opened
  obtain ⟨changed,embedded,length',own⟩ := embedBufferUsingEncoder_ok ready.encodes length mapped blocks
  obtain ⟨image',packed,same,after,unpacked',length'',bits⟩ :=
    pack_unpack opened ready.fills ready.positive ready.enough length'
  refine ⟨image',?_,same,?_⟩
  · simp only [saveFile_eq loaded ready opened,unpacked,ok_bind,embedded,packed]
  · intro b used
    refine ⟨after,unpacked',?_⟩
    rw [← own b used]
    have inside := ready.encodes.block used
    apply extractedBlock_congr (length''.trans length'.symm) (by omega)
    intro j _ high
    apply Bits.getD_eq_of_low
    intro k inByte
    -- the blocks that are used lie below the size of the permutation
    have whole := (Nat.mul_le_mul_right e.codewordBlockSize (show b + 1 ≤ file.blocksUsed from used)).trans ready.blocks
    rw [Nat.succ_mul] at whole
    rw [ready.prepared.codewordBlockSize] at high
    exact bits k (by omega)

end CarrierFile
end StegoDisk
