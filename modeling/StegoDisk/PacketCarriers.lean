import StegoDisk.LoadSave
import StegoDisk.Muxing
import StegoDisk.PacketSelection

/-!
`LoadFile` and `SaveFile` of the two classes for containers, which differ in `LoadBuffer` and `SaveBuffer` alone. The bytes
of the packets are taken as those of the pixels of an image; there is no flag for a file that is loaded, and the codes
of the encoder are not looked at. `SaveBuffer` ends with `ContainerHandler::Save`, which libavformat can refuse; what was
saved is loaded again, as long as libavformat keeps the packets that it was given.
-/
namespace StegoDisk

/-- `GetAbsolutePath` in a message. -/
def File.pathName (file : File) : String := String.ofList (file.absolutePath.map fun c => Char.ofNat c.toNat)

namespace PacketCarrier
open CarrierFile

/-- `data_buffer` after `LoadBuffer`, which begins with its size. -/
def dataBuffer (loadBuffer : Nat → Except Failure MemoryBuffer) (file : CarrierFile) : Except Failure MemoryBuffer :=
  if word64 (file.rawCapacity * 8) ≥ addressSpace then .error (.thrown .badAlloc) else loadBuffer file.rawCapacity

/-- `LoadFile`. -/
def loadFile (env : Environment) (loadBuffer : Nat → Except Failure MemoryBuffer) (file : CarrierFile) (s : VirtualStorage) :
    (CarrierFile × VirtualStorage) × Except Failure Unit :=
  match dataBuffer loadBuffer file with
  | .error failure => ((file,s),.error failure)
  | .ok bytes =>
    match file.initPermutation env with
    | (file,.error failure) => ((file,s),.error failure)
    | (file,.ok ()) =>
      match gather MemoryBuffer.at file.permutation file.rawCapacity bytes with
      | .error failure => ((file,s),.error failure)
      | .ok buffer =>
        match file.extractBufferUsingEncoder buffer s with
        | (s,.error failure) => ((file,s),.error failure)
        | (s,.ok _) => ((file,s),.ok ())

/-- `SaveFile`. -/
def saveFile {γ : Type} (env : Environment) (loadBuffer : Nat → Except Failure MemoryBuffer)
    (saveBuffer : MemoryBuffer → Except Failure γ) (file : CarrierFile) (s : VirtualStorage) : CarrierFile × Except Failure γ :=
  match dataBuffer loadBuffer file with
  | .error failure => (file,.error failure)
  | .ok bytes =>
    match file.initPermutation env with
    | (file,.error failure) => (file,.error failure)
    | (file,.ok ()) =>
      (file,do
        let buffer ← gather MemoryBuffer.at file.permutation file.rawCapacity bytes
        let buffer ← file.embedBufferUsingEncoder buffer s
        let bytes ← scatter MemoryBuffer.at file.permutation buffer bytes
        saveBuffer bytes)

end PacketCarrier

namespace CarrierFileMKV

/-- `CarrierFileMKV::LoadBuffer`: all packets of all streams, in the order of the file. -/
def loadBuffer (c : Container) (rawCapacity : Nat) : Except Failure MemoryBuffer := do
  let (buffer,_) ← CarrierFileMPEG.readPackets (fun _ => true) (c.packets.map Prod.snd) (List.replicate (rawCapacity * 8) 0) 0
  .ok buffer

/-- `CarrierFileMKV::LoadFile`. -/
def loadFile (env : Environment) (file : CarrierFile) (c : Container) (s : VirtualStorage) :
    (CarrierFile × VirtualStorage) × Except Failure Unit := PacketCarrier.loadFile env (loadBuffer c) file s

/-- `CarrierFileMKV::SaveFile`, with the container that is then read from the file. -/
def saveFile (env : Environment) (av : Muxer) (file : CarrierFile) (c : Container) (s : VirtualStorage) :
    CarrierFile × Except Failure Container :=
  PacketCarrier.saveFile env (loadBuffer c) (fun bytes => do
    let handed ← saveBuffer c bytes
    ContainerHandler.save av file.file.pathName handed) file s

end CarrierFileMKV

namespace CarrierFileMPEG

/-- `CarrierFileMPEG::LoadFile`. -/
def loadFile (env : Environment) (file : CarrierFile) (h : ContainerHandler) (s : VirtualStorage) :
    (CarrierFile × VirtualStorage) × Except Failure Unit := PacketCarrier.loadFile env (loadBuffer h) file s

/-- `CarrierFileMPEG::SaveFile`, with the container that is then read from the file. -/
def saveFile (env : Environment) (av : Muxer) (file : CarrierFile) (c : Container) (hasBFrames : Bool) (s : VirtualStorage) :
    CarrierFile × Except Failure Container :=
  PacketCarrier.saveFile env (loadBuffer (c.handler hasBFrames)) (fun bytes => do
    let handed ← saveContainer c hasBFrames bytes
    ContainerHandler.save av file.file.pathName handed) file s

end CarrierFileMPEG

namespace PacketCarrier
open CarrierFile Loops

variable {env : Environment} {e : Encoder} {file again : CarrierFile} {s s' : VirtualStorage} {n n' : Nat} {f g g' : Nat → Nat}
  {bytes read : MemoryBuffer} {loadBuffer : Nat → Except Failure MemoryBuffer}

/-! ### Bytes as pixels -/

theorem at_of_peek {pixels : List UInt8} {i : Nat} {value : UInt8} (ran : peek pixels i = .ok value) :
    MemoryBuffer.at pixels i = .ok value := by
  unfold peek at ran
  unfold MemoryBuffer.at
  cases found : pixels[i]? with
  | none => simp [found] at ran
  | some there => simpa [found] using ran

theorem gather_at {p : Permutation} {pixels : List UInt8} {buffer : MemoryBuffer} (ran : gather peek p n pixels = .ok buffer) :
    gather MemoryBuffer.at p n pixels = .ok buffer := by
  refine foldlM_alike (fun before i after stepped => ?_) ran
  obtain ⟨pixel,read,rest⟩ := bind_eq_ok.mp stepped
  rw [gatherStep,at_of_peek read]
  exact rest

theorem scatter_at {p : Permutation} {pixels after : List UInt8} {buffer : MemoryBuffer}
    (ran : scatter peek p buffer pixels = .ok after) : scatter MemoryBuffer.at p buffer pixels = .ok after := by
  refine foldlM_alike (fun before i after stepped => ?_) ran
  obtain ⟨pixel,read,rest⟩ := bind_eq_ok.mp stepped
  rw [scatterStep,at_of_peek read]
  exact rest

/-- Only the lowest bits of the pixels are gathered. -/
theorem gather_bits {p : Permutation} {pixels pixels' : List UInt8} (same : pixels.map (· &&& 1) = pixels'.map (· &&& 1)) :
    gather peek p n pixels = gather peek p n pixels' := by
  have steps : gatherStep peek p pixels = gatherStep peek p pixels' := by
    funext buffer i
    have here := congrArg (·[i]?) same
    simp only [List.getElem?_map] at here
    unfold gatherStep peek
    cases left : pixels[i]? <;> cases right : pixels'[i]? <;> simp [left,right] at here
    · rfl
    · simp only [ok_bind,here]
  rw [gather,gather,steps]

/-- The bytes of a carrier as an image. -/
structure Sized (file : CarrierFile) (bytes : MemoryBuffer) : Prop where
  length : bytes.length = file.rawCapacity * 8
  room : bytes.length < addressSpace

theorem Sized.opened (sized : Sized file bytes) : Opened file (.png bytes) := by
  refine ⟨?_,rfl,?_⟩
  · rw [Image.rawCapacity,sized.length,Nat.mul_div_cancel _ (by decide)]
  · rintro _ ⟨⟩
    exact sized.room

theorem Sized.few (sized : Sized file bytes) : word64 (file.rawCapacity * 8) < addressSpace := by
  have room := sized.room
  rw [sized.length] at room
  exact (Nat.mod_le _ _).trans_lt room

theorem Sized.dataBuffer (sized : Sized file bytes) (gives : loadBuffer file.rawCapacity = .ok bytes) :
    dataBuffer loadBuffer file = .ok bytes := by
  rw [PacketCarrier.dataBuffer,if_neg (Nat.not_le.mpr sized.few),gives]

/-- What is unpacked from the bytes is gathered from them. -/
theorem Sized.gather (sized : Sized file bytes) (size : Nat) : file.unpack size (.png bytes) =
    CarrierFile.gather peek file.permutation file.rawCapacity bytes := by
  have room := sized.room
  have length := sized.length
  rw [unpack,if_neg (by omega),if_neg (by omega)]

theorem Sized.initialized (sized : Sized file bytes) (prepared : Prepared env e file) (used : file.blocksUsed ≤ file.blockCount)
    (blocks : 0 < file.blocksUsed) : ∃ q f, file.initPermutation env = ({ file with permutation := q },.ok ()) ∧
      file.Initializes env q ∧ Ready env e { file with permutation := q } f := by
  have ran : file.initPermutation env = ((file.initPermutation env).1,.ok ()) :=
    Prod.ext rfl (prepared.initPermutation_ok (by omega))
  obtain ⟨q,f,same,type,ready⟩ := prepared.ready used (sized.few.trans (by decide)) ran
  have ready' : Ready env e { file with permutation := q } f := same ▸ ready
  obtain ⟨key,p,holds,own,returns⟩ := ready'.initializes
  exact ⟨q,f,ran.trans (by rw [same]),⟨key,p,holds,own.trans type,returns⟩,ready'⟩

/-! ### Loading and saving -/

/-- Loading writes what the blocks of the bytes are decoded to. -/
theorem loadFile_ok (sized : Sized file bytes) (prepared : Prepared env e file) (used : file.blocksUsed ≤ file.blockCount)
    (blocks : 0 < file.blocksUsed) (gives : loadBuffer file.rawCapacity = .ok bytes) : ∃ q buffer,
      file.Initializes env q ∧ CarrierFile.gather peek q file.rawCapacity bytes = .ok buffer ∧
      ∀ s : VirtualStorage, s.Mapped n g → loadFile env loadBuffer file s =
        (({ file with permutation := q },s.replay (file.calls ({ file with permutation := q }.decoded e buffer))),.ok ()) := by
  obtain ⟨q,f,ran,initializes,ready⟩ := sized.initialized prepared used blocks
  have sized' : Sized { file with permutation := q } bytes := ⟨sized.length,sized.room⟩
  obtain ⟨buffer,unpacked,length,_⟩ := ready.unpacks sized'.opened
  rw [sized'.gather] at unpacked
  refine ⟨q,buffer,initializes,unpacked,?_⟩
  intro s mapped
  simp only [loadFile,sized.dataBuffer gives,ran,gather_at unpacked,extractBufferUsingEncoder_ok ready.encodes length mapped]
  rfl

/-- Saving gives bytes to `SaveBuffer` whose blocks are decoded to the bytes of the storage. -/
theorem saveFile_ok (sized : Sized file bytes) (prepared : Prepared env e file) (used : file.blocksUsed ≤ file.blockCount)
    (blocks : 0 < file.blocksUsed) (gives : loadBuffer file.rawCapacity = .ok bytes) (mapped : s.Mapped n g) : ∃ q after,
      file.Initializes env q ∧ Sized file after ∧
      (∀ (γ : Type) (saveBuffer : MemoryBuffer → Except Failure γ),
        saveFile env loadBuffer saveBuffer file s = ({ file with permutation := q },saveBuffer after)) ∧
      ∀ b < file.blocksUsed, { file with permutation := q, fileLoaded := true }.DecodesTo e (.png after) b (file.stored s b) := by
  obtain ⟨q,f,ran,initializes,ready⟩ := sized.initialized prepared used blocks
  have sized' : Sized { file with permutation := q, fileLoaded := true } bytes := ⟨sized.length,sized.room⟩
  obtain ⟨image,saved,shape,decodes⟩ := CarrierFile.saveFile_ok rfl ready.loaded blocks sized'.opened mapped
  rw [saveFile_eq rfl ready.loaded sized'.opened,Prod.mk.injEq] at saved
  obtain ⟨buffer,unpacked,rest⟩ := bind_eq_ok.mp saved.2
  obtain ⟨changed,embedded,packed⟩ := bind_eq_ok.mp rest
  obtain ⟨after,scattered,last⟩ := bind_eq_ok.mp packed
  obtain rfl := Except.ok.inj last
  have length : after.length = bytes.length := by
    have bits := shape.bits
    simpa only [Image.bits,List.length_map] using bits
  rw [sized'.gather] at unpacked
  refine ⟨q,after,initializes,⟨length.trans sized.length,length ▸ sized.room⟩,?_,decodes⟩
  intro γ saveBuffer
  have embedded' : { file with permutation := q }.embedBufferUsingEncoder buffer s = .ok changed := embedded
  simp only [saveFile,sized.dataBuffer gives,ran,gather_at unpacked,ok_bind,embedded',scatter_at scattered]

/-! ### Saved and loaded -/

/-- A carrier for the same file, in another session. -/
structure Alike (again file : CarrierFile) : Prop where
  rawCapacity : again.rawCapacity = file.rawCapacity
  subkey : again.subkey = file.subkey
  type : again.permutation.type = file.permutation.type
  blockCount : again.blockCount = file.blockCount
  blocksUsed : again.blocksUsed = file.blocksUsed
  virtualStorageOffset : again.virtualStorageOffset = file.virtualStorageOffset

/-- The positions of the carrier get the bytes of one storage, and the others keep those of another. -/
def Restores (file : CarrierFile) (s : VirtualStorage) (n : Nat) (before after : VirtualStorage) : Prop :=
  ∀ p < n, ((∃ b < file.blocksUsed, ∃ i < file.dataBlockSize, file.position b i = p) → after.byteAt p = s.byteAt p) ∧
    ((∀ b < file.blocksUsed, ∀ i < file.dataBlockSize, file.position b i ≠ p) → after.byteAt p = before.byteAt p)

/-- Calls that carry the bytes of a storage to the positions of a carrier restore them. -/
theorem restores {values : Nat → Nat → UInt8} (mapped : s.Mapped n g)
    (carried : ∀ b < file.blocksUsed, ∀ i < file.dataBlockSize, values b i = s'.byteAt (file.position b i)) :
    Restores file s' n s (s.replay (file.calls values)) := by
  intro p inside
  constructor
  · rintro ⟨b,used,i,byte,rfl⟩
    refine mapped.replay_byteAt inside ?_ (.inr ⟨_,mem_calls.mpr ⟨b,used,i,byte,rfl⟩,rfl⟩)
    intro call member same
    obtain ⟨b',used',i',byte',rfl⟩ := mem_calls.mp member
    rw [← show file.position b' i' = file.position b i from same]
    exact carried b' used' i' byte'
  · intro others
    refine mapped.replay_other inside fun call member same => ?_
    obtain ⟨b,used,i,byte,rfl⟩ := mem_calls.mp member
    exact others b used i byte same

theorem Alike.initializes (alike : Alike again file) {q : Permutation} (initializes : again.Initializes env q) :
    file.Initializes env q := by
  obtain ⟨key,p,holds,type,returns⟩ := initializes
  exact ⟨key,p,alike.subkey ▸ holds,type.trans alike.type,alike.rawCapacity ▸ returns⟩

theorem Alike.calls (alike : Alike again file) (same : again.dataBlockSize = file.dataBlockSize) (values : Nat → Nat → UInt8) :
    again.calls values = file.calls values := by
  have place : again.position = file.position := by
    funext b i
    rw [position,position,alike.virtualStorageOffset,same]
  rw [CarrierFile.calls,CarrierFile.calls,alike.blocksUsed,same,place]

/-- What is saved is loaded wherever packets with the same lowest bits are read. -/
theorem bytes_restored (sized : Sized file bytes) (prepared : Prepared env e file) (used : file.blocksUsed ≤ file.blockCount)
    (blocks : 0 < file.blocksUsed) (gives : loadBuffer file.rawCapacity = .ok bytes) (mapped : s.Mapped n g) : ∃ file' after,
      Sized file after ∧ (∀ (γ : Type) (saveBuffer : MemoryBuffer → Except Failure γ),
        saveFile env loadBuffer saveBuffer file s = (file',saveBuffer after)) ∧
      ∀ again : CarrierFile, Prepared env e again → Alike again file → ∀ (reading : Nat → Except Failure MemoryBuffer) read,
        reading file.rawCapacity = .ok read → read.map (· &&& 1) = after.map (· &&& 1) →
          ∀ n' g' (before : VirtualStorage), before.Mapped n' g' → ∃ again' restored,
            loadFile env reading again before = ((again',restored),.ok ()) ∧ Restores file s n' before restored := by
  obtain ⟨q,after,initializes,sized',saved,decodes⟩ := saveFile_ok sized prepared used blocks gives mapped
  refine ⟨{ file with permutation := q },after,sized',saved,?_⟩
  intro again prepared' alike reading read found same n' g' before mapped'
  have length : read.length = after.length := by
    have lengths := congrArg List.length same
    simpa only [List.length_map] using lengths
  have sized'' : Sized again read := ⟨by rw [length,sized'.length,alike.rawCapacity],length ▸ sized'.room⟩
  obtain ⟨q',buffer,initializes',gathered,loaded⟩ := loadFile_ok (n := n') (g := g') sized'' prepared'
    (by rw [alike.blocksUsed,alike.blockCount]; exact used) (by rw [alike.blocksUsed]; exact blocks)
    (alike.rawCapacity ▸ found)
  obtain rfl : q' = q := Initializes.unique (alike.initializes initializes') initializes
  refine ⟨_,_,loaded before mapped',?_⟩
  have data : again.dataBlockSize = file.dataBlockSize := prepared'.dataBlockSize.trans prepared.dataBlockSize.symm
  have codeword : again.codewordBlockSize = file.codewordBlockSize :=
    prepared'.codewordBlockSize.trans prepared.codewordBlockSize.symm
  rw [alike.calls data]
  refine restores mapped' fun b block i byte => ?_
  obtain ⟨buffer',unpacked,decoded_⟩ := decodes b block
  have sized₂ : Sized { file with permutation := q', fileLoaded := true } after := ⟨sized'.length,sized'.room⟩
  rw [sized₂.gather] at unpacked
  rw [gather_bits same,alike.rawCapacity] at gathered
  obtain rfl := Except.ok.inj (gathered.symm.trans unpacked)
  have block_ : { again with permutation := q' }.extractedBlock e buffer b = .ok (file.stored s b) := by
    rw [← decoded_,extractedBlock,extractedBlock]
    simp only [codeword]
  simp [decoded,block_,Except.toOption,stored,List.getD_eq_getElem?_getD,byte]

end PacketCarrier

/-! ### Matroska -/

namespace CarrierFileMKV
open CarrierFile CarrierFileMPEG PacketCarrier

variable {c c' : Container} {buffer : MemoryBuffer}

theorem loadBuffer_ok (some_ : 0 < calculateCapacity c) : loadBuffer c (calculateCapacity c) =
    .ok (((c.packets.map Prod.snd).take (calculateCapacity c * 8)).map lowByte) := by
  have whole : calculateCapacity c * 8 ≤ c.packets.length := Nat.div_mul_le_self _ _
  have length : (((c.packets.map Prod.snd).take (calculateCapacity c * 8)).map lowByte).length = calculateCapacity c * 8 := by
    rw [List.length_map,List.length_take,List.length_map,min_eq_left whole]
  have room : 0 < (List.replicate (calculateCapacity c * 8) (0 : UInt8)).length := by rw [List.length_replicate]; omega
  have ran : readPackets (fun _ => true) (c.packets.map Prod.snd) _ 0 = _ := readPackets_ok room
  rw [List.filter_true,List.length_replicate,Nat.sub_zero] at ran
  rw [loadBuffer,ran,ok_bind,VirtualStorage.splice,length,List.drop_eq_nil_of_le (by rw [List.length_replicate]; omega)]
  simp

theorem writePackets_total {offset : Nat} (room : offset < buffer.length) (packets : List (Nat × AVPacket)) :
    ∃ after, writePackets buffer packets offset = .ok after := by
  induction packets generalizing offset with
  | nil => exact ⟨[],rfl⟩
  | cons head rest ih =>
    rw [writePackets,MemoryBuffer.at_of_lt room,ok_bind]
    by_cases full : offset + 1 = buffer.length
    · exact ⟨_,if_pos full⟩
    · obtain ⟨after,ran⟩ := ih (show offset + 1 < buffer.length by omega)
      exact ⟨_,by rw [if_neg full,ran,ok_bind]⟩

/-- The packets that were written are read with their bits. -/
theorem loadBuffer_saved (some_ : 0 < calculateCapacity c) (size : buffer.length = calculateCapacity c * 8)
    (saved : saveBuffer c buffer = .ok c') : calculateCapacity c' = calculateCapacity c ∧
      ∃ read, loadBuffer c' (calculateCapacity c) = .ok read ∧ read.map (· &&& 1) = buffer.map (· &&& 1) := by
  have packets : c'.packets.length = c.packets.length := by
    refine le_antisymm ?_ ?_
    · refine List.getElem?_eq_none_iff.mp ?_
      rw [saveBuffer_get saved,List.getElem?_eq_none le_rfl]
      rfl
    · refine List.getElem?_eq_none_iff.mp ?_
      have none_ := saveBuffer_get saved c'.packets.length
      rw [List.getElem?_eq_none le_rfl] at none_
      exact Option.map_eq_none_iff.mp none_.symm
  have capacity : calculateCapacity c' = calculateCapacity c := by rw [calculateCapacity,packets,calculateCapacity]
  refine ⟨capacity,_,capacity ▸ loadBuffer_ok (capacity ▸ some_),?_⟩
  have whole : calculateCapacity c * 8 ≤ c.packets.length := Nat.div_mul_le_self _ _
  refine List.ext_getElem? fun k => ?_
  rw [List.map_map,List.getElem?_map,List.getElem?_map]
  by_cases inside : k < calculateCapacity c * 8
  · have there := saveBuffer_get saved k
    rw [List.getElem?_eq_getElem (show k < c.packets.length by omega),
      List.getElem?_eq_getElem (show k < buffer.length by omega)] at there
    rw [List.getElem?_take_of_lt inside,List.getElem?_map,there,List.getElem?_eq_getElem (show k < buffer.length by omega)]
    have kept : ∀ packet : AVPacket, lowByte (correct packet) = lowByte packet := by
      intro packet
      unfold correct
      split <;> rfl
    simp [kept,lowByte_stamp]
  · rw [List.getElem?_eq_none (by rw [List.length_take]; omega),List.getElem?_eq_none (show buffer.length ≤ k by omega)]
    rfl

/-- Packets with the same presentation times give the same bytes. -/
theorem loadBuffer_congr (some_ : 0 < calculateCapacity c)
    (same : c'.packets.map (fun packet => packet.2.pts) = c.packets.map fun packet => packet.2.pts) :
    calculateCapacity c' = calculateCapacity c ∧ loadBuffer c' (calculateCapacity c) = loadBuffer c (calculateCapacity c) := by
  have packets : c'.packets.length = c.packets.length := by
    simpa only [List.length_map] using congrArg List.length same
  have capacity : calculateCapacity c' = calculateCapacity c := by rw [calculateCapacity,packets,calculateCapacity]
  have bytes : ∀ (c : Container) (n : Nat), ((c.packets.map Prod.snd).take n).map CarrierFileMPEG.lowByte =
      ((c.packets.map fun packet => packet.2.pts).take n).map UInt64.toUInt8 := by
    intro c n
    rw [List.map_take,List.map_take,List.map_map,List.map_map]
    rfl
  refine ⟨capacity,?_⟩
  rw [loadBuffer_ok some_,bytes,← same,← bytes,← capacity,loadBuffer_ok (capacity ▸ some_)]

/-- `SaveFile` on a Matroska file hands packets to `Save`. It returns on a file that is well made, and whenever it
    returns, what was saved is loaded from the file. -/
theorem matroska_restores {env : Environment} {e : Encoder} {file : CarrierFile} {s : VirtualStorage} {n : Nat} {g : Nat → Nat}
    (av : Muxer) (raw : file.rawCapacity = calculateCapacity c) (room : c.packets.length < addressSpace)
    (prepared : Prepared env e file) (used : file.blocksUsed ≤ file.blockCount) (blocks : 0 < file.blocksUsed)
    (mapped : s.Mapped n g) : ∃ file' handed bytes, saveBuffer c bytes = .ok handed ∧
      saveFile env av file c s = (file',ContainerHandler.save av file.file.pathName handed) ∧
      (av.Documented false → c.StrictlyTimed → c.Dated → saveFile env av file c s = (file',.ok (av.reads handed))) ∧
      (av.KeepsPresentation → ∀ c', saveFile env av file c s = (file',.ok c') → calculateCapacity c' = file.rawCapacity ∧
        ∀ again : CarrierFile, Prepared env e again → Alike again file →
          ∀ n' g' (before : VirtualStorage), before.Mapped n' g' → ∃ again' restored,
            loadFile env again c' before = ((again',restored),.ok ()) ∧ Restores file s n' before restored) := by
  have some_ : 0 < calculateCapacity c := raw ▸ prepared.positive
  have whole : calculateCapacity c * 8 ≤ c.packets.length := Nat.div_mul_le_self _ _
  have gives := loadBuffer_ok some_
  rw [← raw] at gives whole
  have length : (((c.packets.map Prod.snd).take (file.rawCapacity * 8)).map lowByte).length = file.rawCapacity * 8 := by
    rw [List.length_map,List.length_take,List.length_map,min_eq_left whole]
  obtain ⟨file',after,sized,saved,loads⟩ :=
    PacketCarrier.bytes_restored ⟨length,by rw [length]; exact whole.trans_lt room⟩ prepared used blocks gives mapped
  have room' : 0 < after.length := by rw [sized.length]; have := prepared.positive; omega
  obtain ⟨packets,written⟩ := writePackets_total room' c.packets
  have stored : saveBuffer c after = .ok { c with packets := packets } := by rw [saveBuffer,written,ok_bind]
  have ends : saveFile env av file c s = (file',ContainerHandler.save av file.file.pathName { c with packets := packets }) := by
    rw [saveFile,saved,stored,ok_bind]
  refine ⟨file',{ c with packets := packets },after,stored,ends,?_,?_⟩
  · intro documented legal dated
    rw [ends,Muxer.save_eq_ok.mpr ⟨saveBuffer_writes documented legal dated stored,rfl⟩]
  · intro keeps c' returned
    rw [ends] at returned
    obtain ⟨writes,rfl⟩ := Muxer.save_eq_ok.mp (congrArg Prod.snd returned)
    obtain ⟨capacity,read,found,same⟩ := loadBuffer_saved some_ (raw ▸ sized.length) stored
    obtain ⟨capacity',found'⟩ := loadBuffer_congr (capacity ▸ some_) (keeps _ writes)
    rw [capacity] at capacity' found'
    refine ⟨capacity'.trans raw.symm,?_⟩
    intro again prepared' alike n' g' before mapped'
    exact loads again prepared' alike _ read (raw ▸ found'.trans found) same n' g' before mapped'

/-- A carrier of one byte without an encoding. -/
def byteCarrier : CarrierFile where
  file := ⟨[],[97,46,109,107,118]⟩
  rawCapacity := 1
  permutation := .fresh .identity
  encoder := some (.ofType .lsb)
  dataBlockSize := 1
  codewordBlockSize := 1
  blockCount := 1
  capacity := 1
  blocksUsed := 1
  subkey := some Hash.initial

theorem byteCarrier_prepared : Prepared Permutation.twoPrimes (.ofType .lsb) byteCarrier :=
  ⟨by decide,rfl,rfl,rfl,rfl,⟨8,rfl,by decide,by decide⟩,.inl rfl⟩

theorem ticking_dated : (ContainerClass.ticking 2).Dated := by
  intro packet member
  obtain ⟨k,there⟩ := List.mem_iff_getElem?.mp member
  obtain ⟨inside,rfl⟩ := ContainerClass.ticking_at there
  simp only
  rw [ContainerClass.signed_ofNat (by omega)]
  omega

/-- A byte is saved into eight packets of a Matroska file, and loaded. -/
theorem matroska_restores_eight : ∃ file' c', saveFile Permutation.twoPrimes (Muxer.byTimes false) byteCarrier
      (ContainerClass.ticking 2) (.ofZeros 33) = (file',.ok c') ∧
    ∃ again' restored, loadFile Permutation.twoPrimes byteCarrier c' (.ofZeros 33) = ((again',restored),.ok ()) ∧
      Restores byteCarrier (.ofZeros 33) 33 (.ofZeros 33) restored := by
  have mapped := VirtualStorage.ofZeros_mapped (show 33 < addressSpace by decide)
  obtain ⟨file',handed,_,_,_,returns,loads⟩ := matroska_restores (c := ContainerClass.ticking 2) (Muxer.byTimes false) rfl
    (by decide) byteCarrier_prepared le_rfl (by decide) mapped
  have saved := returns (Muxer.byTimes_documented false) (ContainerClass.ticking_legal (by decide) (by decide)) ticking_dated
  have keeps : (Muxer.byTimes false).KeepsPresentation := fun _ _ => rfl
  exact ⟨file',_,saved,
    (loads keeps _ saved).2 byteCarrier byteCarrier_prepared ⟨rfl,rfl,rfl,rfl,rfl,rfl⟩ 33 _ _ mapped⟩

end CarrierFileMKV

/-! ### MPEG -/

namespace CarrierFileMPEG
open CarrierFile PacketCarrier

variable {c : Container} {h : ContainerHandler}

theorem streams_length (c : Container) : (c.stream .video).length + (c.stream .audio).length ≤ c.packets.length := by
  obtain ⟨streamType,packets⟩ := c
  induction packets with
  | nil => exact le_rfl
  | cons head rest ih =>
    rw [Container.stream_cons,Container.stream_cons]
    cases type : streamType head.1 <;> simp at ih ⊢ <;> omega

/-- `SaveFile` on an MPEG file hands packets to `Save`. On a file that is well made it returns as long as the packets keep
    their places, and apart where the format is strict; and whenever it returns, what was saved is loaded from the file,
    if the guess whether there are B-frames is the same again. -/
theorem mpeg_restores {env : Environment} {e : Encoder} {file : CarrierFile} {s : VirtualStorage} {n : Nat} {g : Nat → Nat}
    (av : Muxer) (opened : c.load none = .ok h) (raw : file.rawCapacity = calculateCapacity h) (gathers : Gathers h)
    (room : c.packets.length < addressSpace) (prepared : Prepared env e file) (used : file.blocksUsed ≤ file.blockCount)
    (blocks : 0 < file.blocksUsed) (mapped : s.Mapped n g) : ∃ file' handed bytes,
      saveContainer c h.hasBFrames bytes = .ok handed ∧
      saveFile env av file c h.hasBFrames s = (file',ContainerHandler.save av file.file.pathName handed) ∧
      (∀ strict, av.Documented strict → c.StrictlyTimed → c.Dated →
        (if strict then c.KeepsApart h.hasBFrames bytes else c.KeepsPlaces h.hasBFrames bytes) →
          saveFile env av file c h.hasBFrames s = (file',.ok (av.reads handed))) ∧
      (av.Keeps → (h.hasBFrames = true → c.StaysFar h.hasBFrames bytes) →
        ∀ c', saveFile env av file c h.hasBFrames s = (file',.ok c') → ∃ h', c'.load none = .ok h' ∧
          calculateCapacity h' = file.rawCapacity ∧ ∀ again : CarrierFile, Prepared env e again → Alike again file →
            ∀ n' g' (before : VirtualStorage), before.Mapped n' g' → ∃ again' restored,
              loadFile env again h' before = ((again',restored),.ok ()) ∧ Restores file s n' before restored) := by
  obtain ⟨hasBFrames,rfl⟩ : ∃ hasBFrames, h = c.handler hasBFrames := ⟨_,(Container.load_ok.mp opened).2⟩
  obtain ⟨buffer,gives,length,_⟩ := gathers.loads
  have few : calculateCapacity (c.handler hasBFrames) * 8 ≤ c.packets.length := by
    have streams := streams_length c
    have used := List.length_filter_le (usable (c.handler hasBFrames)) (c.stream .video)
    have whole := Nat.div_mul_le_self (usablePackets (c.handler hasBFrames)).length 8
    rw [calculateCapacity_eq]
    refine whole.trans ?_
    rw [usablePackets_handler,List.length_append]
    omega
  rw [← raw] at gives few length
  rw [Nat.mul_comm] at length
  obtain ⟨file',after,sized,saved,loads⟩ :=
    PacketCarrier.bytes_restored ⟨length,by rw [length]; exact few.trans_lt room⟩ prepared used blocks gives mapped
  have size : after.length = 8 * calculateCapacity (c.handler hasBFrames) := by rw [sized.length,raw,Nat.mul_comm]
  obtain ⟨handed,stored⟩ : ∃ handed, saveContainer c hasBFrames after = .ok handed :=
    ⟨_,by rw [saveContainer,gathers.saves after size,ok_bind]⟩
  simp only [Container.handler_hasBFrames]
  have ends : saveFile env av file c hasBFrames s = (file',ContainerHandler.save av file.file.pathName handed) := by
    rw [saveFile,saved,stored,ok_bind]
  refine ⟨file',handed,after,stored,ends,?_,?_⟩
  · intro strict documented legal dated places
    rw [ends,Muxer.save_eq_ok.mpr ⟨saveContainer_writes documented legal dated stored places,rfl⟩]
  · intro keeps far c' returned
    rw [ends] at returned
    obtain ⟨writes,rfl⟩ := Muxer.save_eq_ok.mp (congrArg Prod.snd returned)
    rw [keeps _ writes]
    obtain ⟨h',read,guessed,_,capacity,_,found,_,same⟩ := Container.survives_of_guess opened size stored far
    refine ⟨h',guessed,capacity.trans raw.symm,?_⟩
    intro again prepared' alike n' g' before mapped'
    rw [capacity,← raw] at found
    exact loads again prepared' alike _ read found same n' g' before mapped'

/-- Steps of two keep packets apart. -/
theorem ticking_apart (hasBFrames : Bool) (buffer : MemoryBuffer) : (ContainerClass.ticking 2).KeepsApart hasBFrames buffer := by
  rintro i j a b x ⟨below,here,there,_⟩ _ _
  obtain ⟨first,rfl⟩ := ContainerClass.ticking_at here
  obtain ⟨second,rfl⟩ := ContainerClass.ticking_at there
  simp only
  rw [ContainerClass.signed_ofNat (by omega),ContainerClass.signed_ofNat (by omega)]
  exact ⟨fun y _ => by omega,fun _ => by omega⟩

/-- A carrier of one byte in an MP4 file. -/
def mp4Carrier : CarrierFile := { CarrierFileMKV.byteCarrier with file := ⟨[],[97,46,109,112,52]⟩ }

theorem mpeg_restores_eight : ∃ file' c',
    saveFile Permutation.twoPrimes (Muxer.byTimes true) mp4Carrier (ContainerClass.ticking 2) false (.ofZeros 33) =
      (file',.ok c') ∧ ∃ h' again' restored, c'.load none = .ok h' ∧
        loadFile Permutation.twoPrimes mp4Carrier h' (.ofZeros 33) = ((again',restored),.ok ()) ∧
          Restores mp4Carrier (.ofZeros 33) 33 (.ofZeros 33) restored := by
  have mapped := VirtualStorage.ofZeros_mapped (show 33 < addressSpace by decide)
  have prepared : Prepared Permutation.twoPrimes (.ofType .lsb) mp4Carrier :=
    ⟨by decide,rfl,rfl,rfl,rfl,⟨8,rfl,by decide,by decide⟩,.inl rfl⟩
  obtain ⟨file',handed,bytes,_,_,returns,loads⟩ := mpeg_restores (c := ContainerClass.ticking 2)
    (h := (ContainerClass.ticking 2).handler false) (Muxer.byTimes true) rfl rfl (gathers_of_silence (by decide) rfl)
    (by decide) prepared le_rfl (by decide) mapped
  have saved := returns true (Muxer.byTimes_documented true) (ContainerClass.ticking_legal (by decide) (by decide))
    CarrierFileMKV.ticking_dated (ticking_apart false bytes)
  obtain ⟨h',guessed,_,restores⟩ := loads (Muxer.byTimes_keeps true) nofun _ saved
  obtain ⟨again',restored,ran,kept⟩ := restores _ prepared ⟨rfl,rfl,rfl,rfl,rfl,rfl⟩ 33 _ _ mapped
  exact ⟨file',_,saved,h',again',restored,guessed,ran,kept⟩

end CarrierFileMPEG
end StegoDisk
