import StegoDisk.LoadTasks
import StegoDisk.Prepared
import StegoDisk.StorageInvariant

/-!
The blocks of a carrier's buffer and the bytes of the storage: what is embedded in the
blocks is what they are decoded to afterwards, and what they are decoded to is written to
the positions of the carrier.
-/
namespace StegoDisk
open Loops Segments Feistel

namespace VirtualStorage

/-- The byte at a position, as carriers see it. -/
def byteAt (s : VirtualStorage) (p : Nat) : UInt8 := (CarrierFile.readOrZero s p).toOption.getD 0

variable {s : VirtualStorage} {n : Nat} {f : Nat → Nat}

theorem Mapped.readOrZero (mapped : s.Mapped n f) (p : Nat) : CarrierFile.readOrZero s p = .ok (s.byteAt p) := by
  obtain ⟨data,holds,_⟩ := mapped.holds
  by_cases inside : p < n
  · simp [byteAt,CarrierFile.readOrZero,mapped.readByte holds inside,Except.toOption]
  · simp [byteAt,CarrierFile.readOrZero,mapped.readByte_beyond (Nat.not_lt.mp inside),Except.toOption]

theorem Mapped.byteAt_eq (mapped : s.Mapped n f) {data : MemoryBuffer} (holds : s.data = some data) {p : Nat}
    (inside : p < n) : s.byteAt p = data.getD (f p) 0 := by
  simp [byteAt,CarrierFile.readOrZero,mapped.readByte holds inside,Except.toOption]

/-- The bytes of all positions are the buffer. -/
theorem Mapped.ext {s' : VirtualStorage} (mapped : s.Mapped n f) (mapped' : s'.Mapped n f) {data data' : MemoryBuffer}
    (holds : s.data = some data) (holds' : s'.data = some data') (same : ∀ p < n, s.byteAt p = s'.byteAt p) : data = data' := by
  obtain ⟨held,there,length⟩ := mapped.holds
  obtain rfl := Option.some.inj (there.symm.trans holds)
  obtain ⟨held',there',length'⟩ := mapped'.holds
  obtain rfl := Option.some.inj (there'.symm.trans holds')
  apply List.ext_getElem (by omega)
  intro q left right
  obtain ⟨p,inside,rfl⟩ := mapped.permutes.onto (show q < n by omega)
  have bytes := same p inside
  rw [mapped.byteAt_eq holds inside,mapped'.byteAt_eq holds' inside] at bytes
  simpa [List.getD_eq_getElem,left,right] using bytes

theorem Mapped.put_byteAt (mapped : s.Mapped n f) (call : Call) {p : Nat} (inside : p < n) :
    (s.put call).byteAt p = if call.1 = p then call.2 else s.byteAt p := by
  obtain ⟨data,holds,length⟩ := mapped.holds
  have after := mapped.put_eq holds call
  rw [(mapped.put call).byteAt_eq (by rw [after]) inside,mapped.byteAt_eq holds inside]
  have below := mapped.permutes.lt inside
  by_cases here : call.1 = p
  · rw [if_pos (by omega),here,if_pos rfl,Bits.getD_set data (by omega),if_pos rfl]
  · by_cases other : call.1 < n
    · have apart : f p ≠ f call.1 := fun same => here (mapped.permutes.inj other inside same.symm)
      rw [if_pos other,if_neg here,Bits.getD_set data (by have := mapped.permutes.lt other; omega),if_neg apart]
    · rw [if_neg other,if_neg here]

/-- Calls that give a position one value leave it there. -/
theorem Mapped.replay_byteAt (mapped : s.Mapped n f) {calls : List Call} {p : Nat} (inside : p < n) {value : UInt8}
    (agree : ∀ call ∈ calls, call.1 = p → call.2 = value) (written : s.byteAt p = value ∨ ∃ call ∈ calls, call.1 = p) :
    (s.replay calls).byteAt p = value := by
  induction calls generalizing s with
  | nil =>
    show s.byteAt p = value
    simpa using written
  | cons call rest ih =>
    refine ih (mapped.put call) (fun c member => agree c (List.mem_cons_of_mem _ member)) ?_
    rw [mapped.put_byteAt call inside]
    by_cases here : call.1 = p
    · exact .inl (by rw [if_pos here]; exact agree call List.mem_cons_self here)
    · rw [if_neg here]
      rcases written with before | ⟨c,member,there⟩
      · exact .inl before
      · rcases List.mem_cons.mp member with rfl | later
        · exact absurd there here
        · exact .inr ⟨c,later,there⟩

/-- Calls for other positions leave a byte as it was. -/
theorem Mapped.replay_other (mapped : s.Mapped n f) {calls : List Call} {p : Nat} (inside : p < n)
    (others : ∀ call ∈ calls, call.1 ≠ p) : (s.replay calls).byteAt p = s.byteAt p :=
  mapped.replay_byteAt inside (fun call member here => absurd here (others call member)) (.inl rfl)

end VirtualStorage

namespace CarrierFile

/-- The bytes of the storage that block `b` carries. -/
def stored (file : CarrierFile) (s : VirtualStorage) (b : Nat) : List UInt8 :=
  (List.range file.dataBlockSize).map fun i => s.byteAt (file.position b i)

/-- An encoder that fits the sizes of the carrier, with blocks that fit in the buffer. -/
structure Encodes (file : CarrierFile) (e : Encoder) (length : Nat) : Prop where
  encoder : file.encoder = some e
  dataBlockSize : file.dataBlockSize = e.dataBlockSize
  codewordBlockSize : file.codewordBlockSize = e.codewordBlockSize
  blocks : file.blocksUsed * e.codewordBlockSize ≤ length
  some_ : 0 < length

variable {file : CarrierFile} {e : Encoder} {length : Nat} {s : VirtualStorage} {n : Nat} {f : Nat → Nat}

theorem Encodes.block (encodes : file.Encodes e length) {b : Nat} (used : b < file.blocksUsed) :
    b * file.codewordBlockSize + e.codewordBlockSize ≤ length := by
  have whole := (Nat.mul_le_mul_right e.codewordBlockSize (show b + 1 ≤ file.blocksUsed from used)).trans encodes.blocks
  rw [encodes.codewordBlockSize,← Nat.succ_mul]
  exact whole

theorem blockAt_ok {buffer : MemoryBuffer} {start width : Nat} (positive : 0 < width)
    (inside : start + width ≤ buffer.length) : blockAt buffer start width = .ok ((buffer.drop start).take width) := by
  rw [blockAt,MemoryBuffer.at_of_lt (by omega),ok_bind,if_pos inside]

theorem blockAt_inv {buffer slice : MemoryBuffer} {start width : Nat} (ran : blockAt buffer start width = .ok slice) :
    start + width ≤ buffer.length ∧ slice = (buffer.drop start).take width ∧ slice.length = width := by
  obtain ⟨_,_,sliced⟩ := bind_eq_ok.mp ran
  split at sliced
  · rename_i inside
    obtain rfl := Except.ok.inj sliced
    refine ⟨inside,rfl,?_⟩
    rw [List.length_take,List.length_drop]
    omega
  · cases sliced

/-- A block is decoded from its own bytes. -/
theorem extractedBlock_congr {buffer buffer' : MemoryBuffer} {b : Nat} (same : buffer.length = buffer'.length)
    (inside : b * file.codewordBlockSize + e.codewordBlockSize ≤ buffer.length)
    (bytes : ∀ j, b * file.codewordBlockSize ≤ j → j < b * file.codewordBlockSize + e.codewordBlockSize →
      buffer.getD j 0 = buffer'.getD j 0) : file.extractedBlock e buffer b = file.extractedBlock e buffer' b := by
  have positive := e.codewordBlockSize_pos
  have slices : (buffer.drop (b * file.codewordBlockSize)).take e.codewordBlockSize =
      (buffer'.drop (b * file.codewordBlockSize)).take e.codewordBlockSize := by
    apply List.ext_getElem (by simp; omega)
    intro j left right
    simp only [List.length_take,List.length_drop] at left right
    have byte := bytes (b * file.codewordBlockSize + j) (by omega) (by omega)
    rw [List.getD_eq_getElem _ _ (by omega),List.getD_eq_getElem _ _ (by omega)] at byte
    simpa using byte
  rw [extractedBlock,extractedBlock,blockAt_ok positive inside,blockAt_ok positive (by omega),slices]

theorem extractedBlock_ok (encodes : file.Encodes e length) {buffer : MemoryBuffer} (whole : buffer.length = length)
    {b : Nat} (used : b < file.blocksUsed) :
    ∃ data, file.extractedBlock e buffer b = .ok data ∧ data.length = file.dataBlockSize := by
  have inside := encodes.block used
  rw [extractedBlock,blockAt_ok e.codewordBlockSize_pos (by omega),ok_bind,encodes.dataBlockSize]
  exact e.extract_total (by simp; omega)

/-! ### Extracting -/

/-- Extracting the blocks of a buffer writes all their bytes to the positions of the carrier. -/
theorem extractBufferUsingEncoder_ok (encodes : file.Encodes e length) {buffer : MemoryBuffer}
    (whole : buffer.length = length) (mapped : s.Mapped n f) :
    file.extractBufferUsingEncoder buffer s =
      (s.replay (file.calls (file.decoded e buffer)),.ok (if file.blocksUsed = 0 then -4 else 0)) := by
  have some_ := encodes.some_
  have width : file.codewordBlockSize ≠ 0 := by
    have := e.codewordBlockSize_pos
    rw [encodes.codewordBlockSize]
    omega
  simp only [extractBufferUsingEncoder,show buffer.length ≠ 0 by omega,encodes.encoder,width,if_false]
  by_cases unused : file.blocksUsed = 0
  · simp [unused,calls,VirtualStorage.replay]
  have block : ∀ b ∈ List.range file.blocksUsed, ∀ s : VirtualStorage, s.Mapped n f → file.extractBlock e buffer s b =
      (s.replay ((List.range file.dataBlockSize).flatMap fun i => [(file.position b i,file.decoded e buffer b i)]),
        .ok ()) := by
    intro b member s mapped
    obtain ⟨data,decode,size⟩ := extractedBlock_ok encodes whole (List.mem_range.mp member)
    simp only [extractBlock,decode]
    refine forEach_total (fun s call (held : VirtualStorage.Mapped s n f) => held.put call) ?_ mapped
    intro i inside s mapped
    have below : i < data.length := by rw [size]; exact List.mem_range.mp inside
    have value : file.decoded e buffer b i = data[i] := by
      simp [decoded,decode,Except.toOption,List.getD_eq_getElem?_getD,below]
    simp only [MemoryBuffer.at_of_lt below,value]
    exact mapped.writeOrSkip (file.position b i,data[i])
  rw [if_neg unused,if_neg unused,
    forEach_total (fun s call (held : VirtualStorage.Mapped s n f) => held.put call) block mapped]
  rfl

/-! ### Embedding -/

theorem stored_ok (mapped : s.Mapped n f) (b : Nat) :
    (List.range file.dataBlockSize).mapM (fun i => readOrZero s (file.position b i)) = .ok (file.stored s b) := by
  simp only [mapped.readOrZero,stored]
  exact mapM_ok fun _ _ => rfl

/-- Embedding a block changes that block alone, and it is decoded to the bytes of the storage. -/
theorem embedBlock_ok (encodes : file.Encodes e length) {buffer : MemoryBuffer} (whole : buffer.length = length)
    (mapped : s.Mapped n f) {b : Nat} (used : b < file.blocksUsed) :
    ∃ after, file.embedBlock e s buffer b = .ok after ∧ after.length = length ∧
      file.extractedBlock e after b = .ok (file.stored s b) ∧
      ∀ j, ¬ (b * file.codewordBlockSize ≤ j ∧ j < b * file.codewordBlockSize + e.codewordBlockSize) →
        after.getD j 0 = buffer.getD j 0 := by
  have inside := encodes.block used
  have positive := e.codewordBlockSize_pos
  obtain ⟨codeword,embedded,width,extracted⟩ := e.embed_extract
    (show ((buffer.drop (b * file.codewordBlockSize)).take e.codewordBlockSize).length = _ by simp; omega)
    (show (file.stored s b).length = e.dataBlockSize by simp [stored,encodes.dataBlockSize])
  have room : b * file.codewordBlockSize + codeword.length ≤ buffer.length := by omega
  have size := (VirtualStorage.splice_length room).trans whole
  refine ⟨VirtualStorage.splice buffer (b * file.codewordBlockSize) codeword,?_,size,?_,?_⟩
  · rw [embedBlock,stored_ok mapped,ok_bind,blockAt_ok positive (by omega),ok_bind,embedded,ok_bind]
  · rw [extractedBlock,blockAt_ok positive (by omega),ok_bind,← extracted]
    rw [← width,VirtualStorage.splice_block _ _ room]
  · intro j outside
    rw [VirtualStorage.splice_getD _ _ room,if_neg (by rw [width]; exact outside)]

/-- An embedding that returns keeps the size of the buffer. -/
theorem embedBufferUsingEncoder_length {buffer after : MemoryBuffer} (ran : file.embedBufferUsingEncoder buffer s = .ok after) :
    after.length = buffer.length := by
  unfold embedBufferUsingEncoder at ran
  split at ran
  · cases ran
  split at ran
  · cases ran
  split at ran
  · cases ran
  split at ran
  · cases ran
  rename_i e _ _ _
  refine foldlM_keeps (fun (bytes : MemoryBuffer) => bytes.length = buffer.length) ?_ ran rfl
  intro b before after stepped same
  obtain ⟨data,_,rest⟩ := bind_eq_ok.mp stepped
  obtain ⟨codeword,sliced,rest⟩ := bind_eq_ok.mp rest
  obtain ⟨codeword',embedded,last⟩ := bind_eq_ok.mp rest
  obtain rfl := Except.ok.inj last
  obtain ⟨inside,_,width⟩ := blockAt_inv sliced
  have kept := Encoder.embed_length embedded
  exact (VirtualStorage.splice_length (by omega)).trans same

/-- After embedding, every block that is used is decoded to the bytes of the storage. -/
theorem embedBufferUsingEncoder_ok (encodes : file.Encodes e length) {buffer : MemoryBuffer}
    (whole : buffer.length = length) (mapped : s.Mapped n f) (blocks : 0 < file.blocksUsed) :
    ∃ after, file.embedBufferUsingEncoder buffer s = .ok after ∧ after.length = length ∧
      ∀ b < file.blocksUsed, file.extractedBlock e after b = .ok (file.stored s b) := by
  have some_ := encodes.some_
  have positive := e.codewordBlockSize_pos
  have width : file.codewordBlockSize ≠ 0 := by
    rw [encodes.codewordBlockSize]
    omega
  simp only [embedBufferUsingEncoder,show buffer.length ≠ 0 by omega,encodes.encoder,width,
    show file.blocksUsed ≠ 0 by omega,if_false]
  refine foldlM_range (fun i (after : MemoryBuffer) => after.length = length ∧
    ∀ b < i, file.extractedBlock e after b = .ok (file.stored s b)) ⟨whole,by simp⟩ ?_
  rintro c used after ⟨size,embedded⟩
  obtain ⟨after',ran,size',own,others⟩ := embedBlock_ok encodes size mapped used
  refine ⟨after',ran,size',?_⟩
  intro b upto
  rcases Nat.lt_succ_iff_lt_or_eq.mp upto with before | rfl
  · have inside := encodes.block (show b < file.blocksUsed by omega)
    rw [← embedded b before]
    apply extractedBlock_congr (size'.trans size.symm) (by omega)
    intro j _ high
    apply others
    -- block `b` ends where the next one begins
    have next := Nat.mul_le_mul_right file.codewordBlockSize (show b + 1 ≤ c from before)
    rw [Nat.succ_mul] at next
    have same := encodes.codewordBlockSize
    omega
  · exact own

end CarrierFile
end StegoDisk
