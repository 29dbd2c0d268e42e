import StegoDisk.StorageInvariant

/-!
`carrier_files/carrier_file_mpeg.cc`: the bytes of the buffer are taken from the packets of the
video stream and then from those of the audio stream, one byte each, until the buffer is
full. The loop over a stream ends there, but the loop over the next one begins anyway. What
libavformat does with the packets, and their other members, are left out.
-/
namespace StegoDisk
open VirtualStorage

/-- Presentation and decoding time of a packet, as the 64 bits of an `int64_t`. -/
structure AVPacket where
  pts : UInt64
  dts : UInt64
  deriving DecidableEq

/-- The streams of `ContainerHandler::GetStreamData` that are used, where they exist. -/
structure ContainerHandler where
  video : Option (List AVPacket) := none
  audio : Option (List AVPacket) := none
  hasBFrames : Bool := false

namespace CarrierFileMPEG

/-- `CarrierFileMPEG::ModifyLSB`. -/
def modifyLSB (value lsb : UInt64) : UInt64 := (value &&& 0xFFFFFFFFFFFFFFFE) ||| lsb

/-- `CarrierFileMPEG::GetTestValues`. -/
def getTestValues (packet : AVPacket) : UInt64 × UInt64 × UInt64 :=
  (modifyLSB packet.pts 0,modifyLSB packet.pts 1,packet.dts)

/-- Neither value of the lowest bit puts the packet before its decoding time. -/
def applicable (packet : AVPacket) : Bool :=
  let (zeroPts,onePts,dts) := getTestValues packet
  zeroPts ≥ dts && onePts ≥ dts

/-- The packets of the video stream that are used. -/
def usable (h : ContainerHandler) (packet : AVPacket) : Bool := !h.hasBFrames || applicable packet

/-- `CarrierFileMPEG::CalculateCapacity`. -/
def calculateCapacity (h : ContainerHandler) : Nat :=
  let video := match h.video with
    | none => 0
    | some packets => if h.hasBFrames then packets.countP applicable else packets.length
  let audio := match h.audio with
    | none => 0
    | some packets => packets.length
  (video + audio) / 8

/-- The byte that a packet gives. -/
def lowByte (packet : AVPacket) : UInt8 := packet.pts.toUInt8

/-- `CarrierFileMPEG::ReadByte`: the buffer and the offset after it, and whether there is room left. -/
def readByte (packet : AVPacket) (buffer : MemoryBuffer) (offset : Nat) : Except Failure (MemoryBuffer × Nat × Bool) :=
  if offset + 1 > buffer.length then .error (.thrown (.outOfRange "MemoryBuffer: write: offset + length > size"))
  else .ok (buffer.set offset (lowByte packet),offset + 1,offset + 1 != buffer.length)

/-- The loop of `LoadBuffer` over a stream. -/
def readPackets (used : AVPacket → Bool) : List AVPacket → MemoryBuffer → Nat → Except Failure (MemoryBuffer × Nat)
  | [],buffer,offset => .ok (buffer,offset)
  | packet::rest,buffer,offset =>
    if used packet then do
      let (buffer,offset,more) ← readByte packet buffer offset
      if more then readPackets used rest buffer offset else .ok (buffer,offset)
    else readPackets used rest buffer offset

/-- `CarrierFileMPEG::LoadBuffer`. -/
def loadBuffer (h : ContainerHandler) (rawCapacity : Nat) : Except Failure MemoryBuffer := do
  let (buffer,offset) ← readPackets (usable h) (h.video.getD []) (List.replicate (rawCapacity * 8) 0) 0
  let (buffer,_) ← readPackets (fun _ => true) (h.audio.getD []) buffer offset
  .ok buffer

/-- The packet with the lowest bit of a byte in its presentation time. -/
def stamp (updateDts : Bool) (packet : AVPacket) (byte : UInt8) : AVPacket :=
  let pts := (packet.pts &&& 0xFFFFFFFFFFFFFFFE) ||| (byte &&& 1).toUInt64
  { pts := pts, dts := if updateDts then pts else packet.dts }

/-- `CarrierFileMPEG::WriteByte`. -/
def writeByte (packet : AVPacket) (buffer : MemoryBuffer) (offset : Nat) (updateDts : Bool) :
    Except Failure (AVPacket × Nat × Bool) := do
  let byte ← buffer.at offset
  .ok (stamp updateDts packet byte,offset + 1,offset + 1 != buffer.length)

/-- The loop of `SaveBuffer` over a stream. -/
def writePackets (used : AVPacket → Bool) (updateDts : Bool) (buffer : MemoryBuffer) :
    List AVPacket → Nat → Except Failure (List AVPacket × Nat)
  | [],offset => .ok ([],offset)
  | packet::rest,offset =>
    if used packet then do
      let (packet,offset,more) ← writeByte packet buffer offset updateDts
      if more then do
        let (rest,offset) ← writePackets used updateDts buffer rest offset
        .ok (packet::rest,offset)
      else .ok (packet::rest,offset)
    else do
      let (rest,offset) ← writePackets used updateDts buffer rest offset
      .ok (packet::rest,offset)

/-- `CarrierFileMPEG::SaveBuffer` up to the call that writes the file. -/
def saveBuffer (h : ContainerHandler) (buffer : MemoryBuffer) : Except Failure ContainerHandler := do
  let (video,offset) ← writePackets (usable h) (!h.hasBFrames) buffer (h.video.getD []) 0
  let (audio,_) ← writePackets (fun _ => true) true buffer (h.audio.getD []) offset
  .ok { h with video := h.video.map fun _ => video, audio := h.audio.map fun _ => audio }

/-! ### One stream -/

variable {used : AVPacket → Bool} {updateDts : Bool}

theorem splice_set {buffer : MemoryBuffer} {offset : Nat} (inside : offset < buffer.length) (value : UInt8)
    (rest : List UInt8) : splice (buffer.set offset value) (offset + 1) rest = splice buffer offset (value::rest) := by
  have front : (buffer.set offset value).take (offset + 1) = buffer.take offset ++ [value] := by
    rw [List.take_set,List.take_succ_eq_append_getElem inside,List.set_append_right _ _ (by simp)]
    simp [Nat.min_eq_left inside.le]
  have back : (buffer.set offset value).drop (offset + 1 + rest.length) = buffer.drop (offset + (rest.length + 1)) := by
    rw [List.drop_set_of_lt (by omega),Nat.add_assoc,Nat.add_comm 1]
  rw [splice,splice,front,back,List.length_cons,List.append_assoc,List.append_assoc,List.append_assoc]
  rfl

/-- The loop takes one byte from each packet that is used, as long as there is room. -/
theorem readPackets_ok {packets : List AVPacket} {buffer : MemoryBuffer} {offset : Nat} (room : offset < buffer.length) :
    readPackets used packets buffer offset =
      .ok (splice buffer offset (((packets.filter used).take (buffer.length - offset)).map lowByte),
        offset + min (packets.filter used).length (buffer.length - offset)) := by
  induction packets generalizing buffer offset with
  | nil => simp [readPackets,splice]
  | cons packet rest ih =>
    by_cases uses : used packet = true
    · simp only [readPackets,readByte,uses,if_true,List.filter_cons_of_pos,if_neg (show ¬ offset + 1 > buffer.length by omega),
        ok_bind]
      obtain ⟨left,more⟩ : ∃ left, buffer.length - offset = left + 1 := ⟨buffer.length - offset - 1,by omega⟩
      rw [more,List.take_succ_cons,List.map_cons,List.length_cons,← splice_set room]
      by_cases full : offset + 1 = buffer.length
      · obtain rfl : left = 0 := by omega
        simp [full,splice]
      · have longer : offset + 1 < (buffer.set offset (lowByte packet)).length := by rw [List.length_set]; omega
        rw [if_pos (by simpa using full),ih longer,List.length_set,show buffer.length - (offset + 1) = left by omega]
        congr 2
        omega
    · simp only [readPackets,uses,Bool.false_eq_true,if_false,List.filter_cons_of_neg,not_false_iff]
      exact ih room

/-- In a full buffer the first packet that is used is refused. -/
theorem readPackets_full {packet : AVPacket} {rest : List AVPacket} {buffer : MemoryBuffer} {offset : Nat}
    (full : buffer.length ≤ offset) (uses : used packet = true) : readPackets used (packet::rest) buffer offset =
      .error (.thrown (.outOfRange "MemoryBuffer: write: offset + length > size")) := by
  rw [readPackets,if_pos uses,readByte,if_pos (by omega)]
  rfl

/-- The packets after `SaveBuffer`: a packet that is used has a place in the buffer, behind those used before it,
    and gets the bit there, if the buffer is that long. -/
def visited (used : AVPacket → Bool) (updateDts : Bool) (buffer : MemoryBuffer) (offset : Nat) (packets : List AVPacket) :
    List AVPacket :=
  packets.mapIdx fun k packet =>
    if used packet = true ∧ offset + (packets.take k).countP used < buffer.length then
      stamp updateDts packet (buffer.getD (offset + (packets.take k).countP used) 0)
    else packet

theorem visited_cons (buffer : MemoryBuffer) (offset : Nat) (packet : AVPacket) (rest : List AVPacket) :
    visited used updateDts buffer offset (packet::rest) =
      (if used packet = true ∧ offset < buffer.length then stamp updateDts packet (buffer.getD offset 0) else packet)::
        visited used updateDts buffer (offset + if used packet then 1 else 0) rest := by
  simp only [visited,List.mapIdx_cons,List.take_zero,List.countP_nil,Nat.add_zero,List.take_succ_cons,List.countP_cons]
  congr 1
  apply List.mapIdx_eq_mapIdx_iff.mpr
  intro k _
  rw [Nat.add_comm (List.countP used (List.take k rest)),Nat.add_assoc]

theorem visited_full {buffer : MemoryBuffer} {offset : Nat} (full : buffer.length ≤ offset) (packets : List AVPacket) :
    visited used updateDts buffer offset packets = packets := by
  induction packets generalizing offset with
  | nil => rfl
  | cons packet rest ih => rw [visited_cons,ih (by omega),if_neg (by omega)]

theorem writePackets_ok {packets : List AVPacket} {buffer : MemoryBuffer} {offset : Nat} (room : offset < buffer.length) :
    writePackets used updateDts buffer packets offset = .ok (visited used updateDts buffer offset packets,
      offset + min (packets.filter used).length (buffer.length - offset)) := by
  induction packets generalizing offset with
  | nil => simp [writePackets,visited]
  | cons packet rest ih =>
    rw [visited_cons]
    by_cases uses : used packet = true
    · have byte : buffer.at offset = .ok (buffer.getD offset 0) := by
        simp [MemoryBuffer.at_of_lt room,List.getD_eq_getElem?_getD,room]
      simp only [writePackets,writeByte,uses,if_true,List.filter_cons_of_pos,byte,ok_bind,List.length_cons,true_and,if_pos room]
      by_cases full : offset + 1 = buffer.length
      · simp [full,visited_full]
        omega
      · rw [if_pos (by simpa using full),ih (by omega),ok_bind]
        congr 2
        omega
    · simp only [writePackets,uses,Bool.false_eq_true,if_false,List.filter_cons_of_neg,not_false_iff,false_and,Nat.add_zero,
        ih room,ok_bind]

/-- A full buffer has nothing for a packet that is used. -/
theorem writePackets_full {packets : List AVPacket} {buffer : MemoryBuffer} {offset stop : Nat} {after : List AVPacket}
    (full : buffer.length ≤ offset) (ran : writePackets used updateDts buffer packets offset = .ok (after,stop)) :
    packets.filter used = [] ∧ after = packets ∧ stop = offset := by
  induction packets generalizing after stop with
  | nil =>
    obtain ⟨rfl,rfl⟩ := Prod.mk.inj (Except.ok.inj ran)
    exact ⟨rfl,rfl,rfl⟩
  | cons packet rest ih =>
    by_cases uses : used packet = true
    · simp [writePackets,uses,writeByte,MemoryBuffer.at,List.getElem?_eq_none full] at ran
    · simp only [writePackets,uses,Bool.false_eq_true,if_false] at ran
      obtain ⟨⟨others,stop'⟩,before,last⟩ := bind_eq_ok.mp ran
      obtain ⟨rfl,rfl⟩ := Prod.mk.inj (Except.ok.inj last)
      obtain ⟨none_,rfl,rfl⟩ := ih before
      exact ⟨by rw [List.filter_cons_of_neg uses,none_],rfl,rfl⟩

/-! ### Both streams -/

/-- The packets that are used, in the order in which they are visited. -/
def usablePackets (h : ContainerHandler) : List AVPacket := (h.video.getD []).filter (usable h) ++ h.audio.getD []

/-- What a `SaveBuffer` that returns leaves. The video packets have left room in the buffer, or there are no others. -/
theorem saveBuffer_returns {h h' : ContainerHandler} {buffer : MemoryBuffer} (ran : saveBuffer h buffer = .ok h') :
    h' = { h with
      video := h.video.map (visited (usable h) (!h.hasBFrames) buffer 0)
      audio := h.audio.map (visited (fun _ => true) true buffer ((h.video.getD []).countP (usable h))) } ∧
    ((h.video.getD []).countP (usable h) < buffer.length ∨ h.audio.getD [] = []) := by
  obtain ⟨⟨video,offset⟩,first,rest⟩ := bind_eq_ok.mp ran
  obtain ⟨⟨audio,stop⟩,second,last⟩ := bind_eq_ok.mp rest
  obtain rfl := Except.ok.inj last
  have videos : video = visited (usable h) (!h.hasBFrames) buffer 0 (h.video.getD []) ∧
      offset = min ((h.video.getD []).countP (usable h)) buffer.length := by
    rw [List.countP_eq_length_filter]
    by_cases room : 0 < buffer.length
    · rw [writePackets_ok room] at first
      obtain ⟨rfl,rfl⟩ := Prod.mk.inj (Except.ok.inj first)
      exact ⟨rfl,by simp⟩
    · obtain ⟨none_,rfl,rfl⟩ := writePackets_full (by omega) first
      exact ⟨(visited_full (by omega) _).symm,by simp [none_]⟩
  obtain ⟨rfl,rfl⟩ := videos
  by_cases room : (h.video.getD []).countP (usable h) < buffer.length
  · rw [Nat.min_eq_left room.le,writePackets_ok room] at second
    obtain ⟨rfl,rfl⟩ := Prod.mk.inj (Except.ok.inj second)
    refine ⟨?_,.inl room⟩
    cases h.video <;> cases h.audio <;> rfl
  · rw [Nat.min_eq_right (by omega)] at second
    obtain ⟨silent,rfl,rfl⟩ := writePackets_full le_rfl second
    rw [List.filter_true] at silent
    refine ⟨?_,.inr silent⟩
    rw [silent]
    cases video : h.video <;> cases audio : h.audio <;> simp [audio] at silent <;> simp [silent,visited]

/-- What gathering the bytes and writing them back is meant to do. -/
structure Gathers (h : ContainerHandler) : Prop where
  loads : ∃ buffer, loadBuffer h (calculateCapacity h) = .ok buffer ∧ buffer.length = 8 * calculateCapacity h ∧
    buffer = ((usablePackets h).take (8 * calculateCapacity h)).map lowByte
  saves : ∀ buffer, buffer.length = 8 * calculateCapacity h → saveBuffer h buffer = .ok
    { h with
      video := h.video.map (visited (usable h) (!h.hasBFrames) buffer 0)
      audio := h.audio.map (visited (fun _ => true) true buffer ((h.video.getD []).countP (usable h))) }

theorem calculateCapacity_eq (h : ContainerHandler) : calculateCapacity h = (usablePackets h).length / 8 := by
  have video : (match h.video with
      | none => 0
      | some packets => if h.hasBFrames then packets.countP applicable else packets.length) =
      ((h.video.getD []).filter (usable h)).length := by
    rw [← List.countP_eq_length_filter]
    cases h.video with
    | none => rfl
    | some packets =>
      simp only [Option.getD_some]
      cases frames : h.hasBFrames with
      | false =>
        have all : ∀ packet ∈ packets, usable h packet = true := by simp [usable,frames]
        exact (List.countP_eq_length.mpr all).symm
      | true =>
        rw [if_pos rfl]
        congr 1
        funext packet
        simp [usable,frames]
  have audio : (match h.audio with
      | none => 0
      | some packets => packets.length) = (h.audio.getD []).length := by
    cases h.audio <;> rfl
  rw [calculateCapacity,usablePackets,List.length_append,← video,← audio]

/-- Two blocks that fill the bytes. -/
theorem splice_two {bytes first second : List UInt8} (whole : first.length + second.length = bytes.length) :
    splice (splice bytes 0 first) first.length second = first ++ second := by
  have inner : splice bytes 0 first = first ++ bytes.drop first.length := by simp [splice]
  have all : first.length + second.length = (first ++ bytes.drop first.length).length := by simp; omega
  rw [inner,splice,List.take_left,all,List.drop_length,List.append_nil]

/-- The first loop of `LoadBuffer`. -/
theorem loadBuffer_video (h : ContainerHandler) {rawCapacity : Nat} (positive : 1 ≤ rawCapacity) :
    ∃ start : MemoryBuffer, start.length = 8 * rawCapacity ∧ loadBuffer h rawCapacity =
      readPackets (fun _ => true) (h.audio.getD [])
        (splice start 0 ((((h.video.getD []).filter (usable h)).take start.length).map lowByte))
        (min ((h.video.getD []).filter (usable h)).length start.length) >>= fun read => .ok read.1 := by
  have zeros : (List.replicate (rawCapacity * 8) (0 : UInt8)).length = 8 * rawCapacity := by
    rw [List.length_replicate,Nat.mul_comm]
  refine ⟨_,zeros,?_⟩
  rw [loadBuffer,readPackets_ok (by omega),ok_bind]
  simp only [Nat.sub_zero,Nat.zero_add]

/-- The video packets leave room in the buffer, and the audio packets fill it. -/
theorem gathers_of_room {h : ContainerHandler}
    (room : (h.video.getD []).countP (usable h) < 8 * calculateCapacity h) : Gathers h := by
  have capacity := calculateCapacity_eq h
  rw [usablePackets,List.length_append] at capacity
  rw [List.countP_eq_length_filter] at room
  constructor
  · obtain ⟨start,size,loaded⟩ := loadBuffer_video h (show 1 ≤ calculateCapacity h by omega)
    have first : (splice start 0 (((h.video.getD []).filter (usable h)).map lowByte)).length = start.length :=
      splice_length (by rw [List.length_map]; omega)
    rw [Nat.min_eq_left (by omega),List.take_of_length_le (by omega),readPackets_ok (by omega),ok_bind,first,
      List.filter_true] at loaded
    have joined := @splice_two start (((h.video.getD []).filter (usable h)).map lowByte)
      (((h.audio.getD []).take (start.length - ((h.video.getD []).filter (usable h)).length)).map lowByte)
      (by simp only [List.length_map,List.length_take]; omega)
    rw [List.length_map] at joined
    have all : (usablePackets h).take (8 * calculateCapacity h) = (h.video.getD []).filter (usable h) ++
        (h.audio.getD []).take (start.length - ((h.video.getD []).filter (usable h)).length) := by
      rw [usablePackets,List.take_append,List.take_of_length_le (by omega),size]
    refine ⟨_,loaded,?_,?_⟩
    · rw [splice_length (by simp only [List.length_map,List.length_take]; omega),first,size]
    · rw [joined,all,List.map_append]
  · intro buffer size
    rw [saveBuffer,writePackets_ok (by omega),ok_bind]
    simp only [Nat.zero_add,Nat.sub_zero,Nat.min_eq_left (show ((h.video.getD []).filter (usable h)).length ≤
      buffer.length by omega)]
    rw [writePackets_ok (by omega),ok_bind,List.countP_eq_length_filter]
    cases h.video <;> cases h.audio <;> rfl

/-- Without audio packets the video packets fill the buffer. -/
theorem gathers_of_silence {h : ContainerHandler} (positive : 1 ≤ calculateCapacity h) (silent : h.audio.getD [] = []) :
    Gathers h := by
  have capacity := calculateCapacity_eq h
  simp only [usablePackets,List.length_append,silent,List.length_nil,Nat.add_zero] at capacity
  constructor
  · obtain ⟨start,size,loaded⟩ := loadBuffer_video h positive
    rw [silent,readPackets,ok_bind] at loaded
    refine ⟨_,loaded,?_,?_⟩
    · rw [splice_length (by simp only [List.length_map,List.length_take]; omega),size]
    · simp [splice,usablePackets,silent,← size,show start.length ≤ ((h.video.getD []).filter (usable h)).length by omega]
  · intro buffer size
    rw [saveBuffer,writePackets_ok (by omega),ok_bind,silent]
    cases video : h.video <;> cases audio : h.audio <;> simp [audio] at silent <;> simp [writePackets,visited,silent]

theorem gathers_of_fits {h : ContainerHandler} (positive : 1 ≤ calculateCapacity h)
    (fits : (h.video.getD []).countP (usable h) < 8 * calculateCapacity h ∨ h.audio.getD [] = []) : Gathers h := by
  rcases fits with room | silent
  · exact gathers_of_room room
  · exact gathers_of_silence positive silent

/-- With at least a byte of capacity, gathering and writing back work exactly when the video stream has
    fewer packets to use than the buffer has bytes, or there is no audio packet. -/
theorem gathers_iff {h : ContainerHandler} (positive : 1 ≤ calculateCapacity h) :
    Gathers h ↔ (h.video.getD []).countP (usable h) < 8 * calculateCapacity h ∨ h.audio.getD [] = [] := by
  constructor
  · -- a full buffer refuses the first audio packet
    intro gathers
    by_contra full
    push Not at full
    obtain ⟨many,some⟩ := full
    rw [List.countP_eq_length_filter] at many
    obtain ⟨buffer,loaded,_⟩ := gathers.loads
    obtain ⟨packet,rest,audio⟩ := List.exists_cons_of_ne_nil some
    obtain ⟨start,size,ran⟩ := loadBuffer_video h positive
    have first : (splice start 0 ((((h.video.getD []).filter (usable h)).take start.length).map lowByte)).length =
        start.length :=
      splice_length (by simp only [List.length_map,List.length_take]; omega)
    rw [loaded,audio,Nat.min_eq_right (by omega),readPackets_full first.le rfl] at ran
    cases ran
  · exact gathers_of_fits positive

/-- Streams without B-frames, whose packets have the times 0, 1, 2 and so on. -/
def streams (video audio : Nat) : ContainerHandler where
  video := some ((List.range video).map fun k => ⟨UInt64.ofNat k,UInt64.ofNat k⟩)
  audio := some ((List.range audio).map fun k => ⟨UInt64.ofNat k,UInt64.ofNat k⟩)

theorem gathers_seven : Gathers (streams 7 2) :=
  (gathers_iff (by decide)).mpr (.inl (by decide))

/-- After eight video packets the first audio packet no longer fits. -/
theorem not_gathers_eight : ¬ Gathers (streams 8 1) := by
  intro gathers
  obtain ⟨buffer,loaded,_⟩ := gathers.loads
  have refused : loadBuffer (streams 8 1) (calculateCapacity (streams 8 1)) =
      .error (.thrown (.outOfRange "MemoryBuffer: write: offset + length > size")) := by decide +kernel
  rw [refused] at loaded
  cases loaded

end CarrierFileMPEG
end StegoDisk
