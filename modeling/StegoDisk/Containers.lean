import StegoDisk.MpegPackets

/-!
`carrier_files/container_handler.cc` and the two classes that embed in the packets of a container. The packets of
a stream are references to those of the container. Whether the video stream has B-frames is
guessed from the times of its packets, which embedding changes; and the MPEG class also makes the decoding
time of a packet the new presentation time, which moves it among the other packets of its stream.
-/
namespace StegoDisk

/-- The value of an `int64_t`. -/
def signed (x : UInt64) : Int := if x.toNat < 2 ^ 63 then x.toNat else x.toNat - 2 ^ 64

/-- `StreamType`. -/
inductive StreamType
  | unknown
  | video
  | audio
  | subtitles
  deriving DecidableEq

/-- What demultiplexing a file gives: the types of its streams, and its packets in order, each with
    the index of its stream. -/
structure Container where
  streamType : Nat → StreamType
  packets : List (Nat × AVPacket)

namespace Container

variable (c : Container)

/-- The packet belongs to a stream of the type. -/
def inType (type : StreamType) (packet : Nat × AVPacket) : Bool := c.streamType packet.1 = type

/-- The packets of `stream_data_` of a type. -/
def stream (type : StreamType) : List AVPacket := (c.packets.filter (c.inType type)).map Prod.snd

/-- The entry of `stream_data_`; there is one as soon as there is a packet. -/
def streamData (type : StreamType) : Option (List AVPacket) :=
  if (c.stream type).isEmpty then none else some (c.stream type)

/-- The handler with what the detection of B-frames has found. -/
def handler (hasBFrames : Bool) : ContainerHandler where
  video := c.streamData .video
  audio := c.streamData .audio
  hasBFrames := hasBFrames

@[simp] theorem handler_video (hasBFrames : Bool) : (c.handler hasBFrames).video = c.streamData .video := rfl
@[simp] theorem handler_audio (hasBFrames : Bool) : (c.handler hasBFrames).audio = c.streamData .audio := rfl
@[simp] theorem handler_hasBFrames (hasBFrames : Bool) : (c.handler hasBFrames).hasBFrames = hasBFrames := rfl

/-- Presentation time less decoding time. -/
def difference (packet : AVPacket) : Int := signed packet.pts - signed packet.dts

/-- `std::abs(packet->pts - packet->dts) >= 2`; where one of the two results is no `int64_t`, it is undefined. -/
def farApart (packet : AVPacket) : Except Failure Bool :=
  if (difference packet).natAbs < 2 ^ 63 then .ok (2 ≤ (difference packet).natAbs) else .error .undefined

/-- `ContainerHandler::Load`, given what `BFrameDetection` answers if it has an ffprobe to run. -/
def load (probed : Option Bool) : Except Failure ContainerHandler :=
  match probed with
  | some hasBFrames => .ok (c.handler hasBFrames)
  | none => do
    let hasBFrames ← (c.stream .video).foldlM (fun found packet => do
      let far ← farApart packet
      .ok (found || far)) false
    .ok (c.handler hasBFrames)

/-- The packets, those of the video and audio streams with the times of two lists. -/
def refer (streamType : Nat → StreamType) :
    List (Nat × AVPacket) → List AVPacket → List AVPacket → List (Nat × AVPacket)
  | [],_,_ => []
  | (index,packet)::rest,video,audio =>
    match streamType index with
    | .video => (index,video.headD packet)::refer streamType rest video.tail audio
    | .audio => (index,audio.headD packet)::refer streamType rest video audio.tail
    | _ => (index,packet)::refer streamType rest video audio

end Container

/-- `CarrierFileMPEG::SaveBuffer`, up to the call that writes the file. -/
def CarrierFileMPEG.saveContainer (c : Container) (hasBFrames : Bool) (buffer : MemoryBuffer) :
    Except Failure Container := do
  let h ← saveBuffer (c.handler hasBFrames) buffer
  .ok { c with packets := Container.refer c.streamType c.packets (h.video.getD []) (h.audio.getD []) }

namespace CarrierFileMKV

/-- `CarrierFileMKV::CalculateCapacity`. -/
def calculateCapacity (c : Container) : Nat := c.packets.length / 8

/-- The correction of a decoding time that has come to lie behind the presentation time. -/
def correct (packet : AVPacket) : AVPacket :=
  if signed packet.pts < signed packet.dts then { packet with dts := packet.pts } else packet

/-- The loop of `CarrierFileMKV::SaveBuffer`. -/
def writePackets (buffer : MemoryBuffer) : List (Nat × AVPacket) → Nat → Except Failure (List (Nat × AVPacket))
  | [],_ => .ok []
  | (index,packet)::rest,offset => do
    let byte ← buffer.at offset
    let packet := correct (CarrierFileMPEG.stamp false packet byte)
    if offset + 1 = buffer.length then .ok ((index,packet)::rest)
    else do
      let rest ← writePackets buffer rest (offset + 1)
      .ok ((index,packet)::rest)

/-- `CarrierFileMKV::SaveBuffer`, up to the call that writes the file. -/
def saveBuffer (c : Container) (buffer : MemoryBuffer) : Except Failure Container := do
  let packets ← writePackets buffer c.packets 0
  .ok { c with packets := packets }

end CarrierFileMKV

/-! ### One packet -/

namespace CarrierFileMPEG
open Container

theorem cleared_toNat (pts : UInt64) : (pts &&& 0xFFFFFFFFFFFFFFFE).toNat = 2 * (pts.toNat / 2) := by
  have half : pts.toNat / 2 < 2 ^ 63 := by
    have := pts.toNat_lt
    omega
  rw [UInt64.toNat_and,show (0xFFFFFFFFFFFFFFFE : UInt64).toNat = 2 * (2 ^ 63 - 1) from rfl]
  apply Nat.eq_of_testBit_eq
  intro i
  rw [Nat.testBit_and]
  cases i with
  | zero => simp
  | succ i =>
    rw [Nat.testBit_succ,Nat.testBit_succ,Nat.testBit_succ,Nat.mul_div_cancel_left _ (by decide),
      Nat.mul_div_cancel_left _ (by decide),← Nat.testBit_and,Nat.and_two_pow_sub_one_eq_mod,Nat.mod_eq_of_lt half]

theorem lowBit_toNat (byte : UInt8) : (byte &&& 1).toUInt64.toNat = byte.toNat % 2 := by
  rw [UInt8.toNat_toUInt64,UInt8.toNat_and,show (1 : UInt8).toNat = 1 from rfl,Nat.and_one_is_mod]

variable (updateDts : Bool) (packet : AVPacket) (byte : UInt8)

theorem toNat_stamp : (stamp updateDts packet byte).pts.toNat = 2 * (packet.pts.toNat / 2) + byte.toNat % 2 := by
  rw [stamp,UInt64.toNat_or,cleared_toNat,lowBit_toNat]
  have bit := Nat.mod_lt byte.toNat (show 0 < 2 by decide)
  exact (Nat.two_pow_add_eq_or_of_lt (i := 1) bit (packet.pts.toNat / 2)).symm

/-- The presentation time with the lowest bit of a byte. -/
theorem signed_stamp : signed (stamp updateDts packet byte).pts = 2 * (signed packet.pts / 2) + (byte.toNat % 2 : Nat) := by
  have small := packet.pts.toNat_lt
  simp only [signed,toNat_stamp]
  split <;> split <;> omega

/-- Stamping changes neither of the values that are tested. -/
theorem modifyLSB_stamp (lsb : UInt64) :
    modifyLSB (stamp updateDts packet byte).pts lsb = modifyLSB packet.pts lsb := by
  have same : (stamp updateDts packet byte).pts &&& 0xFFFFFFFFFFFFFFFE = packet.pts &&& 0xFFFFFFFFFFFFFFFE := by
    apply UInt64.toNat_inj.mp
    rw [cleared_toNat,cleared_toNat,toNat_stamp]
    omega
  rw [modifyLSB,modifyLSB,same]

/-- A packet that keeps its decoding time is as applicable as before. -/
theorem applicable_stamp : applicable (stamp false packet byte) = applicable packet := by
  simp only [applicable,getTestValues,modifyLSB_stamp]
  rfl

/-- A byte is read with the lowest bit that was stamped. -/
theorem lowByte_stamp : lowByte (stamp updateDts packet byte) &&& 1 = byte &&& 1 := by
  apply UInt8.toNat_inj.mp
  rw [lowByte,UInt8.toNat_and,UInt8.toNat_and,UInt64.toNat_toUInt8,toNat_stamp,show (1 : UInt8).toNat = 1 from rfl,
    Nat.and_one_is_mod,Nat.and_one_is_mod]
  omega

end CarrierFileMPEG

/-! ### References -/

namespace Container

variable {streamType : Nat → StreamType}

theorem stream_cons (type : StreamType) (head : Nat × AVPacket) (rest : List (Nat × AVPacket)) :
    stream ⟨streamType,head::rest⟩ type =
      if streamType head.1 = type then head.2::stream ⟨streamType,rest⟩ type else stream ⟨streamType,rest⟩ type := by
  simp only [stream,List.filter_cons,inType,decide_eq_true_eq]
  split <;> rfl

/-- The streams of packets that refer to two lists are these lists. -/
theorem stream_refer {packets : List (Nat × AVPacket)} {video audio : List AVPacket}
    (videos : video.length = (stream ⟨streamType,packets⟩ .video).length)
    (audios : audio.length = (stream ⟨streamType,packets⟩ .audio).length) :
    stream ⟨streamType,refer streamType packets video audio⟩ .video = video ∧
      stream ⟨streamType,refer streamType packets video audio⟩ .audio = audio := by
  induction packets generalizing video audio with
  | nil =>
    obtain rfl := List.length_eq_zero_iff.mp videos
    obtain rfl := List.length_eq_zero_iff.mp audios
    exact ⟨rfl,rfl⟩
  | cons head rest ih =>
    obtain ⟨index,packet⟩ := head
    simp only [stream_cons] at videos audios
    cases type : streamType index with
    | video =>
      simp only [type,if_true,List.length_cons,reduceCtorEq,if_false] at videos audios
      obtain ⟨first,others,rfl⟩ := List.exists_cons_of_length_eq_add_one videos
      obtain ⟨left,right⟩ := ih (Nat.succ.inj videos) audios
      simp only [refer,type,stream_cons,if_true,reduceCtorEq,if_false,List.headD_cons,List.tail_cons,left,right,and_self]
    | audio =>
      simp only [type,if_true,List.length_cons,reduceCtorEq,if_false] at videos audios
      obtain ⟨first,others,rfl⟩ := List.exists_cons_of_length_eq_add_one audios
      obtain ⟨left,right⟩ := ih videos (Nat.succ.inj audios)
      simp only [refer,type,stream_cons,if_true,reduceCtorEq,if_false,List.headD_cons,List.tail_cons,left,right,and_self]
    | unknown =>
      simp only [type,reduceCtorEq,if_false] at videos audios
      simp only [refer,type,stream_cons,reduceCtorEq,if_false]
      exact ih videos audios
    | subtitles =>
      simp only [type,reduceCtorEq,if_false] at videos audios
      simp only [refer,type,stream_cons,reduceCtorEq,if_false]
      exact ih videos audios

/-- The packets in front of number `k`. -/
def before (c : Container) (k : Nat) : Container := { c with packets := c.packets.take k }

theorem refer_get {packets : List (Nat × AVPacket)} {video audio : List AVPacket} (k : Nat) :
    (refer streamType packets video audio)[k]? = packets[k]?.map fun packet => (packet.1,
      if streamType packet.1 = .video then
        video.getD ((before ⟨streamType,packets⟩ k).stream .video).length packet.2
      else if streamType packet.1 = .audio then
        audio.getD ((before ⟨streamType,packets⟩ k).stream .audio).length packet.2
      else packet.2) := by
  induction packets generalizing video audio k with
  | nil => rfl
  | cons head rest ih =>
    obtain ⟨index,packet⟩ := head
    cases k with
    | zero => cases type : streamType index <;> simp [refer,type,before,stream,List.head?_eq_getElem?]
    | succ k => cases type : streamType index <;> simp [refer,type,before,stream_cons,ih]

variable {c : Container}

/-- A packet and its place among those of its type. -/
theorem stream_at {type : StreamType} {k : Nat} {packet : Nat × AVPacket} (there : c.packets[k]? = some packet)
    (own : c.streamType packet.1 = type) : (c.stream type)[((c.before k).stream type).length]? = some packet.2 ∧
      (c.stream type).take ((c.before k).stream type).length = (c.before k).stream type := by
  obtain ⟨inside,rfl⟩ := List.getElem?_eq_some_iff.mp there
  have split : c.stream type = (c.before k).stream type ++
      c.packets[k].2::((c.packets.drop (k + 1)).filter (c.inType type)).map Prod.snd := by
    have whole : c.packets = c.packets.take k ++ c.packets[k]::c.packets.drop (k + 1) := by simp
    conv_lhs => rw [stream,whole,List.filter_append,List.filter_cons_of_pos (by simp [inType,own]),List.map_append]
    rfl
  rw [split]
  exact ⟨by simp,List.take_left⟩

theorem streamData_getD (type : StreamType) : (c.streamData type).getD [] = c.stream type := by
  unfold streamData
  split
  · rename_i empty
    rw [List.isEmpty_iff.mp empty]
    rfl
  · rfl

/-! ### After `SaveBuffer` -/

/-- The place in the buffer of packet `k`, if it is used: video packets come first. -/
def slot (c : Container) (hasBFrames : Bool) (k : Nat) (packet : Nat × AVPacket) : Option Nat :=
  if c.streamType packet.1 = .video then
    if CarrierFileMPEG.usable (c.handler hasBFrames) packet.2 then
      some (((c.before k).stream .video).countP (CarrierFileMPEG.usable (c.handler hasBFrames)))
    else none
  else if c.streamType packet.1 = .audio then
    some ((c.stream .video).countP (CarrierFileMPEG.usable (c.handler hasBFrames)) + ((c.before k).stream .audio).length)
  else none

/-- The byte that is written into packet `k`. -/
def written (c : Container) (hasBFrames : Bool) (buffer : MemoryBuffer) (k : Nat) (packet : Nat × AVPacket) : Option UInt8 :=
  (c.slot hasBFrames k packet).bind (buffer[·]?)

/-- Whether the decoding time follows the presentation time. -/
def retimes (c : Container) (hasBFrames : Bool) (packet : Nat × AVPacket) : Bool :=
  c.streamType packet.1 = .audio || !hasBFrames

/-- The times that a packet has then. -/
def rewritten (c : Container) (hasBFrames : Bool) (buffer : MemoryBuffer) (k : Nat) (packet : Nat × AVPacket) : AVPacket :=
  (c.written hasBFrames buffer k packet).elim packet.2 (CarrierFileMPEG.stamp (c.retimes hasBFrames packet) packet.2)

end Container

namespace CarrierFileMPEG
open Container

variable {c c' : Container} {hasBFrames : Bool} {buffer : MemoryBuffer}

theorem visited_at {used : AVPacket → Bool} {updateDts : Bool} {offset i : Nat} {packets : List AVPacket} {packet : AVPacket}
    (there : packets[i]? = some packet) (default : AVPacket) :
    (visited used updateDts buffer offset packets).getD i default =
      if used packet = true ∧ offset + (packets.take i).countP used < buffer.length then
        stamp updateDts packet (buffer.getD (offset + (packets.take i).countP used) 0)
      else packet := by
  simp [visited,List.getD_eq_getElem?_getD,there]

/-- A packet with a place in the buffer. -/
theorem stamp_inside {updateDts : Bool} {packet : AVPacket} (r : Nat) :
    (if r < buffer.length then stamp updateDts packet (buffer.getD r 0) else packet) =
      (buffer[r]?).elim packet (stamp updateDts packet) := by
  by_cases inside : r < buffer.length
  · rw [if_pos inside,List.getElem?_eq_getElem inside,List.getD_eq_getElem _ _ inside]
    rfl
  · rw [if_neg inside,List.getElem?_eq_none (by omega)]
    rfl

theorem visited_getD {used : AVPacket → Bool} {updateDts : Bool} {offset : Nat} (type : StreamType) :
    ((c.streamData type).map (visited used updateDts buffer offset)).getD [] =
      visited used updateDts buffer offset (c.stream type) := by
  rw [← streamData_getD]
  cases c.streamData type <;> rfl

/-- Every packet of a container after `SaveBuffer`. -/
theorem saveContainer_get (saved : saveContainer c hasBFrames buffer = .ok c') :
    c'.streamType = c.streamType ∧
      ∀ k, c'.packets[k]? = c.packets[k]?.map fun packet => (packet.1,c.rewritten hasBFrames buffer k packet) := by
  obtain ⟨h,ran,last⟩ := bind_eq_ok.mp saved
  obtain rfl := Except.ok.inj last
  obtain ⟨rfl,_⟩ := saveBuffer_returns ran
  refine ⟨rfl,?_⟩
  intro k
  simp only [handler_video,handler_audio,handler_hasBFrames,visited_getD,streamData_getD,refer_get]
  cases there : c.packets[k]? with
  | none => rfl
  | some packet =>
    simp only [Option.map_some,Option.some.injEq,Prod.mk.injEq,true_and]
    by_cases video : c.streamType packet.1 = .video
    · obtain ⟨place,earlier⟩ := stream_at there video
      rw [if_pos video,visited_at place,earlier,Nat.zero_add,rewritten,written,slot,if_pos video]
      by_cases uses : usable (c.handler hasBFrames) packet.2 = true
      · simp only [uses,true_and,if_true,stamp_inside,Option.bind_some,retimes,video,reduceCtorEq,decide_false,Bool.false_or]
      · simp only [uses,false_and,if_false,Option.bind_none,Option.elim_none,Bool.false_eq_true]
    by_cases audio : c.streamType packet.1 = .audio
    · obtain ⟨place,earlier⟩ := stream_at there audio
      rw [if_neg video,if_pos audio,visited_at place,earlier,List.countP_true,rewritten,written,slot,if_neg video,
        if_pos audio,Option.bind_some]
      simp only [true_and,stamp_inside,retimes,audio,decide_true,Bool.true_or]
    · rw [if_neg video,if_neg audio]
      simp [rewritten,written,slot,video,audio]

end CarrierFileMPEG

namespace CarrierFileMKV

variable {c c' : Container} {buffer : MemoryBuffer}

theorem writePackets_get {packets after : List (Nat × AVPacket)} {offset : Nat}
    (ran : writePackets buffer packets offset = .ok after) (k : Nat) :
    after[k]? = packets[k]?.map fun packet => (packet.1,
      (buffer[offset + k]?).elim packet.2 fun byte => correct (CarrierFileMPEG.stamp false packet.2 byte)) := by
  induction packets generalizing after offset k with
  | nil =>
    obtain rfl := Except.ok.inj ran
    rfl
  | cons head rest ih =>
    obtain ⟨byte,read,next⟩ := bind_eq_ok.mp ran
    have here : buffer[offset]? = some byte := by
      rw [MemoryBuffer.at] at read
      cases found : buffer[offset]? with
      | none => simp [found] at read
      | some value => simpa [found] using read
    by_cases full : offset + 1 = buffer.length
    · rw [if_pos full] at next
      obtain rfl := Except.ok.inj next
      cases k with
      | zero => simp [here]
      | succ k =>
        have beyond : buffer[offset + (k + 1)]? = none := List.getElem?_eq_none (by omega)
        simp [beyond]
    · rw [if_neg full] at next
      obtain ⟨others,later,last⟩ := bind_eq_ok.mp next
      obtain rfl := Except.ok.inj last
      cases k with
      | zero => simp [here]
      | succ k =>
        rw [List.getElem?_cons_succ,List.getElem?_cons_succ,ih later k,Nat.add_assoc,Nat.add_comm 1]

/-- Every packet of a container after `SaveBuffer`. -/
theorem saveBuffer_get (saved : saveBuffer c buffer = .ok c') (k : Nat) :
    c'.packets[k]? = c.packets[k]?.map fun packet => (packet.1,
      (buffer[k]?).elim packet.2 fun byte => correct (CarrierFileMPEG.stamp false packet.2 byte)) := by
  obtain ⟨packets,ran,last⟩ := bind_eq_ok.mp saved
  obtain rfl := Except.ok.inj last
  rw [writePackets_get ran k,Nat.zero_add]

end CarrierFileMKV
end StegoDisk
