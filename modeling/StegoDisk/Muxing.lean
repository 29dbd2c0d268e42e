import StegoDisk.PacketTimes

/-!
`ContainerHandler::Save` hands the packets to libavformat, which writes them and from which they are read again. What
libavformat does is a parameter; its documentation says which packets it takes: those with times that are given, that are
shown no earlier than they are decoded, and that are decoded after those of their stream that were written before
them, or, in a format with `AVFMT_TS_NONSTRICT`, not before them.
-/
namespace StegoDisk

/-- What libavformat does when a container is written and read again. -/
structure Muxer where
  /-- `avformat_alloc_output_context2` gives a context. -/
  allocates : Bool
  /-- `avcodec_parameters_copy` succeeds for every stream. -/
  copies : Bool
  /-- `avio_open` opens the file, and leaves it empty. -/
  opens : Bool
  /-- `avformat_write_header` writes the header. -/
  writesHeader : Bool
  /-- `av_write_frame` takes a packet behind those that were written before it. -/
  takes : List (Nat × AVPacket) → Nat × AVPacket → Bool
  /-- What demultiplexing the file gives. -/
  reads : Container → Container

namespace ContainerHandler

/-- A turn of the loop over the packets. -/
def writeFrame (av : Muxer) (fileName : String) (before : List (Nat × AVPacket)) (packet : Nat × AVPacket) :
    Except Failure (List (Nat × AVPacket)) :=
  if av.takes before packet then .ok (before ++ [packet]) else .error (.thrown (.ioError fileName))

/-- `ContainerHandler::Save`, which a handler makes once since it closes its input, and the container that is then read
    from the file. -/
def save (av : Muxer) (fileName : String) (c : Container) : Except Failure Container :=
  if av.allocates = false then .error (.thrown .allocError)
  else if av.copies = false then .error (.thrown (.ioError fileName))
  else if av.opens = false then .error (.thrown (.ioError fileName))
  else if av.writesHeader = false then .error (.thrown (.ioError fileName))
  else do
    let packets ← c.packets.foldlM (writeFrame av fileName) []
    .ok (av.reads { c with packets := packets })

end ContainerHandler

namespace Muxer

/-- The container can be written: every call succeeds. -/
structure Writes (av : Muxer) (c : Container) : Prop where
  allocates : av.allocates = true
  copies : av.copies = true
  opens : av.opens = true
  writesHeader : av.writesHeader = true
  takes : ∀ before packet after, c.packets = before ++ packet::after → av.takes before packet = true

/-- `AV_NOPTS_VALUE`. -/
def noPts : UInt64 := 0x8000000000000000

/-- The documentation of `av_write_frame`, for a file that can be opened and a format that is strict or has
    `AVFMT_TS_NONSTRICT`. -/
structure Documented (av : Muxer) (strict : Bool) : Prop where
  allocates : av.allocates = true
  copies : av.copies = true
  opens : av.opens = true
  writesHeader : av.writesHeader = true
  takes : ∀ before packet, packet.2.pts ≠ noPts → packet.2.dts ≠ noPts → signed packet.2.dts ≤ signed packet.2.pts →
    (∀ earlier ∈ before, earlier.1 = packet.1 → signed earlier.2.dts < signed packet.2.dts ∨
      strict = false ∧ signed earlier.2.dts = signed packet.2.dts) → av.takes before packet = true

/-- Written packets are read in their order, with their presentation times. -/
def KeepsPresentation (av : Muxer) : Prop :=
  ∀ c, av.Writes c → (av.reads c).packets.map (fun packet => packet.2.pts) = c.packets.map fun packet => packet.2.pts

/-- Written packets are read in their order, in their streams and with both of their times. -/
def Keeps (av : Muxer) : Prop := ∀ c, av.Writes c → av.reads c = c

variable {av : Muxer} {c : Container} {fileName : String}

theorem writeFrame_foldlM {before packets : List (Nat × AVPacket)} {result : List (Nat × AVPacket)} :
    packets.foldlM (ContainerHandler.writeFrame av fileName) before = .ok result ↔ result = before ++ packets ∧
      ∀ front packet back, packets = front ++ packet::back → av.takes (before ++ front) packet = true := by
  induction packets generalizing before with
  | nil =>
    rw [List.append_nil]
    refine ⟨fun ran => ⟨(Except.ok.inj ran).symm,fun front packet back split => by simp at split⟩,fun both => ?_⟩
    rw [both.1]
    rfl
  | cons head rest ih =>
    rw [List.foldlM_cons,ContainerHandler.writeFrame]
    by_cases taken : av.takes before head = true
    · rw [if_pos taken,ok_bind,ih,List.append_assoc,List.singleton_append]
      refine and_congr_right fun _ => ⟨fun each => ?_,fun each front packet back split => ?_⟩
      · rintro (_ | ⟨first,front⟩) packet back split
        · obtain ⟨rfl,_⟩ := List.cons.inj split
          rwa [List.append_nil]
        · obtain ⟨rfl,rest_⟩ := List.cons.inj split
          have later := each front packet back rest_
          rwa [List.append_assoc] at later
      · rw [List.append_assoc]
        exact each (head::front) packet back (by rw [split]; rfl)
    · rw [if_neg taken,error_bind]
      refine ⟨fun ran => by simp at ran,fun both => absurd ?_ taken⟩
      have first := both.2 [] head rest rfl
      rwa [List.append_nil] at first

/-- `Save` returns exactly when all of the calls succeed. -/
theorem save_eq_ok {c' : Container} : ContainerHandler.save av fileName c = .ok c' ↔ av.Writes c ∧ c' = av.reads c := by
  unfold ContainerHandler.save
  constructor
  · intro ran
    split at ran
    · cases ran
    split at ran
    · cases ran
    split at ran
    · cases ran
    split at ran
    · cases ran
    rename_i allocates copies opens header
    obtain ⟨packets,written,last⟩ := bind_eq_ok.mp ran
    obtain rfl := Except.ok.inj last
    obtain ⟨rfl,takes⟩ := writeFrame_foldlM.mp written
    exact ⟨⟨by simpa using allocates,by simpa using copies,by simpa using opens,by simpa using header,takes⟩,rfl⟩
  · rintro ⟨writes,rfl⟩
    have written : c.packets.foldlM (ContainerHandler.writeFrame av fileName) [] = .ok c.packets :=
      writeFrame_foldlM.mpr ⟨rfl,writes.takes⟩
    simp [writes.allocates,writes.copies,writes.opens,writes.writesHeader,written]

/-- Containers whose times are given and legal can be written. -/
theorem Documented.writes {strict : Bool} (documented : av.Documented strict)
    (given : ∀ packet ∈ c.packets, packet.2.pts ≠ noPts ∧ packet.2.dts ≠ noPts)
    (legal : if strict then c.StrictlyTimed else c.Timed) : av.Writes c := by
  refine ⟨documented.allocates,documented.copies,documented.opens,documented.writesHeader,?_⟩
  intro before packet after split
  have member : packet ∈ c.packets := by
    rw [split]
    exact List.mem_append_right _ List.mem_cons_self
  have presented : signed packet.2.dts ≤ signed packet.2.pts := by
    cases strict with
    | false => exact Container.Timed.presented legal packet member
    | true => exact Container.StrictlyTimed.presented legal packet member
  refine documented.takes before packet (given packet member).1 (given packet member).2 presented ?_
  intro earlier here same
  obtain ⟨i,there⟩ := List.mem_iff_getElem?.mp here
  obtain ⟨inside,_⟩ := List.getElem?_eq_some_iff.mp there
  have stream : c.SameStream i before.length earlier packet := by
    refine ⟨inside,?_,?_,same⟩
    · rw [split,List.getElem?_append_left inside,there]
    · rw [split,List.getElem?_append_right le_rfl,Nat.sub_self]
      rfl
  cases strict with
  | false =>
    have order := Container.Timed.ordered legal i _ _ _ stream
    rcases lt_or_eq_of_le order with less | equal
    · exact .inl less
    · exact .inr ⟨rfl,equal⟩
  | true => exact .inl (Container.StrictlyTimed.increasing legal i _ _ _ stream)

/-- A muxer as it is documented, of a file that can be opened. -/
def byTimes (strict : Bool) : Muxer where
  allocates := true
  copies := true
  opens := true
  writesHeader := true
  takes before packet := packet.2.pts != noPts && packet.2.dts != noPts && decide (signed packet.2.dts ≤ signed packet.2.pts) &&
    before.all fun earlier => earlier.1 != packet.1 || decide (signed earlier.2.dts < signed packet.2.dts) ||
      !strict && decide (signed earlier.2.dts = signed packet.2.dts)
  reads c := c

theorem byTimes_documented (strict : Bool) : (byTimes strict).Documented strict := by
  refine ⟨rfl,rfl,rfl,rfl,?_⟩
  intro before packet shown decoded presented ordered
  have earlier : ∀ earlier ∈ before, (earlier.1 != packet.1 || decide (signed earlier.2.dts < signed packet.2.dts) ||
      !strict && decide (signed earlier.2.dts = signed packet.2.dts)) = true := by
    intro earlier here
    by_cases same : earlier.1 = packet.1
    · rcases ordered earlier here same with less | ⟨rfl,equal⟩
      · simp [less]
      · simp [equal]
    · simp [same]
  simpa [byTimes,shown,decoded,presented] using earlier

theorem byTimes_keeps (strict : Bool) : (byTimes strict).Keeps := fun _ _ => rfl

/-- A time that lies behind the least one is given. -/
theorem given_of_lt {time : UInt64} (late : -2 ^ 63 < signed time) : time ≠ noPts := by
  rintro rfl
  exact absurd late (by decide)

end Muxer

namespace Container

/-- Decoding times lie more than a tick behind `AV_NOPTS_VALUE`. -/
def Dated (c : Container) : Prop := ∀ packet ∈ c.packets, -2 ^ 63 + 1 < signed packet.2.dts

/-- A packet whose decoding time is replaced stays strictly in front of the later ones of its stream. -/
def KeepsApart (c : Container) (hasBFrames : Bool) (buffer : MemoryBuffer) : Prop :=
  ∀ i j a b x, c.SameStream i j a b → c.retimes hasBFrames a = true → c.written hasBFrames buffer i a = some x →
    (∀ y, c.written hasBFrames buffer j b = some y → signed a.2.pts / 2 < signed b.2.pts / 2 ∨
      signed a.2.pts / 2 = signed b.2.pts / 2 ∧ x.toNat % 2 < y.toNat % 2) ∧
    (c.written hasBFrames buffer j b = none → 2 * (signed a.2.pts / 2) + (x.toNat % 2 : Nat) < signed b.2.dts)

variable {c c' : Container} {hasBFrames : Bool} {buffer : MemoryBuffer}

/-- In a stream whose decoding times are replaced, all packets are used until the buffer is empty. -/
theorem written_before {i j : Nat} {a b : Nat × AVPacket} {y : UInt8} (stream : c.SameStream i j a b)
    (replaced : c.retimes hasBFrames a = true) (byte : c.written hasBFrames buffer j b = some y) :
    ∃ x, c.written hasBFrames buffer i a = some x := by
  obtain ⟨below,_,_,same⟩ := stream
  obtain ⟨q,place,there⟩ := Option.bind_eq_some_iff.mp byte
  obtain ⟨inside,_⟩ := List.getElem?_eq_some_iff.mp there
  have fewer : ∀ type, (((c.before i).stream type)).Sublist ((c.before j).stream type) := by
    intro type
    refine List.Sublist.map _ (List.Sublist.filter _ ?_)
    exact (List.take_prefix_take_left below.le).sublist
  suffices earlier : ∃ p < buffer.length, c.slot hasBFrames i a = some p by
    obtain ⟨p,room,place'⟩ := earlier
    exact ⟨buffer[p],by rw [written,place',Option.bind_some,List.getElem?_eq_getElem room]⟩
  unfold slot at place ⊢
  rw [same]
  by_cases video : c.streamType b.1 = .video
  · obtain rfl : hasBFrames = false := by simpa [retimes,same,video] using replaced
    have uses : ∀ packet, CarrierFileMPEG.usable (c.handler false) packet = true := fun _ => rfl
    rw [if_pos video,if_pos (uses _)] at place ⊢
    obtain rfl := Option.some.inj place
    exact ⟨_,(List.Sublist.countP_le (fewer .video)).trans_lt inside,rfl⟩
  rw [if_neg video] at place ⊢
  by_cases audio : c.streamType b.1 = .audio
  · rw [if_pos audio] at place ⊢
    obtain rfl := Option.some.inj place
    exact ⟨_,(Nat.add_le_add_left (fewer .audio).length_le _).trans_lt inside,rfl⟩
  · rw [if_neg audio] at place
    cases place

/-- Packets that move back by a tick at most have times that are given. -/
theorem Dated.given (dated : c.Dated) {times : Nat → Nat × AVPacket → AVPacket}
    (after : ∀ k, c'.packets[k]? = c.packets[k]?.map fun packet => (packet.1,times k packet))
    (late : ∀ k packet, packet ∈ c.packets → signed packet.2.dts - 1 ≤ signed (times k packet).dts)
    (presented : ∀ packet ∈ c'.packets, signed packet.2.dts ≤ signed packet.2.pts) :
    ∀ packet ∈ c'.packets, packet.2.pts ≠ Muxer.noPts ∧ packet.2.dts ≠ Muxer.noPts := by
  intro packet' member
  obtain ⟨k,packet,held,rfl⟩ := mem_after after member
  have shown : signed (times k packet).dts ≤ signed (times k packet).pts := presented _ member
  have tick := late k packet held
  have far := dated packet held
  have decoded : -2 ^ 63 < signed (times k packet).dts := by omega
  exact ⟨Muxer.given_of_lt (decoded.trans_le shown),Muxer.given_of_lt decoded⟩

end Container

namespace CarrierFileMKV
open Container

/-- A muxer with `AVFMT_TS_NONSTRICT` takes what is written into a file that is well made. -/
theorem saveBuffer_writes {av : Muxer} {c c' : Container} {buffer : MemoryBuffer} (documented : av.Documented false)
    (legal : c.StrictlyTimed) (dated : c.Dated) (saved : saveBuffer c buffer = .ok c') : av.Writes c' := by
  have timed := saveBuffer_timed legal saved
  refine documented.writes (dated.given (saveBuffer_get saved) ?_ timed.presented) timed
  intro k packet member
  cases buffer[k]? with
  | none =>
    show signed packet.2.dts - 1 ≤ signed packet.2.dts
    omega
  | some byte => exact (correct_times packet.2 byte (legal.presented packet member)).2.1

end CarrierFileMKV

namespace CarrierFileMPEG
open Container

variable {c c' : Container} {hasBFrames : Bool} {buffer : MemoryBuffer}

theorem saveContainer_apart_iff (legal : c.StrictlyTimed) (saved : saveContainer c hasBFrames buffer = .ok c') :
    c'.StrictlyTimed ↔ c.KeepsApart hasBFrames buffer := by
  obtain ⟨_,after⟩ := saveContainer_get saved
  constructor
  · rintro ⟨_,increasing⟩ i j a b x stream replaced byte
    have place := increasing i j _ _ ((sameStream_iff after).mpr ⟨a,b,stream,rfl,rfl⟩)
    have replaced' : c.retimes hasBFrames b = true := by
      rw [← replaced,retimes,retimes,stream.2.2.2]
    simp only [(rewritten_dts i a).1 x replaced byte] at place
    constructor
    · intro y byte'
      rw [(rewritten_dts j b).1 y replaced' byte'] at place
      omega
    · intro untouched
      rwa [(rewritten_dts j b).2 (.inr untouched)] at place
  · intro keeps
    constructor
    · intro packet' member
      obtain ⟨k,packet,held,rfl⟩ := mem_after after member
      exact rewritten_presented k packet (legal.presented packet held)
    · intro i j a' b' same
      obtain ⟨a,b,stream,rfl,rfl⟩ := (sameStream_iff after).mp same
      have before := legal.increasing i j a b stream
      have alike : c.retimes hasBFrames a = c.retimes hasBFrames b := by rw [retimes,retimes,stream.2.2.2]
      simp only
      cases replaced : c.retimes hasBFrames a with
      | false =>
        rw [(rewritten_dts i a).2 (.inl replaced),(rewritten_dts j b).2 (.inl (alike.symm.trans replaced))]
        exact before
      | true =>
        cases byte : c.written hasBFrames buffer i a with
        | none =>
          rw [(rewritten_dts i a).2 (.inr byte)]
          cases byte' : c.written hasBFrames buffer j b with
          | none =>
            rw [(rewritten_dts j b).2 (.inr byte')]
            exact before
          | some y =>
            obtain ⟨x,used⟩ := written_before stream replaced byte'
            rw [byte] at used
            cases used
        | some x =>
          obtain ⟨both,one⟩ := keeps i j a b x stream replaced byte
          rw [(rewritten_dts i a).1 x replaced byte]
          cases byte' : c.written hasBFrames buffer j b with
          | none =>
            rw [(rewritten_dts j b).2 (.inr byte')]
            exact one byte'
          | some y =>
            rw [(rewritten_dts j b).1 y (alike.symm.trans replaced) byte']
            have order := both y byte'
            omega

/-- Decoding times go back by a tick at most. -/
theorem rewritten_late (k : Nat) (packet : Nat × AVPacket) (presented : signed packet.2.dts ≤ signed packet.2.pts) :
    signed packet.2.dts - 1 ≤ signed (c.rewritten hasBFrames buffer k packet).dts := by
  cases byte : c.written hasBFrames buffer k packet with
  | none =>
    rw [(rewritten_dts k packet).2 (.inr byte)]
    omega
  | some x =>
    cases replaced : c.retimes hasBFrames packet with
    | true =>
      rw [(rewritten_dts k packet).1 x replaced byte]
      omega
    | false =>
      rw [(rewritten_dts k packet).2 (.inl replaced)]
      omega

/-- A muxer takes what is written into a file that is well made as long as the packets keep their places. -/
theorem saveContainer_writes {av : Muxer} {strict : Bool} (documented : av.Documented strict) (legal : c.StrictlyTimed)
    (dated : c.Dated) (saved : saveContainer c hasBFrames buffer = .ok c')
    (keeps : if strict then c.KeepsApart hasBFrames buffer else c.KeepsPlaces hasBFrames buffer) : av.Writes c' := by
  have timed : if strict then c'.StrictlyTimed else c'.Timed := by
    cases strict with
    | false => exact (saveContainer_timed_iff legal saved).mpr keeps
    | true => exact (saveContainer_apart_iff legal saved).mpr keeps
  have presented : ∀ packet ∈ c'.packets, signed packet.2.dts ≤ signed packet.2.pts := by
    intro packet' member
    obtain ⟨k,packet,held,rfl⟩ := mem_after (saveContainer_get saved).2 member
    exact rewritten_presented k packet (legal.presented packet held)
  exact documented.writes (dated.given (saveContainer_get saved).2
    (fun k packet member => rewritten_late k packet (legal.presented packet member)) presented) timed

end CarrierFileMPEG
end StegoDisk
