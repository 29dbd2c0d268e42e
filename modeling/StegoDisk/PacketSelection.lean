import StegoDisk.Containers

/-!
Whether the packets that the MPEG class reads are those that it wrote. A packet with two values of the lowest bit that
keep it presentable stays one, and one that is given a new decoding time has no distance any more. What is left is
the guess whether there are B-frames: it looks at distances of two ticks and more, which one bit can make
smaller or larger, and it decides for all packets.
-/
namespace StegoDisk

namespace Container
open CarrierFileMPEG

/-- The times of packet number `k`. -/
def times (c : Container) (k : Nat) : AVPacket := (c.packets.getD k (0,⟨0,0⟩)).2

/-- The numbers of the packets of a type that are used. -/
def picks (c : Container) (type : StreamType) (used : AVPacket → Bool) : List Nat :=
  (List.range c.packets.length).filter fun k => c.streamType (c.packets.getD k (0,⟨0,0⟩)).1 = type ∧ used (c.times k)

/-- The numbers of the packets that `LoadBuffer` reads, in its order. -/
def selected (c : Container) (h : ContainerHandler) : List Nat :=
  (c.picks .video (usable h) ++ c.picks .audio fun _ => true).take (8 * calculateCapacity h)

/-- The file that was written is read as it was meant: the same guess, the same packets and the bits of the buffer. -/
def SelectionSurvives (c : Container) (h : ContainerHandler) (buffer : MemoryBuffer) (c' : Container) : Prop :=
  ∃ h' read, c'.load none = .ok h' ∧ h'.hasBFrames = h.hasBFrames ∧ calculateCapacity h' = calculateCapacity h ∧
    c'.selected h' = c.selected h ∧ loadBuffer h' (calculateCapacity h') = .ok read ∧
    read = (c.selected h).map (fun k => lowByte (c'.times k)) ∧ read.map (· &&& 1) = buffer.map (· &&& 1)

/-- The distance of a packet that keeps its decoding time, with the bit that is written into it. -/
def moved (c : Container) (hasBFrames : Bool) (buffer : MemoryBuffer) (k : Nat) (packet : Nat × AVPacket) : Int :=
  (c.written hasBFrames buffer k packet).elim (difference packet.2) fun byte =>
    difference packet.2 - (packet.2.pts.toNat % 2 : Nat) + (byte.toNat % 2 : Nat)

/-- Some video packet has a distance of two ticks or more, and none has one that is no `int64_t`. -/
def StaysFar (c : Container) (hasBFrames : Bool) (buffer : MemoryBuffer) : Prop :=
  (∃ k packet, c.packets[k]? = some packet ∧ c.streamType packet.1 = .video ∧
    2 ≤ (c.moved hasBFrames buffer k packet).natAbs) ∧
  ∀ k packet, c.packets[k]? = some packet → c.streamType packet.1 = .video →
    (c.moved hasBFrames buffer k packet).natAbs < 2 ^ 63

/-! ### The guess -/

variable {c c' : Container} {h : ContainerHandler} {hasBFrames : Bool} {buffer : MemoryBuffer}

theorem foldlM_farApart {packets : List AVPacket} {found result : Bool} :
    packets.foldlM (fun found packet => do
        let far ← farApart packet
        .ok (found || far)) found = (.ok result : Except Failure Bool) ↔
      (∀ packet ∈ packets, (difference packet).natAbs < 2 ^ 63) ∧
        result = (found || packets.any fun packet => 2 ≤ (difference packet).natAbs) := by
  induction packets generalizing found with
  | nil => simp [pure,Except.pure,eq_comm]
  | cons packet rest ih =>
    rw [List.foldlM_cons,farApart]
    by_cases fits : (difference packet).natAbs < 2 ^ 63
    · simp only [fits,if_true,ok_bind,ih,List.forall_mem_cons,true_and,List.any_cons,Bool.or_assoc]
    · simp only [fits,if_false,error_bind,List.forall_mem_cons,false_and,reduceCtorEq]

theorem load_ok : c.load none = .ok h ↔ (∀ packet ∈ c.stream .video, (difference packet).natAbs < 2 ^ 63) ∧
    h = c.handler ((c.stream .video).any fun packet => 2 ≤ (difference packet).natAbs) := by
  rw [load,bind_eq_ok]
  constructor
  · rintro ⟨found,ran,last⟩
    obtain ⟨fits,rfl⟩ := foldlM_farApart.mp ran
    obtain rfl := Except.ok.inj last
    exact ⟨fits,rfl⟩
  · rintro ⟨fits,rfl⟩
    exact ⟨_,foldlM_farApart.mpr ⟨fits,rfl⟩,rfl⟩

theorem mem_stream {type : StreamType} {times : AVPacket} :
    times ∈ c.stream type ↔
      ∃ (k : Nat) (packet : Nat × AVPacket), c.packets[k]? = some packet ∧ c.streamType packet.1 = type ∧ times = packet.2 := by
  simp only [stream,List.mem_map,List.mem_filter,inType,decide_eq_true_eq]
  constructor
  · rintro ⟨packet,⟨member,own⟩,rfl⟩
    obtain ⟨k,there⟩ := List.mem_iff_getElem?.mp member
    exact ⟨k,packet,there,own,rfl⟩
  · rintro ⟨k,packet,there,own,rfl⟩
    exact ⟨packet,⟨List.mem_of_getElem? there,own⟩,rfl⟩

/-- The video packets after `SaveBuffer`. -/
theorem mem_video_saved (saved : saveContainer c hasBFrames buffer = .ok c') {times : AVPacket} :
    times ∈ c'.stream .video ↔ ∃ k packet, c.packets[k]? = some packet ∧ c.streamType packet.1 = .video ∧
      times = c.rewritten hasBFrames buffer k packet := by
  obtain ⟨types,after⟩ := saveContainer_get saved
  simp only [mem_stream,types,after,Option.map_eq_some_iff]
  constructor
  · rintro ⟨k,_,⟨packet,there,rfl⟩,own,rfl⟩
    exact ⟨k,packet,there,own,rfl⟩
  · rintro ⟨k,packet,there,own,rfl⟩
    exact ⟨k,_,⟨packet,there,rfl⟩,own,rfl⟩

theorem signed_mod_two (x : UInt64) : signed x % 2 = (x.toNat % 2 : Nat) := by
  unfold signed
  split <;> omega

/-- With B-frames a video packet keeps its decoding time. -/
theorem difference_kept {k : Nat} {packet : Nat × AVPacket} (own : c.streamType packet.1 = .video) :
    difference (c.rewritten true buffer k packet) = c.moved true buffer k packet := by
  have kept : c.retimes true packet = false := by simp [retimes,own]
  rw [rewritten,moved,kept]
  cases c.written true buffer k packet with
  | none => rfl
  | some byte =>
    have shown := signed_stamp false packet.2 byte
    have odd := signed_mod_two packet.2.pts
    simp only [Option.elim_some,difference,shown]
    have same : (stamp false packet.2 byte).dts = packet.2.dts := rfl
    rw [same]
    omega

/-- Without B-frames no packet comes to lie further apart. -/
theorem difference_close (c : Container) (buffer : MemoryBuffer) (k : Nat) (packet : Nat × AVPacket) :
    (difference (c.rewritten false buffer k packet)).natAbs ≤ (difference packet.2).natAbs := by
  have replaced : c.retimes false packet = true := by simp [retimes]
  rw [rewritten,replaced]
  cases c.written false buffer k packet with
  | none => rfl
  | some byte => simp [difference,stamp]

theorem staysFar_iff (saved : saveContainer c true buffer = .ok c') :
    c'.load none = .ok (c'.handler true) ↔ c.StaysFar true buffer := by
  rw [load_ok,StaysFar,and_comm]
  apply and_congr
  · constructor
    · intro same
      have found : (c'.stream .video).any (fun packet => 2 ≤ (difference packet).natAbs) = true := by
        rw [← c'.handler_hasBFrames ((c'.stream .video).any fun packet => 2 ≤ (difference packet).natAbs),← same]
        rfl
      obtain ⟨times,member,far⟩ := List.any_eq_true.mp found
      obtain ⟨k,packet,there,own,rfl⟩ := (mem_video_saved saved).mp member
      rw [difference_kept own,decide_eq_true_eq] at far
      exact ⟨k,packet,there,own,far⟩
    · rintro ⟨k,packet,there,own,far⟩
      have found : (c'.stream .video).any (fun packet => 2 ≤ (difference packet).natAbs) = true := by
        refine List.any_eq_true.mpr ⟨_,(mem_video_saved saved).mpr ⟨k,packet,there,own,rfl⟩,?_⟩
        rw [difference_kept own,decide_eq_true_eq]
        exact far
      rw [found]
  · constructor
    · intro fits k packet there own
      rw [← difference_kept own]
      exact fits _ ((mem_video_saved saved).mpr ⟨k,packet,there,own,rfl⟩)
    · intro fits times member
      obtain ⟨k,packet,there,own,rfl⟩ := (mem_video_saved saved).mp member
      rw [difference_kept own]
      exact fits k packet there own

/-- Without B-frames none are found afterwards. -/
theorem staysClose (loaded : c.load none = .ok (c.handler false)) (saved : saveContainer c false buffer = .ok c') :
    c'.load none = .ok (c'.handler false) := by
  obtain ⟨fits,same⟩ := load_ok.mp loaded
  have close : (c.stream .video).any (fun packet => 2 ≤ (difference packet).natAbs) = false := by
    rw [← c.handler_hasBFrames ((c.stream .video).any fun packet => 2 ≤ (difference packet).natAbs),← same]
    rfl
  rw [List.any_eq_false] at close
  have nearer : ∀ times ∈ c'.stream .video, (difference times).natAbs < 2 := by
    intro times member
    obtain ⟨k,packet,there,own,rfl⟩ := (mem_video_saved saved).mp member
    have limit := close packet.2 (mem_stream.mpr ⟨k,packet,there,own,rfl⟩)
    rw [decide_eq_true_eq] at limit
    have closer := difference_close c buffer k packet
    omega
  refine load_ok.mpr ⟨fun times member => (nearer times member).trans (by decide),?_⟩
  congr 1
  symm
  apply List.any_eq_false.mpr
  intro times member
  rw [decide_eq_true_eq]
  have := nearer times member
  omega

end Container

/-! ### The packets -/

namespace CarrierFileMPEG
open Container

variable {c c' : Container} {hasBFrames : Bool} {buffer : MemoryBuffer} {used : AVPacket → Bool} {updateDts : Bool}

/-- The packets that are used are the same ones, where stamping does not change which are. -/
theorem visited_filter (stays : ∀ packet byte, used packet = true → used (stamp updateDts packet byte) = true)
    (offset : Nat) (packets : List AVPacket) : (visited used updateDts buffer offset packets).filter used =
      visited (fun _ => true) updateDts buffer offset (packets.filter used) := by
  induction packets generalizing offset with
  | nil => rfl
  | cons packet rest ih =>
    rw [visited_cons]
    by_cases uses : used packet = true
    · rw [List.filter_cons_of_pos uses,visited_cons,List.filter_cons_of_pos,ih]
      · simp only [uses,true_and,if_true]
      · split
        · exact stays _ _ uses
        · exact uses
    · rw [List.filter_cons_of_neg uses,if_neg (fun both => uses both.1),List.filter_cons_of_neg uses,ih,if_neg uses,Nat.add_zero]

/-- The bits of the packets that were given some. -/
theorem visited_bits (updateDts : Bool) (buffer : MemoryBuffer) (offset : Nat) (packets : List AVPacket) :
    ((visited (fun _ => true) updateDts buffer offset packets).take (buffer.length - offset)).map (lowByte · &&& 1) =
      ((buffer.drop offset).take packets.length).map (· &&& 1) := by
  induction packets generalizing offset with
  | nil => simp [visited]
  | cons packet rest ih =>
    by_cases inside : offset < buffer.length
    · obtain ⟨left,more⟩ : ∃ left, buffer.length - offset = left + 1 := ⟨buffer.length - offset - 1,by omega⟩
      have later := ih (offset + 1)
      rw [show buffer.length - (offset + 1) = left by omega] at later
      rw [visited_cons,more,List.drop_eq_getElem_cons inside]
      simp only [inside,and_self,if_true,List.take_succ_cons,List.map_cons,later,lowByte_stamp,List.length_cons,
        List.getD_eq_getElem _ _ inside]
    · rw [show buffer.length - offset = 0 by omega,List.drop_of_length_le (by omega)]
      simp

/-- The streams after `SaveBuffer`. -/
theorem saveContainer_streams (saved : saveContainer c hasBFrames buffer = .ok c') :
    c'.stream .video = visited (usable (c.handler hasBFrames)) (!hasBFrames) buffer 0 (c.stream .video) ∧
      c'.stream .audio = visited (fun _ => true) true buffer
        ((c.stream .video).countP (usable (c.handler hasBFrames))) (c.stream .audio) ∧
      ((c.stream .video).countP (usable (c.handler hasBFrames)) < buffer.length ∨ c.stream .audio = []) := by
  obtain ⟨h,ran,last⟩ := bind_eq_ok.mp saved
  obtain rfl := Except.ok.inj last
  obtain ⟨rfl,room⟩ := saveBuffer_returns ran
  simp only [handler_video,handler_audio,handler_hasBFrames,visited_getD,streamData_getD] at room ⊢
  obtain ⟨video,audio⟩ := @stream_refer c.streamType c.packets
    (visited (usable (c.handler hasBFrames)) (!hasBFrames) buffer 0 (c.stream .video))
    (visited (fun _ => true) true buffer ((c.stream .video).countP (usable (c.handler hasBFrames))) (c.stream .audio))
    (by simp [visited]) (by simp [visited])
  exact ⟨video,audio,room⟩

theorem usable_handler (c c' : Container) (hasBFrames : Bool) : usable (c'.handler hasBFrames) = usable (c.handler hasBFrames) := rfl

theorem usablePackets_handler (c : Container) (hasBFrames : Bool) : usablePackets (c.handler hasBFrames) =
    (c.stream .video).filter (usable (c.handler hasBFrames)) ++ c.stream .audio := by
  rw [usablePackets,handler_video,handler_audio,streamData_getD,streamData_getD]

/-- Stamping a video packet leaves it one that is used. -/
theorem usable_stamp (c : Container) (hasBFrames : Bool) (packet : AVPacket) (byte : UInt8) :
    usable (c.handler hasBFrames) (stamp (!hasBFrames) packet byte) = usable (c.handler hasBFrames) packet := by
  cases hasBFrames with
  | false => rfl
  | true => exact applicable_stamp packet byte

theorem usablePackets_saved (saved : saveContainer c hasBFrames buffer = .ok c') :
    usablePackets (c'.handler hasBFrames) =
      visited (fun _ => true) (!hasBFrames) buffer 0 ((c.stream .video).filter (usable (c.handler hasBFrames))) ++
        visited (fun _ => true) true buffer ((c.stream .video).countP (usable (c.handler hasBFrames))) (c.stream .audio) := by
  obtain ⟨video,audio,_⟩ := saveContainer_streams saved
  rw [usablePackets_handler,usable_handler c,video,audio,visited_filter]
  intro packet byte uses
  rwa [usable_stamp]

theorem visited_length (offset : Nat) (packets : List AVPacket) :
    (visited used updateDts buffer offset packets).length = packets.length := by
  rw [visited,List.length_mapIdx]

theorem calculateCapacity_saved (saved : saveContainer c hasBFrames buffer = .ok c') :
    calculateCapacity (c'.handler hasBFrames) = calculateCapacity (c.handler hasBFrames) := by
  rw [calculateCapacity_eq,calculateCapacity_eq,usablePackets_saved saved,usablePackets_handler,List.length_append,
    List.length_append,visited_length,visited_length]

/-- The bits in the packets that are used are those of the buffer. -/
theorem bits_saved (size : buffer.length = 8 * calculateCapacity (c.handler hasBFrames))
    (saved : saveContainer c hasBFrames buffer = .ok c') :
    ((usablePackets (c'.handler hasBFrames)).take buffer.length).map (lowByte · &&& 1) = buffer.map (· &&& 1) := by
  rw [calculateCapacity_eq,usablePackets_handler,List.length_append,← List.countP_eq_length_filter] at size
  have videos := visited_bits (!hasBFrames) buffer 0 ((c.stream .video).filter (usable (c.handler hasBFrames)))
  have audios := visited_bits true buffer ((c.stream .video).countP (usable (c.handler hasBFrames))) (c.stream .audio)
  rw [Nat.sub_zero,List.drop_zero,← List.countP_eq_length_filter] at videos
  rw [usablePackets_saved saved,List.take_append,List.map_append,visited_length,← List.countP_eq_length_filter,videos,
    audios,← List.map_append,← List.take_add,List.take_of_length_le (by omega)]

theorem readPackets_unused {packets : List AVPacket} (unused : packets.filter used = []) (offset : Nat) :
    readPackets used packets buffer offset = .ok (buffer,offset) := by
  induction packets with
  | nil => rfl
  | cons packet rest ih =>
    have skips : used packet = false := by simpa using List.filter_eq_nil_iff.mp unused packet List.mem_cons_self
    rw [List.filter_cons_of_neg (by simp [skips])] at unused
    rw [readPackets,skips,if_neg Bool.false_ne_true,ih unused]

/-- An empty buffer is saved only where no packet is used, and then it is read again. -/
theorem saveBuffer_nil {h h' : ContainerHandler} (ran : saveBuffer h [] = .ok h') : usablePackets h = [] := by
  obtain ⟨⟨video,offset⟩,first,rest⟩ := bind_eq_ok.mp ran
  obtain ⟨⟨audio,stop⟩,second,_⟩ := bind_eq_ok.mp rest
  obtain ⟨blank,rfl,rfl⟩ := writePackets_full le_rfl first
  obtain ⟨silent,_⟩ := writePackets_full le_rfl second
  rw [List.filter_true] at silent
  rw [usablePackets,blank,silent,List.append_nil]

theorem loadBuffer_nil {h : ContainerHandler} (none_ : usablePackets h = []) : loadBuffer h 0 = .ok [] := by
  obtain ⟨blank,silent⟩ := List.append_eq_nil_iff.mp none_
  rw [loadBuffer,readPackets_unused blank,ok_bind,silent]
  rfl

/-- `LoadBuffer` of the file that was written. -/
theorem loadBuffer_saved (size : buffer.length = 8 * calculateCapacity (c.handler hasBFrames))
    (saved : saveContainer c hasBFrames buffer = .ok c') :
    loadBuffer (c'.handler hasBFrames) (calculateCapacity (c'.handler hasBFrames)) =
      .ok (((usablePackets (c'.handler hasBFrames)).take buffer.length).map lowByte) := by
  obtain ⟨video,audio,room⟩ := saveContainer_streams saved
  have same := calculateCapacity_saved saved
  rw [← same] at size
  rw [size]
  by_cases positive : 1 ≤ calculateCapacity (c'.handler hasBFrames)
  · have fits : ((c'.handler hasBFrames).video.getD []).countP (usable (c'.handler hasBFrames)) <
        8 * calculateCapacity (c'.handler hasBFrames) ∨ (c'.handler hasBFrames).audio.getD [] = [] := by
      rw [handler_video,handler_audio,streamData_getD,streamData_getD,← size,List.countP_eq_length_filter,usable_handler c,
        video,visited_filter,visited_length,← List.countP_eq_length_filter,audio]
      · cases room with
        | inl room => exact .inl room
        | inr silent => exact .inr (by rw [silent]; rfl)
      · intro packet byte uses
        rwa [usable_stamp]
    obtain ⟨read,loaded,_,rfl⟩ := (gathers_of_fits positive fits).loads
    exact loaded
  · have zero : calculateCapacity (c'.handler hasBFrames) = 0 := by omega
    rw [zero] at size
    obtain rfl := List.eq_nil_of_length_eq_zero size
    obtain ⟨h,ran,_⟩ := bind_eq_ok.mp saved
    have blank := saveBuffer_nil ran
    have length := congrArg List.length (usablePackets_saved saved)
    rw [List.length_append,visited_length,visited_length,← List.length_append,← usablePackets_handler,blank] at length
    rw [zero,loadBuffer_nil (List.eq_nil_of_length_eq_zero length)]
    rfl

/-! ### Their numbers -/

/-- The times of the picked packets are those that the stream gives. -/
theorem picks_times (c : Container) (type : StreamType) (used : AVPacket → Bool) :
    (c.picks type used).map c.times = (c.stream type).filter used := by
  have whole : (List.range c.packets.length).map (fun k => c.packets.getD k (0,⟨0,0⟩)) = c.packets := by
    apply List.ext_getElem
    · simp
    · intro k _ inside
      rw [List.getElem_map,List.getElem_range,List.getD_eq_getElem _ _ inside]
  calc (c.picks type used).map c.times
      = (((List.range c.packets.length).map fun k => c.packets.getD k (0,⟨0,0⟩)).filter fun packet =>
          c.streamType packet.1 = type ∧ used packet.2).map Prod.snd := by
        rw [List.filter_map,List.map_map]
        rfl
    _ = (c.stream type).filter used := by
        rw [whole,stream,List.filter_map,List.filter_filter]
        congr 1
        apply List.filter_congr
        intro packet _
        simp [inType,Bool.and_comm]

theorem selected_times (c : Container) (hasBFrames : Bool) : (c.selected (c.handler hasBFrames)).map c.times =
    (usablePackets (c.handler hasBFrames)).take (8 * calculateCapacity (c.handler hasBFrames)) := by
  rw [selected,List.map_take,List.map_append,picks_times,picks_times,List.filter_true,usablePackets_handler]

/-- Packets that are used as before have the same numbers. -/
theorem picks_saved {type : StreamType} (saved : saveContainer c hasBFrames buffer = .ok c')
    (stays : ∀ k packet, c.packets[k]? = some packet → c.streamType packet.1 = type →
      used (c.rewritten hasBFrames buffer k packet) = used packet.2) : c'.picks type used = c.picks type used := by
  obtain ⟨types,after⟩ := saveContainer_get saved
  have length : c'.packets.length = c.packets.length := by
    apply Nat.le_antisymm
    · rw [← List.getElem?_eq_none_iff,after,Option.map_eq_none_iff,List.getElem?_eq_none_iff]
    · have beyond := after c'.packets.length
      rwa [List.getElem?_eq_none_iff.mpr le_rfl,eq_comm,Option.map_eq_none_iff,List.getElem?_eq_none_iff] at beyond
  rw [picks,picks,length]
  apply List.filter_congr
  intro k inside
  obtain ⟨packet,there⟩ : ∃ packet, c.packets[k]? = some packet :=
    ⟨_,List.getElem?_eq_getElem (List.mem_range.mp inside)⟩
  have then_ := after k
  rw [there,Option.map_some] at then_
  simp only [times,List.getD_eq_getElem?_getD,there,then_,Option.getD_some,types]
  by_cases own : c.streamType packet.1 = type
  · rw [stays k _ there own]
  · simp only [own,false_and]

theorem selected_saved (saved : saveContainer c hasBFrames buffer = .ok c') :
    c'.selected (c'.handler hasBFrames) = c.selected (c.handler hasBFrames) := by
  rw [selected,selected,calculateCapacity_saved saved,usable_handler c]
  congr 2
  · apply picks_saved saved
    intro k packet there own
    have follows : c.retimes hasBFrames packet = !hasBFrames := by simp [retimes,own]
    rw [rewritten,follows]
    cases c.written hasBFrames buffer k packet with
    | none => rfl
    | some byte => exact usable_stamp c hasBFrames packet.2 byte
  · exact picks_saved saved fun _ _ _ _ => rfl

end CarrierFileMPEG

namespace Container
open CarrierFileMPEG

/-- Where the guess is as it was before, all is. -/
theorem survives_of_guess (loaded : c.load none = .ok (c.handler hasBFrames))
    (size : buffer.length = 8 * calculateCapacity (c.handler hasBFrames)) (saved : saveContainer c hasBFrames buffer = .ok c')
    (far : hasBFrames = true → c.StaysFar hasBFrames buffer) : c.SelectionSurvives (c.handler hasBFrames) buffer c' := by
  have again : c'.load none = .ok (c'.handler hasBFrames) := by
    cases hasBFrames with
    | false => exact staysClose loaded saved
    | true => exact (staysFar_iff saved).mpr (far rfl)
  refine ⟨_,_,again,rfl,calculateCapacity_saved saved,selected_saved saved,loadBuffer_saved size saved,?_,?_⟩
  · have chosen := congrArg (List.map lowByte) (selected_times c' hasBFrames)
    rw [List.map_map,selected_saved saved,calculateCapacity_saved saved,← size] at chosen
    exact chosen.symm
  · rw [List.map_map]
    exact bits_saved size saved

/-- What is embedded in a container is found again exactly when there were no B-frames or the distances still show
    them. -/
theorem selectionSurvives_iff (c c' : Container) (h : ContainerHandler) (buffer : MemoryBuffer) (loaded : c.load none = .ok h)
    (size : buffer.length = 8 * calculateCapacity h) (saved : saveContainer c h.hasBFrames buffer = .ok c') :
    c.SelectionSurvives h buffer c' ↔ (h.hasBFrames = true → c.StaysFar h.hasBFrames buffer) := by
  obtain ⟨hasBFrames,rfl⟩ : ∃ hasBFrames, h = c.handler hasBFrames := ⟨_,(load_ok.mp loaded).2⟩
  simp only [handler_hasBFrames] at saved ⊢
  constructor
  · rintro ⟨h',read,again,same,_⟩ frames
    subst frames
    obtain ⟨hasBFrames',rfl⟩ : ∃ hasBFrames', h' = c'.handler hasBFrames' := ⟨_,(load_ok.mp again).2⟩
    simp only [handler_hasBFrames] at same
    subst same
    exact (staysFar_iff saved).mp again
  · exact survives_of_guess loaded size saved

/-- Nine video packets: the first one has no room for the bit 0, and the last one is shown after it is decoded. -/
def lateLast (pts : UInt64) : Container where
  streamType _ := .video
  packets := [(0,⟨1,1⟩)] ++ (List.range 7).map (fun k => (0,⟨UInt64.ofNat (2 * k + 2),UInt64.ofNat (2 * k + 2)⟩)) ++
    [(0,⟨pts,15⟩)]

theorem selectionSurvives_late : ∃ c', saveContainer (lateLast 18) true [0,1,0,1,0,1,0,1] = .ok c' ∧
    (lateLast 18).SelectionSurvives ((lateLast 18).handler true) [0,1,0,1,0,1,0,1] c' := by
  have saved : saveContainer (lateLast 18) true [0,1,0,1,0,1,0,1] = .ok _ := rfl
  exact ⟨_,saved,(selectionSurvives_iff _ _ ((lateLast 18).handler true) _ rfl (by decide) saved).mpr
    fun _ => (staysFar_iff saved).mp rfl⟩

/-- The bit 0 moves the last packet to the tick after its decoding time. Nothing shows the B-frames any more, and
    the first packet is read too. -/
theorem not_selectionSurvives_late : (lateLast 17).load none = .ok ((lateLast 17).handler true) ∧
    ∃ c', saveContainer (lateLast 17) true [0,0,0,0,0,0,0,0] = .ok c' ∧ c'.load none = .ok (c'.handler false) ∧
      loadBuffer (c'.handler false) 1 = .ok [1,2,4,6,8,10,12,14] ∧
      ¬ (lateLast 17).SelectionSurvives ((lateLast 17).handler true) [0,0,0,0,0,0,0,0] c' := by
  have saved : saveContainer (lateLast 17) true [0,0,0,0,0,0,0,0] = .ok _ := rfl
  refine ⟨rfl,_,saved,rfl,rfl,?_⟩
  rintro ⟨h',read,again,same,_⟩
  have guessed := (load_ok.mp again).2
  rw [guessed] at same
  revert same
  decide

end Container
end StegoDisk
