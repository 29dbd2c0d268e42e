import StegoDisk.Containers

/-!
The times of the packets that `SaveBuffer` leaves. No packet comes to be shown before it is decoded, in either class.
The MKV class also keeps the decoding times of a stream in order: it moves one back by a tick at most, and the
one in front of it lies at least a tick behind. The MPEG class replaces the decoding time by the
presentation time, bit and all, so that two packets of a stream can change places.
-/
namespace StegoDisk

namespace Container

/-- The packets of one stream, in order. -/
def SameStream (c : Container) (i j : Nat) (a b : Nat × AVPacket) : Prop :=
  i < j ∧ c.packets[i]? = some a ∧ c.packets[j]? = some b ∧ a.1 = b.1

/-- The times of a file that is well made. -/
structure StrictlyTimed (c : Container) : Prop where
  presented : ∀ packet ∈ c.packets, signed packet.2.dts ≤ signed packet.2.pts
  increasing : ∀ i j a b, c.SameStream i j a b → signed a.2.dts < signed b.2.dts

/-- The times that are accepted when packets are written. -/
structure Timed (c : Container) : Prop where
  presented : ∀ packet ∈ c.packets, signed packet.2.dts ≤ signed packet.2.pts
  ordered : ∀ i j a b, c.SameStream i j a b → signed a.2.dts ≤ signed b.2.dts

/-- A packet whose decoding time is replaced stays in front of the later ones of its stream: of one whose time is
    replaced too, by half of its presentation time or else by its bit, and of the others by the new time. -/
def KeepsPlaces (c : Container) (hasBFrames : Bool) (buffer : MemoryBuffer) : Prop :=
  ∀ i j a b x, c.SameStream i j a b → c.retimes hasBFrames a = true → c.written hasBFrames buffer i a = some x →
    (∀ y, c.written hasBFrames buffer j b = some y → signed a.2.pts / 2 < signed b.2.pts / 2 ∨
      signed a.2.pts / 2 = signed b.2.pts / 2 ∧ x.toNat % 2 ≤ y.toNat % 2) ∧
    (c.written hasBFrames buffer j b = none → 2 * (signed a.2.pts / 2) + (x.toNat % 2 : Nat) ≤ signed b.2.dts)

end Container

/-- The classes that embed in containers. -/
inductive ContainerClass
  | mkv
  | mpeg
  deriving DecidableEq

/-- `SaveBuffer` of the two classes. -/
def ContainerClass.saveBuffer (class_ : ContainerClass) (c : Container) (hasBFrames : Bool) (buffer : MemoryBuffer) :
    Except Failure Container :=
  match class_ with
  | .mkv => CarrierFileMKV.saveBuffer c buffer
  | .mpeg => CarrierFileMPEG.saveContainer c hasBFrames buffer

namespace Container

variable {c c' : Container} {hasBFrames : Bool} {buffer : MemoryBuffer}

/-- Packets that are changed one by one, each in its stream, are the changed ones. -/
theorem sameStream_iff {times : Nat → Nat × AVPacket → AVPacket}
    (after : ∀ k, c'.packets[k]? = c.packets[k]?.map fun packet => (packet.1,times k packet)) {i j : Nat}
    {a' b' : Nat × AVPacket} : c'.SameStream i j a' b' ↔
      ∃ a b, c.SameStream i j a b ∧ a' = (a.1,times i a) ∧ b' = (b.1,times j b) := by
  simp only [SameStream,after,Option.map_eq_some_iff]
  constructor
  · rintro ⟨below,⟨a,here,rfl⟩,⟨b,there,rfl⟩,same⟩
    exact ⟨a,b,⟨below,here,there,same⟩,rfl,rfl⟩
  · rintro ⟨a,b,⟨below,here,there,same⟩,rfl,rfl⟩
    exact ⟨below,⟨a,here,rfl⟩,⟨b,there,rfl⟩,same⟩

theorem mem_after {times : Nat → Nat × AVPacket → AVPacket}
    (after : ∀ k, c'.packets[k]? = c.packets[k]?.map fun packet => (packet.1,times k packet)) {packet' : Nat × AVPacket}
    (member : packet' ∈ c'.packets) : ∃ k packet, packet ∈ c.packets ∧ packet' = (packet.1,times k packet) := by
  obtain ⟨k,there⟩ := List.mem_iff_getElem?.mp member
  rw [after,Option.map_eq_some_iff] at there
  obtain ⟨packet,here,rfl⟩ := there
  exact ⟨k,packet,List.mem_of_getElem? here,rfl⟩

end Container

/-! ### MKV -/

namespace CarrierFileMKV
open Container

/-- A packet moves back by a tick at most, and is not shown before it is decoded. -/
theorem correct_times (packet : AVPacket) (byte : UInt8) (presented : signed packet.dts ≤ signed packet.pts) :
    signed (correct (CarrierFileMPEG.stamp false packet byte)).dts ≤ signed packet.dts ∧
      signed packet.dts - 1 ≤ signed (correct (CarrierFileMPEG.stamp false packet byte)).dts ∧
      signed (correct (CarrierFileMPEG.stamp false packet byte)).dts ≤
        signed (correct (CarrierFileMPEG.stamp false packet byte)).pts := by
  have shown := CarrierFileMPEG.signed_stamp false packet byte
  have kept : (CarrierFileMPEG.stamp false packet byte).dts = packet.dts := rfl
  unfold correct
  split
  · simp only [kept] at *
    omega
  · simp only [kept] at *
    omega

theorem saveBuffer_timed {c c' : Container} {buffer : MemoryBuffer} (legal : c.StrictlyTimed)
    (saved : saveBuffer c buffer = .ok c') : c'.Timed := by
  have after := saveBuffer_get saved
  -- what either case of the buffer does to a packet
  have moved : ∀ (k : Nat) packet, packet ∈ c.packets → ∀ times, times =
      ((buffer[k]?).elim packet.2 fun byte => correct (CarrierFileMPEG.stamp false packet.2 byte)) →
      signed times.dts ≤ signed packet.2.dts ∧ signed packet.2.dts - 1 ≤ signed times.dts ∧
        signed times.dts ≤ signed times.pts := by
    intro k packet member times same
    have presented := legal.presented packet member
    cases byte : buffer[k]? with
    | none =>
      rw [byte,Option.elim_none] at same
      subst same
      omega
    | some byte' =>
      rw [byte,Option.elim_some] at same
      subst same
      exact correct_times packet.2 byte' presented
  constructor
  · intro packet' member
    obtain ⟨k,packet,held,rfl⟩ := mem_after after member
    exact (moved k packet held _ rfl).2.2
  · intro i j a' b' same
    obtain ⟨a,b,stream,rfl,rfl⟩ := (sameStream_iff after).mp same
    have before := legal.increasing i j a b stream
    have first := moved i a (List.mem_of_getElem? stream.2.1) _ rfl
    have second := moved j b (List.mem_of_getElem? stream.2.2.1) _ rfl
    simp only at first second ⊢
    omega

end CarrierFileMKV
/-! ### MPEG -/

namespace CarrierFileMPEG
open Container

variable {c c' : Container} {hasBFrames : Bool} {buffer : MemoryBuffer}

/-- A packet that is used although there are B-frames is not shown before it is decoded. -/
theorem applicable_presented {packet : AVPacket} (uses : applicable packet = true) (byte : UInt8)
    (presented : signed packet.dts ≤ signed packet.pts) : signed packet.dts ≤ signed (stamp false packet byte).pts := by
  have shown := signed_stamp false packet byte
  have lower : packet.dts.toNat ≤ 2 * (packet.pts.toNat / 2) := by
    simp only [applicable,getTestValues,modifyLSB,ge_iff_le,Bool.and_eq_true,decide_eq_true_eq] at uses
    have low := UInt64.le_iff_toNat_le.mp uses.1
    rwa [UInt64.or_zero,cleared_toNat] at low
  have first := packet.pts.toNat_lt
  have second := packet.dts.toNat_lt
  simp only [signed] at *
  split at presented <;> split at presented <;> simp_all <;> omega

/-- The decoding time of a packet after `SaveBuffer`. -/
theorem rewritten_dts (k : Nat) (packet : Nat × AVPacket) :
    (∀ x, c.retimes hasBFrames packet = true → c.written hasBFrames buffer k packet = some x →
      signed (c.rewritten hasBFrames buffer k packet).dts = 2 * (signed packet.2.pts / 2) + (x.toNat % 2 : Nat)) ∧
    (c.retimes hasBFrames packet = false ∨ c.written hasBFrames buffer k packet = none →
      (c.rewritten hasBFrames buffer k packet).dts = packet.2.dts) := by
  constructor
  · intro x replaced byte
    rw [rewritten,byte,Option.elim_some,replaced,← signed_stamp true]
    rfl
  · rintro (kept | untouched)
    · rw [rewritten,kept]
      cases c.written hasBFrames buffer k packet <;> rfl
    · rw [rewritten,untouched,Option.elim_none]

theorem rewritten_presented (k : Nat) (packet : Nat × AVPacket) (presented : signed packet.2.dts ≤ signed packet.2.pts) :
    signed (c.rewritten hasBFrames buffer k packet).dts ≤ signed (c.rewritten hasBFrames buffer k packet).pts := by
  cases byte : c.written hasBFrames buffer k packet with
  | none =>
    rw [rewritten,byte,Option.elim_none]
    exact presented
  | some x =>
    rw [rewritten,byte,Option.elim_some]
    cases replaced : c.retimes hasBFrames packet with
    | true => exact le_rfl
    | false =>
      -- a video packet of a stream with B-frames
      obtain ⟨quiet,frames⟩ : c.streamType packet.1 ≠ .audio ∧ hasBFrames = true := by simpa [retimes] using replaced
      refine applicable_presented ?_ x presented
      by_contra refused
      simp [written,slot,quiet,usable,frames,refused] at byte

theorem saveContainer_timed_iff (legal : c.StrictlyTimed) (saved : saveContainer c hasBFrames buffer = .ok c') :
    c'.Timed ↔ c.KeepsPlaces hasBFrames buffer := by
  obtain ⟨types,after⟩ := saveContainer_get saved
  constructor
  · rintro ⟨_,ordered⟩ i j a b x stream replaced byte
    have place := ordered i j _ _ ((sameStream_iff after).mpr ⟨a,b,stream,rfl,rfl⟩)
    have replaced' : c.retimes hasBFrames b = true := by
      rw [← replaced,retimes,retimes,stream.2.2.2]
    simp only [(rewritten_dts i a).1 x replaced byte] at place
    constructor
    · intro y byte'
      rw [(rewritten_dts j b).1 y replaced' byte'] at place
      omega
    · intro untouched
      rwa [(rewritten_dts j b).2 (.inr untouched)] at place
  · intro keeps
    constructor
    · intro packet' member
      obtain ⟨k,packet,held,rfl⟩ := mem_after after member
      exact rewritten_presented k packet (legal.presented packet held)
    · intro i j a' b' same
      obtain ⟨a,b,stream,rfl,rfl⟩ := (sameStream_iff after).mp same
      have before := legal.increasing i j a b stream
      have presented := legal.presented b (List.mem_of_getElem? stream.2.2.1)
      have alike : c.retimes hasBFrames a = c.retimes hasBFrames b := by rw [retimes,retimes,stream.2.2.2]
      simp only
      cases replaced : c.retimes hasBFrames a with
      | false =>
        rw [(rewritten_dts i a).2 (.inl replaced),(rewritten_dts j b).2 (.inl (alike.symm.trans replaced))]
        omega
      | true =>
        cases byte : c.written hasBFrames buffer i a with
        | none =>
          rw [(rewritten_dts i a).2 (.inr byte)]
          cases byte' : c.written hasBFrames buffer j b with
          | none =>
            rw [(rewritten_dts j b).2 (.inr byte')]
            omega
          | some y =>
            rw [(rewritten_dts j b).1 y (alike.symm.trans replaced) byte']
            omega
        | some x =>
          obtain ⟨both,one⟩ := keeps i j a b x stream replaced byte
          rw [(rewritten_dts i a).1 x replaced byte]
          cases byte' : c.written hasBFrames buffer j b with
          | none =>
            rw [(rewritten_dts j b).2 (.inr byte')]
            exact one byte'
          | some y =>
            rw [(rewritten_dts j b).1 y (alike.symm.trans replaced) byte']
            have order := both y byte'
            omega

end CarrierFileMPEG

namespace ContainerClass
open Container

/-- The times of a well made file stay legal exactly when it is an MKV file or the packets of each stream keep their
    places. -/
theorem saveBuffer_timed_iff (class_ : ContainerClass) (c c' : Container) (hasBFrames : Bool) (buffer : MemoryBuffer)
    (legal : c.StrictlyTimed) (saved : class_.saveBuffer c hasBFrames buffer = .ok c') :
    c'.Timed ↔ (class_ = .mpeg → c.KeepsPlaces hasBFrames buffer) := by
  cases class_ with
  | mkv =>
    have timed := CarrierFileMKV.saveBuffer_timed legal saved
    exact ⟨fun _ other => absurd other (by decide),fun _ => timed⟩
  | mpeg =>
    rw [CarrierFileMPEG.saveContainer_timed_iff legal saved]
    exact ⟨fun keeps _ => keeps,fun keeps => keeps rfl⟩

/-- Eight video packets whose times go up by a step. -/
def ticking (step : Nat) : Container where
  streamType _ := .video
  packets := (List.range 8).map fun k => (0,⟨UInt64.ofNat (step * k),UInt64.ofNat (step * k)⟩)

theorem signed_ofNat {n : Nat} (small : n < 2 ^ 63) : signed (UInt64.ofNat n) = n := by
  rw [signed,UInt64.toNat_ofNat_of_lt' (show n < 2 ^ 64 by omega),if_pos small]

theorem ticking_at {step k : Nat} {packet : Nat × AVPacket} (there : (ticking step).packets[k]? = some packet) :
    k < 8 ∧ packet = (0,⟨UInt64.ofNat (step * k),UInt64.ofNat (step * k)⟩) := by
  rw [ticking,List.getElem?_map,Option.map_eq_some_iff] at there
  obtain ⟨k',here,rfl⟩ := there
  obtain ⟨inside,rfl⟩ := List.getElem?_eq_some_iff.mp here
  simp only [List.length_range] at inside
  exact ⟨inside,by rw [List.getElem_range]⟩

theorem ticking_legal {step : Nat} (positive : 0 < step) (small : step < 2 ^ 60) : (ticking step).StrictlyTimed := by
  constructor
  · intro packet member
    obtain ⟨k,there⟩ := List.mem_iff_getElem?.mp member
    obtain ⟨_,rfl⟩ := ticking_at there
    exact le_rfl
  · rintro i j a b ⟨below,here,there,_⟩
    obtain ⟨first,rfl⟩ := ticking_at here
    obtain ⟨second,rfl⟩ := ticking_at there
    simp only
    have order := Nat.mul_lt_mul_of_pos_left below positive
    have bound := Nat.mul_le_mul_left step (show j ≤ 7 by omega)
    rw [signed_ofNat (by omega),signed_ofNat (by omega)]
    omega

/-- Steps of two leave room for the bit. -/
theorem ticking_keeps (hasBFrames : Bool) (buffer : MemoryBuffer) : (ticking 2).KeepsPlaces hasBFrames buffer := by
  rintro i j a b x ⟨below,here,there,_⟩ _ _
  obtain ⟨first,rfl⟩ := ticking_at here
  obtain ⟨second,rfl⟩ := ticking_at there
  simp only
  rw [signed_ofNat (by omega),signed_ofNat (by omega)]
  exact ⟨fun y _ => by omega,fun _ => by omega⟩

theorem saveBuffer_timed_two : ∃ c', ContainerClass.mpeg.saveBuffer (ticking 2) false [1,0,1,0,1,0,1,0] = .ok c' ∧ c'.Timed := by
  have saved : ContainerClass.mpeg.saveBuffer (ticking 2) false [1,0,1,0,1,0,1,0] = .ok _ := rfl
  exact ⟨_,saved,(saveBuffer_timed_iff .mpeg _ _ false _ (ticking_legal (by decide) (by decide)) saved).mpr
    fun _ => ticking_keeps false _⟩

/-- With steps of one, the bits 1 and 0 make the first two packets change places. -/
theorem not_timed_one : (ticking 1).load none = .ok ((ticking 1).handler false) ∧ (ticking 1).StrictlyTimed ∧
    ∃ c', ContainerClass.mpeg.saveBuffer (ticking 1) false [1,0,0,0,0,0,0,0] = .ok c' ∧ ¬ c'.Timed := by
  refine ⟨rfl,ticking_legal (by decide) (by decide),_,rfl,?_⟩
  intro timed
  have order := timed.ordered 0 1 _ _ ⟨by decide,rfl,rfl,rfl⟩
  revert order
  decide

end ContainerClass
end StegoDisk
