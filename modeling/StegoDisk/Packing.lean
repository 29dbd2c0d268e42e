import StegoDisk.Bits
import StegoDisk.CarrierFile
import StegoDisk.PermutationCorrect

/-!
The bits of an image and the buffer that the encoder works on. Unpacking puts bit `i` of
the image at the place that the local permutation gives it and leaves the rest of the
buffer zero; packing puts the bits of the buffer back, so that unpacking again gives
that buffer up to the size of the permutation.
-/
namespace StegoDisk
open Bits Loops Feistel

/-- The least significant bit of a pixel. -/
def lsb (pixel : UInt8) : Bool := pixel &&& 1 != 0
/-- The least significant bit of a coefficient. -/
def lsb16 (c : UInt16) : Bool := c &&& 1 != 0

theorem lsb_eq (pixel : UInt8) : lsb pixel = pixel.toNat.testBit 0 := by
  have same : (pixel &&& 1).toNat = (pixel.toNat.testBit 0).toNat := by
    rw [UInt8.toNat_and,show (1 : UInt8).toNat = 2 ^ 0 from rfl,Nat.and_two_pow,Nat.pow_zero,Nat.mul_one]
  have zero : pixel &&& 1 = 0 ↔ pixel.toNat.testBit 0 = false := by
    rw [← UInt8.toNat_inj,same]
    cases pixel.toNat.testBit 0 <;> simp
  unfold lsb
  cases set_ : pixel.toNat.testBit 0 with
  | false => simpa using zero.mpr set_
  | true => simpa [set_] using zero

theorem lsb16_eq (c : UInt16) : lsb16 c = c.toNat.testBit 0 := by
  have same : (c &&& 1).toNat = (c.toNat.testBit 0).toNat := by
    rw [UInt16.toNat_and,show (1 : UInt16).toNat = 2 ^ 0 from rfl,Nat.and_two_pow,Nat.pow_zero,Nat.mul_one]
  have zero : c &&& 1 = 0 ↔ c.toNat.testBit 0 = false := by
    rw [← UInt16.toNat_inj,same]
    cases c.toNat.testBit 0 <;> simp
  unfold lsb16
  cases set_ : c.toNat.testBit 0 with
  | false => simpa using zero.mpr set_
  | true => simpa [set_] using zero

theorem lsb_replaced (pixel : UInt8) (bit : Bool) : lsb ((pixel &&& 0xFE) ||| if bit then 1 else 0) = bit := by
  rw [lsb_eq,UInt8.toNat_or,UInt8.toNat_and,Nat.testBit_or,Nat.testBit_and]
  cases bit <;> simp

theorem lsb16_replaced (c : UInt16) (bit : Bool) : lsb16 ((c &&& 0xFFFE) ||| if bit then 1 else 0) = bit := by
  rw [lsb16_eq,UInt16.toNat_or,UInt16.toNat_and,Nat.testBit_or,Nat.testBit_and]
  cases bit <;> simp

/-- Replacing the least significant bit leaves the others. -/
theorem cleared_replaced (pixel : UInt8) (bit : Bool) : ((pixel &&& 0xFE) ||| if bit then 1 else 0) &&& 0xFE = pixel &&& 0xFE := by
  apply UInt8.toNat_inj.mp
  rw [UInt8.toNat_and,UInt8.toNat_or,UInt8.toNat_and,Nat.and_or_distrib_right,Nat.and_assoc]
  cases bit <;> simp

theorem cleared_replaced16 (c : UInt16) (bit : Bool) : ((c &&& 0xFFFE) ||| if bit then 1 else 0) &&& 0xFFFE = c &&& 0xFFFE := by
  apply UInt16.toNat_inj.mp
  rw [UInt16.toNat_and,UInt16.toNat_or,UInt16.toNat_and,Nat.and_or_distrib_right,Nat.and_assoc]
  cases bit <;> simp

theorem eligible_replaced (c : UInt16) (bit : Bool) : eligible ((c &&& 0xFFFE) ||| if bit then 1 else 0) = eligible c := by
  rw [eligible,eligible,cleared_replaced16]

/-- Replacing it by itself changes nothing. -/
theorem replaced_lsb (pixel : UInt8) : ((pixel &&& 0xFE) ||| if lsb pixel then 1 else 0) = pixel := by
  have bit : (if lsb pixel then 1 else 0 : UInt8).toNat = pixel.toNat &&& 1 := by
    rw [lsb_eq,Nat.testBit_zero,Nat.and_one_is_mod]
    rcases Nat.mod_two_eq_zero_or_one pixel.toNat with even | odd
    · simp [even]
    · simp [odd]
  apply UInt8.toNat_inj.mp
  rw [UInt8.toNat_or,UInt8.toNat_and,bit,← Nat.and_or_distrib_left]
  exact (Nat.and_two_pow_sub_one_eq_mod pixel.toNat 8).trans (Nat.mod_eq_of_lt pixel.toNat_lt)

theorem replaced_lsb16 (c : UInt16) : ((c &&& 0xFFFE) ||| if lsb16 c then 1 else 0) = c := by
  have bit : (if lsb16 c then 1 else 0 : UInt16).toNat = c.toNat &&& 1 := by
    rw [lsb16_eq,Nat.testBit_zero,Nat.and_one_is_mod]
    rcases Nat.mod_two_eq_zero_or_one c.toNat with even | odd
    · simp [even]
    · simp [odd]
  apply UInt16.toNat_inj.mp
  rw [UInt16.toNat_or,UInt16.toNat_and,bit,← Nat.and_or_distrib_left]
  exact (Nat.and_two_pow_sub_one_eq_mod c.toNat 16).trans (Nat.mod_eq_of_lt c.toNat_lt)

namespace Image

/-- The bits that an image offers, in the order in which they are visited. -/
def bits : Image → List Bool
  | .bmp pixels => pixels.map lsb
  | .png pixels => pixels.map lsb
  | .jpeg blocks => ((coefficients blocks).filter eligible).map lsb16

/-- Images of one format with as many bits. -/
structure SameShape (a b : Image) : Prop where
  format : a.format = b.format
  bits : a.bits.length = b.bits.length

theorem SameShape.rawCapacity {a b : Image} (same : a.SameShape b) : a.rawCapacity = b.rawCapacity := by
  obtain ⟨format,bits⟩ := same
  cases a <;> cases b <;> simp [Image.format] at format <;>
    simp_all [Image.rawCapacity,Image.bits,List.countP_eq_length_filter]

theorem SameShape.trans {a b c : Image} (first : a.SameShape b) (second : b.SameShape c) : a.SameShape c :=
  ⟨first.format.trans second.format,first.bits.trans second.bits⟩

end Image

namespace CarrierFile

/-- A permutation of some bits, no more than a buffer of `n` bytes has. -/
structure Fills (p : Permutation) (f : Nat → Nat) (n : Nat) : Prop where
  permutes : Permutes p.size f
  values : ∀ i < p.size, p.permute i = .ok (f i)
  fits : p.size ≤ 8 * n

theorem fills_identity {size n : Nat} (fits : size ≤ 8 * n) :
    Fills (.identity { size := size, initialized := true }) (fun i => i) n := by
  refine ⟨permutes_id _,?_,fits⟩
  intro i inside
  have check : commonPermuteInputCheck size i = .ok () := if_neg (Nat.not_le.mpr inside)
  simp only [Permutation.permute,Permutation.permuteWith,IdentityPermutation.permute,check,ok_bind]

/-- The bits up to number `c` are at their places, and no other bit is set. -/
def Gathered (f : Nat → Nat) (bit : Nat → Bool) (c : Nat) (buffer : MemoryBuffer) : Prop :=
  ∀ k, low buffer k = true ↔ ∃ j < c, f j = k ∧ bit j = true

variable {p : Permutation} {f : Nat → Nat} {n : Nat} {bit : Nat → Bool}

theorem gathered_zero (n : Nat) : Gathered f bit 0 (List.replicate n 0) := by
  intro k
  simp [low_replicate]

/-- Bits at the images of a permutation determine the buffer. -/
theorem Gathered.values {buffer : MemoryBuffer} (fills : Fills p f n) (gathered : Gathered f bit p.size buffer) :
    (∀ j < p.size, low buffer (f j) = bit j) ∧ ∀ k, p.size ≤ k → low buffer k = false := by
  constructor
  · intro j inside
    apply Bool.eq_iff_iff.mpr
    rw [gathered]
    constructor
    · rintro ⟨i,inside',same,set_⟩
      rwa [← fills.permutes.inj inside' inside same]
    · exact fun set_ => ⟨j,inside,rfl,set_⟩
  · intro k outside
    apply Bool.eq_false_iff.mpr
    intro set_
    obtain ⟨i,inside,same,_⟩ := (gathered k).mp set_
    have := fills.permutes.lt inside
    omega

/-- `SetBitInBufferPermuted` for bit `c`, or nothing, as the bit is. -/
theorem Gathered.next {buffer : MemoryBuffer} {c : Nat} (fills : Fills p f n) (length : buffer.length = n)
    (inside : c < p.size) (gathered : Gathered f bit c buffer) :
    ∃ after, (if bit c then setBitInBufferPermuted p buffer c else .ok buffer) = .ok after ∧ after.length = n ∧
      Gathered f bit (c + 1) after := by
  have extend : ∀ k, (∃ j < c + 1, f j = k ∧ bit j = true) ↔ (∃ j < c, f j = k ∧ bit j = true) ∨ f c = k ∧ bit c = true := by
    intro k
    constructor
    · rintro ⟨j,upto,place⟩
      rcases Nat.lt_succ_iff_lt_or_eq.mp upto with below | rfl
      · exact .inl ⟨j,below,place⟩
      · exact .inr place
    · rintro (⟨j,below,place⟩ | place)
      · exact ⟨j,by omega,place⟩
      · exact ⟨c,by omega,place⟩
  by_cases set_ : bit c = true
  · have below := fills.permutes.lt inside
    have byte : f c / 8 < buffer.length := by have := fills.fits; omega
    refine ⟨buffer.set (f c / 8) (buffer.getD (f c / 8) 0 ||| UInt8.ofNat (2 ^ (f c % 8))),?_,by simpa using length,?_⟩
    · rw [if_pos set_,setBitInBufferPermuted,if_neg (Nat.not_le.mpr inside),fills.values c inside,ok_bind,
        if_neg (Nat.not_le.mpr below),MemoryBuffer.at_of_lt byte,ok_bind,List.getD_eq_getElem _ _ byte]
    · intro k
      rw [low_setBit buffer byte,extend,Bool.or_eq_true,decide_eq_true_eq,gathered k,or_comm,eq_comm,and_iff_left set_]
  · refine ⟨buffer,by simp [set_],length,?_⟩
    intro k
    rw [extend,gathered k]
    simp [set_]

theorem gather_ok {access : List UInt8 → Nat → Except Failure UInt8} {pixels : List UInt8}
    (reads : ∀ i < pixels.length, access pixels i = .ok (pixels.getD i 0)) (fills : Fills p f n)
    (enough : p.size ≤ pixels.length) :
    ∃ buffer, gather access p n pixels = .ok buffer ∧ buffer.length = n ∧
      Gathered f (fun i => lsb (pixels.getD i 0)) p.size buffer := by
  refine foldlM_range (fun i buffer => buffer.length = n ∧ Gathered f (fun i => lsb (pixels.getD i 0)) i buffer)
    ⟨by simp,gathered_zero n⟩ ?_
  rintro i inside buffer ⟨length,gathered⟩
  rw [gatherStep,reads i (by omega),ok_bind]
  exact gathered.next fills length inside

theorem gatherCoefficients_ok (fills : Fills p f n) (narrow : p.size < 2 ^ 32) :
    ∀ {cs : List UInt16} {c : Nat} {buffer : MemoryBuffer}, c < p.size → p.size ≤ c + (cs.filter eligible).length →
      (∀ t < (cs.filter eligible).length, bit (c + t) = lsb16 ((cs.filter eligible).getD t 0)) →
      buffer.length = n → Gathered f bit c buffer →
      ∃ after, gatherCoefficients p p.size cs c buffer = .ok after ∧ after.length = n ∧ Gathered f bit p.size after := by
  intro cs
  induction cs with
  | nil => intro c buffer inside enough; simp at enough; omega
  | cons x rest ih =>
    intro c buffer inside enough bits length gathered
    by_cases counts : eligible x = true
    · simp only [List.filter_cons,counts,if_true,List.length_cons] at enough bits
      have here : bit c = lsb16 x := by simpa using bits 0 (by omega)
      obtain ⟨after,ran,length',gathered'⟩ := gathered.next fills length inside
      rw [here,lsb16] at ran
      rw [gatherCoefficients,if_pos counts,ran,ok_bind,word32_of_lt (by omega)]
      by_cases last : c + 1 ≥ p.size
      · rw [if_pos last]
        have all : p.size = c + 1 := by omega
        exact ⟨after,rfl,length',all ▸ gathered'⟩
      · rw [if_neg last]
        refine ih (by omega) (by omega) ?_ length' gathered'
        intro t some_
        simpa [Nat.add_assoc,Nat.add_comm 1 t] using bits (t + 1) (by omega)
    · simp only [List.filter_cons,counts] at enough bits
      rw [gatherCoefficients,if_neg counts]
      exact ih inside enough bits length gathered

/-! ### Writing back -/

/-- The bits from number `c` on, those below `size` replaced. -/
def overlay (size : Nat) (place : Nat → Bool) (c : Nat) (bits : List Bool) : List Bool :=
  bits.mapIdx fun t bit => if c + t < size then place (c + t) else bit

variable {size : Nat} {place : Nat → Bool}

theorem overlay_beyond {c : Nat} (beyond : size ≤ c) (bits : List Bool) : overlay size place c bits = bits := by
  apply List.ext_getElem (by simp [overlay])
  intro t _ _
  simp [overlay,show ¬ c + t < size by omega]

theorem overlay_append (c : Nat) (front back : List Bool) :
    overlay size place c (front ++ back) = overlay size place c front ++ overlay size place (c + front.length) back := by
  simp only [overlay,List.mapIdx_append]
  congr 2
  funext t bit
  rw [Nat.add_assoc,Nat.add_comm front.length]

theorem overlay_cons (c : Nat) (bit : Bool) (rest : List Bool) :
    overlay size place c (bit::rest) = (if c < size then place c else bit)::overlay size place (c + 1) rest := by
  simp only [overlay,List.mapIdx_cons,Nat.add_zero]
  congr 2
  funext t bit
  rw [Nat.add_assoc,Nat.add_comm 1]

theorem overlay_getD {bits : List Bool} {i : Nat} (inside : i < size) (enough : size ≤ bits.length) :
    (overlay size place 0 bits).getD i false = place i := by
  simp [overlay,List.getD_eq_getElem?_getD,show i < bits.length by omega,inside]

theorem getBit_ok {buffer : MemoryBuffer} {i : Nat} (fills : Fills p f n) (length : buffer.length = n)
    (inside : i < p.size) : getBitInBufferPermuted p buffer i = .ok (low buffer (f i)) := by
  have below := fills.permutes.lt inside
  have byte : f i / 8 < buffer.length := by have := fills.fits; omega
  rw [getBitInBufferPermuted,if_neg (Nat.not_le.mpr inside),fills.values i inside,ok_bind,MemoryBuffer.at_of_lt byte,
    ok_bind,← low_testBit,List.getD_eq_getElem _ _ byte]

/-- Scattering replaces the least significant bits of the pixels that the permutation has. -/
theorem scatter_pixels {access : List UInt8 → Nat → Except Failure UInt8} {pixels : List UInt8} {buffer : MemoryBuffer}
    (reads : ∀ pixels : List UInt8, ∀ i < pixels.length, access pixels i = .ok (pixels.getD i 0)) (fills : Fills p f n)
    (length : buffer.length = n) (enough : p.size ≤ pixels.length) :
    ∃ after, scatter access p buffer pixels = .ok after ∧ after.length = pixels.length ∧ ∀ i, after.getD i 0 =
      if i < p.size then (pixels.getD i 0 &&& 0xFE) ||| (if low buffer (f i) then 1 else 0) else pixels.getD i 0 := by
  refine foldlM_range (fun c (after : List UInt8) => after.length = pixels.length ∧ ∀ i, after.getD i 0 =
    if i < c then (pixels.getD i 0 &&& 0xFE) ||| (if low buffer (f i) then 1 else 0) else pixels.getD i 0)
    ⟨rfl,by simp⟩ ?_
  rintro c inside after ⟨same,values⟩
  have here : c < after.length := by omega
  refine ⟨_,by rw [scatterStep,reads after c here,ok_bind,getBit_ok fills length inside,ok_bind],by simp [same],?_⟩
  intro i
  rw [getD_set after here]
  by_cases own : i = c
  · subst own
    rw [if_pos rfl,values,if_neg (lt_irrefl i),if_pos (show i < i + 1 by omega)]
  · rw [if_neg own,values]
    simp only [show i < c + 1 ↔ i < c by omega]

/-- The bits are replaced, and nothing else: pixels that keep their bits are the same. -/
theorem scatter_ok {access : List UInt8 → Nat → Except Failure UInt8} {pixels : List UInt8} {buffer : MemoryBuffer}
    (reads : ∀ pixels : List UInt8, ∀ i < pixels.length, access pixels i = .ok (pixels.getD i 0)) (fills : Fills p f n)
    (length : buffer.length = n) (enough : p.size ≤ pixels.length) :
    ∃ after, scatter access p buffer pixels = .ok after ∧
      after.map lsb = overlay p.size (fun i => low buffer (f i)) 0 (pixels.map lsb) ∧
      (after.map lsb = pixels.map lsb → after = pixels) := by
  obtain ⟨after,ran,same,values⟩ := scatter_pixels reads fills length enough
  have value : ∀ (i : Nat) (left : i < after.length) (right : i < pixels.length), after[i] =
      if i < p.size then (pixels[i] &&& 0xFE) ||| (if low buffer (f i) then 1 else 0) else pixels[i] := by
    intro i left right
    have read := values i
    rwa [List.getD_eq_getElem _ _ left,List.getD_eq_getElem _ _ right] at read
  refine ⟨after,ran,?_,?_⟩
  · apply List.ext_getElem (by simp [overlay,same])
    intro i left right
    simp only [List.length_map] at left
    simp only [overlay,List.getElem_map,List.getElem_mapIdx,Nat.zero_add,value i left (by omega)]
    split
    · exact lsb_replaced _ _
    · rfl
  · intro bits
    apply List.ext_getElem same
    intro i left right
    have bit := congrArg (·[i]?) bits
    simp only [List.getElem?_map,List.getElem?_eq_getElem left,List.getElem?_eq_getElem right,Option.map_some,
      Option.some.injEq] at bit
    rw [value i left right] at bit ⊢
    split at bit
    · rename_i inside
      rw [lsb_replaced] at bit
      rw [if_pos inside,bit,replaced_lsb]
    · rename_i outside
      rw [if_neg outside]

/-- The bits of coefficients. -/
def bits16 (cs : List UInt16) : List Bool := (cs.filter eligible).map lsb16

theorem scatterCoefficients_ok {buffer : MemoryBuffer} (fills : Fills p f n) (length : buffer.length = n)
    (narrow : p.size < 2 ^ 32) : ∀ (cs : List UInt16) {c : Nat}, c < p.size →
      ∃ after, scatterCoefficients p p.size buffer cs c =
          .ok (after,if p.size ≤ c + (bits16 cs).length then none else some (c + (bits16 cs).length)) ∧
        bits16 after = overlay p.size (fun i => low buffer (f i)) c (bits16 cs) ∧ (bits16 after = bits16 cs → after = cs) := by
  intro cs
  induction cs with
  | nil =>
    intro c inside
    exact ⟨[],by simp [scatterCoefficients,bits16,Nat.not_le.mpr inside],rfl,fun _ => rfl⟩
  | cons x rest ih =>
    intro c inside
    by_cases counts : eligible x = true
    · have own : bits16 (x::rest) = lsb16 x::bits16 rest := by simp [bits16,counts]
      obtain ⟨y,written⟩ : ∃ y, y = (x &&& 0xFFFE) ||| if low buffer (f c) then 1 else 0 := ⟨_,rfl⟩
      have after_ : ∀ cs, bits16 (y::cs) = low buffer (f c)::bits16 cs := by
        intro cs
        simp [bits16,written,eligible_replaced,counts,lsb16_replaced]
      have restored : low buffer (f c) = lsb16 x → y = x := by
        intro bit
        rw [written,bit,replaced_lsb16]
      rw [scatterCoefficients,if_pos counts,getBit_ok fills length inside,ok_bind,word32_of_lt (by omega),own,
        overlay_cons,if_pos inside,List.length_cons]
      simp only [← written]
      by_cases last : c + 1 ≥ p.size
      · refine ⟨y::rest,?_,?_,?_⟩
        · simp only [last,if_true,show p.size ≤ c + ((bits16 rest).length + 1) by omega]
        · rw [after_,overlay_beyond last]
        · intro same
          rw [after_] at same
          rw [restored (List.cons.inj same).1]
      · obtain ⟨after,ran,bits,still⟩ := ih (show c + 1 < p.size by omega)
        refine ⟨y::after,?_,?_,?_⟩
        · simp only [last,if_false,ran,ok_bind,Nat.add_assoc,Nat.add_comm 1]
        · rw [after_,bits]
        · intro same
          rw [after_] at same
          obtain ⟨first,others⟩ := List.cons.inj same
          rw [restored first,still others]
    · have own : bits16 (x::rest) = bits16 rest := by simp [bits16,counts]
      obtain ⟨after,ran,bits,still⟩ := ih inside
      have own' : bits16 (x::after) = bits16 after := by simp [bits16,counts]
      rw [scatterCoefficients,if_neg counts,ran,ok_bind,own]
      refine ⟨x::after,rfl,own'.trans bits,?_⟩
      intro same
      rw [still (own'.symm.trans same)]

theorem scatterBlocks_ok {buffer : MemoryBuffer} (fills : Fills p f n) (length : buffer.length = n)
    (narrow : p.size < 2 ^ 32) : ∀ (blocks : List JpegBlock) {c : Nat}, c < p.size →
      ∃ after, scatterBlocks p p.size buffer blocks c = .ok after ∧
        bits16 (coefficients after) = overlay p.size (fun i => low buffer (f i)) c (bits16 (coefficients blocks)) ∧
        (bits16 (coefficients after) = bits16 (coefficients blocks) → after = blocks) := by
  have joined : ∀ (block : JpegBlock) (rest : List JpegBlock),
      bits16 (coefficients (block::rest)) = bits16 block.ac ++ bits16 (coefficients rest) := by
    simp [bits16,coefficients]
  intro blocks
  induction blocks with
  | nil => exact fun _ => ⟨[],rfl,rfl,fun _ => rfl⟩
  | cons block rest ih =>
    intro c inside
    obtain ⟨ac,ran,bits,still⟩ := scatterCoefficients_ok fills length narrow block.ac inside
    have size : (bits16 ac).length = (bits16 block.ac).length := by simp [bits,overlay]
    rw [scatterBlocks,ran,ok_bind,joined,overlay_append]
    by_cases last : p.size ≤ c + (bits16 block.ac).length
    · refine ⟨{ block with ac := ac }::rest,by simp only [last,if_true],?_,?_⟩
      · rw [joined,bits,overlay_beyond last]
      · intro same
        rw [joined] at same
        rw [still (List.append_inj same size).1]
    · obtain ⟨others,ran',bits',still'⟩ := ih (show c + (bits16 block.ac).length < p.size by omega)
      refine ⟨{ block with ac := ac }::others,by simp only [last,if_false,ran',ok_bind],?_,?_⟩
      · rw [joined,bits,bits']
      · intro same
        rw [joined] at same
        obtain ⟨first,rest_⟩ := List.append_inj same size
        rw [still first,still' rest_]

/-! ### Images -/

/-- The image of a carrier, which can be opened and decoded. -/
structure Opened (file : CarrierFile) (image : Image) : Prop where
  raw : image.rawCapacity = file.rawCapacity
  opens : file.openImage image = .ok ()
  decodes : ∀ pixels, image = .png pixels → pixels.length < addressSpace

variable {file : CarrierFile} {image : Image}

theorem Opened.shape {image' : Image} (opened : Opened file image) (same : image'.SameShape image) : Opened file image' := by
  obtain ⟨raw,opens,decodes⟩ := opened
  have raw' := same.rawCapacity.trans raw
  obtain ⟨format,bits⟩ := same
  cases image <;> cases image' <;> simp [Image.format] at format <;> simp only [Image.bits,List.length_map] at bits
  · exact ⟨raw',by simpa only [openImage,bits] using opens,by simp⟩
  · exact ⟨raw',rfl,by simp [bits,decodes]⟩
  · exact ⟨raw',rfl,by simp⟩

theorem Opened.bits (opened : Opened file image) :
    word64 (file.rawCapacity * 8) ≤ image.bits.length ∧ word64 (file.rawCapacity * 8) < 2 ^ 52 := by
  obtain ⟨raw,opens,decodes⟩ := opened
  have kept : word64 (file.rawCapacity * 8) ≤ file.rawCapacity * 8 := Nat.mod_le _ _
  cases image with
  | bmp pixels =>
    simp only [Image.rawCapacity] at raw
    refine ⟨by simp only [Image.bits,List.length_map]; omega,?_⟩
    simp only [openImage] at opens
    split at opens
    · simp at opens
    · rename_i fits
      simp only [addressSpace] at fits
      omega
  | png pixels =>
    have small := decodes pixels rfl
    simp only [Image.rawCapacity,addressSpace] at raw small
    exact ⟨by simp only [Image.bits,List.length_map]; omega,by omega⟩
  | jpeg blocks =>
    have fewer : word32 ((coefficients blocks).countP eligible) ≤ (coefficients blocks).countP eligible := Nat.mod_le _ _
    have small := word32_lt ((coefficients blocks).countP eligible)
    simp only [Image.rawCapacity] at raw
    rw [List.countP_eq_length_filter] at raw fewer small
    exact ⟨by simp only [Image.bits,List.length_map]; omega,by omega⟩

theorem Opened.jpeg {blocks : List JpegBlock} (opened : Opened file (.jpeg blocks)) : file.rawCapacity * 8 < 2 ^ 32 := by
  have small := word32_lt ((coefficients blocks).countP eligible)
  have raw := opened.raw
  simp only [Image.rawCapacity] at raw
  omega

theorem Gathered.congr {bit' : Nat → Bool} {c : Nat} {buffer : MemoryBuffer} (gathered : Gathered f bit c buffer)
    (same : ∀ j < c, bit j = bit' j) : Gathered f bit' c buffer := by
  intro k
  rw [gathered k]
  constructor <;> rintro ⟨j,inside,place,set_⟩
  · exact ⟨j,inside,place,by rw [← same j inside]; exact set_⟩
  · exact ⟨j,inside,place,by rw [same j inside]; exact set_⟩

/-- Pixels are read in both classes. -/
private theorem at_reads (pixels : List UInt8) : ∀ i < pixels.length, MemoryBuffer.at pixels i = .ok (pixels.getD i 0) := by
  intro i inside
  rw [MemoryBuffer.at_of_lt inside,List.getD_eq_getElem _ _ inside]

private theorem peek_reads (pixels : List UInt8) : ∀ i < pixels.length, peek pixels i = .ok (pixels.getD i 0) :=
  fun _ inside => peek_of_lt inside

private theorem getD_lsb (pixels : List UInt8) (i : Nat) : (pixels.map lsb).getD i false = lsb (pixels.getD i 0) :=
  List.getD_map pixels 0 lsb

/-- Unpacking an image that is opened puts all of its bits that the permutation has at their places. -/
theorem unpack_ok (opened : Opened file image) (fills : Fills file.permutation f file.rawCapacity)
    (positive : 0 < file.permutation.size) (enough : file.permutation.size ≤ word64 (file.rawCapacity * 8)) :
    ∃ buffer, file.unpack file.permutation.size image = .ok buffer ∧ buffer.length = file.rawCapacity ∧
      Gathered f (fun i => image.bits.getD i false) file.permutation.size buffer := by
  obtain ⟨bits,small⟩ := opened.bits
  have kept : word64 (file.rawCapacity * 8) ≤ file.rawCapacity * 8 := Nat.mod_le _ _
  cases image with
  | bmp pixels =>
    simp only [Image.bits,List.length_map] at bits
    obtain ⟨buffer,ran,length,gathered⟩ := gather_ok (at_reads (pixels.take (word64 (file.rawCapacity * 8)))) fills
      (by rw [List.length_take]; omega)
    refine ⟨buffer,ran,length,gathered.congr ?_⟩
    intro j inside
    simp only [Image.bits,getD_lsb,getD_take pixels (show j < word64 (file.rawCapacity * 8) by omega)]
  | png pixels =>
    have room := opened.decodes pixels rfl
    have raw := opened.raw
    simp only [Image.rawCapacity,Image.bits,List.length_map] at raw bits
    obtain ⟨buffer,ran,length,gathered⟩ := gather_ok (peek_reads pixels) fills (by omega)
    refine ⟨buffer,?_,length,gathered.congr fun j _ => (getD_lsb pixels j).symm⟩
    rw [unpack,if_neg (by omega),if_neg (by omega),ran]
  | jpeg blocks =>
    have narrow := opened.jpeg
    simp only [Image.bits,List.length_map] at bits
    have values : ∀ t < ((coefficients blocks).filter eligible).length, (Image.jpeg blocks).bits.getD (0 + t) false =
        lsb16 (((coefficients blocks).filter eligible).getD t 0) := by
      intro t inside
      simp [Image.bits,List.getD_eq_getElem?_getD,inside]
    have some_ : file.permutation.size ≤ 0 + ((coefficients blocks).filter eligible).length := by omega
    obtain ⟨buffer,ran,length,gathered⟩ := @gatherCoefficients_ok _ f _ (fun i => (Image.jpeg blocks).bits.getD i false)
      fills (by omega) (coefficients blocks) 0 _ positive some_ values List.length_replicate (gathered_zero _)
    refine ⟨buffer,?_,length,gathered⟩
    rw [unpack,if_neg (by simp only [addressSpace]; omega),ran]

/-- Packing replaces those bits of the image by the bits at their places, and changes nothing else. -/
theorem pack_ok {buffer : MemoryBuffer} (opened : Opened file image)
    (fills : Fills file.permutation f file.rawCapacity) (positive : 0 < file.permutation.size)
    (enough : file.permutation.size ≤ word64 (file.rawCapacity * 8)) (length : buffer.length = file.rawCapacity) :
    ∃ after, file.pack buffer image = .ok after ∧ after.format = image.format ∧
      after.bits = overlay file.permutation.size (fun i => low buffer (f i)) 0 image.bits ∧
      (after.bits = image.bits → after = image) := by
  obtain ⟨bits,small⟩ := opened.bits
  cases image with
  | bmp pixels =>
    simp only [Image.bits,List.length_map] at bits
    have whole : (pixels.take (word64 (file.rawCapacity * 8))).length = word64 (file.rawCapacity * 8) := by
      rw [List.length_take]
      omega
    obtain ⟨after,ran,replaced,still⟩ := scatter_ok at_reads fills length
      (show file.permutation.size ≤ (pixels.take (word64 (file.rawCapacity * 8))).length by omega)
    refine ⟨.bmp (after ++ pixels.drop (word64 (file.rawCapacity * 8))),by rw [pack,ran,ok_bind],rfl,?_,?_⟩
    · simp only [Image.bits,List.map_append,replaced]
      conv_rhs => rw [← List.take_append_drop (word64 (file.rawCapacity * 8)) pixels,List.map_append,overlay_append]
      rw [overlay_beyond (show file.permutation.size ≤ 0 + _ by rw [List.length_map,whole]; omega)]
    · intro same
      simp only [Image.bits,List.map_append] at same
      conv_rhs at same => rw [← List.take_append_drop (word64 (file.rawCapacity * 8)) pixels,List.map_append]
      rw [still (List.append_cancel_right same),List.take_append_drop]
  | png pixels =>
    simp only [Image.bits,List.length_map] at bits
    obtain ⟨after,ran,replaced,still⟩ :=
      scatter_ok peek_reads fills length (show file.permutation.size ≤ pixels.length by omega)
    exact ⟨.png after,by rw [pack,ran,ok_bind],rfl,replaced,fun same => by rw [still same]⟩
  | jpeg blocks =>
    have narrow := opened.jpeg
    have kept : word64 (file.rawCapacity * 8) ≤ file.rawCapacity * 8 := Nat.mod_le _ _
    obtain ⟨after,ran,replaced,still⟩ :=
      scatterBlocks_ok fills length (show file.permutation.size < 2 ^ 32 by omega) blocks positive
    exact ⟨.jpeg after,by rw [pack,word32_of_lt (by omega),ran,ok_bind],rfl,replaced,fun same => by rw [still same]⟩

/-- An image is packed unchanged from what it was unpacked to. -/
theorem pack_still {buffer : MemoryBuffer} (opened : Opened file image)
    (fills : Fills file.permutation f file.rawCapacity) (positive : 0 < file.permutation.size)
    (enough : file.permutation.size ≤ word64 (file.rawCapacity * 8))
    (unpacked : file.unpack file.permutation.size image = .ok buffer) : file.pack buffer image = .ok image := by
  obtain ⟨_,ran,length,gathered⟩ := unpack_ok opened fills positive enough
  obtain rfl := Except.ok.inj (unpacked.symm.trans ran)
  obtain ⟨after,packed,_,bits,still⟩ := pack_ok opened fills positive enough length
  rw [packed,still]
  rw [bits]
  apply List.ext_getElem (by simp [overlay])
  intro i left right
  simp only [overlay,List.getElem_mapIdx,Nat.zero_add]
  split
  · rename_i inside
    rw [(gathered.values fills).1 i inside,List.getD_eq_getElem _ _ right]
  · rfl

/-- What was packed is unpacked again, up to the size of the permutation. -/
theorem pack_unpack {buffer : MemoryBuffer} (opened : Opened file image)
    (fills : Fills file.permutation f file.rawCapacity) (positive : 0 < file.permutation.size)
    (enough : file.permutation.size ≤ word64 (file.rawCapacity * 8)) (length : buffer.length = file.rawCapacity) :
    ∃ image', file.pack buffer image = .ok image' ∧ image'.SameShape image ∧
      ∃ after, file.unpack file.permutation.size image' = .ok after ∧ after.length = file.rawCapacity ∧
        ∀ k < file.permutation.size, low after k = low buffer k := by
  obtain ⟨image',packed,format,bits,_⟩ := pack_ok opened fills positive enough length
  have same : image'.SameShape image := ⟨format,by rw [bits]; simp [overlay]⟩
  obtain ⟨after,unpacked,length',gathered⟩ := unpack_ok (opened.shape same) fills positive enough
  refine ⟨image',packed,same,after,unpacked,length',?_⟩
  intro k inside
  obtain ⟨j,below,rfl⟩ := fills.permutes.onto inside
  rw [(gathered.values fills).1 j below,bits,overlay_getD below (enough.trans opened.bits.1)]

end CarrierFile
end StegoDisk
