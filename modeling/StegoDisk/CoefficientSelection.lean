import StegoDisk.Directories
import StegoDisk.LoadSave

/-!
Which coefficients of a JPEG image are used. Whether one counts is decided on the coefficient itself, also while it is
being overwritten, in four loops: the constructor counts, `LoadFile` and `SaveFile` read, and `SaveFile` writes. Each of
them is the fold over the positions that count, and writing keeps these positions.
-/
namespace StegoDisk
open Bits

/-! ### Coefficients -/

theorem eligible_iff (c : UInt16) : eligible c = true ↔ c ≠ 0 ∧ c ≠ 1 := by
  have masked : (c &&& 0xFFFE).toNat = 2 * (c.toNat / 2) := by
    rw [UInt16.toNat_and]
    apply Nat.eq_of_testBit_eq
    intro k
    cases k with
    | zero => simp
    | succ k =>
      rw [Nat.testBit_and,Nat.testBit_succ,Nat.testBit_succ,Nat.testBit_succ,Nat.mul_div_cancel_left _ (by decide)]
      have mask : (0xFFFE : UInt16).toNat / 2 = 2 ^ 15 - 1 := rfl
      by_cases low : k < 15
      · rw [mask,Nat.testBit_two_pow_sub_one,decide_eq_true low,Bool.and_true]
      · have narrow : c.toNat / 2 < 2 ^ 15 := Nat.div_lt_of_lt_mul c.toNat_lt
        have beyond := Nat.pow_le_pow_right (show 0 < 2 by decide) (Nat.not_lt.mp low)
        rw [Nat.testBit_lt_two_pow (narrow.trans_le beyond),Bool.false_and]
  have zero : (0 : UInt16).toNat = 0 := rfl
  have one : (1 : UInt16).toNat = 1 := rfl
  rw [eligible,bne_iff_ne]
  simp only [ne_eq,← UInt16.toNat_inj,masked,zero,one]
  omega

namespace CarrierFile

variable {p : Permutation} {f : Nat → Nat} {n : Nat} {buffer : MemoryBuffer}

/-! ### Visits -/

/-- The positions of the coefficients that a loop visits, each with the value of the counter. -/
def visits (bitsToModify : Nat) (cs : List UInt16) : List (Nat × Nat) := ((cs.findIdxs eligible).take bitsToModify).zipIdx

/-- The visits from a position and a counter on. -/
def visitsFrom (bitsToModify x counter : Nat) (cs : List UInt16) : List (Nat × Nat) :=
  ((cs.findIdxs eligible x).take (bitsToModify - counter)).zipIdx counter

theorem visitsFrom_nil (bitsToModify x counter : Nat) : visitsFrom bitsToModify x counter [] = [] := by simp [visitsFrom]

theorem visitsFrom_beyond {bitsToModify counter : Nat} (beyond : bitsToModify ≤ counter) (x : Nat) (cs : List UInt16) :
    visitsFrom bitsToModify x counter cs = [] := by
  simp [visitsFrom,Nat.sub_eq_zero_of_le beyond]

theorem visitsFrom_cons {bitsToModify counter : Nat} (below : counter < bitsToModify) (x : Nat) (c : UInt16) (rest : List UInt16) :
    visitsFrom bitsToModify x counter (c::rest) =
      if eligible c then (x,counter)::visitsFrom bitsToModify (x + 1) (counter + 1) rest
      else visitsFrom bitsToModify (x + 1) counter rest := by
  have left : bitsToModify - counter = bitsToModify - (counter + 1) + 1 := by omega
  unfold visitsFrom
  rw [List.findIdxs_cons]
  split
  · rw [left,List.take_succ_cons,List.zipIdx_cons]
  · rfl

theorem mem_visits {bitsToModify x counter : Nat} {cs : List UInt16} :
    (x,counter) ∈ visits bitsToModify cs ↔ counter < bitsToModify ∧ (cs.findIdxs eligible)[counter]? = some x := by
  rw [visits,List.mk_mem_zipIdx_iff_getElem?,List.getElem?_take]
  split
  · simp [*]
  · simp [*]

/-- What the loops that read do with a coefficient. -/
def readStep (p : Permutation) (cs : List UInt16) (buffer : MemoryBuffer) (visit : Nat × Nat) : Except Failure MemoryBuffer :=
  if lsb16 (cs.getD visit.1 0) then setBitInBufferPermuted p buffer visit.2 else .ok buffer

/-- What the loop that writes does with a coefficient. -/
def writeStep (p : Permutation) (buffer : MemoryBuffer) (cs : List UInt16) (visit : Nat × Nat) : Except Failure (List UInt16) := do
  let bit ← getBitInBufferPermuted p buffer visit.2
  .ok (cs.set visit.1 ((cs.getD visit.1 0 &&& 0xFFFE) ||| if bit then 1 else 0))

theorem gatherCoefficients_visits (narrow : n < 2 ^ 32) : ∀ (cs front : List UInt16) {counter : Nat} (buffer : MemoryBuffer),
    counter < n → gatherCoefficients p n cs counter buffer =
      (visitsFrom n front.length counter cs).foldlM (readStep p (front ++ cs)) buffer := by
  intro cs
  induction cs with
  | nil => intro front counter buffer below; rw [visitsFrom_nil]; rfl
  | cons c rest ih =>
    intro front counter buffer below
    have next : ∀ buffer {k : Nat}, k < n → gatherCoefficients p n rest k buffer =
        (visitsFrom n (front.length + 1) k rest).foldlM (readStep p (front ++ c::rest)) buffer := by
      intro buffer k inside
      simpa using ih (front ++ [c]) buffer inside
    rw [visitsFrom_cons below,gatherCoefficients,word32_of_lt (by omega)]
    by_cases counts : eligible c = true
    · rw [if_pos counts,if_pos counts,List.foldlM_cons,readStep,List.getD_append_right _ _ _ _ le_rfl,Nat.sub_self,
        List.getD_cons_zero]
      congr 1
      funext after
      by_cases last : counter + 1 ≥ n
      · rw [if_pos last,visitsFrom_beyond last]
        rfl
      · rw [if_neg last,next after (by omega)]
    · rw [if_neg counts,if_neg counts,next buffer below]

theorem scatterCoefficients_visits (narrow : n < 2 ^ 32) : ∀ (cs front : List UInt16) {counter : Nat}, counter < n →
    (visitsFrom n front.length counter cs).foldlM (writeStep p buffer) (front ++ cs) =
      (scatterCoefficients p n buffer cs counter).map fun after => front ++ after.1 := by
  intro cs
  induction cs with
  | nil => intro front counter below; rw [visitsFrom_nil]; rfl
  | cons c rest ih =>
    intro front counter below
    have next : ∀ (y : UInt16) {k : Nat}, k < n →
        (visitsFrom n (front.length + 1) k rest).foldlM (writeStep p buffer) (front ++ y::rest) =
          (scatterCoefficients p n buffer rest k).map fun after => front ++ y::after.1 := by
      intro y k inside
      simpa using ih (front ++ [y]) inside
    rw [visitsFrom_cons below,scatterCoefficients,word32_of_lt (by omega)]
    by_cases counts : eligible c = true
    · rw [if_pos counts,if_pos counts,List.foldlM_cons,writeStep,List.getD_append_right _ _ _ _ le_rfl,Nat.sub_self,
        List.getD_cons_zero]
      cases read : getBitInBufferPermuted p buffer counter with
      | error failure => rfl
      | ok bit =>
        simp only [ok_bind,List.set_append_right _ _ le_rfl,Nat.sub_self,List.set_cons_zero]
        by_cases last : counter + 1 ≥ n
        · rw [if_pos last,visitsFrom_beyond last]
          rfl
        · rw [if_neg last,next _ (by omega)]
          cases scatterCoefficients p n buffer rest (counter + 1) <;> rfl
    · rw [if_neg counts,if_neg counts,next c below]
      cases scatterCoefficients p n buffer rest counter <;> rfl

/-! ### Blocks -/

theorem scatterCoefficients_append (front back : List UInt16) (counter : Nat) :
    scatterCoefficients p n buffer (front ++ back) counter =
      (scatterCoefficients p n buffer front counter).bind fun after =>
        after.2.elim (.ok (after.1 ++ back,none)) fun counter =>
          (scatterCoefficients p n buffer back counter).map fun others => (after.1 ++ others.1,others.2) := by
  induction front generalizing counter with
  | nil =>
    cases ran : scatterCoefficients p n buffer back counter <;>
      simp [scatterCoefficients,ran,Except.bind,Except.map]
  | cons c rest ih =>
    rw [List.cons_append,scatterCoefficients,scatterCoefficients]
    by_cases counts : eligible c = true
    · rw [if_pos counts,if_pos counts]
      cases read : getBitInBufferPermuted p buffer counter with
      | error failure => rfl
      | ok bit =>
        simp only [ok_bind]
        by_cases last : word32 (counter + 1) ≥ n
        · rw [if_pos last,if_pos last]
          rfl
        · rw [if_neg last,if_neg last,ih]
          cases scatterCoefficients p n buffer rest (word32 (counter + 1)) with
          | error failure => rfl
          | ok after =>
            rcases after with ⟨after,ended | counter'⟩
            · rfl
            · simp only [Except.bind,Option.elim,ok_bind]
              cases scatterCoefficients p n buffer back counter' <;> rfl
    · rw [if_neg counts,if_neg counts,ih]
      cases scatterCoefficients p n buffer rest counter with
      | error failure => rfl
      | ok after =>
        rcases after with ⟨after,ended | counter'⟩
        · rfl
        · simp only [Except.bind,Option.elim,ok_bind]
          cases scatterCoefficients p n buffer back counter' <;> rfl

/-- The loop over the blocks is the loop over all coefficients. -/
theorem scatterBlocks_flat (blocks : List JpegBlock) (counter : Nat) :
    (scatterBlocks p n buffer blocks counter).map coefficients =
      (scatterCoefficients p n buffer (coefficients blocks) counter).map Prod.fst := by
  induction blocks generalizing counter with
  | nil => rfl
  | cons block rest ih =>
    have flat : coefficients (block::rest) = block.ac ++ coefficients rest := List.flatMap_cons
    rw [flat,scatterCoefficients_append,scatterBlocks]
    cases scatterCoefficients p n buffer block.ac counter with
    | error failure => rfl
    | ok after =>
      rcases after with ⟨after,ended | counter'⟩
      · rfl
      · have joined : ∀ r : Except Failure (List JpegBlock),
            (r >>= fun others => .ok ({ block with ac := after }::others)).map coefficients =
              (r.map coefficients).map (after ++ ·) := by
          intro r
          cases r <;> rfl
        have joined' : ∀ r : Except Failure (List UInt16 × Option Nat),
            (r.map fun others => (after ++ others.1,others.2)).map Prod.fst = (r.map Prod.fst).map (after ++ ·) := by
          intro r
          cases r <;> rfl
        exact (joined _).trans ((congrArg (Except.map (after ++ ·)) (ih counter')).trans (joined' _).symm)

/-! ### Writing -/

/-- Visits of different positions replace the lowest bits of these coefficients and leave the others. -/
theorem foldlM_writeStep (fills : Fills p f n) (length : buffer.length = n) : ∀ {visited : List (Nat × Nat)} {cs : List UInt16},
    (visited.map Prod.fst).Nodup → (∀ visit ∈ visited, visit.1 < cs.length ∧ visit.2 < p.size) →
    ∃ after, visited.foldlM (writeStep p buffer) cs = .ok after ∧ after.length = cs.length ∧
      (∀ visit ∈ visited, after.getD visit.1 0 = (cs.getD visit.1 0 &&& 0xFFFE) ||| if low buffer (f visit.2) then 1 else 0) ∧
      ∀ x, x ∉ visited.map Prod.fst → after.getD x 0 = cs.getD x 0 := by
  intro visited
  induction visited with
  | nil => exact fun {cs} _ _ => ⟨cs,rfl,rfl,by simp,fun _ _ => rfl⟩
  | cons visit rest ih =>
    intro cs distinct inside
    obtain ⟨here,below⟩ := inside visit List.mem_cons_self
    rw [List.map_cons,List.nodup_cons] at distinct
    have set_ : ∀ (y : UInt16) (x : Nat), (cs.set visit.1 y).getD x 0 = if x = visit.1 then y else cs.getD x 0 := by
      intro y x
      simp only [List.getD_eq_getElem?_getD,List.getElem?_set]
      by_cases same : visit.1 = x
      · simp [same,same ▸ here]
      · simp [same,Ne.symm same]
    obtain ⟨after,ran,size,replaced,kept⟩ := @ih (cs.set visit.1 ((cs.getD visit.1 0 &&& 0xFFFE) |||
      if low buffer (f visit.2) then 1 else 0)) distinct.2 (by
        intro other member
        simpa using inside other (List.mem_cons_of_mem _ member))
    refine ⟨after,?_,by simpa using size,?_,?_⟩
    · rw [List.foldlM_cons,writeStep,getBit_ok fills length below,ok_bind]
      exact ran
    · intro other member
      rcases List.mem_cons.mp member with rfl | later
      · rw [kept _ distinct.1,set_,if_pos rfl]
      · have apart : other.1 ≠ visit.1 := fun same => distinct.1 (same ▸ List.mem_map_of_mem later)
        rw [replaced other later,set_,if_neg apart]
    · intro x outside
      rw [List.map_cons,List.mem_cons,not_or] at outside
      rw [kept x outside.2,set_,if_neg outside.1]

theorem findIdxs_eligible {cs cs' : List UInt16} (same : cs'.map eligible = cs.map eligible) :
    cs'.findIdxs eligible = cs.findIdxs eligible := by
  have through : ∀ cs : List UInt16, cs.findIdxs eligible = (cs.map eligible).findIdxs id := by
    intro cs
    rw [List.findIdxs_map]
    rfl
  rw [through,through,same]

/-! ### Selection -/

/-- The constructor counts the positions that count, `LoadFile` and `SaveFile` read at the first of them, and `SaveFile`
    writes at the same ones in the same order. -/
structure Passes (file : CarrierFile) (blocks : List JpegBlock) : Prop where
  counted : (Image.jpeg blocks).rawCapacity = word32 ((coefficients blocks).findIdxs eligible).length / 8
  loaded : file.unpack file.permutation.size (.jpeg blocks) = (visits file.permutation.size (coefficients blocks)).foldlM
    (readStep file.permutation (coefficients blocks)) (List.replicate file.rawCapacity 0)
  read : file.unpack (word32 file.permutation.size) (.jpeg blocks) = (visits file.permutation.size (coefficients blocks)).foldlM
    (readStep file.permutation (coefficients blocks)) (List.replicate file.rawCapacity 0)
  written : ∀ buffer, (scatterBlocks file.permutation (word32 file.permutation.size) buffer blocks 0).map coefficients =
    (visits file.permutation.size (coefficients blocks)).foldlM (writeStep file.permutation buffer) (coefficients blocks)

/-- The blocks with the bits of a buffer. -/
structure Survives (f : Nat → Nat) (file : CarrierFile) (blocks : List JpegBlock) (buffer : MemoryBuffer)
    (after : List JpegBlock) : Prop where
  shape : after.map (fun block => (block.dc,block.ac.length)) = blocks.map fun block => (block.dc,block.ac.length)
  positions : (coefficients after).findIdxs eligible = (coefficients blocks).findIdxs eligible
  rawCapacity : (Image.jpeg after).rawCapacity = file.rawCapacity
  lowest : ∀ x counter, (x,counter) ∈ visits file.permutation.size (coefficients blocks) → (coefficients after).getD x 0 =
    ((coefficients blocks).getD x 0 &&& 0xFFFE) ||| if low buffer (f counter) then 1 else 0
  others : ∀ x, (coefficients after).getD x 0 &&& 0xFFFE = (coefficients blocks).getD x 0 &&& 0xFFFE
  small : ∀ x, (coefficients blocks).getD x 0 = 0 ∨ (coefficients blocks).getD x 0 = 1 →
    (coefficients after).getD x 0 = (coefficients blocks).getD x 0
  beyond : ∀ x, x ∉ (visits file.permutation.size (coefficients blocks)).map Prod.fst →
    (coefficients after).getD x 0 = (coefficients blocks).getD x 0
  loaded : ∃ read, file.unpack file.permutation.size (.jpeg after) = .ok read ∧
    ∀ k < file.permutation.size, low read k = low buffer k

theorem visits_inside {bitsToModify : Nat} {cs : List UInt16} {visit : Nat × Nat} (member : visit ∈ visits bitsToModify cs) :
    visit.1 < cs.length ∧ visit.2 < bitsToModify ∧ eligible (cs.getD visit.1 0) = true := by
  obtain ⟨below,there⟩ := mem_visits.mp member
  obtain ⟨inside,counts⟩ := List.mem_findIdxs_iff_exists_getElem_pos.mp (List.mem_of_getElem? there)
  exact ⟨inside,below,by rw [List.getD_eq_getElem _ _ inside]; exact counts⟩

theorem visits_distinct (bitsToModify : Nat) (cs : List UInt16) : ((visits bitsToModify cs).map Prod.fst).Nodup := by
  rw [visits,List.zipIdx_map_fst]
  exact List.nodup_findIdxs.sublist (List.take_sublist _ _)

variable {env : Environment} {file ready : CarrierFile} {blocks : List JpegBlock}

theorem initPermutation_positive (few : file.rawCapacity * 8 < 2 ^ 52) (ran : file.initPermutation env = (ready,.ok ())) :
    0 < ready.permutation.size := by
  have narrow : word64 (file.rawCapacity * 8) < 2 ^ 52 := (Nat.mod_le _ _).trans_lt few
  unfold initPermutation at ran
  split at ran
  · split at ran
    · cases (Prod.mk.inj ran).2
    · obtain ⟨rfl,returns⟩ := Prod.mk.inj ran
      exact (Permutation.init_size machine_exact (by omega) (fun _ => StegoMath.sqrt32_eq narrow) (Prod.ext rfl returns)).1
  · obtain ⟨rfl,_⟩ := Prod.mk.inj ran
    omega

theorem passes (opened : Opened file (.jpeg blocks)) (fits : file.permutation.size ≤ 8 * file.rawCapacity)
    (positive : 0 < file.permutation.size) : file.Passes blocks := by
  have small := opened.jpeg
  have narrow : file.permutation.size < 2 ^ 32 := by omega
  have read : file.unpack file.permutation.size (.jpeg blocks) = (visits file.permutation.size (coefficients blocks)).foldlM
      (readStep file.permutation (coefficients blocks)) (List.replicate file.rawCapacity 0) := by
    rw [unpack,if_neg (by simp only [addressSpace]; omega)]
    exact gatherCoefficients_visits narrow (coefficients blocks) [] _ positive
  refine ⟨?_,read,?_,?_⟩
  · rw [List.length_findIdxs]
    rfl
  · rw [word32_of_lt narrow]
    exact read
  · intro buffer
    have flat := @scatterCoefficients_visits file.permutation _ buffer narrow (coefficients blocks) [] _ positive
    rw [word32_of_lt narrow,scatterBlocks_flat]
    exact flat.symm

theorem survives {f : Nat → Nat} {buffer : MemoryBuffer} (opened : Opened file (.jpeg blocks))
    (fills : Fills file.permutation f file.rawCapacity) (positive : 0 < file.permutation.size)
    (length : buffer.length = file.rawCapacity) :
    ∃ after, file.pack buffer (.jpeg blocks) = .ok (.jpeg after) ∧ Survives f file blocks buffer after := by
  have small := opened.jpeg
  have fits := fills.fits
  have enough : file.permutation.size ≤ word64 (file.rawCapacity * 8) := by
    rw [word64_of_lt (by omega)]
    omega
  obtain ⟨image',packed,shape,read,unpacked,_,bits⟩ := pack_unpack opened fills positive enough length
  obtain ⟨after,ran,last⟩ := bind_eq_ok.mp packed
  obtain rfl := Except.ok.inj last
  obtain ⟨written,folded,size,replaced,kept⟩ := foldlM_writeStep fills length
    (visits_distinct file.permutation.size (coefficients blocks))
    (fun visit member => ⟨(visits_inside member).1,(visits_inside member).2.1⟩)
  have same : coefficients after = written := by
    have both := (passes opened fits positive).written buffer
    rw [ran,folded] at both
    exact Except.ok.inj both
  have shapes := scatterBlocks_eligible ran
  have split_ : ∀ x, (x ∉ (visits file.permutation.size (coefficients blocks)).map Prod.fst) ∨
      ∃ counter, (x,counter) ∈ visits file.permutation.size (coefficients blocks) := by
    intro x
    by_cases member : x ∈ (visits file.permutation.size (coefficients blocks)).map Prod.fst
    · obtain ⟨⟨_,counter⟩,there,rfl⟩ := List.mem_map.mp member
      exact .inr ⟨counter,there⟩
    · exact .inl member
  rw [← same] at replaced kept
  refine ⟨after,packed,?_,findIdxs_eligible (coefficients_eligible shapes),shape.rawCapacity.trans opened.raw,
    fun x counter member => replaced (x,counter) member,?_,?_,kept,read,unpacked,bits⟩
  · have widths := congrArg (List.map fun own : UInt16 × List Bool => (own.1,own.2.length)) shapes
    simpa [Function.comp_def] using widths
  · intro x
    rcases split_ x with outside | ⟨counter,member⟩
    · rw [kept x outside]
    · rw [replaced _ member,cleared_replaced16]
  · intro x least
    rcases split_ x with outside | ⟨counter,member⟩
    · exact kept x outside
    · have counts := (visits_inside member).2.2
      rw [eligible_iff] at counts
      exact absurd least (by tauto)

/-- Embedding keeps which coefficients of an image are used: every pass visits the same ones, and what `SaveFile` writes
    is what `LoadFile` reads. -/
theorem selection_survives (env : Environment) {file ready : CarrierFile} {blocks : List JpegBlock} {f : Nat → Nat}
    (raw : (Image.jpeg blocks).rawCapacity = file.rawCapacity) (ran : file.initPermutation env = (ready,.ok ()))
    (fills : Fills ready.permutation f ready.rawCapacity) :
    ready.Passes blocks ∧
      (∀ buffer, buffer.length = ready.rawCapacity →
        ∃ after, ready.pack buffer (.jpeg blocks) = .ok (.jpeg after) ∧ Survives f ready blocks buffer after ∧ ready.Passes after) ∧
      ∀ s image', file.saveFile env (.jpeg blocks) s = (ready,.ok image') → ∃ buffer embedded after,
        ready.unpack (word32 ready.permutation.size) (.jpeg blocks) = .ok buffer ∧
        ready.embedBufferUsingEncoder buffer s = .ok embedded ∧ image' = .jpeg after ∧ Survives f ready blocks embedded after := by
  have kept : ready.rawCapacity = file.rawCapacity := by
    obtain ⟨q,same⟩ := initPermutation_eq env file
    rw [ran] at same
    obtain rfl : ready = { file with permutation := q } := same
    rfl
  have opened : Opened ready (.jpeg blocks) := ⟨raw.trans kept.symm,rfl,by simp⟩
  have small := opened.jpeg
  have fits := fills.fits
  have positive := initPermutation_positive (by omega) ran
  refine ⟨passes opened fits positive,?_,?_⟩
  · intro buffer length
    obtain ⟨after,packed,survived⟩ := survives opened fills positive length
    exact ⟨after,packed,survived,passes ⟨survived.rawCapacity,rfl,by simp⟩ fits positive⟩
  · intro s image' saved
    obtain ⟨_,buffer,embedded,_,unpacked,embeds,packed⟩ := saveFile_inv saved
    have enough : ready.permutation.size ≤ word64 (ready.rawCapacity * 8) := by
      rw [word64_of_lt (by omega)]
      omega
    obtain ⟨buffer',unpacked',length,_⟩ := unpack_ok opened fills positive enough
    have first : buffer = buffer' := by
      rw [word32_of_lt (by omega)] at unpacked
      exact Except.ok.inj (unpacked.symm.trans unpacked')
    obtain ⟨after,packed',survived⟩ := survives opened fills positive
      ((embedBufferUsingEncoder_length embeds).trans (first ▸ length))
    exact ⟨buffer,embedded,after,unpacked,embeds,Except.ok.inj (packed.symm.trans packed'),survived⟩

/-- Ten coefficients count, negative ones among them. -/
def twoBlocks : List JpegBlock := [⟨5,[2,3,0,1,0xFFFF,0xFFFE]⟩,⟨0xFFFF,[7,1,9,10,11,12,0,6]⟩]

/-- Their carrier, with a permutation of eight bits. -/
def blocksCarrier : CarrierFile where
  file := ⟨[],[97,46,106,112,103]⟩
  rawCapacity := 1
  permutation := .identity { size := 8, initialized := true }

theorem selection_survives_signs : ∃ after, blocksCarrier.pack [0x65] (.jpeg twoBlocks) = .ok (.jpeg after) ∧
    Survives (fun i => i) blocksCarrier twoBlocks [0x65] after ∧ blocksCarrier.Passes after := by
  have raw : (Image.jpeg twoBlocks).rawCapacity = blocksCarrier.rawCapacity := by decide +kernel
  exact (selection_survives Permutation.twoPrimes raw rfl (fills_identity (by decide))).2.1 [0x65] rfl

end CarrierFile
end StegoDisk
