import StegoDisk.CarrierFilesManager
import StegoDisk.PermutationCorrect
import StegoDisk.Segments

/-!
Carriers lie end to end in the storage, each over as many bytes as its capacity. When the
capacities are whole blocks, every byte of the storage is reached from one carrier in
one place; what a last block reaches beyond its carrier is beyond the storage too.
-/
namespace StegoDisk
open Segments Feistel

namespace VirtualStorage

/-- A storage of `n` bytes in which position `p` is byte `f p` of the buffer. -/
structure Mapped (s : VirtualStorage) (n : Nat) (f : Nat → Nat) : Prop where
  raw : s.rawCapacity = n
  fits : n < addressSpace
  permutes : Permutes n f
  locates : ∀ p < n, s.locate p = .ok (f p)
  holds : ∃ data, s.data = some data ∧ data.length = n

variable {s : VirtualStorage} {n : Nat} {f : Nat → Nat}

theorem Mapped.beyond (mapped : s.Mapped n f) {p : Nat} (outside : n ≤ p) :
    s.locate p = .error (.thrown (.outOfRange "index out of range")) := by
  rw [locate,if_pos (by rw [mapped.raw]; exact outside)]

theorem Mapped.locate_eq (mapped : s.Mapped n f) {p q : Nat} : s.locate p = .ok q ↔ p < n ∧ f p = q := by
  by_cases inside : p < n
  · simp [mapped.locates p inside,inside]
  · simp [mapped.beyond (Nat.not_lt.mp inside),inside]

theorem Mapped.readByte (mapped : s.Mapped n f) {data : MemoryBuffer} (holds : s.data = some data) {p : Nat}
    (inside : p < n) : s.readByte p = .ok (data.getD (f p) 0) := by
  obtain ⟨held,there,length⟩ := mapped.holds
  obtain rfl := Option.some.inj (there.symm.trans holds)
  have below := mapped.permutes.lt inside
  rw [VirtualStorage.readByte,mapped.locates p inside,ok_bind,holds]
  simp [MemoryBuffer.at_of_lt (show f p < held.length by omega),List.getD_eq_getElem?_getD,
    show f p < held.length by omega]

theorem Mapped.writeByte (mapped : s.Mapped n f) {data : MemoryBuffer} (holds : s.data = some data) {p : Nat}
    (inside : p < n) (value : UInt8) : s.writeByte p value = .ok { s with data := some (data.set (f p) value) } := by
  obtain ⟨held,there,length⟩ := mapped.holds
  obtain rfl := Option.some.inj (there.symm.trans holds)
  have below := mapped.permutes.lt inside
  rw [VirtualStorage.writeByte,mapped.locates p inside,ok_bind,holds]
  simp [MemoryBuffer.at_of_lt (show f p < held.length by omega)]

theorem Mapped.readByte_beyond (mapped : s.Mapped n f) {p : Nat} (outside : n ≤ p) :
    s.readByte p = .error (.thrown (.outOfRange "index out of range")) := by
  rw [VirtualStorage.readByte,mapped.beyond outside,error_bind]

theorem Mapped.writeByte_beyond (mapped : s.Mapped n f) {p : Nat} (outside : n ≤ p) (value : UInt8) :
    s.writeByte p value = .error (.thrown (.outOfRange "index out of range")) := by
  rw [VirtualStorage.writeByte,mapped.beyond outside,error_bind]

/-- Whatever the buffer holds, the positions are where they were. -/
theorem Mapped.replace (mapped : s.Mapped n f) {data : MemoryBuffer} (length : data.length = n) :
    Mapped { s with data := some data } n f :=
  ⟨mapped.raw,mapped.fits,mapped.permutes,mapped.locates,data,rfl,length⟩

/-- An `ApplyPermutation` that returns gives a storage whose positions are permuted. -/
theorem applyPermutation_mapped {env : Environment} {memory : Nat → UInt8} {applied : VirtualStorage} {p : Permutation}
    (holds : s.permutation = some p) {requestedSize : Nat} (small : requestedSize < 2 ^ 64) {key : List UInt8}
    (returns : s.applyPermutation env memory requestedSize key = (applied,.ok ())) :
    ∃ f, applied.Mapped applied.rawCapacity f := by
  rcases @applyPermutation_cases env memory s p holds requestedSize key with
    ⟨failure,outcome,_⟩ | ⟨initialized,large,fits,outcome⟩
  · rw [outcome] at returns
    simp at returns
  · rw [outcome] at returns
    obtain ⟨rfl,_⟩ := Prod.mk.inj returns
    have positive : 0 < (p.init env requestedSize key).1.size := by omega
    have bound : (p.init env requestedSize key).1.size < 2 ^ 60 := fits.trans (by decide)
    have ready := Permutation.init_ready machine_exact small positive bound (Prod.ext rfl initialized)
    obtain ⟨f,permutes,values⟩ := ready.permutes
    refine ⟨f,rfl,fits,permutes,?_,⟨_,rfl,by simp⟩⟩
    intro i inside
    rw [locate,if_neg (Nat.not_le.mpr inside)]
    exact values machine machine_exact i inside

/-- A storage of zeros with the identity permutation. -/
def ofZeros (n : Nat) : VirtualStorage where
  permutation := some (.identity ⟨n,true⟩)
  isSetPermutation := true
  rawCapacity := n
  usableCapacity := n - storageHashLength
  data := some (List.replicate n 0)

theorem ofZeros_mapped {n : Nat} (fits : n < addressSpace) : (ofZeros n).Mapped n fun p => p := by
  refine ⟨rfl,fits,permutes_id n,?_,⟨_,rfl,by simp⟩⟩
  intro p inside
  simp [locate,ofZeros,Nat.not_le.mpr inside,Permutation.permute,Permutation.permuteWith,IdentityPermutation.permute,
    commonPermuteInputCheck]

end VirtualStorage

/-! ### Shares -/

namespace CarrierFilesManager

theorem shares_get (capacities : List Nat) (offset remaining k : Nat) :
    (shares capacities (word64 offset) remaining)[k]? =
      capacities[k]?.map fun capacity => (word64 (offset + start capacities k),min capacity (remaining - start capacities k)) := by
  induction capacities generalizing offset remaining k with
  | nil => simp [shares]
  | cons first rest ih =>
    have next : word64 (word64 offset + first) = word64 (offset + first) := Nat.mod_add_mod offset (2 ^ 64) first
    have step : shares (first::rest) (word64 offset) remaining =
        (word64 offset,min first remaining)::shares rest (word64 (offset + first)) (remaining - first) := by
      rw [shares,next]
      split
      · rw [min_eq_left (by omega)]
      · rw [min_eq_right (by omega),show remaining - first = 0 by omega]
    rw [step]
    cases k with
    | zero => simp
    | succ k =>
      simp only [List.getElem?_cons_succ,ih,start_cons,Nat.add_assoc,Nat.sub_sub]

/-- Where carrier `k` begins. -/
def offset (files : List CarrierFile) (k : Nat) : Nat := start (files.map CarrierFile.capacity) k

/-- The bytes that carrier `k` gets of a storage of `n`. -/
def bytesUsed (files : List CarrierFile) (n k : Nat) (file : CarrierFile) : Nat := min file.capacity (n - offset files k)

theorem offset_succ {files : List CarrierFile} {k : Nat} {file : CarrierFile} (here : files[k]? = some file) :
    offset files (k + 1) = offset files k + file.capacity :=
  start_succ (by rw [List.getElem?_map,here]; rfl)

theorem shares_zero (files : List CarrierFile) (n k : Nat) :
    (shares (files.map CarrierFile.capacity) 0 n)[k]? =
      files[k]?.map fun file => (word64 (offset files k),bytesUsed files n k file) := by
  have share := shares_get (files.map CarrierFile.capacity) 0 n k
  rw [show word64 0 = 0 from rfl] at share
  rw [share,List.getElem?_map]
  cases files[k]? with
  | none => rfl
  | some file => simp [offset,bytesUsed]

theorem assignShares_get (files : List CarrierFile) (ref n k : Nat) :
    (assignShares files ref n)[k]? =
      files[k]?.map fun file => file.addToVirtualStorage ref (word64 (offset files k)) (bytesUsed files n k file) := by
  rw [assignShares,List.getElem?_map,List.zip,List.getElem?_zipWith,shares_zero]
  cases files[k]? with
  | none => rfl
  | some file => rfl

theorem assignShares_capacity (files : List CarrierFile) (ref n : Nat) :
    (assignShares files ref n).map CarrierFile.capacity = files.map CarrierFile.capacity := by
  apply List.ext_getElem?
  intro k
  simp only [List.getElem?_map,assignShares_get]
  cases files[k]? with
  | none => rfl
  | some file => rfl

/-! ### Accesses -/

/-- The blocks a carrier can have: the capacity is never more than they hold. -/
structure Shaped (file : CarrierFile) : Prop where
  blockCount : file.blockCount < 2 ^ 32
  dataBlockSize : file.dataBlockSize < 2 ^ 32
  capacity : file.capacity ≤ file.blockCount * file.dataBlockSize

/-- Byte `i` of block `b` of carrier `k`, for `(k,b,i)`, is at position `p`. -/
def Accesses (files : List CarrierFile) (access : Nat × Nat × Nat) (p : Nat) : Prop :=
  ∃ file, files[access.1]? = some file ∧ access.2.1 < file.blocksUsed ∧ access.2.2 < file.dataBlockSize ∧
    file.position access.2.1 access.2.2 = p

/-- A carrier that ends before the storage does is whole blocks. -/
def Aligned (files : List CarrierFile) (n : Nat) : Prop :=
  ∀ k file, files[k]? = some file → offset files (k + 1) < n → file.dataBlockSize ∣ file.capacity

variable {files : List CarrierFile} {ref n : Nat}

/-- A share of no more than the capacity takes its blocks. -/
theorem Shaped.blocksUsed {file : CarrierFile} (shaped : Shaped file) {used : Nat} (enough : used ≤ file.capacity) (ref o : Nat) :
    (file.addToVirtualStorage ref o used).blocksUsed = blocks file.dataBlockSize used ∧
      blocks file.dataBlockSize used ≤ file.blockCount := by
  have few : blocks file.dataBlockSize used ≤ file.blockCount := blocks_le (enough.trans shaped.capacity)
  refine ⟨?_,few⟩
  unfold blocks at few ⊢
  simp only [CarrierFile.addToVirtualStorage]
  split
  · rfl
  · rename_i some_
    rw [if_neg some_] at few
    exact word32_of_lt (lt_of_le_of_lt few shaped.blockCount)

theorem blocksUsed_eq {file : CarrierFile} (shaped : Shaped file) (k : Nat) (o : Nat) :
    (file.addToVirtualStorage ref o (bytesUsed files n k file)).blocksUsed =
      blocks file.dataBlockSize (bytesUsed files n k file) :=
  (shaped.blocksUsed (min_le_left _ _) ref o).1

/-- No carrier uses more blocks than it has. -/
theorem blocksUsed_le (shaped : ∀ file ∈ files, Shaped file) {file : CarrierFile} (member : file ∈ assignShares files ref n) :
    file.blocksUsed ≤ file.blockCount := by
  obtain ⟨k,here⟩ := List.mem_iff_getElem?.mp member
  rw [assignShares_get] at here
  obtain ⟨original,there,rfl⟩ := Option.map_eq_some_iff.mp here
  obtain ⟨used,few⟩ := (shaped original (List.mem_of_getElem? there)).blocksUsed
    (min_le_left original.capacity (n - offset files k)) ref (word64 (offset files k))
  exact used.trans_le few

/-- Nothing wraps in the positions of the blocks that a carrier uses. -/
theorem position_eq {file : CarrierFile} (shaped : Shaped file) (fits : n < addressSpace) {k b i : Nat}
    (block : b < blocks file.dataBlockSize (bytesUsed files n k file)) (byte : i < file.dataBlockSize) (ref used : Nat) :
    (file.addToVirtualStorage ref (word64 (offset files k)) used).position b i =
      offset files k + b * file.dataBlockSize + i := by
  have some_ : bytesUsed files n k file ≠ 0 := by
    intro none_
    simp [blocks,none_] at block
  have inside : offset files k < n := by
    by_contra past
    exact some_ (by simp [bytesUsed,show n - offset files k = 0 by omega])
  have upto := Nat.mul_le_mul_right file.dataBlockSize (show b + 1 ≤ _ from block)
  have spill := blocks_mul_lt (n := bytesUsed files n k file) (show 0 < file.dataBlockSize by omega)
  have least : bytesUsed files n k file ≤ n - offset files k := min_le_right _ _
  have narrow := shaped.dataBlockSize
  simp only [addressSpace] at fits
  rw [Nat.succ_mul] at upto
  show word64 (word64 (offset files k) + b * file.dataBlockSize + i) = _
  rw [word64_of_lt (n := offset files k) (by omega),word64_of_lt (by omega)]

/-- What carrier `k` reaches: its blocks from its offset on. -/
theorem accesses_iff (shaped : ∀ file ∈ files, Shaped file) (fits : n < addressSpace) {k b i p : Nat} :
    Accesses (assignShares files ref n) (k,b,i) p ↔
      ∃ file, files[k]? = some file ∧ b < blocks file.dataBlockSize (bytesUsed files n k file) ∧ i < file.dataBlockSize ∧
        p = offset files k + b * file.dataBlockSize + i := by
  simp only [Accesses,assignShares_get,Option.map_eq_some_iff]
  constructor
  · rintro ⟨_,⟨file,here,rfl⟩,block,byte,rfl⟩
    have held := shaped file (List.mem_of_getElem? here)
    rw [blocksUsed_eq held] at block
    exact ⟨file,here,block,byte,position_eq held fits block byte _ _⟩
  · rintro ⟨file,here,block,byte,rfl⟩
    have held := shaped file (List.mem_of_getElem? here)
    exact ⟨_,⟨file,here,rfl⟩,by rwa [blocksUsed_eq held],byte,position_eq held fits block byte _ _⟩

/-- A carrier reaches nothing before its offset, and a position in one place. -/
theorem access_low (shaped : ∀ file ∈ files, Shaped file) (fits : n < addressSpace) {k b i p : Nat}
    (access : Accesses (assignShares files ref n) (k,b,i) p) : offset files k ≤ p := by
  obtain ⟨_,_,_,_,rfl⟩ := (accesses_iff shaped fits).mp access
  omega

theorem access_unique (shaped : ∀ file ∈ files, Shaped file) (fits : n < addressSpace) {k b i b' i' p : Nat}
    (first : Accesses (assignShares files ref n) (k,b,i) p) (second : Accesses (assignShares files ref n) (k,b',i') p) :
    b = b' ∧ i = i' := by
  obtain ⟨file,here,_,byte,place⟩ := (accesses_iff shaped fits).mp first
  obtain ⟨file',here',_,byte',place'⟩ := (accesses_iff shaped fits).mp second
  obtain rfl := Option.some.inj (here.symm.trans here')
  exact block_unique byte byte' (by omega)

/-- Every byte of a share is in one of its blocks. -/
theorem exists_access (shaped : ∀ file ∈ files, Shaped file) (fits : n < addressSpace) {k p : Nat} {file : CarrierFile}
    (here : files[k]? = some file) (low : offset files k ≤ p) (high : p < offset files k + bytesUsed files n k file) :
    ∃ b i, Accesses (assignShares files ref n) (k,b,i) p := by
  have positive : 0 < file.dataBlockSize := by
    rcases Nat.eq_zero_or_pos file.dataBlockSize with zero | positive
    · have none_ := (shaped file (List.mem_of_getElem? here)).capacity
      have least : bytesUsed files n k file ≤ file.capacity := min_le_left _ _
      rw [zero] at none_
      omega
    · exact positive
  refine ⟨(p - offset files k) / file.dataBlockSize,(p - offset files k) % file.dataBlockSize,?_⟩
  refine (accesses_iff shaped fits).mpr ⟨file,here,lt_blocks (by omega),Nat.mod_lt _ positive,?_⟩
  have whole := Nat.div_add_mod' (p - offset files k) file.dataBlockSize
  omega

/-- Every position of the storage lies in a share. -/
theorem exists_share (enough : n ≤ (files.map CarrierFile.capacity).sum) {p : Nat} (inside : p < n) :
    ∃ k file, files[k]? = some file ∧ offset files k ≤ p ∧ p < offset files k + bytesUsed files n k file := by
  obtain ⟨k,capacity,found,low,high⟩ := exists_segment (show p < (files.map CarrierFile.capacity).sum by omega)
  rw [List.getElem?_map] at found
  obtain ⟨file,here,rfl⟩ := Option.map_eq_some_iff.mp found
  refine ⟨k,file,here,low,?_⟩
  have upto : p - offset files k < bytesUsed files n k file :=
    lt_min (show p - start _ k < _ by omega) (show p - start _ k < n - start _ k by omega)
  have : offset files k ≤ p := low
  omega

/-- Carriers that are whole blocks reach nothing of the storage beyond their segments. -/
theorem Aligned.inside (aligned : Aligned files n) (shaped : ∀ file ∈ files, Shaped file) (fits : n < addressSpace)
    {k b i p : Nat} (access : Accesses (assignShares files ref n) (k,b,i) p) (inside : p < n) :
    ∃ file, files[k]? = some file ∧ offset files k ≤ p ∧ p < offset files k + bytesUsed files n k file := by
  obtain ⟨file,here,block,byte,rfl⟩ := (accesses_iff shaped fits).mp access
  refine ⟨file,here,by omega,?_⟩
  have upto := Nat.mul_le_mul_right file.dataBlockSize (show b + 1 ≤ _ from block)
  rw [Nat.succ_mul] at upto
  by_cases ends : offset files (k + 1) < n
  · -- the share is the whole capacity, which is so many blocks
    obtain ⟨count,whole⟩ := aligned k file here ends
    rw [offset_succ here] at ends
    have used : bytesUsed files n k file = file.capacity := min_eq_left (by omega)
    have exactly : blocks file.dataBlockSize (bytesUsed files n k file) ≤ count :=
      blocks_le (by rw [used,whole,Nat.mul_comm])
    have := Nat.mul_le_mul_right file.dataBlockSize exactly
    rw [used,whole,Nat.mul_comm file.dataBlockSize]
    omega
  · rw [offset_succ here] at ends
    have used : bytesUsed files n k file = n - offset files k := min_eq_right (by omega)
    omega

/-- A byte of the storage is accessed once. -/
theorem Aligned.unique (aligned : Aligned files n) (shaped : ∀ file ∈ files, Shaped file) (fits : n < addressSpace)
    {x y : Nat × Nat × Nat} {p : Nat} (first : Accesses (assignShares files ref n) x p)
    (second : Accesses (assignShares files ref n) y p) (inside : p < n) : x = y := by
  obtain ⟨j,b,i⟩ := x
  obtain ⟨k,c,l⟩ := y
  obtain ⟨file,here,low,high⟩ := aligned.inside shaped fits first inside
  obtain ⟨other,there,low',high'⟩ := aligned.inside shaped fits second inside
  have least : bytesUsed files n j file ≤ file.capacity := min_le_left _ _
  have least' : bytesUsed files n k other ≤ other.capacity := min_le_left _ _
  obtain rfl : j = k := segment_unique (a := file.capacity) (b := other.capacity) (by rw [List.getElem?_map,here]; rfl)
    (by rw [List.getElem?_map,there]; rfl) ⟨low,show p < offset files j + _ by omega⟩
    ⟨low',show p < offset files k + _ by omega⟩
  obtain ⟨rfl,rfl⟩ := access_unique shaped fits first second
  rfl

/-- The shares of a storage of `n` bytes in carriers that are whole blocks: every position below
    `n`, and with a global permutation every byte of the buffer, is accessed once; what
    a carrier accesses outside its share is refused; no carrier uses more blocks than it has. -/
theorem shares_cover (files : List CarrierFile) (ref n : Nat) (s : VirtualStorage) (f : Nat → Nat)
    (words : ∀ file ∈ files, file.blockCount < 2 ^ 32 ∧ file.dataBlockSize < 2 ^ 32)
    (whole : ∀ file ∈ files, file.capacity = file.blockCount * file.dataBlockSize)
    (enough : n ≤ (files.map CarrierFile.capacity).sum) (mapped : s.Mapped n f) :
    (∀ p < n, ∃! access, Accesses (assignShares files ref n) access p) ∧
      (∀ k b i p start used, (shares (files.map CarrierFile.capacity) 0 n)[k]? = some (start,used) →
        Accesses (assignShares files ref n) (k,b,i) p → ¬ (start ≤ p ∧ p < start + used) →
          n ≤ p ∧ s.readByte p = .error (.thrown (.outOfRange "index out of range")) ∧
            ∀ value, s.writeByte p value = .error (.thrown (.outOfRange "index out of range"))) ∧
      (∀ file ∈ assignShares files ref n, file.blocksUsed ≤ file.blockCount) ∧
      ∀ q < n, ∃! access, ∃ p, Accesses (assignShares files ref n) access p ∧ s.locate p = .ok q := by
  have shaped : ∀ file ∈ files, Shaped file := fun file member =>
    ⟨(words file member).1,(words file member).2,(whole file member).le⟩
  have aligned : Aligned files n := fun k file here _ =>
    ⟨file.blockCount,by rw [whole file (List.mem_of_getElem? here),Nat.mul_comm]⟩
  have once : ∀ p < n, ∃! access, Accesses (assignShares files ref n) access p := by
    intro p inside
    obtain ⟨k,file,here,low,high⟩ := exists_share enough inside
    obtain ⟨b,i,access⟩ := exists_access shaped mapped.fits here low high
    exact ⟨(k,b,i),access,fun y other => aligned.unique shaped mapped.fits other access inside⟩
  refine ⟨once,?_,?_,?_⟩
  · intro k b i p first used share access outside
    have beyond : n ≤ p := by
      by_contra inside
      obtain ⟨file,here,low,high⟩ := aligned.inside shaped mapped.fits access (Nat.not_le.mp inside)
      have exactly : word64 (offset files k) = offset files k := by
        have fits := mapped.fits
        simp only [addressSpace] at fits
        exact word64_of_lt (by omega)
      rw [shares_zero,here,Option.map_some,exactly] at share
      obtain ⟨rfl,rfl⟩ := Prod.mk.inj (Option.some.inj share)
      exact outside ⟨low,high⟩
    exact ⟨beyond,mapped.readByte_beyond beyond,mapped.writeByte_beyond beyond⟩
  · exact fun file member => blocksUsed_le shaped member
  · intro q below
    obtain ⟨p,inside,rfl⟩ := mapped.permutes.onto below
    obtain ⟨access,accessed,only⟩ := once p inside
    refine ⟨access,⟨p,accessed,mapped.locates p inside⟩,?_⟩
    rintro y ⟨p',other,located⟩
    obtain ⟨inside',same⟩ := mapped.locate_eq.mp located
    obtain rfl := mapped.permutes.inj inside' inside same
    exact only y other

/-- A carrier with blocks of a size, whose capacity is the 32-bit product. -/
def ofBlocks (dataBlockSize blockCount : Nat) : CarrierFile where
  file := ⟨[],[]⟩
  rawCapacity := 0
  permutation := .fresh .identity
  dataBlockSize := dataBlockSize
  blockCount := blockCount
  capacity := word32 (blockCount * dataBlockSize)

/-- Six and five blocks of 5 bytes hold a storage of 52 bytes; the last one is reached once. -/
theorem shares_cover_two : ∃! access, ∃ p,
    Accesses (assignShares [ofBlocks 5 6,ofBlocks 5 5] 0 52) access p ∧ (VirtualStorage.ofZeros 52).locate p = .ok 51 :=
  (shares_cover [ofBlocks 5 6,ofBlocks 5 5] 0 52 (.ofZeros 52) (fun p => p) (by simp [ofBlocks])
    (by simp [ofBlocks,word32]) (by simp [ofBlocks,word32]) (VirtualStorage.ofZeros_mapped (by decide))).2.2.2 51 (by decide)

end CarrierFilesManager
end StegoDisk
