import Mathlib.Tactic.Ring
import StegoDisk.Hash
import StegoDisk.Sponge

/-!
`utils/keccak/keccak.cc` with a digest of 32 bytes, and `KeccakHashImpl::Process`, which hands it the length of the data as an
`int`. A copy that would leave the data or the temporary of the last block is undefined.
-/
namespace StegoDisk
namespace Keccak

/-! ### The permutation of the state -/

/-- The 25 words of the state; a word outside it is never asked for. -/
abbrev State := List UInt64

/-- `ROTL64`. -/
def rotl64 (x : UInt64) (y : Nat) : UInt64 := (x <<< UInt64.ofNat y) ||| (x >>> UInt64.ofNat (64 - y))

/-- `keccakf_rndc`. -/
def rndc : List UInt64 :=
  [0x0000000000000001,0x0000000000008082,0x800000000000808a,0x8000000080008000,0x000000000000808b,0x0000000080000001,
    0x8000000080008081,0x8000000000008009,0x000000000000008a,0x0000000000000088,0x0000000080008009,0x000000008000000a,
    0x000000008000808b,0x800000000000008b,0x8000000000008089,0x8000000000008003,0x8000000000008002,0x8000000000000080,
    0x000000000000800a,0x800000008000000a,0x8000000080008081,0x8000000000008080,0x0000000080000001,0x8000000080008008]

/-- `keccakf_rotc`. -/
def rotc : List Nat := [1,3,6,10,15,21,28,36,45,55,2,14,27,41,56,8,25,43,62,18,39,61,20,44]

/-- `keccakf_piln`. -/
def piln : List Nat := [10,7,11,17,18,3,5,16,8,21,24,4,15,23,19,13,12,2,20,14,22,9,6,1]

def theta (st : State) : State :=
  let bc := (List.range 5).map fun i =>
    st.getD i 0 ^^^ st.getD (i + 5) 0 ^^^ st.getD (i + 10) 0 ^^^ st.getD (i + 15) 0 ^^^ st.getD (i + 20) 0
  (List.range 25).map fun k => st.getD k 0 ^^^ (bc.getD ((k % 5 + 4) % 5) 0 ^^^ rotl64 (bc.getD ((k % 5 + 1) % 5) 0) 1)

/-- Each word goes, rotated, to the place of the next. -/
def rhoPi (st : State) : State :=
  ((List.range 24).foldl (fun (moved : State × UInt64) i =>
    (moved.1.set (piln.getD i 0) (rotl64 moved.2 (rotc.getD i 0)),moved.1.getD (piln.getD i 0) 0)) (st,st.getD 1 0)).1

def chi (st : State) : State :=
  (List.range 25).map fun k =>
    let row := k / 5 * 5
    st.getD k 0 ^^^ (~~~ st.getD (row + (k % 5 + 1) % 5) 0 &&& st.getD (row + (k % 5 + 2) % 5) 0)

def iota (round : Nat) (st : State) : State := st.set 0 (st.getD 0 0 ^^^ rndc.getD round 0)

/-- `keccakf` with 24 rounds. -/
def keccakf (st : State) : State := (List.range 24).foldl (fun st round => iota round (chi (rhoPi (theta st)))) st

/-! ### The sponge -/

/-- `rsiz` for a digest of 32 bytes. -/
def rsiz : Nat := 200 - 2 * 32

/-- A block is xored into the first words of the state, and the state is permuted. -/
def absorb (st : State) (bytes : List UInt8) : State :=
  keccakf ((List.range 25).map fun i =>
    if i < rsiz / 8 then st.getD i 0 ^^^ UInt64.ofNat (littleEndian bytes (8 * i) 8) else st.getD i 0)

/-- The state before anything is absorbed. -/
def start : State := List.replicate 25 0

/-- The first 32 bytes of the state. -/
def squeeze (st : State) : Digest :=
  ⟨(List.range 32).map fun i => UInt8.ofNat ((st.getD (i / 8) 0).toNat / 256 ^ (i % 8)),by simp⟩

/-- The bytes that fill a last block of `n` bytes: 1 comes first, and the highest bit is set in the last of them. -/
def padding (n : Nat) : List UInt8 :=
  if n + 1 = rsiz then [0x81] else 1::List.replicate (rsiz - n - 2) 0 ++ [0x80]

/-- The digest of a message: the sponge over all its bytes. -/
def digest : Keccak := fun message => squeeze (Sponge.sponge rsiz absorb padding start message)

/-! ### The code -/

/-- The loop of `keccak` over the whole blocks of `in`. -/
def blocks (data : MemoryBuffer) (position : Nat) (inlen : Int) (st : State) : Except Failure (Nat × Int × State) :=
  if inlen ≥ rsiz then
    if position + rsiz ≤ data.length then
      blocks data (position + rsiz) (inlen - rsiz) (absorb st ((data.drop position).take rsiz))
    else .error .undefined
  else .ok (position,inlen,st)
termination_by inlen.toNat
decreasing_by
  have : rsiz = 136 := rfl
  omega

/-- The temporary of 500 bytes after the last bytes of `in` were copied and padded, up to the end of the block. The length of the
    copy is a `size_t`. -/
def lastBlock (data : MemoryBuffer) (position : Nat) (inlen : Int) : Except Failure (List UInt8) :=
  let copied := (inlen % 2 ^ 64).toNat
  if copied ≤ 500 ∧ position + copied ≤ data.length then
    let temp := (data.drop position).take copied ++ 1::List.replicate (rsiz - (copied + 1)) 0
    .ok (temp.set (rsiz - 1) (temp.getD (rsiz - 1) 0 ||| 0x80))
  else .error .undefined

/-- `keccak`. -/
def keccak (data : MemoryBuffer) (inlen : Int) : Except Failure Digest := do
  let (position,inlen,st) ← blocks data 0 inlen start
  let temp ← lastBlock data position inlen
  .ok (squeeze (absorb st temp))

/-- `static_cast<int>` of a `size_t`. -/
def int (n : Nat) : Int := if word32 n < 2 ^ 31 then word32 n else word32 n - 2 ^ 32

/-- `KeccakHashImpl::Process`, of data that is not at a null pointer into a state of 32 bytes: those it refuses. -/
def process (data : MemoryBuffer) (length : Nat) : Except Failure Digest := keccak data (int length)

/-! ### The code is the sponge -/

theorem padding_length {n : Nat} (small : n < rsiz) : n + (padding n).length = rsiz := by
  unfold padding
  split
  · assumption
  · simp only [List.length_append,List.length_cons,List.length_replicate,List.length_nil]
    omega

/-- The loop takes the whole blocks of the first `n` bytes. -/
theorem blocks_eq {data : MemoryBuffer} {n : Nat} (inside : n ≤ data.length) (left : Nat) :
    ∀ i, i + left = n / rsiz → blocks data (i * rsiz) (n - i * rsiz : Int) (Sponge.absorbed rsiz absorb start (data.take n) i) =
      .ok (n / rsiz * rsiz,(n % rsiz : Nat),Sponge.absorbed rsiz absorb start (data.take n) (n / rsiz)) := by
  have rate : rsiz = 136 := rfl
  have parts := Nat.div_add_mod n rsiz
  have last := Nat.mod_lt n (show 0 < rsiz by decide)
  rw [Nat.mul_comm] at parts
  induction left with
  | zero =>
    intro i whole
    obtain rfl : i = n / rsiz := by omega
    rw [blocks,if_neg (by omega)]
    congr 3
    omega
  | succ left ih =>
    intro i whole
    have room : (i + 1) * rsiz ≤ n / rsiz * rsiz := Nat.mul_le_mul_right _ (by omega)
    rw [Nat.succ_mul] at room
    have same : (data.drop (i * rsiz)).take rsiz = Sponge.block rsiz (data.take n) i := by
      rw [Sponge.block,List.drop_take,List.take_take,min_eq_left (by omega)]
    have next := ih (i + 1) (by omega)
    rw [Sponge.absorbed_succ,Nat.succ_mul] at next
    rw [blocks,if_pos (by omega),if_pos (by omega),same,← next]
    congr 1
    push_cast
    ring

/-- The temporary of the last block holds the last bytes and the padding. -/
theorem lastBlock_eq {data : MemoryBuffer} {position n : Nat} (small : n < rsiz) (inside : position + n ≤ data.length) :
    lastBlock data position n = .ok ((data.drop position).take n ++ padding n) := by
  have rate : rsiz = 136 := rfl
  have copied : ((n : Int) % 2 ^ 64).toNat = n := by omega
  have length : ((data.drop position).take n).length = n := by
    rw [List.length_take,List.length_drop]
    omega
  simp only [lastBlock,copied]
  rw [if_pos (by omega),padding]
  generalize (data.drop position).take n = front at length
  by_cases full : n + 1 = rsiz
  · rw [if_pos full,show rsiz - (n + 1) = 0 by omega,show rsiz - 1 = front.length by omega]
    simp
    decide
  · obtain ⟨zeros,count⟩ : ∃ zeros, rsiz - n - 2 = zeros := ⟨_,rfl⟩
    rw [if_neg full,count,show rsiz - (n + 1) = zeros + 1 by omega,List.replicate_succ',← List.cons_append,← List.append_assoc]
    have last : rsiz - 1 = (front ++ 1::List.replicate zeros (0 : UInt8)).length := by
      simp only [List.length_append,List.length_cons,List.length_replicate]
      omega
    rw [last]
    simp

/-- Over a length that is not negative and inside the data, `keccak` is the sponge. -/
theorem keccak_eq {data : MemoryBuffer} {n : Nat} (inside : n ≤ data.length) : keccak data n = .ok (digest (data.take n)) := by
  have parts := Nat.div_add_mod n rsiz
  have last := Nat.mod_lt n (show 0 < rsiz by decide)
  rw [Nat.mul_comm] at parts
  have loop := blocks_eq inside (n / rsiz) 0 (Nat.zero_add _)
  have length : (data.take n).length = n := by rw [List.length_take,min_eq_left inside]
  have fills : (data.take n).length % rsiz + (padding ((data.take n).length % rsiz)).length = rsiz := by
    rw [length]
    exact padding_length last
  have whole : Sponge.sponge rsiz absorb padding start (data.take n) = _ := Sponge.sponge_eq start fills
  have rest : (data.drop (n / rsiz * rsiz)).take (n % rsiz) = (data.take n).drop (n / rsiz * rsiz) := by
    rw [List.drop_take]
    congr 1
    omega
  rw [length] at whole
  rw [Nat.zero_mul,Nat.cast_zero,Int.zero_mul,Int.sub_zero,Sponge.absorbed_zero] at loop
  rw [keccak,loop,ok_bind]
  simp only [lastBlock_eq last (show n / rsiz * rsiz + n % rsiz ≤ data.length by omega),ok_bind]
  rw [digest,whole,rest]

/-- A negative length makes the last copy leave the temporary. -/
theorem keccak_undefined (data : MemoryBuffer) {inlen : Int} (negative : inlen < 0) (low : -2 ^ 31 ≤ inlen) :
    keccak data inlen = .error .undefined := by
  have rate : rsiz = 136 := rfl
  rw [keccak,blocks,if_neg (by omega),ok_bind]
  simp only [lastBlock]
  rw [if_neg (by omega)]
  rfl

/-- What `Hash` computes over a buffer is what the code computes with its length. -/
theorem process_eq (data : MemoryBuffer) : process data data.length = Hash.processBuffer digest data := by
  have small := word32_lt data.length
  rw [process,int,Hash.processBuffer]
  by_cases narrow : word32 data.length < 2 ^ 31
  · have inside : word32 data.length ≤ data.length := Nat.mod_le _ _
    rw [if_pos narrow,if_pos narrow,keccak_eq inside]
  · rw [if_neg narrow,if_neg narrow,keccak_undefined _ (by omega) (by omega)]

example : (digest []).val.take 4 = [0xc5,0xd2,0x46,0x01] := by decide +kernel

end Keccak
end StegoDisk
