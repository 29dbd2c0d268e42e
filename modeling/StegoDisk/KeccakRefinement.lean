import Mathlib
import StegoDisk.Bits
import StegoDisk.Keccak
import StegoDisk.UnkeyedPermutation

/-!
`keccakf` of `utils/keccak/keccak.cc` is Keccak-f with lanes of 64 bits: its loops over the words are the step mappings on
their bits, and its three tables are the triangular numbers along the walk of π, this walk, and the round constants of
the shift register. As a permutation of the 25 words it loses nothing of what a block brings in.
-/
namespace StegoDisk
namespace Keccak

/-- A bit of a word. -/
def bit (u : UInt64) (z : ZMod 64) : ZMod 2 := if u.toBitVec.getLsbD z.val then 1 else 0

/-- The words as lanes. -/
def bits (st : State) : StepMappings.State 64 := fun x y z => bit (st.getD (x.val + 5 * y.val) 0) z

/-! ### Words -/

variable {u v : UInt64} {z : ZMod 64}

theorem bit_inj {a b : Bool} (same : (if a then 1 else 0 : ZMod 2) = if b then 1 else 0) : a = b := by
  cases a <;> cases b <;> first | rfl | cases same

theorem bit_xor : bit (u ^^^ v) z = bit u z + bit v z := by
  simp only [bit,UInt64.toBitVec_xor,BitVec.getLsbD_xor]
  cases u.toBitVec.getLsbD z.val <;> cases v.toBitVec.getLsbD z.val <;> decide

theorem bit_and : bit (u &&& v) z = bit u z * bit v z := by
  simp only [bit,UInt64.toBitVec_and,BitVec.getLsbD_and]
  cases u.toBitVec.getLsbD z.val <;> cases v.toBitVec.getLsbD z.val <;> decide

theorem bit_not : bit (~~~u) z = bit u z + 1 := by
  have inside : z.val < 64 := ZMod.val_lt z
  simp only [bit,UInt64.toBitVec_not,BitVec.getLsbD_not,inside,decide_true,Bool.true_and]
  cases u.toBitVec.getLsbD z.val <;> decide

/-- `ROTL64` moves bits up, round the end of the word. -/
theorem bit_rotl64 {n : ℕ} (small : n < 64) : bit (rotl64 u n) z = bit u (z - n) := by
  have inside : z.val < 64 := ZMod.val_lt z
  have back : (z - n).val = (z.val + (64 - n)) % 64 := by
    have cast_ : z - n = ((z.val + (64 - n) : ℕ) : ZMod 64) := by
      rw [Nat.cast_add,Nat.cast_sub small.le,ZMod.natCast_zmod_val]
      simp [sub_eq_add_neg]
      decide
    rw [cast_,ZMod.val_natCast]
  have up : ((UInt64.ofNat n).toBitVec % 64).toNat = n := by
    rw [BitVec.toNat_umod,UInt64.toNat_toBitVec,UInt64.toNat_ofNat_of_lt' (by simp only [UInt64.size]; omega)]
    exact Nat.mod_eq_of_lt small
  have down : ((UInt64.ofNat (64 - n)).toBitVec % 64).toNat = (64 - n) % 64 := by
    rw [BitVec.toNat_umod,UInt64.toNat_toBitVec,UInt64.toNat_ofNat_of_lt' (by simp only [UInt64.size]; omega)]
    rfl
  simp only [bit,rotl64,back,UInt64.toBitVec_or,UInt64.toBitVec_shiftLeft,UInt64.toBitVec_shiftRight,BitVec.getLsbD_or,
    BitVec.shiftLeft_eq',BitVec.ushiftRight_eq',up,down,BitVec.getLsbD_shiftLeft,BitVec.getLsbD_ushiftRight]
  have beyond : ∀ k, 64 ≤ k → u.toBitVec.getLsbD k = false := fun k out => BitVec.getLsbD_of_ge _ _ out
  by_cases zero : n = 0
  · subst zero
    simp [inside,Nat.mod_eq_of_lt inside]
  by_cases low : z.val < n
  · rw [show (64 - n) % 64 + z.val = (z.val + (64 - n)) % 64 by omega]
    simp [low]
  · rw [show z.val - n = (z.val + (64 - n)) % 64 by omega,beyond ((64 - n) % 64 + z.val) (by omega)]
    simp [inside,low]

theorem ext_of_bits {st st' : State} (words : st.length = 25) (words' : st'.length = 25) (same : bits st = bits st') : st = st' := by
  refine List.ext_getElem (by rw [words,words']) fun k inside inside' => ?_
  have x : ((k % 5 : ℕ) : ZMod 5).val = k % 5 := by rw [ZMod.val_natCast,Nat.mod_mod]
  have y : ((k / 5 : ℕ) : ZMod 5).val = k / 5 := by rw [ZMod.val_natCast,Nat.mod_eq_of_lt (by omega)]
  have place : k % 5 + 5 * (k / 5) = k := Nat.mod_add_div k 5
  refine UInt64.eq_of_toBitVec_eq (BitVec.eq_of_getLsbD_eq fun i small => ?_)
  have here := congrFun (congrFun (congrFun same (k % 5 : ℕ)) (k / 5 : ℕ)) (i : ℕ)
  simp only [bits,bit,x,y,place,ZMod.val_natCast,Nat.mod_eq_of_lt small,List.getD_eq_getElem?_getD,
    List.getElem?_eq_getElem inside,List.getElem?_eq_getElem inside',Option.getD_some] at here
  exact bit_inj here

/-! ### Loops -/

theorem getD_map_range {g : ℕ → UInt64} {n k : ℕ} (inside : k < n) : ((List.range n).map g).getD k 0 = g k := by
  rw [List.getD_eq_getElem?_getD,List.getElem?_map,List.getElem?_range inside]
  rfl

/-- The place of a lane. -/
theorem place_lt (x y : ZMod 5) : x.val + 5 * y.val < 25 := by
  have := ZMod.val_lt x
  have := ZMod.val_lt y
  omega

theorem place_mod (x y : ZMod 5) : (x.val + 5 * y.val) % 5 = x.val := by
  have := ZMod.val_lt x
  omega

theorem place_div (x y : ZMod 5) : (x.val + 5 * y.val) / 5 = y.val := by
  have := ZMod.val_lt x
  omega

theorem val_before : ∀ x : ZMod 5, (x.val + 4) % 5 = (x - 1).val := by decide
theorem val_next : ∀ x : ZMod 5, (x.val + 1) % 5 = (x + 1).val := by decide
theorem val_second : ∀ x : ZMod 5, (x.val + 2) % 5 = (x + 2).val := by decide

/-- The sum over a column. -/
theorem bit_column (st : State) (x : ZMod 5) (z : ZMod 64) :
    bit (st.getD x.val 0 ^^^ st.getD (x.val + 5) 0 ^^^ st.getD (x.val + 10) 0 ^^^ st.getD (x.val + 15) 0 ^^^ st.getD (x.val + 20) 0) z =
      StepMappings.parity (bits st) x z := by
  simp only [bit_xor]
  exact (Fin.sum_univ_five fun y : ZMod 5 => bits st x y z).symm

theorem bits_theta (st : State) : bits (theta st) = StepMappings.theta (bits st) := by
  funext x y z
  have before := ZMod.val_lt (x - 1)
  have next := ZMod.val_lt (x + 1)
  simp only [bits,theta,getD_map_range (place_lt x y),place_mod,val_before,val_next,getD_map_range before,getD_map_range next]
  rw [bit_xor,bit_xor,bit_rotl64 (by decide),bit_column,bit_column,Nat.cast_one]
  rfl

theorem bits_chi (st : State) : bits (chi st) = StepMappings.chi (bits st) := by
  funext x y z
  have row : y.val * 5 + (x + 1).val = (x + 1).val + 5 * y.val := by omega
  have row' : y.val * 5 + (x + 2).val = (x + 2).val + 5 * y.val := by omega
  simp only [bits,chi,getD_map_range (place_lt x y),place_mod,place_div,val_next,val_second,row,row']
  rw [bit_xor,bit_and,bit_not]
  rfl

section Cycle

variable {α : Type} {rot : α → ℕ → α} {d : α}

/-- What a place holds goes to the next one. -/
def carry (rot : α → ℕ → α) (d : α) (moved : List α × α) (move : ℕ × ℕ) : List α × α :=
  (moved.1.set move.1 (rot moved.2 move.2),moved.1.getD move.1 d)

theorem carry_other {moves : List (ℕ × ℕ)} {k : ℕ} (other : k ∉ moves.map Prod.fst) (st : List α) (t : α) :
    (moves.foldl (carry rot d) (st,t)).1.getD k d = st.getD k d := by
  induction moves generalizing st t with
  | nil => rfl
  | cons move moves ih =>
    rw [List.map_cons,List.mem_cons,not_or] at other
    rw [List.foldl_cons,carry,ih other.2,List.getD_eq_getElem?_getD,List.getD_eq_getElem?_getD,
      List.getElem?_set_ne (Ne.symm other.1)]

/-- Each place gets what the one before it held, the first one what was carried. -/
theorem carry_get {moves : List (ℕ × ℕ)} (distinct : (moves.map Prod.fst).Nodup) {i k r : ℕ} (here : moves[i]? = some (k,r))
    (st : List α) (t : α) (inside : k < st.length) :
    (moves.foldl (carry rot d) (st,t)).1.getD k d =
      rot (if i = 0 then t else (moves.map fun move => st.getD move.1 d).getD (i - 1) d) r := by
  induction moves generalizing st t i with
  | nil => cases here
  | cons move moves ih =>
    rw [List.map_cons,List.nodup_cons] at distinct
    rw [List.foldl_cons,carry]
    cases i with
    | zero =>
      obtain rfl : move = (k,r) := by simpa using here
      rw [carry_other distinct.1,List.getD_eq_getElem?_getD,List.getElem?_set_self inside]
      rfl
    | succ i =>
      have member : (k,r) ∈ moves := List.mem_of_getElem? (by simpa using here)
      have later : moves[i]? = some (k,r) := by simpa using here
      rw [ih distinct.2 later _ _ (by rw [List.length_set]; exact inside)]
      cases i with
      | zero => simp
      | succ i =>
        -- the place before this one is not the first, so the first step has left it
        simp only [Nat.add_sub_cancel,Nat.succ_ne_zero,if_false,List.map_cons,List.getD_cons_succ]
        congr 1
        rw [List.getD_eq_getElem?_getD,List.getD_eq_getElem?_getD,List.getElem?_map,List.getElem?_map]
        cases before : moves[i]? with
        | none => rfl
        | some move' =>
          have apart : move'.1 ≠ move.1 := by
            intro same
            exact distinct.1 (same ▸ List.mem_map_of_mem (List.mem_of_getElem? before))
          simp only [Option.map_some,Option.getD_some,List.getD_eq_getElem?_getD,List.getElem?_set_ne (Ne.symm apart)]

end Cycle

/-- The places in the order in which the loop of `keccakf` moves them, with the rotations. -/
def moves : List (ℕ × ℕ) := (List.range 24).map fun i => (piln.getD i 0,rotc.getD i 0)

/-- Where the word comes from that is moved to a place. -/
def source (i : ℕ) : ℕ := if i = 0 then 1 else piln.getD (i - 1) 0

theorem rhoPi_eq (st : State) : rhoPi st = (moves.foldl (carry rotl64 0) (st,st.getD 1 0)).1 := by
  rw [moves,List.foldl_map]
  rfl

theorem rhoPi_get {st : State} (words : st.length = 25) {i k r : ℕ} (here : moves[i]? = some (k,r)) (inside : k < 25) :
    (rhoPi st).getD k 0 = rotl64 (st.getD (source i) 0) r := by
  have count : moves.length = 24 := by rw [moves,List.length_map,List.length_range]
  have small : i < 24 := by
    have := (List.getElem?_eq_some_iff.mp here).1
    omega
  rw [rhoPi_eq,carry_get (by decide) here st _ (words ▸ inside),source]
  cases i with
  | zero => rfl
  | succ i =>
    simp only [Nat.succ_ne_zero,if_false,Nat.add_sub_cancel]
    rw [List.getD_eq_getElem?_getD,List.getElem?_map,moves,List.getElem?_map,List.getElem?_range (by omega)]
    rfl

/-- When the word at a lane is moved there. -/
def turn (x y : ZMod 5) : ℕ := piln.idxOf (x.val + 5 * y.val)

def rotation (x y : ZMod 5) : ℕ := rotc.getD (turn x y) 0

/-- The tables are those of the walk: each lane but the first comes from where π takes it, rotated by a triangular number. -/
theorem moves_walk : ∀ x y : ZMod 5, ¬ (x = 0 ∧ y = 0) →
    moves[turn x y]? = some (x.val + 5 * y.val,rotation x y) ∧ source (turn x y) = (x + 3 * y).val + 5 * x.val ∧
      rotation x y < 64 ∧ (rotation x y : ZMod 64) = StepMappings.offset (x + 3 * y) x := by decide +kernel

theorem bits_rhoPi {st : State} (words : st.length = 25) :
    bits (rhoPi st) = StepMappings.pi (StepMappings.rho StepMappings.offset (bits st)) := by
  funext x y z
  simp only [StepMappings.pi,StepMappings.rho,bits]
  by_cases first : x = 0 ∧ y = 0
  · obtain ⟨rfl,rfl⟩ := first
    have kept : (rhoPi st).getD 0 0 = st.getD 0 0 := by
      rw [rhoPi_eq]
      exact carry_other (by decide) _ _
    have still : ((StepMappings.offset (0 + 3 * 0) 0 : ℕ) : ZMod 64) = 0 := by decide
    rw [still,sub_zero]
    exact congrArg (bit · z) kept
  · obtain ⟨here,source_,small,same⟩ := moves_walk x y first
    rw [rhoPi_get words here (place_lt x y),bit_rotl64 small,source_,same]

/-- `keccakf_rndc` is what the shift register gives. -/
theorem rndc_constant : ∀ round < 24, ∀ z : ZMod 64, bit (rndc.getD round 0) z = StepMappings.constant 6 round z := by
  decide +kernel

theorem bits_iota {st : State} (words : st.length = 25) {round : ℕ} (small : round < 24) :
    bits (iota round st) = StepMappings.iota (StepMappings.constant 6 round) (bits st) := by
  funext x y z
  simp only [bits,iota,StepMappings.iota]
  by_cases first : x = 0 ∧ y = 0
  · obtain ⟨rfl,rfl⟩ := first
    have place : (0 : ZMod 5).val + 5 * (0 : ZMod 5).val = 0 := rfl
    rw [place,if_pos ⟨rfl,rfl⟩,List.getD_eq_getElem?_getD,List.getElem?_set_self (by omega),Option.getD_some,bit_xor,
      rndc_constant round small]
  · have other : x.val + 5 * y.val ≠ 0 := by
      intro zero
      exact first ⟨(ZMod.val_eq_zero x).mp (by omega),(ZMod.val_eq_zero y).mp (by omega)⟩
    rw [if_neg first,add_zero,List.getD_eq_getElem?_getD,List.getElem?_set_ne (Ne.symm other),← List.getD_eq_getElem?_getD]

/-! ### All rounds -/

theorem length_round (st : State) (round : ℕ) : (iota round (chi (rhoPi (theta st)))).length = 25 := by
  rw [iota,List.length_set,chi,List.length_map,List.length_range]

theorem bits_round (st : State) {round : ℕ} (small : round < 24) :
    bits (iota round (chi (rhoPi (theta st)))) =
      StepMappings.round StepMappings.offset (StepMappings.constant 6 round) (bits st) := by
  have theta_ : (theta st).length = 25 := by rw [theta,List.length_map,List.length_range]
  have chi_ : (chi (rhoPi (theta st))).length = 25 := by rw [chi,List.length_map,List.length_range]
  rw [bits_iota chi_ small,bits_chi,bits_rhoPi theta_,bits_theta]
  rfl

theorem bits_rounds {rounds : List ℕ} (small : ∀ round ∈ rounds, round < 24) (st : State) :
    bits (rounds.foldl (fun st round => iota round (chi (rhoPi (theta st)))) st) =
      rounds.foldl (fun a round => StepMappings.round StepMappings.offset (StepMappings.constant 6 round) a) (bits st) := by
  induction rounds generalizing st with
  | nil => rfl
  | cons round rounds ih =>
    rw [List.foldl_cons,List.foldl_cons,← bits_round st (small round List.mem_cons_self)]
    exact ih (fun later member => small later (List.mem_cons_of_mem _ member)) _

/-- On the bits of the words, `keccakf` is Keccak-f. -/
theorem bits_keccakf (st : State) : bits (keccakf st) = StepMappings.keccakF 6 (bits st) :=
  bits_rounds (fun _ member => List.mem_range.mp member) st

theorem length_keccakf (st : State) : (keccakf st).length = 25 := by
  have last : List.range 24 = List.range 23 ++ [23] := List.range_succ
  rw [keccakf,last,List.foldl_append]
  exact length_round _ _

theorem keccakf_injective {st st' : State} (words : st.length = 25) (words' : st'.length = 25) (same : keccakf st = keccakf st') :
    st = st' := by
  refine ext_of_bits words words' ((StepMappings.keccakF_bijective 6).injective ?_)
  rw [← bits_keccakf,← bits_keccakf,same]

/-! ### Bytes -/

/-- The bits of a byte, least significant first. -/
def byteBits (byte : UInt8) : List (ZMod 2) := (List.range 8).map fun j => if byte.toNat.testBit j then 1 else 0

theorem length_byteBits (byte : UInt8) : (byteBits byte).length = 8 := by rw [byteBits,List.length_map,List.length_range]

theorem flatMap_getD (bytes : List UInt8) (k : ℕ) :
    (bytes.flatMap byteBits).getD k 0 = if (bytes.getD (k / 8) 0).toNat.testBit (k % 8) then 1 else 0 := by
  induction bytes generalizing k with
  | nil => simp
  | cons byte bytes ih =>
    rw [List.flatMap_cons]
    by_cases first : k < 8
    · rw [List.getD_append _ _ _ _ (by rw [length_byteBits]; exact first),Nat.div_eq_of_lt first,Nat.mod_eq_of_lt first,
        byteBits,List.getD_eq_getElem?_getD,List.getElem?_map,List.getElem?_range first]
      rfl
    · have later : (k - 8) / 8 + 1 = k / 8 := by omega
      have same : (k - 8) % 8 = k % 8 := by omega
      rw [List.getD_append_right _ _ _ _ (by rw [length_byteBits]; omega),length_byteBits,ih,same,← later,List.getD_cons_succ]

theorem littleEndian_succ (bytes : List UInt8) (offset width : ℕ) : littleEndian bytes offset (width + 1) =
    2 ^ (8 * width) * (bytes.getD (offset + width) 0).toNat + littleEndian bytes offset width := by
  have power : 256 ^ width = 2 ^ (8 * width) := Nat.pow_mul 2 8 width ▸ rfl
  simp only [littleEndian,List.range_succ,List.map_append,List.sum_append,List.map_cons,List.map_nil,List.sum_singleton,power]
  rw [Nat.add_comm,Nat.mul_comm]

theorem littleEndian_lt (bytes : List UInt8) (offset width : ℕ) : littleEndian bytes offset width < 2 ^ (8 * width) := by
  induction width with
  | zero => exact Nat.one_pos
  | succ width ih =>
    have top : (bytes.getD (offset + width) 0).toNat + 1 ≤ 2 ^ 8 := (bytes.getD (offset + width) 0).toNat_lt
    rw [littleEndian_succ,Nat.mul_succ,Nat.pow_add]
    calc _ < 2 ^ (8 * width) * (bytes.getD (offset + width) 0).toNat + 2 ^ (8 * width) := Nat.add_lt_add_left ih _
      _ = 2 ^ (8 * width) * ((bytes.getD (offset + width) 0).toNat + 1) := (Nat.mul_succ _ _).symm
      _ ≤ _ := Nat.mul_le_mul_left _ top

/-- A bit of a number of `width` bytes is one of its bytes. -/
theorem littleEndian_testBit (bytes : List UInt8) (offset : ℕ) {width k : ℕ} (inside : k < 8 * width) :
    (littleEndian bytes offset width).testBit k = (bytes.getD (offset + k / 8) 0).toNat.testBit (k % 8) := by
  induction width with
  | zero => omega
  | succ width ih =>
    rw [littleEndian_succ,Nat.testBit_two_pow_mul_add _ (littleEndian_lt bytes offset width)]
    by_cases low : k < 8 * width
    · rw [if_pos low,ih low]
    · rw [if_neg low,show k / 8 = width by omega,show k % 8 = k - 8 * width by omega]

/-- A word of a block holds the bits of its eight bytes. -/
theorem bit_word (bytes : List UInt8) (i : ℕ) (z : ZMod 64) :
    bit (UInt64.ofNat (littleEndian bytes (8 * i) 8)) z = (bytes.flatMap byteBits).getD (64 * i + z.val) 0 := by
  have inside : z.val < 64 := ZMod.val_lt z
  have same : (UInt64.ofNat (littleEndian bytes (8 * i) 8)).toBitVec.getLsbD z.val =
      (littleEndian bytes (8 * i) 8).testBit z.val := by
    show (BitVec.ofNat 64 _).getLsbD z.val = _
    rw [BitVec.getLsbD_ofNat,decide_eq_true inside,Bool.true_and]
  rw [bit,same,littleEndian_testBit bytes (8 * i) inside,flatMap_getD,show (64 * i + z.val) / 8 = 8 * i + z.val / 8 by omega,
    show (64 * i + z.val) % 8 = z.val % 8 by omega]

/-! ### The sponge -/

/-- What is absorbed is xored into the first bits of the state. -/
theorem bits_absorb (st : State) {bytes : List UInt8} (short : bytes.length ≤ rsiz) :
    StepMappings.keccakF 6 (StepMappings.xorBits (bits st) (bytes.flatMap byteBits)) = bits (absorb st bytes) := by
  have rate : rsiz = 136 := rfl
  rw [absorb,bits_keccakf]
  congr 1
  funext x y z
  have inside : z.val < 64 := ZMod.val_lt z
  simp only [bits,StepMappings.xorBits,getD_map_range (place_lt x y)]
  by_cases front : x.val + 5 * y.val < rsiz / 8
  · rw [if_pos front,bit_xor,bit_word]
    rfl
  · have beyond : bytes.getD ((64 * (x.val + 5 * y.val) + z.val) / 8) 0 = 0 := List.getD_eq_default _ _ (by omega)
    rw [if_neg front]
    show _ + (bytes.flatMap byteBits).getD (64 * (x.val + 5 * y.val) + z.val) 0 = _
    rw [flatMap_getD,beyond]
    simp

theorem ext_getD {l l' : List (ZMod 2)} (length : l.length = l'.length) (same : ∀ k < l.length, l.getD k 0 = l'.getD k 0) :
    l = l' := by
  refine List.ext_getElem length fun k inside inside' => ?_
  rw [← List.getD_eq_getElem _ 0 inside,← List.getD_eq_getElem _ 0 inside']
  exact same k inside

theorem bits_squeeze (st : State) : (squeeze st).val.flatMap byteBits = StepMappings.truncate 256 (bits st) := by
  have length : ((squeeze st).val.flatMap byteBits).length = 256 := by
    rw [Sponge.length_flatMap length_byteBits,(squeeze st).property]
  refine ext_getD (by rw [length,StepMappings.truncate,List.length_map,List.length_range]) fun k inside => ?_
  rw [length] at inside
  have byte : (squeeze st).val.getD (k / 8) 0 = UInt8.ofNat ((st.getD (k / 64) 0).toNat / 256 ^ (k / 8 % 8)) := by
    rw [squeeze,List.getD_eq_getElem?_getD,List.getElem?_map,List.getElem?_range (by omega),Option.map_some,Option.getD_some,
      Nat.div_div_eq_div_mul]
  have x : ((k / 64 % 5 : ℕ) : ZMod 5).val = k / 64 % 5 := by rw [ZMod.val_natCast,Nat.mod_mod]
  have y : ((k / 64 / 5 : ℕ) : ZMod 5).val = k / 64 / 5 := by rw [ZMod.val_natCast,Nat.mod_eq_of_lt (by omega)]
  have z : ((k % 64 : ℕ) : ZMod 64).val = k % 64 := by rw [ZMod.val_natCast,Nat.mod_mod]
  have here : (StepMappings.truncate 256 (bits st)).getD k 0 = bits st (k / 64 % 5 : ℕ) (k / 64 / 5 : ℕ) (k % 64 : ℕ) := by
    rw [StepMappings.truncate,List.getD_eq_getElem?_getD,List.getElem?_map,List.getElem?_range inside]
    rfl
  have place : (UInt8.ofNat ((st.getD (k / 64) 0).toNat / 256 ^ (k / 8 % 8))).toNat.testBit (k % 8) =
      (st.getD (k / 64) 0).toBitVec.getLsbD (k % 64) := by
    rw [show 256 = 2 ^ 8 by rfl,← Nat.pow_mul,UInt8.toNat_ofNat',Nat.testBit_mod_two_pow,Nat.testBit_div_two_pow,
      decide_eq_true (Nat.mod_lt _ (by decide)),Bool.true_and,show k % 8 + 8 * (k / 8 % 8) = k % 64 by omega]
    rfl
  rw [flatMap_getD,byte,place,here,bits,bit,x,y,z,Nat.mod_add_div]

theorem flatMap_zeros (n : ℕ) : (List.replicate n (0 : UInt8)).flatMap byteBits = List.replicate (8 * n) 0 := by
  induction n with
  | zero => rfl
  | succ n ih =>
    rw [List.replicate_succ,List.flatMap_cons,ih,Nat.mul_succ,Nat.add_comm,List.replicate_add]
    rfl

/-- The padding of `keccak` is that of Keccak: no bits stand between the message and it. -/
theorem bits_padding (n : ℕ) : (padding (n % rsiz)).flatMap byteBits = StepMappings.pad (rsiz * 8) (n * 8) := by
  have rate : rsiz = 136 := rfl
  have part : n * 8 % (rsiz * 8) = n % rsiz * 8 := Nat.mul_mod_mul_right _ _ _
  have small : n % rsiz < rsiz := Nat.mod_lt _ (by decide)
  rw [padding,StepMappings.pad,part]
  generalize n % rsiz = n at small
  by_cases full : n + 1 = rsiz
  · obtain rfl : n = 135 := by omega
    rfl
  · have zeros : (2 * (rsiz * 8) - (n * 8 + 2)) % (rsiz * 8) = 7 + (8 * (rsiz - n - 2) + 7) := by
      rw [rate] at small full ⊢
      omega
    rw [if_neg full,zeros,List.replicate_add,List.replicate_add,List.flatMap_append,List.flatMap_cons,flatMap_zeros]
    simp only [List.append_assoc,List.cons_append]
    rfl

/-- The digest of a message of bytes is Keccak with 256 bits on its bits. -/
theorem bits_digest (message : List UInt8) :
    (digest message).val.flatMap byteBits = StepMappings.keccak 6 1088 256 (message.flatMap byteBits) := by
  have rate : rsiz = 136 := rfl
  have length := show (message.flatMap byteBits).length = message.length * 8 from Sponge.length_flatMap length_byteBits
  have padded : message.flatMap byteBits ++ StepMappings.pad (rsiz * 8) (message.length * 8) =
      (message ++ padding (message.length % rsiz)).flatMap byteBits := by rw [List.flatMap_append,bits_padding]
  have last := padding_length (Nat.mod_lt message.length (show 0 < rsiz by decide))
  have parts := Nat.div_add_mod message.length rsiz
  have count : ((message ++ padding (message.length % rsiz)).flatMap byteBits).length / (rsiz * 8) = message.length / rsiz + 1 := by
    rw [Sponge.length_flatMap length_byteBits,Nat.mul_div_mul_right _ _ (by decide),List.length_append]
    rw [rate] at last parts ⊢
    omega
  have zero : (fun _ _ _ => 0 : StepMappings.State 64) = bits start := by
    funext x y z
    have empty : start.getD (x.val + 5 * y.val) 0 = 0 := by
      rw [start,List.getD_eq_getElem?_getD,List.getElem?_replicate]
      split <;> rfl
    rw [bits,empty]
    simp [bit]
  have run : Sponge.absorbed (rsiz * 8) (fun a block => StepMappings.keccakF 6 (StepMappings.xorBits a block)) (bits start)
      ((message ++ padding (message.length % rsiz)).flatMap byteBits) (message.length / rsiz + 1) =
      bits (Sponge.absorbed rsiz absorb start (message ++ padding (message.length % rsiz)) (message.length / rsiz + 1)) :=
    Sponge.absorbed_flatMap length_byteBits start (fun st _ short => bits_absorb st short) _
  rw [digest,bits_squeeze,Sponge.sponge,← run,← zero]
  show _ = StepMappings.truncate 256 (Sponge.absorbed (rsiz * 8) _ _
    (message.flatMap byteBits ++ StepMappings.pad (rsiz * 8) (message.flatMap byteBits).length)
    ((message.flatMap byteBits ++ StepMappings.pad (rsiz * 8) (message.flatMap byteBits).length).length / (rsiz * 8)))
  rw [length,padded,count]
  rfl

/-- Over less than 2^31 bytes, what `Process` gives is Keccak with 256 bits on the bits of the data. -/
theorem process_bits {data : MemoryBuffer} (short : data.length < 2 ^ 31) : ∃ state, process data data.length = .ok state ∧
    state.val.flatMap byteBits = StepMappings.keccak 6 1088 256 (data.flatMap byteBits) := by
  have narrow : word32 data.length = data.length := Nat.mod_eq_of_lt (short.trans (by decide))
  have length : int data.length = data.length := by rw [int,narrow,if_pos short]
  refine ⟨digest data,?_,bits_digest data⟩
  rw [process,length,keccak_eq le_rfl,List.take_length]

theorem process_bits_two : ∃ state, process [0x61,0x62] 2 = .ok state ∧
    state.val.flatMap byteBits = StepMappings.keccak 6 1088 256 (([0x61,0x62] : MemoryBuffer).flatMap byteBits) :=
  process_bits (show ([0x61,0x62] : MemoryBuffer).length < 2 ^ 31 by decide)

/-! ### Nothing is lost -/

theorem length_absorb (st : State) (bytes : List UInt8) : (absorb st bytes).length = 25 := length_keccakf _

theorem absorb_words {st st' : State} {bytes bytes' : List UInt8} (same : absorb st bytes = absorb st' bytes') {i : ℕ}
    (inside : i < 25) :
    (if i < rsiz / 8 then st.getD i 0 ^^^ UInt64.ofNat (littleEndian bytes (8 * i) 8) else st.getD i 0) =
      if i < rsiz / 8 then st'.getD i 0 ^^^ UInt64.ofNat (littleEndian bytes' (8 * i) 8) else st'.getD i 0 := by
  have words := keccakf_injective (by rw [List.length_map,List.length_range]) (by rw [List.length_map,List.length_range]) same
  have here := congrArg (fun st : State => st.getD i 0) words
  simp only [getD_map_range inside] at here
  exact here

theorem absorb_state {st st' : State} {bytes : List UInt8} (words : st.length = 25) (words' : st'.length = 25)
    (same : absorb st bytes = absorb st' bytes) : st = st' := by
  refine List.ext_getElem (by rw [words,words']) fun i inside inside' => ?_
  have here := absorb_words same (words ▸ inside)
  rw [List.getD_eq_getElem _ 0 inside,List.getD_eq_getElem _ 0 inside'] at here
  by_cases front : i < rsiz / 8
  · rw [if_pos front,if_pos front] at here
    have undone := congrArg (· ^^^ UInt64.ofNat (littleEndian bytes (8 * i) 8)) here
    simpa only [UInt64.xor_assoc,UInt64.xor_self,UInt64.xor_zero] using undone
  · rwa [if_neg front,if_neg front] at here

theorem absorb_input {st : State} {bytes bytes' : List UInt8} (full : bytes.length = rsiz) (full' : bytes'.length = rsiz)
    (same : absorb st bytes = absorb st bytes') : bytes = bytes' := by
  have rate : rsiz = 136 := rfl
  have each : ∀ k < 8 * rsiz, (bytes.flatMap byteBits).getD k 0 = (bytes'.flatMap byteBits).getD k 0 := by
    intro k inside
    have here := absorb_words same (show k / 64 < 25 by omega)
    rw [if_pos (by omega),if_pos (by omega)] at here
    have word := congrArg (bit · (k % 64 : ℕ)) here
    have z : ((k % 64 : ℕ) : ZMod 64).val = k % 64 := by rw [ZMod.val_natCast,Nat.mod_mod]
    simp only [bit_xor,bit_word,z,Nat.div_add_mod] at word
    exact add_left_cancel word
  refine List.ext_getElem (by rw [full,full']) fun i inside inside' => ?_
  have byte : bytes.getD i 0 = bytes'.getD i 0 := by
    refine Bits.getD_eq_of_low fun k place => ?_
    have here := each k (by omega)
    rw [flatMap_getD,flatMap_getD] at here
    exact bit_inj here
  rwa [List.getD_eq_getElem _ 0 inside,List.getD_eq_getElem _ 0 inside'] at byte

/-- Messages of one length that differ in one block only leave the sponge in different states. -/
theorem messages_apart {message message' : List UInt8} (length : message.length = message'.length) {k : ℕ}
    (same : ∀ i, i ≠ k → Sponge.block rsiz message i = Sponge.block rsiz message' i)
    (differ : Sponge.block rsiz message k ≠ Sponge.block rsiz message' k) :
    Sponge.sponge rsiz absorb padding start message ≠ Sponge.sponge rsiz absorb padding start message' :=
  Sponge.sponge_apart (fun st : State => st.length = 25) length_absorb (fun _ _ _ => absorb_state)
    (fun _ _ _ _ => absorb_input) List.length_replicate (by decide) length (padding_length (Nat.mod_lt _ (by decide))) same differ

theorem messages_apart_letters : Sponge.sponge rsiz absorb padding start [0x61] ≠ Sponge.sponge rsiz absorb padding start [0x62] := by
  refine messages_apart (k := 0) rfl (fun i later => ?_) (by decide)
  have beyond : 1 ≤ i * rsiz := Nat.mul_pos (Nat.pos_of_ne_zero later) (by decide)
  rw [Sponge.block,Sponge.block,List.drop_eq_nil_of_le beyond,List.drop_eq_nil_of_le beyond]

end Keccak
end StegoDisk
