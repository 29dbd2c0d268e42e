import Mathlib.Data.Nat.Sqrt
import Mathlib.Data.Nat.Log
import Mathlib.Tactic.Ring
import Mathlib.Tactic.Linarith

/-!
The integer square root that comes out of double precision: the operand is
rounded to 53 bits, the root of that to 53 bits again, both to nearest, and
the fraction is dropped. It is the floor square root as long as the operand
has at most 52 bits (`doubleSqrt_eq_sqrt`); above that the two roundings can
lift it to the next integer, and in the last 1024 values below `2 ^ 64` they lift it
to `2 ^ 32` (`doubleSqrt_top`), which no smaller operand reaches (`doubleSqrt_lt`).
-/
namespace StegoDisk.SquareRoot

/-- A natural number rounded to 53 significant bits, ties to even. -/
def toDouble (n : Nat) : Nat :=
  let drop := n.log2 + 1 - 53
  let kept := n / 2 ^ drop
  let rest := n % 2 ^ drop
  if 2 * rest > 2 ^ drop ∨ (2 * rest = 2 ^ drop ∧ kept % 2 = 1) then (kept + 1) * 2 ^ drop else kept * 2 ^ drop

/-- The bits after the binary point in the root of `d`. -/
def places (d : Nat) : Nat := 52 - d.sqrt.log2

/-- The root of `d` in units of its last place, rounded to nearest. A tie is
    impossible: the square of a number halfway between integers is none. -/
def rootInPlaces (d : Nat) : Nat :=
  let scaled := d * 4 ^ places d
  if scaled > scaled.sqrt * (scaled.sqrt + 1) then scaled.sqrt + 1 else scaled.sqrt

/-- The integer part of the square root of `n` in double precision. -/
def doubleSqrt (n : Nat) : Nat := rootInPlaces (toDouble n) / 2 ^ places (toDouble n)

theorem toDouble_of_lt {n : Nat} (small : n < 2 ^ 53) : toDouble n = n := by
  have drop : n.log2 + 1 - 53 = 0 := by
    rcases Nat.eq_zero_or_pos n with rfl | positive
    · decide
    · have := (Nat.log2_lt (by omega : n ≠ 0)).mpr small
      omega
  simp [toDouble,drop,Nat.mod_one]

private theorem four_pow (j : Nat) : (4 : Nat) ^ j = 2 ^ j * 2 ^ j := by
  rw [← mul_pow]; rfl

/-- Scaling by `4 ^ j` shifts the floor root by `j` places. -/
private theorem scaled_bounds (d j : Nat) :
    d.sqrt * 2 ^ j ≤ (d * 4 ^ j).sqrt ∧ (d * 4 ^ j).sqrt < (d.sqrt + 1) * 2 ^ j := by
  constructor
  · rw [Nat.le_sqrt]
    calc d.sqrt * 2 ^ j * (d.sqrt * 2 ^ j) = d.sqrt * d.sqrt * 4 ^ j := by rw [four_pow]; ring
      _ ≤ d * 4 ^ j := Nat.mul_le_mul_right _ (Nat.sqrt_le d)
  · rw [Nat.sqrt_lt]
    calc d * 4 ^ j < (d.sqrt + 1) * (d.sqrt + 1) * 4 ^ j :=
          Nat.mul_lt_mul_of_pos_right (Nat.lt_succ_sqrt d) (Nat.pow_pos (by decide))
      _ = (d.sqrt + 1) * 2 ^ j * ((d.sqrt + 1) * 2 ^ j) := by rw [four_pow]; ring

theorem rootInPlaces_lower (d : Nat) : d.sqrt * 2 ^ places d ≤ rootInPlaces d := by
  have lower := (scaled_bounds d (places d)).1
  unfold rootInPlaces
  dsimp only
  split <;> omega

theorem rootInPlaces_upper (d : Nat) : rootInPlaces d ≤ (d.sqrt + 1) * 2 ^ places d := by
  have upper := (scaled_bounds d (places d)).2
  unfold rootInPlaces
  dsimp only
  split <;> omega

theorem doubleSqrt_le (n : Nat) : doubleSqrt n ≤ (toDouble n).sqrt + 1 :=
  Nat.div_le_of_le_mul (by rw [Nat.mul_comm]; exact rootInPlaces_upper (toDouble n))

theorem sqrt_le_doubleSqrt (n : Nat) : (toDouble n).sqrt ≤ doubleSqrt n := by
  have positive : 0 < 2 ^ places (toDouble n) := Nat.pow_pos (by decide)
  exact (Nat.le_div_iff_mul_le positive).mpr (rootInPlaces_lower (toDouble n))

/-- The root stays below the next integer when rounding does not lift the last
    unit below it. -/
private theorem rootInPlaces_lt {d : Nat} (gap : 2 ^ places d * (d.sqrt + 1) ≤
    ((d.sqrt + 1) * (d.sqrt + 1) - d) * 4 ^ places d) :
    rootInPlaces d < (d.sqrt + 1) * 2 ^ places d := by
  have upper := (scaled_bounds d (places d)).2
  have below : d < (d.sqrt + 1) * (d.sqrt + 1) := Nat.lt_succ_sqrt d
  unfold rootInPlaces
  dsimp only
  split
  case isFalse => exact upper
  case isTrue lifted =>
    rcases Nat.lt_or_ge ((d * 4 ^ places d).sqrt + 1) ((d.sqrt + 1) * 2 ^ places d) with lt | ge
    · exact lt
    · -- Only the last unit below the next integer could be lifted to it.
      exfalso
      have last : (d * 4 ^ places d).sqrt + 1 = (d.sqrt + 1) * 2 ^ places d := by omega
      have unit := four_pow (places d)
      have product : ((d.sqrt + 1) * (d.sqrt + 1) - d) * 4 ^ places d + d * 4 ^ places d =
          (d.sqrt + 1) * 2 ^ places d * ((d.sqrt + 1) * 2 ^ places d) := by
        rw [← Nat.add_mul,Nat.sub_add_cancel below.le,unit]; ring
      rw [← last] at product
      have expand : ((d * 4 ^ places d).sqrt + 1) * ((d * 4 ^ places d).sqrt + 1) =
          (d * 4 ^ places d).sqrt * ((d * 4 ^ places d).sqrt + 1) + ((d * 4 ^ places d).sqrt + 1) := by ring
      have swap : 2 ^ places d * (d.sqrt + 1) = (d * 4 ^ places d).sqrt + 1 := by rw [last]; ring
      omega

/-- Up to 52 bits the root in double precision is the exact one. -/
theorem doubleSqrt_eq_sqrt {n : Nat} (small : n < 2 ^ 52) : doubleSqrt n = n.sqrt := by
  have same : toDouble n = n := toDouble_of_lt (by omega)
  have rootSmall : n.sqrt < 2 ^ 26 := Nat.sqrt_lt.mpr (by omega)
  have bits : n.sqrt.log2 ≤ 25 := by
    rcases Nat.eq_zero_or_pos n.sqrt with zero | positive
    · rw [zero]; decide
    · have := (Nat.log2_lt (by omega : n.sqrt ≠ 0)).mpr rootSmall
      omega
  have wide : n.sqrt + 1 ≤ 2 ^ places n := by
    have : 2 ^ 27 ≤ 2 ^ places n := Nat.pow_le_pow_right (by decide) (by unfold places; omega)
    omega
  have unit := four_pow (places n)
  have below : n < (n.sqrt + 1) * (n.sqrt + 1) := Nat.lt_succ_sqrt n
  have lt : rootInPlaces n < (n.sqrt + 1) * 2 ^ places n := by
    apply rootInPlaces_lt
    calc 2 ^ places n * (n.sqrt + 1) ≤ 2 ^ places n * 2 ^ places n := Nat.mul_le_mul_left _ wide
      _ = 1 * 4 ^ places n := by rw [unit,Nat.one_mul]
      _ ≤ _ := Nat.mul_le_mul_right _ (by omega)
  have positive : 0 < 2 ^ places n := Nat.pow_pos (by decide)
  have upper : doubleSqrt n < n.sqrt + 1 := by
    unfold doubleSqrt
    rw [same]
    exact (Nat.div_lt_iff_lt_mul positive).mpr lt
  have lower := sqrt_le_doubleSqrt n
  rw [same] at lower
  omega

/-! ### The top of the 64-bit range -/

theorem toDouble_eq {n drop : Nat} (bits : n.log2 + 1 - 53 = drop) :
    toDouble n = if 2 * (n % 2 ^ drop) > 2 ^ drop ∨ (2 * (n % 2 ^ drop) = 2 ^ drop ∧ n / 2 ^ drop % 2 = 1)
      then (n / 2 ^ drop + 1) * 2 ^ drop else n / 2 ^ drop * 2 ^ drop := by
  subst bits; rfl

/-- Rounding a 64-bit number to 53 bits clears its last eleven. -/
private theorem toDouble_wide {n : Nat} (large : 2 ^ 63 ≤ n) (small : n < 2 ^ 64) :
    toDouble n = if n % 2048 > 1024 ∨ (n % 2048 = 1024 ∧ n / 2048 % 2 = 1)
      then (n / 2048 + 1) * 2048 else n / 2048 * 2048 := by
  have bits : n.log2 = 63 := (Nat.log2_eq_iff (by omega)).mpr ⟨large,small⟩
  rw [toDouble_eq (show n.log2 + 1 - 53 = 11 by omega)]
  congr 1
  simp only [gt_iff_lt,eq_iff_iff]
  omega

private theorem toDouble_le (n : Nat) : toDouble n ≤ 2 ^ (n.log2 + 1) := by
  have drops : n.log2 + 1 - 53 ≤ n.log2 + 1 := Nat.sub_le _ _
  have whole : 2 ^ (n.log2 + 1) = 2 ^ (n.log2 + 1 - (n.log2 + 1 - 53)) * 2 ^ (n.log2 + 1 - 53) := by
    rw [← Nat.pow_add,Nat.sub_add_cancel drops]
  have kept : n / 2 ^ (n.log2 + 1 - 53) < 2 ^ (n.log2 + 1 - (n.log2 + 1 - 53)) := by
    rw [Nat.div_lt_iff_lt_mul (Nat.pow_pos (by decide)),← whole]
    exact Nat.lt_log2_self
  rw [toDouble_eq rfl,whole]
  split
  · exact Nat.mul_le_mul_right _ kept
  · exact Nat.mul_le_mul_right _ kept.le

/-- The last 1024 numbers of 64 bits round to `2 ^ 64`, whose root needs 33 bits. -/
theorem doubleSqrt_top {n : Nat} (large : 2 ^ 64 - 1024 ≤ n) (small : n < 2 ^ 64) : doubleSqrt n = 2 ^ 32 := by
  have rounded : toDouble n = 2 ^ 32 * 2 ^ 32 := by
    rw [toDouble_wide (by omega) small]
    split <;> omega
  have root : (2 ^ 32 * 2 ^ 32 : Nat).sqrt = 2 ^ 32 := Nat.sqrt_eq _
  have point : places (2 ^ 32 * 2 ^ 32) = 20 := by rw [places,root]; decide
  have scaled : (2 ^ 32 * 2 ^ 32 * 4 ^ 20 : Nat).sqrt = 2 ^ 52 := by
    rw [show (2 ^ 32 * 2 ^ 32 * 4 ^ 20 : Nat) = 2 ^ 52 * 2 ^ 52 by norm_num]
    exact Nat.sqrt_eq _
  rw [doubleSqrt,rounded,rootInPlaces,point,scaled]
  decide

/-- No smaller number reaches `2 ^ 32`. -/
theorem doubleSqrt_lt {n : Nat} (small : n < 2 ^ 64 - 1024) : doubleSqrt n < 2 ^ 32 := by
  have bound : toDouble n ≤ 2 ^ 64 - 2048 := by
    rcases Nat.lt_or_ge n (2 ^ 63) with low | high
    · have lastBit : n.log2 + 1 ≤ 63 := by
        rcases Nat.eq_zero_or_pos n with rfl | positive
        · decide
        · exact (Nat.log2_lt (by omega : n ≠ 0)).mpr low
      have := (toDouble_le n).trans (Nat.pow_le_pow_right (by decide) lastBit)
      omega
    · rw [toDouble_wide high (by omega)]
      split <;> omega
  have rootBound : (toDouble n).sqrt < 2 ^ 32 := Nat.sqrt_lt.mpr (by omega)
  rcases Nat.lt_or_ge ((toDouble n).sqrt + 1) (2 ^ 32) with below | last
  · exact (doubleSqrt_le n).trans_lt below
  · -- The root has 32 bits, hence 21 places: half a unit is too little to lift it.
    have root : (toDouble n).sqrt = 2 ^ 32 - 1 := by omega
    have point : places (toDouble n) = 21 := by rw [places,root]; decide
    have lt : rootInPlaces (toDouble n) < ((toDouble n).sqrt + 1) * 2 ^ places (toDouble n) := by
      apply rootInPlaces_lt
      rw [point,root]
      norm_num
      omega
    rw [doubleSqrt,Nat.div_lt_iff_lt_mul (Nat.pow_pos (by decide))]
    rwa [root] at lt

/-- Rounding keeps the leading bit, so the root of a positive number is positive. -/
theorem doubleSqrt_pos {n : Nat} (positive : 0 < n) : 0 < doubleSqrt n := by
  have unit : 0 < 2 ^ (n.log2 + 1 - 53) := Nat.pow_pos (by decide)
  have kept : 1 ≤ n / 2 ^ (n.log2 + 1 - 53) := by
    rw [Nat.one_le_div_iff unit]
    exact (Nat.pow_le_pow_right (by decide) (by omega)).trans (Nat.log2_self_le (by omega))
  have rounded : 0 < toDouble n := by
    rw [toDouble_eq rfl]
    split
    · exact Nat.mul_pos (by omega) unit
    · exact Nat.mul_pos kept unit
  exact (Nat.sqrt_pos.mpr rounded).trans_le (sqrt_le_doubleSqrt n)

end StegoDisk.SquareRoot
