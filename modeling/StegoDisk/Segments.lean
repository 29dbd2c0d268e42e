import Mathlib.Algebra.Ring.Nat
import Mathlib.Algebra.BigOperators.Group.List.Basic
import Mathlib.Tactic.Common

/-!
Segments laid end to end. `start lengths k` is where segment `k` begins; each number
below the sum of the lengths lies in exactly one segment. `blocks width n` blocks of
a width are needed for `n` elements.
-/
namespace StegoDisk.Segments

def start (lengths : List Nat) (k : Nat) : Nat := (lengths.take k).sum

@[simp] theorem start_zero (lengths : List Nat) : start lengths 0 = 0 := by simp [start]

theorem start_cons (length : Nat) (rest : List Nat) (k : Nat) :
    start (length :: rest) (k + 1) = length + start rest k := by
  simp [start]

theorem start_succ {lengths : List Nat} {k length : Nat} (here : lengths[k]? = some length) :
    start lengths (k + 1) = start lengths k + length := by
  induction lengths generalizing k with
  | nil => simp at here
  | cons first rest ih =>
    cases k with
    | zero =>
      simp only [List.getElem?_cons_zero,Option.some.injEq] at here
      simp [start_cons,here]
    | succ k => rw [start_cons,start_cons,ih (by simpa using here),Nat.add_assoc]

theorem start_mono (lengths : List Nat) {j k : Nat} (before : j ≤ k) : start lengths j ≤ start lengths k := by
  induction lengths generalizing j k with
  | nil => simp [start]
  | cons first rest ih =>
    cases j with
    | zero => simp
    | succ j =>
      obtain ⟨k,rfl⟩ : ∃ k', k = k' + 1 := ⟨k - 1,by omega⟩
      rw [start_cons,start_cons]
      have := ih (show j ≤ k by omega)
      omega

/-- Every number below the sum lies in a segment. -/
theorem exists_segment {lengths : List Nat} {p : Nat} (inside : p < lengths.sum) :
    ∃ k length, lengths[k]? = some length ∧ start lengths k ≤ p ∧ p < start lengths k + length := by
  induction lengths generalizing p with
  | nil => simp at inside
  | cons first rest ih =>
    by_cases here : p < first
    · exact ⟨0,first,rfl,by simp,by simpa using here⟩
    · rw [List.sum_cons] at inside
      obtain ⟨k,length,found,low,high⟩ := ih (show p - first < rest.sum by omega)
      exact ⟨k + 1,length,by simpa using found,by rw [start_cons]; omega,by rw [start_cons]; omega⟩

/-- Segments do not overlap. -/
theorem segment_unique {lengths : List Nat} {j k a b p : Nat} (first : lengths[j]? = some a)
    (second : lengths[k]? = some b) (inFirst : start lengths j ≤ p ∧ p < start lengths j + a)
    (inSecond : start lengths k ≤ p ∧ p < start lengths k + b) : j = k := by
  rcases Nat.lt_trichotomy j k with before | same | behind
  · have := start_mono lengths (show j + 1 ≤ k by omega)
    rw [start_succ first] at this
    omega
  · exact same
  · have := start_mono lengths (show k + 1 ≤ j by omega)
    rw [start_succ second] at this
    omega

/-! ### Blocks -/

/-- The number of blocks of a width that `n` elements take. -/
def blocks (width n : Nat) : Nat := if n = 0 then 0 else (n - 1) / width + 1

theorem lt_blocks {width n j : Nat} (inside : j < n) : j / width < blocks width n := by
  have := Nat.div_le_div_right (c := width) (show j ≤ n - 1 by omega)
  rw [blocks,if_neg (by omega)]
  omega

theorem blocks_mul_lt {width n : Nat} (positive : 0 < width) : blocks width n * width < n + width := by
  unfold blocks
  split
  · omega
  · have := Nat.div_mul_le_self (n - 1) width
    rw [Nat.succ_mul]
    omega

theorem blocks_le {width n count : Nat} (enough : n ≤ count * width) : blocks width n ≤ count := by
  unfold blocks
  split
  · omega
  · have : (n - 1) / width < count := Nat.div_lt_of_lt_mul (by rw [Nat.mul_comm]; omega)
    omega

theorem le_blocks_mul {width n : Nat} (positive : 0 < width) : n ≤ blocks width n * width := by
  unfold blocks
  split
  · omega
  · have := Nat.lt_div_mul_add (a := n - 1) positive
    rw [Nat.succ_mul]
    omega

/-- Element `i` of block `b` is element `j` of the whole for exactly one `b` and `i`. -/
theorem block_unique {width b i c j : Nat} (first : i < width) (second : j < width)
    (same : b * width + i = c * width + j) : b = c ∧ i = j := by
  have quotient := congrArg (· / width) same
  have rest := congrArg (· % width) same
  simp only [Nat.mul_comm _ width,Nat.mul_add_div (show 0 < width by omega),Nat.div_eq_of_lt first,
    Nat.div_eq_of_lt second,Nat.mul_add_mod,Nat.mod_eq_of_lt first,Nat.mod_eq_of_lt second] at quotient rest
  exact ⟨by omega,rest⟩

end StegoDisk.Segments
