import Mathlib
import StegoDisk.Sponge

/-!
Keccak-f on states of 5×5 lanes of `2^l` bits, as the step mappings θ, ρ, π, χ and ι over the field of two elements. Each of
them is one-to-one, and so is a round; hence Keccak-f is a permutation of the states, whatever the rotations and the
round constants are. Over it stands the sponge that takes a message of bits and gives a digest of bits.
-/
namespace StegoDisk.StepMappings

/-- The bit of lane `x`, `y` at `z`. -/
abbrev State (w : ℕ) := ZMod 5 → ZMod 5 → ZMod w → ZMod 2

variable {w : ℕ}

/-! ### The mappings -/

/-- The parity of a column. -/
def parity (a : State w) (x : ZMod 5) (z : ZMod w) : ZMod 2 := ∑ y, a x y z

def theta (a : State w) : State w := fun x y z => a x y z + (parity a (x - 1) z + parity a (x + 1) (z - 1))

def rho (offset : ZMod 5 → ZMod 5 → ℕ) (a : State w) : State w := fun x y z => a x y (z - offset x y)

def pi (a : State w) : State w := fun x y z => a (x + 3 * y) x z

def chi (a : State w) : State w := fun x y z => a x y z + (a (x + 1) y z + 1) * a (x + 2) y z

def iota (constant : ZMod w → ZMod 2) (a : State w) : State w := fun x y z => a x y z + if x = 0 ∧ y = 0 then constant z else 0

def round (offset : ZMod 5 → ZMod 5 → ℕ) (constant : ZMod w → ZMod 2) (a : State w) : State w :=
  iota constant (chi (pi (rho offset (theta a))))

/-! ### Rotations and constants -/

/-- The lanes in the order in which π takes them round. -/
def walk : ℕ → ZMod 5 × ZMod 5
  | 0 => (1,0)
  | t+1 => ((walk t).2,2 * (walk t).1 + 3 * (walk t).2)

/-- By how much a lane is rotated: the triangular number of its place on the walk. -/
def offset (x y : ZMod 5) : ℕ :=
  match (List.range 24).find? fun t => walk t = (x,y) with
  | some t => (t + 1) * (t + 2) / 2
  | none => 0

/-- The powers of `x` modulo `x⁸ + x⁶ + x⁵ + x⁴ + 1`, as numbers of eight bits. -/
def register : ℕ → ℕ
  | 0 => 1
  | t+1 => if register t < 128 then 2 * register t else (2 * register t) ^^^ 0x171

/-- The constant of a round, whose bits stand at the places `2^j - 1`. -/
def constant (l ir : ℕ) (z : ZMod (2 ^ l)) : ZMod 2 :=
  match (List.range (l + 1)).find? fun j => ((2 ^ j - 1 : ℕ) : ZMod (2 ^ l)) = z with
  | some j => if (register (j + 7 * ir)).testBit 0 then 1 else 0
  | none => 0

/-- Keccak-f with its `12 + 2l` rounds. -/
def keccakF (l : ℕ) (a : State (2 ^ l)) : State (2 ^ l) :=
  (List.range (12 + 2 * l)).foldl (fun a ir => round offset (constant l ir) a) a

/-! ### The sponge -/

/-- The bits of a state, lane after lane, and row after row. -/
def xorBits (a : State w) (bits : List (ZMod 2)) : State w :=
  fun x y z => a x y z + bits.getD (w * (x.val + 5 * y.val) + z.val) 0

/-- 1, zeros and 1 after a message of `m` bits, up to a whole block. -/
def pad (rate m : ℕ) : List (ZMod 2) := 1::List.replicate ((2 * rate - (m % rate + 2)) % rate) 0 ++ [1]

/-- The first `out` bits of a state. -/
def truncate (out : ℕ) (a : State w) : List (ZMod 2) :=
  (List.range out).map fun i => a (i / w % 5 : ℕ) (i / w / 5 : ℕ) (i % w : ℕ)

/-- Keccak with blocks of `rate` bits and a digest that one block holds. -/
def keccak (l rate out : ℕ) (message : List (ZMod 2)) : List (ZMod 2) :=
  let padded := message ++ pad rate message.length
  truncate out (Sponge.absorbed rate (fun a block => keccakF l (xorBits a block)) (fun _ _ _ => 0) padded (padded.length / rate))

/-! ### Each is one-to-one -/

theorem iota_injective (constant : ZMod w → ZMod 2) : Function.Injective (iota constant) := by
  intro a b same
  funext x y z
  exact add_right_cancel (congrFun (congrFun (congrFun same x) y) z)

theorem rho_injective (offset : ZMod 5 → ZMod 5 → ℕ) : Function.Injective (rho (w := w) offset) := by
  intro a b same
  funext x y z
  have here := congrFun (congrFun (congrFun same x) y) (z + offset x y)
  simpa [rho] using here

theorem pi_injective : Function.Injective (pi (w := w)) := by
  intro a b same
  funext x y z
  have place : y + 3 * (2 * (x - y)) = x := by
    have six : (6 : ZMod 5) = 1 := by decide
    linear_combination (x - y) * six
  have here := congrFun (congrFun (congrFun same y) (2 * (x - y))) z
  simp only [pi,place] at here
  exact here

/-- χ on one row. -/
def rowChi (r : ZMod 5 → ZMod 2) : ZMod 5 → ZMod 2 := fun x => r x + (r (x + 1) + 1) * r (x + 2)

theorem rowChi_injective : Function.Injective rowChi := by
  unfold Function.Injective rowChi
  decide +kernel

theorem chi_injective : Function.Injective (chi (w := w)) := by
  intro a b same
  funext x y z
  have row : rowChi (fun x => a x y z) = rowChi fun x => b x y z := by
    funext x
    exact congrFun (congrFun (congrFun same x) y) z
  exact congrFun (rowChi_injective row) x

/-- What θ does to parities, with the neighbours at a distance. -/
def spread (n : ℕ) (p : ZMod 5 → ZMod w → ZMod 2) : ZMod 5 → ZMod w → ZMod 2 :=
  fun x z => p x z + (p (x - n) z + p (x + n) (z - n))

theorem spread_spread (n : ℕ) (p : ZMod 5 → ZMod w → ZMod 2) : spread n (spread n p) = spread (2 * n) p := by
  funext x z
  have left : x - n - n = x - (2 * n : ℕ) := by push_cast; ring
  have right : x + n + n = x + (2 * n : ℕ) := by push_cast; ring
  have deep : z - n - n = z - (2 * n : ℕ) := by push_cast; ring
  simp only [spread,left,right,deep,sub_add_cancel,add_sub_cancel_right]
  linear_combination (p (x - n) z + p (x + n) (z - n) + p x (z - n)) * CharTwo.two_eq_zero (R := ZMod 2)

theorem spread_pow {p : ZMod 5 → ZMod w → ZMod 2} (silent : spread 1 p = 0) (k : ℕ) : spread (2 ^ k) p = 0 := by
  induction k with
  | zero => exact silent
  | succ k ih =>
    rw [Nat.pow_succ',← spread_spread,ih]
    funext x z
    simp [spread]

/-- Parities that θ takes to zero are zero: at the distance `2^l` only the columns of one row are left, each the sum of
    its two neighbours, so that they repeat after three steps as they do after five. -/
theorem parity_zero {l : ℕ} {p : ZMod 5 → ZMod (2 ^ l) → ZMod 2} (silent : spread 1 p = 0) : p = 0 := by
  funext x z
  have each : ∀ x, p x z + (p (x - (2 ^ l : ℕ)) z + p (x + (2 ^ l : ℕ)) z) = 0 := by
    intro x
    have here := congrFun (congrFun (spread_pow silent l) x) z
    rwa [spread,ZMod.natCast_self,sub_zero] at here
  generalize ((2 ^ l : ℕ) : ZMod 5) = m at each
  have next : ∀ x, p (x + m) z = p x z + p (x - m) z := fun x => by
    linear_combination each x - (p x z + p (x - m) z) * CharTwo.two_eq_zero (R := ZMod 2)
  have third : ∀ x, p (x + 3 * m) z = p x z := by
    intro x
    have one := next (x + 2 * m)
    have two := next (x + m)
    rw [show x + 2 * m + m = x + 3 * m by ring,show x + 2 * m - m = x + m by ring] at one
    rw [show x + m + m = x + 2 * m by ring,show x + m - m = x by ring] at two
    linear_combination one + two + p (x + m) z * CharTwo.two_eq_zero (R := ZMod 2)
  have five : (5 : ZMod 5) = 0 := by decide
  have still : ∀ x, p (x + m) z = p x z := by
    intro x
    have twice := third (x + 3 * m)
    rwa [show x + 3 * m + 3 * m = x + m by linear_combination m * five,third x] at twice
  have last := each x
  rw [still x] at last
  have before := still (x - m)
  rw [sub_add_cancel] at before
  rw [← before] at last
  show p x z = (0 : ZMod 2)
  linear_combination last - p x z * CharTwo.two_eq_zero (R := ZMod 2)

theorem parity_theta (a : State w) (x : ZMod 5) (z : ZMod w) : parity (theta a) x z = spread 1 (parity a) x z := by
  have five : (5 : ZMod 2) = 1 := by decide
  simp only [parity,theta,spread,Finset.sum_add_distrib,Finset.sum_const,Finset.card_univ,ZMod.card,nsmul_eq_mul,
    Nat.cast_one,Nat.cast_ofNat,five,one_mul]

theorem theta_injective {l : ℕ} : Function.Injective (theta (w := 2 ^ l)) := by
  intro a b same
  have sums : spread 1 (fun x z => parity a x z - parity b x z) = 0 := by
    funext x z
    have here : parity (theta a) x z = parity (theta b) x z := by rw [same]
    rw [parity_theta,parity_theta] at here
    simp only [spread] at here ⊢
    show _ = (0 : ZMod 2)
    linear_combination here
  have equal : ∀ x z, parity a x z = parity b x z := fun x z => sub_eq_zero.mp (congrFun (congrFun (parity_zero sums) x) z)
  funext x y z
  have here := congrFun (congrFun (congrFun same x) y) z
  simp only [theta,equal] at here
  exact add_right_cancel here

theorem round_injective {l : ℕ} (offset : ZMod 5 → ZMod 5 → ℕ) (constant : ZMod (2 ^ l) → ZMod 2) :
    Function.Injective (round offset constant) :=
  (iota_injective constant).comp (chi_injective.comp (pi_injective.comp ((rho_injective offset).comp theta_injective)))

/-- Rounds one after another are a permutation of the states. -/
theorem rounds_bijective {l : ℕ} (offset : ZMod 5 → ZMod 5 → ℕ) (constants : List (ZMod (2 ^ l) → ZMod 2)) :
    Function.Bijective fun a => constants.foldl (fun a constant => round offset constant a) a := by
  induction constants with
  | nil => exact Function.bijective_id
  | cons constant constants ih =>
    exact ih.comp (Finite.injective_iff_bijective.mp (round_injective offset constant))

theorem keccakF_bijective (l : ℕ) : Function.Bijective (keccakF l) := by
  have rounds := rounds_bijective offset ((List.range (12 + 2 * l)).map (constant l))
  have same : keccakF l = fun a =>
      ((List.range (12 + 2 * l)).map (constant l)).foldl (fun a constant => round offset constant a) a := by
    funext a
    rw [keccakF,List.foldl_map]
  rwa [same]

end StegoDisk.StepMappings
