import StegoDisk.PermutationSizes
import StegoDisk.Runs

/-!
`Init` called again and again. `Permute` asks `CommonPermuteInputCheck` whether it may run, which compares the index with
the size and does not throw for an object that is not initialised. That is enough where an `Init` that throws leaves
the object alone or has never had a size; the affine classes reset `initialized_` before they look for parameters.
-/
namespace StegoDisk.Permutation
open Runs

/-- `Init` with a requested size and a key, which returns or throws. -/
def step (env : Environment) (p : Permutation) (call : Nat × List UInt8) : Permutation := (p.init env call.1 call.2).1

/-- `Permute` throws for every index. -/
def Refuses (p : Permutation) : Prop := ∀ i, ∃ exception, p.permute i = .error (.thrown exception)

/-- An object that is not initialised refuses to permute. -/
def Guarded (p : Permutation) : Prop := p.initialized = false → p.Refuses

/-- After a call that threw, the object is the same and still initialised, or refuses to permute. -/
def Withstands (env : Environment) (p : Permutation) (call : Nat × List UInt8) : Prop :=
  ∀ exception, (p.init env call.1 call.2).2 = .error (.thrown exception) →
    p.step env call = p ∧ p.initialized = true ∨ (p.step env call).Refuses

/-- The object is not an affine one, has no size yet, or gets parameters; or `AffinePermutation` refuses the size at once. -/
def Harmless (env : Environment) (p : Permutation) (call : Nat × List UInt8) : Prop :=
  p.type ≠ .affine ∧ p.type ≠ .affine64 ∨ p.size = 0 ∨ p.type = .affine ∧ 0xFFFFFFFF < call.1 ∨
    ∃ chosen, AffinePermutation.params machine env call.1 call.2 = .ok (some chosen)

variable {env : Environment} {p : Permutation} {call : Nat × List UInt8}

theorem refuses_of_size (none_ : p.size = 0) : p.Refuses :=
  fun _ => ⟨_,permute_out_of_range (by omega)⟩

/-- A call that does not return keeps the object, or the object has no size. -/
theorem Harmless.refused (harmless : Harmless env p call) (refused : (p.init env call.1 call.2).2 ≠ .ok ()) :
    p.step env call = p ∨ p.size = 0 := by
  rcases init_refused_eq refused with kept | ⟨none_,a,⟨rfl,small,_⟩ | ⟨rfl,_⟩⟩
  · exact .inl kept
  · rcases harmless with ⟨other,_⟩ | zero | ⟨_,large⟩ | ⟨chosen,found⟩
    · exact absurd rfl other
    · exact .inr zero
    · exact absurd small (Nat.not_le.mpr large)
    · exact absurd found (none_ chosen)
  · rcases harmless with ⟨_,other⟩ | zero | ⟨own,_⟩ | ⟨chosen,found⟩
    · exact absurd rfl other
    · exact .inr zero
    · cases own
    · exact absurd found (none_ chosen)

/-- An affine object that has a size and gets no parameters is not initialised and permutes with those it had. -/
theorem not_harmless (harms : ¬ Harmless env p call) : (p.step env call).initialized = false ∧ ¬ (p.step env call).Refuses := by
  simp only [Harmless,not_or,not_and,not_exists] at harms
  obtain ⟨affine_,some_,small,none_⟩ := harms
  cases p with
  | identity p => exact absurd nofun (affine_ nofun)
  | feistelNum p => exact absurd nofun (affine_ nofun)
  | feistelMix p => exact absurd nofun (affine_ nofun)
  | affine a =>
    have down : (affine a).step env call = affine { a with initialized := false } := by
      simp only [step,init,initWith,AffinePermutation.init,if_neg (small rfl),Prod.map,adopt_none _ none_]
    rw [down]
    refine ⟨rfl,fun refuses => ?_⟩
    obtain ⟨exception,thrown⟩ := refuses 0
    have inside : ¬ 0 ≥ a.size := by simpa [size,Nat.pos_iff_ne_zero] using some_
    simp only [permute,permuteWith,AffinePermutation.permute,commonPermuteInputCheck,if_neg inside,ok_bind,machine] at thrown
    cases thrown
  | affine64 a =>
    have down : (affine64 a).step env call = affine64 { a with initialized := false } := by
      simp only [step,init,initWith,AffinePermutation.init64,Prod.map,adopt_none _ none_]
    rw [down]
    refine ⟨rfl,fun refuses => ?_⟩
    obtain ⟨exception,thrown⟩ := refuses 0
    have inside : ¬ 0 ≥ a.size := by simpa [size,Nat.pos_iff_ne_zero] using some_
    have product : ∃ n, StegoMath.mulmod machine 0 a.keyParamA a.size = .ok n := by
      unfold StegoMath.mulmod
      split
      · exact ⟨_,rfl⟩
      · rw [StegoMath.mulmodLoop,if_pos rfl]
        exact ⟨_,rfl⟩
    obtain ⟨n,multiplied⟩ := product
    simp only [permute,permuteWith,AffinePermutation.permute64,commonPermuteInputCheck,if_neg inside,ok_bind,multiplied,
      machine] at thrown
    cases thrown

/-- Initialised, or without a size. -/
def Sound (p : Permutation) : Prop := p.initialized = true ∨ p.size = 0

theorem Sound.guarded (sound : p.Sound) : p.Guarded := by
  intro off
  rcases sound with on | none_
  · rw [on] at off
    cases off
  · exact refuses_of_size none_

theorem Sound.step (sound : p.Sound) (harmless : Harmless env p call) : (p.step env call).Sound := by
  by_cases returns : (p.init env call.1 call.2).2 = .ok ()
  · exact .inl (init_initialized (eq_of_returns returns))
  · rcases harmless.refused returns with kept | none_
    · rw [kept]
      exact sound
    · exact .inr ((init_refused returns).1.trans none_)

theorem Sound.withstands (sound : p.Sound) (harmless : Harmless env p call) : p.Withstands env call := by
  intro exception thrown
  have refused : (p.init env call.1 call.2).2 ≠ .ok () := by rw [thrown]; nofun
  have empty (none_ : p.size = 0) : (p.step env call).Refuses := refuses_of_size ((init_refused refused).1.trans none_)
  rcases harmless.refused refused with kept | none_
  · exact sound.imp (fun on => ⟨kept,on⟩) empty
  · exact .inr (empty none_)

/-- In a run of calls on a new object every state is guarded, and every call that throws is withstood, exactly when
    every call is harmless. -/
theorem guarded_iff (env : Environment) (t : PermutationType) (calls : List (Nat × List UInt8)) :
    ((∀ front back, calls = front ++ back → (run (step env) (fresh t) front).Guarded) ∧
      ∀ front call back, calls = front ++ call::back → (run (step env) (fresh t) front).Withstands env call) ↔
    AllMeet (step env) (Harmless env) (fresh t) calls := by
  constructor
  · rintro ⟨guarded,_⟩
    rw [allMeet_iff]
    intro front call back split_
    by_contra harms
    obtain ⟨off,maps⟩ := not_harmless harms
    have next := guarded (front ++ [call]) back (by rw [split_,List.append_assoc]; rfl)
    rw [run_append] at next
    exact maps (next off)
  · intro all
    have sound : ∀ front back, calls = front ++ back → (run (step env) (fresh t) front).Sound := by
      rintro front back rfl
      exact (allMeet_append.mp all).1.run_keeps (fun _ _ _ sound harmless => sound.step harmless) (.inr (size_fresh t))
    exact ⟨fun front back split_ => (sound front back split_).guarded,fun front call back split_ =>
      (sound front (call::back) split_).withstands (allMeet_iff.mp all front call back split_)⟩

/-- An affine object of size 1021 that is asked for a size of 1 throws, is not initialised and still permutes. -/
theorem not_guarded_affine :
    ((run (step twoPrimes) (fresh .affine) [(1021,zeroKey)]).init twoPrimes 1 zeroKey).2 =
      .error (.thrown (.runtimeError "AffinePermutation: requested size is too small")) ∧
    (run (step twoPrimes) (fresh .affine) [(1021,zeroKey),(1,zeroKey)]).permute 3 = .ok 1019 ∧
    ¬ (run (step twoPrimes) (fresh .affine) [(1021,zeroKey),(1,zeroKey)]).Guarded := by
  have ran : ((run (step twoPrimes) (fresh .affine) [(1021,zeroKey)]).init twoPrimes 1 zeroKey).2 =
        .error (.thrown (.runtimeError "AffinePermutation: requested size is too small")) ∧
      (run (step twoPrimes) (fresh .affine) [(1021,zeroKey),(1,zeroKey)]).permute 3 = .ok 1019 ∧
      (run (step twoPrimes) (fresh .affine) [(1021,zeroKey),(1,zeroKey)]).initialized = false := by
    decide +kernel
  refine ⟨ran.1,ran.2.1,?_⟩
  intro guarded
  obtain ⟨exception,thrown⟩ := guarded ran.2.2 3
  rw [ran.2.1] at thrown
  cases thrown

end StegoDisk.Permutation
