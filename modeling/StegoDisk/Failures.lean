import Mathlib.Algebra.Ring.Nat
import Mathlib.Data.List.Basic
import Mathlib.Tactic.Common

/-!
How a call can end without its result. The exceptions are those of
`utils/exceptions.h` and of the standard library with the texts the source
gives them; a `Failure` is an exception or one of the three ways in which
compiled code goes wrong without one.
-/
namespace StegoDisk

/-- `InvalidState::Operation`. -/
inductive Operation
  | loadVirtualStorage
  | saveVirtualStorage
  | setEncoderArg
  | applyEncoder
  | getCapacity
  | loadStegoStrorage
  | saveStegoStrorage
  | ioStegoStorage
  | ioVirtualStorage
  | commonPermuteInputCheck
  | enqueue
  | save
  | embedBufferUsingEncoder
  deriving DecidableEq

/-- `InvalidState::Component`. -/
inductive Component
  | storage
  | encoder
  | virtualStorage
  | permutation
  | threadPool
  | file
  deriving DecidableEq

/-- `InvalidState::ComponentState`. -/
inductive ComponentState
  | notInitialized
  | notSetted
  | notActive
  | isActive
  | notConfigured
  | notOpened
  | notLoaded
  | notApplied
  | stopped
  deriving DecidableEq

/-- The exceptions the modelled code throws. -/
inductive Exception
  | invalidState (operation : Operation) (component : Component) (state : ComponentState)
  | emptyArgument (argument : String)
  | nullptrArgument (argument : String)
  | emptyMember (member : String)
  | zeroAllocatedSize
  | hashSizeTooSmall
  | permutationFailed
  | parseError (config error : String)
  | ioError (file : String)
  | errorOpenFile (path : List UInt8)
  | outOfRange (what : String)
  | invalidArgument (what : String)
  | runtimeError (what : String)
  | rangeError (what : String)
  | lengthError (what : String)
  | badAlloc
  | allocError
  deriving DecidableEq

/-- What a call ends with when it does not return: an exception, undefined
    behaviour (an index outside a vector or a null pointer), an endless loop, or,
    where arithmetic is checked, a result that does not fit in 64 bits. -/
inductive Failure
  | thrown (e : Exception)
  | undefined
  | endless
  | wrapped
  deriving DecidableEq

/-- The call ended with an exception. -/
def Throws {α : Type} (result : Except Failure α) : Prop := ∃ e, result = .error (.thrown e)

theorem throws_error {α : Type} (failure : Failure) :
    Throws (.error failure : Except Failure α) ↔ ∃ e, failure = .thrown e := by
  simp [Throws]

theorem not_throws_ok {α : Type} (value : α) : ¬ Throws (.ok value) := by
  simp [Throws]

/-- A bound computation returns exactly when both of its parts do. -/
theorem bind_eq_ok {α β : Type} {x : Except Failure α} {f : α → Except Failure β} {b : β} :
    x >>= f = .ok b ↔ ∃ a, x = .ok a ∧ f a = .ok b := by
  cases x with
  | error e => simp [bind, Except.bind]
  | ok a => simp [bind, Except.bind]

@[simp] theorem ok_bind {α β : Type} (a : α) (f : α → Except Failure β) : Except.ok a >>= f = f a := rfl

@[simp] theorem error_bind {α β : Type} (e : Failure) (f : α → Except Failure β) :
    (Except.error e : Except Failure α) >>= f = .error e := rfl

/-- What a call leaves, when it is known to return. -/
theorem eq_of_returns {α β : Type} {x : α × Except Failure β} {value : β} (returns : x.2 = .ok value) : x = (x.1,.ok value) :=
  Prod.ext rfl returns

/-! ### Machine words -/

/-- The value a `uint32` keeps. -/
def word32 (n : Nat) : Nat := n % 2 ^ 32
/-- The value a `uint64` keeps. -/
def word64 (n : Nat) : Nat := n % 2 ^ 64

theorem word32_of_lt {n : Nat} (small : n < 2 ^ 32) : word32 n = n := Nat.mod_eq_of_lt small
theorem word64_of_lt {n : Nat} (small : n < 2 ^ 64) : word64 n = n := Nat.mod_eq_of_lt small
theorem word32_lt (n : Nat) : word32 n < 2 ^ 32 := Nat.mod_lt n (by decide)
theorem word64_lt (n : Nat) : word64 n < 2 ^ 64 := Nat.mod_lt n (by decide)

/-- How a 64-bit register takes the result of an operation. -/
abbrev Store := Nat → Except Failure Nat
/-- As the machine does it: the low 64 bits are kept. -/
def machine : Store := fun n => .ok (word64 n)
/-- A register that refuses a result which does not fit. -/
def checked : Store := fun n => if n < 2 ^ 64 then .ok n else .error .wrapped

@[simp] theorem machine_of_lt {n : Nat} (small : n < 2 ^ 64) : machine n = .ok n := by
  rw [machine,word64_of_lt small]
@[simp] theorem checked_of_lt {n : Nat} (small : n < 2 ^ 64) : checked n = .ok n := by
  rw [checked,if_pos small]

theorem checked_eq_ok {n value : Nat} : checked n = .ok value ↔ n < 2 ^ 64 ∧ n = value := by
  unfold checked
  by_cases small : n < 2 ^ 64
  · rw [if_pos small,Except.ok.injEq]
    exact ⟨fun same => ⟨small,same⟩,fun both => both.2⟩
  · rw [if_neg small]
    exact ⟨fun returns => by simp at returns,fun both => absurd both.1 small⟩

/-- A register in which every result that fits is kept exactly. -/
def Store.Exact (store : Store) : Prop := ∀ n < 2 ^ 64, store n = .ok n

theorem machine_exact : machine.Exact := fun _ small => machine_of_lt small
theorem checked_exact : checked.Exact := fun _ small => checked_of_lt small

/-! ### Memory -/

/-- The bytes of a `MemoryBuffer`. -/
abbrev MemoryBuffer := List UInt8

/-- No buffer is larger: addresses have 48 bits. -/
def addressSpace : Nat := 2 ^ 48

/-- `new uint8[n]`: `n` bytes that hold whatever the memory held. -/
def allocate (memory : Nat → UInt8) (n : Nat) : Except Failure MemoryBuffer :=
  if n < addressSpace then .ok ((List.range n).map memory) else .error (.thrown .badAlloc)

/-- `MemoryBuffer::operator[]`. -/
def MemoryBuffer.at (buffer : MemoryBuffer) (index : Nat) : Except Failure UInt8 :=
  match buffer[index]? with
  | some value => .ok value
  | none => .error (.thrown (.outOfRange "MemoryBuffer: index out of range"))

theorem MemoryBuffer.at_of_lt {buffer : MemoryBuffer} {index : Nat} (inside : index < buffer.length) :
    buffer.at index = .ok buffer[index] := by
  simp [MemoryBuffer.at,List.getElem?_eq_getElem inside]

end StegoDisk
