import Mathlib.Data.List.Basic
import Mathlib.Logic.Function.Basic

/-!
A heap of blocks under addresses, and who owns them. Each owner has at most one block; blocks that two owners have are
different ones, and no block is without an owner. The rules say what allocating, writing, giving back and passing on do
to what the owners have: nothing but to the one it is done for.
-/
namespace StegoDisk

/-- The cells from an offset on replaced. -/
def overwrite {α : Type} (cells : List α) (offset : Nat) (source : List α) : List α :=
  cells.take offset ++ source ++ cells.drop (offset + source.length)

structure Heap (Address Cell : Type) where
  blocks : Address → Option (List Cell)
  /-- What blocks held when they were given back. -/
  released : List (List Cell) := []

namespace Heap

variable {Address Cell : Type}

/-- No block. -/
def empty : Heap Address Cell := { blocks := fun _ => none }

def read (h : Heap Address Cell) (a : Address) (offset length : Nat) : Option (List Cell) :=
  match h.blocks a with
  | none => none
  | some cells => if offset + length ≤ cells.length then some ((cells.drop offset).take length) else none

section Writing

variable [DecidableEq Address]

def alloc (h : Heap Address Cell) (a : Address) (cells : List Cell) : Heap Address Cell :=
  { h with blocks := Function.update h.blocks a (some cells) }

def write (h : Heap Address Cell) (a : Address) (offset : Nat) (source : List Cell) : Option (Heap Address Cell) :=
  match h.blocks a with
  | none => none
  | some cells => if offset + source.length ≤ cells.length then some (h.alloc a (overwrite cells offset source)) else none

/-- A block is given back once. -/
def delete (h : Heap Address Cell) (a : Address) : Option (Heap Address Cell) :=
  match h.blocks a with
  | none => none
  | some cells => some { blocks := Function.update h.blocks a none, released := cells::h.released }

@[simp] theorem alloc_same (h : Heap Address Cell) (a : Address) (cells : List Cell) : (h.alloc a cells).blocks a = some cells :=
  Function.update_self ..

theorem alloc_other (h : Heap Address Cell) {a b : Address} (cells : List Cell) (other : b ≠ a) :
    (h.alloc a cells).blocks b = h.blocks b :=
  Function.update_of_ne other ..

end Writing

/-! ### Overwriting -/

section Overwrite

variable {α : Type} {cells source : List α} {offset : Nat}

theorem overwrite_length (inside : offset + source.length ≤ cells.length) : (overwrite cells offset source).length = cells.length := by
  rw [overwrite,List.length_append,List.length_append,List.length_take,List.length_drop]
  omega

@[simp] theorem overwrite_nil : overwrite cells offset [] = cells := by
  rw [overwrite,List.append_nil,List.length_nil,Nat.add_zero,List.take_append_drop]

theorem overwrite_whole (whole : source.length = cells.length) : overwrite cells 0 source = source := by
  rw [overwrite,List.take_zero,Nat.zero_add,whole,List.drop_length,List.append_nil,List.nil_append]

end Overwrite

/-! ### Owners -/

section Owners

variable {ι : Type}

/-- Every owner's block holds what is said, blocks are not shared, and none is lost. -/
structure Owns (h : Heap Address Cell) (pointers : ι → Option Address) (contents : ι → List Cell) : Prop where
  holds : ∀ i a, pointers i = some a → h.blocks a = some (contents i)
  apart : ∀ i j a, pointers i = some a → pointers j = some a → i = j
  owned : ∀ a cells, h.blocks a = some cells → ∃ i, pointers i = some a

variable {h h' : Heap Address Cell} {pointers pointers' : ι → Option Address} {contents contents' : ι → List Cell} {i j : ι}
  {a : Address}

theorem owns_empty (none_ : ∀ i, pointers i = none) : Owns (empty : Heap Address Cell) pointers contents where
  holds i a here := by simp [none_ i] at here
  apart i j a here := by simp [none_ i] at here
  owned a cells here := by simp [empty] at here

namespace Owns

/-- What is said about owners without a block does not matter. -/
theorem congr (owns : Owns h pointers contents) (same : ∀ i, pointers i ≠ none → contents i = contents' i) :
    Owns h pointers contents' := by
  refine ⟨fun i a here => ?_,owns.apart,owns.owned⟩
  rw [owns.holds i a here,same i (by simp [here])]

/-- Without owners there are no blocks. -/
theorem lost (owns : Owns h pointers contents) (none_ : ∀ i, pointers i = none) (a : Address) : h.blocks a = none := by
  cases here : h.blocks a with
  | none => rfl
  | some cells =>
    obtain ⟨i,pointer⟩ := owns.owned a cells here
    simp [none_ i] at pointer

theorem read (owns : Owns h pointers contents) (here : pointers i = some a) {offset length : Nat}
    (inside : offset + length ≤ (contents i).length) :
    h.read a offset length = some (((contents i).drop offset).take length) := by
  rw [Heap.read,owns.holds i a here]
  exact if_pos inside

variable [DecidableEq ι]

/-- Who has no block gets the one of another owner, who then has none. -/
theorem pass (owns : Owns h pointers contents) (none_ : pointers i = none) :
    Owns h (Function.update (Function.update pointers i (pointers j)) j none) (Function.update contents i (contents j)) := by
  have who : ∀ k b, Function.update (Function.update pointers i (pointers j)) j none k = some b →
      (k = i ∧ pointers j = some b) ∨ (k ≠ i ∧ k ≠ j ∧ pointers k = some b) := by
    intro k b there
    by_cases last : k = j
    · subst last
      simp at there
    rw [Function.update_of_ne last] at there
    by_cases this : k = i
    · subst this
      exact .inl ⟨rfl,by simpa using there⟩
    · rw [Function.update_of_ne this] at there
      exact .inr ⟨this,last,there⟩
  refine ⟨?_,?_,?_⟩
  · intro k b there
    rcases who k b there with ⟨rfl,pointer⟩ | ⟨this,-,pointer⟩
    · rw [Function.update_self,owns.holds j b pointer]
    · rw [Function.update_of_ne this,owns.holds k b pointer]
  · intro k l b there there'
    rcases who k b there with ⟨rfl,pointer⟩ | ⟨-,last,pointer⟩ <;> rcases who l b there' with ⟨rfl,pointer'⟩ | ⟨-,last',pointer'⟩
    · rfl
    · exact absurd (owns.apart l j b pointer' pointer) last'
    · exact absurd (owns.apart k j b pointer pointer') last
    · exact owns.apart k l b pointer pointer'
  · intro b cells there
    obtain ⟨k,pointer⟩ := owns.owned b cells there
    have other : k ≠ i := by
      rintro rfl
      simp [none_] at pointer
    by_cases this : k = j
    · subst this
      exact ⟨i,by rw [Function.update_of_ne (Ne.symm other),Function.update_self,pointer]⟩
    · exact ⟨k,by rw [Function.update_of_ne this,Function.update_of_ne other,pointer]⟩

variable [DecidableEq Address]

/-- Who has no block gets a new one. -/
theorem alloc (owns : Owns h pointers contents) (none_ : pointers i = none) (fresh : h.blocks a = none) (cells : List Cell) :
    Owns (h.alloc a cells) (Function.update pointers i (some a)) (Function.update contents i cells) := by
  have other : ∀ j b, pointers j = some b → j ≠ i ∧ b ≠ a := by
    intro j b here
    have held := owns.holds j b here
    refine ⟨?_,?_⟩
    · rintro rfl
      simp [none_] at here
    · rintro rfl
      simp [fresh] at held
  refine ⟨?_,?_,?_⟩
  · intro j b here
    by_cases this : j = i
    · subst this
      obtain rfl : a = b := by simpa using here
      simp
    · rw [Function.update_of_ne this] at here ⊢
      rw [h.alloc_other cells (other j b here).2]
      exact owns.holds j b here
  · intro j k b here here'
    by_cases this : j = i <;> by_cases this' : k = i
    · rw [this,this']
    · subst this
      rw [Function.update_of_ne this'] at here'
      obtain rfl : a = b := by simpa using here
      exact absurd rfl (other k a here').2
    · subst this'
      rw [Function.update_of_ne this] at here
      obtain rfl : a = b := by simpa using here'
      exact absurd rfl (other j a here).2
    · rw [Function.update_of_ne this] at here
      rw [Function.update_of_ne this'] at here'
      exact owns.apart j k b here here'
  · intro b cells' here
    by_cases this : b = a
    · exact ⟨i,by rw [this,Function.update_self]⟩
    · rw [h.alloc_other cells this] at here
      obtain ⟨j,pointer⟩ := owns.owned b cells' here
      exact ⟨j,by rw [Function.update_of_ne (other j b pointer).1,pointer]⟩

/-- Writing to the block of one owner leaves the blocks of others alone. -/
theorem write (owns : Owns h pointers contents) (here : pointers i = some a) {offset : Nat} {source : List Cell}
    (inside : offset + source.length ≤ (contents i).length) :
    ∃ h', h.write a offset source = some h' ∧ h'.released = h.released ∧
      Owns h' pointers (Function.update contents i (overwrite (contents i) offset source)) := by
  refine ⟨h.alloc a (overwrite (contents i) offset source),?_,rfl,?_,owns.apart,?_⟩
  · rw [Heap.write,owns.holds i a here]
    exact if_pos inside
  · intro j b there
    by_cases this : j = i
    · subst this
      obtain rfl : a = b := by simpa [here] using there
      simp
    · have other : b ≠ a := by
        rintro rfl
        exact this (owns.apart j i b there here)
      rw [Function.update_of_ne this,h.alloc_other _ other]
      exact owns.holds j b there
  · intro b cells there
    by_cases this : b = a
    · exact ⟨i,by rw [this,here]⟩
    · rw [h.alloc_other _ this] at there
      exact owns.owned b cells there

/-- Who gives the block back has none. -/
theorem delete (owns : Owns h pointers contents) (here : pointers i = some a) :
    ∃ h', h.delete a = some h' ∧ h'.released = contents i::h.released ∧ Owns h' (Function.update pointers i none) contents := by
  refine ⟨{ blocks := Function.update h.blocks a none, released := contents i::h.released },?_,rfl,?_,?_,?_⟩
  · rw [Heap.delete,owns.holds i a here]
  · intro j b there
    by_cases this : j = i
    · subst this
      simp at there
    · rw [Function.update_of_ne this] at there
      have other : b ≠ a := by
        rintro rfl
        exact this (owns.apart j i b there here)
      dsimp only
      rw [Function.update_of_ne other]
      exact owns.holds j b there
  · intro j k b there there'
    by_cases this : j = i
    · subst this
      simp at there
    by_cases this' : k = i
    · subst this'
      simp at there'
    rw [Function.update_of_ne this] at there
    rw [Function.update_of_ne this'] at there'
    exact owns.apart j k b there there'
  · intro b cells there
    dsimp only at there
    by_cases this : b = a
    · subst this
      simp at there
    · rw [Function.update_of_ne this] at there
      obtain ⟨j,pointer⟩ := owns.owned b cells there
      have other : j ≠ i := by
        rintro rfl
        exact this (Option.some.inj (pointer.symm.trans here))
      exact ⟨j,by rw [Function.update_of_ne other,pointer]⟩

end Owns

end Owners

end Heap
end StegoDisk
