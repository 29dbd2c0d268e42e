import Mathlib.Data.List.TakeDrop
import StegoDisk.BufferObjects

/-!
What buffers are for: lists of bytes under names, each changed by calls on its own name only. The objects of
`utils/memory_buffer.cc` are such lists over whole runs of calls. Their blocks are never shared or lost, and no block is
given back before `Randomize` has written over it.
-/
namespace StegoDisk.Buffers

variable {ι Address : Type}

/-- The bytes of the buffers that were constructed. -/
abbrev Values (ι : Type) := ι → Option (List UInt8)

namespace Values

def value (v : Values ι) (this : ι) : Except Failure (List UInt8) :=
  match v this with
  | some bytes => .ok bytes
  | none => .error .undefined

/-- Lists of different lengths have no sum. -/
def sum (bytes bytes' : List UInt8) : Except Failure (List UInt8) :=
  if bytes.length = bytes'.length then .ok (List.zipWith (· ^^^ ·) bytes bytes')
  else .error (.thrown (.lengthError "MemoryBuffer: size must be equal to use xor operator"))

variable [DecidableEq ι]

def put (v : Values ι) (this : ι) (bytes : List UInt8) : Values ι := Function.update v this (some bytes)

open Memory

def perform (v : Values ι) (outside : Outside Address) : Call ι Address → Values ι × Except Failure Answer
  | .construct this => changed v (.ok (v.put this []))
  | .constructSize this newSize => changed v (do
    let bytes ← allocate outside.memory newSize
    .ok (v.put this bytes))
  | .constructData this data => changed v (.ok (v.put this data))
  | .constructCopy this other | .copyAssign this other => changed v (do
    let bytes ← v.value other
    .ok (v.put this bytes))
  | .constructMove this other _ | .moveAssign this other => changed v (do
    let bytes ← v.value other
    .ok ((v.put this bytes).put other []))
  | .destruct this => changed v (.ok (Function.update v this none))
  | .resize this newSize => changed v (do
    let bytes ← v.value this
    let bytes ← MemoryBuffer.resize bytes newSize
    .ok (v.put this bytes))
  | .get this index => (v,(do
    let bytes ← v.value this
    MemoryBuffer.at bytes index).map .byte)
  | .set this index value => changed v (do
    let bytes ← v.value this
    let _ ← MemoryBuffer.at bytes index
    .ok (v.put this (bytes.set index value)))
  | .xorAssign this other => changed v (do
    let bytes ← v.value this
    let bytes' ← v.value other
    let sum ← sum bytes bytes'
    .ok (v.put this sum))
  | .xor result this other => changed v (do
    let bytes ← v.value this
    let bytes' ← v.value other
    let sum ← sum bytes bytes'
    .ok (v.put result sum))
  | .write this offset data => changed v (do
    let bytes ← v.value this
    if offset + data.length ≤ bytes.length then .ok (v.put this (overwrite bytes offset data))
    else .error (.thrown (.outOfRange "MemoryBuffer: write: offset + length > size")))
  | .clear this => changed v (do
    let bytes ← v.value this
    .ok (v.put this (List.replicate bytes.length 0)))
  | .randomize this => changed v (do
    let bytes ← v.value this
    .ok (v.put this ((List.range bytes.length).map outside.noise)))
  | .fill this value => changed v (do
    let bytes ← v.value this
    .ok (v.put this (List.replicate bytes.length value)))
  | .equal this other => (v,(do
    let bytes ← v.value this
    let bytes' ← v.value other
    .ok (.truth (bytes = bytes'))))
  | .getSize this => (v,(v.value this).map fun bytes => .size bytes.length)

def contents (v : Values ι) (i : ι) : List UInt8 := (v i).getD []

end Values

/-- Where the objects point to. -/
def Memory.pointers (m : Memory ι Address) (i : ι) : Option Address := (m.objects i).bind Object.buffer

/-- The objects are the lists, each in a block of its own. -/
structure Stands (m : Memory ι Address) (v : Values ι) : Prop where
  sizes : ∀ i, (m.objects i).map Object.size = (v i).map List.length
  null : ∀ i o, m.objects i = some o → o.buffer = none → o.size = 0
  small : ∀ i o, m.objects i = some o → o.size < 2 ^ 32
  owns : m.heap.Owns m.pointers v.contents

/-- What is released on the way is what the generator gave. -/
def Wiped (outside : Outside Address) (m m' : Memory ι Address) : Prop :=
  ∀ bytes ∈ m'.heap.released, bytes ∈ m.heap.released ∨ bytes = (List.range bytes.length).map outside.noise

section

variable {m : Memory ι Address} {v : Values ι} {this other i : ι} {o : Object Address} {bytes : List UInt8}
  {outside : Outside Address}

theorem object_ok (here : m.objects this = some o) : m.object this = .ok o := by rw [Memory.object,here]

theorem value_ok (is : v this = some bytes) : v.value this = .ok bytes := by rw [Values.value,is]

theorem pointers_eq (here : m.objects this = some o) : m.pointers this = o.buffer := by
  rw [Memory.pointers,here]
  rfl

theorem contents_eq (is : v this = some bytes) : v.contents this = bytes := by
  rw [Values.contents,is]
  rfl

theorem wiped_of_eq {m' : Memory ι Address} (same : m'.heap.released = m.heap.released) : Wiped outside m m' :=
  fun _ inside => .inl (same ▸ inside)

theorem Wiped.trans {m' m'' : Memory ι Address} (first : Wiped outside m m') (second : Wiped outside m' m'') :
    Wiped outside m m'' :=
  fun bytes inside => (second bytes inside).elim (first bytes) .inr

namespace Stands

variable (stands : Stands m v)
include stands

theorem value_of (here : m.objects this = some o) : ∃ bytes, v this = some bytes ∧ o.size = bytes.length := by
  have size := stands.sizes this
  rw [here] at size
  obtain ⟨bytes,is,length⟩ := Option.map_eq_some_iff.mp size.symm
  exact ⟨bytes,is,length.symm⟩

theorem size_eq (here : m.objects this = some o) (is : v this = some bytes) : o.size = bytes.length := by
  have size := stands.sizes this
  rw [here,is] at size
  exact Option.some.inj size

/-- A null pointer goes with no bytes. -/
theorem nil_of_null (here : m.objects this = some o) (is : v this = some bytes) (null : o.buffer = none) : bytes = [] := by
  have size := stands.size_eq here is
  rw [stands.null this o here null] at size
  exact List.length_eq_zero_iff.mp size.symm

/-- Where every pointer was one before, a free address is free. -/
theorem fresh_of {m' : Memory ι Address} {v' : Values ι} (stands' : Stands m' v')
    (pointed : ∀ i a, m'.pointers i = some a → ∃ j, m.pointers j = some a) {a : Address} (fresh : m.heap.blocks a = none) :
    m'.heap.blocks a = none := by
  cases there : m'.heap.blocks a with
  | none => rfl
  | some cells =>
    obtain ⟨i,pointer⟩ := stands'.owns.owned a cells there
    obtain ⟨j,pointer'⟩ := pointed i a pointer
    have block := stands.owns.holds j a pointer'
    rw [fresh] at block
    cases block

theorem load (here : m.objects this = some o) (is : v this = some bytes) (offset length : Nat)
    (inside : offset + length ≤ bytes.length) : m.load o.buffer offset length = .ok ((bytes.drop offset).take length) := by
  rw [Memory.load]
  split
  case isTrue none_ => rw [none_,List.take_zero]
  case isFalse some_ =>
    cases points : o.buffer with
    | none =>
      obtain rfl := stands.nil_of_null here is points
      simp only [List.length_nil] at inside
      omega
    | some a =>
      have pointer := (pointers_eq here).trans points
      have read := stands.owns.read pointer (show offset + length ≤ (v.contents this).length by rw [contents_eq is]; exact inside)
      rw [contents_eq is] at read
      simp only [Option.bind_some,read]

end Stands

/-! ### Resizing

While a buffer is resized its new block stands beside the old one, as that of one more object would. -/

section Resize

/-- The memory with one more object, which is left out. -/
def within (m : Memory (Option ι) Address) : Memory ι Address := { objects := fun i => m.objects (some i), heap := m.heap }

/-- The memory with one more object. -/
def beside (m : Memory ι Address) (o : Object Address) : Memory (Option ι) Address :=
  { objects := fun i => i.elim (some o) m.objects, heap := m.heap }

variable {wide wide' : Memory (Option ι) Address}

theorem within_load (p : Option Address) (offset length : Nat) : (within wide).load p offset length = wide.load p offset length := rfl

theorem beside_none : (beside m o).objects none = some o := rfl

/-- Where one more object stands for one more list, without it the others stand for theirs, if it has no block. -/
theorem within_stands {w : Values (Option ι)} (stands : Stands wide w) (null : wide.pointers none = none) :
    Stands (within wide) fun i => w (some i) := by
  refine ⟨fun i => stands.sizes (some i),fun i => stands.null (some i),fun i => stands.small (some i),?_⟩
  refine ⟨fun i => stands.owns.holds (some i),fun i j a here there => ?_,fun a cells there => ?_⟩
  · exact Option.some.inj (stands.owns.apart (some i) (some j) a here there)
  · obtain ⟨i,pointer⟩ := stands.owns.owned a cells there
    cases i with
    | none =>
      rw [null] at pointer
      cases pointer
    | some i => exact ⟨i,pointer⟩

/-- A new block can be that of one more object. -/
theorem beside_stands [DecidableEq Address] (stands : Stands m v) {a : Address} (fresh : m.heap.blocks a = none)
    (small : bytes.length < 2 ^ 32) :
    Stands (beside { m with heap := m.heap.alloc a bytes } ⟨some a,bytes.length⟩) fun i => i.elim (some bytes) v := by
  have wider : m.heap.Owns (fun i : Option ι => i.elim none m.pointers) fun i => i.elim [] v.contents := by
    refine ⟨?_,?_,?_⟩
    · rintro (_ | i) a here
      · cases here
      · exact stands.owns.holds i a here
    · rintro (_ | i) (_ | j) a here there
      · rfl
      · cases here
      · cases there
      · exact congrArg some (stands.owns.apart i j a here there)
    · intro a cells there
      obtain ⟨i,pointer⟩ := stands.owns.owned a cells there
      exact ⟨some i,pointer⟩
  refine ⟨?_,?_,?_,?_⟩
  · rintro (_ | i)
    · rfl
    · exact stands.sizes i
  · rintro (_ | i) o here null
    · cases here
      cases null
    · exact stands.null i o here null
  · rintro (_ | i) o here
    · cases here
      exact small
    · exact stands.small i o here
  · classical
    have owns := wider.alloc (i := none) rfl fresh bytes
    have pointers : (beside { m with heap := m.heap.alloc a bytes } ⟨some a,bytes.length⟩).pointers =
        Function.update (fun i : Option ι => i.elim none m.pointers) none (some a) := by
      funext i
      cases i with
      | none => rw [Function.update_self]; rfl
      | some i => rw [Function.update_of_ne (by simp)]; rfl
    have contents : (Values.contents fun i : Option ι => i.elim (some bytes) v) =
        Function.update (fun i : Option ι => i.elim [] v.contents) none bytes := by
      funext i
      cases i with
      | none => rw [Function.update_self]; rfl
      | some i => rw [Function.update_of_ne (by simp)]; rfl
    rw [pointers,contents]
    exact owns

variable [DecidableEq Address]

theorem within_store {p : Option Address} {offset : Nat} {source : List UInt8} (stored : wide.store p offset source = .ok wide') :
    (within wide).store p offset source = .ok (within wide') := by
  rw [Memory.store] at stored ⊢
  split at stored
  case isTrue none_ =>
    cases stored
    rw [if_pos none_]
  case isFalse some_ =>
    rw [if_neg some_]
    split at stored
    case h_1 heap written =>
      cases stored
      simp only [within,written]
    case h_2 => cases stored

theorem within_delete {a : Address} (deleted : wide.delete a = .ok wide') : (within wide).delete a = .ok (within wide') := by
  rw [Memory.delete] at deleted ⊢
  split at deleted
  case h_1 heap freed =>
    cases deleted
    simp only [within,freed]
  case h_2 => cases deleted

theorem within_randomizeLoop {p : Option Address} {size rounds i : Nat}
    (ran : Memory.randomizeLoop outside p size rounds i wide = .ok wide') :
    Memory.randomizeLoop outside p size rounds i (within wide) = .ok (within wide') := by
  induction rounds generalizing i wide with
  | zero => cases ran
  | succ rounds ih =>
    rw [Memory.randomizeLoop] at ran ⊢
    split at ran
    case isTrue more =>
      obtain ⟨next,stored,rest⟩ := bind_eq_ok.mp ran
      rw [if_pos more,within_store stored,ok_bind,ih rest]
    case isFalse all =>
      cases ran
      rw [if_neg all]

theorem within_randomize (ran : wide.randomize outside (some this) = .ok wide') :
    (within wide).randomize outside this = .ok (within wide') := by
  rw [Memory.randomize] at ran ⊢
  obtain ⟨o,here,rest⟩ := bind_eq_ok.mp ran
  have here' : (within wide).object this = .ok o := here
  rw [here',ok_bind]
  split at rest
  case isTrue nothing =>
    cases rest
    rw [if_pos nothing]
  case isFalse some_ =>
    obtain ⟨next,stored,looped⟩ := bind_eq_ok.mp rest
    rw [if_neg some_,within_store stored,ok_bind,within_randomizeLoop looped]

end Resize

/-! ### Updates -/

variable [DecidableEq ι]

@[simp] theorem Values.value_put (bytes : List UInt8) : (v.put this bytes) this = some bytes := Function.update_self ..

theorem Values.put_other (bytes : List UInt8) (apart : i ≠ this) : (v.put this bytes) i = v i := Function.update_of_ne apart ..

theorem Values.put_same (is : v this = some bytes) : v.put this bytes = v := by
  rw [Values.put,← is,Function.update_eq_self]

theorem Values.put_put (bytes bytes' : List UInt8) : (v.put this bytes).put this bytes' = v.put this bytes' :=
  Function.update_idem ..

theorem Values.contents_put (bytes : List UInt8) : (v.put this bytes).contents = Function.update v.contents this bytes :=
  Function.comp_update (fun bytes : Option (List UInt8) => bytes.getD []) v this (some bytes)

@[simp] theorem setObject_same (o : Option (Object Address)) : (m.setObject this o).objects this = o := Function.update_self ..

theorem setObject_other (o : Option (Object Address)) (apart : i ≠ this) : (m.setObject this o).objects i = m.objects i :=
  Function.update_of_ne apart ..

theorem pointers_setObject (o : Option (Object Address)) :
    (m.setObject this o).pointers = Function.update m.pointers this (o.bind Object.buffer) :=
  Function.comp_update (fun o : Option (Object Address) => o.bind Object.buffer) m.objects this o

/-- An object that is set stands for its list, if the heap does. -/
theorem Stands.setObject {m' : Memory ι Address} (stands : Stands m v) (same : m'.objects = m.objects)
    (size : o.size = bytes.length) (null : o.buffer = none → o.size = 0) (small : o.size < 2 ^ 32)
    (owns : m'.heap.Owns (Function.update m.pointers this o.buffer) (Function.update v.contents this bytes)) :
    Stands (m'.setObject this (some o)) (v.put this bytes) := by
  have others : ∀ i o', (m'.setObject this (some o)).objects i = some o' → o' = o ∨ m.objects i = some o' := by
    intro i o' there
    by_cases here : i = this
    · subst here
      exact .inl (by simpa using there.symm)
    · rw [setObject_other _ here,same] at there
      exact .inr there
  refine ⟨?_,?_,?_,?_⟩
  · intro i
    by_cases here : i = this
    · subst here
      simp [size]
    · rw [Values.put_other bytes here,setObject_other _ here,same,stands.sizes i]
  · intro i o' there
    rcases others i o' there with rfl | before
    · exact null
    · exact stands.null i o' before
  · intro i o' there
    rcases others i o' there with rfl | before
    · exact small
    · exact stands.small i o' before
  · have pointers : m'.pointers = m.pointers := by
      funext i
      rw [Memory.pointers,Memory.pointers,same]
    rw [pointers_setObject,Values.contents_put,pointers]
    exact owns

/-- Only the list of one object changes with its block. -/
theorem Stands.setBytes {m' : Memory ι Address} (stands : Stands m v) (same : m'.objects = m.objects) (here : m.objects this = some o)
    (size : o.size = bytes.length) (owns : m'.heap.Owns m.pointers (Function.update v.contents this bytes)) :
    Stands m' (v.put this bytes) := by
  have set : Stands (m'.setObject this (some o)) (v.put this bytes) :=
    stands.setObject same size (stands.null this o here) (stands.small this o here)
    (by rw [← pointers_eq here,Function.update_eq_self]; exact owns)
  rwa [Memory.setObject,same,← here,Function.update_eq_self,← same] at set

/-! ### Members -/

section Members

variable [DecidableEq Address] (stands : Stands m v) (here : m.objects this = some o) (is : v this = some bytes)
include stands here is

/-- What is stored at a pointer becomes the object's bytes, and nothing else changes. -/
theorem store_ok (offset : Nat) (source : List UInt8) (inside : offset + source.length ≤ bytes.length) :
    ∃ m', m.store o.buffer offset source = .ok m' ∧ m'.objects = m.objects ∧ m'.heap.released = m.heap.released ∧
      Stands m' (v.put this (overwrite bytes offset source)) := by
  rw [Memory.store]
  split
  case isTrue none_ =>
    subst none_
    exact ⟨m,rfl,rfl,rfl,by rw [Heap.overwrite_nil,Values.put_same is]; exact stands⟩
  case isFalse some_ =>
    have long := List.length_pos_of_ne_nil some_
    cases points : o.buffer with
    | none =>
      obtain rfl := stands.nil_of_null here is points
      simp only [List.length_nil] at inside
      omega
    | some a =>
      obtain ⟨heap,written,kept,owns⟩ := stands.owns.write ((pointers_eq here).trans points)
        (show offset + source.length ≤ (v.contents this).length by rw [contents_eq is]; exact inside)
      rw [contents_eq is] at owns
      simp only [Option.bind_some,written]
      refine ⟨{ m with heap },rfl,rfl,kept,stands.setBytes rfl here ?_ owns⟩
      rw [Heap.overwrite_length inside,stands.size_eq here is]

/-- The loop writes one byte of the generator after another. -/
theorem randomizeLoop_ok (outside : Outside Address) (rounds i : Nat) (rest : bytes.length - i < rounds) (inside : i ≤ bytes.length)
    (written : bytes.take i = (List.range i).map outside.noise) :
    ∃ m', Memory.randomizeLoop outside o.buffer o.size rounds i m = .ok m' ∧ m'.objects = m.objects ∧
      m'.heap.released = m.heap.released ∧ Stands m' (v.put this ((List.range bytes.length).map outside.noise)) := by
  induction rounds generalizing m v bytes i with
  | zero => omega
  | succ rounds ih =>
    have size := stands.size_eq here is
    rw [Memory.randomizeLoop]
    split
    case isFalse all =>
      obtain rfl : i = bytes.length := by omega
      rw [List.take_length] at written
      exact ⟨m,rfl,rfl,rfl,by rw [← written,Values.put_same is]; exact stands⟩
    case isTrue more =>
      have small := stands.small this o here
      rw [size] at small more
      obtain ⟨m',stored,objects,kept,stands'⟩ := store_ok stands here is i [outside.noise i]
        (by rw [List.length_singleton]; omega)
      have length : (overwrite bytes i [outside.noise i]).length = bytes.length :=
        Heap.overwrite_length (by rw [List.length_singleton]; omega)
      have next : (overwrite bytes i [outside.noise i]).take (i + 1) = (List.range (i + 1)).map outside.noise := by
        rw [overwrite,List.take_left' (by simp; omega),written,List.range_succ,List.map_append]
        rfl
      obtain ⟨m'',looped,objects',kept',stands''⟩ := ih stands' (objects ▸ here) (Values.value_put _) (i + 1) (by omega)
        (by omega) next
      rw [stored,ok_bind,word32_of_lt (by omega)]
      refine ⟨m'',looped,objects'.trans objects,kept'.trans kept,?_⟩
      rwa [Values.put_put,length] at stands''

/-- The bytes of an object are replaced by what the generator gives. -/
theorem randomize_ok (outside : Outside Address) : ∃ m', m.randomize outside this = .ok m' ∧ m'.objects = m.objects ∧ m'.heap.released = m.heap.released ∧
    Stands m' (v.put this ((List.range bytes.length).map outside.noise)) := by
  have size := stands.size_eq here is
  rw [Memory.randomize,object_ok here,ok_bind]
  split
  case isTrue nothing =>
    have none_ : bytes = [] := by
      rw [Bool.or_eq_true,Option.isNone_iff_eq_none,decide_eq_true_eq,size] at nothing
      exact nothing.elim (stands.nil_of_null here is) List.length_eq_zero_iff.mp
    subst none_
    refine ⟨m,rfl,rfl,rfl,?_⟩
    rw [List.length_nil,List.range_zero,List.map_nil,Values.put_same is]
    exact stands
  case isFalse some_ =>
    have whole : (List.replicate o.size (0 : UInt8)).length = bytes.length := by rw [List.length_replicate,size]
    obtain ⟨m',cleared,objects,kept,stands'⟩ := store_ok stands here is 0 (List.replicate o.size 0)
      (by rw [whole]; omega)
    rw [Heap.overwrite_whole whole] at stands'
    have small := stands.small this o here
    obtain ⟨m'',looped,objects',kept',stands''⟩ := randomizeLoop_ok stands' (objects ▸ here)
      (Values.value_put _) outside (2 ^ 32 + 1) 0 (by rw [List.length_replicate]; omega) (Nat.zero_le _) rfl
    rw [cleared,ok_bind]
    refine ⟨m'',looped,objects'.trans objects,kept'.trans kept,?_⟩
    rwa [Values.put_put,whole] at stands''

/-- What an object had is written over before it is given back; then the object has nothing. -/
theorem destroy_ok (outside : Outside Address) : ∃ m', m.destroy outside this = .ok m' ∧ m'.objects = Function.update m.objects this (some ⟨none,0⟩) ∧
    Wiped outside m m' ∧ Stands m' (v.put this []) := by
  rw [Memory.destroy,object_ok here,ok_bind]
  cases points : o.buffer with
  | none =>
    have null : o = ⟨none,0⟩ := by
      cases o
      exact congrArg₂ _ points (stands.null this _ here points)
    obtain rfl := stands.nil_of_null here is points
    refine ⟨m,rfl,?_,wiped_of_eq rfl,?_⟩
    · rw [← null,← here,Function.update_eq_self]
    · rw [Values.put_same is]
      exact stands
  | some a =>
    obtain ⟨m',wiped,objects,kept,stands'⟩ := randomize_ok stands here is outside
    have here' : m'.objects this = some o := objects ▸ here
    have pointer : m'.pointers this = some a := (pointers_eq here').trans points
    obtain ⟨heap,deleted,released,owns⟩ := stands'.owns.delete pointer
    simp only [wiped,ok_bind,Memory.delete,deleted]
    refine ⟨_,rfl,by rw [Memory.setObject,objects],?_,?_⟩
    · intro cells inside
      simp only [Memory.setObject,released,contents_eq (Values.value_put _),List.mem_cons] at inside
      rcases inside with rfl | before
      · exact .inr (by rw [List.length_map,List.length_range])
      · exact .inl (kept ▸ before)
    · have set : Stands (Memory.setObject { m' with heap } this (some ⟨none,0⟩))
          (Values.put (v.put this ((List.range bytes.length).map outside.noise)) this []) :=
        stands'.setObject rfl rfl (fun _ => rfl) (Nat.two_pow_pos 32) (owns.congr fun i some_ => by
          rw [Function.update_of_ne]
          rintro rfl
          simp at some_)
      rwa [Values.put_put] at set

end Members

/-- An object without a block gets one, or none if it is to have no bytes. -/
theorem init_ok [DecidableEq Address] (stands : Stands m v) (null : m.pointers this = none) {newSize : Nat} (small : newSize < 2 ^ 32)
    (fresh : m.heap.blocks outside.address = none) :
    ∃ m' o, m.init outside this newSize = .ok m' ∧ m'.objects = Function.update m.objects this (some o) ∧ o.size = newSize ∧
      Wiped outside m m' ∧ Stands m' (v.put this ((List.range newSize).map outside.memory)) := by
  rw [Memory.init]
  split
  case isTrue some_ =>
    have room : newSize < addressSpace := lt_trans small (by decide)
    rw [allocate,if_pos room,ok_bind]
    refine ⟨_,_,rfl,rfl,rfl,wiped_of_eq rfl,?_⟩
    refine stands.setObject rfl (by rw [List.length_map,List.length_range]) (fun none_ => ?_) small ?_
    · cases none_
    · exact stands.owns.alloc null fresh _
  case isFalse zero =>
    obtain rfl : newSize = 0 := by omega
    refine ⟨_,_,rfl,rfl,rfl,wiped_of_eq rfl,?_⟩
    refine stands.setObject rfl rfl (fun _ => rfl) (Nat.two_pow_pos 32) ?_
    rw [← null,Function.update_eq_self]
    refine stands.owns.congr fun i some_ => ?_
    rw [Function.update_of_ne]
    rintro rfl
    exact some_ null

/-! ### Constructors and assignments -/

section Copies

variable [DecidableEq Address] (stands : Stands m v) {o' : Object Address} {bytes' : List UInt8}
include stands

theorem copyFrom_ok (here : m.objects this = some o) (is : v this = some bytes) (there : m.objects other = some o')
    (is' : v other = some bytes') (same : bytes.length = bytes'.length) :
    ∃ m', m.copyFrom this other = .ok m' ∧ m'.objects = m.objects ∧ m'.heap.released = m.heap.released ∧
      Stands m' (v.put this bytes') := by
  have size := stands.size_eq here is
  have read := stands.load there is' 0 o.size (by omega)
  rw [size,same,List.drop_zero,List.take_length] at read
  obtain ⟨m',stored,objects,kept,stands'⟩ := store_ok stands here is 0 bytes' (by omega)
  rw [Heap.overwrite_whole same.symm] at stands'
  refine ⟨m',?_,objects,kept,stands'⟩
  rw [Memory.copyFrom,object_ok here,object_ok there,ok_bind,ok_bind,size,same,read,ok_bind,stored]

theorem constructData_ok (null : m.pointers this = none) (data : List UInt8) (small : data.length < 2 ^ 32)
    (fresh : m.heap.blocks outside.address = none) :
    ∃ m', m.constructData outside this data = .ok m' ∧ Wiped outside m m' ∧ Stands m' (v.put this data) := by
  obtain ⟨m',o,made,objects,size,wiped,stands'⟩ := init_ok stands null small fresh
  have here : m'.objects this = some o := by rw [objects,Function.update_self]
  rw [Memory.constructData,made,ok_bind,object_ok here,ok_bind]
  split
  case isTrue zero =>
    obtain rfl : data = [] := List.length_eq_zero_iff.mp (size.symm.trans zero)
    exact ⟨m',rfl,wiped,stands'⟩
  case isFalse some_ =>
    have length : ((List.range data.length).map outside.memory).length = data.length := by
      rw [List.length_map,List.length_range]
    obtain ⟨m'',stored,-,kept,stands''⟩ := store_ok stands' here (Values.value_put _) 0 data (by omega)
    rw [Heap.overwrite_whole length.symm,Values.put_put] at stands''
    exact ⟨m'',stored,wiped.trans (wiped_of_eq kept),stands''⟩

/-- An object without a block becomes a copy. -/
theorem copy_ok (null : m.pointers this = none) (apart : other ≠ this) (there : m.objects other = some o')
    (is' : v other = some bytes') (fresh : m.heap.blocks outside.address = none) :
    ∃ m' o m'', m.init outside this o'.size = .ok m' ∧ m'.objects this = some o ∧ m'.objects other = some o' ∧
      m'.copyFrom this other = .ok m'' ∧ Wiped outside m m'' ∧ Stands m'' (v.put this bytes') := by
  obtain ⟨m',o,made,objects,-,wiped,stands'⟩ := init_ok stands null (stands.small other o' there) fresh
  rw [stands.size_eq there is'] at stands'
  have here : m'.objects this = some o := by rw [objects,Function.update_self]
  have there' : m'.objects other = some o' := by rw [objects,Function.update_of_ne apart,there]
  obtain ⟨m'',copied,-,kept,stands''⟩ := copyFrom_ok stands' here (Values.value_put _) there'
    ((Values.put_other _ apart).trans is') (by rw [List.length_map,List.length_range])
  rw [Values.put_put] at stands''
  exact ⟨m',o,m'',made,here,there',copied,wiped.trans (wiped_of_eq kept),stands''⟩

omit [DecidableEq ι] stands in
/-- No bytes are copied without a look at the pointers. -/
theorem copyFrom_zero (here : m.objects this = some o) (there : m.objects other = some o') (zero : o.size = 0) :
    m.copyFrom this other = .ok m := by
  rw [Memory.copyFrom,object_ok here,object_ok there,ok_bind,ok_bind,Memory.load,if_pos zero,ok_bind,Memory.store,if_pos rfl]

theorem constructCopy_ok (null : m.pointers this = none) (apart : other ≠ this) (there : m.objects other = some o')
    (is' : v other = some bytes') (fresh : m.heap.blocks outside.address = none) :
    ∃ m', m.constructCopy outside this other = .ok m' ∧ Wiped outside m m' ∧ Stands m' (v.put this bytes') := by
  obtain ⟨m',o,m'',made,here,there',copied,wiped,stands'⟩ := copy_ok stands null apart there is' fresh
  refine ⟨m'',?_,wiped,stands'⟩
  rw [Memory.constructCopy,object_ok there,ok_bind,made,ok_bind,object_ok here,ok_bind]
  split
  case isTrue zero => rw [← copied,copyFrom_zero here there' zero]
  case isFalse => exact copied

omit [DecidableEq Address] in
/-- An object without a block takes the one of another object over. -/
theorem takeOver_ok (null : m.pointers this = none) (there : m.objects other = some o') (is' : v other = some bytes') :
    ∃ m', m.takeOver this other = .ok m' ∧ m'.heap = m.heap ∧ Stands m' ((v.put this bytes').put other []) := by
  rw [Memory.takeOver,object_ok there,ok_bind]
  refine ⟨_,rfl,rfl,?_⟩
  have passed := stands.owns.pass (j := other) null
  rw [contents_eq is',pointers_eq there] at passed
  have others : ∀ i o, ((m.setObject this (some o')).setObject other (some ⟨none,0⟩)).objects i = some o →
      o = ⟨none,0⟩ ∨ o = o' ∨ m.objects i = some o := by
    intro i o here
    by_cases last : i = other
    · subst last
      exact .inl (by simpa using here.symm)
    · rw [setObject_other _ last] at here
      by_cases first : i = this
      · subst first
        exact .inr (.inl (by simpa using here.symm))
      · rw [setObject_other _ first] at here
        exact .inr (.inr here)
  refine ⟨?_,?_,?_,?_⟩
  · intro i
    by_cases last : i = other
    · subst last
      simp
    · rw [setObject_other _ last,Values.put_other _ last]
      by_cases first : i = this
      · subst first
        simp [stands.size_eq there is']
      · rw [setObject_other _ first,Values.put_other _ first,stands.sizes i]
  · intro i o here none_
    rcases others i o here with rfl | rfl | before
    · rfl
    · exact stands.null other _ there none_
    · exact stands.null i o before none_
  · intro i o here
    rcases others i o here with rfl | rfl | before
    · exact Nat.two_pow_pos 32
    · exact stands.small other _ there
    · exact stands.small i o before
  · rw [pointers_setObject,pointers_setObject,Values.contents_put,Values.contents_put]
    refine passed.congr fun i some_ => (Function.update_of_ne ?_ ..).symm
    rintro rfl
    simp at some_

/-- What the memory of a new object held before does not matter if it was a null pointer. -/
theorem constructMove_ok (absent : m.objects this = none) (before : Object Address) (null : before.buffer = none)
    (apart : other ≠ this) (there : m.objects other = some o') (is' : v other = some bytes') :
    ∃ m', m.constructMove outside this other before = .ok m' ∧ Wiped outside m m' ∧ Stands m' ((v.put this bytes').put other []) := by
  have set : (m.setObject this (some before)).object this = .ok before := object_ok (setObject_same _)
  have null' : m.pointers this = none := by
    rw [Memory.pointers,absent]
    rfl
  obtain ⟨m',taken,heap,stands'⟩ := takeOver_ok stands null' there is'
  refine ⟨m',?_,wiped_of_eq (by rw [heap]),stands'⟩
  rw [Memory.constructMove,Memory.destroy,set,ok_bind,null,ok_bind]
  rw [Memory.takeOver,object_ok there,ok_bind] at taken
  rw [Memory.takeOver,object_ok ((setObject_other _ apart).trans there),ok_bind,← taken]
  simp only [Memory.setObject,Function.update_idem]

theorem moveAssign_ok (here : m.objects this = some o) (is : v this = some bytes) (there : m.objects other = some o')
    (is' : v other = some bytes') :
    ∃ m', m.moveAssign outside this other = .ok m' ∧ Wiped outside m m' ∧ Stands m' ((v.put this bytes').put other []) := by
  obtain ⟨m',destroyed,objects,wiped,stands'⟩ := destroy_ok stands here is outside
  have null : m'.pointers this = none := by rw [Memory.pointers,objects,Function.update_self]; rfl
  rw [Memory.moveAssign,destroyed,ok_bind]
  by_cases same : other = this
  · subst same
    have here' : m'.objects other = some ⟨none,0⟩ := by rw [objects,Function.update_self]
    obtain ⟨m'',taken,heap,stands''⟩ := takeOver_ok stands' null here' (Values.value_put _)
    rw [Values.put_put,Values.put_put] at stands''
    exact ⟨m'',taken,wiped.trans (wiped_of_eq (by rw [heap])),by rw [Values.put_put]; exact stands''⟩
  · have there' : m'.objects other = some o' := by rw [objects,Function.update_of_ne same,there]
    obtain ⟨m'',taken,heap,stands''⟩ := takeOver_ok stands' null there' ((Values.put_other _ same).trans is')
    rw [Values.put_put] at stands''
    exact ⟨m'',taken,wiped.trans (wiped_of_eq (by rw [heap])),stands''⟩

theorem copyAssign_ok (here : m.objects this = some o) (is : v this = some bytes) (there : m.objects other = some o')
    (is' : v other = some bytes') (fresh : m.heap.blocks outside.address = none) :
    ∃ m', m.copyAssign outside this other = .ok m' ∧ Wiped outside m m' ∧ Stands m' (v.put this bytes') := by
  rw [Memory.copyAssign]
  split
  case isTrue same =>
    subst same
    obtain rfl := Option.some.inj (is.symm.trans is')
    exact ⟨m,rfl,wiped_of_eq rfl,by rw [Values.put_same is]; exact stands⟩
  case isFalse apart =>
    rw [object_ok here,object_ok there,ok_bind,ok_bind]
    split
    case isFalse same =>
      rw [not_not,stands.size_eq here is,stands.size_eq there is'] at same
      obtain ⟨m',copied,-,kept,stands'⟩ := copyFrom_ok stands here is there is' same
      exact ⟨m',copied,wiped_of_eq kept,stands'⟩
    case isTrue differ =>
      obtain ⟨m',destroyed,objects,wiped,stands'⟩ := destroy_ok stands here is outside
      have null : m'.pointers this = none := by rw [Memory.pointers,objects,Function.update_self]; rfl
      have there' : m'.objects other = some o' := by rw [objects,Function.update_of_ne (Ne.symm apart),there]
      have fresh' : m'.heap.blocks outside.address = none := by
        refine stands.fresh_of stands' (fun i a pointer => ?_) fresh
        by_cases first : i = this
        · subst first
          simp [null] at pointer
        · exact ⟨i,by rwa [Memory.pointers,objects,Function.update_of_ne first] at pointer⟩
      obtain ⟨m'',o'',last,made,-,-,copied,wiped',stands''⟩ := copy_ok stands' null (Ne.symm apart) there'
        ((Values.put_other _ (Ne.symm apart)).trans is') fresh'
      rw [Values.put_put] at stands''
      rw [destroyed,ok_bind,made,ok_bind]
      exact ⟨last,copied,wiped.trans wiped',stands''⟩

end Copies

/-- The object of a name can be given up when its block is. -/
theorem destruct_ok [DecidableEq Address] (stands : Stands m v) (here : m.objects this = some o) (is : v this = some bytes) :
    ∃ m', m.destruct outside this = .ok m' ∧ Wiped outside m m' ∧ Stands m' (Function.update v this none) := by
  obtain ⟨m',destroyed,objects,wiped,stands'⟩ := destroy_ok stands here is outside
  rw [Memory.destruct,destroyed,ok_bind]
  have null : m'.pointers this = none := by rw [Memory.pointers,objects,Function.update_self]; rfl
  have others : ∀ i o, (m'.setObject this none).objects i = some o → m'.objects i = some o := by
    intro i o there
    by_cases first : i = this
    · subst first
      simp at there
    · rwa [setObject_other _ first] at there
  refine ⟨_,rfl,wiped,?_,?_,?_,?_⟩
  · intro i
    by_cases first : i = this
    · subst first
      simp
    · rw [setObject_other _ first,Function.update_of_ne first,stands'.sizes i,Values.put_other _ first]
  · exact fun i o there => stands'.null i o (others i o there)
  · exact fun i o there => stands'.small i o (others i o there)
  · rw [pointers_setObject,Option.bind_none,← null,Function.update_eq_self]
    refine stands'.owns.congr fun i some_ => ?_
    have first : i ≠ this := by
      rintro rfl
      exact some_ null
    rw [Values.contents,Values.contents,Values.put_other _ first,Function.update_of_ne first]

/-! ### Single bytes -/

section Accesses

variable (stands : Stands m v)
include stands

omit [DecidableEq ι] in
theorem get_ok (here : m.objects this = some o) (is : v this = some bytes) (index : Nat) :
    m.get this index = MemoryBuffer.at bytes index := by
  have size := stands.size_eq here is
  rw [Memory.get,object_ok here,ok_bind,size,MemoryBuffer.at]
  split
  case isTrue beyond => rw [List.getElem?_eq_none beyond]
  case isFalse inside =>
    have below : index < bytes.length := by omega
    rw [stands.load here is index 1 (by omega),ok_bind,List.getElem?_eq_getElem below,List.take_one_drop_eq_of_lt_length below]
    rfl

variable [DecidableEq Address]

theorem set_ok (here : m.objects this = some o) (is : v this = some bytes) {index : Nat} (inside : index < bytes.length)
    (value : UInt8) :
    ∃ m', m.set this index value = .ok m' ∧ m'.objects = m.objects ∧ m'.heap.released = m.heap.released ∧
      Stands m' (v.put this (bytes.set index value)) := by
  obtain ⟨m',stored,objects,kept,stands'⟩ := store_ok stands here is index [value]
    (by rw [List.length_singleton]; omega)
  refine ⟨m',?_,objects,kept,?_⟩
  · rw [Memory.set,object_ok here,ok_bind,stands.size_eq here is,if_neg (by omega),stored]
  · rwa [List.set_eq_take_append_cons_drop,if_pos inside,← List.singleton_append,← List.append_assoc]

/-- The list in the middle of a sum. -/
def summed (bytes bytes' : List UInt8) (i : Nat) : List UInt8 :=
  List.zipWith (· ^^^ ·) (bytes.take i) (bytes'.take i) ++ bytes.drop i

omit stands [DecidableEq ι] [DecidableEq Address] in
theorem summed_step {bytes bytes' : List UInt8} {i : Nat} (inside : i < bytes.length) (inside' : i < bytes'.length) :
    (summed bytes bytes' i)[i]? = some bytes[i] ∧
      (summed bytes bytes' i).set i (bytes[i] ^^^ bytes'[i]) = summed bytes bytes' (i + 1) := by
  have front : (List.zipWith (· ^^^ ·) (bytes.take i) (bytes'.take i)).length = i := by
    rw [List.length_zipWith,List.length_take,List.length_take]
    omega
  have split_ : summed bytes bytes' i = List.zipWith (· ^^^ ·) (bytes.take i) (bytes'.take i) ++ bytes[i]::bytes.drop (i + 1) := by
    rw [summed,List.drop_eq_getElem_cons inside]
  have ends : (bytes.take i).length = (bytes'.take i).length := by
    rw [List.length_take,List.length_take]
    omega
  refine ⟨?_,?_⟩
  · rw [split_,List.getElem?_append_right (by omega),front,Nat.sub_self]
    rfl
  · rw [split_,List.set_append_right _ _ (by omega),front,Nat.sub_self,List.set_cons_zero,summed,
      List.take_succ_eq_append_getElem inside,List.take_succ_eq_append_getElem inside',List.zipWith_append ends,List.append_assoc]
    rfl

/-- The bytes of a sum are made one after another; also the sum of an object with itself. -/
theorem xorAssign_ok (outside : Outside Address) {o' : Object Address} {bytes' : List UInt8} (here : m.objects this = some o) (is : v this = some bytes)
    (there : m.objects other = some o') (is' : v other = some bytes') (same : bytes.length = bytes'.length) :
    ∃ m', m.xorAssign this other = .ok m' ∧ Wiped outside m m' ∧ Stands m' (v.put this (List.zipWith (· ^^^ ·) bytes bytes')) := by
  have size := stands.size_eq here is
  have size' := stands.size_eq there is'
  rw [Memory.xorAssign,object_ok here,object_ok there,ok_bind,ok_bind,if_neg (by omega),size]
  obtain ⟨m',looped,objects,kept,stands'⟩ : ∃ m', (List.range bytes.length).foldlM (Memory.xorByte this other) m = .ok m' ∧
      (m'.objects = m.objects ∧ m'.heap.released = m.heap.released ∧ Stands m' (v.put this (summed bytes bytes' bytes.length))) :=
    Loops.foldlM_range (fun i m' => m'.objects = m.objects ∧ m'.heap.released = m.heap.released ∧ Stands m' (v.put this (summed bytes bytes' i)))
    ⟨rfl,rfl,by rw [show summed bytes bytes' 0 = bytes from rfl,Values.put_same is]; exact stands⟩ (by
      rintro i inside m' ⟨objects,kept,stands'⟩
      have inside' : i < bytes'.length := by omega
      obtain ⟨at_,next⟩ := summed_step inside inside'
      have here' : m'.objects this = some o := objects ▸ here
      have there' : m'.objects other = some o' := objects ▸ there
      have old : m'.get this i = .ok bytes[i] := by
        rw [get_ok stands' here' (Values.value_put _),MemoryBuffer.at,at_]
      have value : m'.get other i = .ok bytes'[i] := by
        by_cases self : other = this
        · subst self
          obtain rfl := Option.some.inj (is.symm.trans is')
          exact old
        · rw [get_ok stands' there' ((Values.put_other _ self).trans is'),MemoryBuffer.at_of_lt inside']
      have long : i < (summed bytes bytes' i).length := (List.getElem?_eq_some_iff.mp at_).1
      obtain ⟨m'',assigned,objects',kept',stands''⟩ := set_ok stands' here' (Values.value_put _) long (bytes[i] ^^^ bytes'[i])
      rw [next,Values.put_put] at stands''
      exact ⟨m'',by rw [Memory.xorByte,value,ok_bind,old,ok_bind,assigned],objects'.trans objects,kept'.trans kept,stands''⟩)
  refine ⟨m',looped,wiped_of_eq kept,?_⟩
  rwa [summed,List.take_length,same,List.take_length,← same,List.drop_length,List.append_nil] at stands'

theorem xor_ok {result : ι} {o' : Object Address} {bytes' : List UInt8} (absent : m.objects result = none)
    (here : m.objects this = some o) (is : v this = some bytes) (there : m.objects other = some o') (is' : v other = some bytes')
    (same : bytes.length = bytes'.length) (fresh : m.heap.blocks outside.address = none) :
    ∃ m', m.xor outside result this other = .ok m' ∧ Wiped outside m m' ∧
      Stands m' (v.put result (List.zipWith (· ^^^ ·) bytes bytes')) := by
  have size := stands.size_eq here is
  have size' := stands.size_eq there is'
  have apart : ∀ {i o}, m.objects i = some o → i ≠ result := by
    rintro i o present rfl
    rw [absent] at present
    cases present
  rw [Memory.xor,object_ok here,object_ok there,ok_bind,ok_bind,if_neg (by omega)]
  obtain ⟨m',copied,wiped,stands'⟩ := constructCopy_ok stands (by rw [Memory.pointers,absent]; rfl) (apart here) here is fresh
  have same' : m'.objects result ≠ none ∧ m'.objects other ≠ none := by
    have present := stands'.sizes
    refine ⟨fun none_ => ?_,fun none_ => ?_⟩
    · have sizes := present result
      rw [none_,Values.value_put] at sizes
      cases sizes
    · have sizes := present other
      rw [none_,Values.put_other _ (apart there),is'] at sizes
      cases sizes
  obtain ⟨o₁,here'⟩ := Option.ne_none_iff_exists'.mp same'.1
  obtain ⟨o₂,there'⟩ := Option.ne_none_iff_exists'.mp same'.2
  obtain ⟨m'',summed_,wiped',stands''⟩ := xorAssign_ok stands' outside here' (Values.value_put _) there'
    ((Values.put_other _ (apart there)).trans is') same
  rw [Values.put_put] at stands''
  exact ⟨m'',by rw [copied,ok_bind,summed_],wiped.trans wiped',stands''⟩

theorem write_ok (here : m.objects this = some o) (is : v this = some bytes) {offset : Nat} {data : List UInt8}
    (inside : offset + data.length ≤ bytes.length) :
    ∃ m', m.write this offset data = .ok m' ∧ Wiped outside m m' ∧ Stands m' (v.put this (overwrite bytes offset data)) := by
  have size := stands.size_eq here is
  have small := stands.small this o here
  obtain ⟨m',stored,-,kept,stands'⟩ := store_ok stands here is offset data inside
  refine ⟨m',?_,wiped_of_eq kept,stands'⟩
  rw [Memory.write,object_ok here,ok_bind,word64_of_lt (by omega),if_neg (by omega),stored]

theorem fill_ok (here : m.objects this = some o) (is : v this = some bytes) (value : UInt8) :
    ∃ m', m.fill this value = .ok m' ∧ Wiped outside m m' ∧ Stands m' (v.put this (List.replicate bytes.length value)) := by
  have size := stands.size_eq here is
  rw [Memory.fill,object_ok here,ok_bind]
  split
  case isTrue nothing =>
    have none_ : bytes = [] := by
      rw [Bool.or_eq_true,Option.isNone_iff_eq_none,decide_eq_true_eq,size] at nothing
      exact nothing.elim (stands.nil_of_null here is) List.length_eq_zero_iff.mp
    subst none_
    refine ⟨m,rfl,wiped_of_eq rfl,?_⟩
    rw [List.length_nil,List.replicate_zero,Values.put_same is]
    exact stands
  case isFalse some_ =>
    have whole : (List.replicate o.size value).length = bytes.length := by rw [List.length_replicate,size]
    obtain ⟨m',filled,-,kept,stands'⟩ := store_ok stands here is 0 (List.replicate o.size value) (by omega)
    rw [Heap.overwrite_whole whole,size] at stands'
    rw [size] at filled ⊢
    exact ⟨m',filled,wiped_of_eq kept,stands'⟩

omit [DecidableEq ι] [DecidableEq Address] in
theorem equal_ok {o' : Object Address} {bytes' : List UInt8} (here : m.objects this = some o) (is : v this = some bytes)
    (there : m.objects other = some o') (is' : v other = some bytes') : m.equal this other = .ok (bytes = bytes') := by
  have size := stands.size_eq here is
  have size' := stands.size_eq there is'
  rw [Memory.equal,object_ok here,object_ok there,ok_bind,ok_bind]
  split
  case isTrue differ =>
    have apart : bytes ≠ bytes' := by
      rintro rfl
      exact differ (size.trans size'.symm)
    simp [apart]
  case isFalse same =>
    rw [not_not,size,size'] at same
    split
    case isTrue zero =>
      obtain rfl : bytes = [] := List.length_eq_zero_iff.mp (size.symm.trans zero)
      obtain rfl : bytes' = [] := List.length_eq_zero_iff.mp same.symm
      simp
    case isFalse some_ =>
      split
      case isTrue null =>
        rw [Bool.or_eq_true,Option.isNone_iff_eq_none,Option.isNone_iff_eq_none] at null
        rcases null with null | null
        · exact absurd (by rw [size,same,← size',stands.null other o' there null]) some_
        · exact absurd (stands.null this o here null) some_
      case isFalse =>
        have read := stands.load here is 0 o.size (by omega)
        have read' := stands.load there is' 0 o.size (by omega)
        rw [List.drop_zero,size,List.take_length] at read
        rw [List.drop_zero,size,same,List.take_length] at read'
        rw [size,read,ok_bind,same,read',ok_bind]

end Accesses

section Resized

variable [DecidableEq Address]

omit [DecidableEq Address] in
/-- The object takes over the block of the one that is left out. -/
theorem within_takeOver {wide : Memory (Option ι) Address} {w : Values (Option ι)} (stands : Stands wide w)
    (null : wide.pointers (some this) = none) (there : wide.objects none = some o) (is : w none = some bytes) :
    Stands ((within wide).setObject this (some o)) (Values.put (fun i => w (some i)) this bytes) := by
  obtain ⟨wide',taken,-,stands'⟩ := takeOver_ok stands null there is
  rw [Memory.takeOver,object_ok there,ok_bind] at taken
  obtain rfl := Except.ok.inj taken
  have narrow := within_stands stands' (by rw [pointers_setObject,Function.update_self]; rfl)
  have objects : within ((wide.setObject (some this) (some o)).setObject none (some ⟨none,0⟩)) =
      (within wide).setObject this (some o) := by
    simp only [within,Memory.setObject,Memory.mk.injEq,and_true]
    funext i
    rw [Function.update_of_ne (by simp)]
    by_cases here : i = this
    · rw [here,Function.update_self,Function.update_self]
    · rw [Function.update_of_ne (by simpa using here),Function.update_of_ne here]
  have values : (fun i => ((w.put (some this) bytes).put none []) (some i)) = Values.put (fun i => w (some i)) this bytes := by
    funext i
    rw [Values.put_other _ (by simp)]
    by_cases here : i = this
    · rw [here,Values.value_put,Values.value_put]
    · rw [Values.put_other _ (by simpa using here),Values.put_other _ here]
  rwa [objects,values] at narrow

omit [DecidableEq Address] in
theorem within_setObject (wide : Memory (Option ι) Address) (o : Option (Object Address)) :
    within (wide.setObject (some this) o) = (within wide).setObject this o := by
  simp only [within,Memory.setObject,Memory.mk.injEq,and_true]
  funext i
  by_cases here : i = this
  · rw [here,Function.update_self,Function.update_self]
  · rw [Function.update_of_ne (by simpa using here),Function.update_of_ne here]

omit [DecidableEq Address] in
theorem setObject_setObject (o o' : Option (Object Address)) : (m.setObject this o).setObject this o' = m.setObject this o' := by
  simp only [Memory.setObject,Function.update_idem]

omit [DecidableEq ι] [DecidableEq Address] in
/-- The bytes of a buffer that was resized: as many of the old ones as fit, and zeros. -/
theorem overwrite_zeros (bytes : List UInt8) (newSize : Nat) :
    overwrite (List.replicate newSize 0) 0 (bytes.take (min newSize bytes.length)) =
      bytes.take newSize ++ List.replicate (newSize - bytes.length) 0 := by
  have fits : bytes.take (min newSize bytes.length) = bytes.take newSize := by
    rw [← List.take_take,List.take_length]
  rw [overwrite,fits,List.take_zero,List.nil_append,List.drop_replicate,List.length_take]
  congr 2
  omega

/-- The parts of destroying an object that has a block. -/
theorem destroy_parts {wide wide' : Memory ι Address} {a : Address} (here : wide.objects this = some o) (points : o.buffer = some a)
    (destroyed : wide.destroy outside this = .ok wide') :
    ∃ wiped freed, wide.randomize outside this = .ok wiped ∧ wiped.delete a = .ok freed ∧
      wide' = freed.setObject this (some ⟨none,0⟩) := by
  rw [Memory.destroy,object_ok here,ok_bind,points] at destroyed
  obtain ⟨wiped,randomized,rest⟩ := bind_eq_ok.mp destroyed
  obtain ⟨freed,deleted,last⟩ := bind_eq_ok.mp rest
  exact ⟨wiped,freed,randomized,deleted,(Except.ok.inj last).symm⟩

theorem resize_ok (stands : Stands m v) (here : m.objects this = some o) (is : v this = some bytes) {newSize : Nat}
    (small : newSize < 2 ^ 32) (fresh : m.heap.blocks outside.address = none) :
    ∃ m' bytes', m.resize outside this newSize = .ok m' ∧ MemoryBuffer.resize bytes newSize = .ok bytes' ∧ Wiped outside m m' ∧
      Stands m' (v.put this bytes') := by
  have size := stands.size_eq here is
  have room : newSize < addressSpace := lt_trans small (by decide)
  rw [Memory.resize,object_ok here,ok_bind,MemoryBuffer.resize,size]
  by_cases same : newSize = bytes.length
  · rw [if_pos same,if_pos same]
    exact ⟨m,bytes,rfl,rfl,wiped_of_eq rfl,by rw [Values.put_same is]; exact stands⟩
  rw [if_neg same,if_neg same,if_pos room,allocate,if_pos room,ok_bind]
  -- the new block is the one more object's, and is cleared
  have block : ((List.range newSize).map outside.memory).length = newSize := by rw [List.length_map,List.length_range]
  have stands₀ := beside_stands stands fresh
    (show ((List.range newSize).map outside.memory).length < 2 ^ 32 by omega)
  rw [block] at stands₀
  obtain ⟨wide,zeroed,objects,kept,stands₁⟩ := store_ok stands₀ beside_none rfl 0 (List.replicate newSize 0)
    (by rw [List.length_replicate,block]; omega)
  rw [Heap.overwrite_whole (by rw [List.length_replicate,block])] at stands₁
  have zeroed' := within_store zeroed
  change Memory.store { m with heap := m.heap.alloc outside.address ((List.range newSize).map outside.memory) } _ _ _ = _ at zeroed'
  have new : wide.objects none = some ⟨some outside.address,newSize⟩ := by rw [objects]; rfl
  have old : wide.objects (some this) = some o := by rw [objects]; exact here
  rw [zeroed',ok_bind,Memory.moveOver,size]
  cases points : o.buffer with
  | none =>
    obtain rfl := stands.nil_of_null here is points
    have final := within_takeOver stands₁ ((pointers_eq old).trans points) new (Values.value_put _)
    refine ⟨_,_,rfl,rfl,wiped_of_eq kept,?_⟩
    have values : (fun i => (Values.put (fun i : Option ι => i.elim (some ((List.range newSize).map outside.memory)) v) none
        (List.replicate newSize 0)) (some i)) = v := by
      funext i
      rw [Values.put_other _ (by simp)]
      rfl
    rw [values] at final
    simpa using final
  | some a =>
    -- what fits is copied, then the old block is destroyed
    have front := stands₁.load old ((Values.put_other _ (by simp)).trans is) 0 (min newSize bytes.length)
      (by omega)
    rw [points,List.drop_zero] at front
    obtain ⟨wide₂,copied,objects₂,kept₂,stands₂⟩ := store_ok stands₁ new (Values.value_put _) 0
      (bytes.take (min newSize bytes.length)) (by rw [List.length_take,List.length_replicate]; omega)
    have old₂ : wide₂.objects (some this) = some o := by rw [objects₂]; exact old
    obtain ⟨wide₃,destroyed,objects₃,wiped,stands₃⟩ := destroy_ok stands₂ old₂
      ((Values.put_other _ (by simp)).trans ((Values.put_other _ (by simp)).trans is)) outside
    obtain ⟨randomized,freed,ran,deleted,rfl⟩ := destroy_parts old₂ points destroyed
    have new₃ : (freed.setObject (some this) (some ⟨none,0⟩)).objects none = some ⟨some outside.address,newSize⟩ := by
      rw [objects₃,Function.update_of_ne (by simp),objects₂,new]
    have final := within_takeOver stands₃ (by rw [pointers_setObject,Function.update_self]; rfl) new₃
      ((Values.put_other _ (by simp)).trans (Values.value_put _))
    have front' : (within wide).load (some a) 0 (min newSize bytes.length) = .ok (bytes.take (min newSize bytes.length)) := by
      rw [within_load,front]
    simp only [front',ok_bind,within_store copied,within_randomize ran,within_delete deleted]
    refine ⟨_,_,rfl,rfl,?_,?_⟩
    · intro cells inside
      exact (wiped cells inside).imp_left fun before => by rwa [kept₂,kept] at before
    · have values : (fun i => (((Values.put (fun i : Option ι => i.elim (some ((List.range newSize).map outside.memory)) v) none
          (List.replicate newSize 0)).put none (overwrite (List.replicate newSize 0) 0
            (bytes.take (min newSize bytes.length)))).put (some this) []) (some i)) = v.put this [] := by
        funext i
        by_cases here : i = this
        · rw [here,Values.value_put,Values.value_put]
        · rw [Values.put_other _ (by simpa using here),Values.put_other _ (by simp),Values.put_other _ (by simp),
            Values.put_other _ here]
          rfl
      rw [values,Values.put_put,overwrite_zeros,within_setObject,setObject_setObject] at final
      exact final

end Resized

end
end StegoDisk.Buffers
