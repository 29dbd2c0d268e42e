import StegoDisk.BufferValues

/-!
Whole runs of calls on buffers. A call relies on its names being those of objects that were constructed, or not yet, on
`new` giving memory that is free, on sizes below 2³², which the counter of `Randomize` needs, on ranges that do not go
beyond the 64-bit offsets, and, where an object is constructed by a move, on a null pointer in its memory.
-/
namespace StegoDisk.Buffers
open Memory

variable {ι Address : Type} [DecidableEq ι] [DecidableEq Address]

namespace Memory

/-- What is left to the caller. -/
def Proper (m : Memory ι Address) : Call ι Address → Prop
  | .construct this => m.objects this = none
  | .constructSize this newSize => m.objects this = none ∧ newSize < 2 ^ 32
  | .constructData this data => m.objects this = none ∧ data.length < 2 ^ 32
  | .constructCopy this other => m.objects this = none ∧ (m.objects other).isSome
  | .constructMove this other before => m.objects this = none ∧ (m.objects other).isSome ∧ before.buffer = none
  | .copyAssign this other | .moveAssign this other | .xorAssign this other | .equal this other =>
    (m.objects this).isSome ∧ (m.objects other).isSome
  | .xor result this other => m.objects result = none ∧ (m.objects this).isSome ∧ (m.objects other).isSome
  | .resize this newSize => (m.objects this).isSome ∧ newSize < 2 ^ 32
  | .write this offset data => (m.objects this).isSome ∧ offset + data.length < 2 ^ 64
  | .destruct this | .get this _ | .set this _ _ | .clear this | .randomize this | .fill this _ | .getSize this =>
    (m.objects this).isSome

/-- What is done, with what it finds outside of the program. -/
abbrev Step (ι Address : Type) := Outside Address × Call ι Address

def step (m : Memory ι Address) (op : Step ι Address) : Memory ι Address := (m.perform op.1 op.2).1

/-- The memory `new` gives is free, and the call is a proper one. -/
def Meets (m : Memory ι Address) (op : Step ι Address) : Prop := m.heap.blocks op.1.address = none ∧ m.Proper op.2

instance (m : Memory ι Address) : ∀ call, Decidable (m.Proper call)
  | .construct _ => inferInstanceAs (Decidable (_ = none))
  | .constructSize _ _ | .constructData _ _ => inferInstanceAs (Decidable (_ ∧ _))
  | .constructCopy _ _ => inferInstanceAs (Decidable (_ ∧ _))
  | .constructMove _ _ _ => inferInstanceAs (Decidable (_ ∧ _ ∧ _))
  | .copyAssign _ _ | .moveAssign _ _ | .xorAssign _ _ | .equal _ _ => inferInstanceAs (Decidable (_ ∧ _))
  | .xor _ _ _ => inferInstanceAs (Decidable (_ ∧ _ ∧ _))
  | .resize _ _ | .write _ _ _ => inferInstanceAs (Decidable (_ ∧ _))
  | .destruct _ | .get _ _ | .set _ _ _ | .clear _ | .randomize _ | .fill _ _ | .getSize _ =>
    inferInstanceAs (Decidable (_ = true))

instance (m : Memory ι Address) (op : Step ι Address) : Decidable (m.Meets op) := inferInstanceAs (Decidable (_ ∧ _))

/-- What calls answer one after another. -/
def answers (m : Memory ι Address) : List (Step ι Address) → List (Except Failure Answer)
  | [] => []
  | op::rest => (m.perform op.1 op.2).2::answers (m.step op) rest

/-- No object, and nothing on the heap. -/
def start : Memory ι Address := { objects := fun _ => none, heap := .empty }

end Memory

namespace Values

omit [DecidableEq Address]

def step (v : Values ι) (op : Memory.Step ι Address) : Values ι := (v.perform op.1 op.2).1

def answers (v : Values ι) : List (Memory.Step ι Address) → List (Except Failure Answer)
  | [] => []
  | op::rest => (v.perform op.1 op.2).2::answers (v.step op) rest

end Values

variable {m : Memory ι Address} {v : Values ι} {this other : ι} {outside : Outside Address}

/-! ### One call -/

/-- A call answers as it does on lists, and leaves the lists it leaves there. -/
def Agrees (outside : Outside Address) (m : Memory ι Address) (ran : Memory ι Address × Except Failure Answer)
    (ran' : Values ι × Except Failure Answer) : Prop :=
  ran.2 = ran'.2 ∧ Wiped outside m ran.1 ∧ Stands ran.1 ran'.1

omit [DecidableEq ι] [DecidableEq Address] in
theorem agrees_changed {ran : Except Failure (Memory ι Address)} {ran' : Except Failure (Values ι)} {v' : Values ι}
    (done : ∃ m', ran = .ok m' ∧ Wiped outside m m' ∧ Stands m' v') (same : ran' = .ok v') :
    Agrees outside m (Memory.changed m ran) (Memory.changed v ran') := by
  obtain ⟨m',rfl,wiped,stands'⟩ := done
  subst same
  exact ⟨rfl,wiped,stands'⟩

omit [DecidableEq ι] [DecidableEq Address] in
theorem agrees_thrown (stands : Stands m v) (failure : Failure) {ran : Except Failure (Memory ι Address)}
    {ran' : Except Failure (Values ι)} (thrown : ran = .error failure) (same : ran' = .error failure) :
    Agrees outside m (Memory.changed m ran) (Memory.changed v ran') := by
  subst thrown same
  exact ⟨rfl,wiped_of_eq rfl,stands⟩

omit [DecidableEq ι] [DecidableEq Address] in
theorem agrees_asked (stands : Stands m v) {answer answer' : Except Failure Answer} (same : answer = answer') :
    Agrees outside m (m,answer) (v,answer') :=
  ⟨same,wiped_of_eq rfl,stands⟩

omit [DecidableEq ι] [DecidableEq Address] in
/-- The object of a name and its list. -/
theorem Stands.both (stands : Stands m v) (present : (m.objects this).isSome) :
    ∃ o bytes, m.objects this = some o ∧ v this = some bytes := by
  obtain ⟨o,here⟩ := Option.isSome_iff_exists.mp present
  obtain ⟨bytes,is,-⟩ := stands.value_of here
  exact ⟨o,bytes,here,is⟩

omit [DecidableEq ι] [DecidableEq Address] in
theorem apart_of {o : Object Address} (absent : m.objects this = none) (here : m.objects other = some o) : other ≠ this := by
  rintro rfl
  rw [absent] at here
  cases here

omit [DecidableEq ι] [DecidableEq Address] in
theorem null_of (absent : m.objects this = none) : m.pointers this = none := by
  rw [Memory.pointers,absent]
  rfl

theorem perform_agrees (stands : Stands m v) {call : Call ι Address} (fresh : m.heap.blocks outside.address = none)
    (proper : m.Proper call) : Agrees outside m (m.perform outside call) (v.perform outside call) := by
  cases call with
  | construct this =>
    have absent : m.objects this = none := proper
    refine agrees_changed ⟨_,rfl,wiped_of_eq rfl,?_⟩ rfl
    refine stands.setObject rfl rfl (fun _ => rfl) (Nat.two_pow_pos 32) ?_
    rw [← null_of absent,Function.update_eq_self]
    refine stands.owns.congr fun i some_ => (Function.update_of_ne ?_ ..).symm
    rintro rfl
    exact some_ (null_of absent)
  | constructSize this newSize =>
    obtain ⟨absent,small⟩ : m.objects this = none ∧ newSize < 2 ^ 32 := proper
    obtain ⟨m',o,made,-,-,wiped,stands'⟩ := init_ok stands (null_of absent) small fresh
    have room : newSize < addressSpace := lt_trans small (by decide)
    exact agrees_changed ⟨m',made,wiped,stands'⟩ (by rw [allocate,if_pos room,ok_bind])
  | constructData this data =>
    obtain ⟨absent,small⟩ : m.objects this = none ∧ data.length < 2 ^ 32 := proper
    exact agrees_changed (constructData_ok stands (null_of absent) data small fresh) rfl
  | constructCopy this other =>
    obtain ⟨absent,present⟩ : m.objects this = none ∧ (m.objects other).isSome := proper
    obtain ⟨o,bytes,there,is⟩ := stands.both present
    exact agrees_changed (constructCopy_ok stands (null_of absent) (apart_of absent there) there is fresh)
      (by rw [value_ok is,ok_bind])
  | constructMove this other before =>
    obtain ⟨absent,present,null⟩ : m.objects this = none ∧ (m.objects other).isSome ∧ before.buffer = none := proper
    obtain ⟨o,bytes,there,is⟩ := stands.both present
    exact agrees_changed (constructMove_ok stands absent before null (apart_of absent there) there is)
      (by rw [value_ok is,ok_bind])
  | copyAssign this other =>
    obtain ⟨present,present'⟩ : (m.objects this).isSome ∧ (m.objects other).isSome := proper
    obtain ⟨o,bytes,here,is⟩ := stands.both present
    obtain ⟨o',bytes',there,is'⟩ := stands.both present'
    exact agrees_changed (copyAssign_ok stands here is there is' fresh) (by rw [value_ok is',ok_bind])
  | moveAssign this other =>
    obtain ⟨present,present'⟩ : (m.objects this).isSome ∧ (m.objects other).isSome := proper
    obtain ⟨o,bytes,here,is⟩ := stands.both present
    obtain ⟨o',bytes',there,is'⟩ := stands.both present'
    exact agrees_changed (moveAssign_ok stands here is there is') (by rw [value_ok is',ok_bind])
  | destruct this =>
    obtain ⟨o,bytes,here,is⟩ := stands.both proper
    exact agrees_changed (destruct_ok stands here is) rfl
  | resize this newSize =>
    obtain ⟨present,small⟩ : (m.objects this).isSome ∧ newSize < 2 ^ 32 := proper
    obtain ⟨o,bytes,here,is⟩ := stands.both present
    obtain ⟨m',bytes',resized,resized',wiped,stands'⟩ := resize_ok stands here is small fresh
    exact agrees_changed ⟨m',resized,wiped,stands'⟩ (by rw [value_ok is,ok_bind,resized',ok_bind])
  | get this index =>
    obtain ⟨o,bytes,here,is⟩ := stands.both proper
    exact agrees_asked stands (by rw [get_ok stands here is,value_ok is,ok_bind])
  | set this index value =>
    obtain ⟨o,bytes,here,is⟩ := stands.both proper
    by_cases inside : index < bytes.length
    · obtain ⟨m',assigned,-,kept,stands'⟩ := set_ok stands here is inside value
      exact agrees_changed ⟨m',assigned,wiped_of_eq kept,stands'⟩
        (by rw [value_ok is,ok_bind,MemoryBuffer.at_of_lt inside,ok_bind])
    · have beyond : bytes.length ≤ index := by omega
      refine agrees_thrown stands (.thrown (.outOfRange "MemoryBuffer: index out of range")) ?_ ?_
      · rw [Memory.set,object_ok here,ok_bind,stands.size_eq here is,if_pos beyond]
      · rw [value_ok is,ok_bind,MemoryBuffer.at,List.getElem?_eq_none beyond]
        rfl
  | xorAssign this other =>
    obtain ⟨present,present'⟩ : (m.objects this).isSome ∧ (m.objects other).isSome := proper
    obtain ⟨o,bytes,here,is⟩ := stands.both present
    obtain ⟨o',bytes',there,is'⟩ := stands.both present'
    by_cases same : bytes.length = bytes'.length
    · exact agrees_changed (xorAssign_ok stands outside here is there is' same)
        (by rw [value_ok is,ok_bind,value_ok is',ok_bind,Values.sum,if_pos same,ok_bind])
    · refine agrees_thrown stands (.thrown (.lengthError "MemoryBuffer: size must be equal to use xor operator")) ?_ ?_
      · rw [Memory.xorAssign,object_ok here,object_ok there,ok_bind,ok_bind,stands.size_eq here is,stands.size_eq there is',
          if_pos same]
      · rw [value_ok is,ok_bind,value_ok is',ok_bind,Values.sum,if_neg same,error_bind]
  | xor result this other =>
    obtain ⟨absent,present,present'⟩ : m.objects result = none ∧ (m.objects this).isSome ∧ (m.objects other).isSome := proper
    obtain ⟨o,bytes,here,is⟩ := stands.both present
    obtain ⟨o',bytes',there,is'⟩ := stands.both present'
    by_cases same : bytes.length = bytes'.length
    · exact agrees_changed (xor_ok stands absent here is there is' same fresh)
        (by rw [value_ok is,ok_bind,value_ok is',ok_bind,Values.sum,if_pos same,ok_bind])
    · refine agrees_thrown stands (.thrown (.lengthError "MemoryBuffer: size must be equal to use xor operator")) ?_ ?_
      · rw [Memory.xor,object_ok here,object_ok there,ok_bind,ok_bind,stands.size_eq here is,stands.size_eq there is',
          if_pos same]
      · rw [value_ok is,ok_bind,value_ok is',ok_bind,Values.sum,if_neg same,error_bind]
  | write this offset data =>
    obtain ⟨present,fits⟩ : (m.objects this).isSome ∧ offset + data.length < 2 ^ 64 := proper
    obtain ⟨o,bytes,here,is⟩ := stands.both present
    by_cases inside : offset + data.length ≤ bytes.length
    · exact agrees_changed (write_ok stands here is inside) (by rw [value_ok is,ok_bind,if_pos inside])
    · refine agrees_thrown stands (.thrown (.outOfRange "MemoryBuffer: write: offset + length > size")) ?_ ?_
      · rw [Memory.write,object_ok here,ok_bind,word64_of_lt fits,stands.size_eq here is,if_pos (by omega)]
      · rw [value_ok is,ok_bind,if_neg inside]
  | clear this =>
    obtain ⟨o,bytes,here,is⟩ := stands.both proper
    exact agrees_changed (fill_ok stands here is 0) (by rw [value_ok is,ok_bind])
  | randomize this =>
    obtain ⟨o,bytes,here,is⟩ := stands.both proper
    obtain ⟨m',ran,-,kept,stands'⟩ := randomize_ok stands here is outside
    exact agrees_changed ⟨m',ran,wiped_of_eq kept,stands'⟩ (by rw [value_ok is,ok_bind])
  | fill this value =>
    obtain ⟨o,bytes,here,is⟩ := stands.both proper
    exact agrees_changed (fill_ok stands here is value) (by rw [value_ok is,ok_bind])
  | equal this other =>
    obtain ⟨present,present'⟩ : (m.objects this).isSome ∧ (m.objects other).isSome := proper
    obtain ⟨o,bytes,here,is⟩ := stands.both present
    obtain ⟨o',bytes',there,is'⟩ := stands.both present'
    refine agrees_asked stands ?_
    rw [equal_ok stands here is there is',value_ok is,ok_bind,value_ok is',ok_bind]
    rfl
  | getSize this =>
    obtain ⟨o,bytes,here,is⟩ := stands.both proper
    refine agrees_asked stands ?_
    rw [object_ok here,value_ok is]
    exact congrArg (fun n => Except.ok (Answer.size n)) (stands.size_eq here is)

/-! ### Runs -/

theorem run_agrees {steps : List (Memory.Step ι Address)} (stands : Stands m v) (all : Runs.AllMeet Memory.step Meets m steps) :
    m.answers steps = v.answers steps ∧ Stands (Runs.run Memory.step m steps) (Runs.run Values.step v steps) ∧
      ∀ bytes ∈ (Runs.run Memory.step m steps).heap.released,
        bytes ∈ m.heap.released ∨ ∃ op ∈ steps, bytes = (List.range bytes.length).map op.1.noise := by
  induction steps generalizing m v with
  | nil => exact ⟨rfl,stands,fun bytes inside => .inl inside⟩
  | cons op rest ih =>
    obtain ⟨⟨fresh,proper⟩,later⟩ := all
    obtain ⟨same,wiped,stands'⟩ := perform_agrees stands fresh proper
    obtain ⟨answers_,stands'',released⟩ := ih stands' later
    refine ⟨congrArg₂ List.cons same answers_,stands'',fun bytes inside => ?_⟩
    rcases released bytes inside with before | ⟨op',member,noise⟩
    · exact (wiped bytes before).imp_right fun noise => ⟨op,List.mem_cons_self,noise⟩
    · exact .inr ⟨op',List.mem_cons_of_mem _ member,noise⟩

omit [DecidableEq ι] [DecidableEq Address] in
theorem start_stands : Stands (start : Memory ι Address) (fun _ => none) where
  sizes _ := rfl
  null _ _ here := by cases here
  small _ _ here := by cases here
  owns := Heap.owns_empty fun _ => rfl

/-- Whatever is done with buffers one after another, they answer as lists of their own do; each block belongs to one of
    them, what was given back had been written over, and without buffers the heap is empty. -/
theorem runs_values (steps : List (Memory.Step ι Address)) (all : Runs.AllMeet Memory.step Meets start steps) :
    Memory.answers start steps = Values.answers (fun _ => none) steps ∧
      Stands (Runs.run Memory.step start steps) (Runs.run Values.step (fun _ => none) steps) ∧
      (∀ bytes ∈ (Runs.run Memory.step start steps).heap.released,
        ∃ op ∈ steps, bytes = (List.range bytes.length).map op.1.noise) ∧
      ((∀ i, (Runs.run Memory.step start steps).objects i = none) →
        ∀ a, (Runs.run Memory.step start steps).heap.blocks a = none) := by
  obtain ⟨same,stands,released⟩ := run_agrees start_stands all
  refine ⟨same,stands,fun bytes inside => (released bytes inside).resolve_left (by simp [start,Heap.empty]),fun none_ a => ?_⟩
  exact stands.owns.lost (fun i => null_of (none_ i)) a

/-- One buffer is copied to another, which is added to it, and destroyed. -/
theorem runs_values_two : Memory.answers (start : Memory Bool Nat)
    [(⟨0,fun _ => 0,fun _ => 0⟩,.constructData true [7,9]),(⟨1,fun _ => 0,fun _ => 0⟩,.constructCopy false true),
      (⟨2,fun _ => 0,fun _ => 0⟩,.xorAssign true false),(⟨3,fun _ => 0,fun _ => 0⟩,.get true 1),
      (⟨4,fun _ => 0,fun _ => 5⟩,.destruct false)] = [.ok .done,.ok .done,.ok .done,.ok (.byte 0),.ok .done] :=
  (runs_values _ (by decide)).1.trans rfl

end StegoDisk.Buffers
