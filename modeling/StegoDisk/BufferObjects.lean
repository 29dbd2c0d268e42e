import StegoDisk.ContextFitness
import StegoDisk.Heap
import StegoDisk.Runs

/-!
`utils/memory_buffer.cc` with its memory: objects that hold a pointer and a size, and the heap their blocks stand in. What
a call finds outside of the program, where `new` puts a block, what that memory held and what a seeded generator gives,
comes with the call. Reaching outside of a block, or giving back what is none, is undefined; copying no bytes does
nothing, whatever the pointers are.
-/
namespace StegoDisk.Buffers

variable {ι Address : Type}

/-- `MemoryBuffer`. -/
structure Object (Address : Type) where
  /-- `buffer_`; no address is the null pointer. -/
  buffer : Option Address
  /-- `size_`. -/
  size : Nat

/-- The objects that were constructed and the heap. -/
structure Memory (ι Address : Type) where
  objects : ι → Option (Object Address)
  heap : Heap Address UInt8

/-- What a call finds outside of the program. -/
structure Outside (Address : Type) where
  /-- Where `new` puts a block. -/
  address : Address
  /-- What is there. -/
  memory : Nat → UInt8
  /-- What the generator gives that `Randomize` has seeded. -/
  noise : Nat → UInt8

namespace Memory

/-- The members of `this` or of another object. -/
def object (m : Memory ι Address) (this : ι) : Except Failure (Object Address) :=
  match m.objects this with
  | some o => .ok o
  | none => .error .undefined

/-- The bytes at a pointer. -/
def load (m : Memory ι Address) (p : Option Address) (offset length : Nat) : Except Failure (List UInt8) :=
  if length = 0 then .ok []
  else
    match p.bind fun a => m.heap.read a offset length with
    | some bytes => .ok bytes
    | none => .error .undefined

variable [DecidableEq Address]

def store (m : Memory ι Address) (p : Option Address) (offset : Nat) (source : List UInt8) : Except Failure (Memory ι Address) :=
  if source = [] then .ok m
  else
    match p.bind fun a => m.heap.write a offset source with
    | some heap => .ok { m with heap }
    | none => .error .undefined

/-- `delete[]`. -/
def delete (m : Memory ι Address) (a : Address) : Except Failure (Memory ι Address) :=
  match m.heap.delete a with
  | some heap => .ok { m with heap }
  | none => .error .undefined

/-- The loop of `Randomize`, watched for a number of rounds; its counter has 32 bits. -/
def randomizeLoop (outside : Outside Address) (p : Option Address) (size : Nat) :
    Nat → Nat → Memory ι Address → Except Failure (Memory ι Address)
  | 0,_,_ => .error .endless
  | rounds+1,i,m =>
    if i < size then do
      let m ← m.store p i [outside.noise i]
      randomizeLoop outside p size rounds (word32 (i + 1)) m
    else .ok m

/-- `MemoryBuffer::Randomize`. A counter that takes more rounds than it has values never leaves its loop. -/
def randomize (outside : Outside Address) (this : ι) (m : Memory ι Address) : Except Failure (Memory ι Address) := do
  let o ← m.object this
  if o.buffer.isNone || o.size = 0 then .ok m
  else do
    let m ← m.store o.buffer 0 (List.replicate o.size 0)
    randomizeLoop outside o.buffer o.size (2 ^ 32 + 1) 0 m

variable [DecidableEq ι]

def setObject (m : Memory ι Address) (this : ι) (o : Option (Object Address)) : Memory ι Address :=
  { m with objects := Function.update m.objects this o }

/-- `MemoryBuffer::Init`. -/
def init (outside : Outside Address) (this : ι) (newSize : Nat) (m : Memory ι Address) : Except Failure (Memory ι Address) :=
  if 0 < newSize then do
    let bytes ← allocate outside.memory newSize
    .ok ({ m with heap := m.heap.alloc outside.address bytes }.setObject this (some ⟨some outside.address,newSize⟩))
  else .ok (m.setObject this (some ⟨none,0⟩))

/-- `MemoryBuffer::Destroy`. -/
def destroy (outside : Outside Address) (this : ι) (m : Memory ι Address) : Except Failure (Memory ι Address) := do
  let o ← m.object this
  match o.buffer with
  | none => .ok m
  | some a => do
    let m ← m.randomize outside this
    let m ← m.delete a
    .ok (m.setObject this (some ⟨none,0⟩))

/-- `MemoryBuffer::MemoryBuffer(const uint8* data, std::size_t length)`. -/
def constructData (outside : Outside Address) (this : ι) (data : List UInt8) (m : Memory ι Address) :
    Except Failure (Memory ι Address) := do
  let m ← m.init outside this data.length
  let o ← m.object this
  if o.size = 0 then .ok m else m.store o.buffer 0 data

/-- `memcpy` from the block of another object. -/
def copyFrom (this other : ι) (m : Memory ι Address) : Except Failure (Memory ι Address) := do
  let o ← m.object this
  let o' ← m.object other
  let data ← m.load o'.buffer 0 o.size
  m.store o.buffer 0 data

/-- `MemoryBuffer::MemoryBuffer(const MemoryBuffer& other)`. -/
def constructCopy (outside : Outside Address) (this other : ι) (m : Memory ι Address) : Except Failure (Memory ι Address) := do
  let o' ← m.object other
  let m ← m.init outside this o'.size
  let o ← m.object this
  if o.size = 0 then .ok m else m.copyFrom this other

/-- What the other object of a move is left with. -/
def takeOver (this other : ι) (m : Memory ι Address) : Except Failure (Memory ι Address) := do
  let o ← m.object other
  .ok ((m.setObject this (some o)).setObject other (some ⟨none,0⟩))

/-- `MemoryBuffer::MemoryBuffer(MemoryBuffer&& other)`, which destroys what its memory held before. -/
def constructMove (outside : Outside Address) (this other : ι) (before : Object Address) (m : Memory ι Address) :
    Except Failure (Memory ι Address) := do
  let m ← (m.setObject this (some before)).destroy outside this
  m.takeOver this other

/-- `operator=(const MemoryBuffer& other)`. -/
def copyAssign (outside : Outside Address) (this other : ι) (m : Memory ι Address) : Except Failure (Memory ι Address) :=
  if this = other then .ok m
  else do
    let o ← m.object this
    let o' ← m.object other
    let m ← if o.size ≠ o'.size then do
        let m ← m.destroy outside this
        m.init outside this o'.size
      else .ok m
    m.copyFrom this other

/-- `operator=(MemoryBuffer&& other)`. -/
def moveAssign (outside : Outside Address) (this other : ι) (m : Memory ι Address) : Except Failure (Memory ι Address) := do
  let m ← m.destroy outside this
  m.takeOver this other

/-- `MemoryBuffer::~MemoryBuffer`. -/
def destruct (outside : Outside Address) (this : ι) (m : Memory ι Address) : Except Failure (Memory ι Address) := do
  let m ← m.destroy outside this
  .ok (m.setObject this none)

/-- What `Resize` does with the block an object had. -/
def moveOver (outside : Outside Address) (this : ι) (newSize : Nat) (o : Object Address) (m : Memory ι Address) :
    Except Failure (Memory ι Address) :=
  match o.buffer with
  | none => .ok m
  | some a => do
    let front ← m.load (some a) 0 (min newSize o.size)
    let m ← m.store (some outside.address) 0 front
    let m ← m.randomize outside this
    m.delete a

/-- `MemoryBuffer::Resize`. -/
def resize (outside : Outside Address) (this : ι) (newSize : Nat) (m : Memory ι Address) : Except Failure (Memory ι Address) := do
  let o ← m.object this
  if newSize = o.size then .ok m
  else do
    let bytes ← allocate outside.memory newSize
    let m ← Memory.store { m with heap := m.heap.alloc outside.address bytes } (some outside.address) 0
      (List.replicate newSize 0)
    let m ← m.moveOver outside this newSize o
    .ok (m.setObject this (some ⟨some outside.address,newSize⟩))

/-- `MemoryBuffer::operator[]` where it is read. -/
def get (this : ι) (index : Nat) (m : Memory ι Address) : Except Failure UInt8 := do
  let o ← m.object this
  if index ≥ o.size then .error (.thrown (.outOfRange "MemoryBuffer: index out of range"))
  else do
    let bytes ← m.load o.buffer index 1
    .ok (bytes.getD 0 0)

/-- `MemoryBuffer::operator[]` where it is assigned to. -/
def set (this : ι) (index : Nat) (value : UInt8) (m : Memory ι Address) : Except Failure (Memory ι Address) := do
  let o ← m.object this
  if index ≥ o.size then .error (.thrown (.outOfRange "MemoryBuffer: index out of range"))
  else m.store o.buffer index [value]

/-- `(*this)[i] ^= other[i]`. -/
def xorByte (this other : ι) (m : Memory ι Address) (i : Nat) : Except Failure (Memory ι Address) := do
  let value ← m.get other i
  let old ← m.get this i
  m.set this i (old ^^^ value)

/-- `MemoryBuffer::operator^=`. -/
def xorAssign (this other : ι) (m : Memory ι Address) : Except Failure (Memory ι Address) := do
  let o ← m.object this
  let o' ← m.object other
  if o.size ≠ o'.size then .error (.thrown (.lengthError "MemoryBuffer: size must be equal to use xor operator"))
  else (List.range o.size).foldlM (xorByte this other) m

/-- `MemoryBuffer::operator^`, whose result is built where it is wanted. -/
def xor (outside : Outside Address) (result this other : ι) (m : Memory ι Address) : Except Failure (Memory ι Address) := do
  let o ← m.object this
  let o' ← m.object other
  if o.size ≠ o'.size then .error (.thrown (.lengthError "MemoryBuffer: size must be equal to use xor operator"))
  else do
    let m ← m.constructCopy outside result this
    m.xorAssign result other

/-- `MemoryBuffer::Write`. -/
def write (this : ι) (offset : Nat) (data : List UInt8) (m : Memory ι Address) : Except Failure (Memory ι Address) := do
  let o ← m.object this
  if word64 (offset + data.length) > o.size then
    .error (.thrown (.outOfRange "MemoryBuffer: write: offset + length > size"))
  else m.store o.buffer offset data

/-- `MemoryBuffer::Fill` and, with zero, `MemoryBuffer::Clear`. -/
def fill (this : ι) (value : UInt8) (m : Memory ι Address) : Except Failure (Memory ι Address) := do
  let o ← m.object this
  if o.buffer.isNone || o.size = 0 then .ok m
  else m.store o.buffer 0 (List.replicate o.size value)

/-- `MemoryBuffer::operator==`. -/
def equal (this other : ι) (m : Memory ι Address) : Except Failure Bool := do
  let o ← m.object this
  let o' ← m.object other
  if o.size ≠ o'.size then .ok false
  else if o.size = 0 then .ok true
  else if o'.buffer.isNone || o.buffer.isNone then .ok false
  else do
    let bytes ← m.load o.buffer 0 o.size
    let bytes' ← m.load o'.buffer 0 o.size
    .ok (bytes = bytes')

/-! ### Calls -/

/-- What is done with objects. -/
inductive Call (ι Address : Type)
  | construct (this : ι)
  | constructSize (this : ι) (newSize : Nat)
  | constructData (this : ι) (data : List UInt8)
  | constructCopy (this other : ι)
  | constructMove (this other : ι) (before : Object Address)
  | copyAssign (this other : ι)
  | moveAssign (this other : ι)
  | destruct (this : ι)
  | resize (this : ι) (newSize : Nat)
  | get (this : ι) (index : Nat)
  | set (this : ι) (index : Nat) (value : UInt8)
  | xorAssign (this other : ι)
  | xor (result this other : ι)
  | write (this : ι) (offset : Nat) (data : List UInt8)
  | clear (this : ι)
  | randomize (this : ι)
  | fill (this : ι) (value : UInt8)
  | equal (this other : ι)
  | getSize (this : ι)

inductive Answer
  | done
  | byte (value : UInt8)
  | truth (value : Bool)
  | size (n : Nat)
  deriving DecidableEq

/-- A call that changes the memory if it returns. -/
def changed {σ : Type} (s : σ) : Except Failure σ → σ × Except Failure Answer
  | .ok s' => (s',.ok .done)
  | .error failure => (s,.error failure)

def perform (m : Memory ι Address) (outside : Outside Address) : Call ι Address → Memory ι Address × Except Failure Answer
  | .construct this => changed m (.ok (m.setObject this (some ⟨none,0⟩)))
  | .constructSize this newSize => changed m (m.init outside this newSize)
  | .constructData this data => changed m (m.constructData outside this data)
  | .constructCopy this other => changed m (m.constructCopy outside this other)
  | .constructMove this other before => changed m (m.constructMove outside this other before)
  | .copyAssign this other => changed m (m.copyAssign outside this other)
  | .moveAssign this other => changed m (m.moveAssign outside this other)
  | .destruct this => changed m (m.destruct outside this)
  | .resize this newSize => changed m (m.resize outside this newSize)
  | .get this index => (m,(m.get this index).map .byte)
  | .set this index value => changed m (m.set this index value)
  | .xorAssign this other => changed m (m.xorAssign this other)
  | .xor result this other => changed m (m.xor outside result this other)
  | .write this offset data => changed m (m.write this offset data)
  | .clear this => changed m (m.fill this 0)
  | .randomize this => changed m (m.randomize outside this)
  | .fill this value => changed m (m.fill this value)
  | .equal this other => (m,(m.equal this other).map .truth)
  | .getSize this => (m,(m.object this).map fun o => .size o.size)

end Memory
end StegoDisk.Buffers
