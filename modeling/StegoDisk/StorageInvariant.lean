import StegoDisk.Bits
import StegoDisk.PermutationSizes
import StegoDisk.VirtualStorage

/-!
The members of a storage that has a raw capacity belong together, in every run of
operations in which the two slips of the class are avoided: a permutation that
replaces another keeps the flag of the old one, and an `ApplyPermutation` that throws
has often initialised the permutation anew already.
-/
namespace StegoDisk

namespace Permutation

/-- The objects there can be: new ones, and what an `Init` of one leaves, also when it throws. -/
inductive Made (env : Environment) : Permutation → Prop
  | fresh (t : PermutationType) : Made env (fresh t)
  | again {p : Permutation} (requestedSize : UInt64) (key : List UInt8) :
      Made env p → Made env (p.init env requestedSize.toNat key).1

variable {env : Environment}

/-- An initialised object holds the parameters of an `Init` that returned. -/
theorem Made.ready {p : Permutation} (made : Made env p) (initialized : p.initialized = true) (positive : 0 < p.size)
    (bound : p.size < 2 ^ 60) : p.Ready := by
  induction made with
  | fresh t => simp at initialized
  | @again p requestedSize key _ ih =>
    by_cases returns : (p.init env requestedSize.toNat key).2 = .ok ()
    · exact init_ready machine_exact requestedSize.toNat_lt positive bound (Prod.ext rfl returns)
    · rcases (init_refused returns).2 with kept | down
      · rw [kept] at initialized positive bound ⊢
        exact ih initialized positive bound
      · simp [down] at initialized

end Permutation

namespace VirtualStorage
open Permutation Feistel

/-- A call on a storage. -/
inductive Op (env : Environment)
  | setPermutation (p : Option {p : Permutation // Made env p})
  | unSetPermutation
  | applyPermutation (memory : Nat → UInt8) (requestedSize : UInt64) (key : List UInt8)
  | readByte (position : UInt64)
  | writeByte (position : UInt64) (value : UInt8)
  | read (offset length : UInt64)
  | write (offset : UInt64) (source : List UInt8)

variable {env : Environment}

/-- The storage after a call, whether it returned or threw. -/
def step (s : VirtualStorage) : Op env → VirtualStorage
  | .setPermutation p => (s.setPermutation (p.map (·.val))).1
  | .unSetPermutation => s.unSetPermutation
  | .applyPermutation memory requestedSize key => (s.applyPermutation env memory requestedSize.toNat key).1
  | .readByte _ => s
  | .writeByte position value =>
    match s.writeByte position.toNat value with
    | .ok s' => s'
    | .error _ => s
  | .read _ _ => s
  | .write offset source =>
    match s.write offset.toNat source with
    | .ok s' => s'
    | .error _ => s

/-- The storage after a sequence of calls on a new one. -/
def run (ops : List (Op env)) : VirtualStorage := ops.foldl step {}

/-- What a raw capacity promises: the buffer has that size, and the permutation is
    initialised with it, so that bytes are read and written at distinct places. -/
def Represents (s : VirtualStorage) : Prop :=
  ∀ n, s.getRawCapacity = .ok n →
    s.getUsableCapacity = .ok (n - storageHashLength) ∧ storageHashLength < n ∧
      ∃ data p f, s.data = some data ∧ data.length = n ∧ s.permutation = some p ∧ p.initialized = true ∧ p.size = n ∧
        Permutes n f ∧ ∀ i < n, s.readByte i = .ok (data.getD (f i) 0) ∧
          ∀ value, s.writeByte i value = .ok { s with data := some (data.set (f i) value) }

/-- The calls that keep the members together: once a permutation was applied, another one is
    set only when it is initialised with the same size, and `ApplyPermutation` is not
    called with a size for which it would throw after the permutation has changed. -/
def Careful (s : VirtualStorage) : Op env → Prop
  | .setPermutation (some p) => s.isSetPermutation = true → p.val.initialized = true ∧ p.val.size = s.rawCapacity
  | .applyPermutation _ requestedSize key =>
    s.isSetPermutation = true → ∀ p, s.permutation = some p →
      (p.init env requestedSize.toNat key).1 = p ∨
        ((p.init env requestedSize.toNat key).2 = .ok () ∧ storageHashLength < (p.init env requestedSize.toNat key).1.size ∧
          (p.init env requestedSize.toNat key).1.size < addressSpace)
  | _ => True

/-- Every call of a sequence is careful in the state it is made in. -/
def AllCareful (s : VirtualStorage) : List (Op env) → Prop
  | [] => True
  | op::rest => Careful s op ∧ AllCareful (s.step op) rest

/-- What the careful calls keep. -/
structure Together (env : Environment) (s : VirtualStorage) : Prop where
  made : ∀ p, s.permutation = some p → Made env p
  size : s.isSetPermutation = true → ∃ data, s.data = some data ∧ data.length = s.rawCapacity ∧
    storageHashLength < s.rawCapacity ∧ s.rawCapacity < addressSpace ∧
    s.usableCapacity = s.rawCapacity - storageHashLength
  agrees : s.isSetPermutation = true → ∀ p, s.permutation = some p → p.initialized = true ∧ p.size = s.rawCapacity

theorem Together.setPermutation {s : VirtualStorage} (together : Together env s) (p : {p : Permutation // Made env p})
    (careful : s.isSetPermutation = true → p.val.initialized = true ∧ p.val.size = s.rawCapacity) :
    Together env (s.setPermutation (some p.val)).1 := by
  have same : (s.setPermutation (some p.val)).1 = { s with permutation := some p.val } := by
    simp only [VirtualStorage.setPermutation,VirtualStorage.unSetPermutation]
    split <;> rfl
  rw [same]
  refine ⟨?_,together.size,?_⟩
  · rintro q ⟨⟩
    exact p.property
  · rintro isSet q ⟨⟩
    exact careful isSet

theorem Together.applyPermutation {s : VirtualStorage} (together : Together env s) (memory : Nat → UInt8)
    (requestedSize : UInt64) (key : List UInt8)
    (careful : Careful s (.applyPermutation memory requestedSize key : Op env)) :
    Together env (s.applyPermutation env memory requestedSize.toNat key).1 := by
  rcases holds : s.permutation with _ | p
  · simpa [VirtualStorage.applyPermutation,holds] using together
  have made := (together.made p holds).again requestedSize key
  rcases applyPermutation_cases holds requestedSize.toNat key with ⟨failure,outcome,wrong⟩ | ⟨returned,large,fits,outcome⟩
  · rw [outcome]
    refine ⟨?_,together.size,?_⟩
    · rintro q ⟨⟩
      exact made
    · rintro isSet q ⟨⟩
      rcases careful isSet p holds with same | ⟨returned,large,fits⟩
      · rw [same]
        exact together.agrees isSet p holds
      · rcases wrong with thrown | low | beyond
        · exact absurd returned thrown
        · omega
        · omega
  · rw [outcome]
    refine ⟨?_,?_,?_⟩
    · rintro q ⟨⟩
      exact made
    · intro _
      exact ⟨_,rfl,by simp,large,fits,rfl⟩
    · rintro _ q ⟨⟩
      exact ⟨init_initialized (Prod.ext rfl returned),rfl⟩

/-- A `WriteByte` that returns changes one byte of the buffer and nothing else. -/
theorem writeByte_eq_ok {s s' : VirtualStorage} {position : Nat} {value : UInt8}
    (written : s.writeByte position value = .ok s') :
    ∃ index data, s.data = some data ∧ s' = { s with data := some (data.set index value) } := by
  unfold writeByte at written
  obtain ⟨index,_,rest⟩ := bind_eq_ok.mp written
  rcases holds : s.data with _ | data
  · simp [holds] at rest
  · rw [holds] at rest
    obtain ⟨_,_,last⟩ := bind_eq_ok.mp rest
    exact ⟨index,data,rfl,(Except.ok.inj last).symm⟩

theorem splice_length {bytes block : List UInt8} {offset : Nat} (inside : offset + block.length ≤ bytes.length) :
    (splice bytes offset block).length = bytes.length := by
  simp only [splice,List.length_append,List.length_take,List.length_drop]
  omega

theorem splice_getD (bytes block : List UInt8) {start : Nat} (inside : start + block.length ≤ bytes.length) (j : Nat) :
    (splice bytes start block).getD j 0 =
      if start ≤ j ∧ j < start + block.length then block.getD (j - start) 0 else bytes.getD j 0 := by
  have front : (bytes.take start).length = start := by rw [List.length_take]; omega
  rw [splice,List.append_assoc]
  by_cases before : j < start
  · rw [if_neg (by omega),List.getD_append _ _ _ _ (by omega),Bits.getD_take bytes before]
  · rw [List.getD_append_right _ _ _ _ (by omega),front]
    by_cases inBlock : j < start + block.length
    · rw [if_pos ⟨by omega,inBlock⟩,List.getD_append _ _ _ _ (by omega)]
    · rw [if_neg (by omega),List.getD_append_right _ _ _ _ (by omega),Bits.getD_drop]
      congr 1
      omega

theorem splice_block (bytes block : List UInt8) {start : Nat} (inside : start + block.length ≤ bytes.length) :
    ((splice bytes start block).drop start).take block.length = block := by
  have front : (bytes.take start).length = start := by rw [List.length_take]; omega
  rw [splice,List.append_assoc,List.drop_left' front,List.take_left]

/-- A `Write` that returns changes bytes of the buffer and nothing else. -/
theorem write_eq_ok {s s' : VirtualStorage} {offset : Nat} {source : List UInt8}
    (written : s.write offset source = .ok s') :
    s' = s ∨ ∃ data, s.data = some data ∧ offset + source.length ≤ data.length ∧
      s' = { s with data := some (splice data offset source) } := by
  unfold write at written
  obtain ⟨data,checked,rest⟩ := bind_eq_ok.mp written
  by_cases nothing : source.length = 0
  · rw [if_pos nothing] at rest
    exact .inl (Except.ok.inj rest).symm
  · rw [if_neg nothing] at rest
    unfold userData at checked
    rcases holds : s.data with _ | held
    · simp [holds,nothing] at checked
      split at checked <;> simp at checked
    · simp only [holds,nothing,if_false] at checked
      split at checked
      · simp at checked
      split at checked
      · simp at checked
      split at checked
      · rename_i inside
        obtain rfl := Except.ok.inj checked
        exact .inr ⟨_,rfl,inside,(Except.ok.inj rest).symm⟩
      · simp at checked

theorem Together.data {s : VirtualStorage} (together : Together env s) {data changed : MemoryBuffer}
    (holds : s.data = some data) (same : changed.length = data.length) :
    Together env { s with data := some changed } := by
  refine ⟨together.made,?_,together.agrees⟩
  intro isSet
  obtain ⟨held,there,length,rest⟩ := together.size isSet
  rw [holds] at there
  obtain rfl := Option.some.inj there
  exact ⟨changed,rfl,same.trans length,rest⟩

/-- A careful call keeps the members together. -/
theorem Together.step {s : VirtualStorage} (together : Together env s) {op : Op env} (careful : Careful s op) :
    Together env (s.step op) := by
  cases op with
  | setPermutation p =>
    rcases p with _ | p
    · exact together
    · exact together.setPermutation p careful
  | unSetPermutation => exact ⟨by simp [VirtualStorage.step,unSetPermutation],together.size,
      by simp [VirtualStorage.step,unSetPermutation]⟩
  | applyPermutation memory requestedSize key => exact together.applyPermutation memory requestedSize key careful
  | readByte position => exact together
  | writeByte position value =>
    simp only [VirtualStorage.step]
    split
    · rename_i s' written
      obtain ⟨index,data,holds,rfl⟩ := writeByte_eq_ok written
      exact together.data holds (by simp)
    · exact together
  | read offset length => exact together
  | write offset source =>
    simp only [VirtualStorage.step]
    split
    · rename_i s' written
      rcases write_eq_ok written with rfl | ⟨data,holds,inside,rfl⟩
      · exact together
      · exact together.data holds (splice_length inside)
    · exact together

theorem Together.run {s : VirtualStorage} (together : Together env s) {ops : List (Op env)} (careful : AllCareful s ops) :
    Together env (ops.foldl VirtualStorage.step s) := by
  induction ops generalizing s with
  | nil => exact together
  | cons op rest ih => exact ih (together.step careful.1) careful.2

/-- Members that belong together are what a raw capacity promises. -/
theorem Together.represents {s : VirtualStorage} (together : Together env s) : s.Represents := by
  intro n capacity
  rcases holds : s.permutation with _ | p
  · simp [getRawCapacity,checkApplied,holds] at capacity
  by_cases isSet : s.isSetPermutation = true
  · simp only [getRawCapacity,checkApplied,holds,isSet,if_true,ok_bind,Except.ok.injEq] at capacity
    subst capacity
    obtain ⟨data,there,length,large,fits,usable⟩ := together.size isSet
    obtain ⟨initialized,size⟩ := together.agrees isSet p holds
    have ready := (together.made p holds).ready initialized (by omega) (by simp only [addressSpace] at fits; omega)
    obtain ⟨f,permutes,values⟩ := ready.permutes
    rw [size] at permutes values
    refine ⟨by simp [getUsableCapacity,checkApplied,holds,isSet,usable],large,data,p,f,there,length,rfl,initialized,
      size,permutes,?_⟩
    intro i inside
    have found : s.locate i = .ok (f i) := by
      rw [locate,if_neg (by omega),holds]
      exact values machine machine_exact i inside
    have below := permutes.lt inside
    constructor
    · rw [readByte,found,ok_bind,there]
      simp [MemoryBuffer.at_of_lt (show f i < data.length by omega),List.getD_eq_getElem?_getD,
        show f i < data.length by omega]
    · intro value
      rw [writeByte,found,ok_bind,there]
      simp [holds,MemoryBuffer.at_of_lt (show f i < data.length by omega)]
  · simp [getRawCapacity,checkApplied,holds,isSet] at capacity

/-- In every state that a sequence of careful calls on a new storage reaches, a raw
    capacity keeps its promise. -/
theorem run_represents (ops : List (Op env)) (careful : AllCareful {} ops) : (run ops).Represents := by
  have new : Together env {} := ⟨by simp,by simp,by simp⟩
  exact (new.run careful).represents

/-- A new identity permutation. -/
def freshIdentity : {p : Permutation // Made twoPrimes p} := ⟨fresh .identity,.fresh .identity⟩

/-- Setting and applying a permutation gives a storage that keeps its promise. -/
theorem run_represents_applied :
    (run [.setPermutation (some freshIdentity),.applyPermutation (fun _ => 0) 100 zeroKey]).Represents := by
  refine run_represents _ ⟨by simp [Careful],?_,trivial⟩
  simp [Careful,step,setPermutation]

/-- A second permutation, not initialised, is set after the first was applied: the raw
    capacity is still 100. -/
theorem run_replaced : ¬ (run [.setPermutation (some freshIdentity),.applyPermutation (fun _ => 0) 100 zeroKey,
    .setPermutation (some freshIdentity)]).Represents := by
  intro promise
  have state : (run [.setPermutation (some freshIdentity),.applyPermutation (fun _ => 0) 100 zeroKey,
      .setPermutation (some freshIdentity)]) =
      { permutation := some (fresh .identity), isSetPermutation := true, rawCapacity := 100, usableCapacity := 68,
        data := some ((List.range 100).map fun _ => 0) } := by
    rfl
  rw [state] at promise
  obtain ⟨_,_,_,p,_,_,_,holds,initialized,_⟩ := promise 100 rfl
  obtain rfl := Option.some.inj holds
  simp at initialized

end VirtualStorage
end StegoDisk
