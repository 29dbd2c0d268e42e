import StegoDisk.Loops
import StegoDisk.StorageInvariant

/-!
`Read` and `Write` as a user calls them. A call is meant to succeed exactly when its
range lies in front of the checksum. Both check the sum of offset and length, which is
taken in 64 bits: a range whose end comes back around to the usable area passes the
check, and the copy then goes far beyond the buffer.
-/
namespace StegoDisk.VirtualStorage

/-- What a user asks of a storage, with arguments of 64 bits. -/
inductive Access
  | read (offset length : UInt64)
  | write (offset : UInt64) (source : {bytes : List UInt8 // bytes.length < 2 ^ 64})

namespace Access

def offset : Access → Nat
  | .read offset _ => offset.toNat
  | .write offset _ => offset.toNat

def length : Access → Nat
  | .read _ length => length.toNat
  | .write _ source => source.val.length

/-- The range of the call ends in the usable area. -/
def InRange (call : Access) (usable : Nat) : Prop := call.offset + call.length ≤ usable

instance (call : Access) (usable : Nat) : Decidable (call.InRange usable) := inferInstanceAs (Decidable (_ ≤ _))

/-- The end of the range comes back around to the usable area. -/
def ComesAround (call : Access) (usable : Nat) : Prop :=
  2 ^ 64 ≤ call.offset + call.length ∧ call.offset + call.length ≤ 2 ^ 64 + usable

instance (call : Access) (usable : Nat) : Decidable (call.ComesAround usable) := inferInstanceAs (Decidable (_ ∧ _))

/-- The byte that a write puts at a position. -/
def put : Access → Nat → Option UInt8
  | .read _ _,_ => none
  | .write offset source,k =>
    if offset.toNat ≤ k ∧ k < offset.toNat + source.val.length then some (source.val.getD (k - offset.toNat) 0) else none

/-- The value of a byte after some calls: what the last write in range that covers it has put there. -/
def lastWritten (usable : Nat) (loaded : Nat → UInt8) (calls : List Access) (k : Nat) : UInt8 :=
  (calls.reverse.findSome? fun call => if call.InRange usable then call.put k else none).getD (loaded k)

theorem lastWritten_append (usable : Nat) (loaded : Nat → UInt8) (calls : List Access) (call : Access) (k : Nat) :
    lastWritten usable loaded (calls ++ [call]) k =
      if call.InRange usable then (call.put k).getD (lastWritten usable loaded calls k)
      else lastWritten usable loaded calls k := by
  simp only [lastWritten,List.reverse_append,List.reverse_singleton,List.singleton_append,List.findSome?_cons]
  by_cases inRange : call.InRange usable
  · simp only [inRange,if_true]
    cases call.put k <;> rfl
  · simp only [inRange,if_false]

end Access

/-- A call, and the storage after it. -/
def perform (s : VirtualStorage) : Access → VirtualStorage × Except Failure (List UInt8)
  | .read offset length => (s,s.read offset.toNat length.toNat)
  | .write offset source =>
    match s.write offset.toNat source.val with
    | .ok s' => (s',.ok [])
    | .error failure => (s,.error failure)

/-- The storage after a sequence of calls. -/
def after (s : VirtualStorage) (calls : List Access) : VirtualStorage := calls.foldl (fun s call => (s.perform call).1) s

/-- What a call owes to its user, given the values that the bytes of the usable area should have. -/
structure Meets (s : VirtualStorage) (value : Nat → UInt8) (call : Access) : Prop where
  succeeds : (∃ bytes, (s.perform call).2 = .ok bytes) ↔ call.InRange s.usableCapacity
  rejects : ¬ call.InRange s.usableCapacity → Throws (s.perform call).2 ∧ (s.perform call).1 = s
  changes : call.InRange s.usableCapacity → ∃ data changed, s.data = some data ∧
    (s.perform call).1 = { s with data := some changed } ∧ changed.length = data.length ∧
    (∀ k, changed.getD k 0 = (call.put k).getD (data.getD k 0)) ∧
    ∀ k, s.usableCapacity ≤ k → changed.getD k 0 = data.getD k 0
  returns : ∀ offset length bytes, call = .read offset length → (s.perform call).2 = .ok bytes →
    bytes.length = length.toNat ∧ ∀ j < length.toNat, bytes.getD j 0 = value (offset.toNat + j)

/-- The bytes of the buffer. -/
def byte (s : VirtualStorage) (k : Nat) : UInt8 := (s.data.getD []).getD k 0

/-- Every call of a sequence does what it owes. -/
def Contained (s : VirtualStorage) (calls : List Access) : Prop :=
  ∀ before call rest, calls = before ++ call::rest →
    (s.after before).Meets (Access.lastWritten s.usableCapacity s.byte before) call

/-- What `ApplyPermutation` leaves. -/
def Sized (s : VirtualStorage) : Prop :=
  ∃ data, s.data = some data ∧ data.length = s.usableCapacity + storageHashLength ∧ data.length < addressSpace

theorem applyPermutation_sized {env : Environment} {memory : Nat → UInt8} {s t : VirtualStorage} {requestedSize : Nat}
    {key : List UInt8} (applied : s.applyPermutation env memory requestedSize key = (t,.ok ())) : t.Sized := by
  rcases holds : s.permutation with _ | p
  · simp [applyPermutation,holds] at applied
  rcases applyPermutation_cases holds requestedSize key with ⟨failure,outcome,_⟩ | ⟨_,large,fits,outcome⟩
  · rw [applied] at outcome
    cases (Prod.mk.inj outcome).2
  · rw [applied] at outcome
    obtain rfl := (Prod.mk.inj outcome).1
    refine ⟨_,rfl,?_,?_⟩
    · rw [List.length_map,List.length_range,Nat.sub_add_cancel large.le]
    · rwa [List.length_map,List.length_range]

theorem Sized.data {s : VirtualStorage} (sized : s.Sized) {data changed : MemoryBuffer} (holds : s.data = some data)
    (same : changed.length = data.length) : Sized { s with data := some changed } := by
  obtain ⟨held,there,length,fits⟩ := sized
  rw [holds] at there
  obtain rfl := Option.some.inj there
  exact ⟨changed,rfl,same.trans length,by omega⟩

theorem Sized.load {s t : VirtualStorage} (sized : s.Sized) {loads : List (Nat × UInt8)}
    (loaded : loads.foldlM (fun (s : VirtualStorage) load => s.writeByte load.1 load.2) s = .ok t) : t.Sized := by
  refine Loops.foldlM_keeps Sized ?_ loaded sized
  intro load s s' written sized
  obtain ⟨index,data,holds,rfl⟩ := writeByte_eq_ok written
  exact sized.data holds (by simp)

/-! ### One call -/

theorem Access.word64_end (call : Access) : call.offset + call.length < 2 ^ 65 := by
  cases call with
  | read offset length =>
    have first := offset.toNat_lt
    have second := length.toNat_lt
    simp only [Access.offset,Access.length]
    omega
  | write offset source =>
    have first := offset.toNat_lt
    have second := source.property
    simp only [Access.offset,Access.length]
    omega

/-- A range in the usable area passes the checks, one that comes around passes the first of them, and
    any other is refused. -/
theorem Sized.userData {s : VirtualStorage} (sized : s.Sized) (call : Access) :
    (call.InRange s.usableCapacity ∧ ∃ data, s.data = some data ∧ call.offset + call.length ≤ data.length ∧
      s.userData call.offset call.length = .ok (if call.length = 0 then [] else data)) ∨
    (call.ComesAround s.usableCapacity ∧ s.userData call.offset call.length = .error .undefined) ∨
    (¬ call.InRange s.usableCapacity ∧ ¬ call.ComesAround s.usableCapacity ∧
      s.userData call.offset call.length = .error (.thrown (.outOfRange "index out of range"))) := by
  obtain ⟨data,holds,length,fits⟩ := sized
  have last := call.word64_end
  have hash : storageHashLength = 32 := rfl
  have space : addressSpace ≤ 2 ^ 63 := by decide
  unfold Access.InRange Access.ComesAround
  by_cases around : 2 ^ 64 ≤ call.offset + call.length
  · have wrapped : word64 (call.offset + call.length) = call.offset + call.length - 2 ^ 64 := by
      unfold word64
      omega
    by_cases low : call.offset + call.length ≤ 2 ^ 64 + s.usableCapacity
    · have some : call.length ≠ 0 := by
        have offset : call.offset < 2 ^ 64 := by cases call <;> exact UInt64.toNat_lt _
        omega
      refine .inr (.inl ⟨⟨around,low⟩,?_⟩)
      rw [VirtualStorage.userData,wrapped,if_neg (by omega),if_neg some,holds]
      simp only [show data.length ≠ 0 by omega,show ¬ call.offset + call.length ≤ data.length by omega,if_false]
    · refine .inr (.inr ⟨by omega,by omega,?_⟩)
      rw [VirtualStorage.userData,wrapped,if_pos (by omega)]
  · have exactly : word64 (call.offset + call.length) = call.offset + call.length := word64_of_lt (by omega)
    by_cases inRange : call.offset + call.length ≤ s.usableCapacity
    · refine .inl ⟨inRange,data,holds,by omega,?_⟩
      rw [VirtualStorage.userData,exactly,if_neg (by omega)]
      by_cases nothing : call.length = 0
      · simp only [nothing,if_true]
      · simp only [nothing,holds,show data.length ≠ 0 by omega,show call.offset + call.length ≤ data.length by omega,
          if_true,if_false]
    · refine .inr (.inr ⟨inRange,by omega,?_⟩)
      rw [VirtualStorage.userData,exactly,if_pos (by omega)]

/-- What a call in range does. -/
structure Done (s : VirtualStorage) (call : Access) (data changed : MemoryBuffer) (bytes : List UInt8) : Prop where
  holds : s.data = some data
  ran : s.perform call = ({ s with data := some changed },.ok bytes)
  length : changed.length = data.length
  bytes_eq : ∀ k, changed.getD k 0 = (call.put k).getD (data.getD k 0)
  read_eq : ∀ offset length, call = .read offset length →
    bytes.length = length.toNat ∧ ∀ j < length.toNat, bytes.getD j 0 = data.getD (offset.toNat + j) 0

theorem Sized.done {s : VirtualStorage} {call : Access} {data : MemoryBuffer} (holds : s.data = some data)
    (inside : call.offset + call.length ≤ data.length)
    (checked : s.userData call.offset call.length = .ok (if call.length = 0 then [] else data)) :
    ∃ changed bytes, s.Done call data changed bytes := by
  have same : { s with data := some data } = s := by rw [← holds]
  cases call with
  | read offset length =>
    simp only [Access.offset,Access.length] at inside checked
    refine ⟨data,((if length.toNat = 0 then [] else data).drop offset.toNat).take length.toNat,holds,?_,rfl,fun _ => rfl,?_⟩
    · simp only [VirtualStorage.perform,VirtualStorage.read,checked,ok_bind,same]
      rfl
    · rintro _ _ ⟨⟩
      by_cases nothing : length.toNat = 0
      · simp [nothing]
      · simp only [nothing,if_false]
        refine ⟨by simp only [List.length_take,List.length_drop]; omega,?_⟩
        intro j below
        rw [Bits.getD_take _ below,Bits.getD_drop]
  | write offset source =>
    simp only [Access.offset,Access.length] at inside checked
    by_cases nothing : source.val.length = 0
    · simp only [nothing,if_true] at checked
      refine ⟨data,[],holds,?_,rfl,?_,fun _ _ read => by cases read⟩
      · simp only [VirtualStorage.perform,VirtualStorage.write,nothing,checked,ok_bind,if_true,same]
      · intro k
        rw [Access.put,if_neg (by omega)]
        rfl
    · refine ⟨splice data offset.toNat source.val,[],holds,?_,splice_length inside,?_,fun _ _ read => by cases read⟩
      · simp only [perform,VirtualStorage.write,checked,nothing,ok_bind,if_false]
      · intro k
        rw [splice_getD _ _ inside,Access.put]
        split <;> rfl

/-- A call in range is done, one that comes around is undefined, and any other is refused. -/
theorem Sized.perform {s : VirtualStorage} (sized : s.Sized) (call : Access) :
    (call.InRange s.usableCapacity ∧ ∃ data changed bytes, s.Done call data changed bytes) ∨
    (call.ComesAround s.usableCapacity ∧ s.perform call = (s,.error .undefined)) ∨
    (¬ call.InRange s.usableCapacity ∧ ¬ call.ComesAround s.usableCapacity ∧
      s.perform call = (s,.error (.thrown (.outOfRange "index out of range")))) := by
  have failed : ∀ failure, s.userData call.offset call.length = .error failure → s.perform call = (s,.error failure) := by
    intro failure checked
    cases call <;> simp only [Access.offset,Access.length] at checked <;>
      simp only [VirtualStorage.perform,VirtualStorage.read,VirtualStorage.write,checked,error_bind]
  rcases sized.userData call with ⟨inRange,data,holds,inside,checked⟩ | ⟨around,checked⟩ | ⟨outside,straight,checked⟩
  · obtain ⟨changed,bytes,done⟩ := Sized.done holds inside checked
    exact .inl ⟨inRange,data,changed,bytes,done⟩
  · exact .inr (.inl ⟨around,failed _ checked⟩)
  · exact .inr (.inr ⟨outside,straight,failed _ checked⟩)

/-- No call changes the capacity or the size of the buffer. -/
theorem Sized.kept {s : VirtualStorage} (sized : s.Sized) (call : Access) :
    (s.perform call).1.Sized ∧ (s.perform call).1.usableCapacity = s.usableCapacity := by
  rcases sized.perform call with ⟨_,data,changed,bytes,done⟩ | ⟨_,ran⟩ | ⟨_,_,ran⟩
  · rw [done.ran]
    exact ⟨sized.data done.holds done.length,rfl⟩
  · rw [ran]
    exact ⟨sized,rfl⟩
  · rw [ran]
    exact ⟨sized,rfl⟩

/-- A call that does not come around does what it owes, as long as the bytes of the usable area
    are what they should be. -/
theorem Sized.meets {s : VirtualStorage} (sized : s.Sized) {call : Access} (straight : ¬ call.ComesAround s.usableCapacity)
    {value : Nat → UInt8} (values : ∀ k < s.usableCapacity, s.byte k = value k) : s.Meets value call := by
  rcases sized.perform call with ⟨inRange,data,changed,bytes,done⟩ | ⟨around,_⟩ | ⟨outside,_,ran⟩
  · refine ⟨?_,fun outside => absurd inRange outside,?_,?_⟩
    · rw [done.ran]
      exact ⟨fun _ => inRange,fun _ => ⟨bytes,rfl⟩⟩
    · refine fun _ => ⟨data,changed,done.holds,by rw [done.ran],done.length,done.bytes_eq,?_⟩
      intro k behind
      have untouched : call.put k = none := by
        cases call with
        | read offset length => rfl
        | write offset source =>
          simp only [Access.InRange,Access.offset,Access.length] at inRange
          rw [Access.put,if_neg (by omega)]
      rw [done.bytes_eq,untouched]
      rfl
    · rintro offset length returned rfl ran
      rw [done.ran] at ran
      obtain rfl := Except.ok.inj ran
      obtain ⟨size,copied⟩ := done.read_eq offset length rfl
      refine ⟨size,?_⟩
      intro j below
      simp only [Access.InRange,Access.offset,Access.length] at inRange
      rw [copied j below,← values _ (by omega),byte,done.holds]
      rfl
  · exact absurd around straight
  · refine ⟨?_,fun _ => ⟨⟨_,by rw [ran]⟩,by rw [ran]⟩,fun inRange => absurd inRange outside,?_⟩
    · rw [ran]
      exact ⟨fun ⟨_,returned⟩ => (by cases returned),fun inRange => absurd inRange outside⟩
    · rintro offset length returned _ ok
      rw [ran] at ok
      cases ok

/-- A call that comes around does not. -/
theorem Sized.not_meets {s : VirtualStorage} (sized : s.Sized) {call : Access} (around : call.ComesAround s.usableCapacity)
    (value : Nat → UInt8) : ¬ s.Meets value call := by
  intro meets
  have outside : ¬ call.InRange s.usableCapacity := by
    obtain ⟨data,_,length,fits⟩ := sized
    have space : addressSpace ≤ 2 ^ 63 := by decide
    have beyond := around.1
    unfold Access.InRange
    omega
  rcases sized.perform call with ⟨inRange,_⟩ | ⟨_,ran⟩ | ⟨_,straight,_⟩
  · exact outside inRange
  · obtain ⟨⟨e,refused⟩,_⟩ := meets.rejects outside
    rw [ran] at refused
    cases refused
  · exact straight around

/-! ### Sequences of calls -/

theorem after_append (s : VirtualStorage) (calls : List Access) (call : Access) :
    s.after (calls ++ [call]) = ((s.after calls).perform call).1 := by
  simp [after]

/-- After calls that do not come around, every byte of the usable area is what the last write in
    range has put there. -/
theorem Sized.after {s : VirtualStorage} (sized : s.Sized) {calls : List Access}
    (straight : ∀ call ∈ calls, ¬ call.ComesAround s.usableCapacity) :
    (s.after calls).Sized ∧ (s.after calls).usableCapacity = s.usableCapacity ∧
      ∀ k, (s.after calls).byte k = Access.lastWritten s.usableCapacity s.byte calls k := by
  induction calls using List.reverseRecOn with
  | nil => exact ⟨sized,rfl,fun _ => rfl⟩
  | append_singleton calls call ih =>
    obtain ⟨sized',usable,values⟩ := ih fun call member => straight call (List.mem_append_left _ member)
    obtain ⟨kept,same⟩ := sized'.kept call
    rw [after_append]
    refine ⟨kept,same.trans usable,?_⟩
    intro k
    rw [Access.lastWritten_append,← values k,← usable]
    rcases sized'.perform call with ⟨inRange,data,changed,bytes,done⟩ | ⟨around,_⟩ | ⟨outside,_,ran⟩
    · rw [if_pos inRange,done.ran,byte,byte,done.holds]
      exact done.bytes_eq k
    · rw [usable] at around
      exact absurd around (straight call (by simp))
    · rw [if_neg outside,ran]

/-- On a storage to which a permutation was applied and into which carriers were loaded, every call
    of a sequence does what it owes exactly when the range of none comes around. -/
theorem contained_iff {env : Environment} {memory : Nat → UInt8} {s₀ s₁ s : VirtualStorage} {requestedSize : Nat}
    {key : List UInt8} (applied : s₀.applyPermutation env memory requestedSize key = (s₁,.ok ()))
    {loads : List (Nat × UInt8)}
    (loaded : loads.foldlM (fun (s : VirtualStorage) load => s.writeByte load.1 load.2) s₁ = .ok s)
    (calls : List Access) : s.Contained calls ↔ ∀ call ∈ calls, ¬ call.ComesAround s.usableCapacity := by
  have sized := (applyPermutation_sized applied).load loaded
  constructor
  · -- the first call that comes around is made in a state that is still right
    intro contained
    by_contra around
    push Not at around
    obtain ⟨call,found⟩ : ∃ call, calls.find? (fun call => decide (call.ComesAround s.usableCapacity)) = some call :=
      Option.isSome_iff_exists.mp (List.find?_isSome.mpr (by simpa using around))
    obtain ⟨comesAround,before,rest,rfl,straight⟩ := List.find?_eq_some_iff_append.mp found
    obtain ⟨sized',usable,_⟩ := sized.after fun call member => by simpa using straight call member
    exact sized'.not_meets (by simpa [usable] using comesAround) _ (contained before call rest rfl)
  · rintro straight before call rest rfl
    obtain ⟨sized',usable,values⟩ := sized.after fun call member => straight call (List.mem_append_left _ member)
    exact sized'.meets (by rw [usable]; exact straight call (by simp)) fun k _ => values k

/-- An identity permutation of 100 elements was applied. -/
def hundred : VirtualStorage :=
  { permutation := some (.identity { size := 100, initialized := true }), isSetPermutation := true, rawCapacity := 100,
    usableCapacity := 68, data := some ((List.range 100).map fun _ => 0) }

theorem hundred_applied : VirtualStorage.applyPermutation Permutation.twoPrimes (fun _ => 0)
    { permutation := some (.identity {}) } 100 Permutation.zeroKey = (hundred,.ok ()) := by
  rfl

theorem contained_iff_loaded :
    VirtualStorage.Contained { hundred with data := some (7::(List.range 99).map fun _ => 0) }
      [.write 66 ⟨[1,2],by decide⟩,.read 0 68,.write 67 ⟨[1,2],by decide⟩,.read 69 0] :=
  (contained_iff hundred_applied
    (show [((0 : Nat),(7 : UInt8))].foldlM (fun (s : VirtualStorage) load => s.writeByte load.1 load.2) hundred = .ok _
      from rfl) _).mpr (by decide)

/-- Writing one byte at the last 64-bit offset passes the check. -/
theorem not_contained_last : ¬ hundred.Contained [.write 18446744073709551615 ⟨[1],by decide⟩] := by
  intro contained
  exact (applyPermutation_sized hundred_applied).not_meets (by decide) _ (contained [] _ [] rfl)

end StegoDisk.VirtualStorage
