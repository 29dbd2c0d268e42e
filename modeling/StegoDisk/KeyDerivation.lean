import Mathlib.Data.Set.Function
import StegoDisk.CarrierFilesManager

/-!
Which passwords and carriers lead to a subkey. A digest is either that of the 32 bytes of an
earlier one, or that of the 64 bytes of two, or that of a password, a name or a number, and each
chain of digests can be followed back as long as no two of the byte strings that were
hashed have the same digest.
-/
namespace StegoDisk

theorem decimal_injective : Function.Injective decimal := by
  intro m n same
  have digit : ∀ n, ∀ c ∈ Nat.toDigits 10 n, c.toNat < 256 := by
    intro n c member
    have isDigit := Nat.isDigit_of_mem_toDigits (by decide) (by decide) member
    simp only [Char.isDigit,Bool.and_eq_true,decide_eq_true_eq,UInt32.le_iff_toNat_le] at isDigit
    have last := isDigit.2
    have nine : '9'.val.toNat = 57 := rfl
    simp only [Char.toNat]
    omega
  have back : ∀ n, (decimal n).map (fun byte => Char.ofNat byte.toNat) = Nat.toDigits 10 n := by
    intro n
    rw [decimal,List.map_map]
    conv_rhs => rw [← List.map_id (Nat.toDigits 10 n)]
    apply List.map_congr_left
    intro c member
    simp only [Function.comp_apply,UInt8.toNat_ofNat',Nat.mod_eq_of_lt (digit n c member),id]
    exact Char.ofNat_toNat c
  have digits : Nat.toDigits 10 m = Nat.toDigits 10 n := by rw [← back m,← back n,same]
  rw [← Nat.ofDigitChars_ten_toDigits (n := m),digits,Nat.ofDigitChars_ten_toDigits]

namespace Hash

/-- The byte strings that `Append` hands to the digest function. -/
def appendInputs (keccak : Keccak) (state : Digest) (data : List UInt8) : List (List UInt8) :=
  [data,(keccak data).val ++ state.val]

variable {keccak : Keccak} {S : Set (List UInt8)}

/-- Where no two inputs have the same digest, `Append` can be undone. -/
theorem append_inj (free : S.InjOn keccak) {s s' : Digest} {data data' : List UInt8}
    (left : ∀ x ∈ appendInputs keccak s data, x ∈ S) (right : ∀ x ∈ appendInputs keccak s' data', x ∈ S)
    (same : append keccak s data = append keccak s' data') : s = s' ∧ data = data' := by
  simp only [appendInputs,List.forall_mem_cons,List.not_mem_nil,false_imp_iff,implies_true,and_true] at left right
  have joined := free left.2 right.2 same
  obtain ⟨first,second⟩ := List.append_inj joined (by rw [(keccak data).property,(keccak data').property])
  exact ⟨Subtype.ext second,free left.1 right.1 (Subtype.ext first)⟩

/-- The digest of a digest is not what `Append` gives. -/
theorem process_ne_append (free : S.InjOn keccak) {s s' : Digest} {data : List UInt8} (left : s.val ∈ S)
    (right : ∀ x ∈ appendInputs keccak s' data, x ∈ S) : process keccak s.val ≠ append keccak s' data := by
  intro same
  have joined := free left (right _ (by simp [appendInputs])) same
  have lengths := congrArg List.length joined
  rw [List.length_append,s.property,(keccak data).property,s'.property] at lengths
  omega

end Hash

namespace CarrierFilesManager
open Hash

variable (keccak : Keccak)

/-- The master key of `GenerateMasterKey`, for a password and the names of the carriers. -/
def masterState (password : List UInt8) (names : List (List UInt8)) : Digest :=
  names.foldl (fun state name => append keccak state (keyFromString keccak name).val)
    (process keccak (process keccak password).val)

/-- What `GetPermKey` and `GenerateMasterKey` hash for the names of a list, from a state on. -/
def chainInputs : Digest → List (List UInt8) → List (List UInt8)
  | _,[] => []
  | state,name::rest =>
    name::appendInputs keccak state (keyFromString keccak name).val ++
      chainInputs (append keccak state (keyFromString keccak name).val) rest

/-- What `SetPassword`, `GetPermKey` and `GenerateMasterKey` hash. -/
def masterInputs (password : List UInt8) (names : List (List UInt8)) : List (List UInt8) :=
  password::(process keccak password).val::chainInputs keccak (process keccak (process keccak password).val) names

/-- The subkey that `DeriveSubkeys` gives to carrier `i`. -/
def subkeyOf (master : Digest) (i : Nat) (name : List UInt8) : Digest :=
  append keccak (append keccak (process keccak master.val) (decimal i)) name

/-- What `DeriveSubkeys` hashes for carrier `i`. -/
def subkeyInputs (master : Digest) (i : Nat) (name : List UInt8) : List (List UInt8) :=
  master.val::appendInputs keccak (process keccak master.val) (decimal i) ++
    appendInputs keccak (append keccak (process keccak master.val) (decimal i)) name

/-- All that is hashed for a password and the names of the carriers. -/
def hashedInputs (password : List UInt8) (names : List (List UInt8)) : List (List UInt8) :=
  masterInputs keccak password names ++
    names.zipIdx.flatMap fun entry => subkeyInputs keccak (masterState keccak password names) entry.2 entry.1

variable {keccak} {S : Set (List UInt8)}

theorem chainInputs_append (state : Digest) (names : List (List UInt8)) (name : List UInt8) :
    chainInputs keccak state (names ++ [name]) = chainInputs keccak state names ++ name::appendInputs keccak
      (names.foldl (fun state name => append keccak state (keyFromString keccak name).val) state)
      (keyFromString keccak name).val := by
  induction names generalizing state with
  | nil => simp [chainInputs]
  | cons first rest ih => simp [chainInputs,ih]

theorem masterState_append (password : List UInt8) (names : List (List UInt8)) (name : List UInt8) :
    masterState keccak password (names ++ [name]) =
      append keccak (masterState keccak password names) (keyFromString keccak name).val := by
  simp [masterState]

theorem masterInputs_append (password : List UInt8) (names : List (List UInt8)) (name : List UInt8) :
    masterInputs keccak password (names ++ [name]) = masterInputs keccak password names ++
      name::appendInputs keccak (masterState keccak password names) (keyFromString keccak name).val := by
  simp [masterInputs,masterState,chainInputs_append]

/-- The chain of `GenerateMasterKey` is followed back from its end. -/
theorem masterState_inj (free : S.InjOn keccak) {password password' : List UInt8} {names names' : List (List UInt8)}
    (left : ∀ x ∈ masterInputs keccak password names, x ∈ S) (right : ∀ x ∈ masterInputs keccak password' names', x ∈ S)
    (same : masterState keccak password names = masterState keccak password' names') :
    password = password' ∧ names = names' := by
  have start : ∀ (password : List UInt8) (names : List (List UInt8)), (∀ x ∈ masterInputs keccak password names, x ∈ S) →
      password ∈ S ∧ (process keccak password).val ∈ S := by
    intro password names all
    exact ⟨all _ (by simp [masterInputs]),all _ (by simp [masterInputs])⟩
  induction names using List.reverseRecOn generalizing names' with
  | nil =>
    obtain ⟨first,second⟩ := start _ _ left
    obtain ⟨first',second'⟩ := start _ _ right
    rcases List.eq_nil_or_concat' names' with rfl | ⟨front,last,rfl⟩
    · have digests := free second second' same
      exact ⟨free first first' (Subtype.ext digests),rfl⟩
    · rw [masterState_append] at same
      rw [masterInputs_append] at right
      exact absurd same (process_ne_append free second fun x member =>
        right x (List.mem_append_right _ (List.mem_cons_of_mem _ member)))
  | append_singleton names name ih =>
    rw [masterInputs_append] at left
    rw [masterState_append] at same
    have last : ∀ x ∈ appendInputs keccak (masterState keccak password names) (keyFromString keccak name).val, x ∈ S :=
      fun x member => left x (List.mem_append_right _ (List.mem_cons_of_mem _ member))
    rcases List.eq_nil_or_concat' names' with rfl | ⟨front,name',rfl⟩
    · exact absurd same.symm (process_ne_append free (start _ _ right).2 last)
    · rw [masterInputs_append] at right
      rw [masterState_append] at same
      have last' : ∀ x ∈ appendInputs keccak (masterState keccak password' front) (keyFromString keccak name').val, x ∈ S :=
        fun x member => right x (List.mem_append_right _ (List.mem_cons_of_mem _ member))
      obtain ⟨states,keys⟩ := append_inj free last last' same
      have names_eq : name = name' :=
        free (left _ (List.mem_append_right _ List.mem_cons_self)) (right _ (List.mem_append_right _ List.mem_cons_self))
          (Subtype.ext keys)
      obtain ⟨passwords,fronts⟩ := ih (fun x member => left x (List.mem_append_left _ member))
        (fun x member => right x (List.mem_append_left _ member)) states
      exact ⟨passwords,by rw [fronts,names_eq]⟩

theorem subkeyOf_inj (free : S.InjOn keccak) {master master' : Digest} {i i' : Nat} {name name' : List UInt8}
    (left : ∀ x ∈ subkeyInputs keccak master i name, x ∈ S) (right : ∀ x ∈ subkeyInputs keccak master' i' name', x ∈ S)
    (same : subkeyOf keccak master i name = subkeyOf keccak master' i' name') : master = master' ∧ i = i' := by
  simp only [subkeyInputs,List.cons_append,List.forall_mem_cons,List.forall_mem_append] at left right
  obtain ⟨states,_⟩ := append_inj free left.2.2 right.2.2 same
  obtain ⟨keys,numbers⟩ := append_inj free left.2.1 right.2.1 states
  exact ⟨Subtype.ext (free left.1 right.1 keys),decimal_injective numbers⟩

/-! ### The managers -/

/-- The normalised names of the carriers. -/
def names (m : CarrierFilesManager) : List (List UInt8) := m.carrierFiles.map fun c => c.file.normalizedPath

/-- The subkey of carrier `i` after `SetPassword`, `GenerateMasterKey` and `DeriveSubkeys`. -/
def subkeyAt (env : Environment) (m : CarrierFilesManager) (password : List UInt8) (i : Nat) : Option Key :=
  match (m.setPassword env password).generateMasterKey env with
  | (_,.error _) => none
  | (m,.ok ()) => m.masterKey.bind fun key => (m.deriveSubkeys env key).carrierFiles[i]?.bind CarrierFile.subkey

theorem subkeyAt_eq (env : Environment) (m : CarrierFilesManager) (password : List UInt8) (i : Nat) :
    m.subkeyAt env password i = m.names[i]?.map (subkeyOf env.keccak (masterState env.keccak password m.names) i) := by
  unfold subkeyAt generateMasterKey setPassword
  by_cases none : m.carrierFiles.isEmpty
  · have nil : m.carrierFiles = [] := List.isEmpty_iff.mp none
    simp only [names,nil]
    rfl
  · have key : (m.carrierFiles.foldl (fun state file => append env.keccak state (file.permKey env).val)
        (process env.keccak (process env.keccak password).val)) = masterState env.keccak password m.names := by
      rw [masterState,names,List.foldl_map]
      rfl
    simp only [none,Bool.false_eq_true,if_false,key,Option.bind_some,deriveSubkeys,names,List.getElem?_mapIdx,
      List.getElem?_map]
    cases m.carrierFiles[i]? with
    | none => rfl
    | some file => rfl

theorem subkeyInputs_mem {password : List UInt8} {names : List (List UInt8)} {i : Nat} {name : List UInt8}
    (there : names[i]? = some name) :
    ∀ x ∈ subkeyInputs keccak (masterState keccak password names) i name, x ∈ hashedInputs keccak password names := by
  intro x member
  refine List.mem_append_right _ (List.mem_flatMap.mpr ⟨(name,i),?_,member⟩)
  exact List.mem_zipIdx_iff_getElem?.mpr there

/-- Two carriers with the same subkey are the same carrier of the same list under the same password,
    or two different byte strings that were hashed have the same digest. -/
theorem subkeyAt_inj {env : Environment} {m m' : CarrierFilesManager} {password password' : List UInt8} {i i' : Nat}
    {key : Key} (left : m.subkeyAt env password i = some key) (right : m'.subkeyAt env password' i' = some key) :
    (password = password' ∧ m.names = m'.names ∧ i = i') ∨
      ∃ x ∈ hashedInputs env.keccak password m.names ++ hashedInputs env.keccak password' m'.names,
      ∃ y ∈ hashedInputs env.keccak password m.names ++ hashedInputs env.keccak password' m'.names,
        x ≠ y ∧ env.keccak x = env.keccak y := by
  rw [subkeyAt_eq,Option.map_eq_some_iff] at left right
  obtain ⟨name,there,rfl⟩ := left
  obtain ⟨name',there',same⟩ := right
  by_cases free : Set.InjOn env.keccak
      {x | x ∈ hashedInputs env.keccak password m.names ++ hashedInputs env.keccak password' m'.names}
  · obtain ⟨masters,numbers⟩ := subkeyOf_inj free
      (fun x member => List.mem_append_left _ (subkeyInputs_mem there x member))
      (fun x member => List.mem_append_right _ (subkeyInputs_mem there' x member)) same.symm
    obtain ⟨passwords,lists⟩ := masterState_inj free
      (fun x member => List.mem_append_left _ (List.mem_append_left _ member))
      (fun x member => List.mem_append_right _ (List.mem_append_left _ member)) masters
    exact .inl ⟨passwords,lists,numbers⟩
  · right
    simp only [Set.InjOn,not_forall] at free
    obtain ⟨x,hashed,y,hashed',digests,differ⟩ := free
    exact ⟨x,hashed,y,hashed',differ,digests⟩

/-- Digests of zeros, and two carriers. -/
theorem subkeyAt_inj_two :
    let env : Environment := { keccak := fun _ => Hash.initial, millerRabin := fun _ _ => false, watched := 1 }
    let m : CarrierFilesManager := { carrierFiles := [
      { file := ⟨[],[97,46,112,110,103]⟩, rawCapacity := 1, permutation := .fresh .identity },
      { file := ⟨[],[98,46,112,110,103]⟩, rawCapacity := 1, permutation := .fresh .identity }] }
    (([112] : List UInt8) = [112] ∧ m.names = m.names ∧ 0 = 1) ∨
      ∃ x ∈ hashedInputs env.keccak [112] m.names ++ hashedInputs env.keccak [112] m.names,
      ∃ y ∈ hashedInputs env.keccak [112] m.names ++ hashedInputs env.keccak [112] m.names,
        x ≠ y ∧ env.keccak x = env.keccak y := by
  intro env m
  exact subkeyAt_inj (show m.subkeyAt env [112] 0 = some Hash.initial from rfl)
    (show m.subkeyAt env [112] 1 = some Hash.initial from rfl)

end CarrierFilesManager
end StegoDisk
