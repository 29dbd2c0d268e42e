import StegoDisk.Directories
import StegoDisk.Loading

/-!
A manager whose carriers are attached to a storage: every carrier is loaded, with the
permutation and the share that the files, the password and the configuration decide. Two
managers that were opened alike are attached to storages of one size and one global
permutation, so that what is embedded through one is what is extracted through the other.
-/
namespace StegoDisk
open Loops

namespace VirtualStorage

variable {env : Environment} {g : PermutationType} {requestedSize : Nat} {key : List UInt8} {s s' : VirtualStorage}
  {n : Nat} {f : Nat → Nat}

/-- A new storage with a permutation of a class, before it is applied. -/
def unapplied (g : PermutationType) : VirtualStorage := (setPermutation {} (some (.fresh g))).1

/-- A storage after `ApplyPermutation` of a new one, whatever its bytes. -/
structure AppliedAs (env : Environment) (g : PermutationType) (requestedSize : Nat) (key : List UInt8)
    (s : VirtualStorage) : Prop where
  global : ∃ q, (Permutation.fresh g).init env requestedSize key = (q,.ok ()) ∧ s.permutation = some q ∧
    s.rawCapacity = q.size
  usable : s.usableCapacity = s.rawCapacity - storageHashLength
  isSet : s.isSetPermutation = true
  large : storageHashLength < s.rawCapacity

/-- Two such storages differ in their bytes alone. -/
theorem AppliedAs.same (applied : s.AppliedAs env g requestedSize key) (applied' : s'.AppliedAs env g requestedSize key) :
    s' = { s with data := s'.data } := by
  obtain ⟨⟨q,returns,holds,raw⟩,usable,isSet,_⟩ := applied
  obtain ⟨⟨q',returns',holds',raw'⟩,usable',isSet',_⟩ := applied'
  obtain rfl : q = q' := congrArg Prod.fst (returns.symm.trans returns')
  obtain ⟨p,set_,raw₀,usable₀,data⟩ := s
  obtain ⟨p',set',raw₀',usable₀',data'⟩ := s'
  simp only at holds raw usable isSet holds' raw' usable' isSet'
  simp only [mk.injEq,and_true]
  exact ⟨holds'.trans holds.symm,isSet'.trans isSet.symm,by omega,by omega⟩

theorem AppliedAs.replace (applied : s.AppliedAs env g requestedSize key) (data : Option MemoryBuffer) :
    AppliedAs env g requestedSize key { s with data := data } :=
  ⟨applied.global,applied.usable,applied.isSet,applied.large⟩

/-- The positions of one are those of the other. -/
theorem AppliedAs.mapped (applied : s.AppliedAs env g requestedSize key) (applied' : s'.AppliedAs env g requestedSize key)
    (mapped : s.Mapped n f) {g' : Nat → Nat} {n' : Nat} (mapped' : s'.Mapped n' g') : s'.Mapped n f := by
  have same := applied.same applied'
  obtain ⟨data,holds,length⟩ := mapped'.holds
  have raw : n' = n := by
    rw [← mapped'.raw,same,← mapped.raw]
  rw [same,holds]
  exact mapped.replace (length.trans raw)

/-- An `ApplyPermutation` that returns applies, and permutes no more than was requested. -/
theorem applyPermutation_applied {memory : Nat → UInt8} (small : requestedSize < 2 ^ 64)
    (returns : (unapplied g).applyPermutation env memory requestedSize key = (s,.ok ())) :
    s.AppliedAs env g requestedSize key ∧ (∃ f, s.Mapped s.rawCapacity f) ∧ s.rawCapacity ≤ requestedSize := by
  have mapped := applyPermutation_mapped rfl small returns
  rcases @applyPermutation_cases env memory (unapplied g) (.fresh g) rfl requestedSize key with
    ⟨failure,outcome,_⟩ | ⟨initialized,large,fits,outcome⟩
  · simp [outcome] at returns
  · rw [outcome] at returns
    obtain ⟨rfl,_⟩ := Prod.mk.inj returns
    refine ⟨⟨⟨_,Prod.ext rfl initialized,rfl,rfl⟩,rfl,rfl,large⟩,mapped,?_⟩
    simp only [addressSpace] at fits
    exact Permutation.init_size_le small (by omega) (Prod.ext rfl initialized)

/-- The calls of tasks change the bytes alone. -/
theorem Mapped.replay_data (mapped : s.Mapped n f) (calls : List Call) : ∃ data, s.replay calls = { s with data := data } := by
  induction calls generalizing s with
  | nil => exact ⟨s.data,rfl⟩
  | cons call rest ih =>
    obtain ⟨data,holds,_⟩ := mapped.holds
    obtain ⟨after,same⟩ := ih (mapped.put call)
    refine ⟨after,?_⟩
    rw [mapped.put_eq holds] at same
    rw [VirtualStorage.replay,List.foldl_cons,mapped.put_eq holds]
    exact same

/-- Where it returned once it returns again, for any contents of the memory. -/
theorem AppliedAs.again (applied : s.AppliedAs env g requestedSize key) (mapped : s.Mapped n f) (memory : Nat → UInt8) :
    ∃ s', (unapplied g).applyPermutation env memory requestedSize key = (s',.ok ()) := by
  obtain ⟨q,returns,_,raw⟩ := applied.global
  have large := applied.large
  have fits := mapped.fits
  rw [← mapped.raw] at fits
  rcases @applyPermutation_cases env memory (unapplied g) (.fresh g) rfl requestedSize key with
    ⟨failure,_,why⟩ | ⟨_,_,_,outcome⟩
  · rw [returns] at why
    simp only [ne_eq,not_true_eq_false,false_or] at why
    omega
  · exact ⟨_,outcome⟩

end VirtualStorage

namespace CarrierFile

theorem blank_of_plan (c : CarrierFile) : c.plan.blank = c.blank := by
  simp [plan,blank]

theorem blank_blank (c : CarrierFile) : c.blank.blank = c.blank := by
  simp [blank]

theorem encode_keeps_blank (env : Environment) (e : Encoder) (key : Key) (c : CarrierFile) :
    (c.encode env e key).1.blank = c.blank := by
  simp only [encode,setEncoder]
  split <;> rfl

end CarrierFile

namespace CarrierFilesManager
open CarrierFile VirtualStorage

variable {env : Environment} {e : Encoder} {g : PermutationType} {m m' : CarrierFilesManager} {ref n : Nat}
  {s : VirtualStorage} {f : Nat → Nat}

/-- The carriers as they were created. -/
def blanks (m : CarrierFilesManager) : List CarrierFile := m.carrierFiles.map blank

/-- The master key that `ApplyEncoder` generates. -/
def key (env : Environment) (m : CarrierFilesManager) : Key := masterKeyOf env m.passwordHash m.carrierFiles

/-- The carriers with the sizes that `ApplyEncoder` gives to them. -/
def planned (env : Environment) (e : Encoder) (m : CarrierFilesManager) : List CarrierFile :=
  encodeAll env e (m.key env) m.blanks

/-- The capacity that `ApplyEncoder` computes. -/
def total (env : Environment) (e : Encoder) (m : CarrierFilesManager) : Nat :=
  word64 ((m.planned env e).map CarrierFile.capacity).sum

/-- Managers whose carriers were created alike, with one password. -/
structure OpenedAlike (m m' : CarrierFilesManager) : Prop where
  blanks : m.blanks = m'.blanks
  passwordHash : m.passwordHash = m'.passwordHash

theorem OpenedAlike.key (alike : OpenedAlike m m') : m.key env = m'.key env := by
  rw [CarrierFilesManager.key,CarrierFilesManager.key,← masterKeyOf_blank,← masterKeyOf_blank _ m'.carrierFiles,
    alike.passwordHash]
  exact congrArg _ alike.blanks

theorem OpenedAlike.planned (alike : OpenedAlike m m') : m.planned env e = m'.planned env e := by
  rw [CarrierFilesManager.planned,CarrierFilesManager.planned,alike.key,alike.blanks]

theorem OpenedAlike.total (alike : OpenedAlike m m') : m.total env e = m'.total env e := by
  rw [CarrierFilesManager.total,CarrierFilesManager.total,alike.planned]

/-- `SetEncoder` returns for the carriers of the manager. -/
def Accepts (env : Environment) (e : Encoder) (m : CarrierFilesManager) : Prop :=
  Encodable env e (m.key env) m.carrierFiles

theorem OpenedAlike.accepts (alike : OpenedAlike m m') : m.Accepts env e ↔ m'.Accepts env e := by
  rw [Accepts,Accepts,alike.key,← encodable_blank,← @encodable_blank env e _ m'.carrierFiles]
  exact iff_of_eq (congrArg _ alike.blanks)

/-- The manager is attached to a storage of `n` bytes: every carrier is loaded and has its share. -/
structure Attached (env : Environment) (e : Encoder) (g : PermutationType) (m : CarrierFilesManager) (ref : Nat)
    (s : VirtualStorage) (n : Nat) (f : Nat → Nat) : Prop where
  accepts : m.Accepts env e
  applied : s.AppliedAs env g (m.total env e) (m.key env).val
  mapped : s.Mapped n f
  enough : n ≤ ((m.planned env e).map CarrierFile.capacity).sum
  shares : m.carrierFiles.map plan = (assignShares (m.planned env e) 0 n).map plan
  refers : m.virtualStorage = some ref
  loaded : ∀ c ∈ m.carrierFiles, c.fileLoaded = true ∧ c.virtualStorage = some ref
  ready : ∀ c ∈ m.carrierFiles, ∃ h, Ready env e c h

/-! ### `ApplyEncoder` -/

theorem blanks_assignShares (files : List CarrierFile) (ref n : Nat) : (assignShares files ref n).map blank = files.map blank := by
  apply List.ext_getElem?
  intro k
  simp only [List.getElem?_map,assignShares_get]
  cases files[k]? with
  | none => rfl
  | some c => rfl

theorem blanks_encodeAll (key : Key) (files : List CarrierFile) : (encodeAll env e key files).map blank = files.map blank := by
  apply List.ext_getElem?
  intro k
  simp only [encodeAll,List.getElem?_map,List.getElem?_mapIdx]
  cases files[k]? with
  | none => rfl
  | some c => exact congrArg some (encode_keeps_blank env e _ c)

theorem applied_alike (m : CarrierFilesManager) : OpenedAlike (m.applied env e) m :=
  ⟨blanks_encodeAll (m.key env) m.carrierFiles,rfl⟩

private theorem blanks_twice (m : CarrierFilesManager) : m.carrierFiles.map blank = m.blanks.map blank := by
  rw [blanks,List.map_map]
  exact List.map_congr_left fun c _ => (blank_blank c).symm

theorem applied_capacity (accepts : m.Accepts env e) : (m.applied env e).capacity = m.total env e := by
  have capacities := (encodeAll_plan (blanks_twice m) accepts (encodable_blank.mpr accepts) 0 0 0).1
  exact congrArg (fun sizes => word64 (List.sum sizes)) capacities

theorem applied_shares (accepts : m.Accepts env e) (ref ref' n : Nat) :
    (assignShares (m.applied env e).carrierFiles ref n).map plan = (assignShares (m.planned env e) ref' n).map plan :=
  (encodeAll_plan (blanks_twice m) accepts (encodable_blank.mpr accepts) ref ref' n).2

theorem matches_blank {directory : Directory} {files : List CarrierFile} :
    Matches directory (files.map blank) ↔ Matches directory files := by
  constructor
  · exact fun all c member => all c.blank (List.mem_map_of_mem member)
  · rintro all _ member
    obtain ⟨c,held,rfl⟩ := List.mem_map.mp member
    exact all c held

theorem assignShares_refers {files : List CarrierFile} {c : CarrierFile} (member : c ∈ assignShares files ref n) :
    c.virtualStorage = some ref := by
  obtain ⟨k,here⟩ := List.mem_iff_getElem?.mp member
  rw [assignShares_get] at here
  obtain ⟨_,_,rfl⟩ := Option.map_eq_some_iff.mp here
  rfl

/-! ### `LoadVirtualStorage` -/

/-- Carriers that can be loaded: their permutations are settled, none is loaded, and the
    images are as large as they were. -/
structure Unloaded (env : Environment) (directory : Directory) (m : CarrierFilesManager) : Prop where
  settled : Settled env (m.key env) m.carrierFiles
  fresh : ∀ c ∈ m.carrierFiles, c.fileLoaded = false
  sizes : Matches directory m.carrierFiles

variable {directory : Directory} {memory : Nat → UInt8} {s₀ : VirtualStorage} {files : List CarrierFile}

theorem Unloaded.waiting (unloaded : Unloaded env directory m) (accepts : m.Accepts env e) (ref n : Nat) :
    Waiting env e (assignShares (m.applied env e).carrierFiles ref n) ∧
      Matches directory (assignShares (m.applied env e).carrierFiles ref n) := by
  refine ⟨waiting_assignShares unloaded.settled accepts unloaded.fresh ref n,matches_blank.mp ?_⟩
  rw [blanks_assignShares]
  show Matches directory (m.applied env e).blanks
  rw [(applied_alike m).blanks]
  exact matches_blank.mpr unloaded.sizes

/-- The manager after its carriers were loaded. -/
def withLoaded (m : CarrierFilesManager) (files : List CarrierFile) (ref : Nat) : CarrierFilesManager :=
  { m with carrierFiles := files, virtualStorage := some ref }

/-- When all tasks have returned, the manager is attached to the storage, which has the bytes that
    the images hold. -/
theorem attached_of_results (unloaded : Unloaded env directory m) (accepts : m.Accepts env e)
    (returned : (unapplied g).applyPermutation env memory (m.total env e) (m.key env).val = (s₀,.ok ()))
    (mapped : s₀.Mapped s₀.rawCapacity f) {results : List (CarrierFile × List Call)}
    (all : List.Forall₂ (LoadedAs env e directory)
      (assignShares (m.applied env e).carrierFiles ref s₀.rawCapacity) results) :
    Attached env e g ((m.applied env e).withLoaded (results.map Prod.fst) ref) ref
        (s₀.replay (results.map Prod.snd).flatten) s₀.rawCapacity f ∧
      Reflects e directory (results.map Prod.fst) s₀.rawCapacity (s₀.replay (results.map Prod.snd).flatten) ∧
      OpenedAlike ((m.applied env e).withLoaded (results.map Prod.fst) ref) m := by
  have shaped : ∀ c ∈ (m.applied env e).carrierFiles, Shaped c := fun c member =>
    (encodeAll_shaped unloaded.settled accepts c member).2
  have plans := loaded_plan all
  have alike : OpenedAlike ((m.applied env e).withLoaded (results.map Prod.fst) ref) m := by
    refine ⟨Eq.trans ?_ (@applied_alike env e m).blanks,rfl⟩
    have same := congrArg (List.map blank) plans
    simp only [List.map_map,Function.comp_def,blank_of_plan] at same
    have created := blanks_assignShares (m.applied env e).carrierFiles ref s₀.rawCapacity
    rw [blanks,blanks,← created]
    simpa only [withLoaded,List.map_map,Function.comp_def] using same
  obtain ⟨applied,_,least⟩ := applyPermutation_applied (word64_lt _) returned
  have replayed := mapped.replay (results.map Prod.snd).flatten
  have carrier : ∀ c ∈ results.map Prod.fst, ∃ file ∈ assignShares (m.applied env e).carrierFiles ref s₀.rawCapacity,
      ∃ task, LoadedAs env e directory file (c,task) := by
    intro c member
    obtain ⟨k,here⟩ := List.mem_iff_getElem?.mp member
    rw [List.getElem?_map] at here
    obtain ⟨result,there,rfl⟩ := Option.map_eq_some_iff.mp here
    obtain ⟨file,found,loaded⟩ := forall₂_right all there
    exact ⟨file,List.mem_of_getElem? found,result.2,loaded⟩
  refine ⟨⟨alike.accepts.mpr accepts,?_,replayed,?_,?_,rfl,?_,?_⟩,loaded_reflects shaped mapped all,alike⟩
  · obtain ⟨data,same⟩ := mapped.replay_data (results.map Prod.snd).flatten
    rw [same,alike.total,alike.key]
    exact applied.replace data
  · rw [alike.planned]
    exact least.trans (Nat.mod_le _ _)
  · rw [alike.planned]
    exact plans.trans (applied_shares accepts ref 0 _)
  · intro c member
    obtain ⟨file,held,_,_,_,_,_,_,_,_,_,same,_⟩ := carrier c member
    simp only at same
    rw [same]
    have refers := assignShares_refers held
    exact ⟨rfl,refers⟩
  · intro c member
    obtain ⟨file,_,_,_,_,_,h,_,_,_,ready,same,_⟩ := carrier c member
    simp only at same
    rw [same]
    exact ⟨h,ready.loaded⟩

end CarrierFilesManager
end StegoDisk
