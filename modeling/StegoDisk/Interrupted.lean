import StegoDisk.RoundTrip

/-!
What calls leave behind when they fail. `ApplyEncoder` keeps of every carrier what it had before
it got its sizes, the `LoadFile` tasks give carriers at most a permutation, the one that
`Init` gives for their subkeys, and `SaveFile` does not change a carrier that is loaded.
-/
namespace StegoDisk
open Loops

namespace CarrierFile

variable {env : Environment} {e : Encoder} {c file file' : CarrierFile} {image : Image} {s s' : VirtualStorage}

theorem setEncoder_core (env : Environment) (e : Encoder) (c : CarrierFile) : (c.setEncoder env e).1.core = c.core := by
  simp only [setEncoder]
  split <;> rfl

/-- A carrier that is not loaded, with the permutation that an `Init` has left. -/
def Tried (env : Environment) (file file' : CarrierFile) : Prop :=
  ∃ q, file' = { file with permutation := q } ∧ q.type = file.permutation.type ∧
    (q = file.permutation ∨ file.permutation.size = 0 ∧ (q.size = 0 ∨ file.Initializes env q))

theorem initPermutation_tried (env : Environment) (file : CarrierFile) : file.Tried env (file.initPermutation env).1 := by
  unfold initPermutation
  split
  · rename_i zero
    cases holds : file.subkey with
    | none => exact ⟨file.permutation,rfl,rfl,.inl rfl⟩
    | some key =>
      refine ⟨(file.permutation.init env (word64 (file.rawCapacity * 8)) key.val).1,by simp only [holds],
        Permutation.init_type _,.inr ⟨zero,?_⟩⟩
      by_cases returns : (file.permutation.init env (word64 (file.rawCapacity * 8)) key.val).2 = .ok ()
      · exact .inr ⟨key,file.permutation,holds,rfl,Prod.ext rfl returns⟩
      · exact .inl ((Permutation.init_refused returns).1.trans zero)
  · exact ⟨file.permutation,rfl,rfl,.inl rfl⟩

/-- A `LoadFile` that fails leaves the carrier not loaded. -/
theorem loadFile_tried (fresh : file.fileLoaded = false) (failed : (file.loadFile env image s).2 ≠ .ok ()) :
    file.Tried env (file.loadFile env image s).1.1 := by
  have same : file.Tried env file := ⟨file.permutation,rfl,rfl,.inl rfl⟩
  have tried := file.initPermutation_tried env
  unfold loadFile at failed ⊢
  rw [if_neg (by simp [fresh])] at failed ⊢
  revert failed
  rcases file.openImage image with failure | _
  · exact fun _ => same
  rcases ran : file.initPermutation env with ⟨ready,failure | _⟩
  · rw [ran] at tried
    exact fun _ => tried
  rw [ran] at tried
  simp only
  rcases ready.unpack ready.permutation.size image with failure | buffer
  · exact fun _ => tried
  simp only
  rcases ready.extractBufferUsingEncoder buffer s with ⟨s',failure | code⟩
  · exact fun _ => tried
  simp only
  rcases ready.checkExtracted code image with failure | _
  · exact fun _ => tried
  · exact fun failed => absurd rfl failed

/-- `SaveFile` changes no carrier that is loaded and initialised. -/
theorem saveFile_same (initialized : c.fileLoaded = true → 0 < c.permutation.size) : (c.saveFile env image s).1 = c := by
  unfold saveFile
  split
  · rfl
  rename_i loaded
  have positive := initialized (by simpa using loaded)
  split
  · rfl
  · simp only [initPermutation,show c.permutation.size ≠ 0 by omega,if_false]

end CarrierFile

namespace CarrierFilesManager
open CarrierFile VirtualStorage Segments

variable {env : Environment} {e : Encoder} {g : PermutationType} {m : CarrierFilesManager} {files files' : List CarrierFile}
  {directory : Directory} {s s' : VirtualStorage} {n : Nat} {f : Nat → Nat}

theorem setEncoders_core (env : Environment) (e : Encoder) (files : List CarrierFile) :
    (setEncoders env e files).1.map core = files.map core := by
  induction files with
  | nil => rfl
  | cons c rest ih =>
    have own := CarrierFile.setEncoder_core env e c
    rw [setEncoders]
    rcases ran : c.setEncoder env e with ⟨c',failure | _⟩
    · rw [ran] at own
      simp [own]
    · rw [ran] at own
      rcases others : setEncoders env e rest with ⟨rest',failure | _⟩
      · rw [others] at ih
        simp [own,ih]
      · rw [others] at ih
        simp [own,ih]

/-- `ApplyEncoder` keeps the files, their permutations and whether they are loaded, also when it fails. -/
theorem applyEncoder_core (env : Environment) (m : CarrierFilesManager) :
    (m.applyEncoder env).1.carrierFiles.map core = m.carrierFiles.map core ∧
      (m.applyEncoder env).1.passwordHash = m.passwordHash ∧
      (m.applyEncoder env).1.virtualStorage = m.virtualStorage := by
  have derived : ∀ key, (m.carrierFiles.mapIdx fun i file => { file with subkey := some (subkey env key i file) }).map core =
      m.carrierFiles.map core := by
    intro key
    apply List.ext_getElem?
    intro i
    simp only [List.getElem?_map,List.getElem?_mapIdx]
    cases m.carrierFiles[i]? with
    | none => rfl
    | some c => rfl
  unfold applyEncoder
  split
  · exact ⟨rfl,rfl,rfl⟩
  rename_i e _
  unfold generateMasterKey
  split
  · rename_i failed
    split at failed
    · obtain ⟨rfl,_⟩ := Prod.mk.inj failed
      exact ⟨rfl,rfl,rfl⟩
    · simp at failed
  rename_i returned
  split at returned
  · simp at returned
  obtain ⟨rfl,_⟩ := Prod.mk.inj returned
  simp only [deriveSubkeys]
  have cores := setEncoders_core env e (m.carrierFiles.mapIdx fun i file => { file with subkey := some (subkey env
    (m.carrierFiles.foldl (fun state file => Hash.append env.keccak state (file.permKey env).val)
      (Hash.process env.keccak m.passwordHash.val)) i file) })
  rw [derived] at cores
  rcases ran : setEncoders env e _ with ⟨files,failure | capacity⟩
  · rw [ran] at cores
    exact ⟨cores,rfl,rfl⟩
  · rw [ran] at cores
    simp only
    split
    · exact ⟨cores,rfl,rfl⟩
    · exact ⟨cores,rfl,rfl⟩

/-! ### The tasks of a load -/

/-- What a `LoadFile` task leaves of a carrier. -/
def Outcome (env : Environment) (e : Encoder) (directory : Directory) (file file' : CarrierFile) : Prop :=
  (∃ task, LoadedAs env e directory file (file',task)) ∨ file.Tried env file'

theorem loadFiles_each (waiting : Waiting env e files) (sizes : Matches directory files) (mapped : s.Mapped n f) :
    List.Forall₂ (Outcome env e directory) files (loadFiles env directory files s).1.1 ∧
      ((loadFiles env directory files s).2 ≠ .ok () →
        ∃ c ∈ (loadFiles env directory files s).1.1, c.fileLoaded = false) := by
  induction files generalizing s with
  | nil => exact ⟨.nil,fun failed => absurd rfl failed⟩
  | cons file rest ih =>
    have fresh := waiting.fresh file List.mem_cons_self
    have later : Matches directory rest := fun c member => sizes c (List.mem_cons_of_mem _ member)
    rcases opened : directory.image file.file with failure | image
    · simp only [loadFiles,opened]
      exact ⟨.cons (.inr ⟨file.permutation,rfl,rfl,.inl rfl⟩) (ih waiting.tail later mapped).1,
        fun _ => ⟨file,List.mem_cons_self,fresh⟩⟩
    · simp only [loadFiles,opened]
      obtain ⟨task,_,did⟩ := file.loadFile_task env image n f
      have mapped' : (file.loadFile env image s).1.2.Mapped n f := by
        rw [did s mapped]
        exact mapped.replay task
      obtain ⟨all,others⟩ := ih waiting.tail later mapped'
      by_cases returns : (file.loadFile env image s).2 = .ok ()
      · obtain ⟨task,loads,_⟩ := loadFile_inv (waiting.prepared file List.mem_cons_self) fresh
          (waiting.used file List.mem_cons_self) (sizes file List.mem_cons_self image opened) mapped (Prod.ext rfl returns)
        refine ⟨.cons (.inl ⟨task,image,opened,loads⟩) all,?_⟩
        rw [returns]
        intro failed
        obtain ⟨c,member,unloaded⟩ := others failed
        exact ⟨c,List.mem_cons_of_mem _ member,unloaded⟩
      · have tried := loadFile_tried fresh returns
        refine ⟨.cons (.inr tried) all,fun _ => ⟨_,List.mem_cons_self,?_⟩⟩
        obtain ⟨_,same,_⟩ := tried
        rw [same]
        exact fresh

/-- A carrier is settled after its task, and initialised when it is loaded. -/
theorem Outcome.settled {file file' : CarrierFile} {key : Key} (outcome : Outcome env e directory file file')
    (prepared : Prepared env e file) (holds : file.subkey = some key) :
    SettledFor env key file' ∧ file'.blank = file.blank ∧ (file'.fileLoaded = true → file.fileLoaded = false → 0 < file'.permutation.size) := by
  rcases outcome with ⟨task,image,_,q,h,_,_,type,ready,same,_⟩ | ⟨q,rfl,type,which⟩
  · simp only at same
    subst same
    obtain ⟨key',p,holds',kind,returns⟩ := ready.initializes
    obtain rfl := Option.some.inj (holds.symm.trans holds')
    exact ⟨⟨prepared.positive,.inr ⟨key,p,rfl,kind,returns⟩⟩,by simp [blank,type],fun _ _ => ready.positive⟩
  · have initializes : ∀ {r : Permutation}, file.Initializes env r → r.type = file.permutation.type →
        Initializes env { file with permutation := r, subkey := some key } r := by
      rintro r ⟨key',p,holds',kind,returns⟩ same
      obtain rfl := Option.some.inj (holds.symm.trans holds')
      exact ⟨key,p,rfl,kind.trans same.symm,returns⟩
    refine ⟨⟨prepared.positive,?_⟩,by simp [blank,type],fun loaded fresh => by simp [fresh] at loaded⟩
    rcases which with rfl | ⟨_,zero | settled⟩
    · exact prepared.settled.imp_right fun settled => initializes settled rfl
    · exact .inl zero
    · exact .inr (initializes settled type)

theorem encode_subkey (env : Environment) (e : Encoder) (key : Key) (c : CarrierFile) :
    (c.encode env e key).1.subkey = some key ∧ (c.encode env e key).1.file = c.file := by
  simp only [encode,CarrierFile.setEncoder]
  split <;> exact ⟨rfl,rfl⟩

theorem subkey_file {key : Key} {i : Nat} {c c' : CarrierFile} (name : c.file = c'.file) : subkey env key i c = subkey env key i c' := by
  rw [subkey,subkey,name]

theorem assigned_subkey {key : Key} {ref i : Nat} {c : CarrierFile}
    (here : (assignShares (encodeAll env e key files) ref n)[i]? = some c) : c.subkey = some (subkey env key i c) := by
  rw [assignShares_get,encodeAll,List.getElem?_mapIdx] at here
  obtain ⟨_,there,rfl⟩ := Option.map_eq_some_iff.mp here
  obtain ⟨original,_,rfl⟩ := Option.map_eq_some_iff.mp there
  obtain ⟨holds,name⟩ := encode_subkey env e (subkey env key i original) original
  exact holds.trans (congrArg some (subkey_file name.symm))

/-- What the tasks leave of the carriers of a manager, whether they return or not. -/
theorem Unloaded.after_tasks (unloaded : Unloaded env directory m) (accepts : m.Accepts env e) {ref : Nat}
    (mapped : s.Mapped n f) {result : Except Failure Unit}
    (ran : loadFiles env directory (assignShares (m.applied env e).carrierFiles ref n) s = ((files,s'),result)) :
    files.map blank = m.blanks ∧ Settled env (m.key env) files ∧
      (∀ c ∈ files, c.fileLoaded = true → 0 < c.permutation.size) ∧
      (result ≠ .ok () → ∃ c ∈ files, c.fileLoaded = false) := by
  obtain ⟨waiting,sizes⟩ := unloaded.waiting accepts ref n
  obtain ⟨all,some_⟩ := loadFiles_each waiting sizes mapped
  rw [ran] at all some_
  have each : ∀ (i : Nat) (c' : CarrierFile), files[i]? = some c' → ∃ c,
      (assignShares (m.applied env e).carrierFiles ref n)[i]? = some c ∧ c.fileLoaded = false ∧
        SettledFor env (subkey env (m.key env) i c) c' ∧ c'.blank = c.blank ∧
          (c'.fileLoaded = true → c.fileLoaded = false → 0 < c'.permutation.size) := by
    intro i c' here
    obtain ⟨c,there,outcome⟩ := forall₂_right all here
    have member := List.mem_of_getElem? there
    exact ⟨c,there,waiting.fresh c member,outcome.settled (waiting.prepared c member) (assigned_subkey there)⟩
  refine ⟨?_,?_,?_,some_⟩
  · have created : (assignShares (m.applied env e).carrierFiles ref n).map blank = m.blanks := by
      rw [blanks_assignShares]
      exact (@applied_alike env e m).blanks
    rw [← created]
    apply List.ext_getElem?
    intro i
    rw [List.getElem?_map,List.getElem?_map]
    cases here : files[i]? with
    | none =>
      have past := List.getElem?_eq_none_iff.mp here
      rw [List.getElem?_eq_none (by rw [all.length_eq]; exact past)]
    | some c' =>
      obtain ⟨c,there,_,_,same,_⟩ := each i c' here
      rw [there]
      exact congrArg some same
  · intro i c' here
    obtain ⟨c,_,_,settled,same,_⟩ := each i c' here
    have name := congrArg CarrierFile.file same
    simp only [blank] at name
    rw [subkey_file name]
    exact settled
  · intro c' member loaded
    obtain ⟨i,here⟩ := List.mem_iff_getElem?.mp member
    obtain ⟨c,_,fresh,_,_,positive⟩ := each i c' here
    exact positive loaded fresh

end CarrierFilesManager
end StegoDisk
