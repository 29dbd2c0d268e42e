import StegoDisk.LoadSave
import StegoDisk.Opening

/-!
The tasks of a load over a list of carriers. After a load that returned, every byte of the
storage is what the block of the carrier that owns it is decoded to.
-/
namespace StegoDisk

namespace CarrierFilesManager
open CarrierFile Loops Segments

variable {env : Environment} {e : Encoder} {directory : Directory} {files files' : List CarrierFile}
  {s s' : VirtualStorage} {n : Nat} {f : Nat → Nat}

/-- The images are as large as they were when the carriers were created. -/
def Matches (directory : Directory) (files : List CarrierFile) : Prop :=
  ∀ file ∈ files, ∀ image, directory.image file.file = .ok image → image.rawCapacity = file.rawCapacity

/-- Carriers that wait to be loaded. -/
structure Waiting (env : Environment) (e : Encoder) (files : List CarrierFile) : Prop where
  prepared : ∀ file ∈ files, Prepared env e file
  fresh : ∀ file ∈ files, file.fileLoaded = false
  used : ∀ file ∈ files, file.blocksUsed ≤ file.blockCount

/-- A carrier after loading, and the task that loading was. -/
def LoadedAs (env : Environment) (e : Encoder) (directory : Directory) (file : CarrierFile)
    (result : CarrierFile × List Call) : Prop :=
  ∃ image, directory.image file.file = .ok image ∧ Loads env e file image result.1 result.2

/-! ### Carriers with subkeys -/

/-- A carrier whose permutation, where it is initialised, is the one that `Init` gives with a key. -/
def SettledFor (env : Environment) (key : Key) (c : CarrierFile) : Prop :=
  0 < c.rawCapacity ∧ (c.permutation.size = 0 ∨ { c with subkey := some key }.Initializes env c.permutation)

/-- Carriers that are settled for the subkeys of a master key. -/
def Settled (env : Environment) (key : Key) (files : List CarrierFile) : Prop :=
  ∀ (i : Nat) (c : CarrierFile), files[i]? = some c → SettledFor env (subkey env key i c) c

/-- `SetEncoder` prepares a carrier and leaves everything else as it was. -/
theorem encode_prepared {key : Key} {c : CarrierFile} (settled : SettledFor env key c)
    (returns : (c.encode env e key).2 = .ok ()) :
    Prepared env e (c.encode env e key).1 ∧ ∃ count capacity, (c.encode env e key).1 =
      { c with subkey := some key, encoder := some e, dataBlockSize := e.dataBlockSize,
               codewordBlockSize := e.codewordBlockSize, blockCount := count, capacity := capacity } := by
  obtain ⟨prepared,same⟩ := @setEncoder_prepared env e { c with subkey := some key } (c.encode env e key).1 settled.1 rfl settled.2
    (Prod.ext rfl returns)
  exact ⟨prepared,_,_,same⟩

theorem prepared_addToVirtualStorage {c : CarrierFile} (prepared : Prepared env e c) (ref start used : Nat) :
    Prepared env e (c.addToVirtualStorage ref start used) :=
  ⟨prepared.positive,prepared.encoder,prepared.dataBlockSize,prepared.codewordBlockSize,prepared.subkey,prepared.sizes,
    prepared.settled⟩

theorem encodeAll_shaped {key : Key} (settled : Settled env key files) (all : Encodable env e key files) :
    ∀ c ∈ encodeAll env e key files, Prepared env e c ∧ Shaped c := by
  intro c member
  obtain ⟨i,here⟩ := List.mem_iff_getElem?.mp member
  rw [encodeAll,List.getElem?_mapIdx] at here
  obtain ⟨original,there,rfl⟩ := Option.map_eq_some_iff.mp here
  have prepared := (encode_prepared (settled i original there) (all i original there)).1
  exact ⟨prepared,prepared.shaped e.dataBlockSize_lt⟩

/-- Carriers that are not loaded wait for their shares. -/
theorem waiting_assignShares {key : Key} (settled : Settled env key files) (all : Encodable env e key files)
    (fresh : ∀ c ∈ files, c.fileLoaded = false) (ref n : Nat) :
    Waiting env e (assignShares (encodeAll env e key files) ref n) := by
  have prepared := encodeAll_shaped settled all
  refine ⟨?_,?_,fun c member => blocksUsed_le (fun c held => (prepared c held).2) member⟩
  · intro c member
    obtain ⟨k,here⟩ := List.mem_iff_getElem?.mp member
    rw [assignShares_get] at here
    obtain ⟨original,there,rfl⟩ := Option.map_eq_some_iff.mp here
    exact prepared_addToVirtualStorage (prepared original (List.mem_of_getElem? there)).1 _ _ _
  · intro c member
    obtain ⟨k,here⟩ := List.mem_iff_getElem?.mp member
    rw [assignShares_get,encodeAll,List.getElem?_mapIdx] at here
    obtain ⟨_,there,rfl⟩ := Option.map_eq_some_iff.mp here
    obtain ⟨original,before,rfl⟩ := Option.map_eq_some_iff.mp there
    obtain ⟨_,_,same⟩ := (encode_prepared (settled k original before) (all k original before)).2
    rw [same]
    exact fresh original (List.mem_of_getElem? before)

/-! ### The tasks -/

theorem Waiting.tail {file : CarrierFile} (waiting : Waiting env e (file::files)) : Waiting env e files :=
  ⟨fun c member => waiting.prepared c (List.mem_cons_of_mem _ member),
    fun c member => waiting.fresh c (List.mem_cons_of_mem _ member),
    fun c member => waiting.used c (List.mem_cons_of_mem _ member)⟩

/-- When all tasks return, every carrier was loaded. -/
theorem loadFiles_inv (waiting : Waiting env e files) (matches_ : Matches directory files) (mapped : s.Mapped n f)
    (returns : loadFiles env directory files s = ((files',s'),.ok ())) :
    ∃ results, List.Forall₂ (LoadedAs env e directory) files results ∧ files' = results.map Prod.fst ∧
      s' = s.replay (results.map Prod.snd).flatten := by
  induction files generalizing s files' with
  | nil =>
    simp only [loadFiles,Prod.mk.injEq,and_true] at returns
    obtain ⟨rfl,rfl⟩ := returns
    exact ⟨[],.nil,rfl,rfl⟩
  | cons file rest ih =>
    have fresh := waiting.fresh file List.mem_cons_self
    rcases opened : directory.image file.file with failure | image
    · simp [loadFiles,opened,fresh] at returns
    · simp only [loadFiles,opened,Prod.mk.injEq] at returns
      obtain ⟨⟨rfl,rfl⟩,ended⟩ := returns
      obtain ⟨_,first,others⟩ := bind_eq_ok.mp ended
      obtain ⟨task,loads,after⟩ := loadFile_inv (waiting.prepared file List.mem_cons_self) fresh
        (waiting.used file List.mem_cons_self) (matches_ file List.mem_cons_self image opened) mapped
        (Prod.ext rfl first)
      have mapped' : (file.loadFile env image s).1.2.Mapped n f := by
        rw [after]
        exact mapped.replay task
      obtain ⟨results,all,same,replayed⟩ := ih waiting.tail (fun c member => matches_ c (List.mem_cons_of_mem _ member))
        mapped' (Prod.ext rfl others)
      refine ⟨((file.loadFile env image s).1.1,task)::results,.cons ⟨image,opened,loads⟩ all,?_,?_⟩
      · rw [List.map_cons,← same]
      · rw [replayed,List.map_cons,List.flatten_cons,after]
        simp only [VirtualStorage.replay,List.foldl_append]

/-- Carriers that all have a share are loaded. -/
theorem loadFiles_ok (waiting : Waiting env e files) (shares : ∀ file ∈ files, 0 < file.blocksUsed)
    (opened : ∀ file ∈ files, ∃ image, directory.image file.file = .ok image ∧ Opened file image) (n : Nat) (f : Nat → Nat) :
    ∃ results, List.Forall₂ (LoadedAs env e directory) files results ∧ ∀ s : VirtualStorage, s.Mapped n f →
      loadFiles env directory files s = ((results.map Prod.fst,s.replay (results.map Prod.snd).flatten),.ok ()) := by
  induction files with
  | nil => exact ⟨[],.nil,fun _ _ => rfl⟩
  | cons file rest ih =>
    obtain ⟨image,there,opens⟩ := opened file List.mem_cons_self
    obtain ⟨results,all,ran⟩ := ih waiting.tail (fun c member => shares c (List.mem_cons_of_mem _ member))
      fun c member => opened c (List.mem_cons_of_mem _ member)
    obtain ⟨file',task,loads,first⟩ := loadFile_ok (waiting.prepared file List.mem_cons_self)
      (waiting.fresh file List.mem_cons_self) (waiting.used file List.mem_cons_self) (shares file List.mem_cons_self)
      opens n f
    refine ⟨(file',task)::results,.cons ⟨image,there,loads⟩ all,?_⟩
    intro s mapped
    simp only [loadFiles,there,first s mapped,ran _ (mapped.replay task),ok_bind,List.map_cons,List.flatten_cons]
    simp only [VirtualStorage.replay,List.foldl_append]

/-! ### Where a byte comes from -/

private theorem plan_fields {a b : CarrierFile} (same : a.plan = b.plan) :
    a.blocksUsed = b.blocksUsed ∧ a.dataBlockSize = b.dataBlockSize ∧ a.virtualStorageOffset = b.virtualStorageOffset := by
  simp only [plan,CarrierFile.mk.injEq] at same
  obtain ⟨_,_,_,_,_,size,_,_,used,start,_⟩ := same
  exact ⟨used,size,start⟩

theorem accesses_plan (same : files.map plan = files'.map plan) {access : Nat × Nat × Nat} {p : Nat}
    (accesses : Accesses files access p) : Accesses files' access p := by
  obtain ⟨file,here,block,byte,place⟩ := accesses
  have there : (files'.map plan)[access.1]? = some file.plan := by
    rw [← same,List.getElem?_map,here]
    rfl
  rw [List.getElem?_map] at there
  obtain ⟨file',here',plans⟩ := Option.map_eq_some_iff.mp there
  obtain ⟨used,size,start⟩ := plan_fields plans
  refine ⟨file',here',by omega,by omega,?_⟩
  rw [← place,position,position,size,start]

theorem offset_plan (same : files.map plan = files'.map plan) (k : Nat) : offset files k = offset files' k := by
  have capacities := congrArg (List.map CarrierFile.capacity) same
  simp only [List.map_map] at capacities
  rw [offset,offset]
  exact congrArg (Segments.start · k) capacities

theorem LoadedAs.plan {file : CarrierFile} {result : CarrierFile × List Call}
    (loaded : LoadedAs env e directory file result) : result.1.plan = file.plan := by
  obtain ⟨image,_,q,_,_,_,type,_,same,_⟩ := loaded
  rw [same]
  simp only [CarrierFile.plan,type]

theorem loaded_plan {results : List (CarrierFile × List Call)} (all : List.Forall₂ (LoadedAs env e directory) files results) :
    (results.map Prod.fst).map plan = files.map plan := by
  induction all with
  | nil => rfl
  | cons first _ ih => rw [List.map_cons,List.map_cons,List.map_cons,first.plan,ih]

/-- What a carrier wrote is what the blocks of its image are decoded to. -/
theorem LoadedAs.decodes {file : CarrierFile} {result : CarrierFile × List Call}
    (loaded : LoadedAs env e directory file result) :
    ∃ image values, directory.image result.1.file = .ok image ∧ result.2 = result.1.calls values ∧
      ∀ b < result.1.blocksUsed, ∃ data, result.1.DecodesTo e image b data ∧ ∀ i, values b i = data.getD i 0 := by
  obtain ⟨loaded_,task⟩ := result
  obtain ⟨image,found,q,g,buffer,opened,_,ready,same,unpacked,calls⟩ := loaded
  simp only at same calls unpacked
  subst same
  obtain ⟨_,unpacked',_,blocks⟩ := @Ready.unpacks _ _ _ image _ ready.loaded ⟨opened.raw,opened.opens,opened.decodes⟩
  obtain rfl := Except.ok.inj (unpacked.symm.trans unpacked')
  refine ⟨image,_,found,calls,?_⟩
  intro b used
  obtain ⟨data,decode,_,values⟩ := blocks b used
  exact ⟨data,⟨buffer,unpacked,decode⟩,values⟩

/-- The bytes of a storage are those that the images hold: each byte that a carrier owns is what
    its block is decoded to. A carrier owns the positions before the next carrier. -/
def Reflects (e : Encoder) (directory : Directory) (files : List CarrierFile) (n : Nat) (s : VirtualStorage) : Prop :=
  ∀ k b i p, Accesses files (k,b,i) p → p < n → p < offset files (k + 1) →
    ∃ file image data, files[k]? = some file ∧ directory.image file.file = .ok image ∧ file.DecodesTo e image b data ∧
      s.byteAt p = data.getD i 0

/-- Loading writes to a position of a carrier what its block is decoded to: the tasks of
    later carriers do not reach it, and those of earlier ones have ended. -/
theorem loaded_reflects {ref : Nat} (shaped : ∀ file ∈ files, Shaped file) (mapped : s.Mapped n f)
    {results : List (CarrierFile × List Call)}
    (all : List.Forall₂ (LoadedAs env e directory) (assignShares files ref n) results) :
    Reflects e directory (results.map Prod.fst) n (s.replay (results.map Prod.snd).flatten) := by
  have plans := loaded_plan all
  have reached : ∀ (j : Nat) (result : CarrierFile × List Call) (values : Nat → Nat → UInt8), results[j]? = some result →
      ∀ call ∈ result.1.calls values, ∃ b i, Accesses (assignShares files ref n) (j,b,i) call.1 ∧ call.2 = values b i := by
    intro j result values there call member
    obtain ⟨b,used,i,byte,rfl⟩ := mem_calls.mp member
    exact ⟨b,i,accesses_plan plans ⟨result.1,by rw [List.getElem?_map,there]; rfl,used,byte,rfl⟩,rfl⟩
  intro k b i p access inside own
  rw [offset_plan plans,offset,assignShares_capacity] at own
  have access' := accesses_plan plans access
  obtain ⟨file,here,block,byte,place⟩ := access
  rw [List.getElem?_map] at here
  obtain ⟨⟨carrier,task⟩,there,rfl⟩ := Option.map_eq_some_iff.mp here
  obtain ⟨_,_,loaded⟩ := forall₂_right all there
  obtain ⟨image,values,found,calls,blocks⟩ := loaded.decodes
  simp only at block byte place found calls blocks
  subst calls
  obtain ⟨data,decodes,bytes⟩ := blocks b block
  refine ⟨carrier,image,data,by rw [List.getElem?_map,there]; rfl,found,decodes,?_⟩
  have tasks := split_at (show (results.map Prod.snd)[k]? = some _ by rw [List.getElem?_map,there]; rfl)
  rw [tasks,List.flatten_append,List.flatten_cons]
  simp only [VirtualStorage.replay,List.foldl_append]
  refine (VirtualStorage.Mapped.replay_other ((mapped.replay _).replay _) inside ?_).trans
    (VirtualStorage.Mapped.replay_byteAt (mapped.replay _) inside ?_ (.inr ?_))
  · intro call member same
    obtain ⟨later,behind,member⟩ := List.mem_flatten.mp member
    obtain ⟨j,found⟩ := List.mem_iff_getElem?.mp behind
    rw [List.getElem?_drop,List.getElem?_map] at found
    obtain ⟨result,there',rfl⟩ := Option.map_eq_some_iff.mp found
    obtain ⟨_,_,loaded'⟩ := forall₂_right all there'
    obtain ⟨_,values',_,calls,_⟩ := loaded'.decodes
    rw [calls] at member
    obtain ⟨_,_,access'',_⟩ := reached _ result values' there' call member
    have low := access_low shaped mapped.fits access''
    have mono := start_mono (files.map CarrierFile.capacity) (show k + 1 ≤ k + 1 + j by omega)
    rw [offset] at low
    omega
  · intro call member same
    obtain ⟨b',i',access'',value⟩ := reached k _ values there call member
    rw [same] at access''
    obtain ⟨rfl,rfl⟩ := access_unique shaped mapped.fits access' access''
    rw [value,bytes]
  · exact ⟨_,mem_calls.mpr ⟨b,block,i,byte,rfl⟩,place⟩

end CarrierFilesManager
end StegoDisk
