import StegoDisk.LoadTasks
import StegoDisk.PoolRuns
import StegoDisk.Directories

/-!
The `LoadFile` and `SaveFile` tasks in the pool. A `SaveFile` task opens its file and, later, writes it back; it reads
the storage, which no other task of a save changes. Whatever the workers do in between, the tasks leave what they leave
one after another, as `loadFiles` and `saveFiles` run them.
-/
namespace StegoDisk
open Interleaving

variable {directory : Directory} {file other : File}

namespace Directory

/-- The directory after a task that may have written a file. -/
def keep (directory : Directory) (file : File) : Option Image → Directory
  | some image => directory.write file image
  | none => directory

theorem write_comm (differ : file ≠ other) (image image' : Image) :
    (directory.write file image).write other image' = (directory.write other image').write file image := by
  simp only [write,List.map_map,mk.injEq]
  refine List.map_congr_left fun entry _ => ?_
  by_cases first : entry.1 = file
  · have second : entry.1 ≠ other := by
      rw [first]
      exact differ
    simp [first,differ]
  · by_cases second : entry.1 = other
    · simp [second,Ne.symm differ]
    · simp [first,second]

theorem keep_comm (differ : file ≠ other) (image image' : Option Image) :
    (directory.keep file image).keep other image' = (directory.keep other image').keep file image := by
  cases image with
  | none => rfl
  | some image =>
    cases image' with
    | none => rfl
    | some image' => exact write_comm differ image image'

theorem image_keep_other (differ : other ≠ file) (image : Option Image) :
    (directory.keep file image).image other = directory.image other := by
  cases image with
  | none => rfl
  | some image => exact image_write_other differ

end Directory

/-- A `SaveFile` task: its carrier, the file as it was opened, and the result for the future. -/
structure SaveTask where
  file : CarrierFile
  opened : Option (Except Failure Image) := none
  result : Except Failure Unit := .ok ()

/-- What such a task does in turn. -/
inductive SavePhase
  | opens
  | writes

/-- What the tasks of a save share. -/
structure Saves where
  directory : Directory
  tasks : List SaveTask

namespace CarrierFilesManager

/-- The carrier after `SaveFile`, and the image to be written. -/
def savedFile (env : Environment) (storages : List VirtualStorage) (file : CarrierFile) :
    Except Failure Image → CarrierFile × Except Failure Image
  | .error failure => (file,.error failure)
  | .ok image => file.saveFile env image ((file.virtualStorage.bind (storages[·]?)).getD {})

end CarrierFilesManager

open CarrierFilesManager

/-- The task after a phase, and the image that it writes. -/
def SaveTask.effect (env : Environment) (storages : List VirtualStorage) (task : SaveTask) (directory : Directory) :
    SavePhase → SaveTask × Option Image
  | .opens => ({ task with opened := some (directory.image task.file.file) },none)
  | .writes =>
    match task.opened with
    | none => (task,none)
    | some opened =>
      let saved := savedFile env storages task.file opened
      ({ task with file := saved.1, result := saved.2.map fun _ => () },saved.2.toOption)

namespace Saves

/-- Task `k` takes its next phase. -/
def act (env : Environment) (storages : List VirtualStorage) (s : Saves) (action : Nat × SavePhase) : Saves :=
  match s.tasks[action.1]? with
  | none => s
  | some task =>
    let effect := task.effect env storages s.directory action.2
    { directory := s.directory.keep task.file.file effect.2, tasks := s.tasks.set action.1 effect.1 }

/-- `SaveAllFiles` as it has put its tasks into the queue. -/
def start (files : List CarrierFile) (directory : Directory) : Saves where
  directory := directory
  tasks := files.map fun file => { file := file }

/-- The tasks of so many carriers, from number `first` on. -/
def phases (first count : Nat) : List (List (Nat × SavePhase)) :=
  (List.range' first count).map fun k => [(k,.opens),(k,.writes)]

/-- The futures are asked in their order; the first failure is thrown. -/
def get (s : Saves) : Except Failure Unit := s.tasks.foldr (fun task rest => task.result >>= fun _ => rest) (.ok ())

/-- The tasks write different files. -/
def Distinct (s : Saves) : Prop := (s.tasks.map fun task => task.file.file).Nodup

variable {env : Environment} {storages : List VirtualStorage} {s : Saves}

theorem effect_file (task : SaveTask) (directory : Directory) (phase : SavePhase) :
    (task.effect env storages directory phase).1.file.file = task.file.file := by
  cases phase with
  | opens => rfl
  | writes =>
    rcases opened : task.opened with _ | failure | image
    · simp [SaveTask.effect,opened]
    · simp [SaveTask.effect,opened,savedFile]
    · obtain ⟨q,same⟩ := CarrierFile.saveFile_carrier env task.file image
        ((task.file.virtualStorage.bind (storages[·]?)).getD {})
      simp [SaveTask.effect,opened,savedFile,same]

/-- Another task leaves what a task sees. -/
theorem effect_keep {task task' : SaveTask} (differ : task.file.file ≠ task'.file.file) (image : Option Image)
    (phase : SavePhase) :
    task.effect env storages (s.directory.keep task'.file.file image) phase = task.effect env storages s.directory phase := by
  cases phase with
  | opens => simp only [SaveTask.effect,Directory.image_keep_other differ]
  | writes => rfl

theorem act_distinct (s : Saves) (action : Nat × SavePhase) (distinct : s.Distinct) : (s.act env storages action).Distinct := by
  unfold act
  rcases here : s.tasks[action.1]? with _ | task
  · exact distinct
  have same : ((s.tasks.set action.1 (task.effect env storages s.directory action.2).1).map fun task => task.file.file) =
      s.tasks.map fun task => task.file.file := by
    obtain ⟨inside,rfl⟩ := List.getElem?_eq_some_iff.mp here
    rw [List.map_set,effect_file]
    exact List.ext_getElem (by simp) fun i _ _ => by
      rw [List.getElem_set]
      split
      · rename_i own
        subst own
        simp
      · rfl
  simp only [Distinct,same]
  exact distinct

theorem act_comm (distinct : s.Distinct) {j k : Nat} (differ : j ≠ k) (phase phase' : SavePhase) :
    (s.act env storages (j,phase)).act env storages (k,phase') = (s.act env storages (k,phase')).act env storages (j,phase) := by
  rcases first : s.tasks[j]? with _ | task
  · have still : (s.act env storages (k,phase')).tasks[j]? = none := by
      unfold act
      rcases second : s.tasks[k]? with _ | task'
      · exact first
      · simp [List.getElem?_set_ne (Ne.symm differ),first]
    simp only [act,first] at still ⊢
    rw [still]
  rcases second : s.tasks[k]? with _ | task'
  · simp [act,first,second,List.getElem?_set_ne differ]
  have apart : task.file.file ≠ task'.file.file := by
    intro same
    obtain ⟨inside,_⟩ := List.getElem?_eq_some_iff.mp first
    refine differ ((List.getElem?_inj (by simpa using inside) distinct).mp ?_)
    rw [List.getElem?_map,List.getElem?_map,first,second,Option.map_some,Option.map_some,same]
  simp only [act,first,second,List.getElem?_set_ne differ,List.getElem?_set_ne (Ne.symm differ),effect_keep apart,
    effect_keep apart.symm,Directory.keep_comm apart,List.set_comm _ _ differ]

/-- Phases of different tasks do not disturb each other. -/
theorem independent (first count : Nat) : Independent Distinct (act env storages) (phases first count) := by
  have own : ∀ (j : Nat) (task : List (Nat × SavePhase)), (phases first count)[j]? = some task →
      ∀ a ∈ task, a.1 = first + j := by
    intro j task here a member
    simp only [phases,List.getElem?_map] at here
    obtain ⟨k,at_,rfl⟩ := Option.map_eq_some_iff.mp here
    obtain ⟨inside,rfl⟩ := List.getElem?_eq_some_iff.mp at_
    rcases List.mem_pair.mp member with rfl | rfl <;> simp
  intro j k task task' here there differ a member b member' s distinct
  obtain ⟨number,phase⟩ := a
  obtain ⟨number',phase'⟩ := b
  have place := own j task here _ member
  have place' := own k task' there _ member'
  simp only at place place'
  exact act_comm distinct (by omega) phase phase'

/-- The phases of one task, one after the other, are its part of `saveFiles`. -/
theorem act_both {k : Nat} {task : SaveTask} (here : s.tasks[k]? = some task) :
    (s.act env storages (k,.opens)).act env storages (k,.writes) =
      let opened := s.directory.image task.file.file
      let saved := savedFile env storages task.file opened
      { directory := s.directory.keep task.file.file saved.2.toOption
        tasks := s.tasks.set k ⟨saved.1,some opened,saved.2.map fun _ => ()⟩ } := by
  obtain ⟨inside,_⟩ := List.getElem?_eq_some_iff.mp here
  have opens : s.act env storages (k,.opens) =
      { s with tasks := s.tasks.set k { task with opened := some (s.directory.image task.file.file) } } := by
    simp only [act,here,SaveTask.effect,Directory.keep]
  rw [opens]
  simp only [act,List.getElem?_set_self inside,SaveTask.effect,List.set_set]

theorem saveFiles_cons (env : Environment) (storages : List VirtualStorage) (file : CarrierFile) (rest : List CarrierFile)
    (directory : Directory) :
    saveFiles env storages (file::rest) directory =
      let saved := savedFile env storages file (directory.image file.file)
      let after := saveFiles env storages rest (directory.keep file.file saved.2.toOption)
      ((saved.1::after.1.1,after.1.2),saved.2 >>= fun _ => after.2) := by
  rw [saveFiles]
  rcases directory.image file.file with failure | image
  · rfl
  · simp only [savedFile]
    rcases (file.saveFile env image ((file.virtualStorage.bind (storages[·]?)).getD {})).2 with failure | image' <;> rfl

/-- The tasks one after another: the carriers, the directory and the failure that is thrown are those of `saveFiles`. -/
theorem sequential (env : Environment) (storages : List VirtualStorage) (files : List CarrierFile) :
    ∀ (done : List SaveTask) (directory : Directory), ∃ tasks,
      (phases done.length files.length).flatten.foldl (act env storages)
          ⟨directory,done ++ files.map fun file => { file := file }⟩ =
        ⟨(saveFiles env storages files directory).1.2,done ++ tasks⟩ ∧
      tasks.map SaveTask.file = (saveFiles env storages files directory).1.1 ∧
      Saves.get ⟨directory,tasks⟩ = (saveFiles env storages files directory).2 := by
  induction files with
  | nil => exact fun done directory => ⟨[],rfl,rfl,rfl⟩
  | cons file rest ih =>
    intro done directory
    let saved := savedFile env storages file (directory.image file.file)
    let task : SaveTask := ⟨saved.1,some (directory.image file.file),saved.2.map fun _ => ()⟩
    obtain ⟨tasks,ran,files,failure⟩ := ih (done ++ [task]) (directory.keep file.file saved.2.toOption)
    have here : (done ++ (file::rest).map fun file => ({ file := file } : SaveTask))[done.length]? = some { file := file } := by
      simp
    have both := @act_both env storages ⟨directory,_⟩ done.length _ here
    refine ⟨task::tasks,?_,?_,?_⟩
    · have tail : phases (done.length + 1) rest.length = phases (done ++ [task]).length rest.length := by simp
      rw [show phases done.length (file::rest).length =
        [(done.length,.opens),(done.length,.writes)]::phases (done.length + 1) rest.length by
          simp [phases,List.range'_succ],List.flatten_cons,List.foldl_append,List.foldl_cons,List.foldl_cons,List.foldl_nil,
        both,tail]
      have placed : (done ++ (file::rest).map fun file => ({ file := file } : SaveTask)).set done.length task =
          (done ++ [task]) ++ rest.map fun file => ({ file := file } : SaveTask) := by
        simp
      simp only
      rw [placed,ran,saveFiles_cons]
      simp [saved]
    · rw [saveFiles_cons,List.map_cons,files]
    · rw [saveFiles_cons]
      simp only [Saves.get,List.foldr_cons] at failure ⊢
      rw [failure]
      simp only [task]
      rcases saved.2 with failed | image <;> rfl

end Saves

/-! ### In the pool -/

section Pool
open ThreadPool

variable {α : Type}

/-- `SaveAllFiles` on a pool whose futures are all ready: when its own are ready too, what the workers did leaves the
    carriers, the directory and the failure of `saveFiles`. -/
theorem saveFiles_pooled (env : Environment) (storages : List VirtualStorage) (files : List CarrierFile)
    (directory : Directory) (distinct : (files.map CarrierFile.file).Nodup) (action : Nat × SavePhase → α)
    (threads hardware : Nat) (h h' : History α) (moves : List (Step α)) (reaches : Reaches threads hardware h)
    (idle : ∀ i < h.pool.futures, h.pool.Ready i) (ran : h.run moves = some h')
    (enqueued : h'.accepted = h.accepted ++ (Saves.phases 0 files.length).map (List.map action))
    (ready : ∀ i < h'.pool.futures, h'.pool.Ready i) :
    ∃ schedule : List (Nat × SavePhase), h'.performed = h.performed ++ schedule.map action ∧
      ∃ after, schedule.foldl (Saves.act env storages) (Saves.start files directory) = after ∧
        (after.tasks.map SaveTask.file,after.directory) = (saveFiles env storages files directory).1 ∧
        after.get = (saveFiles env storages files directory).2 := by
  obtain ⟨new,renamed,same,performed,interleaves⟩ := interleaves_between ran reaches idle ready
  obtain rfl := List.append_cancel_left (enqueued.symm.trans same)
  obtain ⟨schedule,rfl,takesTurns⟩ := interleaves.of_map
  have starts : (Saves.start files directory).Distinct := by
    simpa [Saves.Distinct,Saves.start,Function.comp_def] using distinct
  obtain ⟨tasks,ran,carriers,failure⟩ := Saves.sequential env storages files [] directory
  refine ⟨schedule,performed,_,rfl,?_⟩
  rw [takesTurns.foldl (@Saves.independent env storages 0 files.length) Saves.act_distinct starts]
  have whole : (Saves.phases 0 files.length).flatten.foldl (Saves.act env storages) (Saves.start files directory) =
      ⟨(saveFiles env storages files directory).1.2,tasks⟩ := ran
  rw [whole]
  exact ⟨by rw [carriers],failure⟩

/-- Two pictures of three pixels, and a carrier of one byte for each. -/
def smallPictures : Directory where
  entries := [(⟨[],[97,46,112,110,103]⟩,.ok (.png [1,0,0,1,0,1,1,0,0])),(⟨[],[98,46,112,110,103]⟩,.ok (.png [0,1,1,0,1,0,0,1,1]))]
  distinct := by decide

def smallCarriers : List CarrierFile :=
  [{ ofBlocks 1 1 with
      file := ⟨[],[97,46,112,110,103]⟩, rawCapacity := 1, encoder := some (.ofType .lsb), codewordBlockSize := 1
      subkey := some Hash.initial },
    { ofBlocks 1 1 with
      file := ⟨[],[98,46,112,110,103]⟩, rawCapacity := 1, encoder := some (.ofType .lsb), codewordBlockSize := 1
      subkey := some Hash.initial }]

/-- The carriers, loaded into a storage of two bytes. -/
def loadedCarriers : List CarrierFile :=
  (loadFiles Permutation.twoPrimes smallPictures (assignShares smallCarriers 0 2) (.ofZeros 2)).1.1

/-- Two workers that take turns. -/
def takingTurns : List (Step (Nat × SavePhase)) :=
  [.enqueue [(0,.opens),(0,.writes)],.enqueue [(1,.opens),(1,.writes)],.test 0,.test 1,.act 1,.act 0,.act 1,.act 0,
    .finish 0,.finish 1]

/-- Zeros are saved in two pictures. -/
theorem saveFiles_pooled_two : (∃ schedule : List (Nat × SavePhase),
    [(1,.opens),(0,.opens),(1,.writes),(0,.writes)] = [] ++ schedule.map id ∧
      ∃ after, schedule.foldl (Saves.act Permutation.twoPrimes [.ofZeros 2]) (Saves.start loadedCarriers smallPictures) = after ∧
        (after.tasks.map SaveTask.file,after.directory) =
          (saveFiles Permutation.twoPrimes [.ofZeros 2] loadedCarriers smallPictures).1 ∧
        after.get = (saveFiles Permutation.twoPrimes [.ofZeros 2] loadedCarriers smallPictures).2) ∧
    (saveFiles Permutation.twoPrimes [.ofZeros 2] loadedCarriers smallPictures).2 = .ok () :=
  ⟨saveFiles_pooled Permutation.twoPrimes [.ofZeros 2] loadedCarriers smallPictures (by decide) id 2 0 { pool := create 2 0 }
    ⟨⟨[.testing,.testing],[],false,2,2,false⟩,Saves.phases 0 2,_⟩ takingTurns ⟨[],rfl⟩
    (ready_of_pending rfl) rfl rfl (ready_of_pending rfl),by decide⟩

/-- `LoadVirtualStorage` on such a pool, when every carrier that ends before the storage does is whole blocks. Each
    of its tasks makes the calls of `WriteByte` that loading its carrier makes, whatever the storage holds; and whatever
    order the workers make them in, they leave the storage, the carriers and the failure of `loadFiles`. -/
theorem loadFiles_pooled (env : Environment) (directory : Directory) (files : List CarrierFile) (ref n : Nat)
    (s : VirtualStorage) (f : Nat → Nat) (shaped : ∀ file ∈ files, Shaped file) (aligned : Aligned files n)
    (mapped : s.Mapped n f) (action : Call → α) (threads hardware : Nat) (h h' : History α) (moves : List (Step α))
    (reaches : Reaches threads hardware h) (idle : ∀ i < h.pool.futures, h.pool.Ready i) (ran : h.run moves = some h')
    (enqueued : h'.accepted = h.accepted ++
      (loadTasks env directory (assignShares files ref n)).map fun task => task.calls.map action)
    (ready : ∀ i < h'.pool.futures, h'.pool.Ready i) :
    (∀ file ∈ assignShares files ref n, ∀ s' : VirtualStorage, s'.Mapped n f → loadFiles env directory [file] s' =
      (([(loadTask env directory file).file],s'.replay (loadTask env directory file).calls),
        (loadTask env directory file).result)) ∧
    ∃ schedule : List Call, h'.performed = h.performed ++ schedule.map action ∧
      loadFiles env directory (assignShares files ref n) s =
        (((loadTasks env directory (assignShares files ref n)).map LoadTask.file,s.replay schedule),
          loadResult (loadTasks env directory (assignShares files ref n))) := by
  constructor
  · intro file _ s' mapped'
    rw [loadFiles_calls env directory [file] mapped']
    simp only [loadTasks,List.map_cons,List.map_nil,List.flatten_cons,List.flatten_nil,List.append_nil,loadResult,
      List.foldr_cons,List.foldr_nil]
    rcases (loadTask env directory file).result with failure | _ <;> rfl
  obtain ⟨new,renamed,same,performed,interleaves⟩ := interleaves_between ran reaches idle ready
  obtain rfl := List.append_cancel_left (enqueued.symm.trans same)
  have calls : Interleaves (((loadTasks env directory (assignShares files ref n)).map LoadTask.calls).map
      (List.map action)) renamed := by
    rw [List.map_map]
    exact interleaves
  obtain ⟨schedule,rfl,takesTurns⟩ := calls.of_map
  refine ⟨schedule,performed,?_⟩
  rw [loadFiles_calls env directory (assignShares files ref n) mapped,
    (aligned.orderIndependent shaped mapped (loadTasks_tasks env directory (assignShares files ref n))).2 schedule takesTurns]

/-- The tasks of the two carriers. -/
def smallTasks : List LoadTask := loadTasks Permutation.twoPrimes smallPictures (assignShares smallCarriers 0 2)

/-- The bytes of two pictures are loaded, the second one first. -/
theorem loadFiles_pooled_two : ∃ schedule : List Call, [(1,150),(0,105)] = [] ++ schedule.map id ∧
    loadFiles Permutation.twoPrimes smallPictures (assignShares smallCarriers 0 2) (.ofZeros 2) =
      ((smallTasks.map LoadTask.file,VirtualStorage.replay (.ofZeros 2) schedule),loadResult smallTasks) :=
  (loadFiles_pooled Permutation.twoPrimes smallPictures smallCarriers 0 2 (.ofZeros 2) (fun p => p)
    (by
      intro file member
      rcases List.mem_pair.mp member with rfl | rfl <;> exact ⟨by decide,by decide,by decide⟩)
    (by
      intro k file here _
      rcases k with _ | _ | k
      · obtain rfl := Option.some.inj here
        exact ⟨1,rfl⟩
      · obtain rfl := Option.some.inj here
        exact ⟨1,rfl⟩
      · simp [smallCarriers] at here)
    (VirtualStorage.ofZeros_mapped (by decide)) (id : Call → Call) 2 0 { pool := create 2 0 }
    ⟨⟨[.testing,.testing],[],false,2,2,false⟩,_,_⟩
    [.enqueue [(0,105)],.enqueue [(1,150)],.test 0,.test 1,.act 1,.act 0,.finish 0,.finish 1] ⟨[],rfl⟩
    (ready_of_pending rfl) rfl (by decide) (ready_of_pending rfl)).2

end Pool
end StegoDisk
