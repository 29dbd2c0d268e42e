import StegoDisk.HammingCorrect
import StegoDisk.Interleaving
import StegoDisk.PermutationSizes
import StegoDisk.Shares

/-!
The `LoadFile` tasks of a load, as lists of `WriteByte` calls that can take turns. Their
order does not matter exactly when every carrier that ends before the storage does is
whole blocks, which fails for the 32-bit capacity of a very large carrier.
-/
namespace StegoDisk
open Loops Interleaving Segments

/-- A call of `WriteByte`: the position and the value. -/
abbrev Call := Nat × UInt8

namespace VirtualStorage

/-- The storage after a call of a task. -/
def put (s : VirtualStorage) (call : Call) : VirtualStorage := (CarrierFile.writeOrSkip s call.1 call.2).1

/-- The storage after calls of `WriteByte` of which those beyond the end are skipped. -/
def replay (s : VirtualStorage) (calls : List Call) : VirtualStorage := calls.foldl put s

variable {s : VirtualStorage} {n : Nat} {f : Nat → Nat}

theorem Mapped.writeOrSkip (mapped : s.Mapped n f) (call : Call) :
    CarrierFile.writeOrSkip s call.1 call.2 = (s.put call,.ok ()) := by
  obtain ⟨data,holds,_⟩ := mapped.holds
  by_cases inside : call.1 < n
  · simp [put,CarrierFile.writeOrSkip,mapped.writeByte holds inside]
  · simp [put,CarrierFile.writeOrSkip,mapped.writeByte_beyond (Nat.not_lt.mp inside)]

theorem Mapped.put_eq (mapped : s.Mapped n f) {data : MemoryBuffer} (holds : s.data = some data) (call : Call) :
    s.put call = { s with data := some (if call.1 < n then data.set (f call.1) call.2 else data) } := by
  by_cases inside : call.1 < n
  · simp [put,CarrierFile.writeOrSkip,mapped.writeByte holds inside,inside]
  · simp [put,CarrierFile.writeOrSkip,mapped.writeByte_beyond (Nat.not_lt.mp inside),inside,← holds]

theorem Mapped.put (mapped : s.Mapped n f) (call : Call) : (s.put call).Mapped n f := by
  obtain ⟨data,holds,length⟩ := mapped.holds
  rw [mapped.put_eq holds]
  refine mapped.replace ?_
  split
  · simpa using length
  · exact length

theorem Mapped.replay (mapped : s.Mapped n f) (calls : List Call) : (s.replay calls).Mapped n f :=
  @foldl_keeps _ _ (fun s => s.Mapped n f) VirtualStorage.put (fun _ call held => held.put call) s mapped calls

/-- Calls for different bytes commute. -/
theorem Mapped.put_comm (mapped : s.Mapped n f) {c d : Call} (differ : c.1 < n → d.1 < n → f c.1 ≠ f d.1) :
    (s.put c).put d = (s.put d).put c := by
  obtain ⟨data,holds,_⟩ := mapped.holds
  have first := mapped.put_eq holds c
  have second := mapped.put_eq holds d
  rw [(mapped.put c).put_eq (by rw [first]),(mapped.put d).put_eq (by rw [second]),first,second]
  by_cases inside : c.1 < n
  · by_cases inside' : d.1 < n
    · simp only [inside,inside',if_true,List.set_comm _ _ (differ inside inside')]
    · simp [inside']
  · simp [inside]

end VirtualStorage

namespace CarrierFile

/-- The `WriteByte` calls of a carrier whose blocks decode to some values. -/
def calls (file : CarrierFile) (values : Nat → Nat → UInt8) : List Call :=
  (List.range file.blocksUsed).flatMap fun b =>
    (List.range file.dataBlockSize).flatMap fun i => [(file.position b i,values b i)]

/-- What a `LoadFile` task can do: these calls, or those before it ends. -/
def Task (file : CarrierFile) (task : List Call) : Prop := ∃ values, task <+: file.calls values

theorem mem_calls {file : CarrierFile} {values : Nat → Nat → UInt8} {call : Call} :
    call ∈ file.calls values ↔
      ∃ b < file.blocksUsed, ∃ i < file.dataBlockSize, call = (file.position b i,values b i) := by
  simp [calls]

/-- The values that the blocks of a buffer decode to. -/
def decoded (file : CarrierFile) (e : Encoder) (buffer : MemoryBuffer) (b i : Nat) : UInt8 :=
  ((file.extractedBlock e buffer b).toOption.getD []).getD i 0

/-- Block `b` of `ExtractBufferUsingEncoder`, with its calls of `WriteByte` put into a list. -/
def blockCalls (file : CarrierFile) (e : Encoder) (buffer : MemoryBuffer) (calls : List Call) (b : Nat) :
    List Call × Except Failure Unit :=
  match file.extractedBlock e buffer b with
  | .error failure => (calls,.error failure)
  | .ok data =>
    forEach (fun calls i =>
      match MemoryBuffer.at data i with
      | .error failure => (calls,.error failure)
      | .ok value => (calls ++ [(file.position b i,value)],.ok ())) (List.range file.dataBlockSize) calls

/-- `ExtractBufferUsingEncoder` with its calls put into a list. -/
def bufferCalls (file : CarrierFile) (buffer : MemoryBuffer) : List Call × Except Failure Int :=
  if buffer.length = 0 then ([],.ok (-1))
  else
    match file.encoder with
    | none => ([],.ok (-2))
    | some e =>
      if file.codewordBlockSize = 0 then ([],.ok (-3))
      else if file.blocksUsed = 0 then ([],.ok (-4))
      else
        match forEach (file.blockCalls e buffer) (List.range file.blocksUsed) [] with
        | (calls,.ok ()) => (calls,.ok 0)
        | (calls,.error failure) => (calls,.error failure)

end CarrierFile

/-- What a `LoadFile` task does: the carrier after it, its calls of `WriteByte` in their order, and the result that its
    future gets. -/
structure LoadTask where
  file : CarrierFile
  calls : List Call
  result : Except Failure Unit

namespace CarrierFile

variable {n : Nat} {f : Nat → Nat}

/-- `LoadFile` with its calls put into a list. -/
def loadTask (env : Environment) (file : CarrierFile) (image : Image) : LoadTask :=
  if file.fileLoaded then ⟨file,[],.ok ()⟩
  else
    match file.openImage image with
    | .error failure => ⟨file,[],.error failure⟩
    | .ok () =>
      match file.initPermutation env with
      | (file,.error failure) => ⟨file,[],.error failure⟩
      | (file,.ok ()) =>
        match file.unpack file.permutation.size image with
        | .error failure => ⟨file,[],.error failure⟩
        | .ok buffer =>
          match file.bufferCalls buffer with
          | (calls,.error failure) => ⟨file,calls,.error failure⟩
          | (calls,.ok code) =>
            match file.checkExtracted code image with
            | .error failure => ⟨file,calls,.error failure⟩
            | .ok () => ⟨{ file with fileLoaded := true },calls,.ok ()⟩

theorem blockCalls_logs (file : CarrierFile) (e : Encoder) (buffer : MemoryBuffer) (b : Nat) :
    Logs (fun _ => True) (fun calls call => calls ++ [call]) (fun calls => file.blockCalls e buffer calls b)
      ((List.range file.dataBlockSize).flatMap fun i => [(file.position b i,file.decoded e buffer b i)]) := by
  rcases decode : file.extractedBlock e buffer b with failure | data
  · refine ⟨[],.error failure,List.nil_prefix,by simp,?_⟩
    intro calls _
    simp [blockCalls,decode]
  simp only [blockCalls,decode]
  refine forEach_logs (fun _ _ _ => trivial) ?_
  intro i _
  by_cases inside : i < data.length
  · refine ⟨_,.ok (),List.prefix_rfl,fun _ => rfl,?_⟩
    intro calls _
    have value : file.decoded e buffer b i = data[i] := by
      simp [decoded,decode,Except.toOption,List.getD_eq_getElem?_getD,inside]
    simp only [MemoryBuffer.at_of_lt inside,value,List.foldl_cons,List.foldl_nil]
  · have refused : MemoryBuffer.at data i = .error (.thrown (.outOfRange "MemoryBuffer: index out of range")) := by
      rw [MemoryBuffer.at,List.getElem?_eq_none (Nat.not_lt.mp inside)]
    exact ⟨[],.error (.thrown (.outOfRange "MemoryBuffer: index out of range")),List.nil_prefix,by simp,
      fun s _ => by simp [refused]⟩

/-- A block is decoded into the storage as its calls say. -/
theorem extractBlock_calls {s : VirtualStorage} (mapped : s.Mapped n f) (file : CarrierFile) (e : Encoder)
    (buffer : MemoryBuffer) (calls : List Call) (b : Nat) :
    file.extractBlock e buffer (s.replay calls) b =
      (s.replay (file.blockCalls e buffer calls b).1,(file.blockCalls e buffer calls b).2) := by
  rcases decode : file.extractedBlock e buffer b with failure | data
  · simp only [extractBlock,blockCalls,decode]
  simp only [extractBlock,blockCalls,decode]
  refine forEach_recorded (fun i _ calls => ?_) calls
  rcases MemoryBuffer.at data i with failure | value
  · rfl
  · have written := (mapped.replay calls).writeOrSkip (file.position b i,value)
    simpa only [VirtualStorage.replay,List.foldl_append,List.foldl_cons,List.foldl_nil] using written

theorem bufferCalls_task (file : CarrierFile) (buffer : MemoryBuffer) : file.Task (file.bufferCalls buffer).1 := by
  have nothing : file.Task [] := ⟨fun _ _ => 0,List.nil_prefix⟩
  unfold bufferCalls
  by_cases empty : buffer.length = 0
  · simpa only [empty,if_true] using nothing
  simp only [empty,if_false]
  rcases file.encoder with _ | e
  · exact nothing
  by_cases width : file.codewordBlockSize = 0
  · simpa only [width,if_true] using nothing
  by_cases unused : file.blocksUsed = 0
  · simpa only [width,unused,if_true,if_false] using nothing
  obtain ⟨log,result,front,_,ran⟩ := forEach_logs (fun _ _ _ => trivial)
    fun b (_ : b ∈ List.range file.blocksUsed) => file.blockCalls_logs e buffer b
  have whole : log.foldl (fun calls call => calls ++ [call]) [] = log := by
    rw [List.foldl_append_eq_append,← List.flatMap_def,List.flatMap_singleton',List.nil_append]
  have done := ran [] trivial
  rw [whole] at done
  simp only [width,unused,if_false,done]
  rcases result with failure | _ <;> exact ⟨file.decoded e buffer,front⟩

theorem extractBufferUsingEncoder_calls {s : VirtualStorage} (mapped : s.Mapped n f) (file : CarrierFile)
    (buffer : MemoryBuffer) :
    file.extractBufferUsingEncoder buffer s = (s.replay (file.bufferCalls buffer).1,(file.bufferCalls buffer).2) := by
  unfold extractBufferUsingEncoder bufferCalls
  by_cases empty : buffer.length = 0
  · rw [if_pos empty,if_pos empty]
    rfl
  simp only [empty,if_false]
  rcases file.encoder with _ | e
  · rfl
  by_cases width : file.codewordBlockSize = 0
  · simp only [width,if_true]
    rfl
  by_cases unused : file.blocksUsed = 0
  · simp only [width,unused,if_true,if_false]
    rfl
  have ran : forEach (file.extractBlock e buffer) (List.range file.blocksUsed) s =
      (s.replay (forEach (file.blockCalls e buffer) (List.range file.blocksUsed) []).1,
        (forEach (file.blockCalls e buffer) (List.range file.blocksUsed) []).2) :=
    forEach_recorded (fun b _ calls => extractBlock_calls mapped file e buffer calls b) []
  simp only [width,unused,if_false,ran]
  rcases forEach (file.blockCalls e buffer) (List.range file.blocksUsed) [] with ⟨calls,failure | _⟩ <;> rfl

theorem initPermutation_task {env : Environment} {file ready : CarrierFile} {result : Except Failure Unit}
    (ran : file.initPermutation env = (ready,result)) : ready.Task = file.Task := by
  unfold initPermutation at ran
  split at ran
  · split at ran
    · obtain ⟨rfl,_⟩ := Prod.mk.inj ran
      rfl
    · obtain ⟨rfl,_⟩ := Prod.mk.inj ran
      rfl
  · obtain ⟨rfl,_⟩ := Prod.mk.inj ran
    rfl

/-- The calls are those of the blocks of the carrier, or the first of them. -/
theorem loadTask_task (env : Environment) (file : CarrierFile) (image : Image) : file.Task (file.loadTask env image).calls := by
  have nothing : file.Task [] := ⟨fun _ _ => 0,List.nil_prefix⟩
  unfold loadTask
  by_cases loaded : file.fileLoaded = true
  · simpa only [loaded,if_true] using nothing
  simp only [loaded]
  rcases file.openImage image with failure | _
  · exact nothing
  simp only
  rcases initialized : file.initPermutation env with ⟨ready,failure | _⟩
  · exact nothing
  simp only
  rcases ready.unpack ready.permutation.size image with failure | buffer
  · exact nothing
  have task := ready.bufferCalls_task buffer
  rw [initPermutation_task initialized] at task
  simp only
  rcases recorded : ready.bufferCalls buffer with ⟨calls,failure | code⟩
  · rw [recorded] at task
    exact task
  rw [recorded] at task
  simp only
  rcases ready.checkExtracted code image with failure | _ <;> exact task

/-- `LoadFile` is its task, whatever the storage holds. -/
theorem loadFile_calls (env : Environment) (file : CarrierFile) (image : Image) {s : VirtualStorage} (mapped : s.Mapped n f) :
    file.loadFile env image s =
      (((file.loadTask env image).file,s.replay (file.loadTask env image).calls),(file.loadTask env image).result) := by
  unfold loadFile loadTask
  by_cases loaded : file.fileLoaded = true
  · rw [if_pos loaded,if_pos loaded]
    rfl
  simp only [loaded]
  rcases file.openImage image with failure | _
  · rfl
  simp only
  rcases file.initPermutation env with ⟨ready,failure | _⟩
  · rfl
  simp only
  rcases ready.unpack ready.permutation.size image with failure | buffer
  · rfl
  simp only [extractBufferUsingEncoder_calls mapped]
  rcases ready.bufferCalls buffer with ⟨calls,failure | code⟩
  · rfl
  simp only
  rcases ready.checkExtracted code image with failure | _ <;> rfl

/-- What `LoadFile` does to a storage is a task of the carrier, whatever the storage holds. -/
theorem loadFile_task (env : Environment) (file : CarrierFile) (image : Image) (n : Nat) (f : Nat → Nat) :
    ∃ task, file.Task task ∧ ∀ s : VirtualStorage, s.Mapped n f → (file.loadFile env image s).1.2 = s.replay task :=
  ⟨_,file.loadTask_task env image,fun s mapped => by rw [file.loadFile_calls env image mapped]⟩

end CarrierFile

namespace CarrierFilesManager

/-- The task of a carrier: it has nothing to load where its file cannot be opened. -/
def loadTask (env : Environment) (directory : Directory) (file : CarrierFile) : LoadTask :=
  match directory.image file.file with
  | .error failure => ⟨file,[],if file.fileLoaded then .ok () else .error failure⟩
  | .ok image => file.loadTask env image

/-- The tasks that `LoadVirtualStorage` puts into the queue. -/
def loadTasks (env : Environment) (directory : Directory) (files : List CarrierFile) : List LoadTask :=
  files.map (loadTask env directory)

/-- The futures are asked in their order; the first failure is thrown. -/
def loadResult (tasks : List LoadTask) : Except Failure Unit :=
  tasks.foldr (fun task rest => task.result >>= fun _ => rest) (.ok ())

theorem loadTask_task (env : Environment) (directory : Directory) (file : CarrierFile) :
    file.Task (loadTask env directory file).calls := by
  unfold loadTask
  rcases directory.image file.file with failure | image
  · exact ⟨fun _ _ => 0,List.nil_prefix⟩
  · exact file.loadTask_task env image

theorem loadTasks_tasks (env : Environment) (directory : Directory) (files : List CarrierFile) :
    List.Forall₂ CarrierFile.Task files ((loadTasks env directory files).map LoadTask.calls) := by
  rw [loadTasks,List.map_map,List.forall₂_map_right_iff,List.forall₂_same]
  exact fun file _ => loadTask_task env directory file

/-- Loading carriers is their tasks, one after another. -/
theorem loadFiles_calls (env : Environment) (directory : Directory) (files : List CarrierFile) {n : Nat} {f : Nat → Nat}
    {s : VirtualStorage} (mapped : s.Mapped n f) : loadFiles env directory files s =
      (((loadTasks env directory files).map LoadTask.file,
        s.replay ((loadTasks env directory files).map LoadTask.calls).flatten),loadResult (loadTasks env directory files)) := by
  induction files generalizing s with
  | nil => rfl
  | cons file rest ih =>
    rw [show loadTasks env directory (file::rest) = loadTask env directory file::loadTasks env directory rest from rfl]
    rcases opened : directory.image file.file with failure | image
    · have task : loadTask env directory file = ⟨file,[],if file.fileLoaded then .ok () else .error failure⟩ := by
        simp only [loadTask,opened]
      simp only [loadFiles,opened,ih mapped,List.map_cons,task,List.flatten_cons,List.nil_append,loadResult,List.foldr_cons]
      split <;> rfl
    · have task : loadTask env directory file = file.loadTask env image := by simp only [loadTask,opened]
      simp only [loadFiles,opened,file.loadFile_calls env image mapped,ih (mapped.replay _),List.map_cons,task,
        List.flatten_cons,loadResult,List.foldr_cons]
      simp only [VirtualStorage.replay,List.foldl_append]

/-- The `LoadFile` tasks of `LoadVirtualStorage`, run one after another. -/
theorem loadFiles_tasks (env : Environment) (directory : Directory) (files : List CarrierFile) (n : Nat) (f : Nat → Nat) :
    ∃ tasks, List.Forall₂ CarrierFile.Task files tasks ∧
      ∀ s : VirtualStorage, s.Mapped n f → (loadFiles env directory files s).1.2 = s.replay tasks.flatten :=
  ⟨_,loadTasks_tasks env directory files,fun s mapped => by rw [loadFiles_calls env directory files mapped]⟩

/-! ### Taking turns -/

/-- No byte of the storage is written by two tasks, and every schedule leaves the storage that the
    tasks leave when they run one after another. -/
def OrderIndependent (s : VirtualStorage) (tasks : List (List Call)) : Prop :=
  (∀ (j k : Nat) (first second : List Call), tasks[j]? = some first → tasks[k]? = some second → j ≠ k →
    ∀ c ∈ first, ∀ d ∈ second, ∀ q, s.locate c.1 = .ok q → s.locate d.1 ≠ .ok q) ∧
  ∀ schedule, Interleaves tasks schedule → s.replay schedule = s.replay tasks.flatten

variable {files : List CarrierFile} {ref n : Nat} {s : VirtualStorage} {f : Nat → Nat}

theorem task_accesses {tasks : List (List Call)} (all : List.Forall₂ CarrierFile.Task files tasks) {k : Nat}
    {task : List Call} (here : tasks[k]? = some task) {call : Call} (member : call ∈ task) :
    ∃ b i, Accesses files (k,b,i) call.1 := by
  obtain ⟨inside,rfl⟩ := List.getElem?_eq_some_iff.mp here
  have inside' : k < files.length := by rw [all.length_eq]; exact inside
  obtain ⟨values,front⟩ := all.get inside' inside
  obtain ⟨b,block,i,byte,rfl⟩ := CarrierFile.mem_calls.mp (front.subset member)
  exact ⟨b,i,files[k],List.getElem?_eq_getElem inside',block,byte,rfl⟩

/-- Carriers that are whole blocks can be loaded in any order. -/
theorem Aligned.orderIndependent (aligned : Aligned files n) (shaped : ∀ file ∈ files, Shaped file)
    (mapped : s.Mapped n f) {tasks : List (List Call)}
    (all : List.Forall₂ CarrierFile.Task (assignShares files ref n) tasks) : OrderIndependent s tasks := by
  have apart : ∀ (j k : Nat) (first second : List Call), tasks[j]? = some first → tasks[k]? = some second → j ≠ k →
      ∀ c ∈ first, ∀ d ∈ second, c.1 < n → d.1 < n → f c.1 ≠ f d.1 := by
    intro j k first second here there differ c member d member' inside inside' same
    obtain ⟨b,i,access⟩ := task_accesses all here member
    obtain ⟨b',i',access'⟩ := task_accesses all there member'
    rw [mapped.permutes.inj inside inside' same] at access
    exact differ (congrArg Prod.fst (aligned.unique shaped mapped.fits access access' inside'))
  constructor
  · intro j k first second here there differ c member d member' q located located'
    obtain ⟨inside,rfl⟩ := mapped.locate_eq.mp located
    obtain ⟨inside',same⟩ := mapped.locate_eq.mp located'
    exact apart j k first second here there differ c member d member' inside inside' same.symm
  · intro schedule interleaves
    have independent : Independent (fun s => s.Mapped n f) VirtualStorage.put tasks :=
      fun j k first second here there differ c member d member' s mapped =>
        mapped.put_comm (apart j k first second here there differ c member d member')
    exact interleaves.foldl independent (fun _ call held => held.put call) mapped

/-- A carrier whose last block is not whole writes over the first byte of the next share. -/
theorem aligned_of_disjoint (shaped : ∀ file ∈ files, Shaped file)
    (enough : n ≤ (files.map CarrierFile.capacity).sum) (mapped : s.Mapped n f)
    (all : ∀ tasks, List.Forall₂ CarrierFile.Task (assignShares files ref n) tasks → OrderIndependent s tasks) :
    Aligned files n := by
  intro k file here ends
  by_contra partial_
  have past := offset_succ here
  have held := shaped file (List.mem_of_getElem? here)
  have used : bytesUsed files n k file = file.capacity := min_eq_left (by omega)
  have positive : 0 < file.dataBlockSize := by
    rcases Nat.eq_zero_or_pos file.dataBlockSize with zero | positive
    · have none_ := held.capacity
      rw [zero] at none_
      exact absurd ⟨0,by omega⟩ partial_
    · exact positive
  have room : file.capacity < blocks file.dataBlockSize file.capacity * file.dataBlockSize := by
    refine lt_of_le_of_ne (le_blocks_mul positive) ?_
    intro whole
    exact partial_ ⟨_,whole.trans (Nat.mul_comm _ _)⟩
  have spilled : Accesses (assignShares files ref n)
      (k,file.capacity / file.dataBlockSize,file.capacity % file.dataBlockSize) (offset files (k + 1)) := by
    refine (accesses_iff shaped mapped.fits).mpr ⟨file,here,?_,Nat.mod_lt _ positive,?_⟩
    · rw [used]
      exact Nat.div_lt_of_lt_mul (by rw [Nat.mul_comm]; exact room)
    · have whole := Nat.div_add_mod' file.capacity file.dataBlockSize
      omega
  obtain ⟨j,other,there,low,high⟩ := exists_share enough ends
  obtain ⟨c,l,own⟩ : ∃ c l, Accesses (assignShares files ref n) (j,c,l) (offset files (k + 1)) :=
    exists_access shaped mapped.fits there low high
  have differ : j ≠ k := by
    rintro rfl
    obtain rfl := Option.some.inj (there.symm.trans here)
    omega
  obtain ⟨first,inFirst,block,byte,place⟩ := spilled
  obtain ⟨second,inSecond,block',byte',place'⟩ := own
  have disjoint := (all ((assignShares files ref n).map fun file => file.calls fun _ _ => 0)
    (List.forall₂_map_right_iff.mpr (List.forall₂_same.mpr fun file _ => ⟨fun _ _ => 0,List.prefix_rfl⟩))).1
  refine disjoint j k (second.calls fun _ _ => 0) (first.calls fun _ _ => 0) ?_ ?_ differ _
    (CarrierFile.mem_calls.mpr ⟨_,block',_,byte',rfl⟩) _ (CarrierFile.mem_calls.mpr ⟨_,block,_,byte,rfl⟩)
    (f (offset files (k + 1))) ?_ ?_
  · rw [List.getElem?_map]
    exact congrArg _ inSecond
  · rw [List.getElem?_map]
    exact congrArg _ inFirst
  · exact mapped.locate_eq.mpr ⟨by rw [place']; exact ends,by rw [place']⟩
  · exact mapped.locate_eq.mpr ⟨by rw [place]; exact ends,by rw [place]⟩

/-- The tasks of a load on a storage of `n` bytes can take turns exactly when every carrier
    that ends before `n` is whole blocks; what `LoadFile` does is such tasks. Capacities
    are those that `SetEncoder` computes. -/
theorem tasks_orderIndependent_iff (files : List CarrierFile) (ref n : Nat) (s : VirtualStorage) (f : Nat → Nat)
    (words : ∀ file ∈ files, file.blockCount < 2 ^ 32 ∧ file.dataBlockSize < 2 ^ 32)
    (product : ∀ file ∈ files, file.capacity = word32 (file.blockCount * file.dataBlockSize))
    (enough : n ≤ (files.map CarrierFile.capacity).sum) (mapped : s.Mapped n f) :
    ((∀ tasks, List.Forall₂ CarrierFile.Task (assignShares files ref n) tasks → OrderIndependent s tasks) ↔
      Aligned files n) ∧
    ∀ env directory, ∃ tasks, List.Forall₂ CarrierFile.Task (assignShares files ref n) tasks ∧
      (loadFiles env directory (assignShares files ref n) s).1.2 = s.replay tasks.flatten := by
  have shaped : ∀ file ∈ files, Shaped file := fun file member =>
    ⟨(words file member).1,(words file member).2,by rw [product file member]; exact Nat.mod_le _ _⟩
  refine ⟨⟨aligned_of_disjoint shaped enough mapped,fun aligned tasks all => aligned.orderIndependent shaped mapped all⟩,?_⟩
  intro env directory
  obtain ⟨tasks,all,ran⟩ := loadFiles_tasks env directory (assignShares files ref n) n f
  exact ⟨tasks,all,ran s mapped⟩

/-- Carriers of 6 and 5 blocks of 5 bytes are whole blocks. -/
theorem tasks_orderIndependent_two :
    (∀ tasks, List.Forall₂ CarrierFile.Task (assignShares [ofBlocks 5 6,ofBlocks 5 5] 0 52) tasks →
      OrderIndependent (VirtualStorage.ofZeros 52) tasks) ↔ Aligned [ofBlocks 5 6,ofBlocks 5 5] 52 :=
  (tasks_orderIndependent_iff [ofBlocks 5 6,ofBlocks 5 5] 0 52 (.ofZeros 52) (fun p => p) (by simp [ofBlocks])
    (by simp [ofBlocks]) (by simp [ofBlocks,word32]) (VirtualStorage.ofZeros_mapped (by decide))).1

/-- A carrier of so many bytes after `SetEncoder` with 3 parity bits. -/
def encoded (rawCapacity : Nat) : CarrierFile :=
  (CarrierFile.setEncoder Permutation.twoPrimes
    { file := ⟨[],[]⟩, rawCapacity := rawCapacity, permutation := .fresh .identity, subkey := some Hash.initial }
    (.hamming ⟨3,by decide⟩)).1

theorem encoded_sizes (rawCapacity : Nat) :
    (encoded rawCapacity).dataBlockSize = 3 ∧ (encoded rawCapacity).blockCount = word32 (word64 (rawCapacity * 8) / 8 / 8) ∧
      (encoded rawCapacity).capacity = word32 (word32 (word64 (rawCapacity * 8) / 8 / 8) * 3) := by
  have data : (⟨3,by decide⟩ : HammingEncoder).dataBlockSize = 3 := by
    rw [HammingEncoder.dataBlockSize,StegoMath.lcm_eq]
    rfl
  have codeword : (⟨3,by decide⟩ : HammingEncoder).codewordBlockSize = 8 := by
    simp [HammingEncoder.codewordBlockSize,HammingEncoder.codewordsInBlock,HammingEncoder.codewordBufferSize,
      HammingEncoder.totalBits,data]
  refine ⟨data,?_,?_⟩
  · simp only [encoded,CarrierFile.setEncoder,CarrierFile.predictedSize,Permutation.getSizeUsingParams,Permutation.fresh,
      IdentityPermutation.getSizeUsingParams,Encoder.codewordBlockSize,codeword]
  · simp only [encoded,CarrierFile.setEncoder,CarrierFile.predictedSize,Permutation.getSizeUsingParams,Permutation.fresh,
      IdentityPermutation.getSizeUsingParams,Encoder.dataBlockSize,Encoder.codewordBlockSize,data,codeword]

/-- The first carrier has 1431655766 blocks of 3 bytes: its capacity wraps to 2. -/
theorem tasks_conflict : ¬ ∀ tasks,
    List.Forall₂ CarrierFile.Task (assignShares [encoded 11453246128,encoded 320] 0 122) tasks →
      OrderIndependent (VirtualStorage.ofZeros 122) tasks := by
  intro all
  have large := encoded_sizes 11453246128
  have small := encoded_sizes 320
  simp only [word32,word64] at large small
  norm_num at large small
  obtain ⟨block,count,capacity⟩ := large
  obtain ⟨block',count',capacity'⟩ := small
  have shaped : ∀ file ∈ [encoded 11453246128,encoded 320], Shaped file := by
    intro file member
    rcases List.mem_pair.mp member with rfl | rfl
    · exact ⟨by omega,by omega,by rw [block,count,capacity]; decide⟩
    · exact ⟨by omega,by omega,by rw [block',count',capacity']⟩
  have aligned := aligned_of_disjoint shaped (by simp [capacity,capacity']) (VirtualStorage.ofZeros_mapped (by decide)) all
  have divides := aligned 0 (encoded 11453246128) rfl (by simp [offset,start,capacity])
  rw [block,capacity] at divides
  omega

end CarrierFilesManager
end StegoDisk
