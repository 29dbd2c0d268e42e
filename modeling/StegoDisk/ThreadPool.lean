import StegoDisk.Failures
import StegoDisk.Interleaving
import Mathlib.Data.List.Perm.Basic

/-!
`utils/thread_pool.h`. What a thread does while it holds the lock is one step here: a worker that has it tests its
predicate and goes to sleep, returns or takes a task, and `enqueue` puts a task into the queue. The notification comes
after the lock was released, so that others can come in between. A task is a list of actions, each a step of its own.
-/
namespace StegoDisk
open Interleaving

/-- A task of the queue: the number of its future, and the actions that it has yet to take. -/
structure PackagedTask (α : Type) where
  future : Nat
  actions : List α

/-- Where a worker is: about to test the predicate, asleep in `wait`, in a task, or back from its function. -/
inductive Worker (α : Type)
  | testing
  | waiting
  | running (task : PackagedTask α)
  | returned

/-- `ThreadPool`. The notifications are those of `enqueue`s that have released the lock. -/
structure ThreadPool (α : Type) where
  workers : List (Worker α)
  tasks : List (PackagedTask α) := []
  stop : Bool := false
  futures : Nat := 0
  notifications : Nat := 0
  notifiedAll : Bool := false

variable {α : Type}

def Worker.task : Worker α → Option (PackagedTask α)
  | .running task => some task
  | _ => none

def Worker.isWaiting : Worker α → Bool
  | .waiting => true
  | _ => false

/-- What `notify_all` makes of a worker. -/
def Worker.woken : Worker α → Worker α
  | .waiting => .testing
  | worker => worker

namespace ThreadPool

/-- The constructor; `hardware` is what `hardware_concurrency` gives. -/
def create (threads hardware : Nat) : ThreadPool α where
  workers := List.replicate (if threads = 0 then max 4 hardware else threads) .testing

/-- `ThreadPool::enqueue` while it has the lock, with the number of the future. -/
def enqueue (pool : ThreadPool α) (actions : List α) : ThreadPool α × Except Failure Nat :=
  if pool.stop then (pool,.error (.thrown (.invalidState .enqueue .threadPool .stopped)))
  else
    ({ pool with
        tasks := pool.tasks ++ [⟨pool.futures,actions⟩]
        futures := pool.futures + 1
        notifications := pool.notifications + 1 },.ok pool.futures)

/-- What worker `k` does with the lock. -/
def test (pool : ThreadPool α) (k : Nat) : ThreadPool α :=
  match pool.tasks with
  | task::rest => { pool with tasks := rest, workers := pool.workers.set k (.running task) }
  | [] => { pool with workers := pool.workers.set k (if pool.stop then .returned else .waiting) }

/-- The steps: of threads that use the pool, of its workers, and of the destructor. A worker can wake without having
    been notified. -/
inductive Step (α : Type)
  | enqueue (actions : List α)
  | notifyOne (k : Nat)
  | wake (k : Nat)
  | test (k : Nat)
  | act (k : Nat)
  | finish (k : Nat)
  | stop
  | notifyAll

/-- The pool after a step, where it can be made. -/
def step (pool : ThreadPool α) : Step α → Option (ThreadPool α)
  | .enqueue actions => some (pool.enqueue actions).1
  | .notifyOne k =>
    if pool.notifications = 0 then none
    else
      match pool.workers[k]? with
      | some .waiting =>
        some { pool with notifications := pool.notifications - 1, workers := pool.workers.set k .testing }
      | _ =>
        -- nobody is notified when nobody waits
        if pool.workers.any Worker.isWaiting then none
        else some { pool with notifications := pool.notifications - 1 }
  | .wake k =>
    match pool.workers[k]? with
    | some .waiting => some { pool with workers := pool.workers.set k .testing }
    | _ => none
  | .test k =>
    match pool.workers[k]? with
    | some .testing => some (pool.test k)
    | _ => none
  | .act k =>
    match pool.workers[k]? with
    | some (.running ⟨future,_::rest⟩) => some { pool with workers := pool.workers.set k (.running ⟨future,rest⟩) }
    | _ => none
  | .finish k =>
    match pool.workers[k]? with
    | some (.running ⟨_,[]⟩) => some { pool with workers := pool.workers.set k .testing }
    | _ => none
  | .stop => if pool.stop then none else some { pool with stop := true }
  | .notifyAll =>
    if pool.stop && !pool.notifiedAll then
      some { pool with notifiedAll := true, workers := pool.workers.map Worker.woken }
    else none

/-- The task that a step puts into the queue. -/
def accepts (pool : ThreadPool α) : Step α → List (List α)
  | .enqueue actions =>
    match (pool.enqueue actions).2 with
    | .ok _ => [actions]
    | .error _ => []
  | _ => []

/-- The action that a step takes. -/
def performs (pool : ThreadPool α) : Step α → List α
  | .act k =>
    match pool.workers[k]? with
    | some (.running ⟨_,a::_⟩) => [a]
    | _ => []
  | _ => []

/-- The tasks that are not finished. -/
def pending (pool : ThreadPool α) : List (PackagedTask α) := pool.tasks ++ pool.workers.filterMap Worker.task

/-- Every worker has returned, so that the destructor has joined them all. -/
def Joined (pool : ThreadPool α) : Prop := ∀ worker ∈ pool.workers, worker = .returned

/-- What a step can be, and the pool after it. -/
inductive Moves (pool : ThreadPool α) : Step α → ThreadPool α → Prop
  | accepted {actions : List α} (going : pool.stop = false) :
    Moves pool (.enqueue actions)
      { pool with tasks := pool.tasks ++ [⟨pool.futures,actions⟩], futures := pool.futures + 1,
                  notifications := pool.notifications + 1 }
  | refused {actions : List α} (stopped : pool.stop = true) : Moves pool (.enqueue actions) pool
  | notified {k : Nat} (owed : pool.notifications ≠ 0) (waits : pool.workers[k]? = some .waiting) :
    Moves pool (.notifyOne k)
      { pool with notifications := pool.notifications - 1, workers := pool.workers.set k .testing }
  | unheard {k : Nat} (owed : pool.notifications ≠ 0) (awake : ∀ worker ∈ pool.workers, worker.isWaiting = false) :
    Moves pool (.notifyOne k) { pool with notifications := pool.notifications - 1 }
  | woke {k : Nat} (waits : pool.workers[k]? = some .waiting) :
    Moves pool (.wake k) { pool with workers := pool.workers.set k .testing }
  | takes {k : Nat} {task : PackagedTask α} {rest : List (PackagedTask α)} (tests : pool.workers[k]? = some .testing)
      (queued : pool.tasks = task::rest) :
    Moves pool (.test k) { pool with tasks := rest, workers := pool.workers.set k (.running task) }
  | sleeps {k : Nat} (tests : pool.workers[k]? = some .testing) (empty : pool.tasks = []) (going : pool.stop = false) :
    Moves pool (.test k) { pool with workers := pool.workers.set k .waiting }
  | returns {k : Nat} (tests : pool.workers[k]? = some .testing) (empty : pool.tasks = []) (stopped : pool.stop = true) :
    Moves pool (.test k) { pool with workers := pool.workers.set k .returned }
  | acts {k future : Nat} {a : α} {rest : List α} (runs : pool.workers[k]? = some (.running ⟨future,a::rest⟩)) :
    Moves pool (.act k) { pool with workers := pool.workers.set k (.running ⟨future,rest⟩) }
  | finishes {k future : Nat} (runs : pool.workers[k]? = some (.running ⟨future,[]⟩)) :
    Moves pool (.finish k) { pool with workers := pool.workers.set k .testing }
  | stops (going : pool.stop = false) : Moves pool .stop { pool with stop := true }
  | notifiesAll (stopped : pool.stop = true) (first : pool.notifiedAll = false) :
    Moves pool .notifyAll { pool with notifiedAll := true, workers := pool.workers.map Worker.woken }

variable {pool pool' : ThreadPool α} {move : Step α}

theorem test_moves {k : Nat} (tests : pool.workers[k]? = some .testing) : Moves pool (.test k) (pool.test k) := by
  rcases queued : pool.tasks with _ | ⟨task,rest⟩
  · cases stopped : pool.stop with
    | false =>
      rw [show pool.test k = { pool with workers := pool.workers.set k .waiting } by simp [test,queued,stopped]]
      exact .sleeps tests queued stopped
    | true =>
      rw [show pool.test k = { pool with workers := pool.workers.set k .returned } by simp [test,queued,stopped]]
      exact .returns tests queued stopped
  · rw [show pool.test k = { pool with tasks := rest, workers := pool.workers.set k (.running task) } by
      simp [test,queued]]
    exact .takes tests queued

theorem enqueue_moves (pool : ThreadPool α) (actions : List α) :
    Moves pool (.enqueue actions) (pool.enqueue actions).1 := by
  cases stopped : pool.stop with
  | false =>
    rw [enqueue,if_neg (by simp [stopped])]
    exact .accepted stopped
  | true =>
    rw [enqueue,if_pos stopped]
    exact .refused stopped

/-- Every step is one of these. -/
theorem step_moves (made : pool.step move = some pool') : Moves pool move pool' := by
  cases move with
  | enqueue actions =>
    obtain rfl := Option.some.inj made
    exact enqueue_moves pool actions
  | notifyOne k =>
    simp only [step] at made
    split at made
    · cases made
    rename_i owed
    split at made
    · rename_i waits
      obtain rfl := Option.some.inj made
      exact .notified owed waits
    split at made
    · cases made
    · rename_i awake
      obtain rfl := Option.some.inj made
      exact .unheard owed (by simpa using awake)
  | wake k =>
    simp only [step] at made
    split at made
    · rename_i waits
      obtain rfl := Option.some.inj made
      exact .woke waits
    · cases made
  | test k =>
    simp only [step] at made
    split at made
    · rename_i tests
      obtain rfl := Option.some.inj made
      exact test_moves tests
    · cases made
  | act k =>
    simp only [step] at made
    split at made
    · rename_i runs
      obtain rfl := Option.some.inj made
      exact .acts runs
    · cases made
  | finish k =>
    simp only [step] at made
    split at made
    · rename_i runs
      obtain rfl := Option.some.inj made
      exact .finishes runs
    · cases made
  | stop =>
    simp only [step] at made
    split at made
    · cases made
    · rename_i going
      obtain rfl := Option.some.inj made
      exact .stops (by simpa using going)
  | notifyAll =>
    simp only [step] at made
    split at made
    · rename_i both
      obtain rfl := Option.some.inj made
      simp only [Bool.and_eq_true,Bool.not_eq_true'] at both
      exact .notifiesAll both.1 both.2
    · cases made

/-! ### Workers -/

/-- What the workers are worth together, with one of them changed. -/
theorem sum_set (worth : Worker α → Nat) {workers : List (Worker α)} {k : Nat} {worker : Worker α}
    (here : workers[k]? = some worker) (worker' : Worker α) :
    ((workers.set k worker').map worth).sum + worth worker = (workers.map worth).sum + worth worker' := by
  induction workers generalizing k with
  | nil => simp at here
  | cons first rest ih =>
    cases k with
    | zero =>
      obtain rfl : first = worker := by simpa using here
      simp only [List.set_cons_zero,List.map_cons,List.sum_cons]
      omega
    | succ k =>
      have later := ih (by simpa using here)
      simp only [List.set_cons_succ,List.map_cons,List.sum_cons]
      omega

/-- The tasks in the hands of the workers, with one of them changed. -/
theorem hands_set {workers : List (Worker α)} {k : Nat} {worker : Worker α} (here : workers[k]? = some worker) :
    ∃ others, (workers.filterMap Worker.task).Perm (worker.task.toList ++ others) ∧
      ∀ worker' : Worker α, ((workers.set k worker').filterMap Worker.task).Perm (worker'.task.toList ++ others) := by
  induction workers generalizing k with
  | nil => simp at here
  | cons first rest ih =>
    have whole : ∀ (worker : Worker α) tail, (worker::tail).filterMap Worker.task =
        worker.task.toList ++ tail.filterMap Worker.task := by
      intro worker tail
      rcases held : worker.task with _ | task <;> simp [held]
    cases k with
    | zero =>
      obtain rfl : first = worker := by simpa using here
      refine ⟨rest.filterMap Worker.task,.of_eq (whole _ _),fun worker' => .of_eq ?_⟩
      rw [List.set_cons_zero,whole]
    | succ k =>
      obtain ⟨others,before,after⟩ := ih (by simpa using here)
      refine ⟨first.task.toList ++ others,?_,fun worker' => ?_⟩
      · rw [whole]
        exact ((before.append_left _).trans (List.perm_append_comm_assoc _ _ _))
      · rw [List.set_cons_succ,whole]
        exact (((after worker').append_left _).trans (List.perm_append_comm_assoc _ _ _))

theorem task_woken (worker : Worker α) : worker.woken.task = worker.task := by
  cases worker <;> rfl

/-! ### What happens to tasks -/

/-- A pool with what has happened to it: the tasks that it has accepted, and the actions that were taken. -/
structure History (α : Type) where
  pool : ThreadPool α
  accepted : List (List α) := []
  performed : List α := []

def History.step (h : History α) (move : Step α) : Option (History α) :=
  (h.pool.step move).map fun pool => ⟨pool,h.accepted ++ h.pool.accepts move,h.performed ++ h.pool.performs move⟩

/-- The history after some steps, if they can be made. -/
def History.run (h : History α) (moves : List (Step α)) : Option (History α) := moves.foldlM History.step h

/-- What a pool of some workers can come to. -/
def Reaches (threads hardware : Nat) (h : History α) : Prop :=
  ∃ moves, History.run { pool := create threads hardware } moves = some h

theorem step_inv {h h' : History α} (made : h.step move = some h') :
    Moves h.pool move h'.pool ∧ h'.accepted = h.accepted ++ h.pool.accepts move ∧
      h'.performed = h.performed ++ h.pool.performs move := by
  obtain ⟨pool,stepped,rfl⟩ := Option.map_eq_some_iff.mp made
  exact ⟨step_moves stepped,rfl,rfl⟩

/-- What holds of a new pool, and what every step keeps, holds of all that can be reached. -/
theorem Reaches.keeps {threads hardware : Nat} (Kept : History α → Prop) (first : Kept { pool := create threads hardware })
    (keeps : ∀ h h' move, h.step move = some h' → Kept h → Kept h') {h : History α}
    (reaches : Reaches threads hardware h) : Kept h := by
  obtain ⟨moves,ran⟩ := reaches
  have all : ∀ (moves : List (Step α)) (h h' : History α), h.run moves = some h' → Kept h → Kept h' := by
    intro moves
    induction moves with
    | nil =>
      intro h h' ran kept
      obtain rfl := Option.some.inj ran
      exact kept
    | cons move rest ih =>
      intro h h' ran kept
      obtain ⟨next,made,more⟩ := Option.bind_eq_some_iff.mp ran
      exact ih next h' more (keeps h next move made kept)
  exact all moves _ h ran first

/-- What is left of the tasks is in the queue or in the hands of workers. -/
structure Covers (left : List (List α)) (pending : List (PackagedTask α)) : Prop where
  distinct : (pending.map PackagedTask.future).Nodup
  held : ∀ task ∈ pending, left[task.future]? = some task.actions
  finished : ∀ i < left.length, (∀ task ∈ pending, task.future ≠ i) → left[i]? = some []

variable {left : List (List α)} {pending' others : List (PackagedTask α)}

theorem Covers.perm {before after : List (PackagedTask α)} (covers : Covers left before) (same : after.Perm before) :
    Covers left after :=
  ⟨(same.map _).nodup_iff.mpr covers.distinct,fun task member => covers.held task (same.subset member),
    fun i inside none_ => covers.finished i inside fun task member => none_ task (same.symm.subset member)⟩

theorem Covers.add (covers : Covers left others) (actions : List α) :
    Covers (left ++ [actions]) (⟨left.length,actions⟩::others) := by
  have inside : ∀ task ∈ others, task.future < left.length := fun task member =>
    (List.getElem?_eq_some_iff.mp (covers.held task member)).1
  refine ⟨?_,?_,?_⟩
  · rw [List.map_cons,List.nodup_cons]
    refine ⟨?_,covers.distinct⟩
    intro again
    obtain ⟨task,member,same⟩ := List.mem_map.mp again
    exact absurd (inside task member) (by rw [same]; exact lt_irrefl _)
  · intro task member
    rcases List.mem_cons.mp member with rfl | old
    · simp
    · rw [List.getElem?_append_left (inside task old)]
      exact covers.held task old
  · intro i below none_
    have other := none_ _ List.mem_cons_self
    simp only [List.length_append,List.length_singleton] at below
    have early : i < left.length := by
      simp only at other
      omega
    rw [List.getElem?_append_left early]
    exact covers.finished i early fun task member => none_ task (List.mem_cons_of_mem _ member)

theorem Covers.act {future : Nat} {a : α} {rest : List α} (covers : Covers left (⟨future,a::rest⟩::others)) :
    Covers (left.set future rest) (⟨future,rest⟩::others) := by
  obtain ⟨distinct,held,finished⟩ := covers
  obtain ⟨inside,_⟩ := List.getElem?_eq_some_iff.mp (held _ List.mem_cons_self)
  refine ⟨distinct,?_,?_⟩
  · intro task member
    rcases List.mem_cons.mp member with rfl | old
    · exact List.getElem?_set_self inside
    · have other : task.future ≠ future := fun same =>
        (List.nodup_cons.mp distinct).1 (List.mem_map.mpr ⟨task,old,same⟩)
      rw [List.getElem?_set_ne (Ne.symm other)]
      exact held task (List.mem_cons_of_mem _ old)
  · intro i below none_
    have other := none_ _ List.mem_cons_self
    rw [List.getElem?_set_ne other]
    refine finished i (by simpa using below) fun task member => ?_
    rcases List.mem_cons.mp member with rfl | old
    · exact other
    · exact none_ task (List.mem_cons_of_mem _ old)

theorem Covers.finish {future : Nat} (covers : Covers left (⟨future,[]⟩::others)) : Covers left others := by
  obtain ⟨distinct,held,finished⟩ := covers
  refine ⟨(List.nodup_cons.mp distinct).2,fun task member => held task (List.mem_cons_of_mem _ member),?_⟩
  intro i below none_
  by_cases own : future = i
  · subst own
    exact held _ List.mem_cons_self
  · refine finished i below fun task member => ?_
    rcases List.mem_cons.mp member with rfl | old
    · exact own
    · exact none_ task old

/-- The actions taken so far, with what is left to take. -/
def Accounts (h : History α) : Prop :=
  ∃ left, Takes h.accepted h.performed left ∧ h.pool.futures = h.accepted.length ∧ Covers left h.pool.pending

theorem accounts_step {h h' : History α} (made : h.step move = some h') (accounts : Accounts h) : Accounts h' := by
  obtain ⟨left,takes,futures,covers⟩ := accounts
  obtain ⟨moves,accepted,performed⟩ := step_inv made
  have length := takes.length
  obtain ⟨pool,tasks,actions⟩ := h
  obtain ⟨pool',tasks',actions'⟩ := h'
  simp only at *
  subst accepted performed
  -- a worker that changes nothing of the tasks
  have idle : ∀ {k : Nat} {worker worker' : Worker α}, pool.workers[k]? = some worker → worker.task = none →
      worker'.task = none → Covers left (pool.tasks ++ (pool.workers.set k worker').filterMap Worker.task) := by
    intro k worker worker' here before after
    obtain ⟨others,same,changed⟩ := hands_set here
    have now := changed worker'
    rw [before] at same
    rw [after] at now
    exact covers.perm ((now.trans same.symm).append_left _)
  cases moves with
  | @accepted actions going =>
    have accepts : pool.accepts (.enqueue actions) = [actions] := by simp [ThreadPool.accepts,enqueue,going]
    simp only [accepts,performs,List.append_nil]
    refine ⟨left ++ [actions],takes.add actions,by simp [futures],?_⟩
    rw [futures,← length]
    refine (covers.add _).perm ?_
    simp only [ThreadPool.pending,List.append_assoc]
    exact List.perm_middle
  | @refused actions stopped =>
    have accepts : pool.accepts (.enqueue actions) = [] := by simp [ThreadPool.accepts,enqueue,stopped]
    simp only [accepts,performs,List.append_nil]
    exact ⟨left,takes,futures,covers⟩
  | notified owed waits =>
    simp only [ThreadPool.accepts,performs,List.append_nil]
    exact ⟨left,takes,futures,idle waits rfl rfl⟩
  | unheard owed awake =>
    simp only [ThreadPool.accepts,performs,List.append_nil]
    exact ⟨left,takes,futures,covers⟩
  | woke waits =>
    simp only [ThreadPool.accepts,performs,List.append_nil]
    exact ⟨left,takes,futures,idle waits rfl rfl⟩
  | @takes k task rest tests queued =>
    simp only [ThreadPool.accepts,performs,List.append_nil]
    refine ⟨left,takes,futures,covers.perm ?_⟩
    obtain ⟨others,same,changed⟩ := hands_set tests
    simp only [ThreadPool.pending,queued]
    refine ((changed (.running task)).append_left rest).trans ?_
    exact List.perm_middle.trans ((same.symm.append_left rest).cons task)
  | sleeps tests empty going =>
    simp only [ThreadPool.accepts,performs,List.append_nil]
    exact ⟨left,takes,futures,idle tests rfl rfl⟩
  | returns tests empty stopped =>
    simp only [ThreadPool.accepts,performs,List.append_nil]
    exact ⟨left,takes,futures,idle tests rfl rfl⟩
  | @acts k future a rest runs =>
    obtain ⟨others,same,changed⟩ := hands_set runs
    simp only [ThreadPool.accepts,performs,runs,List.append_nil]
    have apart : Covers left (⟨future,a::rest⟩::(pool.tasks ++ others)) :=
      covers.perm (List.perm_middle.symm.trans (same.symm.append_left _))
    refine ⟨left.set future rest,takes.next (apart.held _ List.mem_cons_self),futures,apart.act.perm ?_⟩
    exact ((changed _).append_left _).trans List.perm_middle
  | @finishes k future runs =>
    obtain ⟨others,same,changed⟩ := hands_set runs
    simp only [ThreadPool.accepts,performs,List.append_nil]
    have apart : Covers left (⟨future,[]⟩::(pool.tasks ++ others)) :=
      covers.perm (List.perm_middle.symm.trans (same.symm.append_left _))
    exact ⟨left,takes,futures,apart.finish.perm ((changed .testing).append_left _)⟩
  | stops going =>
    simp only [ThreadPool.accepts,performs,List.append_nil]
    exact ⟨left,takes,futures,covers⟩
  | notifiesAll stopped first =>
    simp only [ThreadPool.accepts,performs,List.append_nil]
    refine ⟨left,takes,futures,?_⟩
    have same : (pool.workers.map Worker.woken).filterMap Worker.task = pool.workers.filterMap Worker.task := by
      rw [List.filterMap_map]
      exact List.filterMap_congr fun worker _ => task_woken worker
    simpa only [ThreadPool.pending,same] using covers

end ThreadPool
end StegoDisk
