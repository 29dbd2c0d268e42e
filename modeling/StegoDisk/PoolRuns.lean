import StegoDisk.ThreadPool

/-!
Whole runs of a pool: a task that was accepted is performed once and completely, no worker sleeps while there is work,
and the pool comes to rest. What lets workers sleep is that a worker only waits when as many others are up, or are about
to be notified, as there are tasks in the queue.
-/
namespace StegoDisk
open Interleaving

variable {α : Type}

/-- A worker that comes back to the queue by itself. -/
def Worker.up : Worker α → Nat
  | .testing => 1
  | .running _ => 1
  | _ => 0

/-- What a worker can still do by itself. -/
def Worker.work : Worker α → Nat
  | .testing => 1
  | .running task => 2 + task.actions.length
  | _ => 0

/-- A step that the pool makes by itself; the others are those of its users, and a wake without a notification. -/
def ThreadPool.Step.internal : Step α → Bool
  | .notifyOne _ => true
  | .test _ => true
  | .act _ => true
  | .finish _ => true
  | .notifyAll => true
  | _ => false

namespace ThreadPool

variable {pool pool' : ThreadPool α} {move : Step α} {h h' : History α} {threads hardware : Nat}

/-! ### No worker sleeps while there is work -/

structure Awake (pool : ThreadPool α) : Prop where
  some_ : pool.workers ≠ []
  gone : Worker.returned ∈ pool.workers → pool.stop = true ∧ pool.tasks = []
  told : pool.notifiedAll = true → pool.stop = true ∧ Worker.waiting ∉ pool.workers
  owed : pool.stop = false → Worker.waiting ∈ pool.workers →
    pool.tasks.length ≤ pool.notifications + (pool.workers.map Worker.up).sum

theorem create_awake (threads hardware : Nat) : (create threads hardware : ThreadPool α).Awake := by
  refine ⟨?_,?_,by simp [create],by simp [create]⟩
  · rw [create,Ne,List.replicate_eq_nil_iff]
    split <;> omega
  · intro member
    have same := List.eq_of_mem_replicate member
    cases same

/-- A worker that was there before, unless it is the one that changed. -/
theorem mem_of_set {workers : List (Worker α)} {k : Nat} {worker other : Worker α} (member : other ∈ workers.set k worker)
    (differ : other ≠ worker) : other ∈ workers :=
  (List.mem_or_eq_of_mem_set member).resolve_right differ

/-- A worker that gets up, or stays up, and may take a task with it. -/
theorem Awake.change (awake : pool.Awake) {k notifications : Nat} {worker worker' : Worker α} {tasks : List (PackagedTask α)}
    (here : pool.workers[k]? = some worker) (up : worker'.up = 1) (empty : pool.tasks = [] → tasks = [])
    (less : tasks.length + pool.notifications + worker.up ≤ pool.tasks.length + notifications + 1) :
    Awake { pool with workers := pool.workers.set k worker', tasks := tasks, notifications := notifications } := by
  have stays : worker' ≠ .waiting := by
    rintro rfl
    cases up
  have stays' : worker' ≠ .returned := by
    rintro rfl
    cases up
  refine ⟨by simpa using awake.some_,?_,?_,?_⟩
  · intro member
    obtain ⟨stopped,none_⟩ := awake.gone (mem_of_set member stays'.symm)
    exact ⟨stopped,empty none_⟩
  · intro all
    obtain ⟨stopped,none_⟩ := awake.told all
    exact ⟨stopped,fun member => none_ (mem_of_set member stays.symm)⟩
  · intro going member
    have before := awake.owed going (mem_of_set member stays.symm)
    have total := sum_set Worker.up here worker'
    show tasks.length ≤ notifications + ((pool.workers.set k worker').map Worker.up).sum
    omega

theorem awake_step (moves : Moves pool move pool') (awake : pool.Awake) : pool'.Awake := by
  have running : ∀ {why : Prop}, pool.stop = false → pool.stop = true → why := by
    intro why going stopped
    rw [going] at stopped
    cases stopped
  cases moves with
  | accepted going =>
    refine ⟨awake.some_,fun member => running going (awake.gone member).1,fun all => running going (awake.told all).1,?_⟩
    intro _ member
    have before := awake.owed going member
    simp only [List.length_append,List.length_singleton]
    omega
  | refused stopped => exact awake
  | notified due waits =>
    exact awake.change waits rfl id (by simp only [Worker.up]; omega)
  | unheard due up =>
    refine ⟨awake.some_,awake.gone,awake.told,?_⟩
    intro going member
    have asleep := up _ member
    cases asleep
  | woke waits => exact awake.change waits rfl id (by simp only [Worker.up]; omega)
  | takes tests queued =>
    refine awake.change tests rfl ?_ ?_
    · intro none_
      rw [queued] at none_
      cases none_
    · simp only [Worker.up,queued,List.length_cons]
      omega
  | sleeps tests empty going =>
    refine ⟨by simpa using awake.some_,?_,fun all => running going (awake.told all).1,fun _ _ => by simp [empty]⟩
    exact fun member => awake.gone (mem_of_set member (by simp))
  | returns tests empty stopped =>
    refine ⟨by simpa using awake.some_,fun _ => ⟨stopped,empty⟩,?_,fun going => running going stopped⟩
    exact fun all => ⟨stopped,fun member => (awake.told all).2 (mem_of_set member (by simp))⟩
  | acts runs => exact awake.change runs rfl id (by simp only [Worker.up]; omega)
  | finishes runs => exact awake.change runs rfl id (by simp only [Worker.up]; omega)
  | stops going =>
    refine ⟨awake.some_,fun member => ⟨rfl,(awake.gone member).2⟩,?_,fun going => by cases going⟩
    exact fun all => ⟨rfl,(awake.told all).2⟩
  | notifiesAll stopped first =>
    refine ⟨by simpa using awake.some_,?_,?_,fun going => running going stopped⟩
    · intro member
      obtain ⟨worker,old,same⟩ := List.mem_map.mp member
      cases worker <;> cases same
      exact awake.gone old
    · refine fun _ => ⟨stopped,fun member => ?_⟩
      obtain ⟨worker,old,same⟩ := List.mem_map.mp member
      cases worker <;> cases same

/-- No step of the pool itself is left. -/
def Quiescent (pool : ThreadPool α) : Prop := ∀ move : Step α, move.internal = true → pool.step move = none

/-- A pool at rest has nothing left to do, and after `stop` its workers have returned. -/
theorem Awake.rest (awake : pool.Awake) (quiet : pool.Quiescent) :
    pool.pending = [] ∧ (pool.stop = true → pool.Joined) := by
  have still : ∀ worker ∈ pool.workers, worker = .waiting ∨ worker = .returned := by
    intro worker member
    obtain ⟨k,inside,rfl⟩ := List.getElem_of_mem member
    have here := List.getElem?_eq_getElem inside
    cases at_ : pool.workers[k] with
    | testing =>
      have stuck := quiet (.test k) rfl
      simp [step,here,at_] at stuck
    | waiting => exact .inl rfl
    | running task =>
      obtain ⟨future,actions⟩ := task
      cases actions with
      | nil =>
        have stuck := quiet (.finish k) rfl
        simp [step,here,at_] at stuck
      | cons a rest =>
        have stuck := quiet (.act k) rfl
        simp [step,here,at_] at stuck
    | returned => exact .inr rfl
  have idle : pool.workers.filterMap Worker.task = [] := by
    rw [List.filterMap_eq_nil_iff]
    intro worker member
    rcases still worker member with rfl | rfl <;> rfl
  have joined : pool.stop = true → pool.Joined := by
    intro stopped worker member
    have all : pool.notifiedAll = true := by
      have stuck := quiet .notifyAll rfl
      simpa [step,stopped] using stuck
    rcases still worker member with rfl | returned
    · exact absurd member (awake.told all).2
    · exact returned
  refine ⟨?_,joined⟩
  rw [pending,idle,List.append_nil]
  obtain ⟨worker,member⟩ := List.exists_mem_of_ne_nil _ awake.some_
  cases stopped : pool.stop with
  | true =>
    obtain rfl := joined stopped worker member
    exact (awake.gone member).2
  | false =>
    -- somebody waits, nobody is up and nobody is owed a notification
    have waits : Worker.waiting ∈ pool.workers := by
      rcases still worker member with rfl | rfl
      · exact member
      · have gone := (awake.gone member).1
        rw [stopped] at gone
        cases gone
    have told : pool.notifications = 0 := by
      obtain ⟨k,inside,here⟩ := List.getElem_of_mem waits
      have stuck := quiet (.notifyOne k) rfl
      by_contra owed
      simp [step,owed,List.getElem?_eq_getElem inside,here] at stuck
    have none_ : (pool.workers.map Worker.up).sum = 0 := by
      refine List.sum_eq_zero_iff_forall_eq_nat.mpr fun n member => ?_
      obtain ⟨other,here,rfl⟩ := List.mem_map.mp member
      rcases still other here with rfl | rfl <;> rfl
    have few := awake.owed stopped waits
    rw [told,none_] at few
    exact List.length_eq_zero_iff.mp (by omega)

/-! ### Every accepted task is performed -/

theorem Reaches.awake (reaches : Reaches threads hardware h) : h.pool.Awake :=
  reaches.keeps (fun h => h.pool.Awake) (create_awake threads hardware)
    fun _ _ _ made awake => awake_step (step_inv made).1 awake

theorem Reaches.accounts (reaches : Reaches threads hardware h) : Accounts h := by
  refine reaches.keeps Accounts ?_ fun _ _ _ made accounts => accounts_step made accounts
  have none_ : (create threads hardware : ThreadPool α).pending = [] := by
    simp only [pending,create,List.nil_append]
    exact List.filterMap_replicate_of_none rfl
  refine ⟨[],.start,rfl,?_⟩
  rw [none_]
  exact ⟨List.nodup_nil,by simp,by simp⟩

/-- The result of a task is there, so that `get` on its future returns. -/
def Ready (pool : ThreadPool α) (i : Nat) : Prop := i < pool.futures ∧ ∀ task ∈ pool.pending, task.future ≠ i

theorem Accounts.interleaves (accounts : Accounts h) (ready : ∀ i < h.pool.futures, h.pool.Ready i) :
    Interleaves h.accepted h.performed := by
  obtain ⟨left,takes,futures,covers⟩ := accounts
  refine takes.finished fun task member => ?_
  obtain ⟨i,inside,rfl⟩ := List.getElem_of_mem member
  have below : i < h.pool.futures := by
    rw [futures,← takes.length]
    exact inside
  have done := covers.finished i inside (ready i below).2
  rw [List.getElem?_eq_getElem inside] at done
  exact Option.some.inj done

theorem ready_of_pending (none_ : pool.pending = []) : ∀ i < pool.futures, pool.Ready i := by
  intro i below
  refine ⟨below,fun task member => ?_⟩
  rw [none_] at member
  cases member

/-- After the join there is nothing left to do. -/
theorem Awake.joined (awake : pool.Awake) (joined : pool.Joined) : pool.stop = true ∧ pool.pending = [] := by
  obtain ⟨worker,member⟩ := List.exists_mem_of_ne_nil _ awake.some_
  obtain rfl := joined worker member
  obtain ⟨stopped,empty⟩ := awake.gone member
  refine ⟨stopped,?_⟩
  rw [pending,empty,List.nil_append,List.filterMap_eq_nil_iff]
  intro worker member
  rw [joined worker member]
  rfl

/-- The queue holds the last tasks that were accepted, in their order. -/
def Queued (pool : ThreadPool α) : Prop :=
  ∃ started, pool.tasks.map PackagedTask.future = List.range' started pool.tasks.length ∧
    started + pool.tasks.length = pool.futures

theorem queued_step (moves : Moves pool move pool') (queued : pool.Queued) : pool'.Queued := by
  obtain ⟨started,order,whole⟩ := queued
  cases moves with
  | accepted going =>
    refine ⟨started,?_,?_⟩
    · rw [List.map_append,order,List.length_append,List.length_singleton,List.range'_concat,whole.symm]
      simp
    · simp only [List.length_append,List.length_singleton]
      omega
  | @takes k task rest tests first =>
    simp only [first,List.map_cons,List.length_cons,List.range'_succ,List.cons.injEq] at order whole
    exact ⟨started + 1,order.2,by simp only; omega⟩
  | refused stopped => exact ⟨started,order,whole⟩
  | notified due waits => exact ⟨started,order,whole⟩
  | unheard due up => exact ⟨started,order,whole⟩
  | woke waits => exact ⟨started,order,whole⟩
  | sleeps tests empty going => exact ⟨started,order,whole⟩
  | returns tests empty stopped => exact ⟨started,order,whole⟩
  | acts runs => exact ⟨started,order,whole⟩
  | finishes runs => exact ⟨started,order,whole⟩
  | stops going => exact ⟨started,order,whole⟩
  | notifiesAll stopped first => exact ⟨started,order,whole⟩

theorem Reaches.queued (reaches : Reaches threads hardware h) : h.pool.Queued :=
  reaches.keeps (fun h => h.pool.Queued) ⟨0,rfl,rfl⟩ fun _ _ _ made queued => queued_step (step_inv made).1 queued

/-- However a pool was used: when it is at rest, and when its destructor has joined the workers, every task that it has
    accepted was performed, once and completely; when every future is ready, too. At rest after `stop` all workers have
    returned. -/
theorem performs_accepted (threads hardware : Nat) (h : History α) (reaches : Reaches threads hardware h) :
    (h.pool.Quiescent ∨ h.pool.Joined ∨ (∀ i < h.pool.futures, h.pool.Ready i) → Interleaves h.accepted h.performed) ∧
    (h.pool.Quiescent → h.pool.stop = true → h.pool.Joined) ∧ h.pool.Queued := by
  refine ⟨?_,fun quiet => (reaches.awake.rest quiet).2,reaches.queued⟩
  rintro (quiet | joined | ready)
  · exact reaches.accounts.interleaves (ready_of_pending (reaches.awake.rest quiet).1)
  · exact reaches.accounts.interleaves (ready_of_pending (reaches.awake.joined joined).2)
  · exact reaches.accounts.interleaves ready

theorem accounts_run {moves : List (Step α)} (ran : h.run moves = some h') (accounts : Accounts h) : Accounts h' := by
  induction moves generalizing h with
  | nil =>
    obtain rfl := Option.some.inj ran
    exact accounts
  | cons move rest ih =>
    obtain ⟨next,made,more⟩ := Option.bind_eq_some_iff.mp ran
    exact ih more (accounts_step made accounts)

/-- What a run does does not depend on what was accepted and performed before. -/
theorem run_log {moves : List (Step α)} (ran : h.run moves = some h') (accepted : List (List α)) (performed : List α) :
    ∃ new schedule, h'.accepted = h.accepted ++ new ∧ h'.performed = h.performed ++ schedule ∧
      History.run ⟨h.pool,accepted,performed⟩ moves = some ⟨h'.pool,accepted ++ new,performed ++ schedule⟩ := by
  induction moves generalizing h accepted performed with
  | nil =>
    obtain rfl := Option.some.inj ran
    exact ⟨[],[],by simp,by simp,by simp [History.run]⟩
  | cons move rest ih =>
    obtain ⟨next,made,more⟩ := Option.bind_eq_some_iff.mp ran
    obtain ⟨pool,stepped,rfl⟩ := Option.map_eq_some_iff.mp made
    obtain ⟨new,schedule,same,same',others⟩ := ih more (accepted ++ h.pool.accepts move) (performed ++ h.pool.performs move)
    refine ⟨h.pool.accepts move ++ new,h.pool.performs move ++ schedule,by simp [same],by simp [same'],?_⟩
    refine Option.bind_eq_some_iff.mpr ⟨_,Option.map_eq_some_iff.mpr ⟨pool,stepped,rfl⟩,?_⟩
    simpa [History.run] using others

/-- Between two times at which all futures are ready, the tasks that were accepted are performed. -/
theorem interleaves_between {moves : List (Step α)} (ran : h.run moves = some h')
    (reaches : Reaches threads hardware h) (idle : ∀ i < h.pool.futures, h.pool.Ready i)
    (ready : ∀ i < h'.pool.futures, h'.pool.Ready i) :
    ∃ new schedule, h'.accepted = h.accepted ++ new ∧ h'.performed = h.performed ++ schedule ∧ Interleaves new schedule := by
  -- the run again, with the tasks from before as finished ones
  obtain ⟨new,schedule,same,same',again⟩ := run_log ran (h.accepted.map fun _ => []) []
  refine ⟨new,schedule,same,same',?_⟩
  obtain ⟨_,takes,futures,covers⟩ := reaches.accounts
  have none_ : h.pool.pending = [] := by
    rw [List.eq_nil_iff_forall_not_mem]
    intro task member
    have inside := (List.getElem?_eq_some_iff.mp (covers.held task member)).1
    rw [takes.length,← futures] at inside
    exact (idle _ inside).2 task member rfl
  have fresh : Accounts ⟨h.pool,h.accepted.map fun _ => [],[]⟩ := by
    refine ⟨_,.start,by simpa using futures,?_⟩
    simp only [none_]
    refine ⟨List.nodup_nil,by simp,fun i below _ => ?_⟩
    rw [List.getElem?_eq_getElem below,List.getElem_map]
  exact Interleaves.of_append (by simp : ∀ task ∈ h.accepted.map fun _ => ([] : List α), task = []) ((accounts_run again fresh).interleaves ready)

/-- A run of two workers with a task each. -/
def twoTasks : List (Step Nat) :=
  [.enqueue [1,2],.test 0,.enqueue [3],.test 1,.act 0,.act 1,.act 0,.finish 1,.finish 0,.stop,.test 0,.notifyAll,.test 1]

theorem performs_accepted_two : Interleaves [[1,2],[3]] [1,3,2] :=
  (performs_accepted 2 0 ⟨⟨[.returned,.returned],[],true,2,2,true⟩,[[1,2],[3]],[1,3,2]⟩ ⟨twoTasks,rfl⟩).1
    (.inr (.inl (by simp [Joined])))

/-! ### The pool comes to rest -/

/-- What a pool can still do by itself. -/
def work (pool : ThreadPool α) : Nat :=
  (pool.tasks.map fun task => 2 + task.actions.length).sum + (pool.workers.map Worker.work).sum + 2 * pool.notifications +
    if pool.notifiedAll then 0 else pool.workers.length + 1

/-- What a user's step can add to it. -/
def Step.adds : Step α → Nat
  | .enqueue actions => 4 + actions.length
  | .wake _ => 1
  | _ => 0

theorem work_woken (workers : List (Worker α)) :
    ((workers.map Worker.woken).map Worker.work).sum ≤ (workers.map Worker.work).sum + workers.length := by
  induction workers with
  | nil => simp
  | cons worker rest ih =>
    have one : worker.woken.work ≤ worker.work + 1 := by
      cases worker <;> simp [Worker.woken,Worker.work]
    simp only [List.map_cons,List.sum_cons,List.length_cons]
    omega

/-- An internal step leaves less to do. -/
theorem work_step (moves : Moves pool move pool') :
    (if move.internal then 1 else 0) + pool'.work ≤ pool.work + move.adds := by
  cases moves with
  | accepted going =>
    simp only [work,Step.internal,Step.adds,List.map_append,List.sum_append,List.map_singleton,List.sum_singleton,Bool.false_eq_true,if_false]
    omega
  | refused stopped => simp [Step.internal]
  | notified owed waits =>
    have total := sum_set Worker.work waits .testing
    simp only [Worker.work] at total
    simp only [work,Step.internal,Step.adds,List.length_set,if_true]
    omega
  | unheard owed awake =>
    simp only [work,Step.internal,Step.adds,if_true]
    omega
  | woke waits =>
    have total := sum_set Worker.work waits .testing
    simp only [Worker.work] at total
    simp only [work,Step.internal,Step.adds,List.length_set,Bool.false_eq_true,if_false]
    omega
  | @takes k task rest tests queued =>
    have total := sum_set Worker.work tests (.running task)
    simp only [Worker.work] at total
    simp only [work,Step.internal,Step.adds,List.length_set,queued,List.map_cons,List.sum_cons,if_true]
    omega
  | sleeps tests empty going =>
    have total := sum_set Worker.work tests .waiting
    simp only [Worker.work] at total
    simp only [work,Step.internal,Step.adds,List.length_set,if_true]
    omega
  | returns tests empty stopped =>
    have total := sum_set Worker.work tests .returned
    simp only [Worker.work] at total
    simp only [work,Step.internal,Step.adds,List.length_set,if_true]
    omega
  | @acts k future a rest runs =>
    have total := sum_set Worker.work runs (.running ⟨future,rest⟩)
    simp only [Worker.work,List.length_cons] at total
    simp only [work,Step.internal,Step.adds,List.length_set,if_true]
    omega
  | finishes runs =>
    have total := sum_set Worker.work runs .testing
    simp only [Worker.work,List.length_nil] at total
    simp only [work,Step.internal,Step.adds,List.length_set,if_true]
    omega
  | stops going => simp [Step.internal,work]
  | notifiesAll stopped first =>
    have woken := work_woken pool.workers
    simp only [work,Step.internal,Step.adds,first,List.length_map,Bool.false_eq_true,if_false,if_true]
    omega

theorem run_work {moves : List (Step α)} (ran : h.run moves = some h') :
    moves.countP Step.internal + h'.pool.work ≤ h.pool.work + (moves.map Step.adds).sum := by
  induction moves generalizing h with
  | nil =>
    obtain rfl := Option.some.inj ran
    simp
  | cons move rest ih =>
    obtain ⟨next,made,more⟩ := Option.bind_eq_some_iff.mp ran
    have one := work_step (step_inv made).1
    have others := ih more
    rw [List.countP_cons,List.map_cons,List.sum_cons]
    omega

/-- A pool of `n` workers makes at most `2n + 1` steps by itself, and four more than its actions for each task and one
    for each wake without a notification. -/
theorem run_bounded (threads hardware : Nat) (moves : List (Step α)) (h : History α)
    (ran : History.run { pool := create threads hardware } moves = some h) :
    moves.countP Step.internal ≤
      2 * (if threads = 0 then max 4 hardware else threads) + 1 + (moves.map Step.adds).sum := by
  have bound : moves.countP Step.internal + h.pool.work ≤
      (create threads hardware : ThreadPool α).work + (moves.map Step.adds).sum := run_work ran
  have first : (create threads hardware : ThreadPool α).work =
      2 * (if threads = 0 then max 4 hardware else threads) + 1 := by
    simp only [work,create,List.map_nil,List.sum_nil,List.map_replicate,Worker.work,List.sum_replicate_nat,List.length_replicate]
    simp only [Bool.false_eq_true,if_false]
    omega
  omega

theorem run_bounded_two : twoTasks.countP Step.internal ≤ 2 * 2 + 1 + (twoTasks.map Step.adds).sum :=
  run_bounded 2 0 twoTasks ⟨⟨[.returned,.returned],[],true,2,2,true⟩,[[1,2],[3]],[1,3,2]⟩ rfl

end ThreadPool
end StegoDisk
