import Mathlib.Data.List.Basic

/-!
Tasks that take turns. A schedule of some tasks takes all their actions, those of each
task in its order. When actions of different tasks commute, every schedule leaves the
state that running the tasks one after another leaves.
-/
namespace StegoDisk.Interleaving

variable {α σ : Type}

/-- The schedules of a list of tasks. -/
inductive Interleaves : List (List α) → List α → Prop
  | done {tasks : List (List α)} (finished : ∀ task ∈ tasks, task = []) : Interleaves tasks []
  | step {tasks : List (List α)} {k : Nat} {a : α} {rest schedule : List α} (next : tasks[k]? = some (a::rest))
      (more : Interleaves (tasks.set k rest) schedule) : Interleaves tasks (a::schedule)

/-- In states that satisfy an invariant, actions of different tasks commute. -/
def Independent (Inv : σ → Prop) (act : σ → α → σ) (tasks : List (List α)) : Prop :=
  ∀ (j k : Nat) (first second : List α), tasks[j]? = some first → tasks[k]? = some second → j ≠ k →
    ∀ a ∈ first, ∀ b ∈ second, ∀ s, Inv s → act (act s a) b = act (act s b) a

variable {Inv : σ → Prop} {act : σ → α → σ}

theorem foldl_keeps (keeps : ∀ s a, Inv s → Inv (act s a)) {s : σ} (inv : Inv s) (actions : List α) :
    Inv (actions.foldl act s) := by
  induction actions generalizing s with
  | nil => exact inv
  | cons a rest ih => exact ih (keeps s a inv)

/-- An action moves past a list of actions that it commutes with. -/
theorem foldl_past (keeps : ∀ s a, Inv s → Inv (act s a)) {a : α} {actions : List α}
    (commutes : ∀ b ∈ actions, ∀ s, Inv s → act (act s a) b = act (act s b) a) {s : σ} (inv : Inv s) :
    actions.foldl act (act s a) = act (actions.foldl act s) a := by
  induction actions generalizing s with
  | nil => rfl
  | cons b rest ih =>
    rw [List.foldl_cons,List.foldl_cons,commutes b List.mem_cons_self s inv]
    exact ih (fun c member => commutes c (List.mem_cons_of_mem _ member)) (keeps s b inv)

theorem Independent.next {tasks : List (List α)} (independent : Independent Inv act tasks) {k : Nat} {a : α} {rest : List α}
    (next : tasks[k]? = some (a::rest)) : Independent Inv act (tasks.set k rest) := by
  -- a task of the rest is a task with fewer actions
  have earlier : ∀ (j : Nat) (task : List α), (tasks.set k rest)[j]? = some task → ∃ whole : List α, tasks[j]? = some whole ∧ ∀ b ∈ task, b ∈ whole := by
    intro j task there
    rw [List.getElem?_set] at there
    split at there
    · rename_i same
      subst same
      split at there
      · obtain rfl := Option.some.inj there
        exact ⟨_,next,fun b member => List.mem_cons_of_mem _ member⟩
      · simp at there
    · exact ⟨task,there,fun b member => member⟩
  intro j l first second inFirst inSecond differ b member c member'
  obtain ⟨whole,here,subset⟩ := earlier j first inFirst
  obtain ⟨whole',there,subset'⟩ := earlier l second inSecond
  exact independent j l whole whole' here there differ b (subset b member) c (subset' c member')

/-- The first action of a task can be taken first. -/
theorem Independent.foldl_flatten {tasks : List (List α)} (independent : Independent Inv act tasks)
    (keeps : ∀ s a, Inv s → Inv (act s a)) {k : Nat} {a : α} {rest : List α} (next : tasks[k]? = some (a::rest)) {s : σ}
    (inv : Inv s) : tasks.flatten.foldl act s = (tasks.set k rest).flatten.foldl act (act s a) := by
  obtain ⟨inside,here⟩ := List.getElem?_eq_some_iff.mp next
  have split_ : tasks = tasks.take k ++ (a::rest)::tasks.drop (k + 1) := by
    rw [← here,List.getElem_cons_drop,List.take_append_drop]
  have after : tasks.set k rest = tasks.take k ++ rest::tasks.drop (k + 1) := List.set_eq_take_append_cons_drop.trans (if_pos inside)
  have past : ((tasks.take k).flatten).foldl act (act s a) = act ((tasks.take k).flatten.foldl act s) a := by
    apply foldl_past keeps _ inv
    intro b member t holds
    obtain ⟨task,front,member⟩ := List.mem_flatten.mp member
    obtain ⟨j,early,there⟩ := List.mem_take_iff_getElem.mp front
    have before : j < k := by omega
    have found : tasks[j]? = some task := List.getElem?_eq_some_iff.mpr ⟨by omega,there⟩
    exact independent k j _ task next found (by omega) a List.mem_cons_self b member t holds
  rw [after]
  nth_rewrite 1 [split_]
  simp only [List.flatten_append,List.flatten_cons,List.foldl_append,List.foldl_cons]
  rw [past]

/-- Every schedule of independent tasks ends as the tasks do one after another. -/
theorem Interleaves.foldl {tasks : List (List α)} {schedule : List α} (interleaves : Interleaves tasks schedule)
    (independent : Independent Inv act tasks) (keeps : ∀ s a, Inv s → Inv (act s a)) {s : σ} (inv : Inv s) :
    schedule.foldl act s = tasks.flatten.foldl act s := by
  induction interleaves generalizing s with
  | done finished => rw [List.flatten_eq_nil_iff.mpr finished]
  | step next more ih =>
    rw [List.foldl_cons,ih (independent.next next) (keeps _ _ inv),independent.foldl_flatten keeps next inv]

/-! ### Schedules on their way -/

/-- The beginning of a schedule, with what it leaves of each task. -/
inductive Takes (tasks : List (List α)) : List α → List (List α) → Prop
  | start : Takes tasks [] tasks
  | next {schedule : List α} {left : List (List α)} {k : Nat} {a : α} {rest : List α} (before : Takes tasks schedule left)
      (next : left[k]? = some (a::rest)) : Takes tasks (schedule ++ [a]) (left.set k rest)

theorem Takes.length {tasks left : List (List α)} {schedule : List α} (takes : Takes tasks schedule left) :
    left.length = tasks.length := by
  induction takes with
  | start => rfl
  | next before next ih => rw [List.length_set,ih]

/-- A task that comes later is still whole. -/
theorem Takes.add {tasks left : List (List α)} {schedule : List α} (takes : Takes tasks schedule left) (task : List α) :
    Takes (tasks ++ [task]) schedule (left ++ [task]) := by
  induction takes with
  | start => exact .start
  | @next schedule left k a rest before next ih =>
    obtain ⟨inside,_⟩ := List.getElem?_eq_some_iff.mp next
    rw [← List.set_append_left _ _ inside]
    exact .next ih (by rw [List.getElem?_append_left inside,next])

theorem Takes.interleaves {tasks left : List (List α)} {schedule rest : List α} (takes : Takes tasks schedule left)
    (more : Interleaves left rest) : Interleaves tasks (schedule ++ rest) := by
  induction takes generalizing rest with
  | start => exact more
  | next before next ih =>
    rw [List.append_assoc]
    exact ih (.step next more)

/-- A beginning that leaves nothing is a schedule. -/
theorem Takes.finished {tasks left : List (List α)} {schedule : List α} (takes : Takes tasks schedule left)
    (finished : ∀ task ∈ left, task = []) : Interleaves tasks schedule := by
  have whole := takes.interleaves (.done finished)
  rwa [List.append_nil] at whole

/-- Tasks without actions take no part. -/
theorem Interleaves.of_append {done tasks : List (List α)} (finished : ∀ task ∈ done, task = []) {schedule : List α}
    (interleaves : Interleaves (done ++ tasks) schedule) : Interleaves tasks schedule := by
  generalize whole : done ++ tasks = all at interleaves
  induction interleaves generalizing tasks with
  | done none_ =>
    subst whole
    exact .done fun task member => none_ task (List.mem_append_right _ member)
  | @step all k a rest schedule next more ih =>
    subst whole
    have later : done.length ≤ k := by
      by_contra before
      rw [List.getElem?_append_left (by omega)] at next
      have empty := finished _ (List.mem_of_getElem? next)
      cases empty
    rw [List.getElem?_append_right later] at next
    exact .step next (ih (by rw [List.set_append_right _ _ later]))

/-- A schedule of renamed actions is a schedule whose actions are renamed. -/
theorem Interleaves.of_map {β : Type} {f : α → β} {tasks : List (List α)} {schedule : List β}
    (interleaves : Interleaves (tasks.map (List.map f)) schedule) :
    ∃ schedule', schedule = schedule'.map f ∧ Interleaves tasks schedule' := by
  generalize renamed : tasks.map (List.map f) = all at interleaves
  induction interleaves generalizing tasks with
  | done finished =>
    subst renamed
    refine ⟨[],rfl,.done fun task member => ?_⟩
    exact List.map_eq_nil_iff.mp (finished _ (List.mem_map_of_mem member))
  | @step all k b rest schedule next more ih =>
    subst renamed
    rw [List.getElem?_map] at next
    obtain ⟨task,here,same⟩ := Option.map_eq_some_iff.mp next
    obtain ⟨a,others,rfl,rfl,rfl⟩ := List.map_eq_cons_iff.mp same
    obtain ⟨schedule',rfl,others'⟩ := ih (List.map_set ..)
    exact ⟨a::schedule',rfl,.step here others'⟩

end StegoDisk.Interleaving
