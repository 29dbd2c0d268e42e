import Mathlib.Data.List.Basic
import Mathlib.Data.List.Nodup
import Mathlib.Data.List.Range

/-!
Loops that can fail, with the rule for each: a loop over a list of indices in a
monad of results (`foldlM`), which loses its state when it fails, and one that
keeps the state reached when a step fails (`forEach`).
-/
namespace StegoDisk.Loops

variable {ε σ α : Type}

/-- A loop whose steps all return and lead from one invariant to the next returns. -/
theorem foldlM_range {step : σ → Nat → Except ε σ} {n : Nat} (Inv : Nat → σ → Prop) {start : σ}
    (first : Inv 0 start) (next : ∀ i < n, ∀ s, Inv i s → ∃ s', step s i = .ok s' ∧ Inv (i + 1) s') :
    ∃ s', (List.range n).foldlM step start = .ok s' ∧ Inv n s' := by
  induction n with
  | zero => exact ⟨start,rfl,first⟩
  | succ n ih =>
    obtain ⟨s,ran,inv⟩ := ih fun i inside => next i (by omega)
    obtain ⟨s',last,after⟩ := next n (by omega) s inv
    refine ⟨s',?_,after⟩
    rw [List.range_succ,List.foldlM_append,ran]
    simp [bind,Except.bind,last,pure,Except.pure]

/-- What every step that returns keeps, a loop that returns keeps. -/
theorem foldlM_keeps {step : σ → α → Except ε σ} (Kept : σ → Prop)
    (keeps : ∀ a s s', step s a = .ok s' → Kept s → Kept s') {items : List α} {s s' : σ}
    (ran : items.foldlM step s = .ok s') (before : Kept s) : Kept s' := by
  induction items generalizing s with
  | nil =>
    obtain rfl := Except.ok.inj ran
    exact before
  | cons a rest ih =>
    rw [List.foldlM_cons] at ran
    rcases first : step s a with failure | next
    · simp [first,bind,Except.bind] at ran
    · exact ih (by simpa [first,bind,Except.bind] using ran) (keeps a s next first before)

/-- Where steps that return are steps of another loop, so are loops that return. -/
theorem foldlM_alike {step step' : σ → α → Except ε σ} (each : ∀ s a s', step s a = .ok s' → step' s a = .ok s')
    {items : List α} {start stop : σ} (ran : items.foldlM step start = .ok stop) : items.foldlM step' start = .ok stop := by
  induction items generalizing start with
  | nil => exact ran
  | cons a items ih =>
    rw [List.foldlM_cons] at ran ⊢
    rcases first : step start a with failure | next
    · simp [first,bind,Except.bind] at ran
    · rw [each _ _ _ first]
      exact ih (by simpa [first,bind,Except.bind] using ran)

/-- What holds after the steps of a loop that returned. -/
theorem foldlM_range_inv {step : σ → Nat → Except ε σ} {n : Nat} (Inv : Nat → σ → Prop) {start s' : σ}
    (first : Inv 0 start) (next : ∀ i < n, ∀ s s', step s i = .ok s' → Inv i s → Inv (i + 1) s')
    (ran : (List.range n).foldlM step start = .ok s') : Inv n s' := by
  induction n generalizing s' with
  | zero =>
    obtain rfl := Except.ok.inj ran
    exact first
  | succ n ih =>
    rw [List.range_succ,List.foldlM_append] at ran
    rcases before : (List.range n).foldlM step start with failure | s
    · simp [before,bind,Except.bind] at ran
    · refine next n (by omega) s s' ?_ (ih (fun i inside => next i (by omega)) before)
      rcases last : step s n with failure | s''
      · simp [before,last,bind,Except.bind] at ran
      · simpa [before,last,bind,Except.bind,pure,Except.pure] using ran

/-- A loop in a loop is a loop over the pairs. -/
theorem foldlM_nested {β : Type} (step : σ → α → β → Except ε σ) (rows : List α) (columns : List β) (start : σ) :
    rows.foldlM (fun s a => columns.foldlM (fun s b => step s a b) s) start =
      (rows.flatMap fun a => columns.map fun b => (a,b)).foldlM (fun s place => step s place.1 place.2) start := by
  induction rows generalizing start with
  | nil => rfl
  | cons a rest ih =>
    rw [List.foldlM_cons,List.flatMap_cons,List.foldlM_append,List.foldlM_map]
    exact bind_congr fun s => ih s

theorem mapM_length {β : Type} {f : α → Except ε β} {items : List α} {values : List β} (ran : items.mapM f = .ok values) :
    values.length = items.length := by
  induction items generalizing values with
  | nil =>
    obtain rfl := Except.ok.inj ran
    rfl
  | cons a rest ih =>
    rw [List.mapM_cons] at ran
    rcases first : f a with failure | value
    · simp [first,bind,Except.bind] at ran
    rcases others : rest.mapM f with failure | values'
    · simp [first,others,bind,Except.bind] at ran
    simp only [first,others,bind,Except.bind,pure,Except.pure,Except.ok.injEq] at ran
    obtain rfl := ran
    simp [ih others]

theorem mapM_ok {β : Type} {f : α → Except ε β} {g : α → β} {items : List α} (each : ∀ a ∈ items, f a = .ok (g a)) :
    items.mapM f = .ok (items.map g) := by
  induction items with
  | nil => rfl
  | cons a rest ih =>
    rw [List.mapM_cons,each a List.mem_cons_self,ih fun b member => each b (List.mem_cons_of_mem _ member)]
    rfl

/-- Run a step for each element; the first failure ends the loop. -/
def forEach (step : σ → α → σ × Except ε Unit) : List α → σ → σ × Except ε Unit
  | [],s => (s,.ok ())
  | a::rest,s =>
    match step s a with
    | (s',.ok ()) => forEach step rest s'
    | (s',.error failure) => (s',.error failure)

/-- What every step keeps, a loop keeps, whether it fails or not. -/
theorem forEach_keeps {step : σ → α → σ × Except ε Unit} {items : List α} (Kept : σ → Prop)
    (keeps : ∀ a ∈ items, ∀ s, Kept s → Kept (step s a).1) {s : σ} (before : Kept s) :
    Kept (forEach step items s).1 := by
  induction items generalizing s with
  | nil => exact before
  | cons a rest ih =>
    have after := keeps a List.mem_cons_self s before
    simp only [forEach]
    rcases ran : step s a with ⟨s',failure | done⟩
    · simpa [ran] using after
    · exact ih (fun b member => keeps b (List.mem_cons_of_mem _ member)) (by simpa [ran] using after)

/-! ### Lists in step -/

theorem forall₂_right {β : Type} {R : α → β → Prop} {xs : List α} {ys : List β} (all : List.Forall₂ R xs ys) {k : Nat}
    {y : β} (there : ys[k]? = some y) : ∃ x, xs[k]? = some x ∧ R x y := by
  induction all generalizing k with
  | nil => simp at there
  | @cons x z _ _ first _ ih =>
    cases k with
    | zero =>
      obtain rfl : z = y := by simpa using there
      exact ⟨x,rfl,first⟩
    | succ k => exact ih (by simpa using there)

theorem forall₂_left {β : Type} {R : α → β → Prop} {xs : List α} {ys : List β} (all : List.Forall₂ R xs ys) {k : Nat}
    {x : α} (there : xs[k]? = some x) : ∃ y, ys[k]? = some y ∧ R x y :=
  forall₂_right (List.Forall₂.flip all) there

/-- A list that is mapped to one of related elements. -/
theorem map_of_forall₂ {β : Type} {R : α → β → Prop} {f : β → α} {xs : List α} {ys : List β} (all : List.Forall₂ R xs ys)
    (same : ∀ x y, y ∈ ys → x ∈ xs → R x y → f y = x) : ys.map f = xs := by
  induction all with
  | nil => rfl
  | cons related _ ih =>
    rw [List.map_cons,same _ _ List.mem_cons_self List.mem_cons_self related,
      ih fun x y there here => same x y (List.mem_cons_of_mem _ there) (List.mem_cons_of_mem _ here)]

theorem find?_of_mem {β : Type} [DecidableEq α] {entries : List (α × β)} {key : α} {value : β} (distinct : (entries.map Prod.fst).Nodup)
    (member : (key,value) ∈ entries) : entries.find? (fun entry => entry.1 = key) = some (key,value) := by
  cases found : entries.find? (fun entry => entry.1 = key) with
  | none =>
    have absent := List.find?_eq_none.mp found _ member
    simp at absent
  | some entry =>
    have there := List.mem_of_find?_eq_some found
    have name : entry.1 = key := by simpa using List.find?_some found
    rw [List.inj_on_of_nodup_map distinct there member name]

theorem split_at {xs : List α} {k : Nat} {x : α} (here : xs[k]? = some x) : xs = xs.take k ++ x::xs.drop (k + 1) := by
  obtain ⟨inside,rfl⟩ := List.getElem?_eq_some_iff.mp here
  rw [List.getElem_cons_drop,List.take_append_drop]

/-! ### Actions -/

/-- A loop whose steps all return takes all their actions. -/
theorem forEach_total {β : Type} {Inv : σ → Prop} {act : σ → β → σ} (keeps : ∀ s b, Inv s → Inv (act s b))
    {step : σ → α → σ × Except ε Unit} {actions : α → List β} {items : List α}
    (each : ∀ a ∈ items, ∀ s, Inv s → step s a = ((actions a).foldl act s,.ok ())) {s : σ} (inv : Inv s) :
    forEach step items s = ((items.flatMap actions).foldl act s,.ok ()) := by
  induction items generalizing s with
  | nil => rfl
  | cons a rest ih =>
    have after : Inv ((actions a).foldl act s) := List.foldlRecOn (actions a) act inv fun t kept b _ => keeps t b kept
    rw [forEach,each a List.mem_cons_self s inv,List.flatMap_cons,List.foldl_append]
    exact ih (fun b member => each b (List.mem_cons_of_mem _ member)) after

/-- A step takes actions of a list in their order, the same ones in every state of an
    invariant, and all of them if it returns. -/
def Logs {β : Type} (Inv : σ → Prop) (act : σ → β → σ) (step : σ → σ × Except ε Unit) (actions : List β) : Prop :=
  ∃ log result, log <+: actions ∧ (result = .ok () → log = actions) ∧ ∀ s, Inv s → step s = (log.foldl act s,result)

/-- What a loop does is logged when what its steps do is. -/
theorem forEach_logs {β : Type} {Inv : σ → Prop} {act : σ → β → σ} (keeps : ∀ s b, Inv s → Inv (act s b))
    {step : σ → α → σ × Except ε Unit} {actions : α → List β} {items : List α}
    (each : ∀ a ∈ items, Logs Inv act (fun s => step s a) (actions a)) :
    Logs Inv act (forEach step items) (items.flatMap actions) := by
  induction items with
  | nil => exact ⟨[],.ok (),List.prefix_rfl,fun _ => rfl,fun s _ => rfl⟩
  | cons a rest ih =>
    obtain ⟨first,result,front,all,ran⟩ := each a List.mem_cons_self
    obtain ⟨more,result',front',all',ran'⟩ := ih fun b member => each b (List.mem_cons_of_mem _ member)
    rw [List.flatMap_cons]
    rcases result with failure | done
    · refine ⟨first,.error failure,front.trans (List.prefix_append _ _),by simp,?_⟩
      intro s inv
      simp only [forEach,ran s inv]
    · obtain rfl := all rfl
      refine ⟨actions a ++ more,result',(List.prefix_append_right_inj _).mpr front',?_,?_⟩
      · intro returned
        rw [all' returned]
      · intro s inv
        have after : Inv ((actions a).foldl act s) := List.foldlRecOn (actions a) act inv fun t kept b _ => keeps t b kept
        simp only [forEach,ran s inv,ran' _ after,List.foldl_append]

/-- A loop that records actions in place of a loop that takes them. -/
theorem forEach_recorded {β : Type} {act : σ → β → σ} {step : σ → α → σ × Except ε Unit}
    {record : List β → α → List β × Except ε Unit} {start : σ} {items : List α}
    (each : ∀ a ∈ items, ∀ log, step (log.foldl act start) a = ((record log a).1.foldl act start,(record log a).2))
    (log : List β) :
    forEach step items (log.foldl act start) = ((forEach record items log).1.foldl act start,(forEach record items log).2) := by
  induction items generalizing log with
  | nil => rfl
  | cons a rest ih =>
    have first := each a List.mem_cons_self log
    rcases recorded : record log a with ⟨log',failure | _⟩
    · rw [recorded] at first
      simp only [forEach,first,recorded]
    · rw [recorded] at first
      simp only [forEach,first,recorded]
      exact ih (fun b member => each b (List.mem_cons_of_mem _ member)) log'

end StegoDisk.Loops
