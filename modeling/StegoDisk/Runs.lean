import Mathlib.Data.List.Basic

/-!
Runs of a machine: a state, and operations one after another that each give a next state. A
condition on the states in which operations are made, and invariants of runs that meet it.
-/
namespace StegoDisk.Runs

variable {σ ω : Type} {step : σ → ω → σ} {Meets : σ → ω → Prop}

/-- The state after some operations. -/
def run (step : σ → ω → σ) (s : σ) (ops : List ω) : σ := ops.foldl step s

@[simp] theorem run_nil (s : σ) : run step s [] = s := rfl

@[simp] theorem run_cons (s : σ) (op : ω) (rest : List ω) : run step s (op::rest) = run step (step s op) rest := rfl

theorem run_append (s : σ) (front back : List ω) : run step s (front ++ back) = run step (run step s front) back :=
  List.foldl_append

/-- Every operation meets the condition in the state in which it is made. -/
def AllMeet (step : σ → ω → σ) (Meets : σ → ω → Prop) (s : σ) : List ω → Prop
  | [] => True
  | op::rest => Meets s op ∧ AllMeet step Meets (step s op) rest

instance [∀ s op, Decidable (Meets s op)] : ∀ (s : σ) (ops : List ω), Decidable (AllMeet step Meets s ops)
  | _,[] => isTrue trivial
  | s,op::rest => have := instDecidableAllMeet (step s op) rest; inferInstanceAs (Decidable (_ ∧ _))

theorem allMeet_append {s : σ} {front back : List ω} :
    AllMeet step Meets s (front ++ back) ↔ AllMeet step Meets s front ∧ AllMeet step Meets (run step s front) back := by
  induction front generalizing s with
  | nil => simp [AllMeet]
  | cons op rest ih => simp only [List.cons_append,AllMeet,ih,run_cons,and_assoc]

/-- Every operation meets the condition in the state that the operations before it lead to. -/
theorem allMeet_iff {s : σ} {ops : List ω} :
    AllMeet step Meets s ops ↔ ∀ front op back, ops = front ++ op::back → Meets (run step s front) op := by
  constructor
  · rintro all front op back rfl
    exact (allMeet_append.mp all).2.1
  · intro each
    induction ops generalizing s with
    | nil => trivial
    | cons op rest ih =>
      refine ⟨each [] op rest rfl,ih fun front other back split_ => ?_⟩
      have later := each (op::front) other back (by rw [split_,List.cons_append])
      exact later

/-- What operations that meet the condition keep holds after a run of them. -/
theorem AllMeet.run_keeps {Inv : σ → Prop} {s : σ} {ops : List ω}
    (keeps : ∀ s, ∀ op ∈ ops, Inv s → Meets s op → Inv (step s op)) (all : AllMeet step Meets s ops) (inv : Inv s) :
    Inv (run step s ops) := by
  induction ops generalizing s with
  | nil => exact inv
  | cons op rest ih =>
    exact ih (fun s op member => keeps s op (List.mem_cons_of_mem _ member)) all.2 (keeps s op List.mem_cons_self inv all.1)

end StegoDisk.Runs
