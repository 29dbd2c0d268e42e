import Mathlib.Data.List.Basic
import Mathlib.Data.List.Range

/-!
Sponges: a message is padded to blocks of `rate` symbols, and a state absorbs them one after another. What has been
absorbed after some blocks depends on these blocks alone, so that a loop can take the whole blocks from the message and
pad the rest of it at its end.
-/
namespace StegoDisk.Sponge

variable {α σ : Type} {rate : Nat} {absorb : σ → List α → σ} {bytes more : List α}

/-- Block number `i`. -/
def block (rate : Nat) (bytes : List α) (i : Nat) : List α := (bytes.drop (i * rate)).take rate

/-- The state after the first `n` blocks. -/
def absorbed (rate : Nat) (absorb : σ → List α → σ) (start : σ) (bytes : List α) (n : Nat) : σ :=
  (List.range n).foldl (fun st i => absorb st (block rate bytes i)) start

/-- The state after a message and its padding, which is chosen by the length of the last block. -/
def sponge (rate : Nat) (absorb : σ → List α → σ) (padding : Nat → List α) (start : σ) (message : List α) : σ :=
  absorbed rate absorb start (message ++ padding (message.length % rate)) (message.length / rate + 1)

@[simp] theorem absorbed_zero (start : σ) : absorbed rate absorb start bytes 0 = start := rfl

theorem absorbed_succ (start : σ) (n : Nat) :
    absorbed rate absorb start bytes (n + 1) = absorb (absorbed rate absorb start bytes n) (block rate bytes n) := by
  simp only [absorbed,List.range_succ,List.foldl_append,List.foldl_cons,List.foldl_nil]

/-- A block inside a message does not see what comes behind it. -/
theorem block_append {i : Nat} (inside : (i + 1) * rate ≤ bytes.length) : block rate (bytes ++ more) i = block rate bytes i := by
  rw [Nat.succ_mul] at inside
  rw [block,block,List.drop_append_of_le_length (by omega),List.take_append_of_le_length (by rw [List.length_drop]; omega)]

theorem absorbed_append (start : σ) {n : Nat} (inside : n * rate ≤ bytes.length) :
    absorbed rate absorb start (bytes ++ more) n = absorbed rate absorb start bytes n := by
  induction n with
  | zero => rfl
  | succ n ih =>
    have front : n * rate ≤ bytes.length := (Nat.mul_le_mul_right _ (Nat.le_succ n)).trans inside
    rw [absorbed_succ,absorbed_succ,ih front,block_append inside]

/-- The last block is the rest of the message and the padding. -/
theorem block_last {n : Nat} (inside : n * rate ≤ bytes.length) (fills : bytes.length + more.length = (n + 1) * rate) :
    block rate (bytes ++ more) n = bytes.drop (n * rate) ++ more := by
  rw [Nat.succ_mul] at fills
  rw [block,List.drop_append_of_le_length inside,List.take_of_length_le]
  rw [List.length_append,List.length_drop]
  omega

/-- The whole blocks are absorbed from the message, and then its rest with the padding. -/
theorem sponge_eq {padding : Nat → List α} (start : σ) {message : List α}
    (fills : message.length % rate + (padding (message.length % rate)).length = rate) :
    sponge rate absorb padding start message =
      absorb (absorbed rate absorb start message (message.length / rate))
        (message.drop (message.length / rate * rate) ++ padding (message.length % rate)) := by
  have whole : message.length / rate * rate ≤ message.length := Nat.div_mul_le_self _ _
  have length := Nat.div_add_mod message.length rate
  rw [Nat.mul_comm] at length
  rw [sponge,absorbed_succ,absorbed_append start whole,block_last whole (by rw [Nat.succ_mul]; omega)]

/-! ### Symbols made of smaller ones -/

section Width

variable {β τ : Type} {e : α → List β} {k : Nat}

theorem length_flatMap (width : ∀ a, (e a).length = k) : (bytes.flatMap e).length = bytes.length * k := by
  induction bytes with
  | nil => simp
  | cons a bytes ih => rw [List.flatMap_cons,List.length_append,ih,width,List.length_cons,Nat.succ_mul,Nat.add_comm]

theorem drop_flatMap (width : ∀ a, (e a).length = k) (n : Nat) : (bytes.flatMap e).drop (n * k) = (bytes.drop n).flatMap e := by
  induction n generalizing bytes with
  | zero => simp
  | succ n ih =>
    cases bytes with
    | nil => simp
    | cons a bytes =>
      rw [Nat.succ_mul,Nat.add_comm,← List.drop_drop,List.flatMap_cons,List.drop_left' (width a),ih,List.drop_succ_cons]

theorem take_flatMap (width : ∀ a, (e a).length = k) (n : Nat) : (bytes.flatMap e).take (n * k) = (bytes.take n).flatMap e := by
  induction n generalizing bytes with
  | zero => simp
  | succ n ih =>
    cases bytes with
    | nil => simp
    | cons a bytes =>
      have whole : (e a).take (k + n * k) = e a := List.take_of_length_le (by rw [width]; omega)
      rw [Nat.succ_mul,Nat.add_comm,List.flatMap_cons,List.take_append,whole,width,Nat.add_sub_cancel_left,ih,List.take_succ_cons,
        List.flatMap_cons]

theorem block_flatMap (width : ∀ a, (e a).length = k) (i : Nat) :
    block (rate * k) (bytes.flatMap e) i = (block rate bytes i).flatMap e := by
  rw [block,← Nat.mul_assoc,drop_flatMap width,take_flatMap width,block]

/-- A sponge over the smaller symbols shows what one over the larger ones does, when each block does. -/
theorem absorbed_flatMap {absorb' : τ → List β → τ} {view : σ → τ} (width : ∀ a, (e a).length = k) (start : σ)
    (each : ∀ st bytes, bytes.length ≤ rate → absorb' (view st) (bytes.flatMap e) = view (absorb st bytes)) (n : Nat) :
    absorbed (rate * k) absorb' (view start) (bytes.flatMap e) n = view (absorbed rate absorb start bytes n) := by
  induction n with
  | zero => rfl
  | succ n ih =>
    rw [absorbed_succ,absorbed_succ,ih,block_flatMap width]
    exact each _ _ (List.length_take_le _ _)

end Width

/-! ### Differences -/

/-- Where each state takes up a block without loss, messages that differ in one block only are never brought together again. -/
theorem absorbed_apart {good : σ → Prop} (keeps : ∀ st bytes, good (absorb st bytes))
    (state : ∀ st st' bytes, good st → good st' → absorb st bytes = absorb st' bytes → st = st')
    (input : ∀ st bytes bytes', good st → bytes.length = rate → bytes'.length = rate → absorb st bytes = absorb st bytes' →
      bytes = bytes') {start : σ} (start_ : good start) {bytes' : List α} {k : Nat}
    (same : ∀ i, i ≠ k → block rate bytes i = block rate bytes' i) (full : (block rate bytes k).length = rate)
    (full' : (block rate bytes' k).length = rate) (differ : block rate bytes k ≠ block rate bytes' k) {n : Nat} (after : k < n) :
    absorbed rate absorb start bytes n ≠ absorbed rate absorb start bytes' n := by
  have good_ : ∀ bytes n, good (absorbed rate absorb start bytes n) := by
    intro bytes n
    cases n with
    | zero => exact start_
    | succ n => exact absorbed_succ start n ▸ keeps _ _
  have before : ∀ m ≤ k, absorbed rate absorb start bytes m = absorbed rate absorb start bytes' m := by
    intro m
    induction m with
    | zero => intro _; rfl
    | succ m ih =>
      intro early
      rw [absorbed_succ,absorbed_succ,ih (by omega),same m (by omega)]
  induction n with
  | zero => omega
  | succ n ih =>
    intro meet
    rw [absorbed_succ,absorbed_succ] at meet
    rcases Nat.lt_succ_iff_lt_or_eq.mp after with later | rfl
    · rw [same n (by omega)] at meet
      exact ih later (state _ _ _ (good_ _ _) (good_ _ _) meet)
    · rw [before k le_rfl] at meet
      exact differ (input _ _ _ (good_ _ _) full full' meet)

theorem block_split (i : Nat) : block rate (bytes ++ more) i =
    block rate bytes i ++ (more.drop (i * rate - bytes.length)).take (rate - (bytes.length - i * rate)) := by
  rw [block,block,List.drop_append,List.take_append,List.length_drop]

/-- Messages of one length that differ in one block only leave different states. -/
theorem sponge_apart {padding : Nat → List α} (good : σ → Prop) (keeps : ∀ st bytes, good (absorb st bytes))
    (state : ∀ st st' bytes, good st → good st' → absorb st bytes = absorb st' bytes → st = st')
    (input : ∀ st bytes bytes', good st → bytes.length = rate → bytes'.length = rate → absorb st bytes = absorb st bytes' →
      bytes = bytes') {start : σ} (start_ : good start) (positive : 0 < rate) {message message' : List α}
    (length : message.length = message'.length)
    (fills : message.length % rate + (padding (message.length % rate)).length = rate) {k : Nat}
    (same : ∀ i, i ≠ k → block rate message i = block rate message' i) (differ : block rate message k ≠ block rate message' k) :
    sponge rate absorb padding start message ≠ sponge rate absorb padding start message' := by
  have early : k * rate < message.length := by
    by_contra late
    refine differ ?_
    rw [block,block,List.drop_eq_nil_of_le (by omega),List.drop_eq_nil_of_le (by omega)]
  have parts := Nat.div_add_mod message.length rate
  rw [Nat.mul_comm] at parts
  have among : k ≤ message.length / rate := (Nat.le_div_iff_mul_le positive).mpr early.le
  have room : k * rate + rate ≤ message.length / rate * rate + rate := Nat.add_le_add_right (Nat.mul_le_mul_right _ among) _
  have full : ∀ {bytes : List α}, bytes.length = message.length →
      (block rate (bytes ++ padding (message.length % rate)) k).length = rate := by
    intro bytes count
    rw [block,List.length_take,List.length_drop,List.length_append,count]
    omega
  rw [sponge,sponge,← length]
  refine absorbed_apart keeps state input start_ (k := k) ?_ (full rfl) (full length.symm) ?_ (Nat.lt_succ_of_le among)
  · intro i other
    rw [block_split,block_split,same i other,length]
  · intro meet
    rw [block_split,block_split,length] at meet
    exact differ (List.append_cancel_right meet)

end StegoDisk.Sponge
