import StegoDisk.Runs
import StegoDisk.StegoStorage

/-!
The public operations of `StegoStorage`, what each answers, and the storage after it, whether
it returned or threw.
-/
namespace StegoDisk.StegoStorage

/-- A call on a storage. `Configure` is given by the configuration it leaves, and `Open` by the
    files that its base path and filter select. -/
inductive Op
  | configure (config : StegoConfig)
  | open_ (select : File → Bool) (password : List UInt8)
  | load
  | read (offset length : Nat)
  | write (offset : Nat) (source : List UInt8)
  | getSize
  | save

/-- What a call returns. -/
inductive Answer
  | done
  | bytes (values : List UInt8)
  | size (value : Nat)
  deriving DecidableEq

def perform (platform : Platform) (s : StegoStorage) : Op → StegoStorage × Except Failure Answer
  | .configure config => (s.configure config,.ok .done)
  | .open_ select password =>
    ((s.open_ platform select password).1,(s.open_ platform select password).2.map fun _ => .done)
  | .load => ((s.load platform).1,(s.load platform).2.map fun _ => .done)
  | .read offset length => (s,(s.read offset length).map .bytes)
  | .write offset source => ((s.write offset source).1,(s.write offset source).2.map fun _ => .done)
  | .getSize => (s,s.getSize.map .size)
  | .save => ((s.save platform).1,(s.save platform).2.map fun _ => .done)

/-- The storage after a call. -/
def step (platform : Platform) (s : StegoStorage) (op : Op) : StegoStorage := (s.perform platform op).1

/-- The storage after some calls. -/
def after (platform : Platform) (s : StegoStorage) (ops : List Op) : StegoStorage := Runs.run (step platform) s ops

/-- What some calls answer one after another. -/
def answers (platform : Platform) (s : StegoStorage) : List Op → List (Except Failure Answer)
  | [] => []
  | op::rest => (s.perform platform op).2::answers platform (step platform s op) rest

variable {platform : Platform} {s : StegoStorage} {front back : List Op}

@[simp] theorem after_nil : after platform s [] = s := rfl

theorem after_append : after platform s (front ++ back) = after platform (after platform s front) back :=
  Runs.run_append s front back

/-- `Open` leaves the manager that `LoadDirectory` leaves, and is in force when that returned. -/
theorem open_eq (platform : Platform) (s : StegoStorage) (select : File → Bool) (password : List UInt8) :
    ∃ m result, (s.manager.setPassword platform.env password).loadDirectory platform.sorting s.config.localPermutation
        (s.directory.entries.filter fun entry => select entry.1) = (m,result) ∧
      ((∃ failure, result = .error failure) ∧ (s.open_ platform select password).1 = { s with manager := m, opened := false } ∨
        result = .ok () ∧ (s.open_ platform select password).1 = { s with manager := m, opened := true }) := by
  unfold open_
  dsimp only
  rcases (s.manager.setPassword platform.env password).loadDirectory platform.sorting s.config.localPermutation
    (s.directory.entries.filter fun entry => select entry.1) with ⟨m,failure | _⟩
  · exact ⟨m,_,rfl,.inl ⟨⟨failure,rfl⟩,rfl⟩⟩
  · exact ⟨m,_,rfl,.inr ⟨rfl,rfl⟩⟩

/-- `Write` changes bytes of one storage. -/
theorem write_eq (s : StegoStorage) (offset : Nat) (source : List UInt8) :
    (s.write offset source).1 = s ∨ ∃ ref storage storage', s.virtualStorage = some ref ∧ s.storages[ref]? = some storage ∧
      storage.write offset source = .ok storage' ∧
      (s.write offset source).1 = { s with storages := s.storages.set ref storage' } := by
  unfold write
  split
  · rename_i ref storage holds there
    rw [current,holds] at there
    split
    · exact .inl rfl
    · rename_i storage' written
      exact .inr ⟨ref,storage,storage',holds,there,written,rfl⟩
  · exact .inl rfl

/-- `Save` refuses, or it changes the manager, the storages and the files as `SaveVirtualStorage` does. -/
theorem save_eq (platform : Platform) (s : StegoStorage) :
    (∃ e, s.save platform = (s,.error (.thrown e))) ∨ s.opened = true ∧ s.virtualStorage ≠ none ∧
      ∃ m storages directory result, s.manager.saveVirtualStorage platform.env s.storages s.directory =
          ((m,storages,directory),result) ∧
        s.save platform = ({ s with manager := m, storages := storages, directory := directory },result) := by
  unfold save
  by_cases opened : s.opened = false
  · exact .inl ⟨_,by rw [if_pos opened]⟩
  cases loaded : s.virtualStorage with
  | none => exact .inl ⟨_,by rw [if_neg opened]; rfl⟩
  | some ref =>
    refine .inr ⟨by simpa using opened,by simp,_,_,_,_,rfl,?_⟩
    rw [if_neg opened]
    rfl

/-- `Load` refuses, or it runs `ApplyEncoder` and, when that returns, `LoadVirtualStorage` with
    a new storage. -/
theorem load_eq (platform : Platform) (s : StegoStorage) :
    ((s.config.initialized = false ∨ s.opened = false) ∧ ∃ e, s.load platform = (s,.error (.thrown e))) ∨
    s.config.initialized = true ∧ s.opened = true ∧
      ((∃ m failure, (s.manager.setEncoder (Encoder.ofType s.config.encoder)).applyEncoder platform.env =
          (m,.error failure) ∧ s.load platform = ({ s with manager := m },.error failure)) ∨
        ∃ m, (s.manager.setEncoder (Encoder.ofType s.config.encoder)).applyEncoder platform.env = (m,.ok ()) ∧
          ∃ m' storage result, m.loadVirtualStorage platform.env (platform.memory s.storages.length) s.directory
              s.storages.length (VirtualStorage.setPermutation {} (some (.fresh s.config.globalPerm))).1 =
              ((m',storage),result) ∧
            s.load platform = ({ s with manager := m', storages := s.storages ++ [storage],
                                        virtualStorage := some s.storages.length },result.map fun _ => ())) := by
  unfold load
  by_cases configured : s.config.initialized = false
  · exact .inl ⟨.inl configured,_,by rw [if_pos configured]⟩
  by_cases opened : s.opened = false
  · exact .inl ⟨.inr opened,_,by rw [if_neg configured,if_pos opened]⟩
  rw [if_neg configured,if_neg opened]
  refine .inr ⟨by simpa using configured,by simpa using opened,?_⟩
  rcases (s.manager.setEncoder (Encoder.ofType s.config.encoder)).applyEncoder platform.env with ⟨m,failure | _⟩
  · exact .inl ⟨m,failure,rfl,rfl⟩
  · exact .inr ⟨m,rfl,_,_,_,rfl,rfl⟩

end StegoDisk.StegoStorage
