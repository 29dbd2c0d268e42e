import StegoDisk.Operations
import StegoDisk.StorageInvariant

/-!
What `StegoStorage` is for: a disk whose bytes are kept somewhere else. It is opened with a password, a load brings the
bytes that are kept into memory, users read and write them there, and a save keeps them. A new object has nothing but
what was kept. This is the abstract side; the storage in image files is compared with it in a module of its own.
-/
namespace StegoDisk

/-- So many bytes. -/
abbrev Bytes (size : Nat) := {bytes : List UInt8 // bytes.length = size}

namespace Bytes

variable {size : Nat}

def read (bytes : Bytes size) (offset length : Nat) : List UInt8 := (bytes.val.drop offset).take length

/-- The bytes with some of them replaced. -/
def write (bytes : Bytes size) (offset : Nat) (source : List UInt8) (inside : offset + source.length ≤ size) : Bytes size :=
  ⟨VirtualStorage.splice bytes.val offset source,
    (VirtualStorage.splice_length (by rw [bytes.property]; exact inside)).trans bytes.property⟩

theorem ext {bytes bytes' : Bytes size} (same : bytes.val = bytes'.val) : bytes = bytes' := Subtype.ext same

end Bytes

structure Disk (size : Nat) where
  kept : Bytes size
  opened : Bool := false
  /-- It was loaded since it was opened. -/
  loaded : Bool := false
  working : Option (Bytes size) := none

namespace Disk

variable {size : Nat}

/-- What a user asks of it. -/
inductive Request
  | open_
  | load
  | read (offset length : Nat)
  | write (offset : Nat) (source : List UInt8)
  | getSize
  | save

open StegoStorage

def perform (d : Disk size) : Request → Disk size × Except Failure Answer
  | .open_ => ({ d with opened := true, loaded := false },.ok .done)
  | .load =>
    if d.opened then ({ d with loaded := true, working := some d.kept },.ok .done)
    else (d,.error (.thrown (.invalidState .loadStegoStrorage .storage .notOpened)))
  | .read offset length =>
    match d.working with
    | none => (d,.error (.thrown (.invalidState .ioStegoStorage .storage .notLoaded)))
    | some bytes =>
      if offset + length ≤ size then (d,.ok (.bytes (bytes.read offset length)))
      else (d,.error (.thrown (.outOfRange "index out of range")))
  | .write offset source =>
    match d.working with
    | none => (d,.error (.thrown (.invalidState .ioStegoStorage .storage .notLoaded)))
    | some bytes =>
      if inside : offset + source.length ≤ size then
        ({ d with working := some (bytes.write offset source inside) },.ok .done)
      else (d,.error (.thrown (.outOfRange "index out of range")))
  | .getSize => (d,.ok (.size (if d.working.isSome then size else 0)))
  | .save =>
    if d.opened then
      match d.working with
      | none => (d,.error (.thrown (.invalidState .saveStegoStrorage .storage .notLoaded)))
      | some bytes =>
        if d.loaded then ({ d with kept := bytes },.ok .done)
        else (d,.error (.thrown (.invalidState .save .file .notLoaded)))
    else (d,.error (.thrown (.invalidState .saveStegoStrorage .storage .notOpened)))

def step (d : Disk size) (request : Request) : Disk size := (d.perform request).1

def after (d : Disk size) (requests : List Request) : Disk size := Runs.run step d requests

/-- What some requests answer one after another. -/
def answers (d : Disk size) : List Request → List (Except Failure Answer)
  | [] => []
  | request::rest => (d.perform request).2::answers (d.step request) rest

/-- A new object on what is kept. -/
def restart (d : Disk size) : Disk size := { kept := d.kept }

/-- A disk is loaded once after it was opened, and no range goes beyond the 64-bit offsets. -/
def Proper (d : Disk size) : Request → Prop
  | .load => d.loaded = false
  | .read offset length => offset + length < 2 ^ 64
  | .write offset source => offset + source.length < 2 ^ 64
  | _ => True

instance (d : Disk size) : ∀ request, Decidable (Proper d request)
  | .load => inferInstanceAs (Decidable (d.loaded = false))
  | .read offset length => inferInstanceAs (Decidable (offset + length < 2 ^ 64))
  | .write offset source => inferInstanceAs (Decidable (offset + source.length < 2 ^ 64))
  | .open_ | .getSize | .save => isTrue trivial

/-- What the requests of one object after another answer. -/
def sessions (d : Disk size) : List (List Request) → List (List (Except Failure Answer))
  | [] => []
  | requests::rest => d.restart.answers requests::sessions (d.restart.after requests) rest

/-- In every session the requests are proper. -/
def AllProper (d : Disk size) : List (List Request) → Prop
  | [] => True
  | requests::rest => Runs.AllMeet step Proper d.restart requests ∧ AllProper (d.restart.after requests) rest

end Disk
end StegoDisk
