import BgqDriver.ByteMemory

/-!
Files as arrays of bytes: what opening, seeking, reading, writing, truncating and removing
names mean, with no storage behind it. A file lives on under its descriptors when its name
has been removed.
-/

namespace BgqDriver.PosixFiles

open Function
open ByteMemory

/-- The contents of a file. There is nothing but zeros behind the end, so that a file
grows by zeros. -/
@[ext]
structure File (β : Type*) [Zero β] where
  size : Nat
  byte : Nat → β
  zero : ∀ i, size ≤ i → byte i = 0

namespace File

variable {β : Type*} [Zero β] (f : File β) {offset n i : Nat} {bs : List β}

def empty : File β := ⟨0, fun _ => 0, fun _ _ => rfl⟩

/-- A write of nothing does not make a file longer. -/
def write (offset : Nat) (bs : List β) : File β :=
  if bs.isEmpty then f
  else
    { size := max f.size (offset + bs.length)
      byte := store f.byte offset bs
      zero := by
        intro i hi
        rw [store_outside (by omega)]
        exact f.zero i (by omega) }

def truncate (n : Nat) : File β where
  size := n
  byte := fun i => if i < n then f.byte i else 0
  zero := fun _ hi => if_neg (Nat.not_lt.mpr hi)

def read (offset length : Nat) : List β := load f.byte offset (min length (f.size - offset))

variable {f}

theorem size_write (h : bs ≠ [] ∨ offset ≤ f.size) :
    (f.write offset bs).size = max f.size (offset + bs.length) := by
  rw [write]
  split
  next hempty =>
    obtain rfl := List.isEmpty_iff.mp hempty
    rcases h with hne | hle
    · exact absurd rfl hne
    · exact (Nat.max_eq_left hle).symm
  · rfl

theorem byte_write : (f.write offset bs).byte = store f.byte offset bs := by
  rw [write]
  split
  next hempty =>
    obtain rfl := List.isEmpty_iff.mp hempty
    funext x
    exact (store_outside (by simp only [List.length_nil]; omega)).symm
  · rfl

end File

/-- Which file a name stands for, what each file holds, and the file and the offset of
each open descriptor. Files are numbered as they are created. -/
structure Files (ν δ β : Type*) [Zero β] where
  next : Nat
  names : ν → Option Nat
  files : Nat → File β
  opened : δ → Option (Nat × Nat)

namespace Files

variable {ν δ β : Type*} [Zero β]

def initial : Files ν δ β where
  next := 0
  names := fun _ => none
  files := fun _ => .empty
  opened := fun _ => none

variable [DecidableEq ν] [DecidableEq δ] (g : Files ν δ β)

def create (name : ν) : Files ν δ β :=
  { g with
    next := g.next + 1
    names := update g.names name (some g.next)
    files := update g.files g.next .empty }

def attach (fd : δ) (id : Nat) : Files ν δ β :=
  { g with opened := update g.opened fd (some (id, 0)) }

/-- Open the file of a name; there is a new one if there is none. -/
def openName (name : ν) (fd : δ) : Files ν δ β :=
  match g.names name with
  | some id => g.attach fd id
  | none => (g.create name).attach fd g.next

def close (fd : δ) : Files ν δ β := { g with opened := update g.opened fd none }

def unlink (name : ν) : Files ν δ β := { g with names := update g.names name none }

def seek (fd : δ) (offset : Nat) : Files ν δ β :=
  match g.opened fd with
  | some (id, _) => { g with opened := update g.opened fd (some (id, offset)) }
  | none => g

def advance (fd : δ) (n : Nat) : Files ν δ β :=
  match g.opened fd with
  | some (_, offset) => g.seek fd (offset + n)
  | none => g

def setFile (id : Nat) (f : File β) : Files ν δ β := { g with files := update g.files id f }

def truncate (fd : δ) (n : Nat) : Files ν δ β :=
  match g.opened fd with
  | some (id, _) => g.setFile id ((g.files id).truncate n)
  | none => g

def write (fd : δ) (bs : List β) : Files ν δ β :=
  match g.opened fd with
  | some (id, offset) =>
    (g.setFile id ((g.files id).write offset bs)).seek fd (offset + bs.length)
  | none => g

end Files

end BgqDriver.PosixFiles
