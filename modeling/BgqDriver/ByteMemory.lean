import Mathlib.Data.List.GetD
import Mathlib.Logic.Function.Basic

/-!
Flat memories and the bulk operations on them: filling a range, storing a list of
cells, and copying a range upwards from its last cell to its first.
-/

namespace BgqDriver.ByteMemory

open Function

variable {β : Type*} (m : Nat → β)

def fill (a n : Nat) (v : β) : Nat → β := fun x => if a ≤ x ∧ x < a + n then v else m x

def store (a : Nat) (bs : List β) : Nat → β :=
  fun x => if a ≤ x then bs.getD (x - a) (m x) else m x

def load (a n : Nat) : List β := (List.range n).map fun i => m (a + i)

def moveUp (m : Nat → β) (dst src : Nat) : Nat → Nat → β
  | 0 => m
  | n + 1 => moveUp (update m (dst + n) (m (src + n))) dst src n

variable {m} {a n x dst src i : Nat} {v : β} {bs : List β}

theorem fill_inside (hl : a ≤ x) (hu : x < a + n) : fill m a n v x = v := if_pos ⟨hl, hu⟩

theorem fill_outside (h : x < a ∨ a + n ≤ x) : fill m a n v x = m x := by
  apply if_neg
  omega

theorem store_inside (hi : i < bs.length) : store m a bs (a + i) = bs[i] := by
  rw [store, if_pos (Nat.le_add_right a i), Nat.add_sub_cancel_left, List.getD_eq_getElem _ _ hi]

theorem store_outside (h : x < a ∨ a + bs.length ≤ x) : store m a bs x = m x := by
  rw [store]
  split
  · exact List.getD_eq_default _ _ (by omega)
  · rfl

@[simp]
theorem length_load : (load m a n).length = n := by
  simp [load]

theorem moveUp_outside (h : x < dst ∨ dst + n ≤ x) : moveUp m dst src n x = m x := by
  induction n generalizing m with
  | zero => rfl
  | succ n ih =>
    rw [moveUp, ih (by omega), update_of_ne (by omega)]

/-- Copying from the last cell on is right when the range moves up or to a range apart
from it: a cell that has been overwritten is not read any more. -/
theorem moveUp_inside (h : src ≤ dst ∨ dst + n ≤ src) (hi : i < n) :
    moveUp m dst src n (dst + i) = m (src + i) := by
  induction n generalizing m with
  | zero => omega
  | succ n ih =>
    rw [moveUp]
    rcases Nat.lt_or_eq_of_le (Nat.le_of_lt_succ hi) with hlt | rfl
    · rw [ih (by omega) hlt, update_of_ne (by omega)]
    · rw [moveUp_outside (by omega), update_self]

end BgqDriver.ByteMemory
