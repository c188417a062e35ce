import Mathlib.Tactic

/-!
Positions in a ring of `size` cells that starts at address `base`. Producers and
consumers of a ring are counted by how far they have come in all; the address of
a count is its remainder.
-/

namespace BgqDriver.RingPositions

open Nat

def position (base size k : Nat) : Nat := base + k % size

variable {size h i j k m base : Nat}

theorem le_position : base ≤ position base size k := Nat.le_add_right _ _

theorem position_lt (base k : Nat) (hsize : 0 < size) : position base size k < base + size :=
  Nat.add_lt_add_left (mod_lt k hsize) base

theorem position_sub : position base size k - base = k % size := Nat.add_sub_cancel_left ..

theorem eq_of_position_eq (hi : h ≤ i ∧ i < h + size) (hj : h ≤ j ∧ j < h + size)
    (heq : position base size i = position base size j) : i = j := by
  have hmod : i % size = j % size := Nat.add_left_cancel heq
  rcases Nat.le_total i j with hle | hle
  · have hdvd := (modEq_iff_dvd' hle).mp hmod
    have := eq_zero_of_dvd_of_lt hdvd (by omega)
    omega
  · have hdvd := (modEq_iff_dvd' hle).mp hmod.symm
    have := eq_zero_of_dvd_of_lt hdvd (by omega)
    omega

section

variable (base : Nat) (hsize : 0 < size)
include hsize

theorem position_add (hm : m ≤ size) : position base size (k + m) =
      if base + size ≤ position base size k + m then position base size k + m - size
      else position base size k + m := by
  have hk := mod_lt k hsize
  have hadd : (k + m) % size = (k % size + m) % size := (mod_add_mod k size m).symm
  unfold position
  split
  · rw [hadd, mod_eq_sub_mod (by omega), mod_eq_of_lt (by omega)]
    omega
  · rw [hadd, mod_eq_of_lt (by omega)]
    omega

theorem position_add_le (hk : m ∣ k) (hm : m ∣ size) : position base size k + m ≤ base + size := by
  have hlt := mod_lt k hsize
  have hdvd : m ∣ size - k % size := Nat.dvd_sub hm ((dvd_mod_iff hm).mpr hk)
  have := le_of_dvd (by omega) hdvd
  unfold position
  omega

theorem position_step (hk : m ∣ k) (hm : m ∣ size) : position base size (k + m) =
      if base + size ≤ position base size k + m then base else position base size k + m := by
  have hle := position_add_le base hsize hk hm
  rw [position_add base hsize (le_of_dvd hsize hm)]
  split
  · omega
  · rfl

theorem position_distance (hij : i ≤ j) (hj : j < i + size) :
    (position base size j + size - position base size i) % size = j - i := by
  obtain ⟨m, rfl⟩ := Nat.exists_eq_add_of_le hij
  have hstep := position_add (k := i) base hsize (show m ≤ size by omega)
  have hsub : i + m - i = m := by omega
  rw [hstep, hsub]
  split
  · have : position base size i + m - size + size - position base size i = m := by omega
    rw [this, mod_eq_of_lt (by omega)]
  · have : position base size i + m + size - position base size i = m + size := by omega
    rw [this, add_mod_right, mod_eq_of_lt (by omega)]

end

end BgqDriver.RingPositions
