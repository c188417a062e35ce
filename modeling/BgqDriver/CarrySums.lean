import Mathlib.Algebra.BigOperators.Ring.Finset
import Mathlib.Tactic.Ring

/-!
Numbers written as sequences of digits in a base `B`, and the addition of any
family of them column by column with a carry. With words of `b` bits as digits
the numbers are bit vectors, whose sign and signed overflow are read off the
most significant word and the last carry.
-/

namespace BgqDriver.CarrySums

open BitVec Nat

section Digits

variable {B : Nat}

/-- The number with the digits `w 0`, `w 1`, … in base `B`, least significant
digit first, cut off after `e` digits. -/
def value (B : Nat) (w : Nat → Nat) : Nat → Nat
  | 0 => 0
  | e + 1 => value B w e + w e * B ^ e

theorem value_congr {w w' : Nat → Nat} :
    ∀ {e : Nat}, (∀ i < e, w i = w' i) → value B w e = value B w' e
  | 0, _ => rfl
  | e + 1, h => by
      rw [value, value, h e (lt_succ_self e),
        value_congr fun i hi => h i (lt_succ_of_lt hi)]

theorem value_lt {w : Nat → Nat} : ∀ {e : Nat}, (∀ i < e, w i < B) → value B w e < B ^ e
  | 0, _ => by simp [value]
  | e + 1, h => by
      have hlow : value B w e < B ^ e := value_lt fun i hi => h i (lt_succ_of_lt hi)
      have hdigit : w e + 1 ≤ B := h e (lt_succ_self e)
      calc value B w (e + 1) < B ^ e + w e * B ^ e := by
            rw [value]
            omega
        _ = (w e + 1) * B ^ e := by ring
        _ ≤ B * B ^ e := Nat.mul_le_mul_right _ hdigit
        _ = B ^ (e + 1) := by ring

theorem digit_eq_of_value_eq {w w' : Nat → Nat} :
    ∀ {e : Nat}, (∀ i < e, w i < B) → (∀ i < e, w' i < B) →
      value B w e = value B w' e → ∀ i < e, w i = w' i
  | 0, _, _, _ => fun i hi => absurd hi (Nat.not_lt_zero i)
  | e + 1, h, h', heq => by
      have hlow : value B w e < B ^ e := value_lt fun i hi => h i (lt_succ_of_lt hi)
      have hlow' : value B w' e < B ^ e := value_lt fun i hi => h' i (lt_succ_of_lt hi)
      have hpos : 0 < B ^ e := zero_lt_of_lt hlow
      simp only [value] at heq
      have hdigit : w e = w' e := by
        have hdiv := congrArg (· / B ^ e) heq
        simpa only [add_mul_div_right _ _ hpos, div_eq_of_lt hlow,
          div_eq_of_lt hlow', Nat.zero_add] using hdiv
      rw [hdigit] at heq
      intro i hi
      rcases Nat.lt_succ_iff_lt_or_eq.mp hi with hi | rfl
      · exact digit_eq_of_value_eq (fun i hi => h i (lt_succ_of_lt hi))
          (fun i hi => h' i (lt_succ_of_lt hi)) (Nat.add_right_cancel heq) i hi
      · exact hdigit

def leading (B : Nat) (w : Nat → Nat) : Nat → Nat
  | 0 => 0
  | e + 1 => leading B w e * B + w e

theorem value_succ_eq (w : Nat → Nat) :
    ∀ e : Nat, value B w (e + 1) = w 0 + B * value B (fun i => w (i + 1)) e
  | 0 => by simp [value]
  | e + 1 => by
      rw [value, value_succ_eq w e, value]
      ring

theorem leading_eq_value (w : Nat → Nat) (e : Nat) :
    leading B w e = value B (fun i => w (e - 1 - i)) e := by
  induction e with
  | zero => rfl
  | succ e ih =>
    rw [leading, ih, value_succ_eq]
    have hshift : value B (fun i => w (e - 1 - i)) e =
        value B (fun i => w (e + 1 - 1 - (i + 1))) e :=
      value_congr fun i _ => congrArg w (by omega)
    rw [hshift, Nat.add_sub_cancel, Nat.sub_zero]
    ring

end Digits

section Columns

variable {B : Nat} {ι : Type*} (s : Finset ι) (w : ι → Nat → Nat) (r c : Nat → Nat)

/-- Adding the digits of a family of numbers column by column, with the carry
`c e` into column `e`, leaves nothing out: what is not in the digits `r` is in the
last carry. -/
theorem sum_value_eq (hstart : c 0 = 0) :
    ∀ {W : Nat}, (∀ e < W, ∑ p ∈ s, w p e + c e = r e + c (e + 1) * B) →
      ∑ p ∈ s, value B (w p) W = value B r W + c W * B ^ W
  | 0, _ => by simp [value, hstart]
  | W + 1, h => by
      have hlow := sum_value_eq hstart fun e he => h e (lt_succ_of_lt he)
      have hcolumn := h W (lt_succ_self W)
      simp only [value, Finset.sum_add_distrib, hlow, ← Finset.sum_mul]
      calc value B r W + c W * B ^ W + (∑ p ∈ s, w p W) * B ^ W
          = value B r W + (∑ p ∈ s, w p W + c W) * B ^ W := by ring
        _ = value B r W + (r W + c (W + 1) * B) * B ^ W := by rw [hcolumn]
        _ = value B r W + r W * B ^ W + c (W + 1) * B ^ (W + 1) := by ring

variable {s w r c} {W : Nat} (hstart : c 0 = 0)
  (hcolumn : ∀ e < W, ∑ p ∈ s, w p e + c e = r e + c (e + 1) * B) (hdigit : ∀ e < W, r e < B)

include hstart hcolumn hdigit

theorem value_eq_mod : value B r W = (∑ p ∈ s, value B (w p) W) % B ^ W := by
  rw [sum_value_eq s w r c hstart hcolumn, add_mul_mod_self_right,
    mod_eq_of_lt (value_lt hdigit)]

theorem carry_eq_div : c W = (∑ p ∈ s, value B (w p) W) / B ^ W := by
  have hlt : value B r W < B ^ W := value_lt hdigit
  rw [sum_value_eq s w r c hstart hcolumn,
    add_mul_div_right _ _ (zero_lt_of_lt hlt), div_eq_of_lt hlt, Nat.zero_add]

end Columns

section Words

variable {b : Nat}

def number (W : Nat) (w : Nat → BitVec b) : BitVec (b * W) :=
  BitVec.ofNat (b * W) (value (2 ^ b) (fun e => (w e).toNat) W)

theorem number_congr {W : Nat} {w w' : Nat → BitVec b} (h : ∀ i < W, w i = w' i) :
    number W w = number W w' := by
  rw [number, number, value_congr fun i hi => congrArg BitVec.toNat (h i hi)]

@[simp] theorem toNat_number (W : Nat) (w : Nat → BitVec b) :
    (number W w).toNat = value (2 ^ b) (fun e => (w e).toNat) W := by
  rw [number, toNat_ofNat, pow_mul]
  exact mod_eq_of_lt (value_lt fun i _ => (w i).isLt)

theorem word_eq_of_number_eq {W : Nat} {w w' : Nat → BitVec b}
    (h : number W w = number W w') : ∀ i < W, w i = w' i := by
  have hvalue := congrArg BitVec.toNat h
  rw [toNat_number, toNat_number] at hvalue
  intro i hi
  apply eq_of_toNat_eq
  exact digit_eq_of_value_eq (fun i _ => (w i).isLt) (fun i _ => (w' i).isLt) hvalue i hi

theorem msb_number (hb : 0 < b) (W : Nat) (w : Nat → BitVec b) :
    (number (W + 1) w).msb = (w W).msb := by
  rw [msb_eq_decide, msb_eq_decide, toNat_number, value]
  have hlow : value (2 ^ b) (fun e => (w e).toNat) W < (2 ^ b) ^ W :=
    value_lt fun i _ => (w i).isLt
  have hhalf : 2 ^ (b * (W + 1) - 1) = 2 ^ (b - 1) * (2 ^ b) ^ W := by
    rw [← pow_mul, ← pow_add]
    congr 1
    rw [Nat.mul_succ]
    omega
  rw [hhalf, decide_eq_decide, ← Nat.le_div_iff_mul_le (zero_lt_of_lt hlow),
    add_mul_div_right _ _ (zero_lt_of_lt hlow), div_eq_of_lt hlow, Nat.zero_add]

/-- A signed addition overflows exactly when the carry into the sign bit, which is
the exclusive or of the three signs, differs from the carry out of it. -/
theorem saddOverflow_eq_carries {n : Nat} (hn : 0 < n) (x y : BitVec n) : x.saddOverflow y =
      ((x.msb ^^ y.msb ^^ (x + y).msb) != decide (2 ^ n ≤ x.toNat + y.toNat)) := by
  rw [saddOverflow_eq]
  have hhalf : 2 ^ n = 2 * 2 ^ (n - 1) := by
    rw [← Nat.pow_succ', succ_eq_add_one, Nat.sub_add_cancel hn]
  have hsum : (x + y).toNat = if 2 ^ n ≤ x.toNat + y.toNat then x.toNat + y.toNat - 2 ^ n
      else x.toNat + y.toNat := by
    rw [toNat_add]
    split
    · next hle => rw [mod_eq_sub_mod hle, mod_eq_of_lt (by omega)]
    · next hlt => exact mod_eq_of_lt (Nat.not_le.mp hlt)
  simp only [msb_eq_decide, hsum]
  by_cases hcarry : 2 ^ n ≤ x.toNat + y.toNat <;>
    by_cases hxs : 2 ^ (n - 1) ≤ x.toNat <;> by_cases hys : 2 ^ (n - 1) ≤ y.toNat <;>
    simp [hcarry, hxs, hys] <;> omega

theorem carry_ne_zero_iff {k n : Nat} {c : BitVec b} (h : c.toNat = n / 2 ^ k) :
    c ≠ 0 ↔ 2 ^ k ≤ n := by
  have hpos : 2 ^ k ≠ 0 := Nat.pos_iff_ne_zero.mp (Nat.two_pow_pos k)
  have hzero : (0 : BitVec b).toNat = 0 := toNat_ofNat 0 b
  rw [ne_eq, ← toNat_inj, h, hzero, Nat.div_eq_zero_iff]
  omega

end Words

end BgqDriver.CarrySums
