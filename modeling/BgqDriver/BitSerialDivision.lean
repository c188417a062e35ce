import Mathlib.Data.BitVec

/-!
Division of a message by a polynomial over the field of two elements, bit by bit, with the
coefficients of the register and of the polynomial reflected: the coefficient of the highest
power is the lowest bit.
-/

namespace BgqDriver.BitSerialDivision

open BitVec List

variable {w : Nat}

/-- The polynomial of degree `n` without its leading term, from the exponents of the others. -/
def reflected (w n : Nat) (exponents : List Nat) : BitVec w :=
  exponents.foldr (fun e p => twoPow w (n - 1 - e) ^^^ p) 0#w

/-- The register times x, reduced. -/
def shift (poly c : BitVec w) : BitVec w := (c >>> 1) ^^^ if c.getLsbD 0 then poly else 0#w

def bit (w : Nat) (b : Bool) : BitVec w := (ofBool b).setWidth w

def divide (poly : BitVec w) : BitVec w → List Bool → BitVec w :=
  foldl fun c b => shift poly (c ^^^ bit w b)

variable {poly c d : BitVec w} {l m : List Bool} {k n : Nat}

theorem shift_xor (c d : BitVec w) : shift poly (c ^^^ d) = shift poly c ^^^ shift poly d := by
  unfold shift
  rw [ushiftRight_xor_distrib, getLsbD_xor]
  cases c.getLsbD 0 <;> cases d.getLsbD 0 <;> ext i hi <;> simp <;> grind

theorem bit_xor (a b : Bool) : bit w (a ^^ b) = bit w a ^^^ bit w b := by
  cases a <;> cases b <;> simp [bit]

theorem shift_bit_false : shift poly (0#w ^^^ bit w false) = 0#w := by simp [shift, bit]

theorem divide_xor (hlength : l.length = m.length) : divide poly (c ^^^ d) (zipWith xor l m) =
    divide poly c l ^^^ divide poly d m := by
  induction l generalizing c d m with
  | nil => cases m with
    | nil => rfl
    | cons b m => cases hlength
  | cons a l ih =>
    cases m with
    | nil => cases hlength
    | cons b m =>
      have hstep : shift poly (c ^^^ d ^^^ bit w (a ^^ b)) =
          shift poly (c ^^^ bit w a) ^^^ shift poly (d ^^^ bit w b) := by
        rw [← shift_xor, bit_xor]
        congr 1
        ac_rfl
      rw [zipWith_cons_cons, divide, foldl_cons, hstep]
      exact ih (Nat.succ.inj hlength)

/-- Bits that are not yet lowest only move. -/
theorem divide_of_clear (poly : BitVec w) (h : ∀ i < k, c.getLsbD i = false) :
    divide poly c (replicate k false) = c >>> k := by
  induction k generalizing c with
  | zero => simp [divide]
  | succ k ih =>
    have hshift : shift poly (c ^^^ bit w false) = c >>> 1 := by
      simp [shift, bit, h 0 (by omega)]
    rw [List.replicate_succ, divide, foldl_cons, hshift, ← divide,
      ih, ← shiftRight_add, Nat.add_comm]
    intro i hi
    simpa [Nat.add_comm] using h (i + 1) (by omega)

/-- Steps taken at once: the high bits of the register move, the low ones decide with the bits
of the message what is added. -/
theorem divide_eq (c : BitVec w) (l : List Bool) : divide poly c l =
    (c >>> l.length) ^^^ divide poly (c &&& BitVec.ofNat w (2 ^ l.length - 1)) l := by
  have hmask : ∀ i, (BitVec.ofNat w (2 ^ l.length - 1)).getLsbD i =
      (decide (i < w) && decide (i < l.length)) := by
    simp [getLsbD_ofNat]
  generalize BitVec.ofNat w (2 ^ l.length - 1) = mask at hmask ⊢
  have hsplit : c = (c &&& ~~~ mask) ^^^ (c &&& mask) := by
    ext i hi
    simp
    grind
  have hhigh : (c &&& ~~~ mask) >>> l.length = c >>> l.length := by
    apply eq_of_getLsbD_eq
    intro i hi
    simp only [getLsbD_ushiftRight, getLsbD_and, getLsbD_not, hmask]
    by_cases hw : l.length + i < w
    · simp [hw]
    · simp [getLsbD_of_ge c _ (Nat.not_lt.mp hw)]
  have hbits : zipWith xor (replicate l.length false) l = l := by
    refine ext_getElem (by simp) fun i _ _ => ?_
    simp
  rw [← hhigh, ← divide_of_clear poly, ← divide_xor (by simp), hbits, ← hsplit]
  intro i hi
  simp [hmask, hi]

/-- The polynomial has degree `n`, and a constant term. -/
structure Degree (n : Nat) (poly : BitVec w) : Prop where
  pos : 0 < n
  le : n ≤ w
  constant : poly.getLsbD (n - 1) = true
  lt : poly.toNat < 2 ^ n

theorem getLsbD_shift (c : BitVec w) (i : Nat) :
    (shift poly c).getLsbD i = (c.getLsbD (i + 1) ^^ (c.getLsbD 0 && poly.getLsbD i)) := by
  unfold shift
  cases c.getLsbD 0 <;> simp [Nat.add_comm]

theorem getLsbD_succ_xor_bit (c : BitVec w) (b : Bool) (i : Nat) :
    (c ^^^ bit w b).getLsbD (i + 1) = c.getLsbD (i + 1) := by
  simp [bit]

/-- A remainder of zero leaves no bit that was not cancelled: what was in the register is
below the last bit of the message that is set. -/
theorem clear_of_divide_eq_zero (hpoly : Degree n poly) (hc : ∀ i, n ≤ i → c.getLsbD i = false)
    (hzero : divide poly c l = 0#w) (hk : k ≤ n) (hset : ∀ i, l[i]? = some true → i < k) :
    (∀ i, k ≤ i → c.getLsbD i = false) ∧ (c = 0#w → ∀ b ∈ l, b = false) := by
  induction l generalizing c k with
  | nil =>
    obtain rfl : c = 0#w := hzero
    exact ⟨by simp, by simp⟩
  | cons b l ih =>
    have hkeep : ∀ i, n ≤ i → (shift poly (c ^^^ bit w b)).getLsbD i = false := by
      intro i hi
      have habove : poly.getLsbD i = false := Nat.testBit_lt_two_pow
        (Nat.lt_of_lt_of_le hpoly.lt (Nat.pow_le_pow_right Nat.two_pos hi))
      rw [getLsbD_shift, getLsbD_succ_xor_bit, hc (i + 1) (by omega), habove]
      simp
    obtain ⟨hclear, hrest⟩ := ih hkeep hzero (k := k - 1) (by omega) fun i hi => by
      have := hset (i + 1) hi
      omega
    have hpos := hpoly.pos
    have hlow : (c ^^^ bit w b).getLsbD 0 = false := by
      have htop := hclear (n - 1) (by omega)
      rw [getLsbD_shift, Nat.sub_add_cancel hpos, hpoly.constant] at htop
      obtain ⟨m, rfl⟩ := Nat.exists_eq_succ_of_ne_zero hpos.ne'
      rw [getLsbD_succ_xor_bit, hc _ (Nat.le_refl _)] at htop
      simpa using htop
    have hbit : c.getLsbD 0 = b := by
      have hw : 0 < w := Nat.lt_of_lt_of_le hpos hpoly.le
      simpa [bit, hw] using hlow
    constructor
    · intro i hi
      cases i with
      | zero =>
        rw [hbit]
        cases b with
        | false => rfl
        | true => exact absurd (hset 0 rfl) (by omega)
      | succ i =>
        have hmoved := hclear i (by omega)
        rwa [getLsbD_shift, getLsbD_succ_xor_bit, hlow, Bool.false_and, Bool.xor_false] at hmoved
    · rintro rfl
      obtain rfl : false = b := by simpa using hbit
      simpa using hrest shift_bit_false

theorem eq_false_of_divide_eq_zero {p : Nat} (hpoly : Degree n poly)
    (hzero : divide poly 0#w l = 0#w)
    (hset : ∀ i, l[i]? = some true → p ≤ i ∧ i < p + n) : ∀ b ∈ l, b = false := by
  induction p generalizing l with
  | zero =>
    exact (clear_of_divide_eq_zero hpoly (by simp) hzero (Nat.le_refl n) fun i hi => by
      simpa using (hset i hi).2).2 rfl
  | succ p ih =>
    cases l with
    | nil => simp
    | cons b l =>
      obtain rfl : b = false := by
        cases b with
        | false => rfl
        | true => exact absurd (hset 0 rfl).1 (by omega)
      rw [divide, foldl_cons, shift_bit_false] at hzero
      have hrest := ih hzero fun i hi => by
        have := hset (i + 1) hi
        omega
      simpa using hrest

/-- Messages that differ in at most `n` consecutive bits have different remainders. -/
theorem eq_of_divide_eq {p : Nat} (hpoly : Degree n poly) (hlength : l.length = m.length)
    (hwindow : ∀ i, l[i]? ≠ m[i]? → p ≤ i ∧ i < p + n) (heq : divide poly c l = divide poly c m) :
    l = m := by
  have hzero : divide poly 0#w (zipWith xor l m) = 0#w := by
    rw [← BitVec.xor_self (x := c), divide_xor hlength, heq, BitVec.xor_self, BitVec.xor_self]
  have hfalse := eq_false_of_divide_eq_zero hpoly hzero fun i hi => by
    refine hwindow i fun hsame => ?_
    rw [getElem?_zipWith, hsame] at hi
    cases hm : m[i]? <;> simp [hm] at hi
  refine ext_getElem hlength fun i hl hm => ?_
  have hbit := hfalse _ (getElem_mem (by simp [hl, hm] : i < (zipWith xor l m).length))
  simpa using hbit

end BgqDriver.BitSerialDivision
