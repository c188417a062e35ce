import Mathlib.Algebra.Group.Nat.Defs

/-!
Words that hold several unsigned fields, each at its own offset from the least
significant bit.  A field is placed by masking and shifting; a word is the disjunction of
the fields placed in it.
-/

namespace BgqDriver.PackedWords

open BitVec List

variable {n : Nat}

structure Field where
  offset : Nat
  width : Nat
deriving DecidableEq, Repr

variable {f g : Field} {fields : List (Field × BitVec n)}

namespace Field

def mask (n : Nat) (f : Field) : BitVec n :=
  BitVec.ofNat n (2 ^ f.width - 1)

def place (f : Field) (v : BitVec n) : BitVec n :=
  (v &&& f.mask n) <<< f.offset

def fetch (f : Field) (x : BitVec n) : BitVec n :=
  (x >>> f.offset) &&& f.mask n

def Apart (f g : Field) : Prop :=
  f.offset + f.width ≤ g.offset ∨ g.offset + g.width ≤ f.offset

instance : DecidableRel Apart := fun f g =>
  inferInstanceAs (Decidable (f.offset + f.width ≤ g.offset ∨ g.offset + g.width ≤ f.offset))

theorem Apart.symm (h : Apart f g) : Apart g f :=
  Or.symm h

@[simp]
theorem getLsbD_mask (f : Field) (i : Nat) :
    (f.mask n).getLsbD i = (decide (i < n) && decide (i < f.width)) := by
  simp only [mask, getLsbD_ofNat, Nat.testBit_two_pow_sub_one]

theorem toNat_and_mask (f : Field) (hwidth : f.width ≤ n) (v : BitVec n) :
    (v &&& f.mask n).toNat = v.toNat % 2 ^ f.width := by
  have hmask : (f.mask n).toNat = 2 ^ f.width - 1 := by
    have hle : 2 ^ f.width ≤ 2 ^ n := Nat.pow_le_pow_right (by decide) hwidth
    have hpos : 0 < 2 ^ f.width := Nat.two_pow_pos _
    rw [mask, toNat_ofNat, Nat.mod_eq_of_lt (by omega)]
  rw [toNat_and, hmask, Nat.and_two_pow_sub_one_eq_mod]

theorem fetch_place (f : Field) (hfits : f.offset + f.width ≤ n) (v : BitVec n) :
    f.fetch (f.place v) = v &&& f.mask n := by
  apply eq_of_getLsbD_eq
  intro i hi
  simp only [fetch, place, getLsbD_and, getLsbD_ushiftRight, getLsbD_shiftLeft, getLsbD_mask]
  by_cases hin : i < f.width
  · have hlt : f.offset + i < n := by omega
    simp [hi, hin, hlt]
  · simp [hin]

theorem fetch_place_of_apart (hapart : Apart f g) (v : BitVec n) : f.fetch (g.place v) = 0 := by
  apply eq_of_getLsbD_eq
  intro i hi
  simp only [fetch, place, getLsbD_and, getLsbD_ushiftRight,
    getLsbD_shiftLeft, getLsbD_mask, ofNat_eq_ofNat, getLsbD_zero]
  by_cases hin : i < f.width
  · by_cases hlow : f.offset + i < g.offset
    · simp [hlow]
    · have hhigh : ¬ f.offset + i - g.offset < g.width := by
        rcases hapart with h | h <;> omega
      simp [hhigh]
  · simp [hin]

theorem fetch_or (f : Field) (x y : BitVec n) : f.fetch (x ||| y) = f.fetch x ||| f.fetch y := by
  apply eq_of_getLsbD_eq
  intro i hi
  simp only [fetch, getLsbD_and, getLsbD_or, getLsbD_ushiftRight]
  rw [Bool.and_or_distrib_right]

theorem fetch_zero (f : Field) : f.fetch (0 : BitVec n) = 0 := by
  simp [fetch]

theorem place_and_mask (f : Field) (v : BitVec n) : f.place (v &&& f.mask n) = f.place v := by
  rw [place, place, BitVec.and_assoc, BitVec.and_self]

end Field

def pack (fields : List (Field × BitVec n)) : BitVec n :=
  fields.foldl (fun word entry => word ||| entry.1.place entry.2) 0

theorem foldl_or_place (fields : List (Field × BitVec n)) (word : BitVec n) :
    fields.foldl (fun word entry => word ||| entry.1.place entry.2) word =
      word ||| pack fields := by
  induction fields generalizing word with
  | nil => simp [pack]
  | cons entry fields ih =>
    have hsplit : pack (entry :: fields) = entry.1.place entry.2 ||| pack fields := by
      rw [pack, foldl_cons, ih, ofNat_eq_ofNat, zero_or]
    rw [foldl_cons, ih, hsplit, BitVec.or_assoc]

theorem pack_cons (entry : Field × BitVec n) (fields : List (Field × BitVec n)) :
    pack (entry :: fields) = entry.1.place entry.2 ||| pack fields := by
  rw [pack, foldl_cons, foldl_or_place, ofNat_eq_ofNat, zero_or]

theorem fetch_pack_of_apart (hapart : ∀ entry ∈ fields, f.Apart entry.1) :
    f.fetch (pack fields) = 0 := by
  induction fields with
  | nil => exact f.fetch_zero
  | cons entry fields ih =>
    rw [pack_cons, f.fetch_or,
      Field.fetch_place_of_apart (hapart entry mem_cons_self),
      ih fun e he => hapart e (mem_cons_of_mem _ he), BitVec.or_self]

theorem fetch_pack (hapart : fields.Pairwise fun a b => Field.Apart a.1 b.1) {v : BitVec n}
    (hmem : (f, v) ∈ fields) (hfits : f.offset + f.width ≤ n) :
    f.fetch (pack fields) = v &&& f.mask n := by
  induction fields with
  | nil => cases hmem
  | cons first fields ih =>
    obtain ⟨hfirst, hrest⟩ := pairwise_cons.mp hapart
    rw [pack_cons, Field.fetch_or]
    rcases mem_cons.mp hmem with rfl | hmem
    · rw [Field.fetch_place _ hfits, fetch_pack_of_apart hfirst, ofNat_eq_ofNat, or_zero]
    · rw [Field.fetch_place_of_apart (hfirst _ hmem).symm, ih hrest hmem, ofNat_eq_ofNat, zero_or]

end BgqDriver.PackedWords
