import BgqDriver.BitSerialDivision

/-!
The checksums over 16 and 32 bits with a table of 16 entries (`crc16n.c`, `crc32n.c`). The bits
of a message are those of its bytes, the lowest bit of a byte first. The register of `Crc32n` is
an `unsigned long`.
-/

namespace BgqDriver.Crc

open BitVec List BitSerialDivision

abbrev Byte := BitVec 8

def crc16x4Table : List (BitVec 16) := [
  0x0000, 0x1081, 0x2102, 0x3183, 0x4204, 0x5285, 0x6306, 0x7387,
  0x8408, 0x9489, 0xa50a, 0xb58b, 0xc60c, 0xd68d, 0xe70e, 0xf78f]

def crc32x4Table : List (BitVec 64) := [
  0x00000000, 0x1db71064, 0x3b6e20c8, 0x26d930ac,
  0x76dc4190, 0x6b6b51f4, 0x4db26158, 0x5005713c,
  0xedb88320, 0xf00f9344, 0xd6d6a3e8, 0xcb61b38c,
  0x9b64c2b0, 0x86d3d2d4, 0xa00ae278, 0xbdbdf21c]

variable {w : Nat}

def nibbleStep (table : List (BitVec w)) (crc : BitVec w) (nibble : Byte) : BitVec w :=
  let t := crc ^^^ nibble.setWidth w
  (crc >>> 4) ^^^ table.getD (t &&& 0xf).toNat 0

def crcn (table : List (BitVec w)) : BitVec w → List Byte → BitVec w :=
  foldl fun crc c => nibbleStep table (nibbleStep table crc (c &&& 0x0f)) (c >>> 4)

def crc16n (usInitialCrc : BitVec 16) (pData : List Byte) : BitVec 16 :=
  crcn crc16x4Table usInitialCrc pData

def crc32n (ulInitialCrc : BitVec 64) (pData : List Byte) : BitVec 64 :=
  crcn crc32x4Table ulInitialCrc pData

/-- x^16 + x^12 + x^5 + 1 -/
def poly16 : BitVec 16 := reflected 16 16 [12, 5, 0]

/-- The polynomial that the source names for `Crc32n`, with the term x^2 that is missing there. -/
def poly32 : BitVec 64 := reflected 64 32 [26, 23, 22, 16, 12, 11, 10, 8, 7, 5, 4, 2, 1, 0]

def lowBits (k : Nat) (c : Byte) : List Bool := (range k).map c.getLsbD

/-- The bits of the data, the low one of a byte first -/
def bits (data : List Byte) : List Bool := data.flatMap (lowBits 8)

/-- The entries of the table are the remainders of four steps. -/
def TableOf (poly : BitVec w) (table : List (BitVec w)) : Prop :=
  ∀ y < 16, ∀ n < 16, table.getD (y ^^^ n) 0 =
    divide poly (BitVec.ofNat w y) (lowBits 4 (BitVec.ofNat 8 n))

variable {poly : BitVec w} {table : List (BitVec w)}

theorem nibbleStep_eq (htable : TableOf poly table) (hw : 4 ≤ w) (crc : BitVec w) {nibble : Byte}
    (hnibble : nibble.toNat < 16) :
    nibbleStep table crc nibble = divide poly crc (lowBits 4 nibble) := by
  have hle : 2 ^ 4 ≤ 2 ^ w := Nat.pow_le_pow_right Nat.two_pos hw
  have hmask : (15#w).toNat = 15 := Nat.mod_eq_of_lt (Nat.lt_of_lt_of_le (by decide) hle)
  have hindex : ((crc ^^^ nibble.setWidth w) &&& 15#w).toNat =
      (crc &&& 15#w).toNat ^^^ nibble.toNat := by
    have hwidth : (nibble.setWidth w).toNat = nibble.toNat :=
      (toNat_setWidth ..).trans (Nat.mod_eq_of_lt (by omega))
    have hsame : nibble.toNat &&& 15 = nibble.toNat :=
      (Nat.and_two_pow_sub_one_eq_mod _ 4).trans (Nat.mod_eq_of_lt hnibble)
    rw [toNat_and, toNat_and, toNat_xor, hmask, hwidth, Nat.and_xor_distrib_right, hsame]
  have hlow : (crc &&& 15#w).toNat < 16 := by
    rw [toNat_and, hmask]
    exact Nat.lt_succ_of_le Nat.and_le_right
  have hentry := htable _ hlow _ hnibble
  rw [← hindex, ofNat_toNat, ofNat_toNat, setWidth_eq, setWidth_eq] at hentry
  rw [divide_eq]
  exact congrArg (crc >>> 4 ^^^ ·) hentry

theorem crcn_eq (htable : TableOf poly table) (hw : 4 ≤ w) (crc : BitVec w) (data : List Byte) :
    crcn table crc data = divide poly crc (bits data) := by
  induction data generalizing crc with
  | nil => rfl
  | cons c data ih =>
    have hbyte : lowBits 8 c = lowBits 4 (c &&& 0x0f) ++ lowBits 4 (c >>> 4) := by
      simp [lowBits, range_succ]
    have hlow : (c &&& 0x0f).toNat < 16 := by
      rw [toNat_and]
      exact Nat.lt_succ_of_le Nat.and_le_right
    have hhigh : (c >>> 4).toNat < 16 := by
      rw [toNat_ushiftRight, Nat.shiftRight_eq_div_pow]
      omega
    rw [bits, flatMap_cons, hbyte, crcn, foldl_cons, nibbleStep_eq htable hw _ hlow,
      nibbleStep_eq htable hw _ hhigh, List.append_assoc, divide, foldl_append, foldl_append]
    exact ih _

theorem bits_injective {m m' : List Byte} (h : bits m = bits m') : m = m' := by
  induction m generalizing m' with
  | nil =>
    cases m' with
    | nil => rfl
    | cons c' m' => simp [bits, lowBits] at h
  | cons c m ih =>
    cases m' with
    | nil => simp [bits, lowBits] at h
    | cons c' m' =>
      simp only [bits, flatMap_cons] at h
      obtain ⟨hbyte, hrest⟩ := append_inj h (by simp [lowBits])
      have hc : c = c' := eq_of_getLsbD_eq fun i hi =>
        map_inj_left.mp hbyte i (mem_range.mpr hi)
      rw [hc, ih hrest]

theorem tableOf_crc16 : TableOf poly16 crc16x4Table := by
  unfold TableOf
  decide +kernel

theorem tableOf_crc32 : TableOf poly32 crc32x4Table := by
  unfold TableOf
  decide +kernel

/-- The messages differ in no more than `n` consecutive bits. -/
def Burst (n : Nat) (m m' : List Byte) : Prop :=
  m.length = m'.length ∧ m ≠ m' ∧ ∃ p, ∀ i, (bits m)[i]? ≠ (bits m')[i]? → p ≤ i ∧ i < p + n

theorem divide_ne_of_burst {n : Nat} {m m' : List Byte} (hpoly : Degree n poly) (h : Burst n m m')
    (c : BitVec w) : divide poly c (bits m) ≠ divide poly c (bits m') := by
  obtain ⟨hlength, hne, p, hwindow⟩ := h
  have hbits : (bits m).length = (bits m').length := by simp [bits, lowBits, hlength]
  exact fun heq => hne (bits_injective (eq_of_divide_eq hpoly hbits hwindow heq))

theorem crc32n_ne_documented : crc32n 0 [0x80] ≠ divide
    (reflected 64 32 [26, 23, 22, 16, 12, 11, 10, 8, 7, 5, 4, 1, 0]) 0 (bits [0x80]) := by
  decide +kernel

theorem crc_eq_remainder_and_detects_bursts :
    ((∀ c data, crc16n c data = divide poly16 c (bits data)) ∧
      ∀ c m m', Burst 16 m m' → crc16n c m ≠ crc16n c m') ∧
    (∀ c data, crc32n c data = divide poly32 c (bits data)) ∧
      ∀ c m m', Burst 32 m m' → crc32n c m ≠ crc32n c m' := by
  have h16 : ∀ c data, crc16n c data = divide poly16 c (bits data) :=
    crcn_eq tableOf_crc16 (by decide)
  have h32 : ∀ c data, crc32n c data = divide poly32 c (bits data) :=
    crcn_eq tableOf_crc32 (by decide)
  refine ⟨⟨h16, fun c m m' h => ?_⟩, h32, fun c m m' h => ?_⟩
  · rw [h16, h16]
    exact divide_ne_of_burst ⟨by decide, by decide, by decide, by decide⟩ h c
  · rw [h32, h32]
    exact divide_ne_of_burst ⟨by decide, by decide, by decide, by decide⟩ h c

theorem burst_of_lt {n p : Nat} {m m' : List Byte} (hlength : m.length = m'.length) (hne : m ≠ m')
    (h : ∀ i < 8 * m.length, (bits m)[i]? ≠ (bits m')[i]? → p ≤ i ∧ i < p + n) : Burst n m m' := by
  refine ⟨hlength, hne, p, fun i hi => h i (Nat.lt_of_not_le fun hle => hi ?_) hi⟩
  rw [List.getElem?_eq_none (by simpa [bits, lowBits, Nat.mul_comm] using hle),
    List.getElem?_eq_none (by simpa [bits, lowBits, Nat.mul_comm, hlength] using hle)]

/-- Bursts that start and end within a byte -/
theorem crc_eq_remainder_and_detects_bursts_bytes :
    crc16n 0 [0x35, 0x0f, 0x12, 0xff] ≠ crc16n 0 [0x35, 0xff, 0xed, 0xf0] ∧
      crc32n 0 [0x12, 0x34, 0x56, 0x78, 0x9a] ≠ crc32n 0 [0x92, 0xcb, 0xa9, 0x87, 0x95] := by
  have hburst : Burst 16 [0x35, 0x0f, 0x12, 0xff] [0x35, 0xff, 0xed, 0xf0] :=
    burst_of_lt (p := 12) rfl (by decide) (by decide)
  have hburst' : Burst 32 [0x12, 0x34, 0x56, 0x78, 0x9a] [0x92, 0xcb, 0xa9, 0x87, 0x95] :=
    burst_of_lt (p := 7) rfl (by decide) (by decide)
  exact ⟨crc_eq_remainder_and_detects_bursts.1.2 0 _ _ hburst,
    crc_eq_remainder_and_detects_bursts.2.2 0 _ _ hburst'⟩

end BgqDriver.Crc
