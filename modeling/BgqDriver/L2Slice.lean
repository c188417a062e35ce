import Mathlib.Tactic.IntervalCases

/-!
The slice of the L2 cache that holds a physical address, the address within it, and the way
back (`BgL2Slice.cc`). The address is laid out in four columns of eight bits. From each column
one bit is taken out, and a bit of the slice number takes its place.
-/

namespace BgqDriver.L2Slice

/-- The bits of an `ArbitraryLengthNumber`, the highest one first. -/
abbrev Bits := Nat → Bool

def getUint (x : Bits) (startBit endBit : Nat) : Nat :=
  Nat.ofBits fun j : Fin (endBit + 1 - startBit) => x (endBit - j)

def setUint (x : Bits) (value startBit endBit : Nat) : Bits := fun k =>
  if startBit ≤ k ∧ k ≤ endBit then value.testBit (endBit - k) else x k

def zero : Bits := fun _ => false

def xorReduce8 (v : Nat) : Bool :=
  let v := v ^^^ (v >>> 4)
  let v := v ^^^ (v >>> 2)
  let v := v ^^^ (v >>> 1)
  v.testBit 0

def decode3to8 (v : Nat) : Nat := 0x80 >>> v

/-- The selector of a column. -/
def sel (selCtrl : Bits) (i : Nat) : Nat := getUint selCtrl (i * 4 + 1) (i * 4 + 3)

def shiftedAddr (addr : Bits) : Bits :=
  setUint zero (if addr 23 then getUint addr 25 53 else getUint addr 28 56) 3 31

def sliceHash (selCtrl addr : Bits) : Bits := fun k =>
  let i := 3 - k
  xorReduce8 (getUint (fun j => shiftedAddr addr (j * 4 + i) &&
    (!selCtrl (i * 4) || (decode3to8 (sel selCtrl i)).testBit j)) 0 7)

def ioHash (addr : Bits) : Bits :=
  let netIo := addr 22 && addr 31 && addr 35
  let port0 := netIo && getUint addr 36 43 == 0x80
  let port1 := netIo && getUint addr 36 43 == 0x81
  setUint zero (if port0 then 1 else if port1 then 0 else 2) 0 3

def muxAddr (selCtrl addr : Bits) : Bits := fun k =>
  shiftedAddr addr (if sel selCtrl (k % 4) < 7 - k / 4 then k else k + 4)

def l2Addr (selCtrl addr : Bits) : Bits :=
  let op := if addr 23 then getUint addr 54 56 else getUint addr 24 25
  let aliasing := setUint (setUint zero op 0 2) (getUint addr 26 27) 3 4
  setUint (setUint aliasing (getUint (muxAddr selCtrl addr) 3 27) 5 29) (getUint addr 57 60) 30 33

/-- The slice and the address in it, for the low 42 bits of an address. -/
def shSliceSelect (selCtrl addr : Nat) : Nat × Nat :=
  let selCtrl := setUint zero selCtrl 0 15
  let addr := setUint zero addr 22 63
  let hash := if addr 22 then ioHash addr else sliceHash selCtrl addr
  let switchAddr := if addr 22 then getUint addr 30 63 else getUint (l2Addr selCtrl addr) 0 33
  (getUint (setUint (setUint zero (addr 22).toNat 0 0) (getUint hash 0 3) 1 4) 0 4, switchAddr)

def unscrSlice (selCtrl slice l2AddrPad : Bits) (i : Nat) : Bool :=
  if selCtrl (i * 4) then slice (3 - i)
  else
    xorReduce8 ((getUint (fun j => l2AddrPad (j * 4 + i + 4)) 0 6 <<< 1) ||| (slice (3 - i)).toNat)

/-- `none` is the exception for a selector that is not defined. -/
def shL2ToPhys (selCtrl slice l2Addr : Bits) : Option Nat :=
  if sel selCtrl 0 = 7 ∨ sel selCtrl 1 = 7 ∨ sel selCtrl 2 = 7 then none
  else
    let l2AddrPad := setUint zero (getUint l2Addr 0 24) 7 31
    let physAddrPad : Bits := fun k =>
      if 7 - k / 4 < sel selCtrl (k % 4) then l2AddrPad k
      else if sel selCtrl (k % 4) = 7 - k / 4 then unscrSlice selCtrl slice l2AddrPad (k % 4)
      else l2AddrPad (k + 4)
    some (getUint physAddrPad 3 31)

def l2ToPhysAddr (selctrl l2slice switchAddr : Nat) : Option Nat :=
  let switchAddr := setUint zero switchAddr 0 33
  let l2Addr := setUint zero (getUint switchAddr 5 29) 0 24
  (shL2ToPhys (setUint zero selctrl 0 15) (setUint zero (l2slice % 16) 0 3) l2Addr).map fun phys =>
    let addrOut := setUint (setUint zero phys 28 56) (getUint switchAddr 0 4) 23 27
    getUint (setUint addrOut (getUint switchAddr 30 33) 57 60) 0 63

theorem testBit_getUint (x : Bits) {s e : Nat} (hse : s ≤ e) (j : Nat) :
    (getUint x s e).testBit j = (decide (j ≤ e - s) && x (e - j)) := by
  by_cases hj : j ≤ e - s
  · rw [getUint, Nat.testBit_ofBits_lt _ j (by omega)]
    simp [hj]
  · rw [getUint, Nat.testBit_ofBits_ge _ j (by omega)]
    simp [hj]

theorem getUint_congr {x y : Bits} {s e : Nat} (hse : s ≤ e)
    (hxy : ∀ k, s ≤ k → k ≤ e → x k = y k) : getUint x s e = getUint y s e := by
  apply Nat.eq_of_testBit_eq
  intro j
  rw [testBit_getUint x hse, testBit_getUint y hse]
  by_cases hj : j ≤ e - s
  · rw [hxy (e - j) (by omega) (by omega)]
  · simp [hj]

/-- A field that is copied from one number into another. -/
theorem setUint_getUint {x y : Bits} {s e s' e' k : Nat}
    (hk : s' ≤ k ∧ k ≤ e' ∧ s + (e' - k) ≤ e) :
    setUint y (getUint x s e) s' e' k = x (e - (e' - k)) := by
  have hwidth : e' - k ≤ e - s := by omega
  rw [setUint, if_pos ⟨hk.1, hk.2.1⟩, testBit_getUint x (by omega), decide_eq_true hwidth,
    Bool.true_and]

theorem setUint_getUint_self {x y : Bits} {e k : Nat} (hk : k ≤ e) :
    setUint y (getUint x 0 e) 0 e k = x k := by
  rw [setUint_getUint (by omega), (by omega : e - (e - k) = k)]

theorem setUint_of_not {y : Bits} {v s e k : Nat} (hk : ¬ (s ≤ k ∧ k ≤ e)) :
    setUint y v s e k = y k := if_neg hk

theorem xorReduce8_eq (v : Nat) : xorReduce8 v = (v.testBit 0 ^^ v.testBit 1 ^^ v.testBit 2 ^^
    v.testBit 3 ^^ v.testBit 4 ^^ v.testBit 5 ^^ v.testBit 6 ^^ v.testBit 7) := by
  simp only [xorReduce8, Nat.testBit_xor, Nat.testBit_shiftRight, Nat.reduceAdd]
  grind

theorem xorReduce8_getUint (x : Bits) : xorReduce8 (getUint x 0 7) =
    (x 7 ^^ x 6 ^^ x 5 ^^ x 4 ^^ x 3 ^^ x 2 ^^ x 1 ^^ x 0) := by
  simp [xorReduce8_eq, testBit_getUint, -Nat.testBit_zero]

theorem sel_le (selCtrl : Bits) (i : Nat) : sel selCtrl i ≤ 7 := by
  have hlt := Nat.ofBits_lt_two_pow fun j : Fin (i * 4 + 3 + 1 - (i * 4 + 1)) =>
    selCtrl (i * 4 + 3 - j)
  have hwidth : i * 4 + 3 + 1 - (i * 4 + 1) = 3 := by omega
  exact Nat.le_of_lt_succ (hlt.trans_eq (congrArg (2 ^ ·) hwidth))

theorem testBit_decode3to8 {v : Nat} (hv : v ≤ 7) (j : Nat) (hj : j ≤ 7) :
    (decode3to8 v).testBit j = decide (v = 7 - j) := by
  have hall : ∀ v ≤ 7, ∀ j ≤ 7, (decode3to8 v).testBit j = decide (v = 7 - j) := by decide
  exact hall v hv j hj

/-- The bit taken out of a column is the xor of the others and of the hash of all. -/
theorem xorReduce8_mux (c : Bits) {s : Nat} (hs : s ≤ 7) :
    xorReduce8 ((getUint (fun j => c (if s < 7 - j then j else j + 1)) 0 6 <<< 1) |||
      (xorReduce8 (getUint c 0 7)).toNat) = c (7 - s) := by
  have happend : ∀ (x : Bits) (b : Bool), xorReduce8 (getUint x 0 6 <<< 1 ||| b.toNat) =
      (b ^^ x 6 ^^ x 5 ^^ x 4 ^^ x 3 ^^ x 2 ^^ x 1 ^^ x 0) := by
    intro x b
    simp [xorReduce8_eq, testBit_getUint, Nat.testBit_bool_toNat, -Nat.testBit_zero]
  rw [happend, xorReduce8_getUint]
  interval_cases s <;> simp [Bool.xor_comm, Bool.xor_left_comm]

theorem xorReduce8_decoded (c : Bits) {s : Nat} (hs : s ≤ 7) :
    xorReduce8 (getUint (fun j => c j && (decode3to8 s).testBit j) 0 7) = c (7 - s) := by
  simp only [xorReduce8_getUint, testBit_decode3to8 hs, Nat.zero_le, Nat.reduceLeDiff]
  interval_cases s <;> simp

variable {selCtrl addr : Bits}

theorem shiftedAddr_eq (hatomic : addr 23 = false) {k : Nat} (hk : 3 ≤ k ∧ k ≤ 31) :
    shiftedAddr addr k = addr (k + 25) := by
  rw [shiftedAddr, hatomic, if_neg Bool.false_ne_true, setUint_getUint (by omega),
    (by omega : 56 - (31 - k) = k + 25)]

theorem shiftedAddr_of_lt {k : Nat} (hk : k < 3) : shiftedAddr addr k = false :=
  setUint_of_not (by omega)

/-- The bits of the address in the slice, without the one taken out of each column. -/
theorem l2Addr_eq (hatomic : addr 23 = false) {k : Nat} (hk : k ≤ 33) :
    l2Addr selCtrl addr k =
      if k = 0 then false else if k ≤ 4 then addr (k + 23)
      else if k ≤ 29 then muxAddr selCtrl addr (k - 2) else addr (k + 27) := by
  simp only [l2Addr, setUint, hatomic]
  grind [testBit_getUint]

theorem l2AddrPad_eq {l2 : Bits} (hsel : ∀ i < 3, sel selCtrl i ≠ 7)
    (hl2 : ∀ k ≤ 24, l2 k = muxAddr selCtrl addr (k + 3)) {k : Nat} (hk : k ≤ 27) :
    setUint zero (getUint l2 0 24) 7 31 (k + 4) = muxAddr selCtrl addr k := by
  by_cases hlow : k < 3
  · -- the three bits in front are those of a shifted address, which are clear
    have hle := sel_le selCtrl k
    have hne := hsel k hlow
    rw [setUint_of_not (by omega), muxAddr, Nat.mod_eq_of_lt (by omega), if_pos (by omega),
      shiftedAddr_of_lt hlow, zero]
  · rw [setUint_getUint (by omega), hl2 _ (by omega), (by omega : 24 - (31 - (k + 4)) + 3 = k)]

theorem unscrSlice_eq {slice pad : Bits} {i : Nat} (hi : i < 4)
    (hslice : slice (3 - i) = sliceHash selCtrl addr (3 - i))
    (hpad : ∀ k ≤ 27, pad (k + 4) = muxAddr selCtrl addr k) :
    unscrSlice selCtrl slice pad i = shiftedAddr addr ((7 - sel selCtrl i) * 4 + i) := by
  have hle := sel_le selCtrl i
  rw [unscrSlice, hslice, sliceHash, (by omega : 3 - (3 - i) = i)]
  cases hmode : selCtrl (i * 4) with
  | true =>
    simpa using xorReduce8_decoded (fun j => shiftedAddr addr (j * 4 + i)) hle
  | false =>
    have hcol : getUint (fun j => pad (j * 4 + i + 4)) 0 6 =
        getUint (fun j => shiftedAddr addr ((if sel selCtrl i < 7 - j then j else j + 1) * 4 + i))
          0 6 := by
      refine getUint_congr (by omega) fun j _ hj => ?_
      rw [hpad _ (by omega), muxAddr, (by omega : (j * 4 + i) % 4 = i),
        (by omega : (j * 4 + i) / 4 = j)]
      congr 1
      grind
    rw [hcol]
    simpa using xorReduce8_mux (fun j => shiftedAddr addr (j * 4 + i)) hle

theorem shL2ToPhys_eq {slice l2 : Bits} (hsel : ∀ i < 3, sel selCtrl i ≠ 7)
    (hslice : ∀ k ≤ 3, slice k = sliceHash selCtrl addr k)
    (hl2 : ∀ k ≤ 24, l2 k = muxAddr selCtrl addr (k + 3)) :
    shL2ToPhys selCtrl slice l2 = some (getUint (shiftedAddr addr) 3 31) := by
  have hpad := fun k (hk : k ≤ 27) => l2AddrPad_eq hsel hl2 hk
  rw [shL2ToPhys, if_neg (by simp [hsel])]
  refine congrArg some (getUint_congr (by omega) fun k hk hk' => ?_)
  have hle := sel_le selCtrl (k % 4)
  split_ifs with hgt heq
  · -- above the bit taken out the column has moved down by one row
    obtain ⟨m, rfl⟩ : ∃ m, k = m + 4 := ⟨k - 4, by omega⟩
    rw [hpad m (by omega), muxAddr, if_neg]
    rw [(by omega : (m + 4) % 4 = m % 4)] at hgt
    omega
  · rw [unscrSlice_eq (Nat.mod_lt k (by omega)) (hslice _ (by omega)) hpad, heq]
    congr 1
    omega
  · rw [hpad k (by omega), muxAddr, if_pos (by omega)]

/-- The four lower bits of the five that name a slice. -/
theorem sliceBits {hash y : Bits} {k : Nat} (hk : k ≤ 3) :
    setUint zero (getUint (setUint y (getUint hash 0 3) 1 4) 0 4 % 16) 0 3 k = hash k := by
  rw [setUint, if_pos (by omega), Nat.testBit_mod_two_pow (j := 4)]
  grind [setUint, testBit_getUint]

/-- The address with its fields put back. -/
theorem addrOut_eq {switchAddr : Bits} (hatomic : addr 23 = false)
    (hlow : ∀ k, k < 23 ∨ 61 ≤ k → addr k = false)
    (hswitch : ∀ k ≤ 33, switchAddr k = l2Addr selCtrl addr k) (k : Nat) :
    setUint (setUint (setUint zero (getUint (shiftedAddr addr) 3 31) 28 56)
      (getUint switchAddr 0 4) 23 27) (getUint switchAddr 30 33) 57 60 k = addr k := by
  have hl2 : ∀ k ≤ 33, switchAddr k = _ := fun k hk => (hswitch k hk).trans (l2Addr_eq hatomic hk)
  have hshifted : ∀ k, 3 ≤ k ∧ k ≤ 31 → shiftedAddr addr k = addr (k + 25) := fun k =>
    shiftedAddr_eq hatomic
  grind [setUint, testBit_getUint, zero]

/-- Aligned addresses of memory, without the operation on compressed addresses. -/
def Regular (addr : Nat) : Prop :=
  8 ∣ addr ∧ addr.testBit 41 = false ∧ addr.testBit 40 = false

/-- No selector is 7, for which there is no way back. -/
def Defined (selCtrl : Nat) : Prop :=
  ∀ i < 3, sel (setUint zero selCtrl 0 15) i ≠ 7

theorem Regular.l2ToPhysAddr_eq {selCtrl addr : Nat} (haddr : Regular addr)
    (hsel : Defined selCtrl) :
    l2ToPhysAddr selCtrl (shSliceSelect selCtrl addr).1 (shSliceSelect selCtrl addr).2 =
      some (addr % 2 ^ 42) := by
  obtain ⟨C, hC⟩ : ∃ C, setUint zero selCtrl 0 15 = C := ⟨_, rfl⟩
  obtain ⟨A, hA⟩ : ∃ A, setUint zero addr 22 63 = A := ⟨_, rfl⟩
  rw [Defined, hC] at hsel
  have hbit : ∀ k, A k = (decide (22 ≤ k ∧ k ≤ 63) && addr.testBit (63 - k)) := by
    intro k
    simp only [← hA, setUint, zero]
    grind
  have hmmio : A 22 = false := by simp [hbit, haddr.2.1]
  have hatomic : A 23 = false := by simp [hbit, haddr.2.2]
  have hlow : ∀ k, k < 23 ∨ 61 ≤ k → A k = false := by
    intro k hk
    obtain ⟨m, hm⟩ := haddr.1
    have haligned : ∀ n < 3, addr.testBit n = false := fun n hn => by
      rw [hm, Nat.testBit_two_pow_mul (i := 3), decide_eq_false (by omega), Bool.false_and]
    grind
  have hl2 : ∀ k ≤ 24, setUint zero (getUint (setUint zero (getUint (l2Addr C A) 0 33) 0 33) 5 29)
      0 24 k = muxAddr C A (k + 3) := fun k hk => by
    rw [setUint_getUint (by omega), setUint_getUint_self (by omega), l2Addr_eq hatomic (by omega)]
    grind
  simp only [shSliceSelect, l2ToPhysAddr, hC, hA, hmmio, Bool.false_eq_true, if_false,
    shL2ToPhys_eq hsel (fun _ => sliceBits) hl2, Option.map_some]
  refine congrArg some (Nat.eq_of_testBit_eq fun n => ?_)
  rw [testBit_getUint _ (by omega), Nat.testBit_mod_two_pow,
    addrOut_eq hatomic hlow fun k => setUint_getUint_self]
  grind

/-- The way back gives the address, so that no two addresses share a slice and an address in it. -/
theorem l2ToPhysAddr_shSliceSelect {selCtrl addr : Nat} (hsel : Defined selCtrl)
    (haddr : Regular addr) :
    l2ToPhysAddr selCtrl (shSliceSelect selCtrl addr).1 (shSliceSelect selCtrl addr).2 =
        some (addr % 2 ^ 42) ∧
      ∀ addr', Regular addr' → shSliceSelect selCtrl addr = shSliceSelect selCtrl addr' →
        addr % 2 ^ 42 = addr' % 2 ^ 42 := by
  refine ⟨haddr.l2ToPhysAddr_eq hsel, fun addr' haddr' heq => ?_⟩
  have hback := haddr.l2ToPhysAddr_eq hsel
  rw [heq, haddr'.l2ToPhysAddr_eq hsel] at hback
  exact (Option.some.inj hback).symm

theorem l2ToPhysAddr_shSliceSelect_line :
    l2ToPhysAddr 0x3254 (shSliceSelect 0x3254 0x123456788).1 (shSliceSelect 0x3254 0x123456788).2 =
      some 0x123456788 :=
  (l2ToPhysAddr_shSliceSelect (by unfold Defined; decide) (by unfold Regular; decide)).1

end BgqDriver.L2Slice
