import BgqDriver.AdderTrees
import Mathlib.Algebra.BigOperators.Fin

/-!
The words of a tree addition as numbers. Every adder of the tree sees the words of
its operands from the least significant one on and keeps its own carry from word to
word, so over all words it is one adder of `32 * elementWords` bits.
-/

namespace BgqDriver.NetworkReduce

open CarrySums Nat Function Finset
open AdderTree

namespace AdderTree

variable {m : Nat} (v : Nat → BitVec m)

def sum : AdderTree → BitVec m
  | input p => v p
  | adder left right => left.sum + right.sum

def exact : AdderTree → Int
  | input p => (v p).toInt
  | adder left right => left.exact + right.exact

/-- `x` is not a two's-complement number of `m` bits. -/
def OutOfRange (m : Nat) (x : Int) : Prop := x < -2 ^ (m - 1) ∨ 2 ^ (m - 1) ≤ x

def Overflows : AdderTree → Prop
  | input _ => False
  | adder left right => left.Overflows ∨ right.Overflows ∨
      OutOfRange m ((left.sum v).toInt + (right.sum v).toInt)

def ExceedsRange : AdderTree → Prop
  | input _ => False
  | adder left right => left.ExceedsRange ∨ right.ExceedsRange ∨
      OutOfRange m (left.exact v + right.exact v)

variable {v}

theorem saddOverflow_iff_outOfRange (x y : BitVec m) :
    x.saddOverflow y ↔ OutOfRange m (x.toInt + y.toInt) := by
  simp only [BitVec.saddOverflow, ge_iff_le, Bool.or_eq_true, decide_eq_true_eq, OutOfRange]
  exact or_comm

theorem overflows_iff_hasAdder :
    ∀ {t : AdderTree} {k : Nat}, t.Overflows v ↔
      ∃ x y j, HasAdder x y j t k ∧ OutOfRange m ((x.sum v).toInt + (y.sum v).toInt)
  | input _, k => by
      constructor
      · exact False.elim
      · rintro ⟨x, y, j, h, -⟩
        cases h
  | adder left right, k => by
      rw [Overflows, overflows_iff_hasAdder (t := left) (k := k),
        overflows_iff_hasAdder (t := right) (k := k + left.adders)]
      constructor
      · rintro (⟨x, y, j, h, hout⟩ | ⟨x, y, j, h, hout⟩ | hout)
        · exact ⟨x, y, j, .left h, hout⟩
        · exact ⟨x, y, j, .right h, hout⟩
        · exact ⟨left, right, k, .root, hout⟩
      · rintro ⟨x, y, j, _ | h | h, hout⟩
        · exact .inr (.inr hout)
        · exact .inl ⟨x, y, j, h, hout⟩
        · exact .inr (.inl ⟨x, y, j, h, hout⟩)

theorem toInt_sum : ∀ {t : AdderTree}, ¬ t.Overflows v → (t.sum v).toInt = t.exact v
  | input _, _ => rfl
  | adder left right, h => by
      simp only [Overflows, not_or] at h
      have hfits : ¬ (left.sum v).saddOverflow (right.sum v) := by
        rw [saddOverflow_iff_outOfRange]
        exact h.2.2
      rw [sum, BitVec.toInt_add_of_not_saddOverflow hfits, toInt_sum h.1, toInt_sum h.2.1, exact]

/-- The two readings of an adder out of range agree: at a lowest such adder the
operands are still exact. -/
theorem overflows_iff_exceedsRange : ∀ {t : AdderTree}, t.Overflows v ↔ t.ExceedsRange v
  | input _ => Iff.rfl
  | adder left right => by
      rw [Overflows, ExceedsRange, ← overflows_iff_exceedsRange (t := left),
        ← overflows_iff_exceedsRange (t := right)]
      by_cases hleft : left.Overflows v
      · simp only [hleft, true_or]
      by_cases hright : right.Overflows v
      · simp only [hright, true_or, or_true]
      · rw [toInt_sum hleft, toInt_sum hright]

theorem toNat_sum (v : Nat → BitVec m) : ∀ t : AdderTree,
    (t.sum v).toNat = (t.inputs.map fun p => (v p).toNat).sum % 2 ^ m
  | input p => by
      exact (mod_eq_of_lt (v p).isLt).symm
  | adder left right => by
      rw [sum, BitVec.toNat_add, toNat_sum v left, toNat_sum v right, inputs, List.map_append,
        List.sum_append, ← add_mod]

theorem exact_eq (v : Nat → BitVec m) : ∀ t : AdderTree,
    t.exact v = (t.inputs.map fun p => (v p).toInt).sum
  | input p => by simp [exact, inputs]
  | adder left right => by
      rw [exact, exact_eq v left, exact_eq v right, inputs, List.map_append, List.sum_append]

end AdderTree

theorem uint32EndianFlip_involutive (x : BitVec 32) :
    uint32EndianFlip (uint32EndianFlip x) = x := by
  apply BitVec.eq_of_getLsbD_eq
  intro i hi
  simp only [uint32EndianFlip, BitVec.getLsbD_append, BitVec.getLsbD_extractLsb']
  grind

theorem Host.maybeFlip_maybeFlip (host : Host) (x : BitVec 32) :
    host.maybeFlip (host.maybeFlip x) = x := by
  unfold Host.maybeFlip
  split
  · exact uint32EndianFlip_involutive x
  · rfl

theorem adder_digits (a b c : BitVec 32) :
    a.toNat + b.toNat + c.toNat =
      ((adderSum a b c).setWidth 32).toNat + (adderCarry a b c).toNat * 2 ^ 32 := by
  simp only [adderCarry, adderSum, BitVec.toNat_add, BitVec.toNat_setWidth,
    BitVec.toNat_ushiftRight, shiftRight_eq_div_pow]
  omega

theorem and_signBit (x : BitVec 32) :
    x &&& 0x80000000 = if x.msb then 0x80000000 else 0 := by
  have hbit : (0x80000000 : BitVec 32) = BitVec.twoPow 32 31 := by decide
  rw [hbit, BitVec.and_twoPow, BitVec.msb_eq_getLsbD_last]
  rfl

theorem adderOverflow_eq (a b c : BitVec 32) :
    adderOverflow a b c = ((a.msb ^^ b.msb ^^ ((adderSum a b c).setWidth 32).msb) !=
      decide (adderCarry a b c ≠ 0)) := by
  have hsum : (adderSum a b c &&& 0x80000000).setWidth 32 =
      (adderSum a b c).setWidth 32 &&& 0x80000000 := by
    rw [BitVec.setWidth_and]
    rfl
  have hcarry : decide (adderCarry a b c ≠ 0) = !(adderCarry a b c == 0) := by
    simp [beq_eq_decide]
  simp only [adderOverflow, hsum, and_signBit, hcarry, bne]
  cases adderCarry a b c == 0 <;> cases a.msb <;> cases b.msb <;>
    cases ((adderSum a b c).setWidth 32).msb <;> decide

def Args.operand (a : Args) (p : Nat) : BitVec (32 * a.elementWords) :=
  number a.elementWords fun e => a.pValue p (wordIndex (a.flags p) a.elementWords e)

def Args.resultNumber (a : Args) (Result : Words) : BitVec (32 * a.elementWords) :=
  number a.elementWords fun e =>
    a.host.maybeFlip (Result (wordIndex a.vFlagsResult a.elementWords e))

theorem written_eq {R : Nat → Words} {flags : BitVec 64} {W : Nat} {u : Nat → BitVec 32}
    (hstep : ∀ e, R (e + 1) = update (R e) (wordIndex flags W e) (u e)) {e : Nat}
    (he : e < W) : R W (wordIndex flags W e) = u e := by
  have hloop : ∀ k ≤ W, e < k → R k (wordIndex flags W e) = u e := by
    intro k
    induction k with
    | zero => exact fun _ h => absurd h (Nat.not_lt_zero e)
    | succ k ih =>
      intro hk hek
      rw [hstep]
      rcases Nat.lt_succ_iff_lt_or_eq.mp hek with hek | rfl
      · have hne : wordIndex flags W e ≠ wordIndex flags W k := by
          unfold wordIndex
          split <;> omega
        rw [update_of_ne hne, ih (by omega) hek]
      · rw [update_self]
  exact hloop W le_rfl he

variable {j : Nat} {x y : AdderTree}

section Loop

variable {build : Build} {Tree : Option (List Char)} {a : Args} {t : AdderTree}
  (hn : a.numParticipants < 2 ^ 31)
  (htree : WellFormed build a.numParticipants (Tree.getD (defaultTree a.numParticipants)) t)
  (cells : AdderCells) (Result : Words)

/-- The word at place `e` that leaves a subtree `x` in the loop of `addScalarReduce`. -/
def loopWord (build : Build) (Tree : Option (List Char)) (a : Args) (cells : AdderCells)
    (Result : Words) (x : AdderTree) (j e : Nat) : BitVec 32 :=
  x.word (fun p => a.pValue p (wordIndex (a.flags p) a.elementWords e))
    (addLoop build Tree a cells Result e).inCarry j

include hn htree

theorem addLoop_succ (e : Nat) :
    let s := addLoop build Tree a cells Result e
    let s' := addLoop build Tree a cells Result (e + 1)
    let w := loopWord build Tree a cells Result
    s'.rc = s.rc ∧
      s'.Result = update s.Result (wordIndex a.vFlagsResult a.elementWords e)
        (a.host.maybeFlip (w t 0 e)) ∧
      (∀ {x y j}, HasAdder x y j t 0 → s'.inCarry (place x y j) =
        adderCarry (w y (j + x.adders) e) (w x j e) (s.inCarry (place x y j))) ∧
      ∀ {x y j}, HasAdder x y j t 0 → s'.cells.signedOverflow (place x y j) =
        adderOverflow (w y (j + x.adders) e) (w x j e) (s.inCarry (place x y j)) := by
  intro s s' w
  obtain ⟨cells', htreeAdd, hsum, hcarry, hoverflow⟩ := treeAddScalarReduce_wellFormed hn htree
    s.inCarry s.cells fun p => a.pValue p (wordIndex (a.flags p) a.elementWords e)
  have hs' : s' = addStep build Tree a e s := rfl
  simp only [addStep, htreeAdd, hsum] at hs'
  rw [hs']
  refine ⟨BitVec.or_zero, rfl, fun h => ?_, hoverflow.at_place⟩
  simp only [if_pos (htree.place_lt h)]
  exact hcarry.at_place h

theorem addLoop_rc (e : Nat) : (addLoop build Tree a cells Result e).rc = 0 := by
  induction e with
  | zero => rfl
  | succ e ih => rw [(addLoop_succ hn htree cells Result e).1, ih]

/-- Over any number of words an adder is one adder of that many words, and its carry
is the carry out of it. -/
theorem number_adder (h : HasAdder x y j t 0) (W : Nat) :
    let w := loopWord build Tree a cells Result
    number W (w (.adder x y) j) = number W (w y (j + x.adders)) + number W (w x j) ∧
      ((addLoop build Tree a cells Result W).inCarry (place x y j)).toNat =
        ((number W (w y (j + x.adders))).toNat + (number W (w x j)).toNat) / 2 ^ (32 * W) := by
  intro w
  have hcolumns : ∀ e < W, ∑ b : Bool, (if b then w y (j + x.adders) e else w x j e).toNat +
      ((addLoop build Tree a cells Result e).inCarry (place x y j)).toNat =
      (w (.adder x y) j e).toNat +
        ((addLoop build Tree a cells Result (e + 1)).inCarry (place x y j)).toNat * 2 ^ 32 := by
    intro e _
    rw [(addLoop_succ hn htree cells Result e).2.2.1 h, Fintype.sum_bool]
    exact adder_digits ..
  have hdigits : ∀ e < W, (w (.adder x y) j e).toNat < 2 ^ 32 := fun e _ => BitVec.isLt _
  constructor
  · apply BitVec.eq_of_toNat_eq
    rw [BitVec.toNat_add, toNat_number, toNat_number, toNat_number, pow_mul]
    have hmod := value_eq_mod (c := fun e =>
      ((addLoop build Tree a cells Result e).inCarry (place x y j)).toNat) rfl hcolumns hdigits
    exact hmod
  · rw [toNat_number, toNat_number, pow_mul]
    have hdiv := carry_eq_div (c := fun e =>
      ((addLoop build Tree a cells Result e).inCarry (place x y j)).toNat) rfl hcolumns hdigits
    exact hdiv

theorem number_loopWord (W : Nat) : ∀ {x : AdderTree} {j : Nat},
    (∀ {y z i}, HasAdder y z i x j → HasAdder y z i t 0) →
      number W (loopWord build Tree a cells Result x j) =
        x.sum fun p => number W fun e => a.pValue p (wordIndex (a.flags p) a.elementWords e)
  | .input _, _, _ => rfl
  | .adder left right, j, hsub => by
      rw [(number_adder hn htree cells Result (hsub .root) W).1,
        number_loopWord W fun h => hsub (.left h), number_loopWord W fun h => hsub (.right h),
        AdderTree.sum, BitVec.add_comm]

theorem signedOverflow_eq (h : HasAdder x y j t 0) {W : Nat} (hW : W ≠ 0) :
    let w := loopWord build Tree a cells Result
    (addLoop build Tree a cells Result W).cells.signedOverflow (place x y j) =
      (number W (w y (j + x.adders))).saddOverflow (number W (w x j)) := by
  intro w
  obtain ⟨W, rfl⟩ := exists_eq_succ_of_ne_zero hW
  obtain ⟨-, -, hcarry, hoverflow⟩ := addLoop_succ hn htree cells Result W
  obtain ⟨hnumber, hlast⟩ := number_adder hn htree cells Result h (W + 1)
  rw [hoverflow h, adderOverflow_eq, saddOverflow_eq_carries (by omega), ← hnumber,
    msb_number (by omega), msb_number (by omega), msb_number (by omega), ← hcarry h,
    decide_eq_decide.mpr (carry_ne_zero_iff hlast)]
  rfl

theorem number_loopWord_eq_operands (hsub : ∀ {y z i}, HasAdder y z i x j → HasAdder y z i t 0) :
    number a.elementWords (loopWord build Tree a cells Result x j) = x.sum a.operand :=
  number_loopWord hn htree cells Result a.elementWords hsub

theorem resultNumber_addLoop :
    a.resultNumber (addLoop build Tree a cells Result a.elementWords).Result =
      t.sum a.operand := by
  rw [← number_loopWord_eq_operands hn htree cells Result fun h => h]
  apply number_congr
  intro e he
  have hwritten := written_eq (R := fun e => (addLoop build Tree a cells Result e).Result)
    (fun e => (addLoop_succ hn htree cells Result e).2.1) he
  simp only [hwritten, Host.maybeFlip_maybeFlip]

theorem any_signedOverflow_iff (hwords : a.elementWords ≠ 0) :
    (List.range (a.numParticipants - 1)).any
        (addLoop build Tree a cells Result a.elementWords).cells.signedOverflow ↔
      t.Overflows a.operand := by
  have hplace : ∀ {x y j}, HasAdder x y j t 0 →
      ((addLoop build Tree a cells Result a.elementWords).cells.signedOverflow (place x y j) ↔
        OutOfRange (32 * a.elementWords) ((x.sum a.operand).toInt + (y.sum a.operand).toInt)) := by
    intro x y j h
    rw [signedOverflow_eq hn htree cells Result h hwords,
      number_loopWord_eq_operands hn htree cells Result fun hx => h.trans (.left hx),
      number_loopWord_eq_operands hn htree cells Result fun hy => h.trans (.right hy),
      saddOverflow_iff_outOfRange, Int.add_comm]
  have hadders := htree.adders_eq
  rw [overflows_iff_hasAdder, List.any_eq_true]
  constructor
  · rintro ⟨i, hi, hoverflow⟩
    rw [List.mem_range] at hi
    obtain ⟨x, y, j, h, rfl⟩ := exists_hasAdder (Nat.zero_le i) (by omega : i < 0 + t.adders)
    exact ⟨x, y, j, h, (hplace h).mp hoverflow⟩
  · rintro ⟨x, y, j, h, hout⟩
    exact ⟨place x y j, List.mem_range.mpr (htree.place_lt h), (hplace h).mpr hout⟩

end Loop

/-- On a well-formed tree the addition reports at most an overflow, and that exactly
when an adder overflows. -/
theorem addScalarReduce_cases {build : Build} {Tree : Option (List Char)} {a : Args}
    {t : AdderTree} (hn : a.numParticipants < 2 ^ 31)
    (htree : WellFormed build a.numParticipants (Tree.getD (defaultTree a.numParticipants)) t)
    (cells : AdderCells) (Result : Words) :
    ∃ rc Result', addScalarReduce build a .add Tree cells Result = (rc, Result') ∧
      a.resultNumber Result' = t.sum a.operand ∧ (rc = 0 ∨ rc = addOverflow) ∧
      (rc = addOverflow ↔ t.Overflows a.operand) := by
  have hadders := htree.adders_eq
  by_cases hwords : a.elementWords = 0
  · -- numbers without a word are all zero
    have hzero : ∀ x : BitVec (32 * a.elementWords), x.toInt = 0 := by
      intro x
      rw [BitVec.toInt_eq_toNat_cond]
      have hlt := x.isLt
      have hpow : 2 ^ (32 * a.elementWords) = 1 := by rw [hwords, Nat.mul_zero, pow_zero]
      omega
    refine ⟨0, Result, ?_, BitVec.eq_of_toInt_eq (by rw [hzero, hzero]), .inl rfl,
      iff_of_false (by decide) ?_⟩
    · rw [addScalarReduce, if_pos (.inr hwords)]
    · rw [overflows_iff_hasAdder (k := 0)]
      rintro ⟨x, y, j, -, hout⟩
      rw [hzero, hzero, hwords, OutOfRange] at hout
      exact absurd hout (by decide)
  have hresult := resultNumber_addLoop hn htree cells Result
  rw [addScalarReduce, if_neg (by omega), if_neg (by decide),
    ← any_signedOverflow_iff hn htree cells Result hwords]
  simp only [addLoop_rc hn htree cells Result]
  split
  next hany => exact ⟨_, _, rfl, hresult, .inr rfl, iff_of_true rfl hany⟩
  next hany => exact ⟨_, _, rfl, hresult, .inl rfl, iff_of_false (by decide) hany⟩

/-- Over every well-formed tree the addition returns the sum of the operands modulo
`2 ^ (32 * elementWords)`. It reports nothing but an overflow, and that exactly when
some adder leaves the signed range, whether its operands are taken as they enter it
or as exact sums; without an overflow the result is the exact signed sum. -/
theorem addScalarReduce_wellFormed (build : Build) (a : Args) (Tree : Option (List Char))
    (t : AdderTree) (cells : AdderCells) (Result : Words) (hn : a.numParticipants < 2 ^ 31)
    (htree : WellFormed build a.numParticipants (Tree.getD (defaultTree a.numParticipants)) t) :
    let out := addScalarReduce build a .add Tree cells Result
    (a.resultNumber out.2).toNat =
        (∑ p ∈ range a.numParticipants, (a.operand p).toNat) % 2 ^ (32 * a.elementWords) ∧
      (out.1 = 0 ∨ out.1 = addOverflow) ∧
      (out.1 ≠ addOverflow → (a.resultNumber out.2).toInt =
        ∑ p ∈ range a.numParticipants, (a.operand p).toInt) ∧
      (out.1 = addOverflow ↔ t.Overflows a.operand) ∧
      (out.1 = addOverflow ↔ t.ExceedsRange a.operand) := by
  intro out
  obtain ⟨rc, Result', hout, hresult, hcases, hoverflow⟩ :=
    addScalarReduce_cases hn htree cells Result
  have hout : out = (rc, Result') := hout
  have hnat : (t.sum a.operand).toNat =
      (∑ p ∈ range a.numParticipants, (a.operand p).toNat) %
        2 ^ (32 * a.elementWords) := by
    rw [toNat_sum, (htree.perm.map _).sum_eq]
    rfl
  have hexact : t.exact a.operand =
      ∑ p ∈ range a.numParticipants, (a.operand p).toInt := by
    rw [exact_eq, (htree.perm.map _).sum_eq]
    rfl
  rw [hout, hresult, ← overflows_iff_exceedsRange]
  refine ⟨hnat, hcases, fun h => ?_, hoverflow, hoverflow⟩
  rw [toInt_sum fun hover => h (hoverflow.mpr hover), hexact]

def linearTree : Nat → AdderTree
  | 0 => .input 0
  | p + 1 => .adder (linearTree p) (.input (p + 1))

theorem spells_defaultTree (build : Build) (p : Nat) :
    ∃ body rest, defaultTree (p + 1) = body ++ rest ∧ Spells build body (linearTree p) ∧
      rest.all build.skips := by
  have hblank : [' '].all build.skips := by cases build <;> rfl
  induction p with
  | zero =>
    have hnumber := @Spells.input build [] ['0'] [] rfl (List.cons_ne_nil _ _) rfl rfl
    exact ⟨['0', 'S'], [' '], rfl, hnumber, hblank⟩
  | succ p ih =>
    obtain ⟨body, rest, htext, hbody, hrest⟩ := ih
    have hdigits : (toDigits 10 (p + 1)).all Char.isDigit :=
      List.all_eq_true.mpr fun x hx => isDigit_of_mem_toDigits (by decide) (by decide) hx
    have hnonempty : toDigits 10 (p + 1) ≠ [] :=
      List.ne_nil_of_length_pos length_toDigits_pos
    have hnumber := @Spells.input build rest _ [] hrest hnonempty hdigits rfl
    rw [ofDigitChars_toDigits (by decide) (by decide)] at hnumber
    refine ⟨_, [], ?_, .adder hbody hnumber hblank, rfl⟩
    have hlast : defaultTree (p + 1 + 1) =
        defaultTree (p + 1) ++ (toDigits 10 (p + 1) ++ "S +".toList) := by
      simp only [defaultTree, Nat.add_sub_cancel, List.range_succ, List.flatMap_append,
        List.flatMap_cons, List.flatMap_nil, List.append_nil, List.append_assoc]
    rw [hlast, htext]
    simp

/-- The largest number, one and minus one in this order: the first adder overflows,
although the exact sum is in range. -/
def overflowArgs : Args where
  host := ⟨true, 0⟩
  offset := 0
  elementWords := 1
  numParticipants := 3
  vContribution p _ := [0x7FFFFFFF, 1, 0xFFFFFFFF].getD p 0
  vFlagsContribution := none
  vFlagsResult := 0

theorem addScalarReduce_overflowArgs :
    WellFormed .cplusplus 3 (defaultTree 3) (linearTree 2) ∧
      (addScalarReduce .cplusplus overflowArgs .add none ⟨fun _ => 0, fun _ => false, 0⟩
        fun _ => 0).1 = addOverflow := by
  have htree : WellFormed .cplusplus 3 (defaultTree 3) (linearTree 2) :=
    ⟨spells_defaultTree .cplusplus 2, .refl _⟩
  have hsum := addScalarReduce_wellFormed .cplusplus overflowArgs none (linearTree 2)
    ⟨fun _ => 0, fun _ => false, 0⟩ (fun _ => 0) (by decide) htree
  have hrange : OutOfRange 32
      ((overflowArgs.operand 0).toInt + (overflowArgs.operand 1).toInt) := .inr (by decide)
  exact ⟨htree, hsum.2.2.2.1.mpr (.inl (.inr (.inr hrange)))⟩

end BgqDriver.NetworkReduce
