import BgqDriver.NetworkOperators

/-!
`scalarReduce` for every operation but the signed addition: the verification of
two-word results never fails, so the exceptions are those of the operation, and the
result is the combination of the contributions under an operator that does not
depend on how they are grouped.
-/

namespace BgqDriver.NetworkReduce

open CarrySums List Bool BitVec
open GroupedFolds

section Verification

variable {f : BitVec 64 → BitVec 64 → BitVec 64}
  {reduce : BitVec 64 → BitVec 64 → Option (BitVec 64)}

theorem myReduce_eq [Std.Associative f] (hreduce : ∀ x y, reduce x y = some (f x y))
    (dC : Nat → BitVec 64) (p : Nat) :
    myReduce reduce dC p = combineAll f ((range (p + 1)).map dC) := by
  induction p with
  | zero => rfl
  | succ p ih =>
    have hrange : range (p + 1 + 1) = range (p + 1) ++ [p + 1] := range_succ
    have hnonempty : (range (p + 1)).map dC ≠ [] := by simp
    obtain ⟨r, hr⟩ := exists_combineAll f hnonempty
    rw [myReduce, ih, hrange, map_append, combineAll_append, map_singleton,
      combineAll_singleton, hr, Option.bind_some, hreduce, Option.merge_some_some]

theorem append_eq_number (flags : BitVec 64) (w : Nat → BitVec 32) :
    (w (wordIndex flags 2 1) ++ w (wordIndex flags 2 0) : BitVec 64) =
      number 2 fun e => w (wordIndex flags 2 e) := by
  apply eq_of_toNat_eq
  have hlow := (w (wordIndex flags 2 0)).isLt
  rw [toNat_number, toNat_append, ← Nat.shiftLeft_add_eq_or_of_lt hlow, Nat.shiftLeft_eq]
  simp only [value]
  omega

theorem doubleWord_eq (addition : Bool) (flags : BitVec 64) (w : Nat → BitVec 32) :
    doubleWord addition flags w =
      number 2 fun e => w (wordIndex (if addition then flags else 0) 2 e) := by
  rw [← append_eq_number, doubleWord]
  cases addition with
  | false => simp only [Bool.false_and, false_eq_true, if_false, wordIndex_zero]
  | true =>
    simp only [Bool.true_and, wordIndex, if_true]
    cases isNdOrder flags <;> simp

theorem verifyScalarReduce_eq_zero [Std.Associative f]
    (hreduce : ∀ x y, reduce x y = some (f x y)) (a : Args) (addition : Bool) (Result : Words)
    (h : a.elementWords = 2 → combineAll f ((range a.numParticipants).map fun p =>
        view a.host (if addition then a.flags p else 0) 2 (a.element p)) =
      some (view a.host (if addition then a.vFlagsResult else 0) 2 Result)) :
    verifyScalarReduce a addition reduce Result = 0 := by
  unfold verifyScalarReduce
  split
  · rfl
  next hwords =>
  split
  · rfl
  next hn =>
  have hcombined := h (not_not.mp hwords)
  simp only [myReduce_eq hreduce, Nat.sub_add_cancel (Nat.one_le_iff_ne_zero.mpr hn), doubleWord_eq]
  have hfold : combineAll f ((range a.numParticipants).map fun p =>
      number 2 fun e => a.pValue p (wordIndex (if addition then a.flags p else 0) 2 e)) =
      some (view a.host (if addition then a.vFlagsResult else 0) 2 Result) := hcombined
  rw [hfold]
  simp [view]

end Verification

/-- What a reduction of elements of `W` words computes: elements are read as values,
which are combined; the exceptions depend on the values only, and those of a grouped
reduction add up to those of a flat one. -/
structure Operator (host : Host) (W : Nat) (opCode : ColOpcode) where
  Value : Type
  combine : Value → Value → Value
  associative : Std.Associative combine
  commutative : Std.Commutative combine
  read : BitVec 64 → Words → Value
  word_eq : ∀ {flags w w'}, read flags w = read flags w' → ∀ i < W, w i = w' i
  read_congr : ∀ {flags w w'}, (∀ i < W, w i = w' i) → read flags w = read flags w'
  exception : List Value → BitVec 64
  exception_singleton : ∀ x, exception [x] = 0
  exception_perm : ∀ {xs ys}, xs.Perm ys → exception xs = exception ys
  exception_flatten : ∀ {groups xs},
    Forall₂ (fun g x => combineAll combine g = some x) groups xs →
      exception groups.flatten = (groups.map exception).foldr (· ||| ·) 0 ||| exception xs
  reduces : ∀ (a : Args), a.host = host → a.elementWords = W → a.numParticipants ≠ 0 →
    a.numParticipants < 2 ^ 31 → ∀ build Tree cells Result, ∃ Result',
      scalarReduce build a opCode Tree cells Result =
          (exception ((range a.numParticipants).map fun p =>
            read (a.flags p) (a.element p)), Result') ∧
        combineAll combine ((range a.numParticipants).map fun p =>
          read (a.flags p) (a.element p)) = some (read a.vFlagsResult Result')

theorem or_noException (rc : BitVec 64) : rc ||| 0 = rc := or_zero

theorem noException_or (rc : BitVec 64) : 0 ||| rc = rc := zero_or

theorem no_exception {X : Type} (groups : List (List X)) :
    (0 : BitVec 64) = (groups.map fun _ => (0 : BitVec 64)).foldr (· ||| ·) 0 ||| 0 := by
  induction groups with
  | nil => exact (or_noException 0).symm
  | cons g groups ih =>
    rw [map_cons, foldr_cons, noException_or]
    exact ih

theorem view_congr {host : Host} {flags : BitVec 64} {W : Nat} {w w' : Words}
    (h : ∀ i < W, w i = w' i) : view host flags W w = view host flags W w' :=
  number_congr fun e he => by rw [h _ (wordIndex_wordIndex flags he).1]

def logicReduction (host : Host) (W : Nat) {opCode : ColOpcode} (hop : IsLogic opCode) :
    Operator host W opCode where
  Value := Fin W → BitVec 32
  combine := vectorOperator opCode W
  associative := ⟨fun x y z => funext fun i => (logicOperator_associative opCode).assoc _ _ _⟩
  commutative := ⟨fun x y => funext fun i => (logicOperator_commutative opCode).comm _ _⟩
  read _ w := vector W w
  word_eq h i hi := congrFun h ⟨i, hi⟩
  read_congr h := funext fun i => h i i.isLt
  exception _ := 0
  exception_singleton _ := rfl
  exception_perm _ := rfl
  exception_flatten {groups _} _ := no_exception groups
  reduces := by
    rintro a rfl rfl hpos - build Tree cells Result
    obtain ⟨Result', hreduce, hcombine⟩ := logicOpScalarReduce_eq hop a Result hpos
    refine ⟨Result', ?_, hcombine.symm⟩
    rcases hop with rfl | rfl | rfl <;> simp only [scalarReduce, hreduce]

variable {Result : Words} {a : Args}

theorem verify_selection {opCode : ColOpcode} (hop : IsSelection opCode)
    (h : some (view a.host 0 a.elementWords Result) = combineAll (pick (selectionKey opCode))
      ((range a.numParticipants).map fun p => view a.host 0 a.elementWords (a.element p))) :
    ((opCode = .u_min ∨ opCode = .u_max) → verify_uint_ScalarReduce a opCode Result = 0) ∧
      ((opCode = .min ∨ opCode = .max) → verify_int_ScalarReduce a opCode Result = 0) := by
  have hassoc := pick_associative (selectionKey opCode (m := 64))
  have hpick : ∀ x y : BitVec 64, pick (selectionKey opCode) x y =
      if selectionKey opCode x < selectionKey opCode y then x else y := by
    intro x y
    unfold pick
    split <;> split
    · omega
    · rfl
    · rfl
    · exact selectionKey_injective opCode (by omega)
  have htwo : a.elementWords = 2 → combineAll (pick (selectionKey opCode))
      ((range a.numParticipants).map fun p => view a.host 0 2 (a.element p)) =
        some (view a.host 0 2 Result) := by
    intro hwords
    rw [hwords] at h
    exact h.symm
  constructor
  · rintro (rfl | rfl) <;>
      refine verifyScalarReduce_eq_zero (f := pick (selectionKey _)) (fun x y => ?_) a _ Result htwo
    · simp [hpick, selectionKey, BitVec.ult]
    · simp [hpick, selectionKey, BitVec.ult]
  · rintro (rfl | rfl) <;>
      refine verifyScalarReduce_eq_zero (f := pick (selectionKey _)) (fun x y => ?_) a _ Result htwo
    · simp only [hpick, selectionKey, BitVec.slt, decide_eq_true_eq]
      rfl
    · simp only [hpick, selectionKey, BitVec.slt, decide_eq_true_eq, neg_lt_neg_iff]

def selectionReduction (host : Host) (W : Nat) {opCode : ColOpcode} (hop : IsSelection opCode) :
    Operator host W opCode where
  Value := BitVec (32 * W)
  combine := pick (selectionKey opCode)
  associative := pick_associative _
  commutative := pick_commutative (selectionKey_injective opCode)
  read _ w := view host 0 W w
  word_eq h := word_eq_of_view_eq h
  read_congr h := view_congr h
  exception _ := 0
  exception_singleton _ := rfl
  exception_perm _ := rfl
  exception_flatten {groups _} _ := no_exception groups
  reduces := by
    rintro a rfl rfl hpos - build Tree cells Result
    obtain ⟨Result', hreduce, hcombine⟩ := minORmaxScalarReduce_eq hop Result hpos
    obtain ⟨huint, hint⟩ := verify_selection hop hcombine
    refine ⟨Result', ?_, hcombine.symm⟩
    rcases hop with rfl | rfl | rfl | rfl
    · simp only [scalarReduce, hreduce, huint (.inl rfl), or_noException]
    · simp only [scalarReduce, hreduce, huint (.inr rfl), or_noException]
    · simp only [scalarReduce, hreduce, hint (.inl rfl), or_noException]
    · simp only [scalarReduce, hreduce, hint (.inr rfl), or_noException]

theorem verify_u_add (h : some (a.resultNumber Result) =
      combineAll (· + ·) ((range a.numParticipants).map a.operand)) :
    verify_uint_ScalarReduce a .u_add Result = 0 := by
  refine verifyScalarReduce_eq_zero (f := (· + ·)) (fun _ _ => rfl) a _ Result fun hwords => ?_
  have hview : some (view a.host a.vFlagsResult a.elementWords Result) =
      combineAll (· + ·) ((range a.numParticipants).map fun p =>
        view a.host (a.flags p) a.elementWords (a.element p)) := h
  rw [hwords] at hview
  exact hview.symm

variable {m : Nat} {groups : List (List (BitVec m))} {xs : List (BitVec m)}

section

variable (h : Forall₂ (fun g x => combineAll (· + ·) g = some x) groups xs)
include h

theorem foldr_sumException : ((groups.map sumException).foldr (· ||| ·) 0 = 0 ∧
        (groups.flatten.map BitVec.toNat).sum = (xs.map BitVec.toNat).sum) ∨
      ((groups.map sumException).foldr (· ||| ·) 0 = u_addOverflow ∧
        2 ^ m ≤ (groups.flatten.map BitVec.toNat).sum) := by
  induction h with
  | nil => exact .inl ⟨rfl, rfl⟩
  | @cons g x groups xs hg _ ih =>
    have hx := toNat_combineAll_add hg
    rw [map_cons, foldr_cons, flatten_cons, map_append, sum_append,
      map_cons, sum_cons, sumException]
    split
    next hover =>
      refine .inr ⟨?_, by omega⟩
      rcases ih with ⟨hfold, -⟩ | ⟨hfold, -⟩
      · rw [hfold, or_noException]
      · rw [hfold, BitVec.or_self]
    next hfits =>
      rw [noException_or, hx, Nat.mod_eq_of_lt (Nat.not_le.mp hfits)]
      exact ih.imp (fun h => ⟨h.1, by rw [h.2]⟩) fun h => ⟨h.1, by omega⟩

theorem sumException_flatten : sumException groups.flatten =
      (groups.map sumException).foldr (· ||| ·) 0 ||| sumException xs := by
  rcases foldr_sumException h with ⟨hfold, hsum⟩ | ⟨hfold, hover⟩
  · rw [hfold, noException_or, sumException, hsum, sumException]
  · rw [hfold, sumException, if_pos hover, sumException]
    split <;> decide

end

def additionReduction (host : Host) (W : Nat) : Operator host W .u_add where
  Value := BitVec (32 * W)
  combine := (· + ·)
  associative := ⟨BitVec.add_assoc⟩
  commutative := ⟨BitVec.add_comm⟩
  read flags w := view host flags W w
  word_eq h := word_eq_of_view_eq h
  read_congr h := view_congr h
  exception := sumException
  exception_singleton x := by
    rw [sumException, map_singleton, sum_singleton, if_neg (Nat.not_le.mpr x.isLt)]
  exception_perm h := by
    rw [sumException, sumException, (h.map BitVec.toNat).sum_eq]
  exception_flatten h := sumException_flatten h
  reduces := by
    rintro a rfl rfl hpos hn build Tree cells Result
    obtain ⟨Result', hreduce, hcombine⟩ := u_addScalarReduce_eq hn hpos Result
    refine ⟨Result', ?_, hcombine.symm⟩
    simp only [scalarReduce, hreduce, verify_u_add hcombine, or_noException]
    rfl

end BgqDriver.NetworkReduce
