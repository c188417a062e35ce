import BgqDriver.TreeAddition
import BgqDriver.GroupedFolds

/-!
What the logical operations, minimum, maximum and unsigned addition of
`NetworkReduce` compute: the combination of all contributions with a commutative
and associative operation, of word vectors for the logical operations and of
numbers for the others.
-/

namespace BgqDriver.NetworkReduce

open CarrySums Function Option Finset Nat
open GroupedFolds

/-- The contribution of participant `p` -/
def Args.element (a : Args) (p : Nat) : Words := fun i => a.vContribution p (a.offset + i)

/-- The number in the words of an element -/
def view (host : Host) (flags : BitVec 64) (W : Nat) (w : Words) : BitVec (32 * W) :=
  number W fun e => host.maybeFlip (w (wordIndex flags W e))

variable {W e p : Nat}

theorem wordIndex_wordIndex (flags : BitVec 64) (he : e < W) :
    wordIndex flags W e < W ∧ wordIndex flags W (wordIndex flags W e) = e := by
  unfold wordIndex
  split <;> omega

theorem word_eq_of_view_eq {host : Host} {flags : BitVec 64} {w w' : Words}
    (h : view host flags W w = view host flags W w') : ∀ i < W, w i = w' i := by
  intro i hi
  obtain ⟨hlt, hindex⟩ := wordIndex_wordIndex flags hi
  have hword := word_eq_of_number_eq h _ hlt
  rw [hindex] at hword
  rw [← host.maybeFlip_maybeFlip (w i), hword, host.maybeFlip_maybeFlip]

theorem toNat_of_no_words (hW : W = 0) (x : BitVec (32 * W)) : x.toNat = 0 := by
  have hpow : 2 ^ (32 * W) = 1 := by rw [hW, Nat.mul_zero, pow_zero]
  omega

theorem eq_of_no_words (hW : W = 0) (x y : BitVec (32 * W)) : x = y :=
  BitVec.eq_of_toNat_eq (by rw [toNat_of_no_words hW x, toNat_of_no_words hW y])

section Logic

variable {opCode : ColOpcode}

def logicOperator : ColOpcode → BitVec 32 → BitVec 32 → BitVec 32
  | .and => (· &&& ·)
  | .or => (· ||| ·)
  | _ => (· ^^^ ·)

def IsLogic (opCode : ColOpcode) : Prop := opCode = .and ∨ opCode = .or ∨ opCode = .xor

theorem logicOperator_associative (opCode : ColOpcode) :
    Std.Associative (logicOperator opCode) := by
  refine ⟨fun x y z => ?_⟩
  cases opCode <;> first
    | exact BitVec.and_assoc x y z
    | exact BitVec.or_assoc x y z
    | exact BitVec.xor_assoc x y z

theorem logicOperator_commutative (opCode : ColOpcode) :
    Std.Commutative (logicOperator opCode) := by
  refine ⟨fun x y => ?_⟩
  cases opCode <;> first
    | exact BitVec.and_comm x y
    | exact BitVec.or_comm x y
    | exact BitVec.xor_comm x y

section

variable (hop : IsLogic opCode)
include hop

theorem logicCombine_eq (u c : BitVec 32) :
    logicCombine opCode u c = some (logicOperator opCode u c) := by
  rcases hop with rfl | rfl | rfl <;> rfl

theorem logicOperator_init (c : BitVec 32) : logicOperator opCode (logicInit opCode) c = c := by
  rcases hop with rfl | rfl | rfl
  · exact BitVec.allOnes_and
  · exact BitVec.zero_or
  · exact BitVec.zero_xor

theorem logicWord_eq (a : Args) (e p : Nat) :
    logicWord a opCode e p = some ((combineAll (logicOperator opCode)
      ((List.range p).map fun q => a.element q e)).getD (logicInit opCode)) := by
  have hassoc := logicOperator_associative opCode
  induction p with
  | zero => rfl
  | succ p ih =>
    rw [logicWord, ih, bind_some, logicCombine_eq hop, List.range_succ,
      List.map_append, combineAll_append, List.map_singleton, combineAll_singleton]
    cases combineAll (logicOperator opCode) ((List.range p).map fun q => a.element q e) with
    | none => exact congrArg some (logicOperator_init hop _)
    | some u => rfl

theorem logicLoop_eq (a : Args) (Result : Words) (k : Nat) :
    (logicLoop a opCode Result k).1 = 0 ∧ ∀ e < k,
      some ((logicLoop a opCode Result k).2 e) = logicWord a opCode e a.numParticipants := by
  induction k with
  | zero => exact ⟨rfl, fun e he => absurd he (Nat.not_lt_zero e)⟩
  | succ k ih =>
    obtain ⟨hrc, hwords⟩ := ih
    obtain ⟨u, hu⟩ : ∃ u, logicWord a opCode k a.numParticipants = some u :=
      ⟨_, logicWord_eq hop a k _⟩
    simp only [logicLoop, hrc, hu, ne_eq, not_true_eq_false, if_false]
    refine ⟨trivial, fun e he => ?_⟩
    rcases Nat.lt_succ_iff_lt_or_eq.mp he with he | rfl
    · rw [update_of_ne (Nat.ne_of_lt he), hwords e he]
    · rw [update_self, hu]

end

def vector (W : Nat) (w : Words) : Fin W → BitVec 32 := fun i => w i

def vectorOperator (opCode : ColOpcode) (W : Nat) (x y : Fin W → BitVec 32) : Fin W → BitVec 32 :=
  fun i => logicOperator opCode (x i) (y i)

theorem logicOpScalarReduce_eq (hop : IsLogic opCode) (a : Args) (Result : Words)
    (hn : a.numParticipants ≠ 0) : ∃ Result', logicOpScalarReduce a opCode Result = (0, Result') ∧
      some (vector a.elementWords Result') = combineAll (vectorOperator opCode a.elementWords)
        ((List.range a.numParticipants).map fun p => vector a.elementWords (a.element p)) := by
  obtain ⟨hrc, hwords⟩ := logicLoop_eq hop a Result a.elementWords
  refine ⟨_, Prod.ext hrc rfl, ?_⟩
  have hnonempty : ((List.range a.numParticipants).map fun p =>
      vector a.elementWords (a.element p)) ≠ [] := by
    simpa using hn
  obtain ⟨r, hr⟩ := exists_combineAll (vectorOperator opCode a.elementWords) hnonempty
  rw [hr, some_inj]
  funext i
  -- component `i` of the vectors is what the loop computes for word `i`
  have hcomponent : Option.map (fun x : Fin a.elementWords → BitVec 32 => x i) (some r) =
      combineAll (logicOperator opCode)
        ((List.range a.numParticipants).map fun q => a.element q i) := by
    rw [← hr, map_combineAll (vectorOperator opCode a.elementWords) fun _ _ => rfl,
      List.map_map]
    rfl
  have hword := hwords i i.isLt
  rw [logicWord_eq hop, ← hcomponent] at hword
  exact some_inj.mp hword

end Logic

variable {m q : Nat} {pot : Nat → Bool}

section Selection

def IsSelection (opCode : ColOpcode) : Prop :=
  opCode = .u_min ∨ opCode = .u_max ∨ opCode = .min ∨ opCode = .max

/-- What the minimum is taken of -/
def selectionKey (opCode : ColOpcode) {m : Nat} (x : BitVec m) : Int :=
  match opCode with
  | .u_max => -x.toNat
  | .min => x.toInt
  | .max => -x.toInt
  | _ => x.toNat

theorem selectionKey_injective (opCode : ColOpcode) :
    Injective (selectionKey opCode (m := m)) := by
  intro x y h
  cases opCode <;> simp only [selectionKey] at h <;> first
    | exact BitVec.eq_of_toNat_eq (by omega)
    | exact BitVec.eq_of_toInt_eq (by omega)

def digitKey (opCode : ColOpcode) (e : Nat) (x : BitVec 32) : Int :=
  match opCode with
  | .u_max => -x.toNat
  | .min => if e = 0 then x.toInt else x.toNat
  | .max => -(if e = 0 then x.toInt else x.toNat)
  | _ => x.toNat

theorem digitKey_injective (opCode : ColOpcode) (e : Nat) :
    Injective (digitKey opCode e) := by
  intro x y h
  by_cases he : e = 0 <;> cases opCode <;>
    simp only [digitKey, he, if_true, if_false] at h <;> first
    | exact BitVec.eq_of_toNat_eq (by omega)
    | exact BitVec.eq_of_toInt_eq (by omega)

theorem newWinner_iff {opCode : ColOpcode} (hop : IsSelection opCode) (e : Nat)
    (x y : BitVec 32) : newWinner opCode e x y ↔ digitKey opCode e x < digitKey opCode e y := by
  rcases hop with rfl | rfl | rfl | rfl <;>
    by_cases he : e = 0 <;>
    simp [newWinner, digitKey, he, BitVec.ult, BitVec.slt]

variable (a : Args) (opCode : ColOpcode)

def prefixKey (p : Nat) : Nat → Int
  | 0 => 0
  | e + 1 => prefixKey p e * 2 ^ 32 + digitKey opCode e (a.pValue p e)

variable {a opCode}

theorem prefixKey_congr : ∀ {e : Nat}, (∀ i < e, a.pValue p i = a.pValue q i) →
      prefixKey a opCode p e = prefixKey a opCode q e
  | 0, _ => rfl
  | e + 1, h => by
      rw [prefixKey, prefixKey, prefixKey_congr fun i hi => h i (lt_succ_of_lt hi),
        h e (lt_succ_self e)]

theorem digitKey_sub_lt (hop : IsSelection opCode) (he : e ≠ 0) (x y : BitVec 32) :
    digitKey opCode e x - digitKey opCode e y < 2 ^ 32 := by
  rcases hop with rfl | rfl | rfl | rfl <;> simp only [digitKey, he, if_false] <;> omega

theorem prefixKey_lt_succ (hop : IsSelection opCode)
    (h : prefixKey a opCode p e < prefixKey a opCode q e) :
    prefixKey a opCode p (e + 1) < prefixKey a opCode q (e + 1) := by
  have he : e ≠ 0 := by
    rintro rfl
    exact absurd h (lt_irrefl 0)
  have hdigit := digitKey_sub_lt hop he (a.pValue p e) (a.pValue q e)
  simp only [prefixKey]
  omega

theorem prefixKey_unsigned (p e : Nat) :
    prefixKey a .u_min p e = leading (2 ^ 32) (fun i => (a.pValue p i).toNat) e ∧
      prefixKey a .u_max p e = -(leading (2 ^ 32) (fun i => (a.pValue p i).toNat) e : Nat) := by
  induction e with
  | zero => exact ⟨rfl, rfl⟩
  | succ e ih =>
    rw [prefixKey, prefixKey, ih.1, ih.2, leading]
    simp only [digitKey]
    omega

theorem prefixKey_signed (p e : Nat) :
    prefixKey a .min p (e + 1) = leading (2 ^ 32) (fun i => (a.pValue p i).toNat) (e + 1) -
        (if (a.pValue p 0).msb then (2 ^ 32) ^ (e + 1) else 0) ∧
      prefixKey a .max p (e + 1) = -prefixKey a .min p (e + 1) := by
  induction e with
  | zero =>
    simp only [prefixKey, digitKey, leading, if_true, BitVec.toInt_eq_msb_cond]
    split <;> simp
  | succ e ih =>
    have hmin : prefixKey a .min p (e + 1 + 1) = prefixKey a .min p (e + 1) * 2 ^ 32 +
        (a.pValue p (e + 1)).toNat := rfl
    have hmax : prefixKey a .max p (e + 1 + 1) = prefixKey a .max p (e + 1) * 2 ^ 32 +
        -(a.pValue p (e + 1)).toNat := rfl
    have hlead : leading (2 ^ 32) (fun i => (a.pValue p i).toNat) (e + 1 + 1) =
        leading (2 ^ 32) (fun i => (a.pValue p i).toNat) (e + 1) * 2 ^ 32 +
          (a.pValue p (e + 1)).toNat := rfl
    refine ⟨?_, by rw [hmax, ih.2, hmin]; ring⟩
    rw [hmin, ih.1, hlead, pow_succ _ (e + 1)]
    push_cast
    split <;> ring

theorem pValue_eq (p i : Nat) : a.pValue p i = a.host.maybeFlip (a.element p i) := rfl

theorem wordIndex_zero (W e : Nat) : wordIndex 0 W e = W - 1 - e := by
  simp [wordIndex, isNdOrder]

theorem toNat_view_element (p W : Nat) : (view a.host 0 W (a.element p)).toNat =
    leading (2 ^ 32) (fun i => (a.pValue p i).toNat) W := by
  rw [view, toNat_number, leading_eq_value]
  exact value_congr fun i _ => by rw [wordIndex_zero, pValue_eq]

theorem toInt_view_element (p W : Nat) :
    prefixKey a .min p W = (view a.host 0 W (a.element p)).toInt ∧
      prefixKey a .max p W = -(view a.host 0 W (a.element p)).toInt := by
  cases W with
  | zero =>
    have hzero : (view a.host 0 0 (a.element p)).toInt = 0 := rfl
    exact ⟨rfl, rfl⟩
  | succ W =>
    have hsign : (view a.host 0 (W + 1) (a.element p)).msb = (a.pValue p 0).msb := by
      rw [view, msb_number (by decide), wordIndex_zero, pValue_eq, Nat.add_sub_cancel,
        Nat.sub_self]
    rw [(prefixKey_signed p W).2, (prefixKey_signed p W).1, BitVec.toInt_eq_msb_cond, hsign,
      toNat_view_element, pow_mul]
    push_cast
    refine ⟨?_, ?_⟩ <;> split <;> ring

theorem prefixKey_eq_selectionKey (hop : IsSelection opCode) (p W : Nat) :
    prefixKey a opCode p W = selectionKey opCode (view a.host 0 W (a.element p)) := by
  rcases hop with rfl | rfl | rfl | rfl
  · rw [(prefixKey_unsigned p W).1, ← toNat_view_element]
    rfl
  · rw [(prefixKey_unsigned p W).2, ← toNat_view_element]
    rfl
  · exact (toInt_view_element p W).1
  · exact (toInt_view_element p W).2

/-- The loop over the participants for word `e`, with the potential winners `pot` at
its start, after the first `p` participants. -/
structure ContestInv (a : Args) (opCode : ColOpcode) (e : Nat) (pot : Nat → Bool) (p : Nat)
    (s : Contest) : Prop where
  value : s.winValue = a.pValue s.winParticipant e
  winner : s.winParticipant < a.numParticipants ∧ pot s.winParticipant
  later : ∀ q, p ≤ q → s.potentialWinner q = pot q
  earlier : ∀ q < p, (s.potentialWinner q ↔ pot q ∧ a.pValue q e = s.winValue)
  least : ∀ q < p, pot q → digitKey opCode e s.winValue ≤ digitKey opCode e (a.pValue q e)

theorem ContestInv.step (hop : IsSelection opCode) {s : Contest} (h : ContestInv a opCode e pot p s)
    (hp : p < a.numParticipants) :
    ContestInv a opCode e pot (p + 1) (contestStep a opCode e p s) := by
  have hpot := h.later p le_rfl
  -- what holds of the participants before `p` and of `p` itself holds of those before `p + 1`
  have hlast : ∀ {P : Nat → Prop}, (∀ q < p, P q) → P p → ∀ q < p + 1, P q := by
    intro P hbefore hself q hq
    rcases Nat.lt_succ_iff_lt_or_eq.mp hq with hq | rfl
    · exact hbefore q hq
    · exact hself
  have hmark : ∀ v : Bool, (v = true ↔ pot p ∧ a.pValue p e = s.winValue) →
      (pot p → digitKey opCode e s.winValue ≤ digitKey opCode e (a.pValue p e)) →
      ContestInv a opCode e pot (p + 1)
        { s with potentialWinner := update s.potentialWinner p v } := by
    intro v hv hle
    refine ⟨h.value, h.winner, fun q hq => ?_, ?_, hlast h.least hle⟩
    · exact (update_of_ne (by omega) ..).trans (h.later q (by omega))
    · refine hlast (fun q hq => ?_) (by simpa using hv)
      rw [← h.earlier q hq]
      exact iff_of_eq (congrArg (· = true) (update_of_ne (by omega) ..))
  unfold contestStep
  split
  · next hno =>
      rw [hpot] at hno
      refine ⟨h.value, h.winner, fun q hq => h.later q (by omega), ?_, ?_⟩
      · exact hlast h.earlier (by rw [hpot]; simp [hno])
      · exact hlast h.least fun hyes => absurd hyes hno
  next hyes =>
  rw [not_not, hpot] at hyes
  split
  · next hequal =>
      exact hmark true (by simp [hyes, hequal]) fun _ => le_of_eq (by rw [hequal])
  next hdiffers =>
  split
  · next hnew =>
      rw [newWinner_iff hop] at hnew
      refine ⟨rfl, ⟨hp, hyes⟩, fun q hq => ?_, ?_, ?_⟩
      · simp only [if_neg (by omega : ¬ q < p)]
        rw [update_of_ne (by omega), h.later q (by omega)]
      · refine hlast (fun q hq => ?_) ?_
        · simp only [if_pos hq, Bool.false_eq_true, false_iff, not_and]
          intro hq' hequal
          have hle := h.least q hq hq'
          rw [hequal] at hle
          omega
        · simp [hyes]
      · refine hlast (fun q hq hq' => ?_) fun _ => le_rfl
        exact le_trans (le_of_lt hnew) (h.least q hq hq')
  · next hworse =>
      rw [newWinner_iff hop] at hworse
      exact hmark false (by simp [hdiffers]) fun _ => Int.not_lt.mp hworse

theorem contestLoop_inv (hop : IsSelection opCode) {w : Nat} (hw : w < a.numParticipants)
    (hpot : pot w) : ∀ p ≤ a.numParticipants,
      ContestInv a opCode e pot p (contestLoop a opCode e ⟨a.pValue w e, w, pot⟩ p)
  | 0, _ => ⟨rfl, ⟨hw, hpot⟩, fun _ _ => rfl, fun q hq => absurd hq (Nat.not_lt_zero q),
      fun q hq => absurd hq (Nat.not_lt_zero q)⟩
  | p + 1, hp => (contestLoop_inv hop hw hpot p (by omega)).step hop (by omega)

/-- The loop over the words, after the first `e` of them: the potential winners are
those that agree with the winner so far, and all others have lost. -/
structure TournamentInv (a : Args) (opCode : ColOpcode) (e : Nat) (t : Tournament) : Prop where
  winner : t.winParticipant < a.numParticipants
  potential : ∀ q < a.numParticipants, (t.potentialWinner q ↔
    ∀ i < e, a.pValue q i = a.pValue t.winParticipant i)
  least : ∀ q < a.numParticipants, (∀ i < e, a.pValue q i = a.pValue t.winParticipant i) ∨
    prefixKey a opCode t.winParticipant e < prefixKey a opCode q e
  written : ∀ i < e, t.Result i = a.host.maybeFlip (a.pValue t.winParticipant i)

theorem TournamentInv.step (hop : IsSelection opCode) {t : Tournament}
    (h : TournamentInv a opCode e t) :
    TournamentInv a opCode (e + 1) (tournamentStep a opCode e t) := by
  have hself : t.potentialWinner t.winParticipant := (h.potential _ h.winner).mpr fun _ _ => rfl
  have hcontest := contestLoop_inv (e := e) hop h.winner hself a.numParticipants le_rfl
  unfold tournamentStep
  generalize contestLoop a opCode e ⟨a.pValue t.winParticipant e, t.winParticipant,
    t.potentialWinner⟩ a.numParticipants = s at hcontest
  obtain ⟨hvalue, ⟨hwinner, hpot⟩, -, hearlier, hleast⟩ := hcontest
  -- the old and the new winner agree on the words before
  have hagree := (h.potential _ hwinner).mp hpot
  have hkey : prefixKey a opCode s.winParticipant e = prefixKey a opCode t.winParticipant e :=
    prefixKey_congr hagree
  have htied : ∀ {q}, (∀ i < e + 1, a.pValue q i = a.pValue s.winParticipant i) ↔
      (∀ i < e, a.pValue q i = a.pValue t.winParticipant i) ∧ a.pValue q e = s.winValue := by
    intro q
    rw [hvalue]
    constructor
    · intro hq
      exact ⟨fun i hi => (hq i (by omega)).trans (hagree i hi), hq e (by omega)⟩
    · rintro ⟨hq, hlast⟩ i hi
      rcases Nat.lt_succ_iff_lt_or_eq.mp hi with hi | rfl
      · exact (hq i hi).trans (hagree i hi).symm
      · exact hlast
  refine ⟨hwinner, fun q hq => ?_, fun q hq => ?_, fun i hi => ?_⟩
  · rw [hearlier q hq, h.potential q hq, htied]
  · rw [htied]
    rcases h.least q hq with hq' | hlost
    · have hle := hleast q hq ((h.potential q hq).mpr hq')
      by_cases hequal : a.pValue q e = s.winValue
      · exact .inl ⟨hq', hequal⟩
      · right
        have hne : digitKey opCode e s.winValue ≠ digitKey opCode e (a.pValue q e) := fun heq =>
          hequal (digitKey_injective opCode e heq).symm
        simp only [prefixKey, hkey, prefixKey_congr hq', ← hvalue]
        omega
    · right
      rw [← hkey] at hlost
      exact prefixKey_lt_succ hop hlost
  · rcases Nat.lt_succ_iff_lt_or_eq.mp hi with hi | rfl
    · simp only [update_of_ne (Nat.ne_of_lt hi), h.written i hi, hagree i hi]
    · simp only [update_self, hvalue]

theorem tournament_inv (hop : IsSelection opCode) (Result : Words) (hn : a.numParticipants ≠ 0) :
    ∀ e, TournamentInv a opCode e (tournament a opCode Result e)
  | 0 => ⟨by simp only [tournament]; omega, fun q _ => by simp [tournament],
      fun q _ => .inl fun i hi => absurd hi (Nat.not_lt_zero i),
      fun i hi => absurd hi (Nat.not_lt_zero i)⟩
  | e + 1 => (tournament_inv hop Result hn e).step hop

theorem minORmaxScalarReduce_least (hop : IsSelection opCode) (Result : Words)
    (hn : a.numParticipants ≠ 0) :
    ∃ Result' w, minORmaxScalarReduce a opCode Result = (0, Result') ∧
      w < a.numParticipants ∧
      view a.host 0 a.elementWords Result' = view a.host 0 a.elementWords (a.element w) ∧
      ∀ p < a.numParticipants, selectionKey opCode (view a.host 0 a.elementWords (a.element w)) ≤
        selectionKey opCode (view a.host 0 a.elementWords (a.element p)) := by
  by_cases hwords : a.elementWords = 0
  · refine ⟨Result, 0, by rw [minORmaxScalarReduce, if_pos (.inr hwords)], Nat.pos_of_ne_zero hn,
      eq_of_no_words hwords _ _, ?_⟩
    intro p _
    rw [eq_of_no_words hwords (view _ _ _ (a.element 0))]
  have h := tournament_inv hop Result hn a.elementWords
  have hvalid : ¬ (opCode ≠ .u_min ∧ opCode ≠ .u_max ∧ opCode ≠ .min ∧ opCode ≠ .max) := by
    rcases hop with rfl | rfl | rfl | rfl <;> decide
  refine ⟨_, _, by rw [minORmaxScalarReduce, if_neg (by omega), if_neg hvalid], h.winner, ?_, ?_⟩
  · apply number_congr
    intro e he
    rw [h.written _ (wordIndex_wordIndex 0 he).1, Host.maybeFlip_maybeFlip, pValue_eq]
  · intro q hq
    rw [← prefixKey_eq_selectionKey hop, ← prefixKey_eq_selectionKey hop]
    rcases h.least q hq with htied | hlost
    · exact le_of_eq (prefixKey_congr htied).symm
    · exact le_of_lt hlost

theorem minORmaxScalarReduce_eq (hop : IsSelection opCode) (Result : Words)
    (hn : a.numParticipants ≠ 0) : ∃ Result', minORmaxScalarReduce a opCode Result = (0, Result') ∧
      some (view a.host 0 a.elementWords Result') = combineAll (pick (selectionKey opCode))
        ((List.range a.numParticipants).map fun p =>
          view a.host 0 a.elementWords (a.element p)) := by
  obtain ⟨Result', w, hreduce, hw, hview, hleast⟩ := minORmaxScalarReduce_least hop Result hn
  refine ⟨Result', hreduce, ?_⟩
  rw [hview, combineAll_pick (selectionKey_injective opCode)]
  · exact List.mem_map.mpr ⟨w, List.mem_range.mpr hw, rfl⟩
  · intro x hx
    obtain ⟨q, hq, rfl⟩ := List.mem_map.mp hx
    exact hleast q (List.mem_range.mp hq)

end Selection

section Addition

variable {a : Args}

theorem toNat_columnSum (carry : BitVec 32) (e : Nat) :
    ∀ {p : Nat}, p < 2 ^ 31 → (columnSum a carry e p).toNat = carry.toNat +
      ∑ q ∈ range p, (a.pValue q (wordIndex (a.flags q) a.elementWords e)).toNat ∧
        (columnSum a carry e p).toNat < (p + 1) * 2 ^ 32
  | 0, _ => by
      simp only [columnSum, BitVec.toNat_setWidth, range_zero, sum_empty]
      omega
  | p + 1, hp => by
      obtain ⟨hsum, hlt⟩ := toNat_columnSum carry e (p := p) (by omega)
      rw [columnSum, BitVec.toNat_add, BitVec.toNat_setWidth, mod_eq_of_lt (by omega),
        mod_eq_of_lt (by omega), sum_range_succ]
      omega

theorem u_addLoop_columns (hn : a.numParticipants < 2 ^ 31) (Result : Words) (e : Nat) :
    let sum := columnSum a (u_addLoop a Result e).1 e a.numParticipants
    ∑ p ∈ range a.numParticipants,
        (a.pValue p (wordIndex (a.flags p) a.elementWords e)).toNat +
          (u_addLoop a Result e).1.toNat =
      (sum.setWidth 32).toNat + (u_addLoop a Result (e + 1)).1.toNat * 2 ^ 32 := by
  intro sum
  have hsum : sum.toNat = _ := (toNat_columnSum (u_addLoop a Result e).1 e hn).1
  have hcarry : (u_addLoop a Result (e + 1)).1 = (sum >>> 32).setWidth 32 := rfl
  rw [hcarry, BitVec.toNat_setWidth, BitVec.toNat_setWidth, BitVec.toNat_ushiftRight,
    shiftRight_eq_div_pow, Nat.add_comm, ← hsum]
  have hfit : sum.toNat / 2 ^ 32 < 2 ^ 32 := by
    have := sum.isLt
    omega
  omega

theorem u_addLoop_eq (hn : a.numParticipants < 2 ^ 31) (Result : Words) :
    let total := ∑ p ∈ range a.numParticipants, (a.operand p).toNat
    (a.resultNumber (u_addLoop a Result a.elementWords).2).toNat =
        total % 2 ^ (32 * a.elementWords) ∧
      (u_addLoop a Result a.elementWords).1.toNat = total / 2 ^ (32 * a.elementWords) := by
  intro total
  have hcolumns := fun e (_ : e < a.elementWords) => u_addLoop_columns hn Result e
  have hdigits : ∀ e < a.elementWords, ((columnSum a (u_addLoop a Result e).1 e
      a.numParticipants).setWidth 32).toNat < 2 ^ 32 := fun e _ => BitVec.isLt _
  have htotal : total = ∑ p ∈ range a.numParticipants, value (2 ^ 32)
      (fun e => (a.pValue p (wordIndex (a.flags p) a.elementWords e)).toNat) a.elementWords :=
    sum_congr rfl fun p _ => toNat_number _ _
  have hresult : a.resultNumber (u_addLoop a Result a.elementWords).2 =
      number a.elementWords fun e =>
        (columnSum a (u_addLoop a Result e).1 e a.numParticipants).setWidth 32 := by
    apply number_congr
    intro e he
    have hwritten := written_eq (R := fun e => (u_addLoop a Result e).2) (fun _ => rfl) he
    simp only [hwritten, Host.maybeFlip_maybeFlip]
  rw [hresult, toNat_number, pow_mul, htotal]
  exact ⟨value_eq_mod (c := fun e => (u_addLoop a Result e).1.toNat) rfl hcolumns hdigits,
    carry_eq_div (c := fun e => (u_addLoop a Result e).1.toNat) rfl hcolumns hdigits⟩

/-- The exception of adding numbers: they do not fit. -/
def sumException {m : Nat} (xs : List (BitVec m)) : BitVec 64 :=
  if 2 ^ m ≤ (xs.map BitVec.toNat).sum then u_addOverflow else 0

theorem toNat_combineAll_add {xs : List (BitVec m)} {r : BitVec m}
    (h : combineAll (· + ·) xs = some r) : r.toNat = (xs.map BitVec.toNat).sum % 2 ^ m := by
  induction xs generalizing r with
  | nil => cases h
  | cons x xs ih =>
    rw [combineAll_cons] at h
    rw [List.map_cons, List.sum_cons]
    cases hxs : combineAll (· + ·) xs with
    | none =>
      have hnil : xs = [] := by
        by_contra hne
        obtain ⟨y, hy⟩ := exists_combineAll (· + ·) hne
        rw [hxs] at hy
        cases hy
      rw [hxs, merge_none_right] at h
      rw [← some_inj.mp h, hnil]
      exact (mod_eq_of_lt x.isLt).symm
    | some y =>
      rw [hxs, merge_some_some] at h
      rw [← some_inj.mp h, BitVec.toNat_add, ih hxs, add_mod_mod]

section

variable (hn : a.numParticipants < 2 ^ 31) (hpos : a.numParticipants ≠ 0) (Result : Words)
include hn hpos

theorem u_addScalarReduce_sum :
    let total := ∑ p ∈ range a.numParticipants, (a.operand p).toNat
    ∃ Result', u_addScalarReduce a .u_add Result =
        (if 2 ^ (32 * a.elementWords) ≤ total then u_addOverflow else 0, Result') ∧
      (a.resultNumber Result').toNat = total % 2 ^ (32 * a.elementWords) := by
  intro total
  by_cases hwords : a.elementWords = 0
  · have htotal : total = 0 := sum_eq_zero fun p _ => toNat_of_no_words hwords _
    refine ⟨Result, ?_, by rw [toNat_of_no_words hwords, htotal, zero_mod]⟩
    rw [u_addScalarReduce, if_pos (.inr hwords), htotal,
      if_neg (Nat.not_le.mpr (Nat.two_pow_pos _))]
  · obtain ⟨hresult, hcarry⟩ := u_addLoop_eq hn Result
    refine ⟨(u_addLoop a Result a.elementWords).2, ?_, hresult⟩
    rw [u_addScalarReduce, if_neg (by omega), if_neg (by decide)]
    simp only [carry_ne_zero_iff hcarry, total]

theorem u_addScalarReduce_eq : ∃ Result', u_addScalarReduce a .u_add Result =
        (sumException ((List.range a.numParticipants).map a.operand), Result') ∧
      some (a.resultNumber Result') =
        combineAll (· + ·) ((List.range a.numParticipants).map a.operand) := by
  have hnonempty : (List.range a.numParticipants).map a.operand ≠ [] := by
    simpa using hpos
  obtain ⟨r, hr⟩ := exists_combineAll (· + ·) hnonempty
  have htotal : (((List.range a.numParticipants).map a.operand).map BitVec.toNat).sum =
      ∑ p ∈ range a.numParticipants, (a.operand p).toNat := by
    rw [List.map_map]
    rfl
  obtain ⟨Result', hreduce, hresult⟩ := u_addScalarReduce_sum hn hpos Result
  refine ⟨Result', by rw [hreduce, sumException, htotal], ?_⟩
  rw [hr, some_inj]
  apply BitVec.eq_of_toNat_eq
  rw [hresult, toNat_combineAll_add hr, htotal]

end

/-- The operations on elements of any number of words are those on the numbers that the
words stand for. Without participants nothing is written. -/
theorem minORmax_u_add_exact (a : Args) (Result : Words) (hint : a.numParticipants < 2 ^ 31) :
    (a.numParticipants = 0 → ∀ opCode, minORmaxScalarReduce a opCode Result = (0, Result) ∧
      u_addScalarReduce a opCode Result = (0, Result)) ∧
    (a.numParticipants ≠ 0 →
      (∀ opCode, IsSelection opCode → ∃ Result',
        minORmaxScalarReduce a opCode Result = (0, Result') ∧
        (∃ p < a.numParticipants, view a.host 0 a.elementWords Result' =
          view a.host 0 a.elementWords (a.element p)) ∧
        ∀ p < a.numParticipants, selectionKey opCode (view a.host 0 a.elementWords Result') ≤
          selectionKey opCode (view a.host 0 a.elementWords (a.element p))) ∧
      let total := ∑ p ∈ range a.numParticipants, (a.operand p).toNat
      ∃ Result', u_addScalarReduce a .u_add Result =
          (if 2 ^ (32 * a.elementWords) ≤ total then u_addOverflow else 0, Result') ∧
        (a.resultNumber Result').toNat = total % 2 ^ (32 * a.elementWords)) := by
  constructor
  · intro hzero opCode
    rw [minORmaxScalarReduce, u_addScalarReduce, if_pos (.inl hzero), if_pos (.inl hzero)]
    exact ⟨rfl, rfl⟩
  · intro hn
    refine ⟨?_, u_addScalarReduce_sum hint hn Result⟩
    intro opCode hop
    obtain ⟨Result', w, hreduce, hw, hview, hleast⟩ := minORmaxScalarReduce_least hop Result hn
    exact ⟨Result', hreduce, ⟨w, hw, hview⟩, fun p hp => hview ▸ hleast p hp⟩

theorem minORmax_u_add_exact_twoWords :
    ∃ Result', minORmaxScalarReduce ⟨⟨true, 0⟩, 0, 2, 3, fun p _ => BitVec.ofNat 32 p, none, 0⟩
      .max (fun _ => 0) = (0, Result') := by
  obtain ⟨-, hexact⟩ := minORmax_u_add_exact
    ⟨⟨true, 0⟩, 0, 2, 3, fun p _ => BitVec.ofNat 32 p, none, 0⟩ (fun _ => 0) (by decide)
  obtain ⟨Result', hreduce, -⟩ := (hexact (by decide)).1 .max (.inr (.inr (.inr rfl)))
  exact ⟨Result', hreduce⟩

end Addition

end BgqDriver.NetworkReduce
