import BgqDriver.FixedForms
import BgqDriver.HardwareLocation

/-!
The forms of the location strings that `Location::set` accepts.
-/

namespace BgqDriver.HardwareLocation

open FixedForms List Option Bool

def computeRackForm : List (Piece Member) :=
  [.lit 'R', .one .rackRow 0 31, .one .rackColumn 0 31]

def ioRackForm : List (Piece Member) :=
  [.lit 'Q', .one .rackRow 0 31, .one .rackColumn 0 31]

def dashed (letter : Char) (number : Piece Member) : List (Piece Member) :=
  [.lit '-', .lit letter, number]

def midplaneForm : List (Piece Member) :=
  computeRackForm ++ dashed 'M' (.one .midplane 0 1)

def nodeBoardForm : List (Piece Member) :=
  midplaneForm ++ dashed 'N' (.two .nodeBoard 0 15)

def ioBoardOnComputeForm : List (Piece Member) :=
  computeRackForm ++ dashed 'I' (.one .ioBoard 12 15)

def ioBoardOnIoForm : List (Piece Member) :=
  ioRackForm ++ dashed 'I' (.one .ioBoard 0 11)

def Branch.form : Branch → List (Piece Member)
  | .computeRack => computeRackForm
  | .ioRack => ioRackForm
  | .bulkPowerSupplyOnComputeRack => computeRackForm ++ dashed 'B' (.one .bulkPowerSupply 0 3)
  | .powerModuleOnComputeRack =>
    computeRackForm ++ dashed 'B' (.one .bulkPowerSupply 0 3) ++
      dashed 'P' (.one .powerModule 0 8)
  | .bulkPowerSupplyInIoRack => ioRackForm ++ [.lit '-', .lit 'B']
  | .powerModuleOnIoRack =>
    ioRackForm ++ [.lit '-', .lit 'B'] ++ dashed 'P' (.one .powerModule 0 5)
  | .midplane => midplaneForm
  | .serviceCard => midplaneForm ++ [.lit '-', .lit 'S']
  | .clockCardOnCompute => computeRackForm ++ [.lit '-', .lit 'K']
  | .clockCardOnIo => ioRackForm ++ dashed 'K' (.one .clockCard 0 1)
  | .ioBoardOnCompute => ioBoardOnComputeForm
  | .ioBoardOnIo => ioBoardOnIoForm
  | .nodeboard => nodeBoardForm
  | .computeOnNodeboard => nodeBoardForm ++ dashed 'J' (.two .computeCard 0 31)
  | .computeOnIoBoard => ioBoardOnIoForm ++ dashed 'J' (.two .computeCard 0 7)
  | .computeOnIoBoardInComputeRack => ioBoardOnComputeForm ++ dashed 'J' (.two .computeCard 0 7)
  | .coreOnNodeboard =>
    nodeBoardForm ++ dashed 'J' (.two .computeCard 0 31) ++ dashed 'C' (.two .core 0 16)
  | .coreOnIoBoard =>
    ioBoardOnIoForm ++ dashed 'J' (.two .computeCard 0 7) ++ dashed 'C' (.two .core 0 16)
  | .dca => nodeBoardForm ++ dashed 'D' (.one .dca 0 1)
  | .pci => ioBoardOnIoForm ++ dashed 'A' (.one .pciAdapterCard 0 7)
  | .linkOnNodeboard => nodeBoardForm ++ dashed 'U' (.two .linkModule 0 8)
  | .linkOnIoBoardInIoRack => ioBoardOnIoForm ++ dashed 'U' (.two .linkModule 0 5)
  | .linkOnIoBoardInComputeRack => ioBoardOnComputeForm ++ dashed 'U' (.two .linkModule 0 5)
  | .opticalOnNodeboard => nodeBoardForm ++ dashed 'O' (.two .opticalModule 0 35)
  | .opticalOnIoBoard => ioBoardOnIoForm ++ dashed 'O' (.two .opticalModule 0 23)
  | .fanAssemblyInComputeRack => ioBoardOnComputeForm ++ dashed 'H' (.one .fanAssembly 0 2)
  | .fanAssemblyInIoRack => ioBoardOnIoForm ++ dashed 'H' (.one .fanAssembly 0 2)
  | .fanInComputeRack =>
    ioBoardOnComputeForm ++ dashed 'H' (.one .fanAssembly 0 2) ++ dashed 'F' (.one .fan 0 1)
  | .fanInIoRack =>
    ioBoardOnIoForm ++ dashed 'H' (.one .fanAssembly 0 2) ++ dashed 'F' (.one .fan 0 1)
  | .leakDetectorInComputeRack => computeRackForm ++ [.lit '-', .lit 'L']
  | .switch => [.one .switchDimension 10 13, .lit '_'] ++ midplaneForm
  | .ioLinkOnNodeBoard =>
    [.lit 'I', .lit '_'] ++ nodeBoardForm ++ dashed 'T' (.two .port 0 11)
  | .allNodeBoardsOnMidplane => midplaneForm ++ [.lit '-', .lit 'N']

def Bracket.Alnum (b : Bracket) : Prop :=
  ∀ range ∈ b, ('0' ≤ range.1 ∧ range.2 ≤ '9') ∨ ('A' ≤ range.1 ∧ range.2 ≤ 'Z')

def Bracket.Decimal (b : Bracket) : Prop :=
  ∀ range ∈ b, '0' ≤ range.1 ∧ range.2 ≤ '9'

instance (b : Bracket) : Decidable b.Alnum :=
  decidableBAll _ b

instance (b : Bracket) : Decidable b.Decimal :=
  decidableBAll _ b

variable {b b0 b1 : Bracket} {c : Char} {n start x y i : Nat} {rest s a given location : List Char}
  {f : Member → Nat} {brackets : List Bracket} {loc : Location} {q : Piece Member}
  {extracts : List Extract} {form : List (Piece Member)} {regex : Regex} {starts : List Nat}

theorem Bracket.digit_of_accepts (hb : b.Alnum) (h : b.accepts c = true) :
    ∃ n < 36, c = digitChar n := by
  obtain ⟨range, hrange, hin⟩ := any_eq_true.mp h
  simp only [and_eq_true, decide_eq_true_eq] at hin
  rcases hb range hrange with hdec | hletter
  · obtain ⟨n, hn, hc⟩ := digitChar_of_decimal (Char.le_trans hdec.1 hin.1)
      (Char.le_trans hin.2 hdec.2)
    exact ⟨n, by omega, hc⟩
  · obtain ⟨n, hn, -, hc⟩ := digitChar_of_letter (Char.le_trans hletter.1 hin.1)
      (Char.le_trans hin.2 hletter.2)
    exact ⟨n, hn, hc⟩

theorem Bracket.decimal_of_accepts (hb : b.Decimal) (h : b.accepts c = true) :
    ∃ n < 10, c = digitChar n := by
  obtain ⟨range, hrange, hin⟩ := any_eq_true.mp h
  simp only [and_eq_true, decide_eq_true_eq] at hin
  have hdec := hb range hrange
  exact digitChar_of_decimal (Char.le_trans hdec.1 hin.1) (Char.le_trans hin.2 hdec.2)

def Describes (type : HwType) : List Bracket → Extract → Piece Member → Prop
  | [b], .char m, .one v lo hi =>
    m = v ∧ b.Alnum ∧ hi < 36 ∧
      ∀ n < 36, b.accepts (digitChar n) = true ↔ lo ≤ n ∧ n ≤ hi
  | [b], .oneDigit m, .one v lo hi =>
    m = v ∧ b.Decimal ∧ hi < 10 ∧
      ∀ n < 10, b.accepts (digitChar n) = true ↔ lo ≤ n ∧ n ≤ hi
  | [b0, b1], .twoDigits m limit _, .two v lo hi =>
    m = v ∧ b0.Decimal ∧ b1.Decimal ∧ hi < 100 ∧
      ∀ x < 10, ∀ y < 10,
        (b0.accepts (digitChar x) = true ∧ b1.accepts (digitChar y) = true ∧
            (limit type).any (· ≤ 10 * x + y) = false) ↔
          lo ≤ 10 * x + y ∧ 10 * x + y ≤ hi
  | [b], .dimension, .one v lo hi =>
    v = .switchDimension ∧ b.Alnum ∧ 10 ≤ lo ∧ hi ≤ 13 ∧
      ∀ n < 36, b.accepts (digitChar n) = true ↔ lo ≤ n ∧ n ≤ hi
  | _, _, _ => False

instance (type : HwType) (brackets : List Bracket) (e : Extract) (q : Piece Member) :
    Decidable (Describes type brackets e q) := by
  unfold Describes
  split <;> infer_instance

def DescribesAll (type : HwType) : Regex → List Extract → List (Piece Member) → Prop
  | [], [], [] => True
  | .lit c :: regex, extracts, .lit d :: form => c = d ∧ DescribesAll type regex extracts form
  | .group brackets :: regex, e :: extracts, q :: form =>
    Describes type brackets e q ∧ DescribesAll type regex extracts form
  | _, _, _ => False

def decideDescribesAll (type : HwType) : (regex : Regex) → (extracts : List Extract) →
    (form : List (Piece Member)) → Decidable (DescribesAll type regex extracts form)
  | [], [], [] => isTrue trivial
  | .lit c :: regex, extracts, .lit d :: form =>
    have := decideDescribesAll type regex extracts form
    inferInstanceAs (Decidable (c = d ∧ DescribesAll type regex extracts form))
  | .group brackets :: regex, e :: extracts, q :: form =>
    have := decideDescribesAll type regex extracts form
    inferInstanceAs (Decidable (Describes type brackets e q ∧
      DescribesAll type regex extracts form))
  | [], _ :: _, _ => isFalse id
  | [], [], _ :: _ => isFalse id
  | .lit _ :: _, _, [] => isFalse (by unfold DescribesAll; exact id)
  | .lit _ :: _, _, .one _ _ _ :: _ => isFalse (by unfold DescribesAll; exact id)
  | .lit _ :: _, _, .two _ _ _ :: _ => isFalse (by unfold DescribesAll; exact id)
  | .group _ :: _, [], _ => isFalse (by unfold DescribesAll; exact id)
  | .group _ :: _, _ :: _, [] => isFalse (by unfold DescribesAll; exact id)

instance (type : HwType) (regex : Regex) (extracts : List Extract) (form : List (Piece Member)) :
    Decidable (DescribesAll type regex extracts form) :=
  decideDescribesAll type regex extracts form

theorem describesAll_form (b : Branch) : DescribesAll b.type b.regex b.extracts b.form := by
  cases b <;> decide +kernel

theorem decimal_value (hn : n < 10) : (digitChar n).toNat - '0'.toNat = n := by
  revert n
  decide

theorem parseCharToNum_digitChar (hn : n < 36) : parseCharToNum (digitChar n) = n := by
  revert n
  decide

theorem dimension_digitChar (hlow : 10 ≤ n) (hhigh : n ≤ 13) :
    digitChar n = 'A' ∨ digitChar n = 'B' ∨ digitChar n = 'C' ∨ digitChar n = 'D' := by
  obtain rfl | rfl | rfl | rfl : n = 10 ∨ n = 11 ∨ n = 12 ∨ n = 13 := by omega
  all_goals decide

theorem getD_eq_of_drop (h : s.drop start = c :: rest) : s.getD start '\x00' = c := by
  rw [getD_eq_getElem?_getD, ← head?_drop, h]
  rfl

theorem Location.store_eq (loc : Location) (m : Member) (hf : f m < 256) :
    loc.store m (f m) = { loc with numbers := assign [m] f loc.numbers } := by
  rw [store, Nat.mod_eq_of_lt hf, update_eq_assign]

section Groups

variable {type : HwType} {e : Extract} {v : Member} {lo hi : Nat}

theorem Describes.kinds (hd : Describes type brackets e q) :
    (∃ b v lo hi, brackets = [b] ∧ q = .one v lo hi) ∨
      ∃ b0 b1 v lo hi, brackets = [b0, b1] ∧ q = .two v lo hi := by
  unfold Describes at hd
  split at hd
  · exact .inl ⟨_, _, _, _, rfl, rfl⟩
  · exact .inl ⟨_, _, _, _, rfl, rfl⟩
  · exact .inr ⟨_, _, _, _, _, rfl, rfl⟩
  · exact .inl ⟨_, _, _, _, rfl, rfl⟩
  · exact hd.elim

section

variable (hd : Describes type [b] e (.one v lo hi))
include hd

theorem Describes.lt_of_one : hi < 36 := by
  cases e with
  | char m => exact hd.2.2.1
  | oneDigit m => exact lt_trans hd.2.2.1 (by decide)
  | twoDigits m limit what => exact hd.elim
  | dimension => exact lt_of_le_of_lt hd.2.2.2.1 (by decide)

theorem Describes.accepts_iff (c : Char) :
    b.accepts c = true ↔ ∃ n, (lo ≤ n ∧ n ≤ hi) ∧ c = digitChar n := by
  have hiff : ∀ m, hi < m → (b.accepts c = true → ∃ n < m, c = digitChar n) →
      (∀ n < m, b.accepts (digitChar n) = true ↔ lo ≤ n ∧ n ≤ hi) →
        (b.accepts c = true ↔ ∃ n, (lo ≤ n ∧ n ≤ hi) ∧ c = digitChar n) := by
    intro m hm hdigit htable
    constructor
    · intro h
      obtain ⟨n, hn, rfl⟩ := hdigit h
      exact ⟨n, (htable n hn).mp h, rfl⟩
    · rintro ⟨n, hn, rfl⟩
      exact (htable n (by omega)).mpr hn
  have hlt := hd.lt_of_one
  cases e with
  | char m => exact hiff 36 hlt (Bracket.digit_of_accepts hd.2.1) hd.2.2.2
  | oneDigit m => exact hiff 10 hd.2.2.1 (Bracket.decimal_of_accepts hd.2.1) hd.2.2.2
  | twoDigits m limit what => exact hd.elim
  | dimension => exact hiff 36 hlt (Bracket.digit_of_accepts hd.2.1) hd.2.2.2.2

theorem Describes.run_one (hn : lo ≤ n ∧ n ≤ hi)
    (hloc : loc.location.drop start = digitChar n :: rest) (given : List Char) :
    e.run given start loc = (loc.store v n, none) := by
  have hlt := hd.lt_of_one
  have hchar := getD_eq_of_drop hloc
  cases e with
  | char m =>
    obtain ⟨rfl, -⟩ := hd
    rw [Extract.run, hchar, parseCharToNum_digitChar (by omega)]
  | oneDigit m =>
    obtain ⟨rfl, -, hten, -⟩ := hd
    have hcast : lexicalCast [digitChar n] = n := by
      rw [lexicalCast, foldl_cons, foldl_nil, decimal_value (by omega)]
      omega
    rw [Extract.run, hloc, take_succ_cons, take_zero, hcast]
  | twoDigits m limit what => exact hd.elim
  | dimension =>
    obtain ⟨rfl, -, hlow, hhigh, -⟩ := hd
    rw [Extract.run, hchar, parseCharToNum_digitChar (by omega),
      if_pos (dimension_digitChar (by omega) (by omega))]

end

section

variable (hd : Describes type [b0, b1] e (.two v lo hi))
include hd

theorem Describes.lt_of_two : hi < 100 := by
  cases e with
  | twoDigits m limit what => exact hd.2.2.2.1
  | char m | oneDigit m | dimension => exact hd.elim

theorem Describes.digits_of_two {c0 c1 : Char}
    (h0 : b0.accepts c0 = true) (h1 : b1.accepts c1 = true) :
    (∃ x < 10, c0 = digitChar x) ∧ ∃ y < 10, c1 = digitChar y := by
  cases e with
  | twoDigits m limit what =>
    exact ⟨Bracket.decimal_of_accepts hd.2.1 h0, Bracket.decimal_of_accepts hd.2.2.1 h1⟩
  | char m | oneDigit m | dimension => exact hd.elim

theorem Describes.accepts_two (hn : lo ≤ n ∧ n ≤ hi) :
    b0.accepts (digitChar (n / 10)) = true ∧ b1.accepts (digitChar (n % 10)) = true := by
  have hlt := hd.lt_of_two
  cases e with
  | twoDigits m limit what =>
    obtain ⟨-, -, -, -, htable⟩ := hd
    have hsplit : 10 * (n / 10) + n % 10 = n := by omega
    obtain ⟨h0, h1, -⟩ := (htable (n / 10) (by omega) (n % 10) (by omega)).mpr
      (by rw [hsplit]; exact hn)
    exact ⟨h0, h1⟩
  | char m | oneDigit m | dimension => exact hd.elim

omit hd in
theorem run_twoDigits (hx : x < 10) (hy : y < 10)
    (hloc : loc.location.drop start = digitChar x :: digitChar y :: rest) (given : List Char)
    (m : Member) (limit : HwType → Option Nat) (what : String) :
    Extract.run given start loc (.twoDigits m limit what) =
      if (limit loc.type).any (· ≤ 10 * x + y) = true then
        (loc.store m (10 * x + y), some (notValidMessage loc.location
          s!", the {what} position is too large"))
      else (loc.store m (10 * x + y), none) := by
  have hcast : lexicalCast [digitChar x, digitChar y] = 10 * x + y := by
    rw [lexicalCast, foldl_cons, foldl_cons, foldl_nil, decimal_value hx, decimal_value hy]
    omega
  have hnumber : (loc.store m (10 * x + y)).numbers m = 10 * x + y := by
    simp only [Location.store, Function.update_self]
    omega
  rw [Extract.run, hloc, take_succ_cons, take_succ_cons, take_zero, hcast, hnumber]
  rfl

theorem Describes.run_two (hx : x < 10) (hy : y < 10) (htype : loc.type = type)
    (hloc : loc.location.drop start = digitChar x :: digitChar y :: rest) (given : List Char)
    (hin : lo ≤ 10 * x + y ∧ 10 * x + y ≤ hi) :
    e.run given start loc = (loc.store v (10 * x + y), none) := by
  cases e with
  | twoDigits m limit what =>
    obtain ⟨rfl, -, -, -, htable⟩ := hd
    obtain ⟨-, -, hlimit⟩ := (htable x hx y hy).mpr hin
    rw [run_twoDigits hx hy hloc, htype, hlimit, if_neg Bool.false_ne_true]
  | char m | oneDigit m | dimension => exact hd.elim

theorem Describes.inRange_of_run (hx : x < 10)
    (hy : y < 10) (h0 : b0.accepts (digitChar x) = true) (h1 : b1.accepts (digitChar y) = true)
    (htype : loc.type = type) (hloc : loc.location.drop start = digitChar x :: digitChar y :: rest)
    (hnone : (e.run given start loc).2 = none) : lo ≤ 10 * x + y ∧ 10 * x + y ≤ hi := by
  cases e with
  | twoDigits m limit what =>
    obtain ⟨rfl, -, -, -, htable⟩ := hd
    rw [run_twoDigits hx hy hloc, htype] at hnone
    refine (htable x hx y hy).mp ⟨h0, h1, ?_⟩
    split at hnone
    case isTrue => cases hnone
    case isFalse hlimit => exact eq_false_iff.mpr hlimit
  | char m | oneDigit m | dimension => exact hd.elim

end

section

variable (hd : Describes type brackets e q)
include hd

theorem Describes.matches_of_reads (h : Reads [q] a f) : a.length = brackets.length ∧
      (brackets.zip a).all (fun entry => entry.1.accepts entry.2) = true := by
  obtain ⟨hrange, rfl⟩ := h
  have hq := hrange q mem_cons_self
  rcases hd.kinds with ⟨b, v, lo, hi, rfl, rfl⟩ | ⟨b0, b1, v, lo, hi, rfl, rfl⟩
  · have haccepts := (hd.accepts_iff _).mpr ⟨f v, hq, rfl⟩
    exact ⟨rfl, by simp [text_cons, Piece.text, haccepts]⟩
  · have hlt := hd.lt_of_two
    obtain ⟨h0, h1⟩ := hd.accepts_two hq
    exact ⟨rfl, by simp [text_cons, Piece.text, h0, h1]⟩

theorem Describes.run_of_reads (h : Reads [q] a f)
    (htype : loc.type = type) (hloc : loc.location.drop start = a ++ rest) (given : List Char) :
    e.run given start loc = ({ loc with numbers := assign (vars [q]) f loc.numbers }, none) := by
  obtain ⟨hrange, rfl⟩ := h
  have hq := hrange q mem_cons_self
  rcases hd.kinds with ⟨b, v, lo, hi, rfl, rfl⟩ | ⟨b0, b1, v, lo, hi, rfl, rfl⟩
  · have hlt := hd.lt_of_one
    simp only [Piece.InRange] at hq
    rw [hd.run_one hq hloc given, Location.store_eq loc v (by omega)]
    rfl
  · have hlt := hd.lt_of_two
    simp only [Piece.InRange] at hq
    have hsplit : 10 * (f v / 10) + f v % 10 = f v := by omega
    have hrun := hd.run_two (by omega) (by omega) htype hloc given (by rw [hsplit]; exact hq)
    rw [hrun, hsplit, Location.store_eq loc v (by omega)]
    rfl

theorem Describes.exists_reads (hlen : a.length = brackets.length)
    (hall : (brackets.zip a).all (fun entry => entry.1.accepts entry.2) = true)
    (htype : loc.type = type) (hloc : loc.location.drop start = a ++ rest)
    (hnone : (e.run given start loc).2 = none) : ∃ f, Reads [q] a f := by
  rcases hd.kinds with ⟨b, v, lo, hi, rfl, rfl⟩ | ⟨b0, b1, v, lo, hi, rfl, rfl⟩
  · obtain ⟨c, rfl⟩ := length_eq_one_iff.mp hlen
    have haccepts : b.accepts c = true := by simpa using hall
    obtain ⟨n, hn, rfl⟩ := (hd.accepts_iff c).mp haccepts
    exact ⟨fun _ => n, by simpa [InRange, Piece.InRange] using hn, rfl⟩
  · obtain ⟨c0, c1, rfl⟩ := length_eq_two.mp hlen
    obtain ⟨h0, h1⟩ : b0.accepts c0 = true ∧ b1.accepts c1 = true := by simpa using hall
    obtain ⟨⟨x, hx, rfl⟩, y, hy, rfl⟩ := hd.digits_of_two h0 h1
    have hin := hd.inRange_of_run hx hy h0 h1 htype hloc hnone
    refine ⟨fun _ => 10 * x + y, by simpa [InRange, Piece.InRange] using hin, ?_⟩
    have htens : (10 * x + y) / 10 = x := by omega
    have hunits : (10 * x + y) % 10 = y := by omega
    simp only [text_cons, Piece.text, text_nil, htens, hunits, append_nil]

end

end Groups

theorem Describes.length_shape {type : HwType} {e : Extract} (hd : Describes type brackets e q) :
    q.shape = replicate brackets.length none := by
  rcases hd.kinds with ⟨b, v, lo, hi, rfl, rfl⟩ | ⟨b0, b1, v, lo, hi, rfl, rfl⟩ <;> rfl

theorem zip_append_right (hlen : a.length = brackets.length) (rest : List Char) :
    brackets.zip (a ++ rest) = brackets.zip a := by
  have hzip : (brackets ++ []).zip (a ++ rest) = brackets.zip a ++ [].zip rest :=
    zip_append hlen.symm
  rwa [append_nil, zip_nil_left, append_nil] at hzip

theorem regexec_group : regexec (.group brackets :: regex) s i = some starts ↔
      ∃ a rest starts', s = a ++ rest ∧ a.length = brackets.length ∧
        (brackets.zip a).all (fun entry => entry.1.accepts entry.2) = true ∧
        regexec regex rest (i + brackets.length) = some starts' ∧ starts = i :: starts' := by
  rw [regexec]
  constructor
  · intro h
    split at h
    case isFalse => cases h
    case isTrue hmatch =>
      obtain ⟨starts', hrest, rfl⟩ := map_eq_some_iff.mp h
      have hlen : (s.take brackets.length).length = brackets.length :=
        length_take_of_le hmatch.1
      refine ⟨s.take brackets.length, s.drop brackets.length, starts',
        (take_append_drop _ s).symm, hlen, ?_, hrest, rfl⟩
      rw [← zip_append_right hlen (s.drop brackets.length), take_append_drop]
      exact hmatch.2
  · rintro ⟨a, rest, starts', rfl, hlen, hall, hrest, rfl⟩
    rw [if_pos ⟨by rw [length_append]; omega, by rwa [zip_append_right hlen]⟩,
      ← hlen, drop_left, hlen, hrest, map_some]

theorem regexec_lit : regexec (.lit c :: regex) s i = some starts ↔
      ∃ rest, s = c :: rest ∧ regexec regex rest (i + 1) = some starts := by
  cases s with
  | nil => simp [regexec]
  | cons x s =>
    by_cases hx : x = c
    all_goals simp [regexec, hx]

theorem regexec_nil : regexec [] s i = some starts ↔ s = [] ∧ starts = [] := by
  cases s with
  | nil => simp [regexec, eq_comm]
  | cons x s => simp [regexec]

section Expressions

variable {type : HwType}

section

variable (hd : DescribesAll type regex extracts form)
include hd

theorem fits_of_regexec (h : regexec regex s i = some starts) : Fits (shape form) s := by
  fun_induction DescribesAll type regex extracts form generalizing s i starts with
  | case1 =>
    rw [(regexec_nil.mp h).1]
    exact Forall₂.nil
  | case2 c regex extracts d form ih =>
    obtain ⟨rfl, hrest⟩ := hd
    obtain ⟨rest, rfl, hregex⟩ := regexec_lit.mp h
    exact Forall₂.cons (fun x hx => (some.inj hx).symm) (ih hrest hregex)
  | case3 brackets regex e extracts q form ih =>
    obtain ⟨a, rest, starts', rfl, hlen, -, hregex, -⟩ := regexec_group.mp h
    refine rel_append ?_ (ih hd.2 hregex)
    rw [hd.1.length_shape, ← hlen]
    exact forall₂_iff_get.mpr ⟨by simp, fun i _ _ x hx => by simp at hx⟩
  | case4 => exact hd.elim

theorem runExtracts_of_reads (h : Reads form s f)
    (i : Nat) : ∃ starts, regexec regex s i = some starts ∧
      ∀ (given : List Char) (loc : Location), loc.type = type → loc.location.drop i = s →
        runExtracts given extracts starts loc =
          ({ loc with numbers := assign (vars form) f loc.numbers }, none) := by
  fun_induction DescribesAll type regex extracts form generalizing s i with
  | case1 =>
    refine ⟨[], regexec_nil.mpr ⟨h.2.symm, rfl⟩, ?_⟩
    intro given loc htype hloc
    rfl
  | case2 c regex extracts d form ih =>
    obtain ⟨rfl, hrest⟩ := hd
    obtain ⟨_, rest, rfl, ⟨-, rfl⟩, hreads⟩ := reads_cons.mp h
    obtain ⟨starts, hstarts, hrun⟩ := ih hrest hreads (i + 1)
    refine ⟨starts, regexec_lit.mpr ⟨rest, rfl, hstarts⟩, ?_⟩
    intro given loc htype hloc
    refine hrun given loc htype ?_
    rw [← drop_drop, hloc]
    rfl
  | case3 brackets regex e extracts q form ih =>
    obtain ⟨a, rest, rfl, ha, hreads⟩ := reads_cons.mp h
    obtain ⟨hlen, hall⟩ := hd.1.matches_of_reads ha
    obtain ⟨starts, hstarts, hrun⟩ := ih hd.2 hreads (i + brackets.length)
    refine ⟨i :: starts, regexec_group.mpr ⟨a, rest, starts, rfl, hlen, hall, hstarts, rfl⟩, ?_⟩
    intro given loc htype hloc
    rw [runExtracts, hd.1.run_of_reads ha htype hloc given]
    have hdrop : loc.location.drop (i + brackets.length) = rest := by
      rw [← drop_drop, hloc, ← hlen, drop_left]
    refine (hrun given { loc with numbers := assign (vars [q]) f loc.numbers }
      htype hdrop).trans ?_
    rw [assign_assign, ← vars_append]
    rfl
  | case4 => exact hd.elim

theorem reads_of_runExtracts
    (hnodup : (vars form).Nodup) (h : regexec regex s i = some starts) (htype : loc.type = type)
    (hloc : loc.location.drop i = s) (hnone : (runExtracts given extracts starts loc).2 = none) :
    ∃ f, Reads form s f := by
  fun_induction DescribesAll type regex extracts form generalizing s i starts loc with
  | case1 =>
    rw [(regexec_nil.mp h).1]
    exact ⟨fun _ => 0, fun p hp => absurd hp not_mem_nil, rfl⟩
  | case2 c regex extracts d form ih =>
    obtain ⟨rfl, hrest⟩ := hd
    obtain ⟨rest, rfl, hregex⟩ := regexec_lit.mp h
    have hdrop : loc.location.drop (i + 1) = rest := by
      rw [← drop_drop, hloc]
      rfl
    obtain ⟨f, hf⟩ := ih hrest hnodup hregex htype hdrop hnone
    exact ⟨f, reads_cons.mpr
      ⟨[c], rest, rfl, reads_lits (l := [c]) (fits_text [.lit c] f) f, hf⟩⟩
  | case3 brackets regex e extracts q form ih =>
    obtain ⟨a, rest, starts', rfl, hlen, hall, hregex, rfl⟩ := regexec_group.mp h
    rw [← singleton_append, vars_append, nodup_append] at hnodup
    rw [runExtracts] at hnone
    have hfirst : (e.run given i loc).2 = none := by
      revert hnone
      rcases e.run given i loc with ⟨loc', _ | error⟩
      · exact fun _ => rfl
      · exact fun hnone => hnone
    obtain ⟨f1, hf1⟩ := hd.1.exists_reads hlen hall htype hloc hfirst
    rw [hd.1.run_of_reads hf1 htype hloc given] at hnone
    have hdrop : loc.location.drop (i + brackets.length) = rest := by
      rw [← drop_drop, hloc, ← hlen, drop_left]
    have htype' : Location.type { loc with numbers := assign (vars [q]) f1 loc.numbers } =
        type := htype
    obtain ⟨f2, hf2⟩ := ih hd.2 hnodup.2.1 hregex htype' hdrop hnone
    exact ⟨_, hf1.append hf2 fun v hv hv' => hnodup.2.2 v hv v hv' rfl⟩
  | case4 => exact hd.elim

end

end Expressions

theorem mem_branches (b : Branch) : b ∈ branches := by
  cases b <;> decide

theorem nodup_vars_form (b : Branch) : (vars b.form).Nodup := by
  cases b <;> decide

theorem sound_form (b : Branch) : Sound b.form := by
  cases b <;> decide

theorem length_shape_form (b : Branch) : (shape b.form).length = b.length := by
  cases b <;> rfl

theorem Branch.type_ne_notValid (b : Branch) : b.type ≠ .notValid := by
  cases b <;> decide

theorem clash_forms {b d : Branch} (h : b ≠ d) : clash (shape b.form) (shape d.form) = true := by
  have hall : ∀ b ∈ branches, ∀ d ∈ branches, b ≠ d →
      clash (shape b.form) (shape d.form) = true := by
    decide +kernel
  exact hall b (mem_branches b) d (mem_branches d) h

theorem eq_of_fits {b d : Branch} (hb : Fits (shape b.form) s) (hd : Fits (shape d.form) s) :
    b = d := by
  by_contra hne
  have hclash := clash_eq_false_of_fits hb hd
  rw [clash_forms hne] at hclash
  cases hclash

theorem Fits.length_eq {sh : List (Option Char)} (h : Fits sh s) : s.length = sh.length :=
  (Forall₂.length_eq h).symm

section

variable (hs : '\x00' ∉ s)
include hs

theorem cstr_eq : cstr s = s := by
  apply takeWhile_eq_self_iff.mpr
  intro c hc
  exact decide_eq_true fun h => hs (h ▸ hc)

theorem Branch.matches?_eq_some {b : Branch} :
    b.matches? s = some starts ↔ regexec b.regex s 0 = some starts := by
  rw [Branch.matches?, cstr_eq hs]
  constructor
  · intro h
    split at h
    case isTrue => exact h
    case isFalse => cases h
  · intro h
    have hlen := Fits.length_eq (fits_of_regexec (describesAll_form b) h)
    rw [if_pos (by rw [hlen, length_shape_form]), h]

theorem findSome?_branches {b : Branch} :
    (branches.findSome? fun b => (b.matches? s).map (b, ·)) = some (b, starts) ↔
      regexec b.regex s 0 = some starts := by
  have hfound : ∀ {d starts'}, (branches.findSome? fun b => (b.matches? s).map (b, ·)) =
      some (d, starts') → regexec d.regex s 0 = some starts' := by
    intro d starts' h
    obtain ⟨d', -, hd⟩ := exists_of_findSome?_eq_some h
    obtain ⟨starts'', hmatch, hpair⟩ := map_eq_some_iff.mp hd
    obtain ⟨rfl, rfl⟩ := Prod.mk.inj hpair
    exact (Branch.matches?_eq_some hs).mp hmatch
  refine ⟨hfound, fun h => ?_⟩
  have hb := (Branch.matches?_eq_some hs).mpr h
  cases hfind : branches.findSome? fun b => (b.matches? s).map (b, ·) with
  | none =>
    have hnone := List.findSome?_eq_none_iff.mp hfind b (mem_branches b)
    rw [hb] at hnone
    cases hnone
  | some entry =>
    obtain ⟨d, starts'⟩ := entry
    have hregex := hfound hfind
    obtain rfl := eq_of_fits (fits_of_regexec (describesAll_form d) hregex)
      (fits_of_regexec (describesAll_form b) h)
    rw [h] at hregex
    rw [some.inj hregex]

theorem null_not_mem_trimCopy : '\x00' ∉ trimCopy s := by
  intro h
  have hkept := rdropWhile_prefix _ _ |>.subset h
  exact hs ((dropWhile_sublist _).subset hkept)

end

theorem Location.set_of_reads (hs : '\x00' ∉ trimCopy location) {b : Branch}
    (h : Reads b.form (trimCopy location) f) (loc : Location) (throwsSpec : ThrowsSpec) :
    loc.set location throwsSpec =
      ({ location := trimCopy location, type := b.type, rackType := b.rackType,
         numbers := assign (vars b.form) f loc.numbers }, none) := by
  obtain ⟨starts, hstarts, hrun⟩ := runExtracts_of_reads (describesAll_form b) h 0
  rw [Location.set]
  rw [(findSome?_branches hs).mpr hstarts]
  exact hrun location _ rfl rfl

theorem Location.exists_reads_of_accepts (hs : '\x00' ∉ location) {throwsSpec : ThrowsSpec}
    (h : loc.Accepts location throwsSpec) : ∃ b f, Reads (Branch.form b) (trimCopy location) f := by
  obtain ⟨hnone, hvalid⟩ := h
  rw [Location.set] at hnone hvalid
  cases hfind : branches.findSome? fun b => (b.matches? (trimCopy location)).map (b, ·) with
  | none =>
    rw [hfind] at hnone hvalid
    dsimp only at hnone hvalid
    split at hvalid <;> exact absurd rfl hvalid
  | some entry =>
    obtain ⟨b, starts⟩ := entry
    rw [hfind] at hnone
    have hregex := (findSome?_branches (null_not_mem_trimCopy hs)).mp hfind
    obtain ⟨f, hf⟩ := reads_of_runExtracts (describesAll_form b) (nodup_vars_form b) hregex
      rfl rfl hnone
    exact ⟨b, f, hf⟩

theorem Location.accepts_iff (hs : '\x00' ∉ location) (loc : Location) (throwsSpec : ThrowsSpec) :
    loc.Accepts location throwsSpec ↔ ∃ b f, Reads (Branch.form b) (trimCopy location) f := by
  refine ⟨Location.exists_reads_of_accepts hs, ?_⟩
  rintro ⟨b, f, h⟩
  have hset := Location.set_of_reads (null_not_mem_trimCopy hs) h loc throwsSpec
  refine ⟨by rw [hset], ?_⟩
  rw [hset]
  exact b.type_ne_notValid

/-- The string names a piece of hardware, with every number within its bounds. -/
def IsLocation (location : List Char) : Prop :=
  ∃ (b : Branch) (f : Member → Nat), Reads b.form (trimCopy location) f

/-- The string has the length of a hardware type and matches its expression. -/
def InPattern (location : List Char) : Prop :=
  ∃ (b : Branch) (starts : List Nat), b.matches? (trimCopy location) = some starts

theorem Branch.noNull_of_matches? {b : Branch} (h : b.matches? s = some starts) : '\x00' ∉ s := by
  rw [Branch.matches?] at h
  split at h
  case isTrue hlen =>
    have hfits := Fits.length_eq (fits_of_regexec (describesAll_form b) h)
    rw [length_shape_form, ← hlen] at hfits
    have hfirst : s.takeWhile (· ≠ '\x00') <+: s := takeWhile_prefix _
    have hall := takeWhile_eq_self_iff.mp (hfirst.eq_of_length hfits)
    exact fun hmem => absurd (hall _ hmem) (by decide)
  case isFalse => cases h

/-- Without the exception of a bad location, a string is handled as it should be unless it
matches an expression with a number that is too large: that is thrown in either mode, and
the type has been set before. -/
theorem Location.set_nothrow_iff (loc : Location) (location : List Char) :
    ((loc.set location .nothrow).2 = none ∧
      (¬ IsLocation location → (loc.set location .nothrow).1.type = .notValid)) ↔
        (InPattern location → IsLocation location) := by
  cases hfind : branches.findSome? fun b => (b.matches? (trimCopy location)).map (b, ·) with
  | none =>
    have hset : loc.set location .nothrow =
        ({ loc with location := trimCopy location, type := .notValid, rackType := .notValid },
          none) := by
      rw [Location.set]
      rw [hfind]
      rfl
    rw [hset]
    refine iff_of_true ⟨rfl, fun _ => rfl⟩ ?_
    rintro ⟨b, starts, hmatch⟩
    have hnone := List.findSome?_eq_none_iff.mp hfind b (mem_branches b)
    rw [hmatch] at hnone
    cases hnone
  | some entry =>
    obtain ⟨b, starts⟩ := entry
    obtain ⟨d, -, hd⟩ := exists_of_findSome?_eq_some hfind
    obtain ⟨starts', hmatch, -⟩ := map_eq_some_iff.mp hd
    have hnull := Branch.noNull_of_matches? hmatch
    have hpattern : InPattern location := ⟨d, starts', hmatch⟩
    rw [imp_iff_right hpattern]
    constructor
    · rintro ⟨hnone, -⟩
      rw [Location.set] at hnone
      rw [hfind] at hnone
      obtain ⟨f, hf⟩ := reads_of_runExtracts (describesAll_form b) (nodup_vars_form b)
        ((findSome?_branches hnull).mp hfind) rfl rfl hnone
      exact ⟨b, f, hf⟩
    · rintro ⟨b, f, h⟩
      refine ⟨?_, fun hnot => absurd ⟨b, f, h⟩ hnot⟩
      rw [Location.set_of_reads hnull h]

theorem not_forall_set_nothrow : ¬ ∀ (loc : Location) (location : List Char),
    (loc.set location .nothrow).2 = none ∧
      (¬ IsLocation location → (loc.set location .nothrow).1.type = .notValid) := by
  intro hall
  have hthrows : (Location.set ⟨[], .notValid, .notValid, fun _ => 0⟩ "R00-M0-N16".toList
      .nothrow).2.isSome = true := by
    decide +kernel
  rw [(hall _ _).1] at hthrows
  cases hthrows

end BgqDriver.HardwareLocation
