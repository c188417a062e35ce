import BgqDriver.Uci
import Mathlib.Data.List.TakeDrop

/-!
The form that each branch of `bg_string_to_uci` accepts, and what the code of a
component gives back.
-/

namespace BgqDriver.Uci

open FixedForms List Function

/-- The characters that a statement consumes and the numbers it stores.  What it skips
has been checked against the pattern. -/
def Step.parts (pattern : List Char) : Step → List (Piece Number)
  | .rack letter => [.lit letter, .one .row 0 31, .one .col 0 31]
  | .singleDigit n id lower upper => [.lit '-', .lit id, .one n lower upper]
  | .doubleDecimalDigits n id lower upper => [.lit '-', .lit id, .two n lower upper]
  | .skip count => (pattern.takeD count '*').map .lit

/-- The form of a branch: what its statements consume, and for what they leave the
characters of its pattern. -/
def formOf : List Step → List Char → List (Piece Number)
  | [], pattern => pattern.map .lit
  | step :: steps, pattern =>
    step.parts pattern ++ formOf steps (pattern.drop (shape (step.parts pattern)).length)

def Component.form (c : Component) : List (Piece Number) :=
  formOf c.steps c.pattern

def patternShape (pattern : List Char) : List (Option Char) :=
  pattern.map fun p => if p = '*' then none else some p

theorem shape_form (c : Component) : shape c.form = patternShape c.pattern := by
  cases c <;> rfl

theorem sound_form (c : Component) : Sound c.form := by
  cases c <;> decide

theorem vars_form (c : Component) : vars c.form = c.numbers := by
  cases c <;> rfl

theorem mem_branches (c : Component) : c ∈ branches := by
  cases c <;> decide

variable {c : Component} {s : List Char} {m lower upper : Nat} {n : Number} {p : Parse}
  {f g : Number → Nat} {rc : BitVec 32} {steps : List Step}

theorem clash_patterns {d : Component} (h : c ≠ d) :
    clash (patternShape c.pattern) (patternShape d.pattern) = true := by
  have hall : ∀ c ∈ branches, ∀ d ∈ branches, c ≠ d →
      clash (patternShape c.pattern) (patternShape d.pattern) = true := by
    decide +kernel
  exact hall c (mem_branches c) d (mem_branches d) h

theorem uciPatternMatches_iff (hs : '\x00' ∉ s) (pattern : List Char) :
    uciPatternMatches s pattern = true ↔ Fits (patternShape pattern) s := by
  induction pattern generalizing s with
  | nil =>
    cases s with
    | nil => simp [uciPatternMatches, cur, patternShape, Fits]
    | cons c s =>
      have hc : c ≠ '\x00' := fun h => hs (h ▸ mem_cons_self)
      simp [uciPatternMatches, cur, patternShape, Fits, hc]
  | cons p pattern ih =>
    cases s with
    | nil => simp [uciPatternMatches, cur, patternShape, Fits]
    | cons c s =>
      have hc : c ≠ '\x00' := fun h => hs (h ▸ mem_cons_self)
      have hrest := ih (s := s) fun h => hs (mem_cons_of_mem _ h)
      have hfits : Fits (patternShape (p :: pattern)) (c :: s) ↔
          (p = '*' ∨ p = c) ∧ Fits (patternShape pattern) s := by
        by_cases hp : p = '*' <;> simp [Fits, patternShape, hp]
      rw [hfits, ← hrest]
      by_cases hp : p = '*'
      · simp [uciPatternMatches, cur, hc, hp]
      · by_cases hpc : p = c <;> simp [uciPatternMatches, cur, hc, hp, hpc]

/-- A branch is taken exactly when its pattern fits: no string fits two of them. -/
theorem find?_branches (hs : '\x00' ∉ s) (c : Component) :
    (branches.find? fun c : Component => uciPatternMatches s c.pattern) =
      some c ↔ Fits (shape c.form) s := by
  rw [shape_form, ← uciPatternMatches_iff hs]
  constructor
  · exact fun h => find?_some (p := fun c : Component => uciPatternMatches s c.pattern) h
  · intro hmatch
    obtain ⟨d, hd⟩ : ∃ d, (branches.find? fun c : Component => uciPatternMatches s c.pattern) =
      some d := by
      apply Option.isSome_iff_exists.mp
      rw [find?_isSome]
      exact ⟨c, mem_branches c, hmatch⟩
    have hdmatch : uciPatternMatches s d.pattern = true :=
      find?_some (p := fun c : Component => uciPatternMatches s c.pattern) hd
    have hcd : d = c := by
      by_contra hne
      have hclash := clash_eq_false_of_fits ((uciPatternMatches_iff hs _).mp hdmatch)
        ((uciPatternMatches_iff hs _).mp hmatch)
      rw [clash_patterns hne] at hclash
      cases hclash
    rw [hd, hcd]

@[simp]
theorem cur_cons (c : Char) (s : List Char) : cur (c :: s) = c := rfl

theorem or_neg_one_ne_zero (rc : BitVec 32) : rc ||| -1 ≠ 0 := by
  intro h
  exact absurd (BitVec.or_eq_zero_iff.mp h).2 (by decide)

theorem decimal_digitChar (hm : m < 10) :
    '0' ≤ digitChar m ∧ digitChar m ≤ '9' ∧ (digitChar m).toNat - '0'.toNat = m := by
  revert m
  decide

theorem letter_digitChar (hm : m < 36) (hten : 10 ≤ m) :
    ¬ ('0' ≤ digitChar m ∧ digitChar m ≤ '9') ∧ 'A' ≤ digitChar m ∧ digitChar m ≤ 'Z' ∧
      (digitChar m).toNat - 'A'.toNat + 10 = m ∧ (digitChar m ≤ 'V' ↔ m ≤ 31) := by
  revert m
  decide

theorem parseRowCol_digitChar (n : Number) (hm : m ≤ 31) (s : List Char) (f : Number → Nat)
    (rc : BitVec 32) :
    parseRowCol n ⟨digitChar m :: s, f, rc⟩ = ⟨s, update f n m, rc⟩ := by
  by_cases hten : m < 10
  · obtain ⟨hlow, hhigh, hvalue⟩ := decimal_digitChar hten
    simp only [parseRowCol, cur_cons, hlow, hhigh, and_self, if_true, tail_cons, hvalue]
  · obtain ⟨hdec, hlow, -, hvalue, hv⟩ := letter_digitChar (m := m) (by omega) (by omega)
    simp only [parseRowCol, cur_cons, hdec, if_false, hlow, hv.mpr hm, and_self, if_true,
      tail_cons, hvalue]

theorem parseRowCol_rc_eq_zero {c : Char} (hstr : p.str = c :: s) (h : (parseRowCol n p).rc = 0) :
    p.rc = 0 ∧ ∃ m ≤ 31, c = digitChar m := by
  have hcur : cur p.str = c := by rw [hstr, cur_cons]
  by_cases hdec : '0' ≤ c ∧ c ≤ '9'
  · obtain ⟨m, hm, hc⟩ := digitChar_of_decimal hdec.1 hdec.2
    simp only [parseRowCol, hcur, hdec, and_self, if_true] at h
    exact ⟨h, m, by omega, hc⟩
  · by_cases hletter : 'A' ≤ c ∧ c ≤ 'V'
    · obtain ⟨m, hm, hten, rfl⟩ :=
        digitChar_of_letter hletter.1 (Char.le_trans hletter.2 (by decide))
      simp only [parseRowCol, hcur, hdec, if_false, hletter, and_self, if_true] at h
      exact ⟨h, m, (letter_digitChar hm hten).2.2.2.2.mp hletter.2, rfl⟩
    · simp only [parseRowCol, hcur, hdec, hletter, if_false] at h
      exact absurd h (or_neg_one_ne_zero p.rc)

theorem parseSingleDigit_digitChar (n : Number) (id : Char) (lower upper : Nat) (hm : m < 36)
    (s : List Char) (f : Number → Nat) (rc : BitVec 32) :
    parseSingleDigit n id lower upper ⟨'-' :: id :: digitChar m :: s, f, rc⟩ =
      parsed n lower upper m ⟨s, f, rc⟩ := by
  by_cases hten : m < 10
  · obtain ⟨hlow, hhigh, hvalue⟩ := decimal_digitChar hten
    simp only [parseSingleDigit, cur_cons, tail_cons, ne_eq, not_true, if_false, hlow,
      hhigh, and_self, if_true, hvalue]
  · obtain ⟨hdec, hlow, hhigh, hvalue, -⟩ := letter_digitChar hm (by omega)
    simp only [parseSingleDigit, cur_cons, tail_cons, ne_eq, not_true, if_false, hdec,
      hlow, hhigh, and_self, if_true, hvalue]

variable {id : Char} {a pattern : List Char} {str : CString}

theorem parseSingleDigit_rc_eq_zero {c : Char}
    (h : (parseSingleDigit n id lower upper ⟨'-' :: id :: c :: s, f, rc⟩).rc = 0) :
    ∃ m < 36, c = digitChar m := by
  by_cases hdec : '0' ≤ c ∧ c ≤ '9'
  · obtain ⟨m, hm, hc⟩ := digitChar_of_decimal hdec.1 hdec.2
    exact ⟨m, by omega, hc⟩
  · by_cases hletter : 'A' ≤ c ∧ c ≤ 'Z'
    · obtain ⟨m, hm, -, hc⟩ := digitChar_of_letter hletter.1 hletter.2
      exact ⟨m, hm, hc⟩
    · simp only [parseSingleDigit, cur_cons, tail_cons, ne_eq, not_true, if_false, hdec,
        hletter] at h
      exact absurd h (or_neg_one_ne_zero rc)

theorem parseDoubleDecimalDigits_digitChar (n : Number) (id : Char) (lower upper : Nat)
    {m0 m1 : Nat} (h0 : m0 < 10) (h1 : m1 < 10) (s : List Char) (f : Number → Nat)
    (rc : BitVec 32) : parseDoubleDecimalDigits n id lower upper
        ⟨'-' :: id :: digitChar m0 :: digitChar m1 :: s, f, rc⟩ =
      parsed n lower upper (m0 * 10 + m1) ⟨s, f, rc⟩ := by
  obtain ⟨hlow, hhigh, hvalue⟩ := decimal_digitChar h0
  obtain ⟨hlow', hhigh', hvalue'⟩ := decimal_digitChar h1
  simp only [parseDoubleDecimalDigits, cur_cons, tail_cons, ne_eq, not_true, if_false,
    hlow, hhigh, hlow', hhigh', and_self, if_true, hvalue, hvalue']

theorem parseDoubleDecimalDigits_rc_eq_zero {c0 c1 : Char}
    (h : (parseDoubleDecimalDigits n id lower upper ⟨'-' :: id :: c0 :: c1 :: s, f, rc⟩).rc = 0) :
    (∃ m < 10, c0 = digitChar m) ∧ ∃ m < 10, c1 = digitChar m := by
  by_cases h0 : '0' ≤ c0 ∧ c0 ≤ '9'
  · by_cases h1 : '0' ≤ c1 ∧ c1 ≤ '9'
    · exact ⟨digitChar_of_decimal h0.1 h0.2, digitChar_of_decimal h1.1 h1.2⟩
    · simp only [parseDoubleDecimalDigits, cur_cons, tail_cons, ne_eq, not_true, if_false,
        h0, h1, and_self, if_true] at h
      exact absurd h (or_neg_one_ne_zero rc)
  · simp only [parseDoubleDecimalDigits, cur_cons, tail_cons, ne_eq, not_true, if_false, h0] at h
    exact absurd h (or_neg_one_ne_zero rc)

theorem parsed_of_inRange (hlow : lower ≤ m) (hhigh : m ≤ upper) (p : Parse) :
    parsed n lower upper m p = { p with vars := update p.vars n m } := by
  have hin : ¬ (m < lower ∨ upper < m) := by omega
  simp [parsed, hin]

theorem parsed_rc_eq_zero (h : (parsed n lower upper m p).rc = 0) :
    p.rc = 0 ∧ lower ≤ m ∧ m ≤ upper := by
  obtain ⟨hrc, hif⟩ := BitVec.or_eq_zero_iff.mp h
  refine ⟨hrc, ?_⟩
  by_contra hout
  rw [if_pos (by omega)] at hif
  exact absurd hif (by decide)

namespace Step

theorem run_of_reads (step : Step) (pattern : List Char) (hsound : Sound (step.parts pattern))
    (h : Reads (step.parts pattern) a f) :
    step.run ⟨a ++ s, g, rc⟩ = ⟨s, assign (vars (step.parts pattern)) f g, rc⟩ := by
  obtain ⟨hrange, rfl⟩ := h
  cases step with
  | rack letter =>
    simp only [parts, InRange, forall_mem_cons, Piece.InRange] at hrange
    simp only [run, parts, text_cons, Piece.text, text_nil, cons_append, nil_append,
      parseRack, cur_cons, if_true, tail_cons]
    rw [parseRowCol_digitChar _ hrange.2.1.2, parseRowCol_digitChar _ hrange.2.2.1.2,
      update_eq_assign, update_eq_assign, assign_assign]
    rfl
  | singleDigit n id lower upper =>
    simp only [parts, InRange, forall_mem_cons, Piece.InRange] at hrange
    simp only [parts, Sound, forall_mem_cons, Piece.Sound] at hsound
    simp only [run, parts, text_cons, Piece.text, text_nil, cons_append, nil_append]
    rw [parseSingleDigit_digitChar n id lower upper (by omega),
      parsed_of_inRange hrange.2.2.1.1 hrange.2.2.1.2, update_eq_assign]
    rfl
  | doubleDecimalDigits n id lower upper =>
    simp only [parts, InRange, forall_mem_cons, Piece.InRange] at hrange
    simp only [parts, Sound, forall_mem_cons, Piece.Sound] at hsound
    simp only [run, parts, text_cons, Piece.text, text_nil, cons_append, nil_append]
    rw [parseDoubleDecimalDigits_digitChar n id lower upper (by omega) (by omega),
      show f n / 10 * 10 + f n % 10 = f n by omega,
      parsed_of_inRange hrange.2.2.1.1 hrange.2.2.1.2, update_eq_assign]
    rfl
  | skip count =>
    have hlen : (text ((pattern.takeD count '*').map .lit) f).length = count := by
      rw [text_lits, takeD_length]
    rw [parts, vars_lits, assign_nil, run, drop_left' hlen]

theorem exists_rc_run (step : Step) (p : Parse) : ∃ bits, (step.run p).rc = p.rc ||| bits := by
  have hrowCol (n : Number) (p : Parse) : ∃ bits, (parseRowCol n p).rc = p.rc ||| bits := by
    unfold parseRowCol
    dsimp only
    split_ifs
    · exact ⟨0, BitVec.or_zero.symm⟩
    · exact ⟨0, BitVec.or_zero.symm⟩
    · exact ⟨-1, rfl⟩
  cases step with
  | rack letter =>
    simp only [run, parseRack]
    split_ifs
    · obtain ⟨x, hx⟩ := hrowCol .row { p with str := p.str.tail }
      obtain ⟨y, hy⟩ := hrowCol .col (parseRowCol .row { p with str := p.str.tail })
      exact ⟨x ||| y, by rw [hy, hx, BitVec.or_assoc]⟩
    · exact ⟨-1, rfl⟩
  | singleDigit n id lower upper =>
    simp only [run, parseSingleDigit]
    split_ifs <;> exact ⟨_, rfl⟩
  | doubleDecimalDigits n id lower upper =>
    simp only [run, parseDoubleDecimalDigits]
    split_ifs <;> exact ⟨_, rfl⟩
  | skip count => exact ⟨0, BitVec.or_zero.symm⟩

theorem rc_eq_zero_of_run {step : Step} (h : (step.run p).rc = 0) : p.rc = 0 := by
  obtain ⟨bits, hbits⟩ := step.exists_rc_run p
  rw [hbits] at h
  exact (BitVec.or_eq_zero_iff.mp h).1

theorem reads_of_run (step : Step) (pattern : List Char)
    (hfits : Fits (shape (step.parts pattern)) a) (h : (step.run ⟨a ++ s, g, rc⟩).rc = 0) :
    ∃ f, Reads (step.parts pattern) a f := by
  cases step with
  | rack letter =>
    obtain ⟨c, d, rfl⟩ : ∃ c d, a = [letter, c, d] := by
      rcases hfits with _ | ⟨hl, _ | ⟨-, _ | ⟨-, ⟨⟩⟩⟩⟩
      exact ⟨_, _, by rw [hl letter rfl]⟩
    simp only [run, parseRack, cons_append, nil_append, cur_cons, if_true, tail_cons] at h
    obtain ⟨hrow, m', hm', hd⟩ := parseRowCol_rc_eq_zero (by
      unfold parseRowCol
      dsimp only
      split_ifs <;> rfl) h
    obtain ⟨-, m, hm, rfl⟩ := parseRowCol_rc_eq_zero rfl hrow
    subst hd
    refine ⟨update (fun _ => m') .row m, ?_, rfl⟩
    simp [InRange, parts, Piece.InRange, update, hm, hm']
  | singleDigit n id lower upper =>
    obtain ⟨c, rfl⟩ : ∃ c, a = ['-', id, c] := by
      rcases hfits with _ | ⟨hdash, _ | ⟨hid, _ | ⟨-, ⟨⟩⟩⟩⟩
      exact ⟨_, by rw [hdash '-' rfl, hid id rfl]⟩
    obtain ⟨m, hm, rfl⟩ := parseSingleDigit_rc_eq_zero h
    rw [run, cons_append, cons_append, cons_append,
      parseSingleDigit_digitChar n id lower upper hm] at h
    obtain ⟨-, hlow, hhigh⟩ := parsed_rc_eq_zero h
    refine ⟨fun _ => m, ?_, rfl⟩
    simp [InRange, parts, Piece.InRange, hlow, hhigh]
  | doubleDecimalDigits n id lower upper =>
    obtain ⟨c0, c1, rfl⟩ : ∃ c0 c1, a = ['-', id, c0, c1] := by
      rcases hfits with _ | ⟨hdash, _ | ⟨hid, _ | ⟨-, _ | ⟨-, ⟨⟩⟩⟩⟩⟩
      exact ⟨_, _, by rw [hdash '-' rfl, hid id rfl]⟩
    obtain ⟨⟨m0, h0, rfl⟩, m1, h1, rfl⟩ := parseDoubleDecimalDigits_rc_eq_zero h
    rw [run, cons_append, cons_append, cons_append, cons_append,
      parseDoubleDecimalDigits_digitChar n id lower upper h0 h1] at h
    obtain ⟨-, hlow, hhigh⟩ := parsed_rc_eq_zero h
    refine ⟨fun _ => m0 * 10 + m1, ?_, ?_⟩
    · simp [InRange, parts, Piece.InRange, hlow, hhigh]
    · have htens : (m0 * 10 + m1) / 10 = m0 := by omega
      have hunits : (m0 * 10 + m1) % 10 = m1 := by omega
      simp only [parts, text_cons, Piece.text, text_nil, htens, hunits, cons_append, nil_append]
  | skip count => exact ⟨fun _ => 0, reads_lits hfits _⟩

end Step

theorem runSteps_cons (step : Step) (steps : List Step) (p : Parse) :
    runSteps (step :: steps) p = runSteps steps (step.run p) := rfl

theorem rc_eq_zero_of_runSteps (h : (runSteps steps p).rc = 0) : p.rc = 0 := by
  induction steps generalizing p with
  | nil => exact h
  | cons step steps ih => exact Step.rc_eq_zero_of_run (ih h)

theorem runSteps_of_reads (hsound : Sound (formOf steps pattern))
    (h : Reads (formOf steps pattern) s f) (g : Number → Nat) (rc : BitVec 32) :
    ∃ rest, runSteps steps ⟨s, g, rc⟩ =
      ⟨rest, assign (vars (formOf steps pattern)) f g, rc⟩ := by
  induction steps generalizing pattern s g with
  | nil => exact ⟨s, by rw [formOf, vars_lits, assign_nil]; rfl⟩
  | cons step steps ih =>
    rw [formOf, sound_append] at hsound
    rw [formOf, reads_append] at h
    obtain ⟨a, t, rfl, ha, ht⟩ := h
    rw [runSteps_cons, step.run_of_reads pattern hsound.1 ha]
    obtain ⟨rest, hrest⟩ := ih hsound.2 ht (assign (vars (step.parts pattern)) f g)
    exact ⟨rest, by rw [hrest, assign_assign, formOf, vars_append]⟩

theorem reads_of_runSteps (hsound : Sound (formOf steps pattern))
    (hnodup : (vars (formOf steps pattern)).Nodup) (hfits : Fits (shape (formOf steps pattern)) s)
    (h : (runSteps steps ⟨s, g, rc⟩).rc = 0) : ∃ f, Reads (formOf steps pattern) s f := by
  induction steps generalizing pattern s g with
  | nil => exact ⟨g, reads_lits hfits g⟩
  | cons step steps ih =>
    rw [formOf, sound_append] at hsound
    rw [formOf, vars_append, nodup_append] at hnodup
    rw [formOf, fits_shape_append] at hfits
    obtain ⟨a, t, rfl, ha, ht⟩ := hfits
    rw [runSteps_cons] at h
    obtain ⟨f1, hf1⟩ := step.reads_of_run pattern ha (rc_eq_zero_of_runSteps h)
    rw [step.run_of_reads pattern hsound.1 hf1] at h
    obtain ⟨f2, hf2⟩ := ih hsound.2 hnodup.2.1 ht h
    exact ⟨_, hf1.append hf2 fun v hv hv' => hnodup.2.2 v hv v hv' rfl⟩

theorem nodup_vars_form (c : Component) : (vars c.form).Nodup := by
  cases c <;> decide

theorem Component.bgEncodeUci_congr (h : ∀ n ∈ c.numbers, f n = g n) :
    c.bgEncodeUci f = c.bgEncodeUci g := by
  apply foldl_ext
  intro uci n hn
  rw [h n hn]

theorem bgStringToUci_of_reads (h : Reads c.form str.chars f) :
    bgStringToUci str = (0, c.bgEncodeUci f) := by
  obtain ⟨rest, hrun⟩ := runSteps_of_reads (sound_form c) h (fun _ => 0) 0
  rw [bgStringToUci, (find?_branches str.noNull c).mpr h.fits]
  dsimp only
  rw [hrun]
  congr 1
  apply Component.bgEncodeUci_congr
  intro n hn
  rw [← vars_form] at hn
  exact assign_of_mem hn f fun _ => 0

theorem exists_reads_of_bgStringToUci (h : (bgStringToUci str).1 = 0) :
    ∃ c f, Reads (Component.form c) str.chars f := by
  rw [bgStringToUci] at h
  cases hfind : branches.find? fun c : Component => uciPatternMatches str.chars c.pattern with
  | none =>
    rw [hfind] at h
    cases (by decide : (-1 : BitVec 32) ≠ 0) h
  | some c =>
    rw [hfind] at h
    obtain ⟨f, hf⟩ := reads_of_runSteps (sound_form c) (nodup_vars_form c)
      ((find?_branches str.noNull c).mp hfind) h
    exact ⟨c, f, hf⟩

end BgqDriver.Uci
