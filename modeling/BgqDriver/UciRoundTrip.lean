import BgqDriver.UciForms
import Mathlib.Data.Set.Function

/-!
Which location strings survive the way through their code.
-/

namespace BgqDriver.Uci

open FixedForms List Option
open PackedWords

def Number.field (n : Number) : Field := ⟨63 - n.bits.2, n.bits.1⟩

def componentField : Field := ⟨58, 6⟩

variable {w : Nat} {n : Number}

theorem mask_eq (hw : 0 < w) (hle : w ≤ 6) (b : Nat) :
    (2#64 <<< (w - 1)) - 1 = Field.mask 64 ⟨63 - b, w⟩ := by
  have hall : ∀ w ≤ 6, 0 < w → (2#64 <<< (w - 1)) - 1 = BitVec.ofNat 64 (2 ^ w - 1) := by decide
  exact hall w hle hw

section

variable (n : Number)

theorem Number.width_pos : 0 < n.bits.1 := by
  cases n <;> decide

theorem Number.width_le : n.bits.1 ≤ 6 := by
  cases n <;> decide

theorem Number.field_fits : n.field.offset + n.field.width ≤ 64 := by
  cases n <;> decide

theorem Number.field_width_le : n.field.width ≤ 64 := by
  cases n <;> decide

theorem Number.bgUciSet_eq (x : Nat) : n.bgUciSet x = n.field.place (BitVec.ofNat 64 x) := by
  rw [bgUciSet, bgqSet, mask_eq n.width_pos n.width_le n.bits.2]
  rfl

theorem Number.bgUciGet_eq (uci : BitVec 64) : n.bgUciGet uci = (n.field.fetch uci).toNat := by
  rw [bgUciGet, bgqGet, mask_eq n.width_pos n.width_le n.bits.2]
  rfl

end

variable {c : Component} {f : Number → Nat} {s : CString}

namespace Component

/-- The fields of a component's code with the values they are given. -/
def fields (c : Component) (f : Number → Nat) : List (Field × BitVec 64) :=
  (componentField, BitVec.ofNat 64 c.code) ::
    c.numbers.map fun n => (n.field, BitVec.ofNat 64 (f n))

theorem bgEncodeUci_eq_pack (c : Component) (f : Number → Nat) :
    c.bgEncodeUci f = pack (c.fields f) := by
  rw [bgEncodeUci, fields, pack, foldl_cons, foldl_map]
  simp only [Number.bgUciSet_eq]
  rfl

theorem pairwise_apart (c : Component) (f : Number → Nat) :
    (c.fields f).Pairwise fun a b => Field.Apart a.1 b.1 := by
  have hmap : (c.fields f).map Prod.fst = componentField :: c.numbers.map Number.field := by
    simp [fields, Function.comp_def]
  rw [← pairwise_map (f := Prod.fst), hmap]
  cases c <;> decide

theorem toNat_cut (hw : w ≤ 64) (x : Nat) : (BitVec.ofNat 64 x).toNat % 2 ^ w = x % 2 ^ w := by
  rw [BitVec.toNat_ofNat, Nat.mod_mod_of_dvd x (Nat.pow_dvd_pow 2 hw)]

theorem bgUciGetComponent_bgEncodeUci (c : Component) (f : Number → Nat) :
    bgUciGetComponent (c.bgEncodeUci f) = c.code := by
  change (componentField.fetch _).toNat = _
  rw [bgEncodeUci_eq_pack, fetch_pack (c.pairwise_apart f) mem_cons_self (by decide),
    Field.toNat_and_mask _ (by decide), toNat_cut (by decide)]
  cases c <;> rfl

theorem bgUciGet_bgEncodeUci (hn : n ∈ c.numbers) (f : Number → Nat) :
    n.bgUciGet (c.bgEncodeUci f) = f n % 2 ^ n.width := by
  have hmem : (n.field, BitVec.ofNat 64 (f n)) ∈ c.fields f :=
    mem_cons_of_mem _ (List.mem_map_of_mem hn)
  rw [Number.bgUciGet_eq, bgEncodeUci_eq_pack, fetch_pack (c.pairwise_apart f) hmem n.field_fits,
    Field.toNat_and_mask _ n.field_width_le, toNat_cut n.field_width_le]
  rfl

theorem bgEncodeUci_cut (c : Component) (f : Number → Nat) :
    c.bgEncodeUci (fun n => f n % 2 ^ n.width) = c.bgEncodeUci f := by
  apply foldl_ext
  intro uci n hn
  rw [Number.bgUciSet_eq, Number.bgUciSet_eq, ← Field.place_and_mask,
    ← Field.place_and_mask _ (BitVec.ofNat 64 (f n))]
  congr 2
  apply BitVec.eq_of_toNat_eq
  rw [Field.toNat_and_mask _ n.field_width_le, Field.toNat_and_mask _ n.field_width_le,
    toNat_cut n.field_width_le, toNat_cut n.field_width_le]
  exact Nat.mod_mod _ _

end Component

def Printed.parts : Printed → List (Piece Number)
  | .rack l => [.lit l, .one .row 0 0, .one .col 0 0]
  | .oneDigit l n => [.lit '-', .lit l, .one n 0 0]
  | .twoDigits l n => [.lit '-', .lit l, .two n 0 0]
  | .zeroAndDigit l n => [.lit '-', .lit l, .two n 0 0]
  | .letter l => [.lit '-', .lit l]

theorem bare_printed (c : Component) :
    (c.printed.flatMap Printed.parts).map Piece.bare = c.form.map Piece.bare := by
  cases c <;> rfl

def Printed.IsLink (c : Component) : Printed → Prop
  | .zeroAndDigit _ n => n = .link ∧ .link ∈ c.numbers
  | _ => True

instance (c : Component) : DecidablePred (Printed.IsLink c) := fun p => by
  cases p <;> unfold Printed.IsLink <;> infer_instance

theorem isLink_printed (c : Component) : ∀ p ∈ c.printed, p.IsLink c := by
  cases c <;> decide

theorem chars_printed (c : Component) {uci : BitVec 64}
    (hlink : .link ∈ c.numbers → Number.link.bgUciGet uci < 10) :
    c.printed.flatMap (Printed.chars uci) = text c.form fun n => n.bgUciGet uci := by
  have hpiece (p : Printed) (hp : p.IsLink c) :
      p.chars uci = text p.parts fun n => n.bgUciGet uci := by
    cases p with
    | zeroAndDigit l n =>
      obtain ⟨rfl, hmem⟩ := hp
      simp only [Printed.chars, Printed.parts, text_cons, Piece.text, text_nil,
        Nat.div_eq_of_lt (hlink hmem), Nat.mod_eq_of_lt (hlink hmem), cons_append,
        nil_append]
      rfl
    | rack l | oneDigit l n | twoDigits l n | letter l => rfl
  have hall (l : List Printed) (hl : ∀ p ∈ l, p.IsLink c) :
      l.flatMap (Printed.chars uci) = text (l.flatMap Printed.parts) fun n => n.bgUciGet uci := by
    induction l with
    | nil => rfl
    | cons p l ih =>
      rw [flatMap_cons, flatMap_cons, text_append, hpiece p (hl p mem_cons_self),
        ih fun q hq => hl q (mem_cons_of_mem _ hq)]
  rw [hall c.printed (isLink_printed c), text_eq_of_bare (bare_printed c)]

/-- The numbers as their fields hold them. -/
def cut (f : Number → Nat) (n : Number) : Nat :=
  f n % 2 ^ n.width

/-- A number starts from zero, and its greatest value fits its field; the adapter number is
the exception. -/
def Roomy : Piece Number → Prop
  | .lit _ => True
  | .one n lo hi => lo = 0 ∧ (n = .pci ∨ hi < 2 ^ n.width)
  | .two n lo hi => lo = 0 ∧ hi < 2 ^ n.width ∧ (n = .link → hi < 10)

instance : DecidablePred Roomy := fun p => by
  cases p <;> unfold Roomy <;> infer_instance

theorem roomy_form (c : Component) : ∀ p ∈ c.form, Roomy p := by
  cases c <;> decide

theorem pci_mem_numbers : .pci ∈ c.numbers ↔ c = .pciAdapterCard := by
  cases c <;> decide

theorem inRange_cut (hrange : InRange c.form f) : InRange c.form (cut f) := by
  intro p hp
  have hroomy := roomy_form c p hp
  have hin := hrange p hp
  cases p with
  | lit l => trivial
  | one n lo hi | two n lo hi => exact ⟨hroomy.1 ▸ Nat.zero_le _, le_trans (Nat.mod_le _ _) hin.2⟩

theorem cut_eq (hrange : InRange c.form f) (hn : n ∈ c.numbers) (hpci : n = .pci → f n < 2) :
    cut f n = f n := by
  rw [← vars_form] at hn
  obtain ⟨p, hp, hvar⟩ := mem_vars.mp hn
  have hroomy := roomy_form c p hp
  have hin := hrange p hp
  apply Nat.mod_eq_of_lt
  cases p with
  | lit l => cases hvar
  | one m lo hi =>
    cases hvar
    rcases hroomy.2 with rfl | hlt
    · exact hpci rfl
    · exact lt_of_le_of_lt hin.2 hlt
  | two m lo hi =>
    cases hvar
    exact lt_of_le_of_lt hin.2 hroomy.2.1

theorem bgUciToString_bgEncodeUci (hrange : InRange c.form f) :
    bgUciToString (c.bgEncodeUci f) = some (text c.form (cut f)) := by
  have hfind : (branches.find? fun d => d.code = c.code) = some c := by
    cases c <;> rfl
  have hlink (hmem : .link ∈ c.numbers) : Number.link.bgUciGet (c.bgEncodeUci f) < 10 := by
    have htwo : .two .link 0 8 ∈ c.form := by
      revert hmem
      cases c <;> decide
    have hle : f .link ≤ 8 := (hrange _ htwo).2
    rw [Component.bgUciGet_bgEncodeUci hmem]
    exact lt_of_le_of_lt (Nat.mod_le _ _) (by omega)
  rw [bgUciToString, c.bgUciGetComponent_bgEncodeUci, hfind, map_some, chars_printed c hlink]
  congr 1
  apply text_congr
  intro n hn
  rw [vars_form] at hn
  exact Component.bgUciGet_bgEncodeUci hn f

/-- The string is converted without an error. -/
def Accepted (s : CString) : Prop :=
  (bgStringToUci s).1 = 0

def codeOf (s : CString) : BitVec 64 :=
  (bgStringToUci s).2

/-- On the strings of `S` the conversions are inverse to each other, and no two strings
share a code. -/
structure RoundTrips (S : Set CString) : Prop where
  prints : ∀ s ∈ S, bgUciToString (codeOf s) = some s.chars
  reparses : ∀ s ∈ S, ∃ t : CString,
    bgUciToString (codeOf s) = some t.chars ∧ bgStringToUci t = (0, codeOf s)
  injOn : Set.InjOn codeOf S

/-- A PCI adapter card whose number has more than the one bit that the code has for it. -/
def WidePci (s : CString) : Prop :=
  uciPatternMatches s.chars Component.pciAdapterCard.pattern = true ∧ '1' < s.chars.getD 8 '\x00'

theorem null_not_mem_text (hrange : InRange c.form f) : '\x00' ∉ text c.form f := by
  intro hmem
  have hlit : .lit '\x00' ∉ c.form := by cases c <;> decide
  rcases Reads.mem (sound_form c) ⟨hrange, rfl⟩ hmem with h | h
  · exact hlit h
  · exact absurd h (by decide)

section

variable (h : Reads c.form s.chars f)
include h

theorem reparses_of_reads : ∃ t : CString,
      bgUciToString (codeOf s) = some t.chars ∧ bgStringToUci t = (0, codeOf s) := by
  have hcut := inRange_cut h.1
  refine ⟨⟨text c.form (cut f), null_not_mem_text hcut⟩, ?_, ?_⟩
  · rw [codeOf, bgStringToUci_of_reads h]
    exact bgUciToString_bgEncodeUci h.1
  · rw [codeOf, bgStringToUci_of_reads h, bgStringToUci_of_reads ⟨hcut, rfl⟩]
    exact Prod.ext rfl (c.bgEncodeUci_cut f)

theorem prints_iff_of_reads :
    bgUciToString (codeOf s) = some s.chars ↔ (c = .pciAdapterCard → f .pci < 2) := by
  have hprint : bgUciToString (codeOf s) = some (text c.form (cut f)) := by
    rw [codeOf, bgStringToUci_of_reads h]
    exact bgUciToString_bgEncodeUci h.1
  rw [hprint, some.injEq]
  constructor
  · rintro htext rfl
    have hcut := Reads.unique (sound_form _) ⟨inRange_cut h.1, htext⟩ h .pci (by decide)
    rw [← hcut]
    exact Nat.mod_lt _ (by decide)
  · intro hsmall
    rw [← h.2]
    apply text_congr
    intro n hn
    rw [vars_form] at hn
    apply cut_eq h.1 hn
    rintro rfl
    exact hsmall (pci_mem_numbers.mp hn)

theorem widePci_iff_of_reads : ¬ WidePci s ↔ (c = .pciAdapterCard → f .pci < 2) := by
  have hmatch : uciPatternMatches s.chars Component.pciAdapterCard.pattern = true ↔
      c = .pciAdapterCard := by
    have hc := (find?_branches s.noNull c).mpr h.fits
    rw [uciPatternMatches_iff s.noNull, ← shape_form, ← find?_branches s.noNull, hc, some.injEq]
  rw [WidePci, hmatch, not_and]
  apply forall_congr'
  rintro rfl
  have hle : f .pci ≤ 7 := (h.1 (.one .pci 0 7) (by decide)).2
  have hchar : s.chars.getD 8 '\x00' = digitChar (f .pci) := by
    rw [← h.2]
    rfl
  have htable : ∀ m ≤ 7, ¬ '1' < digitChar m ↔ m < 2 := by decide
  rw [hchar]
  exact htable _ hle

end

/-- The round trip holds on a set of accepted strings exactly when it has no adapter card
with a number above one. -/
theorem roundTrips_iff (S : Set CString) (hS : ∀ s ∈ S, Accepted s) :
    RoundTrips S ↔ ∀ s ∈ S, ¬ WidePci s := by
  constructor
  · intro hround s hs
    obtain ⟨c, f, hreads⟩ := exists_reads_of_bgStringToUci (hS s hs)
    rw [widePci_iff_of_reads hreads, ← prints_iff_of_reads hreads]
    exact hround.prints s hs
  · intro hnarrow
    have hprints : ∀ s ∈ S, bgUciToString (codeOf s) = some s.chars := by
      intro s hs
      obtain ⟨c, f, hreads⟩ := exists_reads_of_bgStringToUci (hS s hs)
      rw [prints_iff_of_reads hreads, ← widePci_iff_of_reads hreads]
      exact hnarrow s hs
    refine ⟨hprints, ?_, ?_⟩
    · intro s hs
      obtain ⟨c, f, hreads⟩ := exists_reads_of_bgStringToUci (hS s hs)
      exact reparses_of_reads hreads
    · intro s hs t ht hcode
      have hsame := (hprints s hs).symm.trans ((congrArg bgUciToString hcode).trans (hprints t ht))
      exact CString.ext (some.inj hsame)

def cstring (s : String) (h : '\x00' ∉ s.toList := by decide) : CString :=
  ⟨s.toList, h⟩

theorem roundTrips_core :
    RoundTrips {s | s = cstring "R1A-M1-N15-J31-C16" ∨ s = cstring "Q00-I0-A1"} := by
  refine (roundTrips_iff _ ?_).mpr ?_
  · rintro s (rfl | rfl) <;> unfold Accepted <;> decide +kernel
  · rintro s (rfl | rfl) <;> unfold WidePci <;> decide +kernel

/-- The codes of `Q00-I0-A0` and `Q00-I0-A2` are the same. -/
theorem not_roundTrips_accepted : ¬ RoundTrips {s | Accepted s} := by
  intro h
  have haccepted (s : CString) (hs : (bgStringToUci s).1 = 0) : s ∈ {s | Accepted s} := hs
  have hsame := h.injOn (haccepted (cstring "Q00-I0-A0") (by decide +kernel))
    (haccepted (cstring "Q00-I0-A2") (by decide +kernel)) (by unfold codeOf; decide +kernel)
  exact absurd (congrArg CString.chars hsame) (by decide)

end BgqDriver.Uci
