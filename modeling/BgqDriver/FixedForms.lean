import Mathlib.Data.List.Forall2

/-!
Texts of a fixed form: literal characters, one-character digits and two-character
decimal numbers, each number under a name and between its bounds.
-/

namespace BgqDriver.FixedForms

open List Function Char

/-- The digits `0`–`9` and `A`–`Z`. -/
def digits : List Char :=
  ['0', '1', '2', '3', '4', '5', '6', '7', '8', '9', 'A', 'B', 'C', 'D', 'E', 'F', 'G', 'H',
    'I', 'J', 'K', 'L', 'M', 'N', 'O', 'P', 'Q', 'R', 'S', 'T', 'U', 'V', 'W', 'X', 'Y', 'Z']

def digitChar (n : Nat) : Char :=
  digits.getD n '\x00'

def digitValue (c : Char) : Option Nat :=
  if '0' ≤ c ∧ c ≤ '9' then some (c.toNat - 48)
  else if 'A' ≤ c ∧ c ≤ 'Z' then some (c.toNat - 65 + 10)
  else none

variable {n : Nat} {c : Char} {s : List Char}

theorem digitValue_digitChar (hn : n < 36) : digitValue (digitChar n) = some n := by
  revert n
  decide

theorem digitChar_of_decimal (hlow : '0' ≤ c) (hhigh : c ≤ '9') : ∃ n < 10, c = digitChar n := by
  have htable : ∀ n < 10, ofNat (48 + n) = digitChar n := by decide
  have h48 : 48 ≤ c.toNat := hlow
  have h57 : c.toNat ≤ 57 := hhigh
  refine ⟨c.toNat - 48, by omega, ?_⟩
  rw [← htable _ (by omega), show 48 + (c.toNat - 48) = c.toNat by omega, ofNat_toNat]

theorem digitChar_of_letter (hlow : 'A' ≤ c) (hhigh : c ≤ 'Z') :
    ∃ n < 36, 10 ≤ n ∧ c = digitChar n := by
  have htable : ∀ n < 26, ofNat (65 + n) = digitChar (n + 10) := by decide
  have h65 : 65 ≤ c.toNat := hlow
  have h90 : c.toNat ≤ 90 := hhigh
  refine ⟨c.toNat - 65 + 10, by omega, by omega, ?_⟩
  rw [← htable _ (by omega), show 65 + (c.toNat - 65) = c.toNat by omega, ofNat_toNat]

theorem digitChar_inj {m : Nat} (hm : m < 36) (hn : n < 36) (h : digitChar m = digitChar n) :
    m = n := by
  have heq : some m = some n := by
    rw [← digitValue_digitChar hm, ← digitValue_digitChar hn, h]
  exact Option.some.inj heq

variable {ν : Type*}

/-- A piece of a form: a literal, or the place of a number with its least and greatest
value. -/
inductive Piece (ν : Type*) where
  | lit (c : Char)
  | one (v : ν) (lo hi : Nat)
  | two (v : ν) (lo hi : Nat)
deriving DecidableEq

variable {f g : ν → Nat} {p q : Piece ν} {form form' : List (Piece ν)} {v : ν} {vs : List ν}

namespace Piece

def text (f : ν → Nat) : Piece ν → List Char
  | lit c => [c]
  | one v _ _ => [digitChar (f v)]
  | two v _ _ => [digitChar (f v / 10), digitChar (f v % 10)]

def InRange (f : ν → Nat) : Piece ν → Prop
  | lit _ => True
  | one v lo hi => lo ≤ f v ∧ f v ≤ hi
  | two v lo hi => lo ≤ f v ∧ f v ≤ hi

def Sound : Piece ν → Prop
  | lit _ => True
  | one _ _ hi => hi < 36
  | two _ _ hi => hi < 100

instance (p : Piece ν) : Decidable p.Sound :=
  match p with
  | lit _ => inferInstanceAs (Decidable True)
  | one _ _ hi => inferInstanceAs (Decidable (hi < 36))
  | two _ _ hi => inferInstanceAs (Decidable (hi < 100))

def var : Piece ν → Option ν
  | lit _ => none
  | one v _ _ => some v
  | two v _ _ => some v

def shape : Piece ν → List (Option Char)
  | lit c => [some c]
  | one _ _ _ => [none]
  | two _ _ _ => [none, none]

/-- The same piece with bounds no wider. -/
def Within : Piece ν → Piece ν → Prop
  | lit c, lit d => c = d
  | one v lo hi, one w lo' hi' => v = w ∧ lo' ≤ lo ∧ hi ≤ hi'
  | two v lo hi, two w lo' hi' => v = w ∧ lo' ≤ lo ∧ hi ≤ hi'
  | _, _ => False

instance [DecidableEq ν] (p q : Piece ν) : Decidable (Within p q) := by
  cases p <;> cases q <;> unfold Within <;> infer_instance

/-- The piece without its bounds. -/
def bare : Piece ν → Piece ν
  | lit c => lit c
  | one v _ _ => one v 0 0
  | two v _ _ => two v 0 0

theorem text_bare (f : ν → Nat) (p : Piece ν) : p.bare.text f = p.text f := by
  cases p <;> rfl

theorem text_congr (h : ∀ v ∈ p.var, f v = g v) : p.text f = p.text g := by
  cases p with
  | lit c => rfl
  | one v lo hi | two v lo hi => rw [text, text, h v rfl]

theorem inRange_congr (h : ∀ v ∈ p.var, f v = g v) : p.InRange f ↔ p.InRange g := by
  cases p with
  | lit c => exact Iff.rfl
  | one v lo hi | two v lo hi => rw [InRange, InRange, h v rfl]

theorem Within.bare (h : Within p q) : p.bare = q.bare := by
  cases p <;> cases q <;> simp only [Within] at h
  · rw [h]
  all_goals
    obtain ⟨rfl, -, -⟩ := h
    rfl

theorem length_text (f : ν → Nat) (p : Piece ν) : (p.text f).length = p.shape.length := by
  cases p <;> rfl

theorem eq_of_text_eq (hsound : p.Sound) (hf : p.InRange f) (hg : p.InRange g)
    (h : p.text f = p.text g) : ∀ v ∈ p.var, f v = g v := by
  cases p with
  | lit c => intro v hv; cases hv
  | one w lo hi =>
    rintro v ⟨⟩
    simp only [InRange, Sound, text, cons.injEq, and_true] at *
    exact digitChar_inj (by omega) (by omega) h
  | two w lo hi =>
    rintro v ⟨⟩
    simp only [InRange, Sound, text, cons.injEq, and_true] at *
    have htens := digitChar_inj (by omega) (by omega) h.1
    have hunits := digitChar_inj (by omega) (by omega) h.2
    omega

end Piece

def text (form : List (Piece ν)) (f : ν → Nat) : List Char :=
  form.flatMap (Piece.text f)

def InRange (form : List (Piece ν)) (f : ν → Nat) : Prop :=
  ∀ p ∈ form, p.InRange f

def Sound (form : List (Piece ν)) : Prop :=
  ∀ p ∈ form, p.Sound

instance (form : List (Piece ν)) : Decidable (Sound form) :=
  inferInstanceAs (Decidable (∀ p ∈ form, p.Sound))

def vars (form : List (Piece ν)) : List ν :=
  form.filterMap Piece.var

def shape (form : List (Piece ν)) : List (Option Char) :=
  form.flatMap Piece.shape

def Reads (form : List (Piece ν)) (s : List Char) (f : ν → Nat) : Prop :=
  InRange form f ∧ text form f = s

@[simp]
theorem text_nil (f : ν → Nat) : text [] f = [] := rfl

theorem text_cons (p : Piece ν) (form : List (Piece ν)) (f : ν → Nat) :
    text (p :: form) f = p.text f ++ text form f := rfl

theorem text_append (form form' : List (Piece ν)) (f : ν → Nat) :
    text (form ++ form') f = text form f ++ text form' f :=
  flatMap_append

theorem inRange_cons : InRange (p :: form) f ↔ p.InRange f ∧ InRange form f :=
  forall_mem_cons

theorem inRange_append : InRange (form ++ form') f ↔ InRange form f ∧ InRange form' f :=
  forall_mem_append

theorem sound_append : Sound (form ++ form') ↔ Sound form ∧ Sound form' :=
  forall_mem_append

theorem vars_append (form form' : List (Piece ν)) :
    vars (form ++ form') = vars form ++ vars form' :=
  filterMap_append

theorem vars_lits (l : List Char) : vars (l.map Piece.lit : List (Piece ν)) = [] := by
  induction l with
  | nil => rfl
  | cons c l ih => exact ih

theorem text_lits (l : List Char) (f : ν → Nat) : text (l.map Piece.lit) f = l := by
  induction l with
  | nil => rfl
  | cons c l ih => rw [map_cons, text_cons, ih, Piece.text, singleton_append]

theorem reads_append :
    Reads (form ++ form') s f ↔ ∃ a b, s = a ++ b ∧ Reads form a f ∧ Reads form' b f := by
  constructor
  · rintro ⟨hrange, rfl⟩
    rw [inRange_append] at hrange
    exact ⟨_, _, text_append form form' f, ⟨hrange.1, rfl⟩, ⟨hrange.2, rfl⟩⟩
  · rintro ⟨_, _, rfl, ⟨hrange, rfl⟩, hrange', rfl⟩
    exact ⟨inRange_append.mpr ⟨hrange, hrange'⟩, text_append form form' f⟩

theorem reads_cons :
    Reads (p :: form) s f ↔ ∃ a b, s = a ++ b ∧ Reads [p] a f ∧ Reads form b f := by
  rw [← singleton_append, reads_append]

theorem mem_vars : v ∈ vars form ↔ ∃ p ∈ form, p.var = some v :=
  mem_filterMap

theorem text_congr (h : ∀ v ∈ vars form, f v = g v) : text form f = text form g := by
  apply flatMap_congr
  intro p hp
  exact Piece.text_congr fun v hv => h v (mem_vars.mpr ⟨p, hp, hv⟩)

theorem inRange_congr (h : ∀ v ∈ vars form, f v = g v) : InRange form f ↔ InRange form g := by
  apply forall₂_congr
  intro p hp
  exact Piece.inRange_congr fun v hv => h v (mem_vars.mpr ⟨p, hp, hv⟩)

theorem Reads.congr (hreads : Reads form s f) (h : ∀ v ∈ vars form, f v = g v) : Reads form s g :=
  ⟨(inRange_congr h).mp hreads.1, (text_congr h).symm.trans hreads.2⟩

section Assign

variable [DecidableEq ν]

def assign (vs : List ν) (f g : ν → Nat) (v : ν) : Nat :=
  if v ∈ vs then f v else g v

theorem assign_of_mem (hv : v ∈ vs) (f g : ν → Nat) : assign vs f g v = f v :=
  if_pos hv

theorem assign_of_not_mem (hv : v ∉ vs) (f g : ν → Nat) : assign vs f g v = g v :=
  if_neg hv

theorem assign_nil (f g : ν → Nat) : assign [] f g = g :=
  funext fun _ => assign_of_not_mem not_mem_nil f g

theorem update_eq_assign (v : ν) (f g : ν → Nat) : update g v (f v) = assign [v] f g := by
  funext w
  by_cases hw : w = v
  · rw [hw, update_self, assign_of_mem mem_cons_self]
  · rw [update_of_ne hw, assign_of_not_mem (by rwa [mem_singleton])]

theorem assign_assign (vs ws : List ν) (f g : ν → Nat) :
    assign ws f (assign vs f g) = assign (vs ++ ws) f g := by
  funext v
  by_cases hws : v ∈ ws <;> by_cases hvs : v ∈ vs <;> simp [assign, hws, hvs]

theorem Reads.append {a b : List Char} (hf : Reads form a f) (hg : Reads form' b g)
    (hapart : ∀ v ∈ vars form, v ∉ vars form') :
    Reads (form ++ form') (a ++ b) (assign (vars form) f g) := by
  refine reads_append.mpr ⟨a, b, rfl, ?_, ?_⟩
  · exact hf.congr fun v hv => (assign_of_mem hv f g).symm
  · exact hg.congr fun v hv => (assign_of_not_mem (fun hv' => hapart v hv' hv) f g).symm

end Assign

theorem text_eq_of_bare (h : form.map Piece.bare = form'.map Piece.bare) (f : ν → Nat) :
    text form f = text form' f := by
  have hbare (l : List (Piece ν)) : text l f = (l.map Piece.bare).flatMap (Piece.text f) := by
    rw [flatMap_map]
    exact flatMap_congr fun p _ => (Piece.text_bare f p).symm
  rw [hbare, h, ← hbare]

theorem Reads.unique (hsound : Sound form) (hf : Reads form s f) (hg : Reads form s g) :
    ∀ v ∈ vars form, f v = g v := by
  obtain ⟨hfrange, hftext⟩ := hf
  obtain ⟨hgrange, rfl⟩ := hg
  induction form with
  | nil => intro v hv; cases hv
  | cons p form ih =>
    rw [inRange_cons] at hfrange hgrange
    obtain ⟨hhead, htail⟩ := append_inj hftext
      (by rw [Piece.length_text, Piece.length_text])
    intro v hv
    obtain ⟨q, hq, hvar⟩ := mem_vars.mp hv
    rcases mem_cons.mp hq with rfl | hq
    · exact Piece.eq_of_text_eq (hsound q mem_cons_self) hfrange.1 hgrange.1 hhead v hvar
    · exact ih (fun q hq => hsound q (mem_cons_of_mem _ hq)) hfrange.2 hgrange.2 htail
        v (mem_vars.mpr ⟨q, hq, hvar⟩)

theorem digitChar_mem_digits (hn : n < 36) : digitChar n ∈ digits := by
  revert n
  decide

theorem Reads.mem (hsound : Sound form) (h : Reads form s f) (hc : c ∈ s) :
    .lit c ∈ form ∨ c ∈ digits := by
  obtain ⟨hrange, rfl⟩ := h
  obtain ⟨p, hp, hcp⟩ := mem_flatMap.mp hc
  have hsp := hsound p hp
  have hrp := hrange p hp
  cases p with
  | lit d =>
    rw [Piece.text, mem_singleton] at hcp
    exact .inl (hcp ▸ hp)
  | one v lo hi =>
    rw [Piece.text, mem_singleton] at hcp
    simp only [Piece.Sound, Piece.InRange] at hsp hrp
    exact .inr (hcp ▸ digitChar_mem_digits (by omega))
  | two v lo hi =>
    simp only [Piece.text, mem_cons, not_mem_nil, or_false] at hcp
    simp only [Piece.Sound, Piece.InRange] at hsp hrp
    rcases hcp with rfl | rfl
    all_goals exact .inr (digitChar_mem_digits (by omega))

/-- The text has the fixed characters of the shape, and its length. -/
def Fits (sh : List (Option Char)) (s : List Char) : Prop :=
  Forall₂ (fun o c => ∀ x ∈ o, x = c) sh s

theorem Piece.fits_text (f : ν → Nat) (p : Piece ν) : Fits p.shape (p.text f) := by
  cases p <;> simp [Fits, Piece.shape, Piece.text]

theorem fits_text (form : List (Piece ν)) (f : ν → Nat) : Fits (shape form) (text form f) := by
  induction form with
  | nil => exact Forall₂.nil
  | cons p form ih => exact rel_append (p.fits_text f) ih

theorem Reads.fits (h : Reads form s f) : Fits (shape form) s := by
  rw [← h.2]
  exact fits_text form f

theorem fits_shape_append : Fits (shape (form ++ form')) s ↔
      ∃ a b, s = a ++ b ∧ Fits (shape form) a ∧ Fits (shape form') b := by
  rw [show shape (form ++ form') = shape form ++ shape form' from flatMap_append]
  constructor
  · intro h
    refine ⟨s.take (shape form).length, s.drop (shape form).length,
      (take_append_drop _ s).symm, ?_, ?_⟩
    · have htake := forall₂_take (shape form).length h
      rwa [take_left] at htake
    · have hdrop := forall₂_drop (shape form).length h
      rwa [drop_left] at hdrop
  · rintro ⟨a, b, rfl, ha, hb⟩
    exact rel_append ha hb

theorem reads_lits {l : List Char} (h : Fits (shape (l.map Piece.lit : List (Piece ν))) s)
    (f : ν → Nat) : Reads (l.map Piece.lit) s f := by
  constructor
  · intro p hp
    obtain ⟨c, -, rfl⟩ := mem_map.mp hp
    trivial
  · rw [text_lits]
    induction l generalizing s with
    | nil =>
      cases h
      rfl
    | cons c l ih =>
      obtain ⟨d, t, hd, ht, rfl⟩ := List.forall₂_cons_left_iff.mp h
      rw [ih ht, hd c rfl]

/-- Two shapes that no text has both of. -/
def clash : List (Option Char) → List (Option Char) → Bool
  | [], [] => false
  | some x :: sh, some y :: sh' => x != y || clash sh sh'
  | _ :: sh, _ :: sh' => clash sh sh'
  | _, _ => true

theorem clash_eq_false_of_fits {sh sh' : List (Option Char)} (h : Fits sh s) (h' : Fits sh' s) :
    clash sh sh' = false := by
  induction h generalizing sh' with
  | nil =>
    cases h'
    rfl
  | @cons o c sh s hc hs ih =>
    cases h' with
    | @cons o' _ sh' _ hc' hs' =>
      have hrest := ih hs'
      cases o with
      | none => cases o' <;> exact hrest
      | some x =>
        cases o' with
        | none => exact hrest
        | some y =>
          rw [clash, hrest, hc x rfl, hc' y rfl]
          simp

def Narrower (form form' : List (Piece ν)) : Prop :=
  Forall₂ Piece.Within form form'

instance [DecidableEq ν] (form form' : List (Piece ν)) : Decidable (Narrower form form') :=
  inferInstanceAs (Decidable (Forall₂ Piece.Within form form'))

theorem Narrower.text_eq (h : Narrower form form') (f : ν → Nat) : text form f = text form' f := by
  apply text_eq_of_bare
  induction h with
  | nil => rfl
  | cons hp _ ih => rw [map_cons, map_cons, hp.bare, ih]

/-- The bounds of a piece that are not those of the other one. -/
def Piece.differences (p q : Piece ν) : List (ν × Nat × Nat) :=
  match p, q with
  | .one v lo hi, .one _ lo' hi' => if lo = lo' ∧ hi = hi' then [] else [(v, lo, hi)]
  | .two v lo hi, .two _ lo' hi' => if lo = lo' ∧ hi = hi' then [] else [(v, lo, hi)]
  | _, _ => []

def differences (form form' : List (Piece ν)) : List (ν × Nat × Nat) :=
  (form.zip form').flatMap fun entry => entry.1.differences entry.2

theorem Piece.Within.inRange_iff (h : Piece.Within p q) (f : ν → Nat) : p.InRange f ↔
      q.InRange f ∧ ∀ t ∈ p.differences q, t.2.1 ≤ f t.1 ∧ f t.1 ≤ t.2.2 := by
  cases p <;> cases q <;> simp only [Within, InRange, differences] at h ⊢
  · simp
  all_goals
    obtain ⟨rfl, hlo, hhi⟩ := h
    split
    case isTrue heq =>
      simp only [heq, not_mem_nil, false_imp_iff, implies_true, and_true]
    case isFalse =>
      simp only [mem_singleton, forall_eq]
      omega

theorem Narrower.inRange_iff (h : Narrower form form') (f : ν → Nat) : InRange form f ↔
      InRange form' f ∧ ∀ t ∈ differences form form', t.2.1 ≤ f t.1 ∧ f t.1 ≤ t.2.2 := by
  induction h with
  | nil => simp [differences, InRange]
  | @cons p q form form' hp _ ih =>
    have hdiff : differences (p :: form) (q :: form') =
        p.differences q ++ differences form form' := rfl
    rw [inRange_cons, inRange_cons, ih, hp.inRange_iff f, hdiff, forall_mem_append]
    exact and_and_and_comm

theorem Narrower.reads_iff (h : Narrower form form') : Reads form s f ↔
      Reads form' s f ∧ ∀ t ∈ differences form form', t.2.1 ≤ f t.1 ∧ f t.1 ≤ t.2.2 := by
  rw [Reads, Reads, h.inRange_iff, h.text_eq, and_right_comm]

section Rename

variable {μ : Type*}

def Piece.rename (g : ν → μ) : Piece ν → Piece μ
  | .lit c => .lit c
  | .one v lo hi => .one (g v) lo hi
  | .two v lo hi => .two (g v) lo hi

theorem reads_rename {g : ν → μ} {f : μ → Nat} :
    Reads (form.map (Piece.rename g)) s f ↔ Reads form s (f ∘ g) := by
  have htext : text (form.map (Piece.rename g)) f = text form (f ∘ g) := by
    rw [text, text, flatMap_map]
    apply flatMap_congr
    intro p _
    cases p <;> rfl
  have hrange : InRange (form.map (Piece.rename g)) f ↔ InRange form (f ∘ g) := by
    rw [InRange, InRange, forall_mem_map]
    apply forall₂_congr
    intro p _
    cases p <;> rfl
  rw [Reads, Reads, htext, hrange]

end Rename

end BgqDriver.FixedForms
