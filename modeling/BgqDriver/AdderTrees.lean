import BgqDriver.NetworkReduce

/-!
The trees of two-input adders that the texts of `treeAddScalarReduce` spell, and
what the scan of such a text leaves behind. The adders of a tree are numbered in
the order of their `+` characters, as `whichCarry` counts them.
-/

namespace BgqDriver.NetworkReduce

open List Function Nat Bool Char

inductive AdderTree
  | input (p : Nat)
  | adder (left right : AdderTree)

variable {j k n : Nat} {t x y : AdderTree} {text before : List Char} {s : TreeState}

namespace AdderTree

def inputs : AdderTree → List Nat
  | input p => [p]
  | adder left right => left.inputs ++ right.inputs

def adders : AdderTree → Nat
  | input _ => 0
  | adder left right => left.adders + right.adders + 1

theorem length_inputs : ∀ t : AdderTree, t.inputs.length = t.adders + 1
  | input _ => rfl
  | adder left right => by
      rw [inputs, length_append, length_inputs left, length_inputs right, adders]
      omega

/-- The postfix texts of a tree. Characters that the scan passes over may stand
before every number, `S` and `+`. -/
inductive Spells (build : Build) : List Char → AdderTree → Prop
  | input {before digits after : List Char} (hbefore : before.all build.skips)
      (hnonempty : digits ≠ []) (hdigits : digits.all isDigit)
      (hafter : after.all build.skips) :
      Spells build (before ++ (digits ++ (after ++ ['S'])))
        (input (ofDigitChars 10 digits 0))
  | adder {textLeft textRight before : List Char} {left right : AdderTree}
      (hleft : Spells build textLeft left) (hright : Spells build textRight right)
      (hbefore : before.all build.skips) :
      Spells build (textLeft ++ (textRight ++ (before ++ ['+']))) (adder left right)

/-- A text is a well-formed tree over `n` participants if it spells a tree in which
each of them occurs exactly once. -/
structure WellFormed (build : Build) (n : Nat) (text : List Char) (t : AdderTree) : Prop where
  spells : ∃ body rest, text = body ++ rest ∧ Spells build body t ∧ rest.all build.skips
  perm : t.inputs.Perm (List.range n)

theorem WellFormed.adders_eq {build : Build} (h : WellFormed build n text t) :
    t.adders + 1 = n := by
  rw [← length_inputs, h.perm.length_eq, length_range]

def word (iC inCarry : Words) : AdderTree → Nat → BitVec 32
  | input p, _ => iC p
  | adder left right, k =>
    (adderSum (right.word iC inCarry (k + left.adders)) (left.word iC inCarry k)
      (inCarry (k + left.adders + right.adders))).setWidth 32

inductive HasAdder (x y : AdderTree) (j : Nat) : AdderTree → Nat → Prop
  | root : HasAdder x y j (adder x y) j
  | left {l r : AdderTree} {k : Nat} (h : HasAdder x y j l k) : HasAdder x y j (adder l r) k
  | right {l r : AdderTree} {k : Nat} (h : HasAdder x y j r (k + l.adders)) :
      HasAdder x y j (adder l r) k

def place (x y : AdderTree) (j : Nat) : Nat := j + x.adders + y.adders

theorem HasAdder.place_bounds (h : HasAdder x y j t k) :
    k ≤ place x y j ∧ place x y j < k + t.adders := by
  induction h with
  | root => simp only [place, adders]; omega
  | left _ ih | right _ ih => simp only [adders]; omega

theorem HasAdder.trans (h : HasAdder x y j t k) :
    ∀ {z w : AdderTree} {i : Nat}, HasAdder z w i (adder x y) j → HasAdder z w i t k := by
  induction h with
  | root => exact fun h => h
  | left _ ih => exact fun h => .left (ih h)
  | right _ ih => exact fun h => .right (ih h)

theorem exists_hasAdder : ∀ {t : AdderTree} {k i : Nat}, k ≤ i → i < k + t.adders →
    ∃ x y j, HasAdder x y j t k ∧ place x y j = i
  | input _, k, i, hk, hi => by
      rw [adders] at hi
      omega
  | adder l r, k, i, hk, hi => by
      rw [adders] at hi
      rcases Nat.lt_or_ge i (k + l.adders) with hl | hl
      · obtain ⟨x, y, j, h, hplace⟩ := exists_hasAdder hk hl
        exact ⟨x, y, j, .left h, hplace⟩
      rcases Nat.lt_or_ge i (k + l.adders + r.adders) with hr | hr
      · obtain ⟨x, y, j, h, hplace⟩ := exists_hasAdder hl hr
        exact ⟨x, y, j, .right h, hplace⟩
      · exact ⟨l, r, k, .root, by rw [place]; omega⟩

theorem WellFormed.place_lt {build : Build} (h : WellFormed build n text t)
    (hadder : HasAdder x y j t 0) : place x y j < n - 1 := by
  have hbound := hadder.place_bounds.2
  have hadders := h.adders_eq
  omega

end AdderTree

open AdderTree

variable {digits : List Char} {a b : BitVec 32} {left right : AdderTree}

section Characters

variable {build : Build}

theorem not_isDigit_of_skips {x : Char} (h : build.skips x) : ¬ x.isDigit := by
  have hblank : ∀ y : Char, build.isBlank y → y = ' ' ∨ y.toNat ≤ 13 := by
    intro y hy
    cases build <;> simp only [Build.isBlank, or_eq_true, and_eq_true,
      decide_eq_true_eq, beq_iff_eq] at hy
    · exact hy.imp id (·.2)
    · exact .inl hy
  have hcode : x.isDigit → 48 ≤ x.toNat := by
    intro hx
    simp only [isDigit, and_eq_true, decide_eq_true_eq] at hx
    exact hx.1
  intro hx
  simp only [Build.skips, or_eq_true, beq_iff_eq] at h
  rcases h with (((((h | rfl) | rfl) | rfl) | rfl) | rfl) | rfl
  · rcases hblank x h with rfl | hle
    · revert hx
      decide
    · have := hcode hx
      omega
  all_goals
    revert hx
    decide

theorem not_skips_S : build.skips 'S' = false := by
  cases build <;> decide

theorem not_skips_plus : build.skips '+' = false := by
  cases build <;> decide

variable {numParticipants : Nat} {inCarry iC : Words}

theorem scanTree_read (read text : List Char) (s : TreeState) :
    scanTree build numParticipants inCarry iC read.length (read ++ text) s =
      scanTree build numParticipants inCarry iC 0 text s := by
  induction read with
  | nil => rfl
  | cons x read ih => exact ih

theorem scanTree_skips (hbefore : before.all build.skips) (text : List Char) (s : TreeState) :
    scanTree build numParticipants inCarry iC 0 (before ++ text) s =
      scanTree build numParticipants inCarry iC 0 text s := by
  induction before with
  | nil => rfl
  | cons x before ih =>
    rw [all_cons, and_eq_true] at hbefore
    have hdigit := not_isDigit_of_skips hbefore.1
    rw [cons_append, scanTree, if_neg hdigit, if_pos hbefore.1]
    exact ih hbefore.2

theorem toInt_participant {v : Nat} (hn : n < 2 ^ 31) (hv : v < n) :
    (BitVec.ofNat 32 (min v (2 ^ 63 - 1))).toInt = v := by
  rw [Nat.min_eq_left (by omega), BitVec.toInt_eq_toNat_cond, BitVec.toNat_ofNat,
    mod_eq_of_lt (by omega), if_pos (by omega)]

theorem scanTree_number (hnonempty : digits ≠ []) (hdigits : digits.all isDigit)
    (hn : numParticipants < 2 ^ 31) (hv : ofDigitChars 10 digits 0 < numParticipants) {y : Char}
    (hy : ¬ y.isDigit) (text : List Char) (s : TreeState) :
    scanTree build numParticipants inCarry iC 0 (digits ++ y :: text) s =
      scanTree build numParticipants inCarry iC 0 (y :: text)
        { s with participant := (ofDigitChars 10 digits 0 : Nat) } := by
  obtain ⟨x, digits, rfl⟩ := exists_cons_of_ne_nil hnonempty
  have hx : x.isDigit := by
    rw [all_cons, and_eq_true] at hdigits
    exact hdigits.1
  have htake : (x :: (digits ++ y :: text)).takeWhile isDigit = x :: digits := by
    rw [← cons_append, takeWhile_append_of_pos fun z hz => all_eq_true.mp hdigits z hz,
      takeWhile_cons_of_neg hy, append_nil]
  have hread : strtol (x :: (digits ++ y :: text)) =
      (min (ofDigitChars 10 (x :: digits) 0) (2 ^ 63 - 1), digits.length + 1) := by
    rw [strtol, htake]
    rfl
  rw [cons_append, scanTree, if_pos hx, hread]
  simp only [toInt_participant hn hv]
  rw [if_neg (by omega), if_neg (by omega), Nat.add_sub_cancel, scanTree_read]

end Characters

section Scan

variable {build : Build} {numParticipants : Nat} {inCarry iC : Words}

/-- The adders of `t`, which are numbered from `k`, have written `f` of their operands
and carry into an array, and nothing below `k` has changed. -/
structure Records {α : Type} (f : BitVec 32 → BitVec 32 → BitVec 32 → α) (inCarry iC : Words)
    (t : AdderTree) (k : Nat) (before after : Nat → α) : Prop where
  at_place : ∀ {x y j}, HasAdder x y j t k → after (place x y j) =
    f (y.word iC inCarry (j + x.adders)) (x.word iC inCarry j) (inCarry (place x y j))
  below : ∀ i < k, after i = before i

theorem Records.adder {α : Type} {f : BitVec 32 → BitVec 32 → BitVec 32 → α} {m m1 m2 : Nat → α}
    (h1 : Records f inCarry iC left k m m1)
    (h2 : Records f inCarry iC right (k + left.adders) m1 m2) :
    Records f inCarry iC (.adder left right) k m
      (update m2 (place left right k)
        (f (right.word iC inCarry (k + left.adders)) (left.word iC inCarry k)
          (inCarry (place left right k)))) := by
  have hplace : place left right k = k + left.adders + right.adders := rfl
  constructor
  · rintro x y j (_ | hl | hr)
    · exact update_self ..
    · have hbound := hl.place_bounds
      rw [update_of_ne (by omega), h2.below _ hbound.2, h1.at_place hl]
    · have hbound := hr.place_bounds
      rw [update_of_ne (by omega), h2.at_place hr]
  · intro i hi
    rw [update_of_ne (by omega), h2.below i (by omega), h1.below i hi]

structure Scanned (inCarry iC : Words) (t : AdderTree) (s s' : TreeState) : Prop where
  whichCarry : s'.whichCarry = s.whichCarry + t.adders
  st : s'.st = t.word iC inCarry s.whichCarry :: s.st
  participant : s'.participant = -1
  done : ∀ p, s'.done p = (s.done p || decide (p ∈ t.inputs))
  outCarry : Records adderCarry inCarry iC t s.whichCarry s.outCarry s'.outCarry
  signedOverflow :
    Records adderOverflow inCarry iC t s.whichCarry s.signedOverflow s'.signedOverflow

theorem scanTree_input {after : List Char} (hbefore : before.all build.skips)
    (hnonempty : digits ≠ []) (hdigits : digits.all isDigit) (hafter : after.all build.skips)
    (hn : numParticipants < 2 ^ 31) (hv : ofDigitChars 10 digits 0 < numParticipants)
    (hdone : s.done (ofDigitChars 10 digits 0) = false) (rest : List Char) :
    scanTree build numParticipants inCarry iC 0
        (before ++ (digits ++ (after ++ ['S'])) ++ rest) s =
      scanTree build numParticipants inCarry iC 0 rest
        { s with
          st := iC (ofDigitChars 10 digits 0) :: s.st
          done := update s.done (ofDigitChars 10 digits 0) true
          participant := -1 } := by
  have htext : before ++ (digits ++ (after ++ ['S'])) ++ rest =
      before ++ (digits ++ (after ++ 'S' :: rest)) := by simp
  rw [htext, scanTree_skips hbefore]
  obtain ⟨y, tail, hy, hnot⟩ : ∃ y tail, after ++ 'S' :: rest = y :: tail ∧ ¬ y.isDigit := by
    cases after with
    | nil => exact ⟨'S', rest, rfl, by decide⟩
    | cons y after =>
      rw [all_cons, and_eq_true] at hafter
      exact ⟨y, _, rfl, not_isDigit_of_skips hafter.1⟩
  rw [hy, scanTree_number hnonempty hdigits hn hv hnot, ← hy, scanTree_skips hafter, scanTree,
    if_neg (by decide), if_neg (by rw [not_skips_S]; decide), if_pos rfl, pushParticipant,
    if_neg (Int.not_lt.mpr (Int.natCast_nonneg _))]
  simp only [Int.toNat_natCast, hdone]
  rfl

theorem Scanned.adder {s1 s2 : TreeState} (h1 : Scanned inCarry iC left s s1)
    (h2 : Scanned inCarry iC right s1 s2) (ha : a = right.word iC inCarry s1.whichCarry)
    (hb : b = left.word iC inCarry s.whichCarry) : Scanned inCarry iC (.adder left right) s
      { s2 with
        outCarry := update s2.outCarry s2.whichCarry
          (adderCarry a b (inCarry s2.whichCarry))
        signedOverflow := update s2.signedOverflow s2.whichCarry
          (adderOverflow a b (inCarry s2.whichCarry))
        st := (adderSum a b (inCarry s2.whichCarry)).setWidth 32 :: s.st
        whichCarry := s2.whichCarry + 1 } := by
  have hk1 := h1.whichCarry
  have hk2 : s2.whichCarry = place left right s.whichCarry := by
    rw [h2.whichCarry, hk1, place]
  have hcarry := h2.outCarry
  have hoverflow := h2.signedOverflow
  rw [hk1] at ha hcarry hoverflow
  subst ha hb
  constructor
  · simp only [hk2, place, adders]
    omega
  · simp only [word, hk2, place]
  · exact h2.participant
  · intro p
    simp only [h2.done, h1.done, inputs, mem_append, Bool.or_assoc, decide_or]
  · simp only [hk2]
    exact h1.outCarry.adder hcarry
  · simp only [hk2]
    exact h1.signedOverflow.adder hoverflow

theorem scanTree_spells (inCarry iC : Words) (hn : numParticipants < 2 ^ 31)
    (h : Spells build text t) : ∀ (s : TreeState) (rest : List Char), t.inputs.Nodup →
      (∀ p ∈ t.inputs, p < numParticipants ∧ s.done p = false) →
      ∃ s', Scanned inCarry iC t s s' ∧
        scanTree build numParticipants inCarry iC 0 (text ++ rest) s =
          scanTree build numParticipants inCarry iC 0 rest s' := by
  induction h with
  | @input before digits after hbefore hnonempty hdigits hafter =>
    intro s rest _ hinputs
    obtain ⟨hv, hdone⟩ := hinputs _ mem_cons_self
    refine ⟨_, ?_, scanTree_input hbefore hnonempty hdigits hafter hn hv hdone rest⟩
    refine ⟨rfl, rfl, rfl, ?_, ⟨nofun, fun _ _ => rfl⟩, ⟨nofun, fun _ _ => rfl⟩⟩
    intro p
    by_cases hp : p = ofDigitChars 10 digits 0
    · rw [hp]
      simp [inputs]
    · simp [inputs, hp]
  | @adder textLeft textRight before left right _ _ hbefore ihl ihr =>
    intro s rest hnodup hinputs
    obtain ⟨hl, hr, hdisjoint⟩ := nodup_append.mp hnodup
    obtain ⟨s1, h1, hscan1⟩ := ihl s (textRight ++ (before ++ ['+']) ++ rest) hl
      fun p hp => hinputs p (mem_append_left _ hp)
    obtain ⟨s2, h2, hscan2⟩ := ihr s1 (before ++ ['+'] ++ rest) hr fun p hp => by
      obtain ⟨hlt, hdone⟩ := hinputs p (mem_append_right _ hp)
      have hnot : p ∉ left.inputs := fun hp' => hdisjoint p hp' p hp rfl
      exact ⟨hlt, by rw [h1.done, hdone, decide_eq_false hnot]; rfl⟩
    have hst : s2.st = right.word iC inCarry s1.whichCarry ::
        left.word iC inCarry s.whichCarry :: s.st := by rw [h2.st, h1.st]
    refine ⟨_, h1.adder h2 rfl rfl, ?_⟩
    have hparticipant := h2.participant
    rw [append_assoc, hscan1, append_assoc, hscan2, append_assoc, scanTree_skips hbefore,
      singleton_append, scanTree, if_neg (by decide), if_neg (by rw [not_skips_plus]; decide),
      if_neg (by decide), if_pos rfl, applyAdder, if_neg (by omega)]
    simp only [hst]

end Scan

theorem treeAddScalarReduce_wellFormed {build : Build} {Tree : Option (List Char)} (hn : n < 2 ^ 31)
    (h : WellFormed build n (Tree.getD (defaultTree n)) t) (inCarry : Words) (cells : AdderCells)
    (iC : Words) : ∃ cells', treeAddScalarReduce build n Tree inCarry cells iC = (0, cells') ∧
      cells'.sum32 = t.word iC inCarry 0 ∧
      Records adderCarry inCarry iC t 0 cells.outCarry cells'.outCarry ∧
      Records adderOverflow inCarry iC t 0 cells.signedOverflow cells'.signedOverflow := by
  have hadders := h.adders_eq
  obtain ⟨body, rest, htext, hbody, hrest⟩ := h.spells
  have hmem : ∀ {p}, p ∈ t.inputs ↔ p < n := fun {p} => by
    rw [h.perm.mem_iff, mem_range]
  obtain ⟨s, hs, hscan⟩ := scanTree_spells inCarry iC hn hbody
    ⟨0, fun _ => false, [], -1, cells.outCarry, cells.signedOverflow⟩ rest
    (h.perm.nodup_iff.mpr nodup_range) fun p hp => ⟨hmem.mp hp, rfl⟩
  have hend : scanTree build n inCarry iC 0 rest s = (s, none) := by
    rw [← append_nil rest, scanTree_skips hrest, scanTree]
  have hresult : treeResult n s = .ok (t.word iC inCarry 0) := by
    have hall : (List.range n).all s.done = true := by
      rw [all_eq_true]
      intro p hp
      rw [hs.done, decide_eq_true (hmem.mpr (mem_range.mp hp)), Bool.or_true]
    rw [treeResult, hs.whichCarry, if_neg (by simp only [Nat.zero_add]; omega), hs.st]
    simp only [hall, if_true]
  refine ⟨⟨s.outCarry, s.signedOverflow, t.word iC inCarry 0⟩, ?_, rfl, hs.outCarry,
    hs.signedOverflow⟩
  rw [treeAddScalarReduce, if_neg (by omega), htext]
  simp only [hscan, hend, hresult]

end BgqDriver.NetworkReduce
