import Mathlib.Data.List.TakeWhile

/-!
Lines of a text, with the positions at which they start. A line ends before a separator
or at the end of the text. Reading may start in the middle of a line: then only the rest of
that line is read, and all later lines are those of the whole text.
-/

namespace BgqDriver.TextLines

open List

variable {α : Type*} [DecidableEq α] (sep : α) (text : List α)

def lineAt (p : Nat) : List α := (text.drop p).takeWhile (· ≠ sep)

def nextLine (p : Nat) : Nat := p + (lineAt sep text p).length + 1

def linesAt (p : Nat) : List (Nat × List α) :=
  if p < text.length then (p, lineAt sep text p) :: linesAt (nextLine sep text p) else []
termination_by text.length - p
decreasing_by unfold nextLine; omega

variable {sep text} {p q r : Nat}

theorem linesAt_of_lt (h : p < text.length) :
    linesAt sep text p = (p, lineAt sep text p) :: linesAt sep text (nextLine sep text p) := by
  rw [linesAt, if_pos h]

theorem linesAt_of_le (h : text.length ≤ p) : linesAt sep text p = [] := by
  rw [linesAt, if_neg (by omega)]

theorem linesAt_min (p : Nat) : linesAt sep text (min p text.length) = linesAt sep text p := by
  rcases Nat.le_total p text.length with h | h
  · rw [Nat.min_eq_left h]
  · rw [Nat.min_eq_right h, linesAt_of_le h, linesAt_of_le (Nat.le_refl _)]

omit [DecidableEq α] in
theorem takeWhile_drop_of_le {f : α → Bool} {l : List α} {k : Nat}
    (h : k ≤ (l.takeWhile f).length) : (l.drop k).takeWhile f = (l.takeWhile f).drop k := by
  induction l generalizing k with
  | nil => simp
  | cons a l ih =>
    cases k with
    | zero => rfl
    | succ k =>
      cases ha : f a with
      | false => simp [ha] at h
      | true =>
        simp only [takeWhile_cons, ha, if_true, length_cons, Nat.add_le_add_iff_right] at h
        simpa [takeWhile_cons, ha] using ih h

theorem lineAt_eq_drop (hq : q ≤ p) (hp : p < nextLine sep text q) :
    lineAt sep text p = (lineAt sep text q).drop (p - q) := by
  unfold nextLine lineAt at hp
  rw [lineAt, lineAt, ← takeWhile_drop_of_le (by omega), drop_drop]
  congr 2
  omega

theorem nextLine_eq (hq : q ≤ p) (hp : p < nextLine sep text q) :
    nextLine sep text p = nextLine sep text q := by
  have hline := congrArg List.length (lineAt_eq_drop hq hp)
  unfold nextLine at hp ⊢
  rw [length_drop] at hline
  omega

theorem getElem_nextLine (h : nextLine sep text p ≤ text.length) :
    text[nextLine sep text p - 1]? = some sep := by
  unfold nextLine lineAt at *
  generalize hrest : text.drop p = rest at *
  have hlength := congrArg List.length hrest
  rw [length_drop] at hlength
  have hget : text[p + (rest.takeWhile (· ≠ sep)).length]? =
      rest[(rest.takeWhile (· ≠ sep)).length]? := by
    rw [← hrest, getElem?_drop]
  rw [Nat.add_sub_cancel, hget]
  have hstop : ∀ l : List α, (l.takeWhile (· ≠ sep)).length < l.length →
      l[(l.takeWhile (· ≠ sep)).length]? = some sep := by
    intro l hl
    induction l with
    | nil => simp at hl
    | cons a l ih =>
      by_cases ha : a = sep
      · simp [ha]
      · simp only [takeWhile_cons, ne_eq, ha, not_false_eq_true, decide_true, if_true,
          length_cons, Nat.add_lt_add_iff_right] at hl ⊢
        exact ih hl
  exact hstop rest (by omega)

theorem getElem_ne_sep (hq : q ≤ p) (hp : p < nextLine sep text q - 1) : text[p]? ≠ some sep := by
  unfold nextLine lineAt at hp
  obtain ⟨k, rfl⟩ := Nat.exists_eq_add_of_le hq
  rw [← getElem?_drop]
  generalize text.drop q = rest at hp ⊢
  have hk : k < (rest.takeWhile (· ≠ sep)).length := by omega
  intro hsep
  obtain ⟨hlt, hget⟩ := List.getElem?_eq_some_iff.mp hsep
  have hmem := getElem_mem hk
  have hfirst : rest.takeWhile (· ≠ sep) <+: rest := takeWhile_prefix _
  rw [hfirst.getElem hk, hget] at hmem
  exact absurd (mem_takeWhile_imp hmem) (by simp)

theorem le_of_mem_linesAt {line : List α} (h : (r, line) ∈ linesAt sep text q) :
    q ≤ r ∧ r < text.length ∧ line = lineAt sep text r := by
  induction q using linesAt.induct sep text with
  | case1 q hq ih =>
    rw [linesAt_of_lt hq, mem_cons] at h
    rcases h with h | h
    · obtain ⟨rfl, rfl⟩ := Prod.mk.inj h
      exact ⟨Nat.le_refl _, hq, rfl⟩
    · obtain ⟨hle, hlt, hline⟩ := ih h
      unfold nextLine at hle
      exact ⟨by omega, hlt, hline⟩
  | case2 q hq =>
    rw [linesAt_of_le (by omega)] at h
    simp at h

theorem length_linesAt_le (sep : α) (text : List α) (q : Nat) :
    (linesAt sep text q).length ≤ text.length := by
  suffices h : (linesAt sep text q).length ≤ text.length - q by omega
  induction q using linesAt.induct sep text with
  | case1 q hq ih =>
    rw [linesAt_of_lt hq, length_cons]
    unfold nextLine at ih
    unfold nextLine
    omega
  | case2 q hq => simp [linesAt_of_le (by omega : text.length ≤ q)]

theorem pairwise_linesAt (sep : α) (text : List α) (q : Nat) :
    (linesAt sep text q).Pairwise (fun a b => a.1 < b.1) := by
  induction q using linesAt.induct sep text with
  | case1 q hq ih =>
    rw [linesAt_of_lt hq]
    refine pairwise_cons.mpr ⟨?_, ih⟩
    rintro ⟨r, line⟩ hmem
    have hle := (le_of_mem_linesAt hmem).1
    unfold nextLine at hle
    omega
  | case2 q hq =>
    rw [linesAt_of_le (by omega)]
    exact Pairwise.nil

theorem rel_of_lt {R : Nat × List α → Nat × List α → Prop} {a b : Nat × List α}
    (h : (linesAt sep text q).Pairwise R) (ha : a ∈ linesAt sep text q)
    (hb : b ∈ linesAt sep text q) (hlt : a.1 < b.1) : R a b := by
  have hpos := pairwise_linesAt sep text q
  generalize linesAt sep text q = l at *
  induction l with
  | nil => simp at ha
  | cons c l ih =>
    rw [pairwise_cons] at h hpos
    rcases mem_cons.mp ha with rfl | hal
    · rcases mem_cons.mp hb with rfl | hbl
      · exact absurd hlt (Nat.lt_irrefl _)
      · exact h.1 b hbl
    · rcases mem_cons.mp hb with rfl | hbl
      · exact absurd hlt (Nat.lt_asymm (hpos.1 a hal))
      · exact ih h.2 hal hbl hpos.2

theorem tail_linesAt (sep : α) (text : List α) (hq : q ≤ p) :
    (linesAt sep text p).tail = (linesAt sep text q).filter (fun a => p < a.1) := by
  induction q using linesAt.induct sep text with
  | case1 q hlt ih =>
    rw [linesAt_of_lt hlt, filter_cons_of_neg (by simpa using hq)]
    rcases Nat.lt_or_ge p (nextLine sep text q) with hp | hp
    · have hall : (linesAt sep text (nextLine sep text q)).filter (fun a => p < a.1) =
          linesAt sep text (nextLine sep text q) := by
        refine filter_eq_self.mpr fun a ha => ?_
        have hle := (le_of_mem_linesAt ha).1
        simp only [decide_eq_true_eq]
        omega
      rw [hall]
      rcases Nat.lt_or_ge p text.length with hlen | hlen
      · rw [linesAt_of_lt hlen, tail_cons, nextLine_eq hq hp]
      · rw [linesAt_of_le hlen, linesAt_of_le (by omega)]
        rfl
    · exact ih hp
  | case2 q hge =>
    rw [linesAt_of_le (by omega : text.length ≤ p), linesAt_of_le (by omega : text.length ≤ q)]
    rfl

theorem mem_linesAt_iff {line : List α} : (r, line) ∈ linesAt sep text q ↔
    r < text.length ∧ line = lineAt sep text r ∧
      (r = q ∨ q < r ∧ text[r - 1]? = some sep) := by
  induction q using linesAt.induct sep text with
  | case1 q hq ih =>
    rw [linesAt_of_lt hq, mem_cons, ih, Prod.mk.injEq]
    constructor
    · rintro (⟨rfl, rfl⟩ | ⟨hr, hline, hr' | ⟨hr', hsep⟩⟩)
      · exact ⟨hq, rfl, .inl rfl⟩
      · refine ⟨hr, hline, .inr ⟨by rw [hr']; unfold nextLine; omega, ?_⟩⟩
        rw [hr'] at hr ⊢
        exact getElem_nextLine (by omega)
      · unfold nextLine at hr'
        exact ⟨hr, hline, .inr ⟨by omega, hsep⟩⟩
    · rintro ⟨hr, hline, rfl | ⟨hr', hsep⟩⟩
      · exact .inl ⟨rfl, hline⟩
      · refine .inr ⟨hr, hline, ?_⟩
        rcases Nat.lt_trichotomy r (nextLine sep text q) with hlt | heq | hgt
        · exact absurd hsep (getElem_ne_sep (q := q) (by omega) (by omega))
        · exact .inl heq
        · exact .inr ⟨hgt, hsep⟩
  | case2 q hq =>
    rw [linesAt_of_le (by omega)]
    constructor
    · exact fun h => absurd h (by simp)
    · rintro ⟨hr, -, rfl | ⟨hr', -⟩⟩ <;> omega

theorem lineAt_append {line : List α} (pre rest : List α) (h : sep ∉ line) :
    lineAt sep (pre ++ (line ++ sep :: rest)) pre.length = line := by
  rw [lineAt, drop_left, takeWhile_append_of_pos]
  · simp
  · intro a ha
    simpa using fun heq : a = sep => h (heq ▸ ha)

theorem nextLine_append {line : List α} (pre rest : List α) (h : sep ∉ line) :
    nextLine sep (pre ++ (line ++ sep :: rest)) pre.length = (pre ++ (line ++ [sep])).length := by
  rw [nextLine, lineAt_append pre rest h]
  simp
  omega

variable (sep text) in
def lastSep : Nat → Option Nat
  | 0 => if text[0]? = some sep then some 0 else none
  | i + 1 => if text[i + 1]? = some sep then some (i + 1) else lastSep i

theorem lastSep_eq_some {i j : Nat} (h : lastSep sep text i = some j) :
    j ≤ i ∧ text[j]? = some sep ∧ ∀ k, j < k → k ≤ i → text[k]? ≠ some sep := by
  fun_induction lastSep sep text i with
  | case1 | case3 =>
    cases h
    exact ⟨Nat.le_refl _, ‹_›, fun k hk hk' => by omega⟩
  | case2 => cases h
  | case4 i hne ih =>
    obtain ⟨hle, hsep, hall⟩ := ih h
    refine ⟨by omega, hsep, fun k hk hk' => ?_⟩
    rcases Nat.lt_or_ge i k with hlt | hge
    · rwa [show k = i + 1 by omega]
    · exact hall k hk hge

theorem lastSep_eq_none {i k : Nat} (h : lastSep sep text i = none) (hk : k ≤ i) :
    text[k]? ≠ some sep := by
  fun_induction lastSep sep text i with
  | case1 | case3 => cases h
  | case2 => rwa [show k = 0 by omega]
  | case4 i hne ih =>
    rcases Nat.lt_or_ge i k with hlt | hge
    · rwa [show k = i + 1 by omega]
    · exact ih h hge

end BgqDriver.TextLines
