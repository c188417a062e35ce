import BgqDriver.LogMergeRecords

/-!
The search for the first record of the interval. From the last line backwards the file finds
its last record. The bisection reads from arbitrary positions: the rest of a line may then
pass for a record. If it is earlier than the interval but behind the interval's first
record, the bisection starts too late, and otherwise it does not.
-/

namespace BgqDriver.LogMerge

open TextLines Option List

variable {interval : Interval} {text : List Char} {f : File} {p q : Nat} {line : Line}

theorem lines_eq_iff : (p, line) ∈ lines text ↔
    p < text.length ∧ line = lineAt '\n' text p ∧ (p = 0 ∨ 0 < p ∧ text[p - 1]? = some '\n') :=
  mem_linesAt_iff

variable {s : Line} {fuel : Nat} {first : Nat × Line}

theorem splitItems_length {items : List Item} {rest : Line}
    (h : splitItems items line = some (s, rest)) : line.length = items.length + rest.length := by
  induction items generalizing line s with
  | nil =>
    obtain ⟨rfl, rfl⟩ := Prod.mk.inj (some.inj h)
    simp
  | cons item items ih =>
    cases line with
    | nil => exact absurd h (by simp [splitItems])
    | cons c line =>
      unfold splitItems at h
      split at h
      · obtain ⟨⟨s', rest'⟩, hsplit, heq⟩ := map_eq_some_iff.mp h
        obtain ⟨rfl, rfl⟩ := Prod.mk.inj heq
        rw [length_cons, length_cons, ih hsplit]
        omega
      · exact absurd h (by simp)

theorem split_length {format : TimestampFormat} (h : format.split line = some s) :
    format.items.length ≤ line.length := by
  unfold TimestampFormat.split at h
  split at h
  case h_1 hsplit =>
    rw [splitItems_length hsplit]
    omega
  case h_2 => exact absurd h (by simp)

theorem two_le_length_of_hasTime (h : hasTime line = true) : 2 ≤ line.length := by
  obtain ⟨t, ht⟩ := isSome_iff_exists.mp h
  obtain ⟨format, hformat, hmap⟩ := exists_of_findSome?_eq_some ht
  obtain ⟨s, hsplit, -⟩ := map_eq_some_iff.mp hmap
  have hitems : ∀ format ∈ timestampFormats, 2 ≤ format.items.length := by decide
  exact (hitems format hformat).trans (split_length hsplit)

theorem length_lt_of_mem_lines {line' : Line} (hp : (p, line) ∈ lines text)
    (hq : (q, line') ∈ lines text) (hpq : p < q) : p + line.length < q := by
  obtain ⟨_, rfl, _⟩ := lines_eq_iff.mp hp
  obtain ⟨hlt, _, rfl | ⟨hq0, hsep⟩⟩ := lines_eq_iff.mp hq
  · omega
  · rcases Nat.lt_or_ge (q - 1) (nextLine '\n' text p - 1) with hlt' | hge
    · exact absurd hsep (getElem_ne_sep (q := p) (by omega) hlt')
    · unfold nextLine at hge
      omega

/-- The current line is the one at `p`, and no later line has a timestamp. -/
structure File.LastAt (f : File) (text : List Char) (p : Nat) : Prop where
  text_eq : f.text = text
  mem : (p, lineAt '\n' text p) ∈ lines text
  current : f.currentLine = some (lineAt '\n' text p)
  start : f.lineStart ≤ p ∧ (p : Int) ≤ f.lineStart + 1
  later : ∀ q line, (q, line) ∈ lines text → p < q → hasTime line = false

theorem read_lastAt (htext : f.text = text) (position : Int)
    (hmem : (p, lineAt '\n' text p) ∈ lines text)
    (hstart : position ≤ p ∧ (p : Int) ≤ position + 1)
    (hlater : ∀ q line, (q, line) ∈ lines text → p < q → hasTime line = false) :
    (f.read position p).LastAt text p ∧ (f.read position p).lineStart = position := by
  have hp : p < f.text.length := htext ▸ (lines_eq_iff.mp hmem).1
  have hread : f.read position p = { f with
      lineStart := position, position := min (nextLine '\n' f.text p) f.text.length
      currentLine := some (lineAt '\n' f.text p) } := by
    simp [File.read, getline, hp]
  rw [hread, htext]
  exact ⟨⟨rfl, hmem, rfl, hstart, hlater⟩, rfl⟩

theorem toLastLine_lastAt (htext : f.text = text) (hlength : 2 ≤ text.length) :
    ∃ p, f.toLastLine.LastAt text p ∧ f.toLastLine.lineStart < text.length := by
  have hnone : ∀ j, (∀ k, j < k → k ≤ text.length - 2 → text[k]? ≠ some '\n') →
      ∀ q line, (q, line) ∈ lines text → j + 1 < q → hasTime line = false := by
    intro j hj q line hq hlt
    obtain ⟨hq, -, rfl | ⟨-, hsep⟩⟩ := lines_eq_iff.mp hq
    · omega
    · exact absurd hsep (hj (q - 1) (by omega) (by omega))
  unfold File.toLastLine
  rw [htext, if_neg (by omega)]
  cases hsep : lastSep '\n' text (text.length - 2) with
  | some i =>
    obtain ⟨hi, hget, hlater⟩ := lastSep_eq_some hsep
    obtain ⟨hlast, hstart⟩ := read_lastAt (f := f) htext i
      (lines_eq_iff.mpr ⟨by omega, rfl, .inr ⟨by omega, hget⟩⟩) (by omega) (hnone i hlater)
    exact ⟨i + 1, hlast, by rw [hstart]; omega⟩
  | none =>
    obtain ⟨hlast, hstart⟩ := read_lastAt (f := f) (p := 0) htext 0
      (lines_eq_iff.mpr ⟨by omega, rfl, .inl rfl⟩) (by omega) (fun q line hq hlt => by
        obtain ⟨hq, -, rfl | ⟨-, hget⟩⟩ := lines_eq_iff.mp hq
        · omega
        · exact absurd hget (lastSep_eq_none hsep (by omega)))
    exact ⟨0, hlast, by rw [hstart]; omega⟩

/-- An empty line may be left out, since the kept position may be that of the newline
before the line. -/
theorem File.LastAt.toPreviousLine (h : f.LastAt text p)
    (htime : hasTime (lineAt '\n' text p) = false) (hstart : 2 ≤ f.lineStart) :
    ∃ q, f.toPreviousLine.LastAt text q ∧ f.toPreviousLine.lineStart ≤ f.lineStart - 2 := by
  obtain ⟨hle, hle'⟩ := h.start
  obtain ⟨hp, -, -⟩ := lines_eq_iff.mp h.mem
  have hlater : ∀ j : Nat, (∀ k, j ≤ k → k ≤ f.lineStart.toNat - 2 → text[k]? ≠ some '\n') →
      ∀ q line, (q, line) ∈ lines text → j < q → hasTime line = false := by
    intro j hj q line hq hlt
    rcases Nat.lt_trichotomy q p with hqp | rfl | hpq
    · obtain ⟨hlen, -, rfl | ⟨hpos, hsep⟩⟩ := lines_eq_iff.mp hq
      · omega
      · rcases Nat.lt_or_ge (f.lineStart.toNat - 2) (q - 1) with hgt | hge
        · have hshort := length_lt_of_mem_lines hq h.mem hqp
          cases htime' : hasTime line with
          | false => rfl
          | true =>
            have := two_le_length_of_hasTime htime'
            omega
        · exact absurd hsep (hj (q - 1) (by omega) hge)
    · obtain ⟨-, rfl, -⟩ := lines_eq_iff.mp hq
      exact htime
    · exact h.later q line hq hpq
  unfold File.toPreviousLine
  rw [h.text_eq, if_neg (by omega)]
  cases hsep : lastSep '\n' text (f.lineStart.toNat - 2) with
  | some i =>
    obtain ⟨hi, hget, hmax⟩ := lastSep_eq_some hsep
    obtain ⟨hlast, hstart'⟩ := read_lastAt (f := f) h.text_eq i
      (lines_eq_iff.mpr ⟨by omega, rfl, .inr ⟨by omega, hget⟩⟩) (by omega)
      (hlater (i + 1) fun k hk hk' => hmax k (by omega) hk')
    exact ⟨i + 1, hlast, by rw [hstart']; omega⟩
  | none =>
    obtain ⟨hlast, hstart'⟩ := read_lastAt (f := f) (p := 0) h.text_eq (-1)
      (lines_eq_iff.mpr ⟨by omega, rfl, .inl rfl⟩) (by omega)
      (hlater 0 fun k _ hk => lastSep_eq_none hsep hk)
    exact ⟨0, hlast, by rw [hstart']; omega⟩

theorem File.LastAt.seek (h : f.LastAt text p) (hfuel : f.lineStart < fuel) (hpos : 0 < fuel)
    (hq : (q, line) ∈ lines text) (htime : hasTime line = true) :
    ∃ r, (File.seek hasTime File.toPreviousLine fuel f).LastAt text r ∧
      hasTime (lineAt '\n' text r) = true := by
  induction fuel generalizing f p with
  | zero => omega
  | succ fuel ih =>
    simp only [File.seek, h.current]
    cases hp : hasTime (lineAt '\n' text p) with
    | true => exact ⟨p, by simpa using h, hp⟩
    | false =>
      by_cases hstart : f.lineStart < 2
      · -- No line with a timestamp fits before the first two positions.
        rcases Nat.lt_trichotomy q p with hqp | rfl | hpq
        · have hshort := length_lt_of_mem_lines hq h.mem hqp
          have hlong := two_le_length_of_hasTime htime
          have := h.start
          omega
        · obtain ⟨-, rfl, -⟩ := lines_eq_iff.mp hq
          rw [hp] at htime
          exact absurd htime (by simp)
        · rw [h.later q line hq hpq] at htime
          exact absurd htime (by simp)
      · obtain ⟨r, hr, hle⟩ := h.toPreviousLine hp (by omega)
        exact ih hr (by omega) (by omega)

/-- The timestamps of a file are times, and do not decrease. -/
structure Chronological (text : List Char) : Prop where
  dates : ∀ x ∈ lines text, parseLine x.2 ≠ some none
  sorted : (lines text).Pairwise fun x y =>
    ∀ s t, parseLine x.2 = some (some s) → parseLine y.2 = some (some t) → s ≤ t

def ReadsBefore (interval : Interval) (text : List Char) (p : Nat) : Prop :=
  ∃ t, parseLine (lineAt '\n' text p) = some t ∧ interval.before t = true

/-- The first line with a timestamp that is read from the position, if it is before the
interval. -/
def beforeFrom (interval : Interval) (text : List Char) (p : Nat) : Option Nat :=
  match (linesAt '\n' text p).find? fun x => hasTime x.2 with
  | some x => if interval.before ((parseLine x.2).getD none) then some x.1 else none
  | none => none

def searchProbes (interval : Interval) (text : List Char) : Nat → Nat → Nat → List Nat
  | 0, _, _ => []
  | fuel + 1, start, stop =>
    if 10 * 1024 < stop - start then
      let p := (start + stop) / 2
      p :: match beforeFrom interval text p with
        | some q => searchProbes interval text fuel q stop
        | none => searchProbes interval text fuel start p
    else []

theorem searchProbes_of_le {start stop : Nat} (h : stop - start ≤ 10 * 1024) :
    searchProbes interval text fuel start stop = [] := by
  cases fuel with
  | zero => rfl
  | succ fuel => rw [searchProbes, if_neg (by omega)]

theorem beforeFrom_eq_some (h : beforeFrom interval text p = some q) :
    ReadsBefore interval text q ∧ (q = p ∨ p < q ∧ (q, lineAt '\n' text q) ∈ lines text) := by
  unfold beforeFrom at h
  split at h
  case h_1 x hfind =>
    obtain ⟨r, line⟩ := x
    have htime := find?_some hfind
    obtain ⟨hlen, rfl, hpos⟩ := mem_linesAt_iff.mp (mem_of_find?_eq_some hfind)
    obtain ⟨t, hparse⟩ := isSome_iff_exists.mp htime
    simp only [hparse, getD_some] at h
    split at h
    · cases h
      refine ⟨⟨t, hparse, ‹_›⟩, ?_⟩
      rcases hpos with rfl | ⟨hlt, hsep⟩
      · exact .inl rfl
      · exact .inr ⟨hlt, lines_eq_iff.mpr ⟨hlen, rfl, .inr ⟨by omega, hsep⟩⟩⟩
    · exact absurd h (by simp)
  case h_2 => exact absurd h (by simp)

theorem beforeFrom_eq_none (h : beforeFrom interval text p = none) :
    ¬ ReadsBefore interval text p := by
  rintro ⟨t, hparse, hbefore⟩
  have htime : hasTime (lineAt '\n' text p) = true := by simp [hasTime, hparse]
  rcases Nat.lt_or_ge p text.length with hp | hp
  · unfold beforeFrom at h
    rw [linesAt_of_lt hp, find?_cons_of_pos (by exact htime)] at h
    simp [hparse, hbefore] at h
  · have hempty : lineAt '\n' text p = [] := by simp [lineAt, drop_of_length_le hp]
    have hlong := two_le_length_of_hasTime htime
    rw [hempty] at hlong
    simp at hlong

theorem probe_eq (interval : Interval) (htext : f.text = text) (p : Nat) :
    (probe f p).text = text ∧ probesEnd interval (probe f p) = (beforeFrom interval text p).isNone ∧
      ∀ q ∈ beforeFrom interval text p, (probe f p).lineStart = q := by
  have hread := read_at htext p
  have hat : (probe f p).At text ((linesAt '\n' text p).dropWhile fun x => !hasTime x.2) := by
    have hfuel : (f.jumpTo p).fuel = f.fuel := by
      rw [File.fuel, File.fuel, htext]
      exact congrArg (·.length + 2) hread.text_eq
    unfold probe
    rw [← hfuel]
    exact hread.seek_fuel _
  refine ⟨hat.text_eq, ?_⟩
  unfold probesEnd beforeFrom
  rw [hat.current, find?_eq_head?_dropWhile_not]
  have hstart := hat.start
  cases hhead : ((linesAt '\n' text p).dropWhile fun x => !hasTime x.2).head? with
  | none => simp
  | some x =>
    have hx := hstart x hhead
    cases hbefore : interval.before ((parseLine x.2).getD none) with
    | true => simpa [hbefore] using hx
    | false => simp [hbefore]

theorem searchStart_succ (interval : Interval) (htext : f.text = text) (fuel start stop : Nat) :
    ∃ f', f'.text = text ∧ searchStart interval f (fuel + 1) start stop =
      if 10 * 1024 < stop - start then
        match beforeFrom interval text ((start + stop) / 2) with
        | some q => searchStart interval f' fuel q stop
        | none => searchStart interval f' fuel start ((start + stop) / 2)
      else start := by
  obtain ⟨htext', hend, hstart⟩ := probe_eq interval htext ((start + stop) / 2)
  refine ⟨_, htext', ?_⟩
  rw [searchStart]
  cases hbefore : beforeFrom interval text ((start + stop) / 2) with
  | none => simp [hend, hbefore]
  | some q => simp [hend, hbefore, hstart q hbefore]

theorem searchStart_spec (interval : Interval) (htext : f.text = text) (fuel start stop : Nat) :
    start ≤ searchStart interval f fuel start stop ∧
      (searchStart interval f fuel start stop = start ∨
        ReadsBefore interval text (searchStart interval f fuel start stop)) := by
  induction fuel generalizing f start stop with
  | zero => exact ⟨Nat.le_refl _, .inl rfl⟩
  | succ fuel ih =>
    obtain ⟨f', htext', heq⟩ := searchStart_succ interval htext fuel start stop
    rw [heq]
    split
    · split
      case h_1 q hbefore =>
        obtain ⟨hreads, hq⟩ := beforeFrom_eq_some hbefore
        obtain ⟨hle, hend⟩ := ih htext' q stop
        refine ⟨by omega, .inr ?_⟩
        rcases hend with hsame | hlater
        · rwa [hsame]
        · exact hlater
      case h_2 => exact ih htext' _ _
    · exact ⟨Nat.le_refl _, .inl rfl⟩

theorem searchRaises_eq (interval : Interval) (htext : f.text = text) (fuel start stop : Nat) :
    searchRaises interval f fuel start stop =
      (searchProbes interval text fuel start stop).any fun p => raises (lineAt '\n' text p) := by
  induction fuel generalizing f start stop with
  | zero => rfl
  | succ fuel ih =>
    obtain ⟨htext', hend, hstart⟩ := probe_eq interval htext ((start + stop) / 2)
    rw [searchRaises, searchProbes, htext]
    split
    · cases hbefore : beforeFrom interval text ((start + stop) / 2) with
      | none => simp [hend, hbefore, ih htext']
      | some q => simp [hend, hbefore, hstart q hbefore, ih htext']
    · rfl

theorem includes_of_inInterval (h : inInterval interval line = true) :
    ∃ t, parseLine line = some t ∧ interval.includes t = true := by
  unfold inInterval at h
  cases hparse : parseLine line with
  | none => simp [hparse] at h
  | some t => exact ⟨t, rfl, by simpa [hparse] using h⟩

theorem includes_some {t : Nat} :
    interval.includes (some t) = true ↔ interval.start ≤ t ∧ t ≤ interval.stop := by
  simp [Interval.includes, Interval.before, Interval.after]

theorem Chronological.le (h : Chronological text) {x y : Nat × Line} (hx : x ∈ lines text)
    (hy : y ∈ lines text) (hle : x.1 ≤ y.1) {s t : PTime} (hs : parseLine x.2 = some s)
    (ht : parseLine y.2 = some t) : ∃ m n, s = some m ∧ t = some n ∧ m ≤ n := by
  have hdate := h.dates x hx
  have hdate' := h.dates y hy
  rw [hs] at hdate
  rw [ht] at hdate'
  obtain ⟨m, rfl⟩ : ∃ m, s = some m := ne_none_iff_exists'.mp fun hs => hdate (by rw [hs])
  obtain ⟨n, rfl⟩ : ∃ n, t = some n := ne_none_iff_exists'.mp fun ht => hdate' (by rw [ht])
  refine ⟨m, n, rfl, rfl, ?_⟩
  rcases Nat.eq_or_lt_of_le hle with heq | hlt
  · obtain ⟨-, hline, -⟩ := lines_eq_iff.mp hx
    obtain ⟨-, hline', -⟩ := lines_eq_iff.mp hy
    rw [hline, heq, ← hline', ht] at hs
    exact (some.inj (some.inj hs)).symm.le
  · exact rel_of_lt h.sorted hx hy hlt m n hs ht

section

variable (h : Chronological text) (hfirst : first ∈ lines text)
  (hin : inInterval interval first.2 = true)
include h hfirst hin

theorem Chronological.not_readsBefore (hq : (q, lineAt '\n' text q) ∈ lines text)
    (hle : first.1 ≤ q) : ¬ ReadsBefore interval text q := by
  rintro ⟨t, hparse, hbefore⟩
  obtain ⟨s, hs, hincludes⟩ := includes_of_inInterval hin
  obtain ⟨m, n, rfl, rfl, hmn⟩ := h.le hfirst hq hle hs hparse
  rw [includes_some] at hincludes
  simp only [Interval.before, decide_eq_true_eq] at hbefore
  omega

/-- The bisection goes beyond the first record of the interval exactly if it reads, behind
that record, the rest of a line as a record before the interval. -/
theorem lt_searchStart_iff {start stop : Nat} (htext : f.text = text)
    (hstart : start ≤ first.1) : first.1 < searchStart interval f fuel start stop ↔
      ∃ p ∈ searchProbes interval text fuel start stop, first.1 < p ∧
        ReadsBefore interval text p := by
  induction fuel generalizing f start stop with
  | zero => simpa [searchStart, searchProbes] using hstart
  | succ fuel ih =>
    obtain ⟨f', htext', heq⟩ := searchStart_succ interval htext fuel start stop
    rw [heq, searchProbes]
    split
    · simp only [mem_cons, exists_eq_or_imp]
      cases hbefore : beforeFrom interval text ((start + stop) / 2) with
      | none =>
        rw [ih htext' hstart]
        exact ⟨.inr, fun hor => hor.resolve_left fun hbad => beforeFrom_eq_none hbefore hbad.2⟩
      | some q =>
        simp only
        obtain ⟨hreads, hcases⟩ := beforeFrom_eq_some hbefore
        rcases Nat.lt_or_ge first.1 q with hlt | hle
        · -- Only the rest of a line can be before the interval here.
          rcases hcases with rfl | ⟨-, hmem⟩
          · obtain ⟨hmono, -⟩ := searchStart_spec interval htext' fuel ((start + stop) / 2) stop
            exact ⟨fun _ => .inl ⟨hlt, hreads⟩, fun _ => by omega⟩
          · exact absurd hreads (h.not_readsBefore hfirst hin hmem hlt.le)
        · rw [ih htext' hle]
          refine ⟨.inr, fun hor => hor.resolve_left fun hbad => ?_⟩
          omega
    · simpa using hstart

end

end BgqDriver.LogMerge
