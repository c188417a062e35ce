import BgqDriver.LogMergeSearch

/-!
The output of `log_merge`. A file yields its records of the interval unless the search for
the first of them is misled, and the merge prints the records of all files in the order of
their times.
-/

namespace BgqDriver.LogMerge

open TextLines List Option Bool Prod

variable {interval : Interval} {text : List Char} {f : File} {lf : LogFile}
  {L A B : List (Nat × Line)} {rs : List LogRecord}

def includesRecord (interval : Interval) (r : LogRecord) : Bool := interval.includes r.timestamp

theorem length_filter_recordsOf (ls : List Line) :
    ((recordsOf ls).filter (includesRecord interval)).length =
      ls.countP (inInterval interval) := by
  induction ls with
  | nil => rfl
  | cons line ls ih =>
    rw [countP_cons, ← ih]
    cases hline : parseLine line with
    | none => simp [recordsOf, hline, inInterval]
    | some t =>
      cases hin : interval.includes t <;>
        simp [recordsOf, hline, inInterval, includesRecord, hin]

theorem filter_recordsOf_append {as bs : List Line} (h : ∀ l ∈ as, inInterval interval l = false) :
    (recordsOf (as ++ bs)).filter (includesRecord interval) =
      (recordsOf bs).filter (includesRecord interval) := by
  induction as with
  | nil => rfl
  | cons line as ih =>
    have hline := h line (by simp)
    rw [← ih fun l hl => h l (by simp [hl]), cons_append, recordsOf]
    cases hparse : parseLine line with
    | none => rfl
    | some t =>
      simp only [inInterval, hparse] at hline
      simp [includesRecord, hline]

variable {ls : List Line}

theorem filter_recordsOf_eq_nil (h : ∀ l ∈ ls, inInterval interval l = false) :
    (recordsOf ls).filter (includesRecord interval) = [] := by
  rw [← append_nil ls, filter_recordsOf_append h]
  rfl

theorem filter_fileRecords_eq_nil (h : ∀ x ∈ lines text, inInterval interval x.2 = false) :
    (fileRecords text).filter (includesRecord interval) = [] := by
  refine filter_recordsOf_eq_nil fun l hl => ?_
  obtain ⟨x, hx, rfl⟩ := mem_map.mp hl
  exact h x hx

theorem takeWhile_recordsOf (hdates : ∀ l ∈ ls, parseLine l ≠ some none)
    (hsorted : ls.Pairwise fun x y =>
      ∀ s t, parseLine x = some (some s) → parseLine y = some (some t) → s ≤ t)
    (hbefore : ∀ l ∈ ls, ∀ t, parseLine l = some t → interval.before t = false) :
    (recordsOf ls).takeWhile (includesRecord interval) =
      (recordsOf ls).filter (includesRecord interval) := by
  induction ls with
  | nil => rfl
  | cons line ls ih =>
    have htail := ih (fun l hl => hdates l (by simp [hl])) (pairwise_cons.mp hsorted).2
      fun l hl => hbefore l (by simp [hl])
    rw [recordsOf]
    cases hparse : parseLine line with
    | none => exact htail
    | some t =>
      have hnot := hbefore line (by simp) t hparse
      cases hin : interval.includes t with
      | true => simp [includesRecord, hin, htail]
      | false =>
        -- The record is after the interval, and so are all later ones.
        obtain ⟨s, rfl⟩ : ∃ s, t = some s :=
          ne_none_iff_exists'.mp fun ht => hdates line (by simp) (by rw [hparse, ht])
        have hafter : interval.stop < s := by
          simpa [Interval.includes, hnot, Interval.after] using hin
        have hrest : (recordsOf ls).filter (includesRecord interval) = [] := by
          refine filter_recordsOf_eq_nil fun l hl => ?_
          unfold inInterval
          cases hl' : parseLine l with
          | none => rfl
          | some u =>
            obtain ⟨u, rfl⟩ : ∃ v, u = some v := ne_none_iff_exists'.mp
              fun hu => hdates l (by simp [hl]) (by rw [hl', hu])
            have hle := (pairwise_cons.mp hsorted).1 l hl s u hparse hl'
            rw [← not_eq_true, includes_some]
            omega
        simp [includesRecord, hin]
        simpa [includesRecord] using hrest

/-- The bisection reads the rest of a line behind the first record of the interval as a
record before the interval. There is a bisection if the first record of the file is before
the interval. -/
def Misled (interval : Interval) (text : List Char) : Prop :=
  (∃ x ∈ (lines text).find? (fun x => hasTime x.2), ∃ t, parseLine x.2 = some t ∧
    interval.before t = true) ∧
  ∃ first ∈ (lines text).find? (fun x => inInterval interval x.2),
    ∃ p ∈ searchProbes interval text (text.length + 2) 0 text.length,
      first.1 < p ∧ ReadsBefore interval text p

/-- The bisection reads the rest of a line that ends the program by an exception. The file has
a first record before the interval and a record that is not. -/
def Interrupted (interval : Interval) (text : List Char) : Prop :=
  (∃ x ∈ (lines text).find? (fun x => hasTime x.2), ∃ t, parseLine x.2 = some t ∧
    interval.before t = true ∧ interval.after t = false) ∧
  (∃ y ∈ lines text, ∃ t, parseLine y.2 = some t ∧ interval.before t = false) ∧
  ∃ p ∈ searchProbes interval text (text.length + 2) 0 text.length,
    raises (lineAt '\n' text p) = true

/-- What the constructor of a file leads to, and when it throws. -/
def Opens (interval : Interval) (text : List Char) (opened : LogFile × Bool) : Prop :=
  (∃ rs, Yields interval opened.1 rs ∧
    (rs = (fileRecords text).filter (includesRecord interval) ↔ ¬ Misled interval text)) ∧
  (opened.2 = true ↔ Interrupted interval text)

variable {lf0 : LogFile} {x first : Nat × Line} {p : Nat} {t : PTime}

theorem at_ready (hat : f.At text (x :: L)) (htime : hasTime x.2 = true)
    (hhas : lf0.hasRecord = true) (heof : lf0.eof = false) :
    (lf0.at f).Ready text (x :: L) ∧ parseLine x.2 = some (lf0.at f).nextTime := by
  obtain ⟨t, hparse⟩ := isSome_iff_exists.mp htime
  have hcurrent : f.currentLine = some x.2 := hat.current
  have hlf : lf0.at f = { lf0 with file := f, nextLine := x.2, nextTime := t } := by
    simp [LogFile.at, hcurrent, hparse]
  rw [hlf]
  refine ⟨⟨hat, hhas, heof, ?_, ?_⟩, hparse⟩
  · intro y hy
    obtain rfl : x = y := by simpa using hy
    rfl
  · intro y hy
    obtain rfl : x = y := by simpa using hy
    exact hparse

theorem yields_at (hat : f.At text L) (hfirst : ∀ x ∈ L.head?, inInterval interval x.2 = true)
    (hlength : L.length ≤ text.length) (hhas : lf0.hasRecord = true) (heof : lf0.eof = false) :
    Yields interval
      (if f.currentLine.isNone then { lf0.at f with hasRecord := false }
        else (lf0.at f).advance interval)
      ((recordsOf (L.map snd)).takeWhile (includesRecord interval)) := by
  cases L with
  | nil =>
    have hcurrent : f.currentLine = none := hat.current
    rw [if_pos (by simp [hcurrent])]
    exact Yields.none rfl
  | cons x L =>
    have hcurrent : f.currentLine = some x.2 := hat.current
    rw [if_neg (by simp [hcurrent])]
    obtain ⟨t, hparse, hin⟩ := includes_of_inInterval (hfirst x (by simp))
    obtain ⟨hready, htime⟩ := at_ready hat (by simp [hasTime, hparse]) hhas heof
    rw [hparse] at htime
    rw [some.inj htime] at hin
    exact hready.yields (by simpa using Nat.le_of_succ_le hlength) hin

theorem ReadsBefore.not_inInterval (h : ReadsBefore interval text p) :
    inInterval interval (lineAt '\n' text p) = false := by
  obtain ⟨t, hparse, hbefore⟩ := h
  simp [inInterval, hparse, Interval.includes, hbefore]

structure Divided (interval : Interval) (text : List Char) (A : List (Nat × Line))
    (first : Nat × Line) (B : List (Nat × Line)) : Prop where
  lines_eq : lines text = A ++ first :: B
  before : ∀ x ∈ A, inInterval interval x.2 = false
  first : inInterval interval first.2 = true

section

variable (h : Divided interval text A first B)
include h

theorem Divided.positions : (∀ x ∈ A, x.1 < first.1) ∧ ∀ x ∈ B, first.1 < x.1 := by
  have hpos := pairwise_linesAt '\n' text 0
  rw [show linesAt '\n' text 0 = A ++ first :: B from h.lines_eq, pairwise_append] at hpos
  refine ⟨fun x hx => hpos.2.2 x hx first (by simp), fun x hx => ?_⟩
  exact (pairwise_cons.mp hpos.2.1).1 x hx

theorem Divided.filter : (lines text).filter (fun x => p < x.1) =
      A.filter (fun x => p < x.1) ++ (first :: B).filter (fun x => p < x.1) := by
  rw [h.lines_eq, filter_append]

theorem Divided.dropWhile_eq (hp : p ≤ first.1) (hstart : p = 0 ∨ ReadsBefore interval text p) :
    (linesAt '\n' text p).dropWhile (fun x => !inInterval interval x.2) = first :: B := by
  obtain ⟨hposA, hposB⟩ := h.positions
  have hmem : first ∈ lines text := by simp [h.lines_eq]
  obtain ⟨hlt, hline, -⟩ := lines_eq_iff.mp hmem
  have hall : ∀ q < first.1 + 1, B.filter (fun x => q < x.1) = B := by
    intro q hq
    refine filter_eq_self.mpr fun x hx => ?_
    have := hposB x hx
    simp only [decide_eq_true_eq]
    omega
  have htail : linesAt '\n' text (nextLine '\n' text p) =
      (lines text).filter (fun x => p < x.1) := by
    have htail := tail_linesAt '\n' text (Nat.zero_le p)
    rwa [linesAt_of_lt (by omega : p < text.length), tail_cons] at htail
  rw [linesAt_of_lt (by omega : p < text.length), htail, h.filter]
  rcases Nat.eq_or_lt_of_le hp with rfl | hlt'
  · have hnil : A.filter (fun x => first.1 < x.1) = [] := by
      refine filter_eq_nil_iff.mpr fun x hx => ?_
      have := hposA x hx
      simp only [decide_eq_true_eq]
      omega
    rw [hnil, nil_append, filter_cons_of_neg (by simp), hall _ (by omega), ← hline,
      dropWhile_cons_of_neg (by simp [h.first])]
  · have hnot : inInterval interval (lineAt '\n' text p) = false := by
      rcases hstart with rfl | hreads
      · have hzero : (0, lineAt '\n' text 0) ∈ lines text :=
          lines_eq_iff.mpr ⟨by omega, rfl, .inl rfl⟩
        rw [h.lines_eq, mem_append, mem_cons] at hzero
        rcases hzero with hzero | hzero | hzero
        · exact h.before _ hzero
        · rw [← hzero] at hlt'
          exact absurd hlt' (Nat.lt_irrefl _)
        · exact absurd (hposB _ hzero) (Nat.not_lt_zero _)
      · exact hreads.not_inInterval
    rw [dropWhile_cons_of_pos (by simp [hnot]), dropWhile_append_of_pos]
    · rw [filter_cons_of_pos (by simpa using hlt'), hall _ (by omega),
        dropWhile_cons_of_neg (by simp [h.first])]
    · intro x hx
      simp [h.before x (mem_filter.mp hx).1]

theorem Divided.countP_lt (hp : first.1 < p) (hreads : ReadsBefore interval text p) :
    (linesAt '\n' text p).countP (fun x => inInterval interval x.2) <
      (lines text).countP (fun x => inInterval interval x.2) := by
  have htail := tail_linesAt '\n' text (Nat.zero_le p)
  have hcount : (linesAt '\n' text p).countP (fun x => inInterval interval x.2) =
      (linesAt '\n' text p).tail.countP (fun x => inInterval interval x.2) := by
    rcases Nat.lt_or_ge p text.length with hlt | hge
    · rw [linesAt_of_lt hlt, tail_cons, countP_cons_of_neg (by simp [hreads.not_inInterval])]
    · rw [linesAt_of_le hge]
      rfl
  have hA : A.countP (fun x => inInterval interval x.2) = 0 :=
    countP_eq_zero.mpr fun x hx => by simp [h.before x hx]
  have hAf : (A.filter (fun x => p < x.1)).countP (fun x => inInterval interval x.2) = 0 :=
    countP_eq_zero.mpr fun x hx => by simp [h.before x (mem_filter.mp hx).1]
  have hB : (B.filter (fun x => p < x.1)).countP (fun x => inInterval interval x.2) ≤
      B.countP (fun x => inInterval interval x.2) :=
    (filter_sublist).countP_le
  have hsplit : (linesAt '\n' text p).tail = (lines text).filter (fun x => p < x.1) := htail
  rw [hcount, hsplit, h.filter, h.lines_eq, countP_append, countP_append, hA, hAf,
    filter_cons_of_neg (by simpa using hp.le), countP_cons_of_pos (by simpa using h.first),
    Nat.zero_add, Nat.zero_add]
  exact Nat.lt_succ_of_le hB

end

def scanned (interval : Interval) (text : List Char) (p : Nat) : List LogRecord :=
  (recordsOf (((linesAt '\n' text p).dropWhile fun x => !inInterval interval x.2).map
    snd)).takeWhile (includesRecord interval)

theorem scanned_of_none (hfind : (lines text).find? (fun x => inInterval interval x.2) = none)
    (hstart : p = 0 ∨ ReadsBefore interval text p) :
    scanned interval text p = (fileRecords text).filter (includesRecord interval) := by
  have hall := find?_eq_none.mp hfind
  have hnil : (linesAt '\n' text p).dropWhile (fun x => !inInterval interval x.2) = [] := by
    refine dropWhile_eq_nil_iff.mpr fun x hx => ?_
    obtain ⟨q, line⟩ := x
    obtain ⟨hlt, rfl, hq⟩ := mem_linesAt_iff.mp hx
    have hnot : inInterval interval (lineAt '\n' text q) = false := by
      rcases hq with rfl | ⟨hq, hsep⟩
      · rcases hstart with rfl | hreads
        · simpa using hall _ (lines_eq_iff.mpr ⟨hlt, rfl, .inl rfl⟩)
        · exact hreads.not_inInterval
      · simpa using hall _ (lines_eq_iff.mpr ⟨hlt, rfl, .inr ⟨by omega, hsep⟩⟩)
    simp [hnot]
  rw [scanned, hnil, filter_fileRecords_eq_nil fun x hx => by simpa using hall x hx]
  rfl

section

variable (h : Divided interval text A first B) (hchron : Chronological text)
include h hchron

theorem Divided.not_before
    (hx : x ∈ first :: B) (hparse : parseLine x.2 = some t) : interval.before t = false := by
  have hmem : x ∈ lines text := by
    rw [h.lines_eq]
    exact mem_append_right _ hx
  have hle : first.1 ≤ x.1 := by
    rcases mem_cons.mp hx with rfl | hx
    · exact Nat.le_refl _
    · exact (h.positions.2 x hx).le
  obtain ⟨-, hline, -⟩ := lines_eq_iff.mp hmem
  have hnot := hchron.not_readsBefore (by simp [h.lines_eq]) h.first (hline ▸ hmem) hle
  cases hbefore : interval.before t with
  | false => rfl
  | true => exact absurd ⟨t, hline ▸ hparse, hbefore⟩ hnot

theorem Divided.takeWhile_eq :
    (recordsOf ((first :: B).map snd)).takeWhile (includesRecord interval) =
      (fileRecords text).filter (includesRecord interval) := by
  have hsub : (first :: B).Sublist (lines text) := by
    rw [h.lines_eq]
    exact sublist_append_right _ _
  rw [fileRecords, h.lines_eq, map_append, filter_recordsOf_append]
  · refine takeWhile_recordsOf ?_ ?_ ?_
    · intro l hl
      obtain ⟨x, hx, rfl⟩ := mem_map.mp hl
      exact hchron.dates x (hsub.subset hx)
    · exact pairwise_map.mpr (hchron.sorted.sublist hsub)
    · intro l hl t hparse
      obtain ⟨x, hx, rfl⟩ := mem_map.mp hl
      exact h.not_before hchron hx hparse
  · intro l hl
    obtain ⟨x, hx, rfl⟩ := mem_map.mp hl
    exact h.before x hx

theorem Divided.scanned_eq_iff (hstart : p = 0 ∨ ReadsBefore interval text p) :
    scanned interval text p = (fileRecords text).filter (includesRecord interval) ↔
      ¬ first.1 < p := by
  constructor
  · intro heq hlt
    have hreads : ReadsBefore interval text p := hstart.resolve_left (by omega)
    have hlength := congrArg length heq
    rw [fileRecords, length_filter_recordsOf, countP_map] at hlength
    have hle : (scanned interval text p).length ≤
        (linesAt '\n' text p).countP (fun x => inInterval interval x.2) := by
      calc (scanned interval text p).length
          ≤ ((recordsOf (((linesAt '\n' text p).dropWhile fun x => !inInterval interval x.2).map
              snd)).filter (includesRecord interval)).length := by
            unfold scanned
            generalize recordsOf _ = rs
            have hself : (rs.takeWhile (includesRecord interval)).filter (includesRecord interval) =
                rs.takeWhile (includesRecord interval) :=
              filter_eq_self.mpr fun r hr => mem_takeWhile_imp hr
            rw [← hself]
            exact ((takeWhile_sublist _).filter _).length_le
        _ = ((linesAt '\n' text p).dropWhile fun x => !inInterval interval x.2).countP
              (fun x => inInterval interval x.2) := by
            rw [length_filter_recordsOf, countP_map]
            rfl
        _ ≤ (linesAt '\n' text p).countP (fun x => inInterval interval x.2) :=
            (dropWhile_sublist _).countP_le
    have hcount := h.countP_lt hlt hreads
    change _ = (lines text).countP (fun x => inInterval interval x.2) at hlength
    omega
  · intro hle
    rw [scanned, h.dropWhile_eq (by omega) hstart]
    exact h.takeWhile_eq hchron

end

theorem lineStart_jumpTo_zero (f : File) : (f.jumpTo 0).lineStart = 0 := by
  unfold File.jumpTo File.read
  split <;> rfl

theorem search_yields (h : Chronological text) (htext : lf0.file.text = text)
    (hhas : lf0.hasRecord = true) (heof : lf0.eof = false) :
    ∃ rs, Yields interval (lf0.positionToFirstRecordInInterval interval).1 rs ∧
      (rs = (fileRecords text).filter (includesRecord interval) ↔
        ¬ ∃ first ∈ (lines text).find? (fun x => inInterval interval x.2),
          ∃ p ∈ searchProbes interval text (text.length + 2) 0 text.length,
            first.1 < p ∧ ReadsBefore interval text p) := by
  have hzero : (lf0.file.jumpTo 0).At text (linesAt '\n' text 0) := read_at htext 0
  have hfuel : (lf0.file.jumpTo 0).fuel = text.length + 2 :=
    congrArg (·.length + 2) hzero.text_eq
  generalize hsearch : searchStart interval (lf0.file.jumpTo 0) (text.length + 2) 0 text.length =
    start
  have hread : ((lf0.file.jumpTo 0).jumpTo start).At text (linesAt '\n' text start) :=
    read_at hzero.text_eq start
  have hfuel' : ((lf0.file.jumpTo 0).jumpTo start).fuel = text.length + 2 :=
    congrArg (·.length + 2) hread.text_eq
  have hat := hread.seek_fuel (inInterval interval)
  rw [hfuel'] at hat
  have hreads : start = 0 ∨ ReadsBefore interval text start := by
    rw [← hsearch]
    exact (searchStart_spec interval hzero.text_eq _ _ _).2
  refine ⟨scanned interval text start, ?_, ?_⟩
  · unfold LogFile.positionToFirstRecordInInterval
    simp only [hfuel, lineStart_jumpTo_zero, Int.toNat_zero, hzero.text_eq, hsearch]
    refine yields_at hat ?_ ?_ hhas heof
    · intro x hx
      rw [← find?_eq_head?_dropWhile_not] at hx
      have hin := find?_some hx
      exact hin
    · exact (length_dropWhile_le _ _).trans (length_linesAt_le _ _ _)
  · cases hfind : (lines text).find? (fun x => inInterval interval x.2) with
    | none => simpa using scanned_of_none hfind hreads
    | some first =>
      obtain ⟨hin, A, B, hlines, hA⟩ := List.find?_eq_some_iff_append.mp hfind
      have hdiv : Divided interval text A first B :=
        ⟨hlines, fun x hx => by simpa using hA x hx, hin⟩
      rw [hdiv.scanned_eq_iff h hreads, ← hsearch,
        lt_searchStart_iff h (by simp [hlines]) hin hzero.text_eq (Nat.zero_le _)]
      simp

theorem inInterval_of_not_hasTime {line : Line} (h : hasTime line = false) :
    inInterval interval line = false := by
  cases hparse : parseLine line with
  | none => simp [inInterval, hparse]
  | some t => simp [hasTime, hparse] at h

theorem le_of_hasTime {y : Nat × Line}
    (hfind : (lines text).find? (fun x => hasTime x.2) = some x) (hy : y ∈ lines text)
    (htime : hasTime y.2 = true) : x.1 ≤ y.1 := by
  obtain ⟨-, A, B, hlines, hA⟩ := List.find?_eq_some_iff_append.mp hfind
  have hpos := pairwise_linesAt '\n' text 0
  rw [show linesAt '\n' text 0 = _ from hlines, pairwise_append] at hpos
  rw [hlines, mem_append, mem_cons] at hy
  rcases hy with hy | rfl | hy
  · have hnot := hA y hy
    simp [htime] at hnot
  · exact Nat.le_refl _
  · exact ((pairwise_cons.mp hpos.2.1).1 y hy).le

theorem opens_nothing (hhas : lf.hasRecord = false)
    (hnone : ∀ x ∈ lines text, inInterval interval x.2 = false)
    (hcalm : ¬ Interrupted interval text) : Opens interval text (lf, false) := by
  refine ⟨⟨[], Yields.none hhas, ?_⟩, iff_of_false (by simp) hcalm⟩
  rw [filter_fileRecords_eq_nil hnone]
  refine iff_of_true rfl ?_
  rintro ⟨-, first, hfirst, -⟩
  have hin := find?_some hfirst
  rw [hnone first (mem_of_find?_eq_some hfirst)] at hin
  exact absurd hin (by simp)

/-- The search throws exactly if it reads the rest of a line that throws. -/
theorem raised_iff (lf0 : LogFile) (htext : lf0.file.text = text) :
    (lf0.positionToFirstRecordInInterval interval).2 = true ↔
      ∃ p ∈ searchProbes interval text (text.length + 2) 0 text.length,
        raises (lineAt '\n' text p) = true := by
  have hzero : (lf0.file.jumpTo 0).text = text := (read_at htext 0).text_eq
  simp only [LogFile.positionToFirstRecordInInterval, File.fuel, hzero, lineStart_jumpTo_zero,
    searchRaises_eq interval hzero, List.any_eq_true, Int.toNat_zero]

theorem openLast_opens (h : Chronological text) (hlast : f.LastAt text p)
    (htime : hasTime (lineAt '\n' text p) = true)
    (hx : (lines text).find? (fun x => hasTime x.2) = some x) (hparse : parseLine x.2 = some t)
    (hbefore : interval.before t = true) (hafter : interval.after t = false)
    (hhas : lf0.hasRecord = true) (heof : lf0.eof = false) :
    Opens interval text (lf0.openLast interval f) := by
  obtain ⟨u, hu⟩ := isSome_iff_exists.mp htime
  have hlf : lf0.at f = { lf0 with file := f, nextLine := lineAt '\n' text p, nextTime := u } := by
    simp [LogFile.at, hlast.current, hu]
  simp only [LogFile.openLast, hlf, hlast.current, isNone_some, false_eq_true, if_false]
  cases hend : interval.before u with
  | true =>
    have hall : ∀ y ∈ lines text, ∀ v, parseLine y.2 = some v → interval.before v = true := by
      intro y hy v hv
      rcases Nat.lt_or_ge p y.1 with hlt | hle
      · have hnot := hlast.later y.1 y.2 hy hlt
        simp [hasTime, hv] at hnot
      · obtain ⟨m, n, rfl, rfl, hmn⟩ := h.le hy hlast.mem hle hv hu
        simp only [Interval.before, decide_eq_true_eq] at hend ⊢
        omega
    refine opens_nothing rfl (fun y hy => ?_) ?_
    · cases hv : parseLine y.2 with
      | none => simp [inInterval, hv]
      | some v => simp [inInterval, hv, Interval.includes, hall y hy v hv]
    · rintro ⟨-, ⟨y, hy, v, hv, hnot⟩, -⟩
      rw [hall y hy v hv] at hnot
      cases hnot
  | false =>
    rw [if_neg (by simp)]
    constructor
    · rw [Misled, and_iff_right ⟨x, hx, t, hparse, hbefore⟩]
      exact search_yields h hlast.text_eq hhas heof
    · rw [Interrupted, and_iff_right ⟨x, hx, t, hparse, hbefore, hafter⟩,
        and_iff_right ⟨_, hlast.mem, u, hu, hend⟩]
      exact raised_iff { lf0 with file := f, .. } hlast.text_eq

theorem opens_after (h : Chronological text) (hhas : lf.hasRecord = false)
    (hfind : (lines text).find? (fun x => hasTime x.2) = some x) (hparse : parseLine x.2 = some t)
    (hafter : interval.after t = true) : Opens interval text (lf, false) := by
  refine opens_nothing hhas (fun y hy => ?_) ?_
  · cases hin : inInterval interval y.2 with
    | false => rfl
    | true =>
      obtain ⟨v, hv, hincludes⟩ := includes_of_inInterval hin
      have hle := le_of_hasTime hfind hy (by simp [hasTime, hv])
      obtain ⟨m, n, rfl, rfl, hmn⟩ := h.le (mem_of_find?_eq_some hfind) hy hle hparse hv
      simp only [Interval.after, decide_eq_true_eq] at hafter
      rw [includes_some] at hincludes
      omega
  · rintro ⟨⟨y, hy, u, hu, -, hnot⟩, -⟩
    obtain rfl := some.inj (hfind.symm.trans hy)
    obtain rfl := some.inj (hparse.symm.trans hu)
    rw [hafter] at hnot
    cases hnot

theorem open_opens (interval : Interval) (h : Chronological text) :
    Opens interval text (LogFile.open interval text) := by
  have hat := (show (File.create text).At text (lines text) from read_at rfl 0).seek_fuel hasTime
  have hfind := find?_eq_head?_dropWhile_not (fun x : Nat × Line => hasTime x.2) (lines text)
  unfold LogFile.open
  generalize File.seek hasTime File.advance (File.create text).fuel (File.create text) = f at hat ⊢
  change f.At text ((lines text).dropWhile fun x => !hasTime x.2) at hat
  unfold LogFile.openFirst
  cases hL : (lines text).dropWhile (fun x => !hasTime x.2) with
  | nil =>
    rw [hL] at hat
    have hcurrent : f.currentLine = none := hat.current
    simp only [hcurrent, isNone_none, if_true]
    refine opens_nothing rfl (fun x hx => inInterval_of_not_hasTime ?_) ?_
    · simpa using dropWhile_eq_nil_iff.mp hL x hx
    · rintro ⟨⟨x, hx, -⟩, -⟩
      rw [hfind, hL] at hx
      cases hx
  | cons x M =>
    rw [hL] at hat hfind
    have hcurrent : f.currentLine = some x.2 := hat.current
    have htime := find?_some hfind
    obtain ⟨hready, hparse⟩ := at_ready hat htime (show (LogFile.mk f true false [] none
      none).hasRecord = true from rfl) rfl
    generalize LogFile.at ⟨f, true, false, [], none, none⟩ f = lf at hready hparse
    simp only [hcurrent, isNone_some, false_eq_true, if_false]
    cases hin : interval.includes lf.nextTime with
    | true =>
      have hsplit := takeWhile_append_dropWhile (p := fun x => !hasTime x.2) (l := lines text)
      rw [hL] at hsplit
      have hdiv : Divided interval text ((lines text).takeWhile fun x => !hasTime x.2) x M :=
        ⟨hsplit.symm, fun y hy => inInterval_of_not_hasTime (by simpa using mem_takeWhile_imp hy),
          by simp [inInterval, hparse, hin]⟩
      have hnot : ¬ ∃ y ∈ (lines text).find? (fun x => hasTime x.2), ∃ t,
          parseLine y.2 = some t ∧ interval.before t = true := by
        rintro ⟨y, hy, t, ht, hbefore⟩
        obtain rfl := some.inj (hfind.symm.trans hy)
        obtain rfl := some.inj (hparse.symm.trans ht)
        simp [Interval.includes, hbefore] at hin
      refine ⟨⟨_, hready.yields ?_ hin, ?_⟩, iff_of_false (by simp) fun hcut => hnot ?_⟩
      · have hle := length_linesAt_le '\n' text 0
        rw [show linesAt '\n' text 0 = _ from hsplit.symm] at hle
        simp only [length_append, length_cons] at hle
        omega
      · exact iff_of_true (hdiv.takeWhile_eq h) fun hmisled => hnot hmisled.1
      · obtain ⟨⟨y, hy, t, ht, hbefore, -⟩, -⟩ := hcut
        exact ⟨y, hy, t, ht, hbefore⟩
    | false =>
      cases hafter : interval.after lf.nextTime with
      | true => exact opens_after h rfl hfind hparse hafter
      | false =>
        have hbefore : interval.before lf.nextTime = true := by
          simpa [Interval.includes, hafter] using hin
        have hmem : x ∈ lines text := mem_of_find?_eq_some hfind
        have hlength : 2 ≤ text.length := by
          have hlong := two_le_length_of_hasTime htime
          obtain ⟨-, hline, -⟩ := lines_eq_iff.mp hmem
          rw [hline, lineAt] at hlong
          have hle := takeWhile_prefix (p := (· ≠ '\n')) (l := text.drop x.1) |>.length_le
          rw [length_drop] at hle
          omega
        obtain ⟨p, hlast, hstart⟩ := toLastLine_lastAt hat.text_eq hlength
        have hfuel : f.fuel = text.length + 2 := congrArg (·.length + 2) hat.text_eq
        have hstart' : f.toLastLine.lineStart < f.fuel := by omega
        obtain ⟨r, hr, hr'⟩ := hlast.seek hstart' (by omega) hmem htime
        exact openLast_opens h hr hr' hfind hparse hbefore hafter hready.hasRecord hready.eof

end BgqDriver.LogMerge
