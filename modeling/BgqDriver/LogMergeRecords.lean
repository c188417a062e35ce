import BgqDriver.LogMerge

/-!
The records that one log file yields. Reading forwards follows the lines of the file from
the position where the reading starts, so the records are those of the lines.
-/

namespace BgqDriver.LogMerge

open TextLines List Option Prod

variable {interval : Interval} {text : List Char} {f : File} {lf : LogFile}
  {L : List (Nat × Line)} {p : Nat}

structure File.At (f : File) (text : List Char) (L : List (Nat × Line)) : Prop where
  text_eq : f.text = text
  current : f.currentLine = L.head?.map snd
  start : ∀ x ∈ L.head?, f.lineStart = x.1
  rest : L ≠ [] → linesAt '\n' text f.position = L.tail

theorem read_at (htext : f.text = text) (p : Nat) : (f.read p p).At text (linesAt '\n' text p) := by
  subst htext
  unfold File.read getline
  rcases Nat.lt_or_ge p f.text.length with hp | hp
  · simp only [if_pos hp, linesAt_of_lt hp]
    exact ⟨rfl, rfl, by simp, fun _ => linesAt_min _⟩
  · simp only [if_neg (Nat.not_lt.mpr hp), linesAt_of_le hp]
    exact ⟨rfl, rfl, by simp, by simp⟩

variable {x : Nat × Line}

theorem File.At.advance (h : f.At text (x :: L)) : f.advance.At text L := by
  have hread := read_at h.text_eq f.position
  rwa [h.rest (by simp)] at hread

variable {fuel : Nat}

theorem File.At.seek {stop : Line → Bool} (h : f.At text L) (hfuel : L.length < fuel) :
    (File.seek stop File.advance fuel f).At text (L.dropWhile fun x => !stop x.2) := by
  induction fuel generalizing f L with
  | zero => omega
  | succ fuel ih =>
    cases L with
    | nil =>
      simp only [File.seek, h.current, head?_nil, map_none]
      exact h
    | cons x L =>
      simp only [File.seek, h.current, head?_cons, map_some]
      cases hstop : stop x.2 with
      | true =>
        rw [dropWhile_cons_of_neg (by simp [hstop])]
        exact h
      | false =>
        rw [dropWhile_cons_of_pos (by simp [hstop])]
        exact ih h.advance (by simpa using hfuel)

theorem File.At.seek_fuel (h : f.At text (linesAt '\n' text p)) (stop : Line → Bool) :
    (File.seek stop File.advance f.fuel f).At text
      ((linesAt '\n' text p).dropWhile fun x => !stop x.2) := by
  refine h.seek ?_
  have hle := length_linesAt_le '\n' text p
  rw [File.fuel, h.text_eq]
  omega

/-- A line with a timestamp and the lines without one that follow it are a record. -/
def recordsOf : List Line → List LogRecord
  | [] => []
  | line :: lines =>
    match parseLine line with
    | none => recordsOf lines
    | some t =>
      ⟨t, (lines.takeWhile fun l => !hasTime l).foldl (fun text l => text ++ '\n' :: l) line⟩ ::
        recordsOf lines

def lines (text : List Char) : List (Nat × Line) := linesAt '\n' text 0

def fileRecords (text : List Char) : List LogRecord := recordsOf ((lines text).map snd)

theorem recordsOf_dropWhile (ls : List Line) :
    recordsOf (ls.dropWhile fun l => !hasTime l) = recordsOf ls := by
  induction ls with
  | nil => rfl
  | cons line ls ih =>
    cases hline : parseLine line with
    | none =>
      rw [dropWhile_cons_of_pos (by simp [hasTime, hline]), ih, recordsOf, hline]
    | some t => rw [dropWhile_cons_of_neg (by simp [hasTime, hline])]

/-- The file is at the first line of a record that has not been read yet. -/
structure LogFile.Ready (lf : LogFile) (text : List Char) (L : List (Nat × Line)) : Prop where
  file : lf.file.At text L
  hasRecord : lf.hasRecord = true
  eof : lf.eof = false
  line : ∀ x ∈ L.head?, lf.nextLine = x.2
  time : ∀ x ∈ L.head?, parseLine x.2 = some lf.nextTime

theorem gather_eq (hfile : lf.file.At text (x :: L)) (heof : lf.eof = false)
    (hfuel : L.length < fuel) (acc : Line) : ∃ lf', LogFile.gather fuel lf acc =
        (lf', ((L.map snd).takeWhile fun l => !hasTime l).foldl
          (fun text l => text ++ '\n' :: l) acc) ∧
      lf'.hasRecord = lf.hasRecord ∧
      lf'.file.At text (L.dropWhile fun x => !hasTime x.2) ∧
      (lf'.eof = true ↔ L.dropWhile (fun x => !hasTime x.2) = []) ∧
      ∀ y ∈ (L.dropWhile fun x => !hasTime x.2).head?,
        lf'.nextLine = y.2 ∧ parseLine y.2 = some lf'.nextTime := by
  induction fuel generalizing lf L x acc with
  | zero => omega
  | succ fuel ih =>
    have hnext := hfile.advance
    cases L with
    | nil =>
      have hcurrent := hnext.current
      simp only [head?_nil, map_none] at hcurrent
      simp only [LogFile.gather, LogFile.at, hcurrent]
      exact ⟨_, rfl, rfl, hnext, by simp, by simp⟩
    | cons y L =>
      have hcurrent := hnext.current
      simp only [head?_cons, map_some] at hcurrent
      simp only [LogFile.gather, LogFile.at, hcurrent]
      cases hy : parseLine y.2 with
      | none =>
        have htime : hasTime y.2 = false := by simp [hasTime, hy]
        simp only [htime, Bool.false_eq_true, if_false]
        rw [map_cons, takeWhile_cons_of_pos (by simp [htime]),
          dropWhile_cons_of_pos (by simp [htime]), foldl_cons]
        refine ih (x := y) ?_ ?_ (by simpa using hfuel) _
        · exact hnext
        · exact heof
      | some t =>
        have htime : hasTime y.2 = true := by simp [hasTime, hy]
        simp only [htime, if_true]
        rw [map_cons, takeWhile_cons_of_neg (by simp [htime]),
          dropWhile_cons_of_neg (by simp [htime])]
        refine ⟨_, rfl, rfl, hnext, by simp [heof], ?_⟩
        intro z hz
        obtain rfl : y = z := by simpa using hz
        exact ⟨rfl, by simp [hy]⟩

inductive Yields (interval : Interval) : LogFile → List LogRecord → Prop
  | none {lf : LogFile} (hnone : lf.hasRecord = false) : Yields interval lf []
  | record {lf : LogFile} {r : LogRecord} {rs : List LogRecord} (hsome : lf.hasRecord = true)
      (hrecord : lf.record = some r) (hrest : Yields interval (lf.advance interval) rs) :
      Yields interval lf (r :: rs)

theorem Yields.unique {rs rs' : List LogRecord} (h : Yields interval lf rs)
    (h' : Yields interval lf rs') : rs = rs' := by
  induction h generalizing rs' with
  | none hnone =>
    cases h' with
    | none => rfl
    | record hsome => simp [hnone] at hsome
  | record hsome hrecord _ ih =>
    cases h' with
    | none hnone => simp [hnone] at hsome
    | record _ hrecord' hrest' =>
      rw [ih hrest', some.inj (hrecord.symm.trans hrecord')]

theorem LogFile.Ready.yields (h : lf.Ready text (x :: L)) (hlength : L.length ≤ text.length)
    (hin : interval.includes lf.nextTime = true) : Yields interval (lf.advance interval)
      ((recordsOf ((x :: L).map snd)).takeWhile fun r => interval.includes r.timestamp) := by
  induction hn : L.length using Nat.strongRecOn generalizing lf L x with
  | ind n ih =>
    have hfuel : L.length < lf.file.fuel := by
      rw [File.fuel, h.file.text_eq]
      omega
    obtain ⟨lf', hgather, hhas, hfile, heof, hhead⟩ :=
      gather_eq h.file h.eof hfuel lf.nextLine
    have hparse : parseLine x.2 = some lf.nextTime := h.time x (by simp)
    have hline : lf.nextLine = x.2 := h.line x (by simp)
    have hadvance : lf.advance interval = { lf' with
        record := some ⟨lf.nextTime, ((L.map snd).takeWhile fun l => !hasTime l).foldl
          (fun text l => text ++ '\n' :: l) x.2⟩
        eof := lf'.eof || !interval.includes lf'.nextTime } := by
      unfold LogFile.advance
      rw [h.eof, h.hasRecord]
      simp only [Bool.false_eq_true, if_false, Bool.not_true]
      rw [hgather, hline]
    rw [map_cons, recordsOf, hparse, takeWhile_cons_of_pos (by simpa using hin)]
    refine Yields.record (by rw [hadvance]; exact hhas.trans h.hasRecord) (by rw [hadvance]) ?_
    rw [← recordsOf_dropWhile]
    have hmap : (L.map snd).dropWhile (fun l => !hasTime l) =
        (L.dropWhile fun x => !hasTime x.2).map snd := by
      rw [dropWhile_map]
      rfl
    rw [hmap]
    cases hrest : L.dropWhile (fun x => !hasTime x.2) with
    | nil =>
      rw [hrest] at heof
      refine Yields.none ?_
      rw [hadvance, LogFile.advance, if_pos (by simp [heof.mpr rfl])]
    | cons y M =>
      rw [hrest] at hfile heof hhead
      obtain ⟨hline', hparse'⟩ := hhead y (by simp)
      have heof' : lf'.eof = false := by
        simpa using heof
      have hsuffix : (y :: M).length ≤ L.length := by
        rw [← hrest]
        exact length_dropWhile_le _ _
      rw [length_cons] at hsuffix
      cases hin' : interval.includes lf'.nextTime with
      | true =>
        refine ih M.length (by omega) ?_ (by omega) ?_ rfl
        · rw [hadvance]
          exact ⟨hfile, hhas.trans h.hasRecord, by simp [heof', hin'], by simpa using hline',
            by simpa using hparse'⟩
        · rw [hadvance]
          exact hin'
      | false =>
        rw [map_cons, recordsOf, hparse',
          takeWhile_cons_of_neg (by simpa using hin')]
        refine Yields.none ?_
        rw [hadvance, LogFile.advance, if_pos (by simp [hin'])]

end BgqDriver.LogMerge
