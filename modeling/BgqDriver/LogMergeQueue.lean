import BgqDriver.LogMergeOutput
import Mathlib.Data.List.MinMax
import Mathlib.Data.List.Nodup

/-!
The queue of log files. Whatever file with an oldest record is taken from the queue, the
records of every file are printed in their order, and all of them in the order of their
times.
-/

namespace BgqDriver.LogMerge

open Function List
open TextLines

variable {interval : Interval} {texts : List (List Char)} {queue : List (Nat × LogFile)}
  {output : List (Nat × LogRecord)} {records : Nat → List LogRecord}

def ofFile (i : Nat) (output : List (Nat × LogRecord)) : List LogRecord :=
  (output.filter fun x => x.1 = i).map Prod.snd

/-- The first record is not later than the second. -/
def NotLater (r r' : LogRecord) : Prop :=
  ∀ s t, r.timestamp = some s → r'.timestamp = some t → s ≤ t

structure Waiting (interval : Interval) (queue : List (Nat × LogFile))
    (records : Nat → List LogRecord) : Prop where
  nodup : (queue.map Prod.fst).Nodup
  hasRecord : ∀ entry ∈ queue, entry.2.hasRecord = true
  yields : ∀ entry ∈ queue, Yields interval entry.2 (records entry.1)
  others : ∀ i, i ∉ queue.map Prod.fst → records i = []

variable {lf : LogFile} {i : Nat} {r : LogRecord}

theorem Yields.cons_of_hasRecord {rs : List LogRecord} (h : Yields interval lf rs)
    (hhas : lf.hasRecord = true) :
    ∃ r rs', rs = r :: rs' ∧ lf.record = some r ∧ Yields interval (lf.advance interval) rs' := by
  cases h with
  | none hnone => simp [hhas] at hnone
  | record _ hrecord hrest => exact ⟨_, _, rfl, hrecord, hrest⟩

variable {after before : List (Nat × LogFile)} {ls : List Line}

section

variable (h : Waiting interval (before ++ (i, lf) :: after) records)
include h

theorem Waiting.ne :
    (∀ entry ∈ before ++ after, entry.1 ≠ i) ∧ ((before ++ after).map Prod.fst).Nodup := by
  have hnodup := h.nodup
  rw [map_append, map_cons, nodup_middle, nodup_cons, ← map_append] at hnodup
  refine ⟨fun entry hentry heq => hnodup.1 ?_, hnodup.2⟩
  exact mem_map.mpr ⟨entry, hentry, heq⟩

/-- One turn of the loop: the record at the top is printed, and its file goes back to the
queue if it has another one. -/
theorem Waiting.next (hrecord : lf.record = some r) : ∃ rs, records i = r :: rs ∧ Waiting interval
      (before ++ after ++
        if (lf.advance interval).hasRecord then [(i, lf.advance interval)] else [])
      (update records i rs) := by
  obtain ⟨r', rs, heq, hrecord', hrest⟩ :=
    (h.yields (i, lf) (by simp)).cons_of_hasRecord (h.hasRecord (i, lf) (by simp))
  obtain rfl := Option.some.inj (hrecord.symm.trans hrecord')
  obtain ⟨hne, hnodup⟩ := h.ne
  have hmem : ∀ entry ∈ before ++ after, entry ∈ before ++ (i, lf) :: after := by
    intro entry hentry
    rcases mem_append.mp hentry with hentry | hentry
    · exact mem_append_left _ hentry
    · exact mem_append_right _ (mem_cons_of_mem _ hentry)
  refine ⟨rs, heq, ⟨?_, ?_, ?_, ?_⟩⟩
  · split
    · rw [map_append, nodup_append]
      refine ⟨hnodup, by simp, ?_⟩
      intro a ha b hb
      obtain ⟨entry, hentry, rfl⟩ := mem_map.mp ha
      obtain rfl : b = i := by simpa using hb
      exact hne entry hentry
    · simpa using hnodup
  · intro entry hentry
    rcases mem_append.mp hentry with hentry | hentry
    · exact h.hasRecord entry (hmem entry hentry)
    · split at hentry
      · obtain rfl := mem_singleton.mp hentry
        assumption
      · simp at hentry
  · intro entry hentry
    rcases mem_append.mp hentry with hentry | hentry
    · rw [update_of_ne (hne entry hentry)]
      exact h.yields entry (hmem entry hentry)
    · split at hentry
      · obtain rfl := mem_singleton.mp hentry
        rw [update_self]
        exact hrest
      · simp at hentry
  · intro j hj
    by_cases hji : j = i
    · subst hji
      rw [update_self]
      split at hj
      case isTrue => simp at hj
      case isFalse hnone => exact hrest.unique (Yields.none (by simpa using hnone))
    · rw [update_of_ne hji]
      refine h.others j fun hmem' => hj ?_
      rw [map_append, map_cons, mem_append, mem_cons] at hmem'
      rw [map_append, map_append, mem_append, mem_append]
      rcases hmem' with hmem' | hmem' | hmem'
      · exact .inl (.inl hmem')
      · exact absurd hmem' hji
      · exact .inl (.inr hmem')

end

theorem Prints.ofFile_eq (hprints : Prints interval queue output)
    (h : Waiting interval queue records) (i : Nat) : ofFile i output = records i := by
  induction hprints generalizing records with
  | done => exact (h.others i (by simp)).symm
  | @next before after j lf r output hrecord _ _ ih =>
    obtain ⟨rs, heq, hnext⟩ := h.next hrecord
    have hrest := ih hnext
    by_cases hji : j = i
    · subst hji
      rw [update_self] at hrest
      rw [heq, ← hrest]
      simp [ofFile]
    · rw [update_of_ne (Ne.symm hji)] at hrest
      rw [← hrest]
      simp [ofFile, hji]

theorem mem_ofFile (h : (i, r) ∈ output) : r ∈ ofFile i output :=
  mem_map.mpr ⟨(i, r), mem_filter.mpr ⟨h, by simp⟩, rfl⟩

theorem Prints.sorted (hprints : Prints interval queue output) (h : Waiting interval queue records)
    (hdates : ∀ i, ∀ r ∈ records i, r.timestamp ≠ none)
    (hsorted : ∀ i, (records i).Pairwise NotLater) :
    output.Pairwise fun x y => NotLater x.2 y.2 := by
  induction hprints generalizing records with
  | done => exact Pairwise.nil
  | @next before after i lf r output hrecord holdest hprints ih =>
    obtain ⟨rs, heq, hnext⟩ := h.next hrecord
    have hsub : ∀ j, (update records i rs j).Sublist (records j) := by
      intro j
      by_cases hji : j = i
      · subst hji
        rw [update_self, heq]
        exact sublist_cons_self _ _
      · rw [update_of_ne hji]
    refine pairwise_cons.mpr ⟨?_, ih hnext (fun j r' hr' => hdates j r' ((hsub j).subset hr'))
      fun j => (hsorted j).sublist (hsub j)⟩
    rintro ⟨j, r'⟩ hmem
    have hmem' := mem_ofFile hmem
    rw [hprints.ofFile_eq hnext] at hmem'
    by_cases hji : j = i
    · subst hji
      rw [update_self] at hmem'
      have hcons := hsorted j
      rw [heq] at hcons
      exact (pairwise_cons.mp hcons).1 r' hmem'
    · rw [update_of_ne hji] at hmem'
      -- The file of the later record is in the queue, and its first record is not older.
      have hqueue : j ∈ (before ++ (i, lf) :: after).map Prod.fst := by
        by_contra hnot
        rw [h.others j hnot] at hmem'
        simp at hmem'
      obtain ⟨entry, hentry, rfl⟩ := mem_map.mp hqueue
      obtain ⟨r0, rs0, heq0, hrecord0, -⟩ :=
        (h.yields entry hentry).cons_of_hasRecord (h.hasRecord entry hentry)
      have hcons := hsorted entry.1
      have hdate := hdates entry.1
      rw [heq0] at hmem' hcons hdate
      have hle : NotLater r r0 :=
        fun s t hs ht => holdest entry hentry r hrecord r0 hrecord0 s hs t ht
      rcases mem_cons.mp hmem' with rfl | hmem'
      · exact hle
      · have hle' := (pairwise_cons.mp hcons).1 r' hmem'
        intro s t hs ht
        obtain ⟨m, hm⟩ := Option.ne_none_iff_exists'.mp (hdate r0 (by simp))
        exact (hle s m hs hm).trans (hle' m t hm ht)

theorem exists_oldest (hne : queue ≠ []) : ∃ entry ∈ queue, Oldest entry.2 queue := by
  let key (entry : Nat × LogFile) : Nat :=
    ((entry.2.record.bind LogRecord.timestamp).getD 0)
  obtain ⟨a, ha⟩ : ∃ a, a ∈ argmin key queue :=
    Option.ne_none_iff_exists'.mp fun hnone => hne (argmin_eq_none.mp hnone)
  refine ⟨a, argmin_mem ha, fun entry hentry r hr r' hr' t ht t' ht' => ?_⟩
  have hkey := le_of_mem_argmin hentry ha
  rw [Option.mem_def] at hr hr' ht ht'
  simpa [key, hr, hr', ht, ht'] using hkey

theorem Waiting.exists_prints (h : Waiting interval queue records) :
    ∃ output, Prints interval queue output := by
  induction hn : (queue.map fun entry => (records entry.1).length).sum using Nat.strongRecOn
    generalizing queue records with
  | ind n ih =>
    by_cases hne : queue = []
    · subst hne
      exact ⟨[], Prints.done⟩
    · obtain ⟨⟨i, lf⟩, hmem, holdest⟩ := exists_oldest hne
      obtain ⟨r, rs, heq, hrecord, -⟩ :=
        (h.yields (i, lf) hmem).cons_of_hasRecord (h.hasRecord (i, lf) hmem)
      obtain ⟨before, after, rfl⟩ := append_of_mem hmem
      obtain ⟨rs', heq', hnext⟩ := h.next hrecord
      have hsame : (before ++ after).map (fun entry => (update records i rs' entry.1).length) =
          (before ++ after).map fun entry => (records entry.1).length := by
        refine map_congr_left fun entry hentry => ?_
        rw [update_of_ne (h.ne.1 entry hentry)]
      obtain ⟨output, hprints⟩ := ih _ (by
        rw [map_append, hsame, ← hn]
        simp only [map_append, sum_append, map_cons, sum_cons, heq', length_cons]
        split
        · simp
          omega
        · simp) hnext rfl
      exact ⟨(i, r) :: output, Prints.next hrecord holdest hprints⟩

/-- Of every file its records in the interval, and all in the order of their timestamps -/
structure Exact (interval : Interval) (texts : List (List Char))
    (output : List (Nat × LogRecord)) : Prop where
  records : ∀ i, ofFile i output =
    (texts[i]?.elim [] fun text => (fileRecords text).filter (includesRecord interval))
  sorted : output.Pairwise fun x y => NotLater x.2 y.2

theorem mem_addFiles : (i, lf) ∈ addFiles interval texts ↔
    ∃ text, texts[i]? = some text ∧ lf = (LogFile.open interval text).1 ∧ lf.hasRecord = true := by
  simp only [addFiles, mem_filter, mem_map, Prod.exists, Prod.mk.injEq]
  constructor
  · rintro ⟨⟨lf', j, hmem, rfl, rfl⟩, hhas⟩
    rw [mem_zipIdx_iff_getElem?, getElem?_map, Option.map_eq_some_iff] at hmem
    obtain ⟨text, htext, hopen⟩ := hmem
    exact ⟨text, htext, hopen.symm, hhas⟩
  · rintro ⟨text, htext, rfl, hhas⟩
    refine ⟨⟨_, i, ?_, rfl, rfl⟩, hhas⟩
    rw [mem_zipIdx_iff_getElem?, getElem?_map, htext]
    rfl

theorem addFiles_waiting (hyields : ∀ i text, texts[i]? = some text →
      Yields interval (LogFile.open interval text).1 (records i))
    (hnone : ∀ i, texts[i]? = none → records i = []) :
    Waiting interval (addFiles interval texts) records := by
  constructor
  · have hsub : ((addFiles interval texts).map Prod.fst).Sublist _ := filter_sublist.map _
    refine hsub.nodup ?_
    rw [map_map]
    change ((texts.map fun text => (LogFile.open interval text).1).zipIdx.map Prod.snd).Nodup
    rw [zipIdx_map_snd]
    exact nodup_range'
  · rintro ⟨i, lf⟩ hmem
    obtain ⟨-, -, -, hhas⟩ := mem_addFiles.mp hmem
    exact hhas
  · rintro ⟨i, lf⟩ hmem
    obtain ⟨text, htext, rfl, -⟩ := mem_addFiles.mp hmem
    exact hyields i text htext
  · intro i hi
    cases htext : texts[i]? with
    | none => exact hnone i htext
    | some text =>
      refine (hyields i text htext).unique (Yields.none ?_)
      by_contra hhas
      refine hi (mem_map.mpr ⟨(i, (LogFile.open interval text).1), ?_, rfl⟩)
      exact mem_addFiles.mpr ⟨text, htext, rfl, by simpa using hhas⟩

theorem mem_recordsOf (h : r ∈ recordsOf ls) : ∃ l ∈ ls, parseLine l = some r.timestamp := by
  induction ls with
  | nil => simp [recordsOf] at h
  | cons line ls ih =>
    rw [recordsOf] at h
    cases hparse : parseLine line with
    | none =>
      rw [hparse] at h
      obtain ⟨l, hl, hr⟩ := ih h
      exact ⟨l, mem_cons_of_mem _ hl, hr⟩
    | some t =>
      rw [hparse] at h
      rcases mem_cons.mp h with rfl | h
      · exact ⟨line, by simp, hparse⟩
      · obtain ⟨l, hl, hr⟩ := ih h
        exact ⟨l, mem_cons_of_mem _ hl, hr⟩

theorem pairwise_recordsOf (hsorted : ls.Pairwise fun x y =>
      ∀ s t, parseLine x = some (some s) → parseLine y = some (some t) → s ≤ t) :
    (recordsOf ls).Pairwise NotLater := by
  induction ls with
  | nil => exact Pairwise.nil
  | cons line ls ih =>
    obtain ⟨hline, hrest⟩ := pairwise_cons.mp hsorted
    rw [recordsOf]
    cases hparse : parseLine line with
    | none => exact ih hrest
    | some t =>
      refine pairwise_cons.mpr ⟨fun r hr s u hs hu => ?_, ih hrest⟩
      obtain ⟨l, hl, hr⟩ := mem_recordsOf hr
      exact hline l hl s u (hparse.trans (congrArg some hs)) (hr.trans (congrArg some hu))

theorem Chronological.fileRecords {text : List Char} (h : Chronological text) :
    (∀ r ∈ fileRecords text, r.timestamp ≠ none) ∧ (fileRecords text).Pairwise NotLater := by
  refine ⟨fun r hr => ?_, pairwise_recordsOf (pairwise_map.mpr h.sorted)⟩
  obtain ⟨l, hl, hparse⟩ := mem_recordsOf hr
  obtain ⟨x, hx, rfl⟩ := mem_map.mp hl
  exact fun hnone => h.dates x hx (hparse.trans (congrArg some hnone))

theorem exists_waiting (interval : Interval) (hchron : ∀ text ∈ texts, Chronological text) :
    ∃ records, Waiting interval (addFiles interval texts) records ∧
      (∀ i, texts[i]? = none → records i = []) ∧ ∀ i text, texts[i]? = some text →
        (records i = (fileRecords text).filter (includesRecord interval) ↔
          ¬ Misled interval text) := by
  have hopen : ∀ i : Nat, ∃ rs, (texts[i]? = none → rs = []) ∧ ∀ text, texts[i]? = some text →
      Yields interval (LogFile.open interval text).1 rs ∧
        (rs = (fileRecords text).filter (includesRecord interval) ↔ ¬ Misled interval text) := by
    intro i
    cases htext : texts[i]? with
    | none => exact ⟨[], by simp⟩
    | some text =>
      obtain ⟨rs, hrs⟩ := (open_opens interval (hchron text (mem_of_getElem? htext))).1
      refine ⟨rs, by simp, fun text' h => ?_⟩
      cases h
      exact hrs
  choose records hnone hsome using hopen
  exact ⟨records, addFiles_waiting (fun i text htext => (hsome i text htext).1) hnone, hnone,
    fun i text htext => (hsome i text htext).2⟩

theorem calm_iff (interval : Interval) (hchron : ∀ text ∈ texts, Chronological text) :
    (∀ text ∈ texts, (LogFile.open interval text).2 = false) ↔
      ∀ text ∈ texts, ¬ Interrupted interval text := by
  refine forall₂_congr fun text hmem => ?_
  rw [← (open_opens interval (hchron text hmem)).2, Bool.not_eq_true]

def january (year : Line) : Line := "01/01/".toList ++ (year ++ "-00:00:00 ".toList)

theorem parseLine_january (rest : Line) :
    parseLine (january ['1', '0'] ++ rest) = some (ptime 2010 1 1 0) ∧
      parseLine (january ['1', '1'] ++ rest) = some (ptime 2011 1 1 0) ∧
      parseLine (january ['1', '2'] ++ rest) = some (ptime 2012 1 1 0) := ⟨rfl, rfl, rfl⟩

def year2012 : Interval where
  start := dayNumber 2012 1 1 * 86400000
  stop := dayNumber 2012 12 31 * 86400000

theorem lines_append {line rest : Line} (h : '\n' ∉ line) : lines (line ++ '\n' :: rest) =
      (0, line) :: linesAt '\n' (line ++ '\n' :: rest) (line.length + 1) := by
  have hline := lineAt_append [] rest h
  have hnext := nextLine_append [] rest h
  simp only [nil_append, length_nil, length_append, length_cons, Nat.zero_add] at hline hnext
  rw [lines, linesAt_of_lt (by rw [length_append, length_cons]; omega), hline, hnext]

def blankDate : Line := "2012-01-02 00:00:00.000 b".toList

/-- A file with a record of the third format -/
def blankFile : List Char := blankDate ++ ['\n']

theorem lines_blankFile : lines blankFile = [(0, blankDate)] := by
  rw [blankFile, lines_append (by decide), linesAt_of_le (by decide)]

section Bisected

variable (n : Nat)

/-- The text of the second record, from its 19th character on, names the year before. -/
def secondText : Line :=
  replicate n 'x' ++ (january ['1', '1'] ++ replicate (12019 - n) 'y')

/-- A record of 2010 and one of 2012, 12076 bytes -/
def bisected : List Char :=
  (january ['1', '0'] ++ ['a']) ++ '\n' :: ((january ['1', '2'] ++ secondText n) ++ ['\n'])

variable {n} (hn : n ≤ 12019)

theorem lineAt_bisected : lineAt '\n' (bisected n) 20 = january ['1', '2'] ++ secondText n := by
  have hnot : '\n' ∉ january ['1', '2'] ++ secondText n := by
    simp [secondText, january, mem_replicate]
  exact lineAt_append (january ['1', '0'] ++ ['a', '\n']) [] hnot

include hn

theorem length_secondText : (secondText n).length = 12037 := by
  simp only [secondText, january, length_append, length_replicate]
  change n + (18 + (12019 - n)) = 12037
  omega

theorem length_bisected : (bisected n).length = 12076 := by
  simp [bisected, length_secondText hn, january]

theorem nextLine_bisected : nextLine '\n' (bisected n) 20 = 12076 := by
  rw [nextLine, lineAt_bisected, length_append, length_secondText hn]
  rfl

theorem lines_bisected : lines (bisected n) =
    [(0, january ['1', '0'] ++ ['a']), (20, january ['1', '2'] ++ secondText n)] := by
  have hlines : lines (bisected n) = (0, january ['1', '0'] ++ ['a']) ::
      linesAt '\n' (bisected n) 20 := lines_append (by decide)
  have hlength := length_bisected hn
  rw [hlines, linesAt_of_lt (by omega), lineAt_bisected, nextLine_bisected hn,
    linesAt_of_le hlength.le]

/-- What the first bisection point, the middle of the file, reads. -/
theorem lineAt_middle : lineAt '\n' (bisected n) 6038 = (secondText n).drop 6000 := by
  have hnext := nextLine_bisected hn
  rw [lineAt_eq_drop (q := 20) (by omega) (by omega), lineAt_bisected]
  have hdrop : (january ['1', '2'] ++ secondText n).drop ((january ['1', '2']).length + 6000) = _ :=
    drop_length_add_append 6000
  exact hdrop

theorem searchProbes_bisected (interval : Interval) :
    searchProbes interval (bisected n) ((bisected n).length + 2) 0 (bisected n).length =
      [6038] := by
  rw [length_bisected hn]
  generalize 12076 + 1 = fuel
  rw [searchProbes, if_pos (by decide)]
  cases hbefore : beforeFrom interval (bisected n) ((0 + 12076) / 2) with
  | none => simp only [hbefore, searchProbes_of_le (show 6038 - 0 ≤ 10240 by decide)]
  | some q =>
    -- No line of the file starts behind its middle.
    obtain ⟨-, rfl | ⟨hlt, hmem⟩⟩ := beforeFrom_eq_some hbefore
    · simp only [hbefore, searchProbes_of_le (show 12076 - 6038 ≤ 10240 by decide)]
    · rw [lines_bisected hn, mem_pair, Prod.mk.injEq, Prod.mk.injEq] at hmem
      rcases hmem with ⟨rfl, -⟩ | ⟨rfl, -⟩ <;> omega

theorem bisected_chronological : Chronological (bisected n) := by
  have hsecond := (parseLine_january (secondText n)).2.2
  refine ⟨?_, ?_⟩ <;> rw [lines_bisected hn]
  · simp [hsecond, parseLine_january, ptime, endOfMonthDay]
  · refine pairwise_pair.mpr fun s t hs ht => ?_
    rw [← Option.some.inj (Option.some.inj hs), ← Option.some.inj (Option.some.inj ht)]
    decide

theorem bisected_misled_iff : Misled year2012 (bisected n) ↔
    ∃ t, parseLine ((secondText n).drop 6000) = some t ∧ year2012.before t = true := by
  have hsecond := (parseLine_january (secondText n)).2.2
  have hfirst : (lines (bisected n)).find? (fun x => inInterval year2012 x.2) =
      some (20, january ['1', '2'] ++ secondText n) := by
    rw [lines_bisected hn, find?_cons_of_neg (by decide), find?_cons_of_pos]
    simp only [inInterval, hsecond]
    decide
  rw [Misled, hfirst, searchProbes_bisected hn, and_iff_right]
  · simp [ReadsBefore, lineAt_middle hn]
  · refine ⟨(0, january ['1', '0'] ++ ['a']), ?_, _, (parseLine_january ['a']).1, by decide⟩
    rw [lines_bisected hn]
    rfl

theorem bisected_calm (hcalm : raises ((secondText n).drop 6000) = false) :
    ¬ Interrupted year2012 (bisected n) := by
  rintro ⟨-, -, hraises⟩
  rw [searchProbes_bisected hn] at hraises
  simp [lineAt_middle hn, hcalm] at hraises

end Bisected

end BgqDriver.LogMerge
