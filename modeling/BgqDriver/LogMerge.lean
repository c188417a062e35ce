import BgqDriver.TextLines

/-!
Model of `log_merge` for files that are not live: the timestamps of lines
(`LogLineParser.cc`, `TimestampFormat.cc`), the lines of a file (`File.cc`), the records of a
log file in an interval (`LogFile.cc`) and the merge of several files (`LogFiles.cc`,
`LogMerge.cc`).

A stream that the pool has closed is opened again at the position it had, so the pool is
left out, as are the labels of the files: a file is known by its index. The loops carry fuel,
which the size of the file bounds.
-/

namespace BgqDriver.LogMerge

open BgqDriver.TextLines

abbrev Line := List Char

/-- A point in time, in milliseconds; `none` is `not_a_date_time` or that there is none
because of an exception. -/
abbrev PTime := Option Nat

inductive Item
  | digit
  | exactly (c : Char)
  | any
deriving DecidableEq

def Item.accepts : Item → Char → Bool
  | .digit, c => c.isDigit
  | .exactly d, c => c == d
  | .any, _ => true

def splitItems : List Item → Line → Option (Line × Line)
  | [], line => some ([], line)
  | _ :: _, [] => none
  | item :: items, c :: line =>
    if item.accepts c then (splitItems items line).map fun (s, rest) => (c :: s, rest) else none

def number (s : Line) : Nat := s.foldl (fun n c => 10 * n + (c.toNat - '0'.toNat)) 0

def endOfMonthDay (year month : Nat) : Nat :=
  if month = 2 then
    if year % 4 = 0 ∧ (year % 100 ≠ 0 ∨ year % 400 = 0) then 29 else 28
  else if month = 4 ∨ month = 6 ∨ month = 9 ∨ month = 11 then 30 else 31

def dayNumber (year month day : Nat) : Nat :=
  let a := (14 - month) / 12
  let y := year + 4800 - a
  let m := month + 12 * a - 3
  day + (153 * m + 2) / 5 + 365 * y + y / 4 - y / 100 + y / 400 - 32045

def ptime (year month day milliseconds : Nat) : PTime :=
  if 1400 ≤ year ∧ 1 ≤ month ∧ month ≤ 12 ∧ 1 ≤ day ∧ day ≤ endOfMonthDay year month then
    some (dayNumber year month day * 86400000 + milliseconds)
  else none

def timeOfDay (hours minutes seconds : Nat) : Nat :=
  ((hours * 60 + minutes) * 60 + seconds) * 1000

structure TimestampFormat where
  items : List Item
  /-- Whether a blank has to follow. -/
  blank : Bool
  parse : Line → PTime

/-- `04/08/09-01:22:29` -/
def timestampFormat1 : TimestampFormat where
  items := [.digit, .digit, .exactly '/', .digit, .digit, .exactly '/', .digit, .digit,
    .exactly '-', .digit, .digit, .exactly ':', .digit, .digit, .exactly ':', .digit, .digit]
  blank := true
  parse s :=
    let field (i : Nat) := number ((s.drop i).take 2)
    ptime (2000 + field 6) (field 0) (field 3) (timeOfDay (field 9) (field 12) (field 15))

/-- `2009-04-22-23:20:00.025`. The regular expression takes any character for the point,
but the fraction of a second has to start with one. -/
def timestampFormat3 : TimestampFormat where
  items := [.digit, .digit, .digit, .digit, .exactly '-', .digit, .digit, .exactly '-', .digit,
    .digit, .exactly '-', .digit, .digit, .exactly ':', .digit, .digit, .exactly ':', .digit,
    .digit, .any, .digit, .digit, .digit]
  blank := true
  parse s :=
    let field (i : Nat) := number ((s.drop i).take 2)
    if s[19]? = some '.' then
      ptime (number (s.take 4)) (field 5) (field 8)
        (timeOfDay (field 11) (field 14) (field 17) + number ((s.drop 20).take 3))
    else none

/-- `2009-08-25 10:31:54.660`, with any character for the point. `time_from_string` takes the
time of day apart at `-`, `:`, `,` and `.`; it throws, here `none`, if the day does not exist
or the seconds are not a number. -/
def timestampFormatQ : TimestampFormat where
  items := [.digit, .digit, .digit, .digit, .exactly '-', .digit, .digit, .exactly '-', .digit,
    .digit, .exactly ' ', .digit, .digit, .exactly ':', .digit, .digit, .exactly ':', .digit,
    .digit, .any, .digit, .digit, .digit]
  blank := false
  parse s :=
    let field (i : Nat) := number ((s.drop i).take 2)
    let time := ptime (number (s.take 4)) (field 5) (field 8)
    match s[19]? with
    | none => none
    | some c =>
      if c ∈ ['-', ':', ',', '.'] then
        time (timeOfDay (field 11) (field 14) (field 17) + number ((s.drop 20).take 3))
      else if c.isDigit then time (timeOfDay (field 11) (field 14) (number (s.drop 17)))
      else none

def TimestampFormat.split (format : TimestampFormat) (line : Line) : Option Line :=
  match splitItems format.items line with
  | some (s, rest) => if format.blank && rest.head? != some ' ' then none else some s
  | none => none

/-- The formats in the order in which they are added. -/
def timestampFormats : List TimestampFormat :=
  [timestampFormat1, timestampFormat3, timestampFormatQ]

/-- `LogLineParser::parse`: the time of a line that has one. -/
def parseLine (line : Line) : Option PTime :=
  timestampFormats.findSome? fun format => (format.split line).map format.parse

/-- The parsing of the line throws. -/
def raises (line : Line) : Bool :=
  match timestampFormatQ.split line with
  | some s => (timestampFormatQ.parse s).isNone
  | none => false

structure Interval where
  start : Nat
  stop : Nat
deriving DecidableEq

def Interval.before (interval : Interval) : PTime → Bool
  | some t => decide (t < interval.start)
  | none => false

def Interval.after (interval : Interval) : PTime → Bool
  | some t => decide (interval.stop < t)
  | none => false

def Interval.includes (interval : Interval) (t : PTime) : Bool :=
  !interval.before t && !interval.after t

structure File where
  text : List Char
  position : Nat
  lineStart : Int
  currentLine : Option Line
deriving DecidableEq

/-- `std::getline`, with the position behind the line. -/
def getline (text : List Char) (p : Nat) : Option (Line × Nat) :=
  if p < text.length then
    some (lineAt '\n' text p, min (nextLine '\n' text p) text.length)
  else none

/-- `File::_advance` with the stream at `p` -/
def File.read (f : File) (position : Int) (p : Nat) : File :=
  match getline f.text p with
  | none => { f with lineStart := position, currentLine := none }
  | some (line, next) =>
    { f with lineStart := position, position := next, currentLine := some line }

def File.advance (f : File) : File := f.read f.position f.position

def File.create (text : List Char) : File :=
  File.advance { text := text, position := 0, lineStart := 0, currentLine := none }

def File.jumpTo (f : File) (p : Nat) : File := f.read p p

def File.toLastLine (f : File) : File :=
  if f.text.length < 2 then f.advance
  else
    match lastSep '\n' f.text (f.text.length - 2) with
    | some i => f.read i (i + 1)
    | none => f.read 0 0

def File.toPreviousLine (f : File) : File :=
  if f.lineStart < 2 then { f with currentLine := none }
  else
    match lastSep '\n' f.text (f.lineStart.toNat - 2) with
    | some i => f.read i (i + 1)
    | none => f.read (-1) 0

/-- The loops that move until a line of this kind is the current one. -/
def File.seek (stop : Line → Bool) (move : File → File) : Nat → File → File
  | 0, f => f
  | fuel + 1, f =>
    match f.currentLine with
    | none => f
    | some line => if stop line then f else File.seek stop move fuel (move f)

def hasTime (line : Line) : Bool := (parseLine line).isSome

/-- As many turns as a loop over the lines of the file can take. -/
def File.fuel (f : File) : Nat := f.text.length + 2

structure LogRecord where
  timestamp : PTime
  text : Line
deriving DecidableEq

structure LogFile where
  file : File
  hasRecord : Bool
  eof : Bool
  nextLine : Line
  nextTime : PTime
  record : Option LogRecord
deriving DecidableEq

/-- `_next_line` and `_next_time` for the current line of the file -/
def LogFile.at (lf : LogFile) (f : File) : LogFile :=
  match f.currentLine with
  | none => { lf with file := f }
  | some line =>
    { lf with file := f, nextLine := line, nextTime := (parseLine line).getD lf.nextTime }

/-- The loop of `LogFile::advance`: the lines up to the next one with a timestamp belong to
the record. -/
def LogFile.gather : Nat → LogFile → Line → LogFile × Line
  | 0, lf, text => (lf, text)
  | fuel + 1, lf, text =>
    let lf := lf.at lf.file.advance
    match lf.file.currentLine with
    | none => ({ lf with eof := true }, text)
    | some line =>
      if hasTime line then (lf, text) else LogFile.gather fuel lf (text ++ '\n' :: line)

def LogFile.advance (interval : Interval) (lf : LogFile) : LogFile :=
  if lf.eof then { lf with hasRecord := false }
  else if !lf.hasRecord then lf
  else
    let curTime := lf.nextTime
    let (lf, text) := LogFile.gather lf.file.fuel lf lf.nextLine
    { lf with
      record := some ⟨curTime, text⟩
      eof := lf.eof || !interval.includes lf.nextTime }

def probe (f : File) (p : Nat) : File := File.seek hasTime File.advance f.fuel (f.jumpTo p)

/-- The record at the probed position is not before the interval, or there is none. -/
def probesEnd (interval : Interval) (f : File) : Bool :=
  match f.currentLine with
  | none => true
  | some line => !interval.before ((parseLine line).getD none)

/-- The loop of `_positionToFirstRecordInInterval` -/
def searchStart (interval : Interval) (f : File) : Nat → Nat → Nat → Nat
  | 0, start, _ => start
  | fuel + 1, start, stop =>
    if 10 * 1024 < stop - start then
      let p := (start + stop) / 2
      let f := probe f p
      if probesEnd interval f then searchStart interval f fuel start p
      else searchStart interval f fuel f.lineStart.toNat stop
    else start

/-- A line that the loop reads in the middle of the file ends it by an exception. -/
def searchRaises (interval : Interval) (f : File) : Nat → Nat → Nat → Bool
  | 0, _, _ => false
  | fuel + 1, start, stop =>
    if 10 * 1024 < stop - start then
      let p := (start + stop) / 2
      let f' := probe f p
      raises (lineAt '\n' f.text p) ||
        if probesEnd interval f' then searchRaises interval f' fuel start p
        else searchRaises interval f' fuel f'.lineStart.toNat stop
    else false

def inInterval (interval : Interval) (line : Line) : Bool :=
  match parseLine line with
  | some t => interval.includes t
  | none => false

/-- The second part of the result, also of the functions that call this one, says that an
exception was thrown. No other line that is read can throw in a file whose timestamps are all
times. -/
def LogFile.positionToFirstRecordInInterval (interval : Interval) (lf : LogFile) :
    LogFile × Bool :=
  let f := lf.file.jumpTo 0
  let raised := searchRaises interval f f.fuel f.lineStart.toNat f.text.length
  let start := searchStart interval f f.fuel f.lineStart.toNat f.text.length
  let f := File.seek (inInterval interval) File.advance f.fuel (f.jumpTo start)
  let lf := lf.at f
  (if f.currentLine.isNone then { lf with hasRecord := false } else lf.advance interval, raised)

/-- The last part of the constructor: the first record is before the interval, and the file is
at its last record. -/
def LogFile.openLast (interval : Interval) (lf : LogFile) (f : File) : LogFile × Bool :=
  let lf := lf.at f
  if f.currentLine.isNone then ({ lf with hasRecord := false }, false)
  else if interval.before lf.nextTime then ({ lf with hasRecord := false }, false)
  else lf.positionToFirstRecordInInterval interval

/-- The constructor from the first record of the file on -/
def LogFile.openFirst (interval : Interval) (f : File) : LogFile × Bool :=
  let lf : LogFile := LogFile.at ⟨f, true, false, [], none, none⟩ f
  if f.currentLine.isNone then ({ lf with hasRecord := false }, false)
  else if interval.includes lf.nextTime then (lf.advance interval, false)
  else if interval.after lf.nextTime then ({ lf with hasRecord := false }, false)
  else lf.openLast interval (File.seek hasTime File.toPreviousLine f.fuel f.toLastLine)

/-- The constructor of `LogFile` -/
def LogFile.open (interval : Interval) (text : List Char) : LogFile × Bool :=
  LogFile.openFirst interval
    (File.seek hasTime File.advance (File.create text).fuel (File.create text))

/-- The file has no later record than the others in the queue. -/
def Oldest (lf : LogFile) (queue : List (Nat × LogFile)) : Prop :=
  ∀ entry ∈ queue, ∀ r ∈ lf.record, ∀ r' ∈ entry.2.record, ∀ t ∈ r.timestamp, ∀ t' ∈ r'.timestamp,
    t ≤ t'

/-- What `_runImmediate` prints from the queue on. Among several oldest records any one may
be the top of the queue. -/
inductive Prints (interval : Interval) : List (Nat × LogFile) → List (Nat × LogRecord) → Prop
  | done : Prints interval [] []
  | next {before after : List (Nat × LogFile)} {i : Nat} {lf : LogFile} {r : LogRecord}
      {output : List (Nat × LogRecord)} (hrecord : lf.record = some r)
      (holdest : Oldest lf (before ++ (i, lf) :: after))
      (hrest : Prints interval (before ++ after ++
        if (lf.advance interval).hasRecord then [(i, lf.advance interval)] else []) output) :
      Prints interval (before ++ (i, lf) :: after) ((i, r) :: output)

def addFiles (interval : Interval) (texts : List (List Char)) : List (Nat × LogFile) :=
  ((texts.map fun text => (LogFile.open interval text).1).zipIdx.map fun (lf, i) =>
    (i, lf)).filter fun entry => entry.2.hasRecord

/-- What the program prints. All files are opened before the first record is printed, and an
exception ends the program. -/
def Outputs (interval : Interval) (texts : List (List Char)) (output : List (Nat × LogRecord)) :
    Prop :=
  (∀ text ∈ texts, (LogFile.open interval text).2 = false) ∧
    Prints interval (addFiles interval texts) output

end BgqDriver.LogMerge
