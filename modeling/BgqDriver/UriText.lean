import Mathlib.Data.List.TakeWhile
import Mathlib.Data.Fintype.Basic

/-!
URIs as `capena::http::uri` writes and parses them: `Uri::calcString` escapes the parts of the
path and the names and values of the query, `Uri::parse` splits at the separators and unescapes.
-/

namespace BgqDriver.UriText

open List

abbrev Byte := Fin 256

def ch (c : Char) : Byte := Fin.ofNat 256 c.toNat

/-- The digit that `std::hex` writes. -/
def hexDigit (n : Nat) : Byte := if n < 10 then Fin.ofNat 256 (48 + n) else Fin.ofNat 256 (87 + n)

/-- `os << std::hex << uint16_t(b)`: no width is set. -/
def hex (b : Byte) : List Byte :=
  if b.val < 16 then [hexDigit b] else [hexDigit (b / 16), hexDigit (b % 16)]

/-- `xdigit_p`, with the value of the digit. -/
def xdigit (b : Byte) : Option Nat :=
  if ch '0' ≤ b ∧ b ≤ ch '9' then some (b.val - 48)
  else if ch 'a' ≤ b ∧ b ≤ ch 'f' then some (b.val - 87)
  else if ch 'A' ≤ b ∧ b ≤ ch 'F' then some (b.val - 55)
  else none

def isalnum (b : Byte) : Bool :=
  decide (ch '0' ≤ b ∧ b ≤ ch '9' ∨ ch 'a' ≤ b ∧ b ≤ ch 'z' ∨ ch 'A' ≤ b ∧ b ≤ ch 'Z')

def isSafeUrlChar (b : Byte) : Bool :=
  isalnum b || decide (b ∈ ['$', '-', '_', '.', '!', '*', '\'', '(', ')', ','].map ch)

/-- The loops of `escTo` and of `form::encodeTo`, which writes a blank as `+`. -/
def escapeByte (form : Bool) (b : Byte) : List Byte :=
  if form && b == ch ' ' then [ch '+']
  else if isSafeUrlChar b then [b]
  else ch '%' :: hex b

def escape (form : Bool) (s : List Byte) : List Byte := s.flatMap (escapeByte form)

def escTo : List Byte → List Byte := escape false

def encodeTo : List Byte → List Byte := escape true

/-- The rules of `unescape` and of `form::decode`, which have to match the whole string. -/
def unescapeRule (form : Bool) : List Byte → Option (List Byte)
  | [] => some []
  | b :: rest =>
    if b = ch '%' then
      match rest with
      | x :: y :: rest =>
        match xdigit x, xdigit y with
        | some i, some j => (unescapeRule form rest).map (Fin.ofNat 256 (16 * i + j) :: ·)
        | _, _ => none
      | _ => none
    else (unescapeRule form rest).map ((if form && b == ch '+' then ch ' ' else b) :: ·)

def unescape (part : List Byte) : Option (List Byte) := unescapeRule false (part.takeWhile (· ≠ 0))

def decode (part : List Byte) : Option (List Byte) := unescapeRule true (part.takeWhile (· ≠ 0))

/-- `splitAt`. -/
def splitAt (str : List Byte) (c : Byte) : Option (List Byte × List Byte) :=
  if c ∈ str then some (str.takeWhile (· ≠ c), (str.dropWhile (· ≠ c)).tail) else none

abbrev Path := List (List Byte)

abbrev Query := List (List Byte × List Byte)

def Path.toString (path : Path) : List Byte := path.flatMap fun part => ch '/' :: escTo part

/-- `Path::Path`. -/
def Path.parse (str : List Byte) : Option Path :=
  if str = [] then some []
  else
    let str := if str.head? = some (ch '/') then str.tail else str
    (str.splitOn (ch '/')).mapM unescape

def parameterString (param : List Byte × List Byte) : List Byte :=
  encodeTo param.1 ++ ch '=' :: encodeTo param.2

/-- The loop of `Query::calcString`. -/
def queryLoop : Bool → Query → List Byte
  | _, [] => []
  | first, param :: rest =>
    if param.1 = [] ∧ param.2 = [] then queryLoop first rest
    else (if first then ch '?' else ch '&') :: (parameterString param ++ queryLoop false rest)

def Query.calcString : Query → List Byte := queryLoop true

def parseParameter (part : List Byte) : Option (List Byte × List Byte) :=
  match splitAt part (ch '=') with
  | none => (decode part).map (·, [])
  | some (name, value) => do return (← decode name, ← decode value)

def Query.parse (str : List Byte) : Option Query :=
  if str = [] then some []
  else ((str.splitOn (ch '&')).filter (· ≠ [])).mapM parseParameter

/-- A URI; one without a host is relative. -/
structure Uri where
  secure : Bool
  host : Option (List Byte)
  path : Path
  query : Query
  deriving DecidableEq

def prefixOf (secure : Bool) : List Byte :=
  if secure then "https://".toList.map ch else "http://".toList.map ch

def Uri.calcString (u : Uri) : List Byte :=
  match u.host with
  | some host => prefixOf u.secure ++ (host ++ (u.path.toString ++ Query.calcString u.query))
  | none => u.path.toString ++ Query.calcString u.query

def parsePathQuery (str : List Byte) : Option (Path × Query) :=
  match splitAt str (ch '?') with
  | none => (Path.parse str).map (·, [])
  | some (path, query) => do return (← Path.parse path, ← Query.parse query)

def toUpper (b : Byte) : Byte := if ch 'a' ≤ b ∧ b ≤ ch 'z' then b - 32 else b

def parseScheme (scheme : List Byte) : Option Bool :=
  if scheme.map toUpper = "HTTP".toList.map ch then some false
  else if scheme.map toUpper = "HTTPS".toList.map ch then some true
  else none

def parseAbsolute (scheme after : List Byte) : Option Uri := do
  let secure ← parseScheme scheme
  if after.take 2 ≠ "//".toList.map ch then none
  else
    let net := after.drop 2
    match splitAt net (ch '/') with
    | none => some ⟨secure, some net, [], []⟩
    | some (host, rest) =>
      let (path, query) ← parsePathQuery (ch '/' :: rest)
      some ⟨secure, some host, path, query⟩

def parseRelative (str : List Byte) : Option Uri :=
  (parsePathQuery str).map fun (path, query) => ⟨false, none, path, query⟩

/-- `Uri::parse`; no result stands for an exception. -/
def Uri.parse (str : List Byte) : Option Uri :=
  if str = [] then none
  else
    match splitAt str (ch ':') with
    | none => parseRelative str
    | some (scheme, after) => parseAbsolute scheme after

variable {s : List Byte} {b c : Byte} {host : List Byte}

section Splitting

variable {α β : Type}

theorem splitAt_append {t : List Byte} (hs : c ∉ s) : splitAt (s ++ c :: t) c = some (s, t) := by
  have hall : ∀ b ∈ s, decide (b ≠ c) = true := fun b hb => decide_eq_true fun h => hs (h ▸ hb)
  rw [splitAt, if_pos (by simp), takeWhile_append_of_pos hall,
    dropWhile_append_of_pos hall]
  simp

theorem splitAt_eq_none (hs : c ∉ s) : splitAt s c = none :=
  if_neg hs

theorem flatMap_cons_eq_intercalate (c : β) (f : α → List β) (a : α) (l : List α) :
    (a :: l).flatMap (fun x => c :: f x) = c :: [c].intercalate ((a :: l).map f) := by
  induction l generalizing a with
  | nil => simp [List.intercalate]
  | cons b l ih =>
    rw [flatMap_cons, ih b]
    simp

theorem mapM_map_eq_some_iff (f : α → β) (g : β → Option α) (l : List α) :
    (l.map f).mapM g = some l ↔ ∀ a ∈ l, g (f a) = some a := by
  induction l with
  | nil => simp
  | cons a l ih =>
    rw [map_cons, mapM_cons, forall_mem_cons, ← ih]
    cases g (f a) <;> cases (l.map f).mapM g <;> simp

end Splitting

section Escapes

variable {form : Bool}

def plain (b : Byte) : Bool := isSafeUrlChar b || b == ch '%' || b == ch '+'

theorem plain_escapeByte : ∀ form b, (escapeByte form b).all plain = true := by
  decide +kernel

theorem not_mem_escape (s : List Byte) (hb : plain b = false) : b ∉ escape form s := by
  intro hmem
  obtain ⟨c, -, hc⟩ := mem_flatMap.mp hmem
  rw [all_eq_true.mp (plain_escapeByte form c) b hc] at hb
  cases hb

theorem takeWhile_escape (s : List Byte) : (escape form s).takeWhile (· ≠ 0) = escape form s := by
  rw [takeWhile_eq_self_iff]
  intro b hb
  exact decide_eq_true fun hzero => not_mem_escape s (by decide) (hzero ▸ hb)

theorem xdigit_hexDigit : ∀ n < 16, xdigit (hexDigit n) = some n := by
  decide

theorem xdigit_lt : ∀ b : Byte, ∀ n ∈ xdigit b, n < 16 := by
  decide +kernel

theorem safe_ne : ∀ b : Byte, isSafeUrlChar b = true → b ≠ ch '%' ∧ b ≠ ch '+' := by
  decide +kernel

theorem not_safe_of_lt : ∀ b : Byte, b.val < 16 → isSafeUrlChar b = false ∧ b ≠ ch ' ' := by
  decide +kernel

theorem unescapeRule_cons (hb : b ≠ ch '%') (rest : List Byte) : unescapeRule form (b :: rest) =
      (unescapeRule form rest).map ((if form && b == ch '+' then ch ' ' else b) :: ·) := by
  cases rest with
  | nil => simp [unescapeRule, hb]
  | cons x rest => cases rest <;> simp [unescapeRule, hb]

theorem unescapeRule_percent (x y : Byte) (rest : List Byte) :
    unescapeRule form (ch '%' :: x :: y :: rest) =
      match xdigit x, xdigit y with
      | some i, some j => (unescapeRule form rest).map (Fin.ofNat 256 (16 * i + j) :: ·)
      | _, _ => none := by
  rw [unescapeRule, if_pos rfl]

theorem unescapeRule_escapeByte (hb : 16 ≤ b.val) (rest : List Byte) :
    unescapeRule form (escapeByte form b ++ rest) = (unescapeRule form rest).map (b :: ·) := by
  rw [escapeByte]
  split_ifs with hblank hsafe
  · obtain ⟨rfl, rfl⟩ : form = true ∧ b = ch ' ' := by simpa using hblank
    rw [singleton_append, unescapeRule_cons (by decide)]
    rfl
  · obtain ⟨hpercent, hplus⟩ := safe_ne b hsafe
    rw [singleton_append, unescapeRule_cons hpercent, if_neg (by simp [hplus])]
  · have hvalue : Fin.ofNat 256 (16 * (b.val / 16) + b.val % 16) = b := by
      apply Fin.ext
      simp only [Fin.val_ofNat]
      omega
    rw [hex, if_neg (by omega)]
    simp only [cons_append, nil_append, unescapeRule_percent,
      xdigit_hexDigit _ (by omega : b.val / 16 < 16),
      xdigit_hexDigit _ (by omega : b.val % 16 < 16),
      hvalue]

/-- A byte with one digit takes the next character for its second one. -/
theorem unescapeRule_escapeByte_ne (hb : b.val < 16) (hzero : b ≠ 0) (rest t : List Byte) :
    unescapeRule form (escapeByte form b ++ rest) ≠ some (b :: t) := by
  obtain ⟨hsafe, hblank⟩ := not_safe_of_lt b hb
  rw [escapeByte, if_neg (by simp [hblank]), if_neg (by simp [hsafe]), hex, if_pos hb]
  cases rest with
  | nil => simp [unescapeRule]
  | cons x rest =>
    simp only [cons_append, nil_append, unescapeRule_percent, xdigit_hexDigit _ hb]
    cases hx : xdigit x with
    | none => simp
    | some j =>
      intro h
      obtain ⟨r, -, hr⟩ := Option.map_eq_some_iff.mp h
      have hval := congrArg Fin.val (cons.inj hr).1
      have hj := xdigit_lt x j hx
      have hpos : b.val ≠ 0 := fun h => hzero (Fin.ext h)
      rw [Fin.val_ofNat, Nat.mod_eq_of_lt (by omega)] at hval
      omega

def TwoDigits (s : List Byte) : Prop := ∀ b ∈ s, 16 ≤ b.val

instance (s : List Byte) : Decidable (TwoDigits s) := inferInstanceAs (Decidable (∀ b ∈ s, _))

theorem unescapeRule_escape_iff (hs : 0 ∉ s) :
    unescapeRule form (escape form s) = some s ↔ TwoDigits s := by
  induction s with
  | nil => simp [escape, unescapeRule, TwoDigits]
  | cons b s ih =>
    obtain ⟨hzero, hs⟩ := not_or.mp (mem_cons.not.mp hs)
    rw [TwoDigits, forall_mem_cons, ← TwoDigits, ← ih hs, escape, flatMap_cons, ← escape]
    by_cases hb : 16 ≤ b.val
    · rw [unescapeRule_escapeByte hb]
      simp [hb]
    · simp [hb, unescapeRule_escapeByte_ne (Nat.lt_of_not_le hb) (Ne.symm hzero)]

theorem decode_encodeTo_iff (hs : 0 ∉ s) : decode (encodeTo s) = some s ↔ TwoDigits s := by
  rw [decode, encodeTo, takeWhile_escape, unescapeRule_escape_iff hs]

end Escapes

theorem not_mem_pathString (hb : plain b = false) (hslash : b ≠ ch '/') (path : Path) :
    b ∉ path.toString := by
  simp [Path.toString, hslash, escTo, not_mem_escape _ hb]

theorem Path.parse_toString_iff {path : Path} (hnul : ∀ part ∈ path, 0 ∉ part) :
    Path.parse path.toString = some path ↔ ∀ part ∈ path, TwoDigits part := by
  cases path with
  | nil => simp [Path.toString, Path.parse]
  | cons part path =>
    have hslash : ∀ text ∈ (part :: path).map escTo, ch '/' ∉ text := by
      intro text htext
      obtain ⟨p, -, rfl⟩ := mem_map.mp htext
      exact not_mem_escape p (by decide)
    rw [Path.toString, flatMap_cons_eq_intercalate, Path.parse, if_neg (cons_ne_nil _ _)]
    simp only [head?_cons, if_true, tail_cons]
    rw [splitOn_intercalate _ hslash (by simp), mapM_map_eq_some_iff]
    refine forall₂_congr fun p hp => ?_
    rw [unescape, escTo, takeWhile_escape, unescapeRule_escape_iff (hnul p hp)]

theorem not_mem_parameterString (hb : plain b = false) (heq : b ≠ ch '=')
    (param : List Byte × List Byte) : b ∉ parameterString param := by
  simp [parameterString, encodeTo, heq, not_mem_escape _ hb]

theorem parseParameter_iff {param : List Byte × List Byte} (hnul : 0 ∉ param.1 ∧ 0 ∉ param.2) :
    parseParameter (parameterString param) = some param ↔
      TwoDigits param.1 ∧ TwoDigits param.2 := by
  obtain ⟨name, value⟩ := param
  have hname : ch '=' ∉ encodeTo name := not_mem_escape name (by decide)
  rw [← decode_encodeTo_iff hnul.1, ← decode_encodeTo_iff hnul.2, parseParameter, parameterString,
    splitAt_append hname]
  dsimp only
  cases decode (encodeTo name) <;> cases decode (encodeTo value) <;> simp

section Queries

variable {query : Query} (hblank : ∀ param ∈ query, param.1 ≠ [] ∨ param.2 ≠ [])

include hblank

theorem queryLoop_false :
    queryLoop false query = query.flatMap fun param => ch '&' :: parameterString param := by
  induction query with
  | nil => rfl
  | cons param query ih =>
    obtain ⟨hparam, hblank⟩ := forall_mem_cons.mp hblank
    rw [queryLoop, if_neg (by tauto), ih hblank]
    simp

theorem calcString_eq (hne : query ≠ []) :
    Query.calcString query = ch '?' :: [ch '&'].intercalate (query.map parameterString) := by
  obtain ⟨param, rest, rfl⟩ := exists_cons_of_ne_nil hne
  have hrest := queryLoop_false hblank
  rw [flatMap_cons_eq_intercalate] at hrest
  have hparam := (forall_mem_cons.mp hblank).1
  rw [queryLoop, if_neg (by tauto)] at hrest
  rw [Query.calcString, queryLoop, if_neg (by tauto), ← (cons.inj hrest).2]
  simp

end Queries

theorem Query.parse_iff {query : Query} (hne : query ≠ [])
    (hnul : ∀ param ∈ query, 0 ∉ param.1 ∧ 0 ∉ param.2) :
    Query.parse ([ch '&'].intercalate (query.map parameterString)) = some query ↔
      ∀ param ∈ query, TwoDigits param.1 ∧ TwoDigits param.2 := by
  have hamp : ∀ text ∈ query.map parameterString, ch '&' ∉ text := by
    intro text htext
    obtain ⟨param, -, rfl⟩ := mem_map.mp htext
    exact not_mem_parameterString (by decide) (by decide) param
  have hsplit := splitOn_intercalate _ hamp (by simpa using hne)
  have hfilter : (query.map parameterString).filter (· ≠ []) = query.map parameterString := by
    rw [filter_eq_self]
    intro text htext
    obtain ⟨param, -, rfl⟩ := mem_map.mp htext
    simp [parameterString]
  have htext : [ch '&'].intercalate (query.map parameterString) ≠ [] := by
    intro hempty
    rw [hempty] at hsplit
    obtain ⟨param, rest, rfl⟩ := exists_cons_of_ne_nil hne
    simp [parameterString] at hsplit
  rw [Query.parse, if_neg htext, hsplit, hfilter, mapM_map_eq_some_iff]
  exact forall₂_congr fun param hparam => parseParameter_iff (hnul param hparam)

/-- The URIs in question: no zero in the parts, no parameter that `calcString` skips, a host
without separators, and no empty relative URI. -/
structure Regular (u : Uri) : Prop where
  pathNul : ∀ part ∈ u.path, 0 ∉ part
  queryNul : ∀ param ∈ u.query, 0 ∉ param.1 ∧ 0 ∉ param.2
  blank : ∀ param ∈ u.query, param.1 ≠ [] ∨ param.2 ≠ []
  host : ∀ host ∈ u.host, ch '/' ∉ host ∧ ch '?' ∉ host ∧ ch ':' ∉ host
  relative : u.host = none → u.path ≠ [] ∨ u.query ≠ []

/-- Every byte of the path and the query has two hexadecimal digits. -/
def TwoDigitUri (u : Uri) : Prop :=
  (∀ part ∈ u.path, TwoDigits part) ∧
    ∀ param ∈ u.query, TwoDigits param.1 ∧ TwoDigits param.2

/-- `parseAbsolute` finds the query of a URI only behind a path. -/
def PathBeforeQuery (u : Uri) : Prop := u.host ≠ none → u.path ≠ [] ∨ u.query = []

/-- Parsing the text of the URI gives its parts back. -/
def RoundTrips (u : Uri) : Prop :=
  ∃ v, Uri.parse u.calcString = some v ∧ v.path = u.path ∧ v.query = u.query ∧ v.host = u.host

section RoundTrip

variable {u : Uri}

theorem not_mem_queryString (hb : plain b = false) (hsep : b ∉ [ch '?', ch '&', ch '='])
    (query : Query) (first : Bool) : b ∉ queryLoop first query := by
  simp only [mem_cons, not_mem_nil, or_false, not_or] at hsep
  induction query generalizing first with
  | nil => simp [queryLoop]
  | cons param query ih =>
    rw [queryLoop]
    split_ifs <;> simp [ih, hsep, not_mem_parameterString hb hsep.2.2]

theorem parsePathQuery_iff (hu : Regular u) :
    parsePathQuery (u.path.toString ++ Query.calcString u.query) = some (u.path, u.query) ↔
      TwoDigitUri u := by
  have hmark : ch '?' ∉ u.path.toString := not_mem_pathString (by decide) (by decide) u.path
  rw [TwoDigitUri, ← Path.parse_toString_iff hu.pathNul]
  by_cases hne : u.query = []
  · rw [hne, Query.calcString, queryLoop, append_nil, parsePathQuery, splitAt_eq_none hmark]
    simp
  · rw [← Query.parse_iff hne hu.queryNul, calcString_eq hu.blank hne, parsePathQuery,
      splitAt_append hmark]
    dsimp only
    cases Path.parse u.path.toString <;>
      cases Query.parse ([ch '&'].intercalate (u.query.map parameterString)) <;> simp

theorem parse_relative (hu : Regular u) (hhost : u.host = none) :
    Uri.parse u.calcString = parseRelative (u.path.toString ++ Query.calcString u.query) := by
  have hcolon : ch ':' ∉ u.path.toString ++ Query.calcString u.query := by
    rw [mem_append, not_or]
    exact ⟨not_mem_pathString (by decide) (by decide) u.path,
      not_mem_queryString (by decide) (by decide) u.query true⟩
  have hne : u.path.toString ++ Query.calcString u.query ≠ [] := by
    rw [Ne, append_eq_nil_iff, not_and_or]
    refine (hu.relative hhost).imp (fun hpath => ?_) fun hquery => ?_
    · obtain ⟨part, rest, hcons⟩ := exists_cons_of_ne_nil hpath
      simp [hcons, Path.toString]
    · simp [calcString_eq hu.blank hquery]
  rw [Uri.calcString, hhost]
  rw [Uri.parse, if_neg hne, splitAt_eq_none hcolon]

def scheme (secure : Bool) : List Byte := (if secure then "https" else "http").toList.map ch

theorem parse_absolute (hhost : u.host = some host) :
    Uri.parse u.calcString = parseAbsolute (scheme u.secure)
      (ch '/' :: ch '/' :: (host ++ (u.path.toString ++ Query.calcString u.query))) := by
  have hstart : ∀ secure, prefixOf secure = scheme secure ++ [ch ':', ch '/', ch '/'] := by decide
  have hcolon : ∀ secure, ch ':' ∉ scheme secure := by decide
  rw [Uri.calcString, hhost]
  dsimp only
  rw [hstart, append_assoc, Uri.parse, if_neg (by simp)]
  simp only [cons_append, nil_append]
  rw [splitAt_append (hcolon u.secure)]

theorem parseAbsolute_eq (hslash : ch '/' ∉ host) (secure : Bool) (path : Path) (query : Query) :
    parseAbsolute (scheme secure)
        (ch '/' :: ch '/' :: (host ++ (path.toString ++ Query.calcString query))) =
      if path = [] then some ⟨secure, some (host ++ Query.calcString query), [], []⟩
      else (parsePathQuery (path.toString ++ Query.calcString query)).map fun (path, query) =>
        ⟨secure, some host, path, query⟩ := by
  have hscheme : ∀ secure, parseScheme (scheme secure) = some secure := by decide
  have hquery : ch '/' ∉ Query.calcString query :=
    not_mem_queryString (by decide) (by decide) query true
  rw [parseAbsolute, hscheme]
  cases path with
  | nil =>
    have hnone : splitAt (host ++ Query.calcString query) (ch '/') = none :=
      splitAt_eq_none (by simp [hslash, hquery])
    simp [Path.toString, hnone]
  | cons part path =>
    have hsome : splitAt (host ++ ch '/' :: (escTo part ++ (Path.toString path ++
        Query.calcString query))) (ch '/') = some (host, _) := splitAt_append hslash
    simp only [Path.toString] at hsome ⊢
    simp [hsome, Option.map_eq_bind]

theorem parse_calcString_iff (u : Uri) (hu : Regular u) :
    RoundTrips u ↔ TwoDigitUri u ∧ PathBeforeQuery u := by
  rw [← parsePathQuery_iff hu, RoundTrips, PathBeforeQuery]
  cases hhost : u.host with
  | none =>
    rw [parse_relative hu hhost, parseRelative]
    cases parsePathQuery (u.path.toString ++ Query.calcString u.query) <;>
      simp [Prod.ext_iff]
  | some host =>
    rw [parse_absolute hhost, parseAbsolute_eq (hu.host host hhost).1]
    by_cases hpath : u.path = []
    · by_cases hquery : u.query = []
      · simp [hpath, hquery, Query.calcString, queryLoop, Path.toString, parsePathQuery,
          splitAt, Path.parse]
      · simp [hpath, hquery, Ne.symm hquery]
    · cases parsePathQuery (u.path.toString ++ Query.calcString u.query) <;>
        simp [hpath, Prod.ext_iff]

/-- `https://bg/a%20b/?n=x%3d`. -/
def sampleUri : Uri :=
  ⟨true, some [ch 'b', ch 'g'], [[ch 'a', ch ' ', ch 'b'], []], [([ch 'n'], [ch 'x', ch '='])]⟩

theorem parse_calcString_sampleUri : Regular sampleUri ∧ RoundTrips sampleUri := by
  have hu : Regular sampleUri := by constructor <;> decide
  refine ⟨hu, (parse_calcString_iff sampleUri hu).mpr ⟨⟨?_, ?_⟩, ?_⟩⟩
  · decide +kernel
  · decide +kernel
  · exact fun _ => Or.inl (by decide)

/-- `/%9`: a tab is written with one digit. -/
def tabUri : Uri := ⟨false, none, [[9]], []⟩

/-- `http://h?x=y`: a query directly behind the host. -/
def bareUri : Uri := ⟨false, some [ch 'h'], [], [([ch 'x'], [ch 'y'])]⟩

theorem not_parse_calcString : (Regular tabUri ∧ ¬ RoundTrips tabUri) ∧
    Regular bareUri ∧ ¬ RoundTrips bareUri := by
  have htab : Uri.parse tabUri.calcString = none := by decide +kernel
  have hbare : Uri.parse bareUri.calcString =
      some ⟨false, some ("h?x=y".toList.map ch), [], []⟩ := by decide +kernel
  refine ⟨⟨by constructor <;> decide, ?_⟩, by constructor <;> decide, ?_⟩
  · rintro ⟨v, hv, -⟩
    cases hv
  · rintro ⟨v, hv, -, hquery, -⟩
    cases hv
    cases hquery

end RoundTrip

end BgqDriver.UriText
