import BgqDriver.EventRuns
import BgqDriver.TextLines

/-!
The escapes of real-time messages, `AbstractMessage::_escape` and `_unescape`: two
replacements each, over the whole text.
-/

namespace BgqDriver.MessageEscapes

open List EventRuns TextLines

/-- `boost::algorithm::replace_all`; the characters to skip are those of the last match. -/
def replaceAll (search format : List Char) : Nat → List Char → List Char
  | _, [] => []
  | skip + 1, _ :: s => replaceAll search format skip s
  | 0, c :: s =>
    if search.isPrefixOf (c :: s) then format ++ replaceAll search format (search.length - 1) s
    else c :: replaceAll search format 0 s

/-- `AbstractMessage::_escape` -/
def escape (msg : List Char) : List Char :=
  replaceAll ['\n'] ['\\', 'n'] 0 (replaceAll ['\\'] ['\\', '\\'] 0 msg)

/-- `AbstractMessage::_unescape` -/
def unescape (msg : List Char) : List Char :=
  replaceAll ['\\', '\\'] ['\\'] 0 (replaceAll ['\\', 'n'] ['\n'] 0 msg)

/-- What comes back: an `n` behind a backslash is a newline. -/
def returned : List Char → List Char
  | [] => []
  | '\\' :: 'n' :: s => '\\' :: '\n' :: returned s
  | c :: s => c :: returned s

variable {a b c : Char} {format s : List Char}

theorem replaceAll_one : replaceAll [a] format 0 s =
    s.flatMap fun c => if a = c then format else [c] := by
  induction s with
  | nil => rfl
  | cons c s ih =>
    rw [replaceAll, flatMap_cons, ← ih]
    by_cases hc : a = c <;> simp [hc, isPrefixOf]

theorem replaceAll_match : replaceAll [a, b] format 0 (a :: b :: s) =
    format ++ replaceAll [a, b] format 0 s := by
  simp [replaceAll, isPrefixOf]

theorem replaceAll_skip (h : ¬ [a, b] <+: c :: s) : replaceAll [a, b] format 0 (c :: s) =
    c :: replaceAll [a, b] format 0 s := by
  exact if_neg (mt isPrefixOf_iff_prefix.mp h)

theorem escape_cons (c : Char) (s : List Char) : escape (c :: s) =
    (if c = '\\' then ['\\', '\\'] else if c = '\n' then ['\\', 'n'] else [c]) ++ escape s := by
  simp only [escape, replaceAll_one, flatMap_cons, flatMap_append]
  congr 1
  grind

theorem newline_notMem_escape (s : List Char) : '\n' ∉ escape s := by
  induction s with
  | nil => exact not_mem_nil
  | cons c s ih =>
    rw [escape_cons]
    grind

theorem unescape_cons (hc : c ≠ '\\') : unescape (c :: s) = c :: unescape s := by
  rw [unescape, replaceAll_skip (by simp [Ne.symm hc]), replaceAll_skip (by simp [Ne.symm hc])]
  rfl

theorem unescape_newline : unescape ('\\' :: 'n' :: s) = '\n' :: unescape s := by
  rw [unescape, replaceAll_match, singleton_append, replaceAll_skip (by simp)]
  rfl

theorem unescape_backslash (hs : ¬ ['n'] <+: s) :
    unescape ('\\' :: '\\' :: s) = '\\' :: unescape s := by
  rw [unescape, replaceAll_skip (by simp), replaceAll_skip (b := 'n') (by simpa using hs),
    replaceAll_match]
  rfl

/-- The second backslash goes with the `n` that follows. -/
theorem unescape_backslash_n :
    unescape ('\\' :: '\\' :: 'n' :: s) = '\\' :: '\n' :: unescape s := by
  rw [unescape, replaceAll_skip (by simp), replaceAll_match, singleton_append,
    replaceAll_skip (by simp), replaceAll_skip (by simp)]
  rfl

theorem unescape_escape (s : List Char) : unescape (escape s) = returned s := by
  induction s using returned.induct with
  | case1 => rfl
  | case2 s ih =>
    rw [escape_cons, if_pos rfl, escape_cons, if_neg (by decide), if_neg (by decide), returned,
      ← ih]
    exact unescape_backslash_n
  | case3 c s hn ih =>
    have hlater (hc : c = '\\') : ¬ ['n'] <+: escape s := by
      cases s with
      | nil => simp [escape, replaceAll]
      | cons d s =>
        have hd : d ≠ 'n' := fun h => hn s hc (by rw [h])
        rw [escape_cons]
        grind
    rw [returned, escape_cons, ← ih]
    · split_ifs with hc hc'
      · rw [hc]
        exact unescape_backslash (hlater hc)
      · rw [hc']
        exact unescape_newline
      · exact unescape_cons hc
    · exact hn

theorem returned_eq_iff (s : List Char) : returned s = s ↔ ¬ ['\\', 'n'] <:+: s := by
  induction s using returned.induct with
  | case1 => simp [returned]
  | case2 s ih => exact iff_of_false (by simp [returned]) (not_not.mpr ⟨[], s, rfl⟩)
  | case3 c s hn ih =>
    rw [returned, cons_inj_right, ih, infix_cons_iff, not_or, and_iff_right]
    · rintro ⟨rest, hrest⟩
      grind
    · exact hn

/-- A text comes back as it was unless it has an `n` right behind a backslash. -/
theorem escape_lines (msg : List Char) : '\n' ∉ escape msg ∧
    (unescape (escape msg) = msg ↔ ¬ ['\\', 'n'] <:+: msg) := by
  refine ⟨newline_notMem_escape msg, ?_⟩
  rw [unescape_escape, returned_eq_iff]

/-- The text `\n`, two characters, comes back as a backslash and a newline. -/
theorem unescape_escape_ne : unescape (escape ['\\', 'n']) ≠ ['\\', 'n'] := by decide

/-- What both ends write. -/
def written (msgs : List (List Char)) : List Char := msgs.flatMap (escape · ++ ['\n'])

/-- A client on one connection: `_in_sb`, what has been handed to `_handleMessage`, and
whether it is in the loop of `receiveMessages`. -/
structure Reader where
  connected : Bool
  reading : Bool
  inSb : List Char
  handled : List (List Char)

inductive Label
  /-- Bytes arrive, in pieces of any size. -/
  | arrive (bytes : List Char)
  | receiveMessages
  /-- `async_read_until` has found a newline, and the line is handled. -/
  | message (continueReading : Bool)
  /-- The loop is left without a message: the read is still in progress, interrupted or
  aborted, or the connection is lost. -/
  | leave (lost : Bool)
deriving DecidableEq

/-- A turn of the loop, or what comes between two turns -/
def Reader.step (s : Reader) : Label → Option Reader
  | .arrive bytes => some { s with inSb := s.inSb ++ bytes }
  | .receiveMessages => if s.connected && !s.reading then some { s with reading := true } else none
  | .message continueReading =>
    if s.reading && s.inSb.contains '\n' then
      some { s with
        reading := continueReading
        inSb := s.inSb.drop (nextLine '\n' s.inSb 0)
        handled := s.handled ++ [unescape (lineAt '\n' s.inSb 0)] }
    else none
  | .leave lost =>
    if s.reading then some { s with reading := false, connected := !lost } else none

def Label.bytes : Label → List Char
  | .arrive bytes => bytes
  | _ => []

/-- The first messages have been handled, and the buffer and what is to come hold the others. -/
def Reader.Follows (msgs : List (List Char)) (labels : List Label) (s : Reader) : Prop :=
  ∀ pending, labels.flatMap Label.bytes ++ pending = written msgs → ∃ done rest,
    msgs = done ++ rest ∧ s.handled = done.map returned ∧ s.inSb ++ pending = written rest

theorem split_buffer {buffer pending line rest : List Char} (hnewline : '\n' ∈ buffer)
    (hline : '\n' ∉ line) (h : buffer ++ pending = line ++ '\n' :: rest) :
    lineAt '\n' buffer 0 = line ∧ buffer.drop (nextLine '\n' buffer 0) ++ pending = rest := by
  obtain ⟨first, more, rfl, hfirst⟩ := eq_append_cons_of_mem hnewline
  have hread : ∀ {line}, '\n' ∉ line → ∀ later, lineAt '\n' (line ++ '\n' :: later) 0 = line :=
    fun hline later => lineAt_append [] later hline
  have hsame := hread hfirst (more ++ pending)
  rw [append_assoc, cons_append] at h
  rw [h, hread hline] at hsame
  subst hsame
  rw [append_right_inj, cons_inj_right] at h
  refine ⟨hread hline more, ?_⟩
  rw [nextLine, hread hline, ← h]
  simp

theorem Reader.Follows.step {msgs : List (List Char)} {labels : List Label} {label : Label}
    {s t : Reader} (h : s.Follows msgs labels) (hstep : s.step label = some t) :
    t.Follows msgs (labels ++ [label]) := by
  intro pending hbytes
  rw [flatMap_append, flatMap_singleton, append_assoc] at hbytes
  obtain ⟨done, rest, hmsgs, hhandled, hbuffer⟩ := h _ hbytes
  cases label with
  | arrive bytes =>
    cases hstep
    exact ⟨done, rest, hmsgs, hhandled, by rw [append_assoc]; exact hbuffer⟩
  | receiveMessages | leave =>
    obtain ⟨-, hstep⟩ := Option.ite_none_right_eq_some.mp hstep
    cases hstep
    exact ⟨done, rest, hmsgs, hhandled, hbuffer⟩
  | message continueReading =>
    obtain ⟨hread, hstep⟩ := Option.ite_none_right_eq_some.mp hstep
    cases hstep
    have hnewline : '\n' ∈ s.inSb := by simpa using (Bool.and_eq_true_iff.mp hread).2
    cases rest with
    | nil => simp [(append_eq_nil_iff.mp hbuffer).1] at hnewline
    | cons msg rest =>
      rw [written, flatMap_cons, append_assoc] at hbuffer
      obtain ⟨hline, hrest⟩ := split_buffer hnewline (newline_notMem_escape msg) hbuffer
      refine ⟨done ++ [msg], rest, by rw [hmsgs, append_assoc]; rfl, ?_, hrest⟩
      rw [map_append, hline, unescape_escape, hhandled]
      rfl

/-- Two messages, the second one with a newline, in three pieces -/
def pieces : List Label :=
  [.arrive ['a'], .receiveMessages, .arrive ['\n', 'b', '\\'], .message true, .arrive ['n', '\n'],
    .message false]

end BgqDriver.MessageEscapes
