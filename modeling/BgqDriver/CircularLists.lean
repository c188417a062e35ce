import Mathlib.Data.List.Chain
import Mathlib.Data.List.Nodup

/-!
Doubly linked rings in a store of nodes. A ring is given by one of its nodes and the
list of the others in the order of their links. Every operation that writes links is
one or two uses of `Path.link`, which joins two linked sequences of nodes.
-/

namespace BgqDriver.CircularLists

open Function List

variable {α : Type*} {next prev : α → Option α} {a b n o p : α} {l m : List α}

def Linked (next prev : α → Option α) (a b : α) : Prop := next a = some b ∧ prev b = some a

def Path (next prev : α → Option α) (l : List α) : Prop := l.IsChain (Linked next prev)

structure Ring (next prev : α → Option α) (a : α) (l : List α) : Prop where
  path : Path next prev (a :: (l ++ [a]))
  nodup : (a :: l).Nodup

theorem path_split : Path next prev (l ++ b :: m) ↔
    Path next prev (l ++ [b]) ∧ Path next prev (b :: m) :=
  isChain_split

theorem path_append : Path next prev (l ++ m) ↔ Path next prev l ∧ Path next prev m ∧
    ∀ p ∈ l.getLast?, ∀ o ∈ m.head?, Linked next prev p o :=
  isChain_append

variable {next' prev' : α → Option α}

theorem Path.congr (h : Path next prev l) (hnext : ∀ x ∈ l.dropLast, next' x = next x)
    (hprev : ∀ x ∈ l.tail, prev' x = prev x) : Path next' prev' l := by
  induction l with
  | nil => exact isChain_nil
  | cons a l ih =>
    cases l with
    | nil => exact isChain_singleton a
    | cons b l =>
      obtain ⟨hab, hl⟩ := isChain_cons_cons.mp h
      refine isChain_cons_cons.mpr ⟨⟨?_, ?_⟩, ih hl ?_ ?_⟩
      · exact (hnext a (by simp)).trans hab.1
      · exact (hprev b (by simp)).trans hab.2
      · intro x hx
        exact hnext x (by simp [hx])
      · intro x hx
        exact hprev x (by simp [mem_of_mem_tail hx])

theorem Ring.split (h : Ring next prev a (l ++ m)) : Path next prev (a :: l) ∧
    Path next prev (m ++ [a]) ∧
    ∀ p ∈ (a :: l).getLast?, ∀ o ∈ (m ++ [a]).head?, Linked next prev p o := by
  have hpath := h.path
  rwa [append_assoc, ← cons_append, path_append] at hpath

theorem Ring.linked (h : Ring next prev a (l ++ m)) (hp : (a :: l).getLast? = some p)
    (ho : (m ++ [a]).head? = some o) : Linked next prev p o :=
  h.split.2.2 p hp o ho

theorem Ring.congr (h : Ring next prev a l) (hnext : ∀ x ∈ a :: l, next' x = next x)
    (hprev : ∀ x ∈ a :: l, prev' x = prev x) : Ring next' prev' a l := by
  refine ⟨h.path.congr ?_ ?_, h.nodup⟩
  · intro x hx
    rw [← cons_append, dropLast_concat] at hx
    exact hnext x hx
  · intro x hx
    exact hprev x (by grind)

theorem Ring.rotate (h : Ring next prev a (l ++ b :: m)) : Ring next prev b (m ++ a :: l) := by
  constructor
  · have hpath := h.path
    rw [append_assoc, cons_append, ← cons_append, path_split] at hpath
    rw [append_assoc, cons_append, ← cons_append, path_split]
    exact ⟨hpath.2, hpath.1⟩
  · have hnodup := h.nodup
    refine (Perm.nodup_iff ?_).mp hnodup
    rw [← cons_append, ← cons_append]
    exact perm_append_comm

theorem Ring.left (h : Ring next prev a (l ++ m)) : Path next prev (a :: l) := h.split.1

theorem Ring.right (h : Ring next prev a (l ++ m)) : Path next prev (m ++ [a]) := h.split.2.1

theorem Ring.right_tail (h : Ring next prev a (l ++ b :: m)) : Path next prev (m ++ [a]) :=
  h.right.tail

theorem Ring.nodup_erase (h : Ring next prev a (l ++ b :: m)) : (a :: (l ++ m)).Nodup := by
  refine h.nodup.sublist ?_
  exact ((sublist_cons_self b m).append_left l).cons_cons a

theorem nodup_front {m' : List α} (hnodup : (a :: (l ++ m)).Nodup) (hm : m ++ [a] = o :: m') :
    (l ++ o :: m').Nodup := by
  rw [← hm, ← append_assoc]
  exact (Perm.nodup_iff (perm_append_singleton a (l ++ m)).symm).mp hnodup

section Write

variable [DecidableEq α]

theorem Path.link (hl : Path next prev (l ++ [p])) (hm : Path next prev (o :: m)) (hp : p ∉ l)
    (hpm : p ∉ (o :: m).dropLast) (ho : o ∉ (l ++ [p]).tail) (hom : o ∉ m) :
    Path (update next p (some o)) (update prev o (some p)) (l ++ [p] ++ o :: m) := by
  rw [path_append]
  refine ⟨hl.congr ?_ ?_, hm.congr ?_ ?_, ?_⟩
  · intro x hx
    rw [dropLast_concat] at hx
    exact update_of_ne (ne_of_mem_of_not_mem hx hp) _ _
  · intro x hx
    exact update_of_ne (ne_of_mem_of_not_mem hx ho) _ _
  · intro x hx
    exact update_of_ne (ne_of_mem_of_not_mem hx hpm) _ _
  · intro x hx
    exact update_of_ne (ne_of_mem_of_not_mem hx hom) _ _
  · intro x hx y hy
    rw [getLast?_concat] at hx
    cases hx
    cases hy
    exact ⟨update_self .., update_self ..⟩

section

variable (hleft : Path next prev (a :: l)) (hright : Path next prev (m ++ [a]))
  (hnodup : (a :: (l ++ m)).Nodup) (hp : (a :: l).getLast? = some p)
include hleft hright hnodup hp

theorem Path.close (ho : (m ++ [a]).head? = some o) :
    Ring (update next p (some o)) (update prev o (some p)) a (l ++ m) := by
  obtain ⟨l', hl'⟩ := getLast?_eq_some_iff.mp hp
  obtain ⟨m', hm'⟩ := head?_eq_some_iff.mp ho
  have hback : (l' ++ [p] ++ m).Nodup := by
    rw [← hl']
    exact hnodup
  have hfront : (l ++ o :: m').Nodup := nodup_front hnodup hm'
  have hlast : (o :: m').dropLast = m := by rw [← hm', dropLast_concat]
  have htail : (l' ++ [p]).tail = l := by rw [← hl', tail_cons]
  refine ⟨?_, hnodup⟩
  rw [append_assoc, ← cons_append, hl', hm']
  rw [hl'] at hleft
  rw [hm'] at hright
  obtain ⟨hleftNodup, -, happart⟩ := nodup_append.mp hback
  obtain ⟨-, hrightNodup, happart'⟩ := nodup_append.mp hfront
  refine hleft.link hright ?_ ?_ ?_ (nodup_cons.mp hrightNodup).1
  · intro hmem
    exact (nodup_append.mp hleftNodup).2.2 p hmem p (by simp) rfl
  · rw [hlast]
    intro hmem
    exact happart p (by simp) p hmem rfl
  · rw [htail]
    intro hmem
    exact happart' o hmem o (by simp) rfl

theorem Path.closeThrough (ho : (m ++ [a]).head? = some o) (hn : n ∉ a :: (l ++ m)) :
    Ring (update (update next n (some o)) p (some n)) (update (update prev n (some p)) o (some n))
      a (l ++ n :: m) := by
  obtain ⟨m', hm'⟩ := head?_eq_some_iff.mp ho
  have hnm : n ∉ o :: m' := by
    grind
  have hno : n ≠ o := fun hno => hnm (by simp [hno])
  obtain ⟨-, hrightNodup, happart⟩ := nodup_append.mp (nodup_front hnodup hm')
  have hnew : (a :: l ++ n :: m).Nodup :=
    (Perm.nodup_iff perm_middle.symm).mp (nodup_cons.mpr ⟨hn, hnodup⟩)
  have hright' : Path (update next n (some o)) (update prev o (some n)) (n :: m ++ [a]) := by
    rw [hm'] at hright
    rw [cons_append, hm']
    refine Path.link (l := []) (isChain_singleton n) hright (by simp) ?_ (by simp) ?_
    · exact fun hmem => hnm (dropLast_subset _ hmem)
    · exact (nodup_cons.mp hrightNodup).1
  have hleft' : Path (update next n (some o)) (update prev o (some n)) (a :: l) := by
    refine hleft.congr ?_ ?_
    · intro x hx
      exact update_of_ne (fun hxn => hn (by grind [dropLast_subset])) _ _
    · intro x hx
      exact update_of_ne (happart x hx o (by simp)) _ _
  have hring := hleft'.close hright' hnew hp (head?_cons ..)
  rwa [update_comm hno.symm] at hring

end

theorem Ring.insert (h : Ring next prev a (l ++ m)) (hp : (a :: l).getLast? = some p)
    (ho : (m ++ [a]).head? = some o) (hn : n ∉ a :: (l ++ m)) :
    Ring (update (update next n (some o)) p (some n)) (update (update prev n (some p)) o (some n))
      a (l ++ n :: m) :=
  h.left.closeThrough h.right h.nodup hp ho hn

section

variable (h : Ring next prev a (l ++ b :: m)) (hp : (a :: l).getLast? = some p)
  (ho : (m ++ [a]).head? = some o)
include h hp ho

theorem Ring.remove : Ring (update next p (some o)) (update prev o (some p)) a (l ++ m) :=
  h.left.close h.right_tail h.nodup_erase hp ho

theorem Ring.replace (hn : n ∉ a :: (l ++ b :: m)) :
    Ring (update (update next n (some o)) p (some n)) (update (update prev n (some p)) o (some n))
      a (l ++ n :: m) :=
  h.left.closeThrough h.right_tail h.nodup_erase hp ho (by grind)

end

theorem Ring.removeFirst (h : Ring next prev a (b :: l)) (hp : (b :: l).getLast? = some p) :
    Ring (update next p (some b)) (update prev b (some p)) b l := by
  have hpath : Path next prev (b :: l) := (Ring.left (m := []) (by simpa using h)).tail
  have hone : Path next prev ([] ++ [b]) := isChain_singleton b
  have hring := hpath.close hone (by simpa using h.nodup.of_cons) hp rfl
  rwa [append_nil] at hring

end Write

/-- The nodes from `x` up to, and without, the node `stop`. -/
def walk [DecidableEq α] (next : α → Option α) (stop : α) : Nat → α → List α
  | 0, _ => []
  | fuel + 1, x =>
    if x = stop then [] else
      match next x with
      | none => [x]
      | some y => x :: walk next stop fuel y

theorem walk_eq [DecidableEq α] {x : α} {fuel : Nat} (h : Path next prev (l ++ [a]))
    (hx : (l ++ [a]).head? = some x) (ha : a ∉ l) (hfuel : l.length < fuel) :
    walk next a fuel x = l := by
  induction l generalizing x fuel with
  | nil =>
    obtain rfl : a = x := by simpa using hx
    obtain ⟨fuel, rfl⟩ := Nat.exists_eq_succ_of_ne_zero (Nat.ne_of_gt hfuel)
    simp [walk]
  | cons b l ih =>
    obtain rfl : b = x := by simpa using hx
    obtain ⟨fuel, rfl⟩ := Nat.exists_eq_succ_of_ne_zero (Nat.ne_of_gt (Nat.zero_lt_of_lt hfuel))
    obtain ⟨y, hy⟩ : ∃ y, (l ++ [a]).head? = some y := by cases l <;> simp
    have hnext : next b = some y := by
      rw [cons_append, ← singleton_append, path_append] at h
      exact (h.2.2 b rfl y hy).1
    have hab : b ≠ a := fun hab => ha (by simp [hab])
    rw [walk, if_neg hab, hnext]
    simp only
    rw [ih h.tail hy (fun hmem => ha (mem_cons_of_mem b hmem)) (by simpa using hfuel)]

end BgqDriver.CircularLists
