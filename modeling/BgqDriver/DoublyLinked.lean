import BgqDriver.LinkedChains

/-!
Doubly linked lists in a store of nodes: an anchor and, of every node, the links to
its successor and its predecessor. Each operation writes the links one node at a
time, and its lemma says which list the links represent afterwards.
-/

namespace BgqDriver.DoublyLinked

open Function List
open LinkedChains

variable {α : Type*}

structure Links (α : Type*) where
  anchor : Option α
  next : α → Option α
  prev : α → Option α

/-- The nodes from the pointer `p` to the pointer `e`, where the first of them has
the predecessor `q`. -/
def Segment (K : Links α) : Option α → Option α → List α → Option α → Prop
  | _, p, [], e => p = e
  | q, p, a :: l, e => p = some a ∧ K.prev a = q ∧ Segment K (some a) (K.next a) l e

def Links.Lists (K : Links α) (l : List α) : Prop := Segment K none K.anchor l none

variable {K K' : Links α} {q p e : Option α} {l m : List α} {a n : α}

theorem segment_append : Segment K q p (l ++ m) e ↔
    ∃ r, Segment K q p l r ∧ Segment K (l.getLast?.or q) r m e := by
  induction l generalizing q p with
  | nil => simp [Segment]
  | cons a l ih =>
    have hlast : (a :: l).getLast?.or q = l.getLast?.or (some a) := by
      rw [getLast?_cons]
      cases l.getLast? <;> rfl
    simp only [cons_append, Segment, ih, hlast]
    constructor
    · rintro ⟨hp, hprev, r, hl, hm⟩
      exact ⟨r, ⟨hp, hprev, hl⟩, hm⟩
    · rintro ⟨r, ⟨hp, hprev, hl⟩, hm⟩
      exact ⟨hp, hprev, r, hl, hm⟩

theorem Segment.congr {q' p' : Option α} (h : Segment K q p l e) (hq : q' = q) (hp : p' = p)
    (hnext : ∀ c ∈ l, K'.next c = K.next c) (hprev : ∀ c ∈ l, K'.prev c = K.prev c) :
    Segment K' q' p' l e := by
  subst hq hp
  induction l generalizing q' p' with
  | nil => exact h
  | cons a l ih =>
    obtain ⟨hp, hq, hrest⟩ := h
    refine ⟨hp, (hprev a (by simp)).trans hq, ?_⟩
    rw [hnext a (by simp)]
    exact ih (fun c hc => hnext c (by simp [hc])) (fun c hc => hprev c (by simp [hc])) hrest

theorem Segment.chain (h : Segment K q p l none) : Chain K.next p l := by
  induction l generalizing q p with
  | nil => exact h
  | cons a l ih => exact ⟨h.1, ih h.2.2⟩

theorem Links.Lists.chain (h : K.Lists l) : Chain K.next K.anchor l := Segment.chain h

theorem Links.Lists.nodup (h : K.Lists l) : l.Nodup := h.chain.nodup

theorem lists_append_cons : K.Lists (l ++ a :: m) ↔ Segment K none K.anchor l (some a) ∧
    K.prev a = l.getLast? ∧ Segment K (some a) (K.next a) m none := by
  rw [Links.Lists, segment_append]
  simp only [Segment, Option.or_none]
  constructor
  · rintro ⟨r, hl, rfl, hprev, hm⟩
    exact ⟨hl, hprev, hm⟩
  · rintro ⟨hl, hprev, hm⟩
    exact ⟨some a, hl, rfl, hprev, hm⟩

theorem Segment.pointer_eq (h : Segment K q p l none) : p = l.head? := by
  cases l with
  | nil => exact h
  | cons a l => exact h.1

theorem Links.Lists.next_eq (h : K.Lists (l ++ a :: m)) : K.next a = m.head? :=
  (lists_append_cons.mp h).2.2.pointer_eq

theorem Links.Lists.prev_eq (h : K.Lists (l ++ a :: m)) : K.prev a = l.getLast? :=
  (lists_append_cons.mp h).2.1

theorem Links.Lists.anchor_eq (h : K.Lists l) : K.anchor = l.head? := Segment.pointer_eq h

variable [DecidableEq α]

def Links.insertAfter (K : Links α) (n o : α) : Links α where
  anchor := K.anchor.or (some n)
  next := update (update K.next n (K.next o)) o (some n)
  prev :=
    match K.next o with
    | none => update K.prev n (some o)
    | some c => update (update K.prev c (some n)) n (some o)

def Links.insertBefore (K : Links α) (n o : α) : Links α where
  anchor := if K.anchor = some o then some n else K.anchor
  next :=
    match K.prev o with
    | none => update K.next n (some o)
    | some c => update (update K.next c (some n)) n (some o)
  prev := update (update K.prev n (K.prev o)) o (some n)

def Links.remove (K : Links α) (c : α) : Links α where
  anchor := if K.anchor = some c then (K.prev c).or (K.next c) else K.anchor
  next :=
    match K.prev c with
    | none => update K.next c none
    | some p => update (update K.next p (K.next c)) c none
  prev :=
    match K.next c with
    | none => update K.prev c none
    | some s => update (update K.prev s (K.prev c)) c none

section

variable (h : K.Lists (l ++ a :: m))
include h

theorem Links.Lists.insertAfter (hn : n ∉ l ++ a :: m) :
    (K.insertAfter n a).Lists (l ++ a :: n :: m) := by
  have hnodup := h.nodup
  have hanchor : K.anchor.or (some n) = K.anchor := by
    rw [h.anchor_eq]
    cases l <;> rfl
  obtain ⟨hl, hprev, hm⟩ := lists_append_cons.mp h
  rw [lists_append_cons]
  cases m with
  | nil =>
    have hnext : K.next a = none := hm
    simp only [Links.insertAfter, hnext, hanchor]
    refine ⟨hl.congr rfl rfl ?_ ?_, ?_, ?_, ?_, ?_⟩ <;> grind [update_apply, Segment]
  | cons c m =>
    obtain ⟨hnext, hback, hrest⟩ := hm
    simp only [Links.insertAfter, hnext, hanchor]
    refine ⟨hl.congr rfl rfl ?_ ?_, ?_, ?_, ?_, ?_, ?_, hrest.congr rfl ?_ ?_ ?_⟩ <;>
      grind [update_apply]

theorem Links.Lists.insertBefore (hn : n ∉ l ++ a :: m) :
    (K.insertBefore n a).Lists (l ++ n :: a :: m) := by
  have hnodup := h.nodup
  obtain ⟨hl, hprev, hm⟩ := lists_append_cons.mp h
  rcases eq_nil_or_concat' l with rfl | ⟨l, c, rfl⟩
  · have hanchor : K.anchor = some a := hl
    have hnone : K.prev a = none := hprev
    simp only [Links.insertBefore, hnone, hanchor]
    refine ⟨?_, ?_, ?_, ?_, hm.congr rfl ?_ ?_ ?_⟩ <;> grind [update_apply]
  · have hsome : K.prev a = some c := by simpa using hprev
    obtain ⟨r, hl, hr, hc, hca⟩ := segment_append.mp hl
    have hanchor : K.anchor ≠ some a := by
      intro hanchor
      have hhead := h.anchor_eq
      cases l with
      | nil =>
        grind
      | cons d l =>
        grind
    have hbefore : ∀ d ∈ l, d ≠ c ∧ d ≠ a ∧ d ≠ n := by grind
    have hafter : ∀ d ∈ m, d ≠ c ∧ d ≠ a ∧ d ≠ n := by grind
    have hdiffer : c ≠ a ∧ c ≠ n ∧ a ≠ n := by grind
    rw [lists_append_cons]
    simp only [Links.insertBefore, hsome, if_neg hanchor]
    refine ⟨segment_append.mpr ⟨r, hl.congr rfl rfl ?_ ?_, hr, ?_, ?_⟩, ?_, ?_, ?_,
      hm.congr rfl ?_ ?_ ?_⟩
    all_goals grind [update_apply, Segment]

theorem Links.Lists.remove : (K.remove a).Lists (l ++ m) := by
  have hnodup := h.nodup
  have hhead := h.anchor_eq
  obtain ⟨hl, hprev, hm⟩ := lists_append_cons.mp h
  rcases eq_nil_or_concat' l with rfl | ⟨l, c, rfl⟩
  · have hanchor : K.anchor = some a := hl
    have hnone : K.prev a = none := hprev
    cases m with
    | nil =>
      have hnext : K.next a = none := hm
      simp [Links.Lists, Links.remove, Segment, hanchor, hnone, hnext]
    | cons d m =>
      obtain ⟨hnext, hback, hrest⟩ := hm
      simp only [Links.remove, hnone, hnext, hanchor]
      refine ⟨?_, ?_, hrest.congr rfl ?_ ?_ ?_⟩
      all_goals grind [update_apply]
  · have hsome : K.prev a = some c := by simpa using hprev
    have hbefore : ∀ x ∈ l, x ≠ c ∧ x ≠ a ∧ x ∉ m := by grind
    have hca : c ≠ a ∧ c ∉ m := by grind
    have hanchor : K.anchor ≠ some a := by
      rw [hhead]
      cases l with
      | nil => simpa using hca.1
      | cons d l => simpa using (hbefore d (by simp)).2.1
    obtain ⟨r, hl, hr, hc, -⟩ := segment_append.mp hl
    cases m with
    | nil =>
      have hnext : K.next a = none := hm
      simp only [Links.remove, hsome, hnext, if_neg hanchor, append_nil]
      refine segment_append.mpr ⟨r, hl.congr rfl rfl ?_ ?_, hr, ?_, ?_⟩
      all_goals grind [update_apply, Segment]
    | cons d m =>
      obtain ⟨hnext, hback, hrest⟩ := hm
      have hafter : ∀ x ∈ m, x ≠ c ∧ x ≠ a ∧ x ≠ d := by grind
      simp only [Links.remove, hsome, hnext, if_neg hanchor]
      rw [lists_append_cons]
      refine ⟨segment_append.mpr ⟨r, hl.congr rfl rfl ?_ ?_, hr, ?_, ?_⟩, ?_,
        hrest.congr rfl ?_ ?_ ?_⟩
      all_goals grind [update_apply, Segment]

end

end BgqDriver.DoublyLinked
