import Mathlib.Data.Fintype.Card

/-!
Singly linked chains in a store of nodes. A chain is given by the pointer to its
first node and the link of every node, and represents the list of nodes met
before the null pointer. The loops that walk a chain carry fuel, so that a walk
that never meets the null pointer is `none` for every amount of it.
-/

namespace BgqDriver.LinkedChains

open Function List Option Nat

variable {α : Type*} {next : α → Option α}

def Chain (next : α → Option α) : Option α → List α → Prop
  | p, [] => p = none
  | p, a :: l => p = some a ∧ Chain next (next a) l

variable {p : Option α} {a b : α} {k l m : List α}

@[simp]
theorem chain_nil_iff : Chain next p [] ↔ p = none := Iff.rfl

@[simp]
theorem chain_cons_iff : Chain next p (a :: l) ↔ p = some a ∧ Chain next (next a) l := Iff.rfl

theorem Chain.unique (hl : Chain next p l) (hm : Chain next p m) : l = m := by
  induction l generalizing p m with
  | nil =>
    cases m with
    | nil => rfl
    | cons b m => simp [chain_nil_iff.mp hl] at hm
  | cons a l ih =>
    obtain ⟨rfl, hl⟩ := hl
    cases m with
    | nil => simp at hm
    | cons b m =>
      obtain ⟨hab, hm⟩ := hm
      cases hab
      rw [ih hl hm]

theorem Chain.of_append (h : Chain next p (l ++ a :: m)) : Chain next (next a) m := by
  induction l generalizing p with
  | nil => exact h.2
  | cons b l ih => exact ih h.2

theorem Chain.nodup (h : Chain next p l) : l.Nodup := by
  induction l generalizing p with
  | nil => exact nodup_nil
  | cons a l ih =>
    refine nodup_cons.mpr ⟨?_, ih h.2⟩
    intro hmem
    -- A second visit to `a` would start the same chain again, one node shorter.
    obtain ⟨u, v, huv⟩ := append_of_mem hmem
    have hv : Chain next (next a) v := Chain.of_append (huv ▸ h.2)
    have hlen := congrArg List.length (h.2.unique hv)
    rw [huv] at hlen
    simp only [length_append, length_cons] at hlen
    omega

theorem Chain.length_le [Fintype α] (h : Chain next p l) : l.length ≤ Fintype.card α :=
  h.nodup.length_le_card

theorem Chain.congr {next' : α → Option α} (h : Chain next p l) (heq : ∀ a ∈ l, next' a = next a) :
    Chain next' p l := by
  induction l generalizing p with
  | nil => exact h
  | cons a l ih =>
    refine ⟨h.1, ?_⟩
    rw [heq a (by simp)]
    exact ih h.2 fun b hb => heq b (by simp [hb])

theorem Chain.join [DecidableEq α] {q : Option α} (h : Chain next p (l ++ a :: k))
    (hq : Chain next q m) (ham : a ∉ m) : Chain (update next a q) p (l ++ a :: m) := by
  have hnodup := h.nodup
  induction l generalizing p with
  | nil =>
    refine ⟨h.1, ?_⟩
    rw [update_self]
    exact hq.congr fun b hb => update_of_ne (ne_of_mem_of_not_mem hb ham) _ _
  | cons b l ih =>
    rw [cons_append, nodup_cons] at hnodup
    have hba : b ≠ a := fun hba => hnodup.1 (by simp [hba])
    refine ⟨h.1, ?_⟩
    rw [update_of_ne hba]
    exact ih h.2 hnodup.2

theorem Chain.concat [DecidableEq α] (h : Chain next p (l ++ [a])) (hb : b ∉ l ++ [a]) :
    Chain (update (update next a (some b)) b none) p (l ++ [a] ++ [b]) := by
  have hab : a ≠ b := fun hab => hb (by simp [hab])
  have hnull : Chain (update next b none) p (l ++ [a]) :=
    h.congr fun c hc => update_of_ne (ne_of_mem_of_not_mem hc hb) _ _
  rw [update_comm hab, append_assoc, singleton_append]
  exact hnull.join ⟨rfl, by simp⟩ (by simpa using hab)

theorem Chain.unlink [DecidableEq α] (h : Chain next p (l ++ b :: a :: m)) :
    Chain (update next b (next a)) p (l ++ b :: m) := by
  refine h.join h.of_append.2 ?_
  have hnodup := h.nodup
  grind

def nodes (next : α → Option α) : Nat → Option α → List α
  | 0, _ => []
  | _ + 1, none => []
  | n + 1, some a => a :: nodes next n (next a)

variable {n : Nat}

theorem Chain.nodes_eq (h : Chain next p l) (hn : l.length ≤ n) : nodes next n p = l := by
  induction l generalizing p n with
  | nil =>
    obtain rfl := chain_nil_iff.mp h
    cases n <;> rfl
  | cons a l ih =>
    obtain ⟨rfl, h⟩ := h
    cases n with
    | zero => simp at hn
    | succ n => rw [nodes, ih h (by simpa using hn)]

def lastFrom (next : α → Option α) : Nat → α → Option α
  | 0, _ => none
  | n + 1, a =>
    match next a with
    | none => some a
    | some b => lastFrom next n b

theorem Chain.lastFrom_eq (h : Chain next (some a) (l ++ [b])) (hn : l.length < n) :
    lastFrom next n a = some b := by
  induction l generalizing a n with
  | nil =>
    obtain ⟨hab, hnext⟩ := h
    obtain rfl := some.inj hab
    obtain ⟨n, rfl⟩ := exists_eq_succ_of_ne_zero (by omega : n ≠ 0)
    simp [lastFrom, chain_nil_iff.mp hnext]
  | cons c l ih =>
    obtain ⟨hac, hnext⟩ := h
    obtain rfl := some.inj hac
    obtain ⟨n, rfl⟩ := exists_eq_succ_of_ne_zero (by omega : n ≠ 0)
    rw [lastFrom]
    cases hsucc : next a with
    | none =>
      rw [hsucc] at hnext
      cases l <;> simp at hnext
    | some d =>
      rw [hsucc] at hnext
      exact ih hnext (by simpa using hn)

theorem Chain.lastFrom_eq_or (n : Nat) (h : Chain next (some a) (l ++ [b])) :
    lastFrom next n a = none ∨ lastFrom next n a = some b := by
  induction n generalizing a l with
  | zero => exact Or.inl rfl
  | succ n ih =>
    rw [lastFrom]
    cases l with
    | nil =>
      obtain ⟨hab, hnext⟩ := h
      cases hab
      simp [chain_nil_iff.mp hnext]
    | cons c l =>
      obtain ⟨hac, hnext⟩ := h
      cases hac
      cases hsucc : next a with
      | none =>
        rw [hsucc] at hnext
        cases l <;> simp at hnext
      | some d =>
        rw [hsucc] at hnext
        exact ih hnext

/-- Along a chain whose last node links back to its first, every node has a successor
in the chain. -/
theorem Chain.exists_next_of_join [DecidableEq α] {c : α} (h : Chain next p (l ++ [b]))
    (ha : a ∈ l ++ [b]) (hc : c ∈ l ++ [b]) :
    ∃ d ∈ l ++ [b], update next b (some a) c = some d := by
  rcases eq_or_ne c b with rfl | hcb
  · exact ⟨a, ha, update_self ..⟩
  rw [update_of_ne hcb]
  obtain ⟨u, v, huv⟩ := append_of_mem hc
  rw [huv] at h ⊢
  cases v with
  | nil =>
    have hlast := congrArg getLast? huv
    simp only [getLast?_concat, some.injEq] at hlast
    exact absurd hlast.symm hcb
  | cons d v => exact ⟨d, by simp, h.of_append.1⟩

def firstFrom (next : α → Option α) (has : α → Bool) : Nat → Option α → Option (Option α)
  | 0, _ => none
  | _ + 1, none => some none
  | n + 1, some a => if has a then some (some a) else firstFrom next has n (next a)

theorem Chain.firstFrom_eq (has : α → Bool) (h : Chain next p l) (hn : l.length < n) :
    firstFrom next has n p = some (l.find? has) := by
  induction l generalizing p n with
  | nil =>
    obtain rfl := chain_nil_iff.mp h
    obtain ⟨n, rfl⟩ := exists_eq_succ_of_ne_zero (by omega : n ≠ 0)
    rfl
  | cons a l ih =>
    obtain ⟨rfl, h⟩ := h
    obtain ⟨n, rfl⟩ := exists_eq_succ_of_ne_zero (by omega : n ≠ 0)
    rw [firstFrom, find?_cons]
    cases has a with
    | false => exact ih h (by simpa using hn)
    | true => rfl

def predecessor [DecidableEq α] (next : α → Option α) (x : α) : Nat → Option α → Option (Option α)
  | 0, _ => none
  | _ + 1, none => some none
  | n + 1, some a =>
    if next a = some x then some (some a) else predecessor next x n (next a)

theorem Chain.predecessor_eq [DecidableEq α] {x : α} (h : Chain next p (l ++ a :: x :: m))
    (hn : l.length < n) : predecessor next x n p = some (some a) := by
  induction l generalizing p n with
  | nil =>
    obtain ⟨rfl, hnext, -⟩ := h
    obtain ⟨n, rfl⟩ := exists_eq_succ_of_ne_zero (by omega : n ≠ 0)
    simp [predecessor, hnext]
  | cons c l ih =>
    have hnodup := h.2.nodup
    obtain ⟨rfl, h⟩ := h
    obtain ⟨n, rfl⟩ := exists_eq_succ_of_ne_zero (by omega : n ≠ 0)
    have hne : next c ≠ some x := by
      intro hcx
      rw [hcx] at h
      cases l with
      | nil | cons d l =>
        obtain rfl := some.inj h.1
        simp at hnodup
    rw [predecessor, if_neg hne]
    exact ih h (by simpa using hn)

end BgqDriver.LinkedChains
