import Mathlib.Data.List.Perm.Basic

/-!
Combining the elements of a nonempty list with an associative and commutative
operation: neither the order nor a grouping of the elements matters. Selecting the
element with the least key is such an operation.
-/

namespace BgqDriver.GroupedFolds

open List Option

variable {X : Type*} (combine : X → X → X)

/-- The combination of all elements; an empty list has none. -/
def combineAll (xs : List X) : Option X :=
  xs.foldr (fun x => merge combine (some x)) none

@[simp] theorem combineAll_nil : combineAll combine [] = none := rfl

@[simp] theorem combineAll_cons (x : X) (xs : List X) :
    combineAll combine (x :: xs) = merge combine (some x) (combineAll combine xs) := rfl

theorem combineAll_singleton (x : X) : combineAll combine [x] = some x := by
  rw [combineAll_cons, combineAll_nil, merge_none_right]

variable {xs : List X}

theorem exists_combineAll (h : xs ≠ []) : ∃ r, combineAll combine xs = some r := by
  obtain ⟨x, xs, rfl⟩ := exists_cons_of_ne_nil h
  rw [combineAll_cons]
  cases combineAll combine xs with
  | none => exact ⟨x, rfl⟩
  | some r => exact ⟨combine x r, rfl⟩

theorem map_combineAll {Y : Type*} {combine' : Y → Y → Y} {g : X → Y}
    (hg : ∀ x y, g (combine x y) = combine' (g x) (g y)) (xs : List X) :
    (combineAll combine xs).map g = combineAll combine' (xs.map g) := by
  induction xs with
  | nil => rfl
  | cons x xs ih =>
    rw [map_cons, combineAll_cons, combineAll_cons, ← ih]
    cases combineAll combine xs with
    | none => rfl
    | some r => exact congrArg some (hg x r)

section Associative

variable [Std.Associative combine]

theorem combineAll_append (xs ys : List X) : combineAll combine (xs ++ ys) =
      merge combine (combineAll combine xs) (combineAll combine ys) := by
  induction xs with
  | nil => rw [nil_append, combineAll_nil, merge_none_left]
  | cons x xs ih =>
    rw [cons_append, combineAll_cons, ih, combineAll_cons,
      (associative_merge combine).assoc]

theorem combineAll_flatten {groups : List (List X)}
    (h : Forall₂ (fun g x => combineAll combine g = some x) groups xs) :
    combineAll combine groups.flatten = combineAll combine xs := by
  induction h with
  | nil => rfl
  | cons hg _ ih => rw [flatten_cons, combineAll_append, hg, ih, combineAll_cons]

variable [Std.Commutative combine]

theorem combineAll_perm {ys : List X} (h : xs.Perm ys) :
    combineAll combine xs = combineAll combine ys := by
  have hassoc := associative_merge combine
  have hcomm := commutative_merge combine
  have : LeftCommutative fun x : X => merge combine (some x) :=
    ⟨fun x y acc => by
      rw [← hassoc.assoc, hcomm.comm (some x), hassoc.assoc]⟩
  exact h.foldr_eq none

end Associative

section Selection

variable (key : X → Int)

def pick (x y : X) : X := if key y < key x then y else x

theorem pick_associative : Std.Associative (pick key) := by
  refine ⟨fun x y z => ?_⟩
  unfold pick
  grind

variable {key}

theorem pick_commutative (hkey : Function.Injective key) : Std.Commutative (pick key) := by
  refine ⟨fun x y => ?_⟩
  unfold pick
  split <;> split
  · omega
  · rfl
  · rfl
  · exact hkey (by omega)

theorem combineAll_pick (hkey : Function.Injective key) {r : X} (hmem : r ∈ xs)
    (hleast : ∀ x ∈ xs, key r ≤ key x) : combineAll (pick key) xs = some r := by
  have hcomm := pick_commutative hkey
  have hassoc := pick_associative key
  obtain ⟨ys, hperm⟩ : ∃ ys, xs.Perm (r :: ys) := by
    obtain ⟨before, after, rfl⟩ := append_of_mem hmem
    exact ⟨before ++ after, perm_middle⟩
  rw [combineAll_perm _ hperm, combineAll_cons]
  have hrest : ∀ y ∈ ys, key r ≤ key y := fun y hy =>
    hleast y (hperm.mem_iff.mpr (mem_cons_of_mem r hy))
  clear hperm hmem hleast
  induction ys with
  | nil => rfl
  | cons y ys ih =>
    have hfirst := hrest y mem_cons_self
    rw [combineAll_cons, ← (associative_merge (pick key)).assoc, merge_some_some,
      pick, if_neg (by omega)]
    exact ih fun z hz => hrest z (mem_cons_of_mem y hz)

end Selection

end BgqDriver.GroupedFolds
