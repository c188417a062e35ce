import Mathlib.Data.List.TakeWhile
import Mathlib.Tactic

/-!
Routing on an integer grid by correcting one dimension after the other. All
nodes that send one hop towards a common target along the first dimension in
which they are off target form a tree rooted at the target.
-/

namespace BgqDriver.DimensionOrderRouting

open Function List Option Finset Set

variable {ι : Type*} {order : List ι} {target u v w : ι → Nat}

def firstOff (order : List ι) (target v : ι → Nat) : Option ι :=
  order.find? fun i => v i ≠ target i

theorem firstOff_ne {i : ι} (h : firstOff order target v = some i) : v i ≠ target i := by
  simpa using find?_some h

theorem firstOff_eq_none_iff (horder : ∀ i, i ∈ order) :
    firstOff order target v = none ↔ v = target := by
  rw [firstOff, find?_eq_none]
  constructor
  · intro h
    funext i
    simpa using h i (horder i)
  · rintro rfl i -
    simp

theorem exists_firstOff (horder : ∀ i, i ∈ order) (hv : v ≠ target) :
    ∃ i, firstOff order target v = some i := by
  rw [← isSome_iff_exists, isSome_iff_ne_none]
  exact fun h => hv ((firstOff_eq_none_iff horder).mp h)

variable [DecidableEq ι]

/-- Routing from `v` gets as far as dimension `i`: every dimension before its
first occurrence in the order is on target. -/
def Corrects (order : List ι) (target v : ι → Nat) (i : ι) : Prop :=
  i ∈ order ∧ ∀ e ∈ order.takeWhile (· ≠ i), v e = target e

def approach (target v : ι → Nat) (i : ι) : ι → Nat :=
  update v i (if v i < target i then v i + 1 else v i - 1)

/-- The next node on the route from `v`; the target itself stays put. -/
def hop (order : List ι) (target v : ι → Nat) : ι → Nat :=
  match firstOff order target v with
  | none => v
  | some i => approach target v i

def OnRoute (order : List ι) (target u v : ι → Nat) : Prop :=
  ∃ k, (hop order target)^[k] u = v

@[simp]
theorem not_corrects_nil (target v : ι → Nat) (i : ι) : ¬ Corrects [] target v i := by
  simp [Corrects]

theorem corrects_cons {e i : ι} :
    Corrects (e :: order) target v i ↔ i = e ∨ (v e = target e ∧ Corrects order target v i) := by
  by_cases h : i = e
  · subst h
    simp [Corrects]
  · have hne : e ≠ i := fun h' => h h'.symm
    simp only [Corrects, List.mem_cons, takeWhile_cons, hne, h, ne_eq, not_false_eq_true,
      decide_true, if_true, false_or, forall_eq_or_imp]
    tauto

theorem corrects_update_iff {i : ι} {x : Nat} :
    Corrects order target (update v i x) i ↔ Corrects order target v i := by
  have hsame : ∀ e ∈ order.takeWhile (· ≠ i), update v i x e = v e := by
    intro e he
    have hne : e ≠ i := by simpa using mem_takeWhile_imp he
    exact update_of_ne hne x v
  refine and_congr_right fun _ => forall₂_congr fun e he => ?_
  rw [hsame e he]

theorem firstOff_eq_some_iff {i : ι} :
    firstOff order target v = some i ↔ Corrects order target v i ∧ v i ≠ target i := by
  induction order with
  | nil => simp [firstOff]
  | cons e order ih =>
    rw [corrects_cons]
    by_cases he : v e = target e
    · have hskip : firstOff (e :: order) target v = firstOff order target v := by
        simp [firstOff, he]
      rw [hskip, ih]
      constructor
      · rintro ⟨h, hne⟩
        exact ⟨.inr ⟨he, h⟩, hne⟩
      · rintro ⟨rfl | ⟨-, h⟩, hne⟩
        · exact absurd he hne
        · exact ⟨h, hne⟩
    · have hstop : firstOff (e :: order) target v = some e := by
        simp [firstOff, he]
      rw [hstop, some.injEq]
      constructor
      · rintro rfl
        exact ⟨.inl rfl, he⟩
      · rintro ⟨rfl | ⟨h, -⟩, -⟩
        · rfl
        · exact absurd h he

theorem hop_of_firstOff {i : ι} (h : firstOff order target v = some i) :
    hop order target v = approach target v i := by
  rw [hop, h]

@[simp]
theorem hop_target (order : List ι) (target : ι → Nat) : hop order target target = target := by
  have h : firstOff order target target = none := by simp [firstOff]
  rw [hop, h]

theorem hop_mem_Icc {lo hi : ι → Nat} (hv : v ∈ Icc lo hi)
    (htarget : target ∈ Icc lo hi) : hop order target v ∈ Icc lo hi := by
  cases h : firstOff order target v with
  | none => simpa [hop, h] using hv
  | some i =>
    rw [hop_of_firstOff h]
    have hne := firstOff_ne h
    have hbounds : ∀ j, lo j ≤ approach target v i j ∧ approach target v i j ≤ hi j := by
      intro j
      have h1 : lo j ≤ v j := hv.1 j
      have h2 : v j ≤ hi j := hv.2 j
      have h3 : lo j ≤ target j := htarget.1 j
      have h4 : target j ≤ hi j := htarget.2 j
      by_cases hj : j = i
      · subst hj
        simp only [approach, update_self]
        split <;> omega
      · simp only [approach, update_of_ne hj]
        exact ⟨h1, h2⟩
    exact ⟨fun j => (hbounds j).1, fun j => (hbounds j).2⟩

theorem iterate_hop_mem_Icc {lo hi : ι → Nat} (hv : v ∈ Icc lo hi)
    (htarget : target ∈ Icc lo hi) (k : Nat) : (hop order target)^[k] v ∈ Icc lo hi := by
  induction k with
  | zero => exact hv
  | succ k ih =>
    rw [iterate_succ_apply']
    exact hop_mem_Icc ih htarget

section Distance

variable [Fintype ι]

def distance (target v : ι → Nat) : Nat := ∑ i, ((v i - target i) + (target i - v i))

omit [DecidableEq ι] in
theorem distance_eq_zero_iff : distance target v = 0 ↔ v = target := by
  rw [distance, Finset.sum_eq_zero_iff]
  constructor
  · intro h
    funext i
    have := h i (mem_univ i)
    omega
  · rintro rfl i -
    omega

theorem distance_approach {i : ι} (hi : v i ≠ target i) :
    distance target (approach target v i) + 1 = distance target v := by
  have hsplit : ∀ w : ι → Nat, distance target w =
      ((w i - target i) + (target i - w i)) +
        ∑ j ∈ Finset.univ.erase i, ((w j - target j) + (target j - w j)) := by
    intro w
    rw [distance, ← add_sum_erase _ _ (mem_univ i)]
  have hrest : ∑ j ∈ Finset.univ.erase i,
        ((approach target v i j - target j) + (target j - approach target v i j)) =
      ∑ j ∈ Finset.univ.erase i, ((v j - target j) + (target j - v j)) := by
    refine sum_congr rfl fun j hj => ?_
    rw [approach, update_of_ne (ne_of_mem_erase hj)]
  rw [hsplit, hsplit v, hrest]
  simp only [approach, update_self]
  split <;> omega

theorem distance_hop (horder : ∀ i, i ∈ order) (hv : v ≠ target) :
    distance target (hop order target v) + 1 = distance target v := by
  obtain ⟨i, hi⟩ := exists_firstOff horder hv
  rw [hop_of_firstOff hi]
  exact distance_approach (firstOff_ne hi)

theorem distance_iterate_hop (target : ι → Nat) (horder : ∀ i, i ∈ order) (v : ι → Nat) (k : Nat) :
    distance target ((hop order target)^[k] v) = distance target v - k := by
  induction k with
  | zero => rfl
  | succ k ih =>
    rw [iterate_succ_apply']
    by_cases hk : (hop order target)^[k] v = target
    · have hzero : distance target v - k = 0 := by
        rw [← ih, distance_eq_zero_iff]
        exact hk
      rw [hk, hop_target, distance_eq_zero_iff.mpr rfl]
      omega
    · have := distance_hop horder hk
      omega

section

variable (horder : ∀ i, i ∈ order)
include horder

theorem iterate_hop_eq_target_iff (k : Nat) :
    (hop order target)^[k] v = target ↔ distance target v ≤ k := by
  rw [← distance_eq_zero_iff, distance_iterate_hop target horder]
  omega

theorem onRoute_target (u : ι → Nat) : OnRoute order target u target :=
  ⟨distance target u, (iterate_hop_eq_target_iff horder _).mpr le_rfl⟩

theorem distance_le_of_onRoute (h : OnRoute order target u v) :
    distance target v ≤ distance target u := by
  obtain ⟨k, rfl⟩ := h
  rw [distance_iterate_hop target horder]
  omega

omit horder in
theorem onRoute_iff_child : OnRoute order target u v ↔
      u = v ∨ ∃ w, w ≠ target ∧ hop order target w = v ∧ OnRoute order target u w := by
  constructor
  · rintro ⟨k, hk⟩
    induction k with
    | zero => exact .inl hk
    | succ k ih =>
      rw [iterate_succ_apply'] at hk
      by_cases htarget : (hop order target)^[k] u = target
      · exact ih (by rw [← hk, htarget, hop_target])
      · exact .inr ⟨_, htarget, hk, k, rfl⟩
  · rintro (rfl | ⟨w, -, rfl, k, rfl⟩)
    · exact ⟨0, rfl⟩
    · exact ⟨k + 1, iterate_succ_apply' _ _ _⟩

theorem eq_of_onRoute_of_hop_eq {w1 w2 : ι → Nat}
    (hw1 : w1 ≠ target) (hw2 : w2 ≠ target) (hhop : hop order target w1 = hop order target w2)
    (h1 : OnRoute order target u w1) (h2 : OnRoute order target u w2) : w1 = w2 := by
  obtain ⟨k1, hk1⟩ := h1
  obtain ⟨k2, hk2⟩ := h2
  have hd1 := distance_iterate_hop target horder u k1
  have hd2 := distance_iterate_hop target horder u k2
  have hs1 := distance_hop horder hw1
  have hs2 := distance_hop horder hw2
  rw [hk1] at hd1
  rw [hk2] at hd2
  rw [hhop] at hs1
  have hk : k1 = k2 := by omega
  rw [← hk1, ← hk2, hk]

theorem not_onRoute_of_hop_eq (hw : w ≠ target)
    (hhop : hop order target w = v) : ¬ OnRoute order target v w := by
  intro h
  have h1 := distance_le_of_onRoute horder h
  have h2 := distance_hop horder hw
  rw [hhop] at h2
  omega

end

end Distance

end BgqDriver.DimensionOrderRouting
