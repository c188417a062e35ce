import Mathlib.Data.Fintype.Card

/-!
Tables that give every index at most one extent of a linear address space. The
extents of a table are apart when none is empty, all lie in one region and no two
overlap. A scan over the indices finds the extent with the least base above an
address, or the greatest one below.
-/

namespace BgqDriver.ExtentTables

open Function

section Scan

variable {ι κ : Type*} {takes : ι → κ → Bool} {key : ι → κ} {p : ι → Prop} {r : κ → κ → Prop}

/-- Go through a list of indices and keep the last one taken, with its key; whether an
index is taken depends on the key kept so far. -/
def scan (takes : ι → κ → Bool) (key : ι → κ) : κ × Option ι → List ι → κ × Option ι
  | best, [] => best
  | best, x :: xs => scan takes key (if takes x best.1 then (key x, some x) else best) xs

theorem scan_key (htake : ∀ x b, takes x b = true → p x) {best : κ × Option ι}
    (hbest : ∀ y ∈ best.2, p y ∧ key y = best.1) (xs : List ι) :
    ∀ y ∈ (scan takes key best xs).2, p y ∧ key y = (scan takes key best xs).1 := by
  induction xs generalizing best with
  | nil => exact hbest
  | cons x xs ih =>
    rw [scan]
    split
    next htx =>
      apply ih
      intro y hy
      obtain rfl := Option.mem_some.mp hy
      exact ⟨htake x best.1 htx, rfl⟩
    · exact ih hbest

/-- When an index is taken only for a key that is at least as good as the one kept, and
left only if the one kept is, the scan ends with a best key. -/
theorem scan_best [Std.Refl r] [IsTrans κ r] (htake : ∀ x b, takes x b = true → r (key x) b)
    (hleave : ∀ x b, takes x b = false → p x → r b (key x)) (best : κ × Option ι)
    (xs : List ι) : r (scan takes key best xs).1 best.1 ∧
      ∀ x ∈ xs, p x → r (scan takes key best xs).1 (key x) := by
  induction xs generalizing best with
  | nil => exact ⟨refl _, by simp⟩
  | cons x xs ih =>
    have hhead : r (if takes x best.1 then (key x, some x) else best).1 best.1 ∧
        (p x → r (if takes x best.1 then (key x, some x) else best).1 (key x)) := by
      cases htx : takes x best.1 with
      | true => exact ⟨htake x best.1 htx, fun _ => refl _⟩
      | false => exact ⟨refl _, hleave x best.1 htx⟩
    obtain ⟨hle, hmem⟩ := ih (if takes x best.1 then (key x, some x) else best)
    refine ⟨Trans.trans hle hhead.1, ?_⟩
    intro z hz hpz
    rcases List.mem_cons.mp hz with rfl | hz
    · exact Trans.trans hle (hhead.2 hpz)
    · exact hmem z hz hpz

theorem scan_isSome {best : κ × Option ι} (hbest : best.2.isSome) (xs : List ι) :
    (scan takes key best xs).2.isSome := by
  induction xs generalizing best with
  | nil => exact hbest
  | cons x xs ih =>
    apply ih
    split
    · rfl
    · exact hbest

theorem scan_eq_none {best : κ × Option ι} {xs : List ι} (h : (scan takes key best xs).2 = none) :
    ∀ x ∈ xs, takes x best.1 = false := by
  induction xs generalizing best with
  | nil => simp
  | cons x xs ih =>
    rw [scan] at h
    cases htx : takes x best.1 with
    | true =>
      rw [htx, if_pos rfl] at h
      have hsome : (scan takes key (key x, some x) xs).2.isSome := scan_isSome rfl xs
      rw [h] at hsome
      cases hsome
    | false =>
      rw [htx, if_neg (by simp)] at h
      intro z hz
      rcases List.mem_cons.mp hz with rfl | hz
      · exact htx
      · exact ih h z hz

end Scan

@[ext]
structure Extent where
  base : Nat
  size : Nat
  deriving DecidableEq

def Extent.limit (e : Extent) : Nat := e.base + e.size

variable {ι : Type*} {lo hi a b : Nat} {t : ι → Option Extent} {e f : Extent} {i j k : ι}

/-- No extent is empty, all lie in the region, and no two overlap. -/
structure Apart (lo hi : Nat) (t : ι → Option Extent) : Prop where
  pos : ∀ i e, t i = some e → 0 < e.size
  lower : ∀ i e, t i = some e → lo ≤ e.base
  upper : ∀ i e, t i = some e → e.limit ≤ hi
  disjoint : ∀ i j e f, t i = some e → t j = some f → i ≠ j → e.limit ≤ f.base ∨ f.limit ≤ e.base

def Clear (t : ι → Option Extent) (k : ι) (a b : Nat) : Prop :=
  ∀ i e, t i = some e → i ≠ k → e.limit ≤ a ∨ b ≤ e.base

section

variable (h : Apart lo hi t)
include h

theorem Apart.lt_limit (hi : t i = some e) : e.base < e.limit := by
  have hpos := h.pos i e hi
  rw [Extent.limit]
  omega

theorem Apart.eq_of_base_eq (hi : t i = some e) (hj : t j = some f)
    (hbase : e.base = f.base) : i = j := by
  by_contra hne
  have hlt := h.lt_limit hi
  have hlt' := h.lt_limit hj
  rcases h.disjoint i j e f hi hj hne with hle | hle
  all_goals omega

theorem Apart.limit_le (hi : t i = some e) (hj : t j = some f)
    (hbase : e.base < f.base) : e.limit ≤ f.base := by
  have hne : i ≠ j := by
    rintro rfl
    rw [hi] at hj
    cases hj
    omega
  have hlt := h.lt_limit hj
  rcases h.disjoint i j e f hi hj hne with hle | hle
  · exact hle
  · omega

theorem Apart.mono {t' : ι → Option Extent}
    (hsub : ∀ i f, t' i = some f → t i = some f) : Apart lo hi t' :=
  ⟨fun i f hf => h.pos i f (hsub i f hf), fun i f hf => h.lower i f (hsub i f hf),
    fun i f hf => h.upper i f (hsub i f hf), fun i j f g hf hg hne =>
      h.disjoint i j f g (hsub i f hf) (hsub j g hg) hne⟩

theorem Apart.clear_above (hi : t i = some e)
    (hnext : ∀ j f, t j = some f → e.base < f.base → b ≤ f.base) :
    ∀ j f, t j = some f → f.limit ≤ e.limit ∨ b ≤ f.base := by
  intro j f hj
  rcases Nat.lt_trichotomy f.base e.base with hlt | heq | hgt
  · have hle := h.limit_le hj hi hlt
    have hpos := h.lt_limit hi
    omega
  · obtain rfl := h.eq_of_base_eq hj hi heq
    rw [hi] at hj
    cases hj
    exact .inl (Nat.le_refl _)
  · exact .inr (hnext j f hj hgt)

theorem Apart.clear_grow (hk : t k = some e)
    (hnext : ∀ j f, t j = some f → e.base < f.base → b ≤ f.base) : Clear t k e.base b := by
  intro j f hj hne
  rcases Nat.lt_trichotomy f.base e.base with hlt | heq | hgt
  · exact .inl (h.limit_le hj hk hlt)
  · exact absurd (h.eq_of_base_eq hj hk heq) hne
  · exact .inr (hnext j f hj hgt)

theorem Apart.clear_slide {top : Nat} (hk : t k = some e)
    (hlast : ∀ j f, t j = some f → f.base < top → f.base ≤ e.base) : Clear t k e.base top := by
  intro j f hj hne
  rcases Nat.lt_or_ge f.base top with hlt | hge
  · left
    rcases Nat.lt_or_eq_of_le (hlast j f hj hlt) with hbase | hbase
    · exact h.limit_le hj hk hbase
    · exact absurd (h.eq_of_base_eq hj hk hbase) hne
  · exact .inr hge

end

variable [DecidableEq ι]

theorem Apart.set (h : Apart lo hi t) (hpos : 0 < e.size) (hlo : lo ≤ e.base)
    (hhi : e.limit ≤ hi) (hclear : Clear t k e.base e.limit) :
    Apart lo hi (update t k (some e)) := by
  have hcases : ∀ i f, update t k (some e) i = some f →
      (i = k ∧ f = e) ∨ (i ≠ k ∧ t i = some f) := by
    intro i f hf
    rcases eq_or_ne i k with rfl | hne
    · rw [update_self] at hf
      exact .inl ⟨rfl, (Option.some.inj hf).symm⟩
    · rw [update_of_ne hne] at hf
      exact .inr ⟨hne, hf⟩
  constructor
  · intro i f hf
    rcases hcases i f hf with ⟨-, rfl⟩ | ⟨-, hold⟩
    · exact hpos
    · exact h.pos i f hold
  · intro i f hf
    rcases hcases i f hf with ⟨-, rfl⟩ | ⟨-, hold⟩
    · exact hlo
    · exact h.lower i f hold
  · intro i f hf
    rcases hcases i f hf with ⟨-, rfl⟩ | ⟨-, hold⟩
    · exact hhi
    · exact h.upper i f hold
  · intro i j f g hf hg hne
    rcases hcases i f hf with ⟨hik, hfe⟩ | ⟨hik, hold⟩
    · rcases hcases j g hg with ⟨hjk, -⟩ | ⟨hjk, hold⟩
      · exact absurd (hik.trans hjk.symm) hne
      · rw [hfe]
        exact (hclear j g hold hjk).symm
    · rcases hcases j g hg with ⟨-, hge⟩ | ⟨-, hold'⟩
      · rw [hge]
        exact hclear i f hold hik
      · exact h.disjoint i j f g hold hold' hne

end BgqDriver.ExtentTables
