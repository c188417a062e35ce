import Mathlib.Data.List.Induction

/-!
Finite runs of a labelled partial step function. A label that is not enabled in
a state blocks the run, so every statement about runs is about the label
sequences the system can really perform.
-/

namespace BgqDriver.EventRuns

open Option List

variable {σ ε : Type*}

/-- Perform the labels from left to right; `none` as soon as one is not enabled. -/
def run (step : σ → ε → Option σ) : σ → List ε → Option σ
  | s, [] => some s
  | s, e :: es => (step s e).bind fun t => run step t es

section

variable (step : σ → ε → Option σ) (s : σ)

@[simp]
theorem run_nil : run step s [] = some s := rfl

theorem run_cons (e : ε) (es : List ε) :
    run step s (e :: es) = (step s e).bind fun t => run step t es := rfl

theorem run_append (es fs : List ε) :
    run step s (es ++ fs) = (run step s es).bind fun t => run step t fs := by
  induction es generalizing s with
  | nil => rfl
  | cons e es ih =>
    simp only [cons_append, run_cons]
    cases step s e with
    | none => rfl
    | some t => exact ih t

theorem run_concat (es : List ε) (e : ε) :
    run step s (es ++ [e]) = (run step s es).bind fun t => step t e := by
  rw [run_append]
  congr 1
  funext t
  cases h : step t e <;> simp [run_cons, h]

end

variable {es : List ε} {s : σ} {step : σ → ε → Option σ} {C : σ → ε → Prop} {P : σ → Prop}

/-- A property of history and state that holds at the start and is kept by
every enabled step holds after every run. The histories in the step hypothesis
are themselves runs, so reachability is available there. -/
theorem run_invariant {s0 : σ} (P : List ε → σ → Prop) (hinit : P [] s0)
    (hstep : ∀ es s e t, run step s0 es = some s → P es s →
      step s e = some t → P (es ++ [e]) t) (hrun : run step s0 es = some s) : P es s := by
  induction es using reverseRecOn generalizing s with
  | nil =>
    obtain rfl : s0 = s := by simpa using hrun
    exact hinit
  | append_singleton es e ih =>
    rw [run_concat] at hrun
    obtain ⟨t, ht, hte⟩ := bind_eq_some_iff.mp hrun
    exact hstep es t e s ht (ih ht) hte

def RunMeets (step : σ → ε → Option σ) (C : σ → ε → Prop) : σ → List ε → Prop
  | _, [] => True
  | s, e :: es => C s e ∧ ∀ t, step s e = some t → RunMeets step C t es

instance decidableRunMeets {step : σ → ε → Option σ} {C : σ → ε → Prop}
    [∀ s e, Decidable (C s e)] : ∀ s es, Decidable (RunMeets step C s es)
  | _, [] => isTrue trivial
  | s, e :: es =>
    match h : step s e with
    | none => decidable_of_iff (C s e) (by simp [RunMeets, h])
    | some t =>
      have : Decidable (RunMeets step C t es) := decidableRunMeets t es
      decidable_of_iff (C s e ∧ RunMeets step C t es) (by simp [RunMeets, h])

theorem runMeets_of_forall (h : ∀ e ∈ es, ∀ s, C s e) (s : σ) : RunMeets step C s es := by
  induction es generalizing s with
  | nil => trivial
  | cons e es ih =>
    exact ⟨h e (by simp) s, fun t _ => ih (fun e he => h e (by simp [he])) t⟩

theorem runMeets_concat {e : ε} (h : RunMeets step C s es)
    (hlast : ∀ t, run step s es = some t → C t e) : RunMeets step C s (es ++ [e]) := by
  induction es generalizing s with
  | nil => exact ⟨hlast s rfl, fun _ _ => trivial⟩
  | cons f es ih =>
    refine ⟨h.1, fun t ht => ih (h.2 t ht) ?_⟩
    intro u hu
    exact hlast u (by rw [run_cons, ht, bind_some, hu])

theorem runMeets_and {D : σ → ε → Prop} (hC : RunMeets step C s es) (hD : RunMeets step D s es) :
    RunMeets step (fun s e => C s e ∧ D s e) s es := by
  induction es generalizing s with
  | nil => trivial
  | cons e es ih => exact ⟨⟨hC.1, hD.1⟩, fun t ht => ih (hC.2 t ht) (hD.2 t ht)⟩

/-- When the steps that meet a condition keep an invariant, it holds after every run of
such steps. -/
theorem invariant_of_runMeets (hstep : ∀ s e t, P s → C s e → step s e = some t → P t) {t : σ}
    (hs : P s) (hmeets : RunMeets step C s es) (hrun : run step s es = some t) : P t := by
  induction es generalizing s with
  | nil =>
    cases hrun
    exact hs
  | cons e es ih =>
    obtain ⟨u, hu, hrest⟩ := bind_eq_some_iff.mp hrun
    exact ih (hstep s e u hs hmeets.1 hu) (hmeets.2 u hu) hrest

/-- When the steps that meet a condition are enabled and keep an invariant, a run
of such steps can be performed to its end, and the invariant holds there. -/
theorem exists_run_of_runMeets (hstep : ∀ s e, P s → C s e → ∃ t, step s e = some t ∧ P t)
    (hs : P s) (hmeets : RunMeets step C s es) : ∃ t, run step s es = some t ∧ P t := by
  induction es generalizing s with
  | nil => exact ⟨s, rfl, hs⟩
  | cons e es ih =>
    obtain ⟨t, hst, ht⟩ := hstep s e hs hmeets.1
    obtain ⟨u, hrun, hu⟩ := ih ht (hmeets.2 t hst)
    refine ⟨u, ?_, hu⟩
    rw [run_cons, hst, bind_some, hrun]

theorem exists_of_map_run {α : Type*} (f : σ → α) (a : α) (h : (run step s es).map f = some a)
    (hP : ∀ t, run step s es = some t → f t = a → P t) : ∃ t, run step s es = some t ∧ P t := by
  obtain ⟨t, hrun, ht⟩ := map_eq_some_iff.mp h
  exact ⟨t, hrun, hP t hrun ht⟩

end BgqDriver.EventRuns
