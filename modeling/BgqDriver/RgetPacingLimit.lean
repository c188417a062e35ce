import BgqDriver.RgetPacingHistory

/-!
The limit on the paced sub-messages of the remote get pacing agent, over runs in which
`calculateSubRegionParameters` moves it.
-/

namespace BgqDriver.RgetPacing

open EventRuns List

/-- A recalculation that lowers the limit leaves it at the number of active paced
sub-messages or above. -/
def LimitEvent.Ample : LimitEvent → Prop
  | .injected _ _ => True
  | .recalculated active old new => new < old → active ≤ new

/-- A paced sub-message is injected while fewer than the limit are active. -/
def LimitEvent.BelowLimit : LimitEvent → Prop
  | .injected active limit => active < limit
  | .recalculated _ _ _ => True

/-- As long as the recalculations are ample, no more paced sub-messages are active than the
limit in force allows. -/
def Data.Limited (d : Data) : Prop :=
  (∀ e ∈ d.limits, e.Ample) →
    d.numActivePacedCounters ≤ d.pacing.numSubMessageCounters ∧ ∀ e ∈ d.limits, e.BelowLimit

variable {cfg : Config} {Q Q' : List Queue} {d d' : Data} {w : Nat} {a : Option Request}

theorem Data.Limited.congr (h : d.Limited)
    (hactive : d'.numActivePacedCounters ≤ d.numActivePacedCounters)
    (hpacing : d'.pacing = d.pacing)
    (hlimits : d'.limits = d.limits) : d'.Limited := by
  unfold Data.Limited at *
  rw [hpacing, hlimits]
  exact fun hample => ⟨hactive.trans (h hample).1, (h hample).2⟩

theorem Data.Limited.setPacing (h : d.Limited) (p : Pacing) : (d.setPacing p).Limited := by
  intro hample
  obtain ⟨hearlier, hlast⟩ := forall_mem_append.mp hample
  obtain ⟨hwithin, hbelow⟩ := h hearlier
  have hlowered := forall_mem_singleton.mp hlast
  refine ⟨?_, forall_mem_append.mpr ⟨hbelow, forall_mem_singleton.mpr trivial⟩⟩
  dsimp only [LimitEvent.Ample, Data.setPacing] at hlowered ⊢
  omega

/-- The guard of an injection tests for equality with the limit, which is enough within it. -/
theorem Data.Limited.inject (h : d.Limited) (heligible : d.eligible w = true) (c : Nat) :
    (d.inject cfg w c).Limited := by
  unfold Data.Limited
  dsimp only [Data.inject]
  split
  next hpaced =>
    intro hample
    obtain ⟨hwithin, hbelow⟩ := h (forall_mem_append.mp hample).1
    have hne : d.numActivePacedCounters ≠ d.pacing.numSubMessageCounters :=
      fun heq => (eligible_iff.mp heligible).2.2.2 ⟨hpaced, heq⟩
    have hlt := lt_of_le_of_ne hwithin hne
    exact ⟨hlt, forall_mem_append.mpr ⟨hbelow, forall_mem_singleton.mpr hlt⟩⟩
  · exact h

theorem Data.Limited.setup (h : d.Limited) (w : Nat) (r : Request) (active : Bool) :
    (d.setup cfg w r active).Limited := by
  have hfill : (d.fill cfg w r).Limited := by
    unfold Data.fill
    split
    · dsimp only
      split
      · exact (h.setPacing _).congr le_rfl rfl rfl
      · exact h.congr le_rfl rfl rfl
    · exact h.congr le_rfl rfl rfl
  unfold Data.setup
  cases active with
  | false => exact hfill
  | true =>
    simp only [if_true, activate_eq]
    exact hfill.congr le_rfl rfl rfl

theorem Data.Limited.releaseCounter (h : d.Limited) (w c : Nat) :
    (d.releaseCounter w c).Limited := by
  rw [releaseCounter_eq]
  refine h.congr ?_ rfl rfl
  dsimp only
  split <;> omega

theorem Transition.limited (ht : Transition cfg a Q d Q' d') (h : d.Limited) : d'.Limited := by
  cases ht with
  | start | follow => exact h.setup _ _ _
  | receive => exact h.congr le_rfl rfl rfl
  | @advance _ _ w c => exact (h.releaseCounter w c).congr le_rfl rfl rfl
  | @retire _ _ _ w c =>
    have hreleased := h.releaseCounter w c
    simp only [Data.retire, promote_eq]
    split
    · exact (hreleased.setPacing _).congr le_rfl rfl rfl
    · exact hreleased.congr le_rfl rfl rfl
  | inject hw heligible => exact h.inject heligible _
  | send =>
    rw [sendOff_eq]
    exact h.congr le_rfl rfl rfl

/-- In a run whose recalculations do not lower the limit below the number of active paced
sub-messages, that number does not exceed the limit in force and every paced sub-message was
injected while it was below. -/
theorem paced_below_limit (cfg : Config) (labels : List Label) (s : State)
    (hrun : run (step cfg) (init cfg) labels = some s) (hample : ∀ e ∈ s.data.limits, e.Ample) :
    s.data.numActivePacedCounters ≤ s.data.pacing.numSubMessageCounters ∧
      ∀ e ∈ s.data.limits, e.BelowLimit := by
  have hinit : (init cfg).data.Limited := fun _ => ⟨Int.natCast_nonneg _, nofun⟩
  obtain ⟨Q, free, ensure, -, -, hlimited⟩ := run_keeps (P := fun _ d => d.Limited) hinit
    (fun _ _ _ _ _ ht _ h => ht.limited h) hrun
  exact hlimited hample

instance decidableAmple : DecidablePred LimitEvent.Ample
  | .injected _ _ => isTrue trivial
  | .recalculated active old new => inferInstanceAs (Decidable (new < old → active ≤ new))

instance decidableBelowLimit : DecidablePred LimitEvent.BelowLimit
  | .injected active limit => inferInstanceAs (Decidable (active < limit))
  | .recalculated _ _ _ => isTrue trivial

/-- With sub-messages of twice the size from two regions on -/
def shrinkingConfig : Config :=
  { sampleConfig with
    doSubRegionCalculations := true
    subRemoteGetSize := ⟨24, 10, 80, 2, 5, by decide, by decide, by decide, by decide, by decide⟩ }

/-- Two regions are requested before the first injection, which lowers the limit from two to
one; when the first message has been received the limit is two again, and two are injected. -/
theorem paced_below_limit_lowered : ∃ s, run (step shrinkingConfig) (init shrinkingConfig)
      ([.request (sampleRequest 0 0 40), .request (sampleRequest 0x1000000 0 40)] ++
        replicate 7 (.work true true) ++ [.receive 0 40] ++ replicate 3 (.work true true)) =
      some s ∧ s.data.limits.length = 6 ∧ ∀ e ∈ s.data.limits, e.BelowLimit := by
  refine exists_of_map_run (fun s => (s.data.limits.length,
    decide (∀ e ∈ s.data.limits, e.Ample))) (6, true) (by decide +kernel) fun s hrun hs => ?_
  obtain ⟨hlength, hample⟩ := Prod.mk.inj hs
  exact ⟨hlength, (paced_below_limit _ _ s hrun (of_decide_eq_true hample)).2⟩

/-- Two sub-messages are active when a request for a second region lowers the limit to one,
and a third sub-message is injected. -/
theorem not_forall_belowLimit : ¬ ∀ cfg labels s, run (step cfg) (init cfg) labels = some s →
    ∀ e ∈ s.data.limits, e.BelowLimit := by
  intro h
  have hmap : (run (step shrinkingConfig) (init shrinkingConfig)
      ([.request (sampleRequest 0 0 200)] ++ replicate 6 (.work true true) ++
        [.request (sampleRequest 0x1000000 0 200)] ++ replicate 4 (.work true true))).map
      (fun s => decide (∀ e ∈ s.data.limits, e.BelowLimit)) = some false := by decide +kernel
  obtain ⟨s, hrun, hs⟩ := Option.map_eq_some_iff.mp hmap
  exact of_decide_eq_false hs (h _ _ s hrun)

end BgqDriver.RgetPacing
