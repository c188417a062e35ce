import BgqDriver.Timers
import Mathlib.Algebra.GroupWithZero.Nat

/-!
How long a sleep lasts: the decrementer interrupts that end it, and the remainder that
`Timer_Interrupt` reports when a signal ends it.
-/

namespace BgqDriver.Timers

open HwThread Option Nat

/-- Decrementer interrupts, each one some time after the one before -/
def HwThread.interrupts (h : HwThread) (ds : List Nat) : HwThread :=
  ds.foldl (fun h d => { h with now := h.now + d }.intHandlerUDEC) h

/-- When the sleep of the thread ends -/
def Thread.sleepUntil (t : Thread) : Option Nat :=
  if t.sleeping then some t.sleepTimeout else none

def HwThread.sleepUntil (h : HwThread) (slot : Nat) : Option Nat :=
  h.threads[slot]?.bind Thread.sleepUntil

/-- The seconds and nanoseconds that `Timer_Interrupt` reports; the cycles are signed. -/
def sleepRemainder (freqMHz now sleepTimeout : Nat) : Nat × Nat :=
  let micros := (((sleepTimeout : Int) - now).bmod wordRange).toNat / freqMHz
  (micros / 1000000, micros % 1000000 * 1000)

/-- The end of a sleep that starts now -/
def HwThread.expiration (h : HwThread) (s ns : Nat) : Nat :=
  (h.now + cycles h.freqMHz s ns) % wordRange

/-- Thousandths of cycles in a time -/
def HwThread.requested (h : HwThread) (s ns : Nat) : Nat := (s * 1000000000 + ns) * h.freqMHz

/-- The cycles of a sleep if the computation had room for them -/
def HwThread.unbounded (h : HwThread) (s ns : Nat) : Nat :=
  (s * 1000000 + ns / 1000) * h.freqMHz

variable {h h' : HwThread} {slot s ns T : Nat} {ds : List Nat}

theorem intHandlerUDEC_fields : h.intHandlerUDEC.threads = (checkThreads h.now h.threads 0).1 ∧
    h.intHandlerUDEC.now = h.now ∧ h.intHandlerUDEC.freqMHz = h.freqMHz := by
  unfold intHandlerUDEC
  dsimp only
  split <;> split <;> exact ⟨rfl, rfl, rfl⟩

theorem checkThreads_sleepUntil (now : Nat) (threads : List Thread) (slot x : Nat) :
    (checkThreads now threads x).1[slot]?.bind Thread.sleepUntil = some T ↔
      threads[slot]?.bind Thread.sleepUntil = some T ∧ (T = 0 ∨ now < T) := by
  induction threads generalizing slot x with
  | nil => simp [checkThreads]
  | cons t threads ih =>
    cases slot with
    | zero =>
      change Thread.sleepUntil (checkFutex now (checkSleep now t x).1 _).1 = some T ↔
        t.sleepUntil = some T ∧ _
      grind [Thread.sleepUntil, checkFutex, checkSleep, Thread.awaken, Thread.futexInterrupt]
    | succ slot => exact ih slot _

theorem interrupts_append (d : Nat) : h.interrupts (ds ++ [d]) =
    { h.interrupts ds with now := (h.interrupts ds).now + d }.intHandlerUDEC := by
  simp [interrupts]

theorem interrupts_spec (slot T : Nat) (ds : List Nat) :
    (h.interrupts ds).now = h.now + ds.sum ∧ (h.interrupts ds).freqMHz = h.freqMHz ∧
      ((h.interrupts ds).sleepUntil slot = some T → h.sleepUntil slot = some T) := by
  induction ds using List.reverseRecOn with
  | nil => exact ⟨rfl, rfl, id⟩
  | append_singleton ds d ih =>
    obtain ⟨hnow, hfreq, hsleep⟩ := ih
    rw [interrupts_append, sleepUntil, intHandlerUDEC_fields.1, intHandlerUDEC_fields.2.1,
      intHandlerUDEC_fields.2.2, checkThreads_sleepUntil]
    exact ⟨by simp [hnow, Nat.add_assoc], hfreq, fun h => hsleep h.1⟩

theorem woken_iff (hsleep : (h.interrupts ds).sleepUntil slot = some T) (d : Nat) :
    (h.interrupts (ds ++ [d])).sleepUntil slot = none ↔
      T ≠ 0 ∧ T ≤ h.now + (ds.sum + d) := by
  rw [sleepUntil] at hsleep
  rw [interrupts_append, sleepUntil, intHandlerUDEC_fields.1, (interrupts_spec slot T ds).1]
  simp only [eq_none_iff_forall_ne_some, ne_eq, checkThreads_sleepUntil, hsleep, some.injEq,
    not_and, forall_eq', not_or, Nat.not_lt, Nat.add_assoc]

theorem nanoSleep_spec (hns : ns < 1000000000) (hrunnable : h.runnable slot = true) :
    (h.nanoSleep slot s ns).now = h.now ∧ (h.nanoSleep slot s ns).freqMHz = h.freqMHz ∧
      ∀ T, (h.nanoSleep slot s ns).sleepUntil slot = some T ↔
        T = h.expiration s ns ∧ h.now < T := by
  obtain ⟨t, ht, hawake⟩ : ∃ t, h.threads[slot]? = some t ∧ t.sleeping = false := by
    rw [runnable, any_eq_true] at hrunnable
    obtain ⟨t, ht, hrunnable⟩ := hrunnable
    simp only [Bool.and_eq_true, Bool.not_eq_true'] at hrunnable
    exact ⟨t, ht, hrunnable.1⟩
  have hvalid : ¬ ((ns : Int) < 0 ∨ 1000000000 ≤ (ns : Int)) := by omega
  generalize hcall : h.nanoSleep slot s ns = h'
  rw [nanoSleep, if_neg hvalid] at hcall
  rw [expiration]
  generalize (h.now + cycles h.freqMHz s ns) % wordRange = e at hcall
  dsimp only at hcall
  split at hcall
  next hle =>
    have hnone : h.sleepUntil slot = none := by simp [sleepUntil, ht, Thread.sleepUntil, hawake]
    subst hcall
    refine ⟨rfl, rfl, fun T => ?_⟩
    rw [hnone]
    refine ⟨nofun, ?_⟩
    rintro ⟨rfl, hlt⟩
    exact absurd hle (Nat.not_le.mpr hlt)
  next hlt =>
    have hfields : h'.now = h.now ∧ h'.freqMHz = h.freqMHz ∧ h'.threads =
        h.threads.modify slot fun t => { t with sleepTimeout := e, sleeping := true } := by
      split at hcall <;> subst hcall <;> exact ⟨rfl, rfl, rfl⟩
    have hsleep : h'.sleepUntil slot = some e := by
      simp [sleepUntil, hfields.2.2, ht, Thread.sleepUntil]
    refine ⟨hfields.1, hfields.2.1, fun T => ?_⟩
    rw [hsleep, some.injEq]
    refine ⟨?_, fun hT => hT.1.symm⟩
    rintro rfl
    exact ⟨rfl, Nat.not_le.mp hlt⟩

theorem expiration_eq (hs : s < 2 ^ 63) (hns : ns < 1000000000) (hlt : h.now < h.expiration s ns) :
    h.expiration s ns = h.now + h.unbounded s ns % wordRange := by
  have hs' : ((s : Int) % wordRange).toNat = s := by
    unfold wordRange
    omega
  have hns' : ((ns : Int) % wordRange).toNat = ns := by
    unfold wordRange
    omega
  unfold expiration cycles at hlt ⊢
  rw [hs', hns'] at hlt ⊢
  unfold unbounded wordRange at *
  omega

theorem requested_eq (h : HwThread) (s ns : Nat) :
    h.requested s ns = 1000 * h.unbounded s ns + ns % 1000 * h.freqMHz := by
  rw [requested, unbounded, ← Nat.mul_assoc, ← Nat.add_mul]
  congr 1
  omega

theorem toNat_bmod_sub {n : Nat} (hT : T < wordRange) (hn : n < wordRange) :
    (((T : Int) - n).bmod wordRange).toNat ≤ T - n ∧ n ≤ T + 2 ^ 63 ∨
      (((T : Int) - n).bmod wordRange).toNat = T + wordRange - n ∧ T + 2 ^ 63 < n := by
  unfold wordRange Int.bmod at *
  dsimp only
  split <;> omega

theorem remainder_le_iff {f n e M rest : Nat} (hfreq : 0 < f) (hn : n < wordRange)
    (hT : T < wordRange) (hrest : rest < 1000 * f) (heq : T + e = n + M % wordRange) :
    ((sleepRemainder f n T).1 * 1000000000 + (sleepRemainder f n T).2) * f ≤
        1000 * M + rest - 1000 * e ↔
      n ≤ T + 2 ^ 63 ∨ wordRange ≤ M ∨ T + wordRange < n + f := by
  have hthousand : ∀ m, m / 1000000 * 1000000000 + m % 1000000 * 1000 = 1000 * m := by
    intro m
    omega
  have hcycles := toNat_bmod_sub hT hn
  rw [sleepRemainder, hthousand, Nat.mul_assoc]
  generalize (((T : Int) - n).bmod wordRange).toNat = c at hcycles ⊢
  have hreported := div_mul_le_self c f
  have hmod := mod_le M wordRange
  rcases hcycles with ⟨hc, hnear⟩ | ⟨hc, hfar⟩
  · refine iff_of_true ?_ (.inl hnear)
    omega
  · rw [or_iff_right (Nat.not_le.mpr hfar)]
    rcases Nat.lt_or_ge M wordRange with hfits | hcut
    · rw [or_iff_right (Nat.not_le.mpr hfits)]
      rw [mod_eq_of_lt hfits] at heq
      rcases Nat.lt_or_ge c f with hless | hmore
      · rw [div_eq_of_lt hless]
        omega
      · have hone := Nat.le_mul_of_pos_left f (Nat.div_pos hmore hfreq)
        have hhalf : wordRange = 2 ^ 63 + 2 ^ 63 := by decide
        omega
    · refine iff_of_true ?_ (.inl hcut)
      have hcut' := mod_eq_sub_mod hcut
      have := mod_le (M - wordRange) wordRange
      omega

/-- No interrupt ends the sleep before the requested time. -/
def SleepsInFull (h : HwThread) (slot s ns : Nat) : Prop :=
  ∀ ds d, ((h.nanoSleep slot s ns).interrupts ds).sleepUntil slot ≠ none →
    ((h.nanoSleep slot s ns).interrupts (ds ++ [d])).sleepUntil slot = none →
      h.requested s ns ≤ 1000 * (ds.sum + d)

/-- What a signal after `ds` and `d` more cycles reports is not more than what is left. -/
def RemainderOwed (h : HwThread) (slot s ns : Nat) (ds : List Nat) (d timeout : Nat) : Prop :=
  let h1 := (h.nanoSleep slot s ns).interrupts ds
  let rem := sleepRemainder h1.freqMHz (h1.now + d) timeout
  (rem.1 * 1000000000 + rem.2) * h.freqMHz ≤ h.requested s ns - 1000 * (ds.sum + d)

/-- The two parts fail for a request that is not in whole microseconds or does not fit in
64 bits, and for a signal that comes 2 ^ 63 cycles late. -/
theorem sleep_lasts_iff (hs : s < 2 ^ 63) (hns : ns < 1000000000) (hfreq : 0 < h.freqMHz)
    (hrunnable : h.runnable slot = true) :
    (SleepsInFull h slot s ns ↔
      h.expiration s ns ≤ h.now ∨ ns % 1000 = 0 ∧ h.unbounded s ns < wordRange) ∧
    ∀ ds d timeout, h.now + (ds.sum + d) < wordRange →
      ((h.nanoSleep slot s ns).interrupts ds).sleepUntil slot = some timeout →
        (RemainderOwed h slot s ns ds d timeout ↔
          h.now + (ds.sum + d) ≤ timeout + 2 ^ 63 ∨ wordRange ≤ h.unbounded s ns ∨
            timeout + wordRange < h.now + (ds.sum + d) + h.freqMHz) := by
  obtain ⟨hnow, hsame, hsleep⟩ := nanoSleep_spec hns hrunnable
  have hrequested := requested_eq h s ns
  refine ⟨⟨fun hfull => ?_, ?_⟩, ?_⟩
  · refine (Nat.lt_or_ge _ _).symm.imp_right fun hlt => ?_
    have heq := expiration_eq hs hns hlt
    have hsleeps : ((h.nanoSleep slot s ns).interrupts []).sleepUntil slot = some _ :=
      (hsleep _).mpr ⟨rfl, hlt⟩
    have hle := hfull [] (h.unbounded s ns % wordRange) (hsleeps ▸ some_ne_none _) (by
      rw [woken_iff hsleeps, hnow, List.sum_nil]
      omega)
    rw [hrequested, List.sum_nil, Nat.zero_add] at hle
    have hmod := mod_le (h.unbounded s ns) wordRange
    have hlt := mod_lt (h.unbounded s ns) (show 0 < wordRange by decide)
    have hzero : ns % 1000 * h.freqMHz = 0 := by omega
    exact ⟨(Nat.mul_eq_zero.mp hzero).resolve_right (Nat.ne_of_gt hfreq), by omega⟩
  · rintro (hle | ⟨hwhole, hfits⟩) ds d hsleeps hwoken
    all_goals
      obtain ⟨T, hT⟩ := ne_none_iff_exists'.mp hsleeps
      obtain ⟨rfl, hlt⟩ := (hsleep T).mp ((interrupts_spec slot T ds).2.2 hT)
    · exact absurd hle (Nat.not_le.mpr hlt)
    · have hover := ((woken_iff hT d).mp hwoken).2
      rw [hnow, expiration_eq hs hns hlt, mod_eq_of_lt hfits] at hover
      rw [hrequested, hwhole]
      omega
  · intro ds d T hn hT
    obtain ⟨hnow1, hfreq1, hkept⟩ := interrupts_spec slot T ds
    obtain ⟨rfl, hlt⟩ := (hsleep T).mp (hkept hT)
    have heq := expiration_eq hs hns hlt
    simp only [RemainderOwed]
    rw [hnow1, hfreq1, hnow, hsame, hrequested, Nat.add_assoc]
    refine remainder_le_iff hfreq hn (mod_lt _ (by decide)) ?_ (by omega)
    exact Nat.mul_lt_mul_of_pos_right (mod_lt _ (by decide)) hfreq

theorem sleep_five_microseconds :
    SleepsInFull (init 1000 1600 [([], [])] false) 0 0 5000 ∧
      RemainderOwed (init 1000 1600 [([], [])] false) 0 0 5000 [2000] 100 9000 := by
  have h := @sleep_lasts_iff (init 1000 1600 [([], [])] false) 0 0 5000 (by decide) (by decide)
    (by decide) (by decide)
  exact ⟨h.1.mpr (.inr (by decide)),
    (h.2 [2000] 100 9000 (by decide) (by decide)).mpr (.inl (by decide))⟩

/-- 1999 ns are 3198.4 cycles, and the thread is woken after the 1600 cycles of one
microsecond. -/
theorem not_forall_sleepsInFull : ¬ ∀ h slot s ns, s < 2 ^ 63 → ns < 1000000000 →
    0 < h.freqMHz → h.runnable slot = true → SleepsInFull h slot s ns := by
  intro hall
  have hle := hall (init 1000 1600 [([], [])] false) 0 0 1999 (by decide) (by decide) (by decide)
    (by decide) [] 1600 (by decide) (by decide)
  exact absurd hle (by decide)

end BgqDriver.Timers
