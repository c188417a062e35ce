import BgqDriver.Timers

/-!
The decrementer of a hardware thread fires no later than the first of the expirations its
threads and the message checker wait for.
-/

namespace BgqDriver.Timers

open EventRuns HwThread List Option Nat

def HwThread.expirations (h : HwThread) : List Nat :=
  (h.threads.flatMap fun t => [t.sleepTimeout, t.futexTimeout]) ++ [h.ipiMessageCheckerExpiration]

/-- The decrementer interrupts no later than any timeout. -/
def Armed (h : HwThread) : Prop :=
  ∀ e ∈ h.expirations, e ≠ 0 → ∃ time, h.udec = some time ∧ time ≤ e

def HwThread.endsSleep (h : HwThread) (slot sig : Nat) : Bool :=
  h.threads[slot]?.any fun t =>
    (t.addSignal sig).signalled && !t.ignoredSignals.contains sig && !t.waiting && t.sleeping

/-- A timed wait has its timeout ahead and no expiration before it is pending; when a signal ends
a sleep nothing else is pending; an interrupt does not come at the very expiration of the
message checker. -/
def Timely (h : HwThread) : Label → Prop
  | .futexWait _ sameValue entry timespec =>
    sameValue = true → entry = true → h.futexTimeout timespec ≠ 0 →
      h.now < h.futexTimeout timespec ∧ ∀ e ∈ h.expirations, e ≠ 0 →
        min (h.futexTimeout timespec) (h.now + maxInterval) ≤ e
  | .signalDeliver slot sig =>
    h.endsSleep slot sig = true → ∀ e ∈ (h.modifyThread slot Thread.awaken).expirations, e = 0
  | .udecInterrupt => h.ipiMessageCheckerExpiration ≠ 0 → h.ipiMessageCheckerExpiration ≠ h.now
  | _ => True

variable {h : HwThread} {f : Thread → Thread} {slot now x : Nat} {threads : List Thread}
  {P : Nat → Prop} {t : Thread} {expiration checker sig : Nat} {h' : HwThread}

theorem forall_expirations : (∀ e ∈ h.expirations, P e) ↔
      (∀ t ∈ h.threads, P t.sleepTimeout ∧ P t.futexTimeout) ∧ P h.ipiMessageCheckerExpiration := by
  simp only [expirations, mem_append, mem_flatMap, mem_singleton]
  constructor
  · intro hall
    refine ⟨fun t ht => ⟨?_, ?_⟩, hall _ (.inr rfl)⟩
    all_goals exact hall _ (.inl ⟨t, ht, by simp⟩)
  · rintro ⟨hthreads, hchecker⟩ e (⟨t, ht, he⟩ | rfl)
    · simp only [mem_cons, not_mem_nil, or_false] at he
      rcases he with rfl | rfl
      · exact (hthreads t ht).1
      · exact (hthreads t ht).2
    · exact hchecker

theorem mem_modify {l : List Thread} (h : t ∈ l.modify slot f) : t ∈ l ∨ ∃ t0 ∈ l, t = f t0 := by
  obtain ⟨i, hi⟩ := mem_iff_getElem?.mp h
  rw [getElem?_modify, Option.map_eq_map, map_eq_some_iff] at hi
  obtain ⟨t0, ht0, rfl⟩ := hi
  have hmem := mem_of_getElem? ht0
  split
  · exact .inr ⟨t0, hmem, rfl⟩
  · exact .inl hmem

theorem expirations_modifyThread (hall : ∀ e ∈ h.expirations, P e)
    (hf : ∀ t ∈ h.threads, P (f t).sleepTimeout ∧ P (f t).futexTimeout) :
    ∀ e ∈ (h.modifyThread slot f).expirations, P e := by
  rw [forall_expirations] at hall ⊢
  refine ⟨fun t ht => ?_, hall.2⟩
  rcases mem_modify ht with hold | ⟨t0, ht0, rfl⟩
  · exact hall.1 t hold
  · exact hf t0 ht0

theorem wordRange_pos : 0 < wordRange := by decide

theorem enableUDECRwakeup_eq (hlater : h.now < expiration) (hrange : expiration < wordRange) :
    h.enableUDECRwakeup expiration =
      { h with
        udecrExpiration := min expiration (h.now + maxInterval)
        udec := some (min expiration (h.now + maxInterval)) } := by
  have hrequested : (expiration + (wordRange - h.now)) % wordRange = expiration - h.now := by
    rw [show expiration + (wordRange - h.now) = expiration - h.now + wordRange by omega,
      add_mod_right, mod_eq_of_lt (by omega)]
  simp only [enableUDECRwakeup, hrequested]
  have hinterval : (if (expiration - h.now) / 2 ^ 32 ≠ 0 then maxInterval else expiration - h.now) =
      min (expiration - h.now) maxInterval := by
    unfold maxInterval
    split <;> omega
  have hsum : h.now + min (expiration - h.now) maxInterval =
      min expiration (h.now + maxInterval) := by omega
  have hpos : min (expiration - h.now) maxInterval ≠ 0 := by
    unfold maxInterval
    omega
  rw [hinterval, hsum, if_neg hpos, mod_eq_of_lt (by omega)]

structure Sound (h : HwThread) : Prop where
  freq : 0 < h.freqMHz
  time : h.now + checkerInterval * h.freqMHz < wordRange
  bounded : ∀ e ∈ h.expirations, e < wordRange
  /-- The recorded expiration is the one of the decrementer. -/
  recorded : h.udec = if h.udecrExpiration = 0 then none else some h.udecrExpiration
  armed : Armed h

theorem Sound.rearm (hs : Sound h)
    (hbounded : ∀ e ∈ { h with threads, ipiMessageCheckerExpiration := checker }.expirations,
      e < wordRange) (hlater : h.now < expiration) (hrange : expiration < wordRange)
    (hfirst : ∀ e ∈ { h with threads, ipiMessageCheckerExpiration := checker }.expirations,
      e ≠ 0 → min expiration (h.now + maxInterval) ≤ e) :
    Sound ({ h with threads, ipiMessageCheckerExpiration := checker }.enableUDECRwakeup
      expiration) := by
  rw [enableUDECRwakeup_eq (h := { h with threads, ipiMessageCheckerExpiration := checker })
    hlater hrange]
  refine ⟨hs.freq, hs.time, hbounded, ?_, fun e he hne => ⟨_, rfl, hfirst e he hne⟩⟩
  have hpos : min expiration (h.now + maxInterval) ≠ 0 := by
    unfold maxInterval
    omega
  rw [if_neg hpos]

theorem Sound.modifyThread (hs : Sound h)
    (hf : ∀ t, ((f t).sleepTimeout = t.sleepTimeout ∨ (f t).sleepTimeout = 0) ∧
      ((f t).futexTimeout = t.futexTimeout ∨ (f t).futexTimeout = 0)) :
    Sound (h.modifyThread slot f) := by
  have hkeeps : ∀ {P : Nat → Prop}, P 0 → (∀ e ∈ h.expirations, P e) →
      ∀ e ∈ (h.modifyThread slot f).expirations, P e := by
    intro P hzero hall
    refine expirations_modifyThread hall fun t ht => ?_
    have hold := (forall_expirations.mp hall).1 t ht
    constructor
    · rcases (hf t).1 with heq | heq
      · exact heq ▸ hold.1
      · exact heq ▸ hzero
    · rcases (hf t).2 with heq | heq
      · exact heq ▸ hold.2
      · exact heq ▸ hzero
  exact ⟨hs.freq, hs.time, hkeeps wordRange_pos hs.bounded, hs.recorded,
    hkeeps (fun h => absurd rfl h) hs.armed⟩

def Next (now x : Nat) : Prop := x = 0 ∨ (now < x ∧ x < wordRange)

/-- It is no later than a pending one. -/
def Covers (x e : Nat) : Prop := e ≠ 0 → x ≠ 0 ∧ x ≤ e

theorem consider_spec {c : Nat} (hx : Next now x) (hc : now < c ∧ c < wordRange) :
    Next now (consider x c) ∧ Covers (consider x c) c ∧
      ∀ e, Covers x e → Covers (consider x c) e := by
  unfold consider
  split
  next hless =>
    refine ⟨.inr hc, fun hne => ⟨hne, Nat.le_refl _⟩, fun e hcovers hne => ?_⟩
    obtain ⟨hpos, hle⟩ := hcovers hne
    rcases hless with hzero | hlt
    · exact absurd hzero hpos
    · omega
  next hmore =>
    refine ⟨hx, fun _ => ?_, fun e hcovers => hcovers⟩
    omega

theorem check_spec {timeout : Nat} (hx : Next now x) (hrange : timeout < wordRange) :
    let r := if timeout = 0 then (timeout, x) else if timeout ≤ now then (0, x)
      else (timeout, consider x timeout)
    Next now r.2 ∧ Covers r.2 r.1 ∧ (∀ e, Covers x e → Covers r.2 e) ∧ r.1 < wordRange := by
  split
  next hzero => exact ⟨hx, fun hne => absurd hzero hne, fun e h => h, hrange⟩
  next =>
    split
    next => exact ⟨hx, fun hne => absurd rfl hne, fun e h => h, wordRange_pos⟩
    next hlater =>
      obtain ⟨hnext, hcovers, hothers⟩ := consider_spec hx ⟨Nat.lt_of_not_le hlater, hrange⟩
      exact ⟨hnext, hcovers, hothers, hrange⟩

theorem checkSleep_eq (now : Nat) (t : Thread) (x : Nat) :
    ((checkSleep now t x).1.sleepTimeout, (checkSleep now t x).2) =
      (if t.sleepTimeout = 0 then (t.sleepTimeout, x) else if t.sleepTimeout ≤ now then (0, x)
        else (t.sleepTimeout, consider x t.sleepTimeout)) ∧
    (checkSleep now t x).1.futexTimeout = t.futexTimeout := by
  unfold checkSleep
  split
  · exact ⟨rfl, rfl⟩
  · split <;> exact ⟨rfl, rfl⟩

theorem checkFutex_eq (now : Nat) (t : Thread) (x : Nat) :
    ((checkFutex now t x).1.futexTimeout, (checkFutex now t x).2) =
      (if t.futexTimeout = 0 then (t.futexTimeout, x) else if t.futexTimeout ≤ now then (0, x)
        else (t.futexTimeout, consider x t.futexTimeout)) ∧
    (checkFutex now t x).1.sleepTimeout = t.sleepTimeout := by
  unfold checkFutex
  split
  · exact ⟨rfl, rfl⟩
  · split <;> exact ⟨rfl, rfl⟩

theorem checkThreads_spec (hx : Next now x)
    (hrange : ∀ t ∈ threads, t.sleepTimeout < wordRange ∧ t.futexTimeout < wordRange) :
    Next now (checkThreads now threads x).2 ∧
      (∀ e, Covers x e → Covers (checkThreads now threads x).2 e) ∧
      ∀ t ∈ (checkThreads now threads x).1,
        (Covers (checkThreads now threads x).2 t.sleepTimeout ∧
          Covers (checkThreads now threads x).2 t.futexTimeout) ∧
        t.sleepTimeout < wordRange ∧ t.futexTimeout < wordRange := by
  induction threads generalizing x with
  | nil => exact ⟨hx, fun e h => h, by simp [checkThreads]⟩
  | cons t threads ih =>
    obtain ⟨hsleep, hfutex⟩ := hrange t mem_cons_self
    obtain ⟨heq1, hsame1⟩ := checkSleep_eq now t x
    have hspec1 := check_spec hx hsleep
    rw [← heq1] at hspec1
    obtain ⟨hx1, hcovers1, hothers1, hrange1⟩ := hspec1
    obtain ⟨heq2, hsame2⟩ := checkFutex_eq now (checkSleep now t x).1 (checkSleep now t x).2
    have hspec2 := check_spec hx1 (hsame1 ▸ hfutex)
    rw [← heq2] at hspec2
    obtain ⟨hx2, hcovers2, hothers2, hrange2⟩ := hspec2
    obtain ⟨hx3, hothers3, hrest⟩ := ih hx2 fun t ht => hrange t (mem_cons_of_mem _ ht)
    simp only [checkThreads]
    refine ⟨hx3, fun e he => hothers3 e (hothers2 e (hothers1 e he)), ?_⟩
    intro t' ht'
    rcases mem_cons.mp ht' with rfl | ht'
    · rw [hsame2]
      exact ⟨⟨hothers3 _ (hothers2 _ hcovers1), hothers3 _ hcovers2⟩, hrange1, hrange2⟩
    · exact hrest t' ht'

section

variable (hs : Sound h)
include hs

theorem Sound.finish
    (hbounded : ∀ e ∈ { h with threads, ipiMessageCheckerExpiration := checker }.expirations,
      e < wordRange) (hx : Next h.now x)
    (hcovers : ∀ e ∈ { h with threads, ipiMessageCheckerExpiration := checker }.expirations,
      Covers x e) :
    Sound (if x = 0 then
        { h with threads, ipiMessageCheckerExpiration := checker }.disableUDECRwakeup
      else { h with threads, ipiMessageCheckerExpiration := checker }.enableUDECRwakeup x) := by
  split
  next hzero =>
    refine ⟨hs.freq, hs.time, hbounded, rfl, ?_⟩
    intro e he hne
    exact absurd hzero (hcovers e he hne).1
  next hpos =>
    obtain ⟨hlater, hrange⟩ := hx.resolve_left hpos
    refine hs.rearm hbounded hlater hrange ?_
    intro e he hne
    exact Nat.le_trans (Nat.min_le_left _ _) (hcovers e he hne).2

theorem nextChecker_spec (hchecker : h.ipiMessageCheckerExpiration ≠ h.now) :
    h.now < h.nextChecker ∧ h.nextChecker < wordRange := by
  have hbound := (forall_expirations.mp hs.bounded).2
  have htime := hs.time
  have hpos : 0 < checkerInterval * h.freqMHz := Nat.mul_pos (by decide) hs.freq
  unfold nextChecker
  split
  · rw [mod_eq_of_lt htime]
    omega
  · omega

theorem intHandlerUDEC_sound (hchecker : Timely h .udecInterrupt) : Sound h.intHandlerUDEC := by
  obtain ⟨hthreads, hbound⟩ := forall_expirations.mp hs.bounded
  obtain ⟨hnext, -, hcovers⟩ := checkThreads_spec (x := 0) (.inl rfl) hthreads
  simp only [intHandlerUDEC]
  split
  next hnone =>
    refine hs.finish ?_ hnext ?_
    · exact forall_expirations.mpr ⟨fun t ht => (hcovers t ht).2, hbound⟩
    · exact forall_expirations.mpr
        ⟨fun t ht => (hcovers t ht).1, fun hne => absurd hnone hne⟩
  next hscheduled =>
    have hspec := nextChecker_spec hs (hchecker hscheduled)
    obtain ⟨hnext', hcovers', hothers⟩ := consider_spec hnext hspec
    refine hs.finish ?_ hnext' ?_
    · exact forall_expirations.mpr ⟨fun t ht => (hcovers t ht).2, hspec.2⟩
    · exact forall_expirations.mpr
        ⟨fun t ht => ⟨hothers _ (hcovers t ht).1.1, hothers _ (hcovers t ht).1.2⟩, hcovers'⟩

theorem nanoSleep_sound (slot : Nat) (seconds nanoseconds : Int) :
    Sound (h.nanoSleep slot seconds nanoseconds) := by
  unfold HwThread.nanoSleep
  split
  · exact hs
  dsimp only
  split
  · exact hs
  next hlater =>
    have hrange : (h.now + cycles h.freqMHz seconds nanoseconds) % wordRange < wordRange :=
      mod_lt _ wordRange_pos
    generalize (h.now + cycles h.freqMHz seconds nanoseconds) % wordRange =
      expiration at hlater hrange
    have hthreads := (forall_expirations.mp hs.bounded).1
    have hbounded : ∀ e ∈ (h.modifyThread slot fun t =>
        { t with sleepTimeout := expiration, sleeping := true }).expirations, e < wordRange :=
      expirations_modifyThread hs.bounded fun t ht => ⟨hrange, (hthreads t ht).2⟩
    split
    next hsooner =>
      have hfirst : ∀ e ∈ h.expirations, e ≠ 0 → expiration ≤ e := by
        intro e he hne
        obtain ⟨time, htime, hle⟩ := hs.armed e he hne
        have hrecorded := hs.recorded
        rw [htime] at hrecorded
        rcases hsooner with hzero | hlt
        · change h.udecrExpiration = 0 at hzero
          rw [if_pos hzero] at hrecorded
          simp at hrecorded
        · have hpos : h.udecrExpiration ≠ 0 := Nat.ne_of_gt (zero_lt_of_lt hlt)
          rw [if_neg hpos, some.injEq] at hrecorded
          exact Nat.le_trans (Nat.le_of_lt hlt) (hrecorded ▸ hle)
      refine hs.rearm hbounded (Nat.lt_of_not_le hlater) hrange ?_
      refine expirations_modifyThread
        (fun e he hne => Nat.le_trans (Nat.min_le_left _ _) (hfirst e he hne)) ?_
      intro t ht
      refine ⟨fun _ => Nat.min_le_left _ _, fun hne => ?_⟩
      have he := (forall_expirations.mp hfirst).1 t ht
      exact Nat.le_trans (Nat.min_le_left _ _) (he.2 hne)
    next hset =>
      rw [not_or, Nat.not_lt] at hset
      refine ⟨hs.freq, hs.time, hbounded, hs.recorded, ?_⟩
      refine expirations_modifyThread hs.armed fun t ht => ⟨fun _ => ?_, ?_⟩
      · exact ⟨_, hs.recorded.trans (if_neg hset.1), hset.2⟩
      · exact ((forall_expirations.mp hs.armed).1 t ht).2

theorem futexWait_sound (slot : Nat) (sameValue entry : Bool) (timespec : Option (Int × Int))
    (hok : Timely h (.futexWait slot sameValue entry timespec)) :
    Sound (h.futexWait slot sameValue entry timespec) := by
  have hrange : h.futexTimeout timespec < wordRange := by
    unfold futexTimeout
    split
    · exact wordRange_pos
    · exact mod_lt _ wordRange_pos
  have hthreads := (forall_expirations.mp hs.bounded).1
  unfold HwThread.futexWait
  dsimp only
  split
  · exact hs
  next hvalue =>
  split
  · exact hs.modifyThread fun t => ⟨.inl rfl, .inl rfl⟩
  next hentry =>
  split
  next hzero => exact hs.modifyThread fun t => ⟨.inl rfl, .inr hzero⟩
  next htimed =>
    obtain ⟨hlater, hfirst⟩ := hok (by simpa using hvalue) (by simpa using hentry) htimed
    have hnow : ∀ f, (h.modifyThread slot f).now = h.now := fun _ => rfl
    rw [hnow, if_neg (Nat.not_lt.mpr (Nat.le_of_lt hlater))]
    refine hs.rearm ?_ hlater hrange ?_
    · exact expirations_modifyThread hs.bounded fun t ht => ⟨(hthreads t ht).1, hrange⟩
    · refine expirations_modifyThread hfirst fun t ht => ⟨?_, fun _ => Nat.min_le_left _ _⟩
      exact ((forall_expirations.mp hfirst).1 t ht).1

end

theorem timerInterrupt_sound (hs : Sound h)
    (hlast : ∀ e ∈ (h.modifyThread slot Thread.awaken).expirations, e = 0) :
    Sound (h.timerInterrupt slot) := by
  refine ⟨hs.freq, hs.time, ?_, rfl, ?_⟩
  · intro e he
    rw [hlast e he]
    exact wordRange_pos
  · intro e he hne
    exact absurd (hlast e he) hne

theorem awaken_addSignal
    (ht : t ∈ ((h.modifyThread slot (·.addSignal sig)).modifyThread slot Thread.awaken).threads) :
    ∃ t0 ∈ (h.modifyThread slot Thread.awaken).threads,
      t.sleepTimeout = t0.sleepTimeout ∧ t.futexTimeout = t0.futexTimeout := by
  obtain ⟨i, hi⟩ := mem_iff_getElem?.mp ht
  simp only [modifyThread, getElem?_modify, Option.map_eq_map, Option.map_map,
    map_eq_some_iff, Function.comp_apply] at hi
  obtain ⟨t1, ht1, rfl⟩ := hi
  refine ⟨if slot = i then t1.awaken else t1, ?_, ?_⟩
  · apply mem_of_getElem? (i := i)
    simp only [modifyThread, getElem?_modify, ht1, Option.map_eq_map, map_some]
  · split <;> exact ⟨rfl, rfl⟩

theorem signalDeliver_sound (hs : Sound h) (hok : Timely h (.signalDeliver slot sig))
    (hstep : h.signalDeliver slot sig = some h') : Sound h' := by
  obtain ⟨t, ht, rfl⟩ := map_eq_some_iff.mp hstep
  have hsignal : Sound (h.modifyThread slot (·.addSignal sig)) :=
    hs.modifyThread fun t => ⟨.inl rfl, .inl rfl⟩
  dsimp only
  split
  · exact hsignal
  next hsignalled =>
  split
  · exact hsignal.modifyThread fun t => ⟨.inl rfl, .inl rfl⟩
  next hignored =>
  split
  · exact hsignal.modifyThread fun t => ⟨.inl rfl, .inr rfl⟩
  next hwaiting =>
  split
  next hsleeping =>
    refine timerInterrupt_sound hsignal ?_
    have hends : h.endsSleep slot sig = true := by
      simp only [endsSleep, ht, any_some, Bool.and_eq_true, Bool.not_eq_true']
      simp only [Bool.not_eq_true, Bool.not_eq_false'] at hsignalled hignored hwaiting
      exact ⟨⟨⟨hsignalled, hignored⟩, hwaiting⟩, hsleeping⟩
    have hlast := hok hends
    rw [forall_expirations] at hlast ⊢
    refine ⟨?_, hlast.2⟩
    intro t' ht'
    obtain ⟨t0, ht0, hsleep, hfutex⟩ := awaken_addSignal ht'
    rw [hsleep, hfutex]
    exact hlast.1 t0 ht0
  next => exact hsignal

instance (h : HwThread) (label : Label) : Decidable (Timely h label) := by
  cases label <;> unfold Timely <;> infer_instance

theorem step_sound {label : Label} (hs : Sound h) (htimely : Timely h label)
    (hstep : step h label = some h') : Sound h' := by
  revert hstep
  fun_cases step h label <;> intro hstep
  case case10 => exact signalDeliver_sound hs htimely hstep
  all_goals cases hstep
  case case1 htime => exact ⟨hs.freq, htime, hs.bounded, hs.recorded, hs.armed⟩
  case case3 => exact nanoSleep_sound hs _ _ _
  case case5 => exact futexWait_sound hs _ _ _ _ htimely
  case case7 => exact hs.modifyThread fun t => ⟨.inl rfl, .inr rfl⟩
  case case8 => exact hs.modifyThread fun t => ⟨.inl rfl, .inl rfl⟩
  case case11 => exact intHandlerUDEC_sound hs htimely
  case case13 | case15 => exact hs.modifyThread fun t => ⟨.inl rfl, .inl rfl⟩

theorem init_sound {freqMHz : Nat} (hfreq : 0 < freqMHz)
    (htime : now + checkerInterval * freqMHz < wordRange) (signals : List (List Nat × List Nat))
    (checker : Bool) : Sound (init now freqMHz signals checker) := by
  have hidle : Sound ⟨now, freqMHz, signals.map fun s => ⟨0, 0, false, false, [], s.1, s.2⟩, 0,
      none, 0⟩ := by
    have hzero : ∀ e ∈ expirations ⟨now, freqMHz,
        signals.map fun s => ⟨0, 0, false, false, [], s.1, s.2⟩, 0, none, 0⟩, e = 0 := by
      rw [forall_expirations]
      refine ⟨fun t ht => ?_, rfl⟩
      obtain ⟨s, -, rfl⟩ := mem_map.mp ht
      exact ⟨rfl, rfl⟩
    exact ⟨hfreq, htime, fun e he => hzero e he ▸ wordRange_pos, rfl,
      fun e he hne => absurd (hzero e he) hne⟩
  unfold init
  cases checker with
  | false => exact hidle
  | true =>
    have hpos : 0 < checkerInterval * freqMHz := Nat.mul_pos (by decide) hfreq
    have hthreads := (forall_expirations.mp hidle.bounded).1
    simp only [if_true, mod_eq_of_lt htime]
    refine hidle.rearm ?_ (by dsimp only; omega) htime ?_
    · exact forall_expirations.mpr ⟨hthreads, htime⟩
    · refine forall_expirations.mpr ⟨fun t ht => ?_, fun _ => Nat.min_le_left _ _⟩
      obtain ⟨s, -, rfl⟩ := mem_map.mp ht
      exact ⟨fun hne => absurd rfl hne, fun hne => absurd rfl hne⟩

/-- In every run of timely steps the decrementer is armed for the first expiration. -/
theorem armed_of_timely {now freqMHz : Nat} (hfreq : 0 < freqMHz)
    (htime : now + checkerInterval * freqMHz < wordRange) (signals : List (List Nat × List Nat))
    (checker : Bool) {labels : List Label} {h : HwThread}
    (hrun : run step (init now freqMHz signals checker) labels = some h)
    (htimely : RunMeets step Timely (init now freqMHz signals checker) labels) : Armed h :=
  (invariant_of_runMeets (fun _ _ _ hs hC ht => step_sound hs hC ht)
    (init_sound hfreq htime signals checker) htimely hrun).armed

def sampleLabels : List Label :=
  [.nanoSleep 0 0 5000000, .futexWait 1 true true (some (0, 1000000)), .pass 1600000,
    .udecInterrupt, .futexWait 1 true true none, .futexWake 1, .futexUnblock 1]

theorem armed_of_timely_sample :
    ∃ h, run step (init 1000 1600 [([], []), ([], [])] true) sampleLabels = some h ∧
      h.expirations = [8001000, 0, 0, 0, 32001000] ∧ Armed h := by
  refine exists_of_map_run expirations [8001000, 0, 0, 0, 32001000] (by decide)
    fun h hrun hexpirations => ?_
  exact ⟨hexpirations, armed_of_timely (by decide) (by decide) _ _ hrun (by decide)⟩

theorem not_armed_of_run {h0 : HwThread} {labels : List Label} (udec : Option Nat) (es : List Nat)
    (e : Nat) (hrun : (run step h0 labels).map (fun h => (h.udec, h.expirations)) = some (udec, es))
    (he : e ∈ es) (hne : e ≠ 0) (hlate : ∀ time ∈ udec, e < time) :
    ∃ h, run step h0 labels = some h ∧ ¬Armed h := by
  obtain ⟨h, hrun, hend⟩ := map_eq_some_iff.mp hrun
  rw [Prod.mk.injEq] at hend
  refine ⟨h, hrun, fun harmed => ?_⟩
  obtain ⟨time, htime, hle⟩ := harmed e (hend.2 ▸ he) hne
  exact Nat.not_lt.mpr hle (hlate time (hend.1.symm.trans htime))

/-- A later futex timeout replaces the end of a sleep; a futex timeout of less than a
microsecond stops the decrementer; so does a signal to another sleeping thread, and an interrupt
at the expiration of the message checker. -/
theorem not_armed_of_timely : (∃ h, run step (init 1000 1600 [([], []), ([], [])] false)
      [.nanoSleep 0 0 1000000, .futexWait 1 true true (some (0, 5000000))] = some h ∧ ¬Armed h) ∧
    (∃ h, run step (init 1000 1600 [([], []), ([], [])] false)
      [.futexWait 0 true true (some (0, 999))] = some h ∧ ¬Armed h) ∧
    (∃ h, run step (init 1000 1600 [([], []), ([], [])] false)
      [.nanoSleep 0 0 1000000, .nanoSleep 1 0 1000000, .signalDeliver 1 10] = some h ∧ ¬Armed h) ∧
    (∃ h, run step (init 1000 1600 [([], []), ([], [])] true)
      [.nanoSleep 0 0 1000000, .pass 32000000, .udecInterrupt] = some h ∧ ¬Armed h) := by
  refine ⟨?_, ?_, ?_, ?_⟩
  · exact not_armed_of_run (some 8001000) [1601000, 0, 0, 8001000, 0] 1601000
      (by decide) (by decide) (by decide) (by decide)
  · exact not_armed_of_run none [0, 1000, 0, 0, 0] 1000
      (by decide) (by decide) (by decide) (by decide)
  · exact not_armed_of_run none [1601000, 0, 0, 0, 0] 1601000
      (by decide) (by decide) (by decide) (by decide)
  · exact not_armed_of_run none [0, 0, 0, 0, 32001000] 32001000
      (by decide) (by decide) (by decide) (by decide)

end BgqDriver.Timers
