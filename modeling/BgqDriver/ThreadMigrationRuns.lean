import BgqDriver.ThreadMigrationInvariant

/-!
Runs of migrations. Every step keeps the slots and the tasks in agreement. So a kthread has
one slot, which it names, unless it is on its way, and no kthread that can run is ever in
two slots.
-/

namespace BgqDriver.ThreadMigration

open Function Option
open EventRuns

variable {node : Node} {s s' s1 : State} {i j : Nat} {k l : Task} {t u p : Thread} {slot : Slot}
  {me : Processor}

section

variable (h : Consistent s) (hi : s.tasks i = some k)
include h hi

theorem Consistent.reserve
    (hmoving : k.stage.phase.moving = false) (hp : s.schedSlot (k.target, slot) = p)
    (hfree : (s.threads p).state.free = true) (hreserved : (s.threads p).state.reserved = false) :
    Consistent ((s.setThread p fun o =>
      { o with state := { o.state with reserved := true } }).setTask i
        (some { k with stage := .count slot, reserved := some p })) := by
  have hbusy : ∀ j l, s.tasks j = some l → l.kthread ≠ p := by
    rintro j l hl rfl
    rw [(h.tasks j l hl).busy] at hfree
    exact absurd hfree (by simp)
  have hapart : Apart s i p := by
    refine fun j l _ hl => ⟨fun _ => hbusy j l hl, fun hp' => ?_⟩
    rw [((h.tasks j l hl).spare p hp').2] at hreserved
    exact absurd hreserved (by simp)
  refine h.touch hi _ (.setThread rfl rfl hapart fun _ => rfl) rfl
    (s.setThread_congr (·.place) fun _ => rfl)
    (fun u hu => absurd hu (Task.not_involves hmoving)) ?_
  rintro l ⟨⟩
  refine ⟨⟨?_, ?_, nofun, p, rfl, ?_⟩, nofun, ?_⟩
  · rw [s.setThread_of_ne _ (hbusy i k hi)]
    exact (h.tasks i k hi).busy
  · rintro q ⟨⟩
    rw [s.setThread_self]
    exact ⟨hfree, rfl⟩
  · rw [State.address, s.setThread_self]
    exact (((h.settled_of_apart hi hmoving hapart) _).mp hp).symm
  · rintro q ⟨⟩
    exact hapart

theorem Consistent.drop (hp : k.reserved = some p) {stage : Stage} {f : KThread → KThread}
    (hstep : some (s1.setTask i (some { k with stage := stage, reserved := none })) = some s')
    (hkeeps : ∀ u, (f u).place = u.place ∧ (f u).state.free = u.state.free)
    (htasks : s1.tasks = s.tasks)
    (hslots : s1.schedSlot = s.schedSlot) (hthreads : s1.threads = (s.setThread p f).threads)
    (hmoving : k.stage.phase.moving = false)
    (howns : stage.phase.owns = true → k.stage.phase.owns = true)
    (hphase : ∀ s k, PhaseOk s k stage.phase) : Consistent s' := by
  cases hstep
  have hapart := h.apart_reserved hi hp
  have hkthread : s1.threads k.kthread = s.threads k.kthread := by
    rw [hthreads]
    exact s.setThread_of_ne f (h.reserved_ne hi hi hp)
  refine h.touch hi _ (.setThread htasks hthreads hapart fun u => (hkeeps u).2) hslots ?_
    (fun u hu => absurd hu (Task.not_involves hmoving)) ?_
  · intro u
    rw [hthreads]
    exact s.setThread_congr (·.place) (fun u => (hkeeps u).1) u
  · rintro l ⟨⟩
    refine ⟨⟨?_, nofun, ?_, hphase _ _⟩, fun howns' => ?_, nofun⟩
    · rw [hkthread]
      exact (h.tasks i k hi).busy
    · intro howns'
      rw [hkthread]
      exact (h.tasks i k hi).claimed (howns howns')
    · have hapart' := h.apart_kthread hi (howns howns')
      exact hapart'

theorem Consistent.schedSlot_eq (hmoving : k.stage.phase.moving = false) (hp : k.reserved = some p)
    (haddress : s.address p = (k.target, slot)) : s.schedSlot (k.target, slot) = p := by
  rw [h.settled_of_apart hi hmoving (h.apart_reserved hi hp), haddress]

theorem Consistent.changeOwned
    (howns : k.stage.phase.owns = true) (stage : Stage) (hframe : Frame s s1 i)
    (hslots : ∀ a, s1.schedSlot a = s.schedSlot a ∨
      Apart s i (s.schedSlot a) ∧ Apart s i (s1.schedSlot a))
    (hnamed : ∀ u, (s1.threads u).place.Named)
    (hsettled : ∀ u, Task.Involves { k with stage := stage } u ∨ Settled s1 u ∨
      ¬ k.Involves u ∧ (Settled s u → Settled s1 u))
    (hok : TaskOk s1 { k with stage := stage }) :
    Consistent (s1.setTask i (some { k with stage := stage })) := by
  have hkthread := h.apart_kthread hi howns
  refine h.change hi _ hframe hslots hnamed ?_ ?_
  · exact fun u => (hsettled u).imp (fun hu => ⟨_, rfl, hu⟩)
      (Or.imp_right (And.imp_left fun hnot => by simpa using hnot))
  · rintro l ⟨⟩
    exact ⟨hok, fun _ => hkthread, fun q hq => h.apart_reserved hi hq⟩

theorem Consistent.holdsAt_setThread
    (hat : HoldsAt s k slot) (f : KThread → KThread) (stage : Stage) :
    HoldsAt (s.setThread k.kthread f) { k with stage := stage } slot := by
  obtain ⟨p, hp, haddress⟩ := hat
  refine ⟨p, hp, ?_⟩
  rw [State.address, s.setThread_of_ne _ (h.reserved_ne hi hi hp).symm]
  exact haddress

end

theorem Settled.setThread (hsettled : Settled s u) (hu : u ≠ t) (f : KThread → KThread) :
    Settled (s.setThread t f) u := by
  intro a
  rw [State.address, s.setThread_of_ne f hu]
  exact hsettled a

theorem Settled.setSlot (hsettled : Settled s u) {b : Address} (hold : s.schedSlot b ≠ u)
    (hnew : t ≠ u) : Settled { s with schedSlot := update s.schedSlot b t } u := by
  intro a
  change update s.schedSlot b t a = u ↔ a = s.address u
  rw [← hsettled a]
  by_cases ha : a = b
  · rw [ha, update_self]
    exact ⟨fun hu => absurd hu hnew, fun hu => absurd hu hold⟩
  · rw [update_of_ne ha]

section

variable (h : Consistent s) (hi : s.tasks i = some k)
include h hi

theorem Consistent.take (hstage : k.stage = .take me p) :
    Consistent ((s.setThread k.kthread fun u => { u with place := (s.threads p).place }).setTask i
      (some { k with stage := .give me p (s.threads k.kthread).place })) := by
  obtain ⟨-, -, hclaimed, hphase⟩ := h.tasks i k hi
  have howns : k.stage.phase.owns = true := by rw [hstage]; rfl
  have hmoving : k.stage.phase.moving = false := by rw [hstage]; rfl
  rw [hstage] at hphase
  obtain ⟨hp, hme, hreset⟩ := hphase
  have hapart := h.apart_kthread hi howns
  refine h.changeOwned hi howns _ (.setThread rfl rfl hapart fun _ => rfl) (fun _ => .inl rfl)
    ?_ ?_ ?_
  · intro u
    by_cases hu : u = k.kthread
    · rw [hu, s.setThread_self]
      exact h.named p
    · rw [s.setThread_of_ne _ hu]
      exact h.named u
  · intro u
    by_cases hu : u = k.kthread
    · exact .inl ⟨rfl, .inl hu.symm⟩
    · exact .inr (.inr ⟨Task.not_involves hmoving, fun hsettled => hsettled.setThread hu _⟩)
  · refine h.taskOk_setThread hi (fun _ => rfl) (fun _ => hclaimed howns)
      ⟨hp, ?_, hme, h.named _, ?_, ?_⟩
    · rw [s.setThread_self]
      exact hreset
    · exact h.settled_of_apart hi hmoving hapart
    · intro a
      rw [State.address, s.setThread_self]
      exact h.settled_of_apart hi hmoving (h.apart_reserved hi hp) a

theorem Consistent.give {saved : Place}
    (hstage : k.stage = .give me p saved) (proc : Nat) (htasks : s1.tasks = s.tasks)
    (hslots : s1.schedSlot = s.schedSlot) (hthreads : s1.threads =
      (s.setThread p fun o => { o with place := saved, pAppProc := proc }).threads) :
    Consistent (s1.setTask i (some { k with stage := .store me p })) := by
  obtain ⟨hbusy, hspare, hclaimed, hphase⟩ := h.tasks i k hi
  have howns : k.stage.phase.owns = true := by rw [hstage]; rfl
  have hmoving : k.stage.phase.moving = true := by rw [hstage]; rfl
  rw [hstage] at hphase
  obtain ⟨hp, hreset, hme, hnamed, hseat, hseat'⟩ := hphase
  have hapart := h.apart_reserved hi hp
  have hself : s1.threads p = { s.threads p with place := saved, pAppProc := proc } := by
    rw [hthreads, s.setThread_self]
  have hother : ∀ u ≠ p, s1.threads u = s.threads u := by
    intro u hu
    rw [hthreads, s.setThread_of_ne _ hu]
  have hkthread := hother k.kthread (h.reserved_ne hi hi hp)
  refine h.changeOwned hi howns _ (.setThread htasks hthreads hapart fun _ => by rfl)
    (fun a => .inl (congrFun hslots a)) ?_ ?_ ?_
  · intro u
    by_cases hu : u = p
    · rw [hu, hself]
      exact hnamed
    · rw [hother u hu]
      exact h.named u
  · intro u
    by_cases hu : k.Involves u
    · exact .inl ⟨rfl, hu.2⟩
    · refine .inr (.inr ⟨hu, fun hsettled a => ?_⟩)
      rw [hslots, State.address, hother u fun hup => hu ⟨hmoving, .inr (hup ▸ hp)⟩]
      exact hsettled a
  · refine ⟨?_, ?_, ?_, hp, ?_, ?_, ?_, ?_⟩
    · rw [hkthread]
      exact hbusy
    · intro q hq
      obtain rfl := some.inj (hp.symm.trans hq)
      rw [hself]
      exact hspare p hp
    · intro _
      rw [hkthread]
      exact hclaimed howns
    · rw [hkthread]
      exact hreset
    · rw [hself]
      exact hme
    · intro a
      rw [hslots, State.address, hself]
      exact hseat a
    · intro a
      rw [hslots, State.address, hkthread]
      exact hseat' a

theorem Consistent.store
    (hstage : k.stage = .store me p) : Consistent (State.setTask { s with
      schedSlot := update s.schedSlot (me, (s.threads p).place.slotIndex) p } i
      (some { k with stage := .moveUnlock me })) := by
  obtain ⟨hbusy, hspare, hclaimed, hphase⟩ := h.tasks i k hi
  have howns : k.stage.phase.owns = true := by rw [hstage]; rfl
  have hmoving : k.stage.phase.moving = true := by rw [hstage]; rfl
  rw [hstage] at hphase
  obtain ⟨hp, hreset, hme, hseat, hseat'⟩ := hphase
  have hne := h.reserved_ne hi hi hp
  have haddress : (me, (s.threads p).place.slotIndex) = s.address p := by
    rw [← hme]
    rfl
  have hold : s.schedSlot (s.address p) = k.kthread := (hseat _).mpr rfl
  rw [haddress]
  refine h.changeOwned hi howns _ (.of_eq rfl rfl) ?_ h.named ?_ ?_
  · intro a
    by_cases ha : a = s.address p
    · refine .inr ⟨?_, ?_⟩
      · rw [ha, hold]
        exact h.apart_kthread hi howns
      · rw [ha]
        change Apart s i (update s.schedSlot (s.address p) p (s.address p))
        rw [update_self]
        exact h.apart_reserved hi hp
    · exact .inl (update_of_ne ha _ _)
  · intro u
    by_cases hu : k.Involves u
    · exact .inl ⟨rfl, hu.2⟩
    · refine .inr (.inr ⟨hu, fun hsettled => hsettled.setSlot ?_ ?_⟩)
      · rw [hold]
        exact fun hku => hu ⟨hmoving, .inl hku⟩
      · exact fun hpu => hu ⟨hmoving, .inr (hpu ▸ hp)⟩
  · refine ⟨hbusy, hspare, fun _ => hclaimed howns, hreset, ?_, p, hp, ?_, ?_⟩
    · intro a
      change update s.schedSlot (s.address p) p a ≠ k.kthread
      by_cases ha : a = s.address p
      · rw [ha, update_self]
        exact hne.symm
      · rw [update_of_ne ha]
        exact fun hka => ha ((hseat a).mp hka)
    · intro heq
      change s.address p = s.address k.kthread at heq
      rw [heq, (hseat' _).mpr rfl] at hold
      exact hne hold.symm
    · intro a
      change update s.schedSlot (s.address p) p a = p ↔
        a = s.address p ∨ a = s.address k.kthread
      by_cases ha : a = s.address p
      · simp [ha]
      · rw [update_of_ne ha, hseat' a]
        exact ⟨.inr, fun h => h.resolve_left ha⟩

theorem Consistent.exchange {remote : Bool}
    (hstage : k.stage = .exchange me remote) (htasks : s1.tasks = s.tasks)
    (hthreads : s1.threads = s.threads) (hslots : s1.schedSlot =
      update s.schedSlot (me, (s.threads k.kthread).place.slotIndex) k.kthread) {original : Thread}
    (horiginal : s.schedSlot (me, (s.threads k.kthread).place.slotIndex) = original)
    (originalID : Processor) :
    Consistent (s1.setTask i
      (some { k with stage := .unreserve me remote original originalID })) := by
  obtain ⟨hbusy, hspare, hclaimed, hphase⟩ := h.tasks i k hi
  have howns : k.stage.phase.owns = true := by rw [hstage]; rfl
  rw [hstage] at hphase
  obtain ⟨⟨hreset, haway, p, hp, hne', htwice⟩, hme⟩ := hphase
  have hne := h.reserved_ne hi hi hp
  have haddress : (me, (s.threads k.kthread).place.slotIndex) = s.address k.kthread := by
    rw [← hme]
    rfl
  have hold : s.schedSlot (s.address k.kthread) = p := (htwice _).mpr (.inr rfl)
  rw [haddress] at hslots horiginal
  have haddr : ∀ u, s1.address u = s.address u := by
    intro u
    rw [State.address, hthreads]
    rfl
  refine h.changeOwned hi howns _ (.of_eq htasks hthreads) ?_ ?_ ?_ ?_
  · intro a
    rw [hslots]
    by_cases ha : a = s.address k.kthread
    · refine .inr ⟨?_, ?_⟩
      · rw [ha, hold]
        exact h.apart_reserved hi hp
      · rw [ha, update_self]
        exact h.apart_kthread hi howns
    · exact .inl (update_of_ne ha _ _)
  · intro u
    rw [hthreads]
    exact h.named u
  · intro u
    by_cases hu : u = k.kthread
    · refine .inr (.inl fun a => ?_)
      rw [hslots, haddr, hu]
      by_cases ha : a = s.address k.kthread
      · simp [ha]
      · rw [update_of_ne ha]
        exact ⟨fun hka => absurd hka (haway a), fun hka => absurd hka ha⟩
    by_cases hup : u = p
    · refine .inr (.inl fun a => ?_)
      rw [hslots, haddr, hup]
      by_cases ha : a = s.address k.kthread
      · rw [ha, update_self]
        exact ⟨fun hk => absurd hk hne, fun hk => absurd hk.symm hne'⟩
      · rw [update_of_ne ha, htwice a]
        exact ⟨fun h => h.resolve_right ha, .inl⟩
    · refine .inr (.inr ⟨?_, fun hsettled a => ?_⟩)
      · rintro ⟨-, hku | hpu⟩
        · exact hu hku.symm
        · exact hup (some.inj (hpu.symm.trans hp))
      · rw [hslots, haddr]
        have hsettled' := hsettled.setSlot (b := s.address k.kthread) (t := k.kthread)
          (fun h => hup (h.symm.trans hold)) (fun h => hu h.symm)
        exact hsettled' a
  · constructor
    · rw [hthreads]
      exact hbusy
    · intro q hq
      rw [hthreads]
      exact hspare q hq
    · intro _
      rw [hthreads]
      exact hclaimed howns
    · change k.reserved = some original
      rw [← horiginal, hold]
      exact hp

end

theorem lock_eq (h : s.lock me i = some s1) :
    s1.tasks = s.tasks ∧ s1.schedSlot = s.schedSlot ∧ s1.threads = s.threads := by
  unfold State.lock at h
  split at h
  · cases h
    exact ⟨rfl, rfl, rfl⟩
  · exact absurd h (by simp)

section

variable (h : Consistent s)
include h

theorem Consistent.lock (hi : s.tasks i = some k) (stage : State → Stage)
    (hadvance : (s.lock me i).bind (fun s1 =>
      some (s1.setTask i (some { k with stage := stage s1 }))) = some s')
    (howns : ∀ s1, (stage s1).phase.owns = true → k.stage.phase.owns = true)
    (hmoving : ∀ s1, k.stage.phase.moving = true → (stage s1).phase.moving = true)
    (hphase : ∀ s1, PhaseOk s { k with stage := stage s1 } (stage s1).phase) : Consistent s' := by
  obtain ⟨s1, hlock, hs'⟩ := bind_eq_some_iff.mp hadvance
  obtain ⟨htasks, hslots, hthreads⟩ := lock_eq hlock
  exact h.goto hi hs' htasks hslots hthreads (howns s1) (hmoving s1) (hphase s1)

theorem advance_keeps {copied : Bool} (hi : s.tasks i = some k)
    (hadvance : advance node s i k copied = some s') : Consistent s' := by
  obtain ⟨kthread, target, proc, stage, reserved⟩ := k
  obtain ⟨hbusy, hspare, hclaimed, hphase⟩ := h.tasks i _ hi
  -- With the stage in sight the phase and its flags are known by computation.
  cases stage with
  | reserve =>
    simp only [advance] at hadvance
    split at hadvance
    · exact h.goto hi hadvance rfl rfl rfl nofun nofun trivial
    · exact h.leave hi hadvance (.of_eq rfl rfl) rfl (fun _ => rfl) rfl
  | reserveLock =>
    exact h.lock hi _ hadvance (fun _ => nofun) nofun fun _ => trivial
  | scan n slot =>
    simp only [advance] at hadvance
    split at hadvance
    · split at hadvance
      case isTrue hother =>
        cases hadvance
        exact h.reserve hi rfl rfl hother.1 hother.2
      case isFalse =>
        exact h.goto hi hadvance rfl rfl rfl nofun nofun trivial
    · exact h.goto hi hadvance rfl rfl rfl nofun nofun trivial
  | count slot =>
    exact h.goto hi hadvance rfl rfl rfl nofun nofun hphase
  | reserveUnlock slot =>
    cases slot with
    | none =>
      exact h.leave hi hadvance (.of_eq rfl rfl) rfl (fun _ => rfl) rfl
    | some slot =>
      exact h.goto hi hadvance rfl rfl rfl nofun nofun hphase
  | claim slot =>
    simp only [advance] at hadvance
    split at hadvance
    case isTrue hnone =>
      -- The comparison succeeds for one task only: the others' kthreads have a target.
      have hapart : Apart s i kthread := by
        refine fun j l _ hl => ⟨fun howns heq => ?_, fun hp => h.reserved_ne hl hi hp rfl⟩
        have hsome := (h.tasks j l hl).claimed howns
        rw [heq, hnone] at hsome
        exact absurd hsome (by simp)
      refine h.own hi hadvance (fun _ => ⟨rfl, rfl⟩) hapart rfl (fun _ => rfl) ?_
      exact h.holdsAt_setThread hi hphase _ _
    case isFalse =>
      exact h.goto hi hadvance rfl rfl rfl nofun nofun hphase
  | setSlot slot =>
    obtain ⟨d, hd⟩ := isSome_iff_exists.mp (hclaimed rfl)
    refine h.own hi hadvance (fun _ => ⟨rfl, rfl⟩) (h.apart_kthread hi rfl) rfl
      (fun _ => by simp [hd]) ⟨?_, d.1, ?_⟩
    · exact h.holdsAt_setThread hi hphase _ _
    · rw [s.setThread_self]
      simp [hd]
  | setTarget slot =>
    obtain ⟨hat, cpu, hd⟩ := hphase
    refine h.own hi hadvance (fun _ => ⟨rfl, rfl⟩) (h.apart_kthread hi rfl) rfl
      (fun _ => by simp [hd]) ⟨h.holdsAt_setThread hi hat _ _, ?_⟩
    · rw [s.setThread_self]
      simp [hd]
  | copyProcess slot =>
    simp only [advance] at hadvance
    split at hadvance
    · exact h.goto hi hadvance rfl rfl rfl (fun _ => rfl) nofun
        ⟨slot, hphase.1, hphase.2⟩
    · exact h.goto hi hadvance rfl rfl rfl (fun _ => rfl) nofun hphase.1
  | request =>
    exact h.goto hi hadvance rfl rfl rfl (fun _ => rfl) nofun ⟨hphase, rfl⟩
  | releaseLock slot =>
    exact h.lock hi _ hadvance (fun _ => nofun) nofun fun _ => hphase
  | release slot =>
    obtain ⟨p, hp, haddress⟩ := hphase
    simp only [advance, h.schedSlot_eq hi rfl hp haddress, (hspare p hp).2, if_true] at hadvance
    exact h.drop hi hp hadvance
      (f := fun o => { o with state := { o.state with reserved := false } })
      (fun _ => ⟨rfl, rfl⟩) rfl rfl rfl rfl nofun (fun _ _ => trivial)
  | releaseUnlock =>
    exact h.leave hi hadvance (.of_eq rfl rfl) rfl (fun _ => rfl) rfl
  | move me =>
    obtain ⟨⟨slot, ⟨p, hp, haddress⟩, hd⟩, hme⟩ := hphase
    simp only [advance, hd, h.schedSlot_eq hi rfl hp haddress, hme,
      (hspare p hp).2, and_self, if_true] at hadvance
    split at hadvance
    · exact h.leave hi hadvance (.setThread rfl rfl (h.apart_kthread hi rfl) fun _ => rfl) rfl
        (s.setThread_congr (·.place) fun _ => rfl) rfl
    · exact h.goto hi hadvance rfl rfl rfl (fun _ => rfl) nofun ⟨hp, hme⟩
  | moveLock me p =>
    exact h.lock hi _ hadvance (fun _ _ => rfl) nofun fun _ => hphase
  | block me p =>
    obtain ⟨hp, hme⟩ := hphase
    have hhere : (s.threads kthread).place.pHWThread = me :=
      (h.named kthread).1.trans hme
    refine h.own hi hadvance ?_ (h.apart_kthread hi rfl) rfl ?_ ⟨hp, ?_⟩
    · exact fun u => by unfold schedBlockReset; split <;> exact ⟨rfl, rfl⟩
    · intro _
      rw [schedBlockReset, if_pos hhere]
      exact hclaimed rfl
    · rw [s.setThread_self, schedBlockReset, if_pos hhere]
      exact ⟨hme, rfl⟩
  | take me p =>
    cases hadvance
    exact h.take hi rfl
  | give me p saved =>
    cases hadvance
    refine h.give hi rfl (node.processOf me) ?_ ?_ ?_ <;> split <;> rfl
  | store me p =>
    cases hadvance
    exact h.store hi rfl
  | moveUnlock me =>
    exact h.goto hi hadvance rfl rfl rfl (fun _ => rfl) (fun _ => rfl) hphase
  | notify =>
    exact h.goto hi hadvance rfl rfl rfl (fun _ => rfl) (fun _ => rfl) ⟨hphase, rfl⟩
  | completeLock me =>
    exact h.lock hi _ hadvance (fun _ _ => rfl) (fun _ _ => rfl) fun _ => hphase
  | exchange me remote =>
    cases hadvance
    refine h.exchange hi rfl ?_ ?_ ?_ ?_ _ <;> rfl
  | unreserve me remote original originalID =>
    simp only [advance, (hspare original hphase).2, if_true] at hadvance
    exact h.drop hi hphase hadvance (fun _ => ⟨by rfl, by rfl⟩) rfl rfl rfl rfl (fun _ => rfl)
      (fun _ _ => trivial)
  | completeUnlock me remote originalID | makeAvail me remote originalID =>
    exact h.goto hi hadvance rfl rfl rfl (fun _ => rfl) nofun trivial
  | unblockExit me remote =>
    cases remote with
    | true =>
      refine h.own hi hadvance ?_ (h.apart_kthread hi rfl) rfl ?_ trivial
      · exact fun u => by unfold schedUnblockExit; split <;> exact ⟨rfl, rfl⟩
      · intro _
        unfold schedUnblockExit
        split <;> exact hclaimed rfl
    | false => exact h.goto hi hadvance rfl rfl rfl (fun _ => rfl) nofun trivial
  | unblock me =>
    refine h.own hi hadvance ?_ (h.apart_kthread hi rfl) rfl ?_ trivial
    · exact fun u => by unfold schedUnblockReset; split <;> exact ⟨rfl, rfl⟩
    · intro _
      unfold schedUnblockReset
      split <;> exact hclaimed rfl
  | finish =>
    exact h.leave hi hadvance (.setThread rfl rfl (h.apart_kthread hi rfl) fun _ => rfl) rfl
      (s.setThread_congr (·.place) fun _ => rfl) rfl
  | asserted =>
    exact hphase.elim

theorem Consistent.arrive (hi : s.tasks i = none) (target : Processor)
    (proc : Nat) (hbusy : (s.threads t).state.free = false) :
    Consistent (s.setTask i (some ⟨t, target, proc, .reserve, none⟩)) := by
  -- The new task owns no kthread and has reserved none, so only the old ones count.
  refine h.change hi _ (.of_eq rfl rfl) (fun _ => .inl rfl) h.named
    (fun u => .inr (.inr ⟨nofun, id⟩)) ?_
  rintro l ⟨⟩
  exact ⟨⟨hbusy, nofun, nofun, trivial⟩, nofun, nofun⟩

theorem step_keeps {label : Label} (hstep : step node s label = some s') : Consistent s' := by
  cases label with
  | setaffinity i proc t target =>
    simp only [step] at hstep
    split at hstep
    case isTrue hnone =>
      split at hstep
      case isTrue haccepts =>
        cases hstep
        refine h.arrive hnone target proc ?_
        simp only [accepts, Bool.and_eq_true, Bool.not_eq_true'] at haccepts
        exact haccepts.1.1.1.1.1
      case isFalse =>
        cases hstep
        exact h
    case isFalse => exact absurd hstep (by simp)
  | advance i copied =>
    obtain ⟨k, hi, hadvance⟩ := bind_eq_some_iff.mp hstep
    exact advance_keeps h hi hadvance

end

/-- No migration is on its way; every thread is in the slot it names and in no other. -/
structure AtRest (s : State) : Prop where
  tasks : ∀ i, s.tasks i = none
  settled : ∀ u, Settled s u
  named : ∀ u, (s.threads u).place.Named

theorem AtRest.consistent (h : AtRest s) : Consistent s where
  named := h.named
  settled u _ := h.settled u
  tasks i k hk := absurd (h.tasks i ▸ hk) (by simp)
  owners i j k l hk := absurd (h.tasks i ▸ hk) (by simp)
  holders i j k l p hk := absurd (h.tasks i ▸ hk) (by simp)

theorem initHwThreads_atRest (used : Thread → Bool) : AtRest (initHwThreads used) := by
  refine ⟨fun _ => rfl, fun u a => ?_, fun u => ⟨rfl, rfl⟩⟩
  obtain ⟨me, slot⟩ := a
  simp only [initHwThreads, State.address, Place.address, Fin.ext_iff, Prod.mk.injEq]
  omega

theorem Consistent.slot_unique (h : Consistent s) {a b : Address} (ha : s.schedSlot a = u)
    (hb : s.schedSlot b = u) (hrun : (s.threads u).state = SchedState.run) : a = b := by
  have hsettled : Settled s u := by
    refine h.settled u fun i k hk hinvolves => ?_
    obtain ⟨hbusy, hspare, hclaimed, hphase⟩ := h.tasks i k hk
    obtain ⟨hmoving, rfl | hp⟩ := hinvolves
    · have hreset : (s.threads k.kthread).state.reset = true := by
        generalize k.stage.phase = phase at hphase hmoving
        cases phase with
        | taken me other saved | given me other => exact hphase.2.1
        | between => exact hphase.reset
        | arrived me => exact hphase.1.reset
        | _ => exact absurd hmoving (by simp [Phase.moving])
      rw [hrun] at hreset
      exact absurd hreset (by decide)
    · have hfree := (hspare u hp).1
      rw [hrun] at hfree
      exact absurd hfree (by decide)
  rw [(hsettled a).mp ha, (hsettled b).mp hb]

/-- In any interleaving of migrations: when none is in flight, every kthread is in exactly
the slot that its processor, its slot index and its hardware thread name; at any time a
kthread that can run is not in two slots. -/
theorem one_slot_each (node : Node) (hrest : AtRest s) {labels : List Label}
    (hrun : run (step node) s labels = some s') : ((∀ i, s'.tasks i = none) → ∀ u,
      (∀ a, s'.schedSlot a = u ↔
        a = ((s'.threads u).place.processorID, (s'.threads u).place.slotIndex)) ∧
      (s'.threads u).place.pHWThread = (s'.threads u).place.processorID) ∧
    ∀ a b u, s'.schedSlot a = u → s'.schedSlot b = u →
      (s'.threads u).state = SchedState.run → a = b := by
  have hconsistent : Consistent s' :=
    run_invariant (fun _ s => Consistent s) hrest.consistent
      (fun _ _ _ _ _ hkeep hstep => step_keeps hkeep hstep) hrun
  refine ⟨fun hnone u => ⟨?_, (hconsistent.named u).1⟩, ?_⟩
  · refine hconsistent.settled u fun i k hk => ?_
    exact absurd (hnone i ▸ hk) (by simp)
  · exact fun a b u ha hb hrun' => hconsistent.slot_unique ha hb hrun'

def oneProcess : Node where
  processOf _ := 0
  threadModel _ := .ltm
  hwthreadMask _ _ := true

/-- Two kthreads go to each other's hardware thread: their migrations overlap. -/
def crossing : List Label :=
  [.setaffinity 0 0 0 1, .setaffinity 1 0 6 0] ++
    (List.replicate 27 [.advance 0 true, .advance 1 true]).flatten

theorem one_slot_each_crossing :
    ∃ s', run (step oneProcess) (initHwThreads fun u => u = 0 ∨ u = 6) crossing = some s' ∧
      s'.schedSlot (1, 1) = 0 ∧ s'.schedSlot (0, 1) = 6 ∧
      (∀ u a, s'.schedSlot a = u ↔
        a = ((s'.threads u).place.processorID, (s'.threads u).place.slotIndex)) := by
  refine exists_of_map_run (fun s => (s.schedSlot (1, 1), s.schedSlot (0, 1))) (0, 6) (by decide)
    fun s' hrun hs' => ⟨congrArg Prod.fst hs', congrArg Prod.snd hs', fun u => ?_⟩
  have htasks : ∀ i, (run (step oneProcess) (initHwThreads fun u => u = 0 ∨ u = 6) crossing).map
      (fun s => s.tasks i) = some none := by
    intro i
    match i with
    | 0 => decide
    | 1 => decide
    | i + 2 => rfl
  rw [hrun] at htasks
  exact ((one_slot_each oneProcess (initHwThreads_atRest _) hrun).1
    (fun i => some.inj (htasks i)) u).1

end BgqDriver.ThreadMigration
