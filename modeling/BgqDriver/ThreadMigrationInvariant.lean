import BgqDriver.ThreadMigration

/-!
What holds between the steps of migrations. While a kthread is on its way, the kthread
whose place it takes sits in the slots of both hardware threads. Every phase of a task says
where these two are, and different tasks have different ones.
-/

namespace BgqDriver.ThreadMigration

open Function Option

variable {s s' s1 : State} {i j : Nat} {k l : Task} {t u p : Thread}

inductive Phase
  | opening
  | reserved (slot : Slot)
  | claimed (slot : Slot)
  | slotSet (slot : Slot)
  | ready (slot : Slot)
  | armed
  | sent (me : Processor)
  | chosen (me : Processor) (other : Thread)
  | blocked (me : Processor) (other : Thread)
  | taken (me : Processor) (other : Thread) (saved : Place)
  | given (me : Processor) (other : Thread)
  | between
  | arrived (me : Processor)
  | exchanged (original : Thread)
  | ending
  | failed

def Stage.phase : Stage → Phase
  | .reserve => .opening
  | .reserveLock => .opening
  | .scan _ _ => .opening
  | .count slot => .reserved slot
  | .reserveUnlock none => .opening
  | .reserveUnlock (some slot) => .reserved slot
  | .claim slot => .reserved slot
  | .setSlot slot => .claimed slot
  | .setTarget slot => .slotSet slot
  | .copyProcess slot => .ready slot
  | .request => .armed
  | .releaseLock slot => .reserved slot
  | .release slot => .reserved slot
  | .releaseUnlock => .opening
  | .move me => .sent me
  | .moveLock me other => .chosen me other
  | .block me other => .chosen me other
  | .take me other => .blocked me other
  | .give me other saved => .taken me other saved
  | .store me other => .given me other
  | .moveUnlock _ => .between
  | .notify => .between
  | .completeLock me => .arrived me
  | .exchange me _ => .arrived me
  | .unreserve _ _ original _ => .exchanged original
  | .completeUnlock _ _ _ => .ending
  | .makeAvail _ _ _ => .ending
  | .unblockExit _ _ => .ending
  | .unblock _ => .ending
  | .finish => .ending
  | .asserted => .failed

def Phase.owns : Phase → Bool
  | .opening => false
  | .reserved _ => false
  | _ => true

def Phase.moving : Phase → Bool
  | .taken _ _ _ => true
  | .given _ _ => true
  | .between => true
  | .arrived _ => true
  | _ => false

theorem owns_of_moving {phase : Phase} (h : phase.moving = true) : phase.owns = true := by
  cases phase with
  | opening | reserved slot => exact absurd h (by simp [Phase.moving])
  | _ => rfl

def State.address (s : State) (u : Thread) : Address := (s.threads u).place.address

def Settled (s : State) (u : Thread) : Prop := ∀ a, s.schedSlot a = u ↔ a = s.address u

def Place.Named (p : Place) : Prop :=
  p.pHWThread = p.processorID ∧ p.pCoreState.val = p.processorID.val / 4

def HoldsAt (s : State) (k : Task) (slot : Slot) : Prop :=
  ∃ p, k.reserved = some p ∧ s.address p = (k.target, slot)

/-- The kthread on its way is in no slot, and the one whose place it takes is in two. -/
structure Between (s : State) (t : Thread) (reserved : Option Thread) : Prop where
  reset : (s.threads t).state.reset = true
  away : ∀ a, s.schedSlot a ≠ t
  twice : ∃ p, reserved = some p ∧ s.address p ≠ s.address t ∧
    ∀ a, s.schedSlot a = p ↔ a = s.address p ∨ a = s.address t

def PhaseOk (s : State) (k : Task) : Phase → Prop
  | .opening => True
  | .reserved slot => HoldsAt s k slot
  | .claimed slot => HoldsAt s k slot
  | .slotSet slot => HoldsAt s k slot ∧
      ∃ cpu, (s.threads k.kthread).migrationData = some (cpu, slot)
  | .ready slot => HoldsAt s k slot ∧
      (s.threads k.kthread).migrationData = some (k.target, slot)
  | .armed => ∃ slot, HoldsAt s k slot ∧
      (s.threads k.kthread).migrationData = some (k.target, slot)
  | .sent me => (∃ slot, HoldsAt s k slot ∧
      (s.threads k.kthread).migrationData = some (k.target, slot)) ∧
      (s.threads k.kthread).place.processorID = me
  | .chosen me other => k.reserved = some other ∧ (s.threads k.kthread).place.processorID = me
  | .blocked me other => k.reserved = some other ∧
      (s.threads k.kthread).place.processorID = me ∧ (s.threads k.kthread).state.reset = true
  | .taken me other saved => k.reserved = some other ∧ (s.threads k.kthread).state.reset = true ∧
      saved.processorID = me ∧ saved.Named ∧
      (∀ a, s.schedSlot a = k.kthread ↔ a = saved.address) ∧
      (∀ a, s.schedSlot a = other ↔ a = s.address k.kthread)
  | .given me other => k.reserved = some other ∧ (s.threads k.kthread).state.reset = true ∧
      (s.threads other).place.processorID = me ∧
      (∀ a, s.schedSlot a = k.kthread ↔ a = s.address other) ∧
      (∀ a, s.schedSlot a = other ↔ a = s.address k.kthread)
  | .between => Between s k.kthread k.reserved
  | .arrived me => Between s k.kthread k.reserved ∧
      (s.threads k.kthread).place.processorID = me
  | .exchanged original => k.reserved = some original
  | .ending => True
  | .failed => False

structure TaskOk (s : State) (k : Task) : Prop where
  busy : (s.threads k.kthread).state.free = false
  spare : ∀ p, k.reserved = some p →
    (s.threads p).state.free = true ∧ (s.threads p).state.reserved = true
  claimed : k.stage.phase.owns = true → (s.threads k.kthread).migrationData.isSome = true
  phase : PhaseOk s k k.stage.phase

def Task.Involves (k : Task) (u : Thread) : Prop :=
  k.stage.phase.moving = true ∧ (k.kthread = u ∨ k.reserved = some u)

structure Consistent (s : State) : Prop where
  named : ∀ u, (s.threads u).place.Named
  settled : ∀ u, (∀ i k, s.tasks i = some k → ¬ k.Involves u) → Settled s u
  tasks : ∀ i k, s.tasks i = some k → TaskOk s k
  owners : ∀ i j k l, s.tasks i = some k → s.tasks j = some l → k.stage.phase.owns = true →
    l.stage.phase.owns = true → k.kthread = l.kthread → i = j
  holders : ∀ i j k l p, s.tasks i = some k → s.tasks j = some l → k.reserved = some p →
    l.reserved = some p → i = j

theorem TaskOk.frame (h : TaskOk s k)
    (hfree : ∀ u, (s1.threads u).state.free = (s.threads u).state.free)
    (hkthread : k.stage.phase.owns = true → s1.threads k.kthread = s.threads k.kthread)
    (hreserved : ∀ p, k.reserved = some p → s1.threads p = s.threads p)
    (hslots : ∀ u, k.Involves u → ∀ a, s1.schedSlot a = u ↔ s.schedSlot a = u) : TaskOk s1 k := by
  obtain ⟨hbusy, hspare, hclaimed, hphase⟩ := h
  refine ⟨(hfree _).trans hbusy, ?_, ?_, ?_⟩
  · intro p hp
    rw [hreserved p hp]
    exact hspare p hp
  · intro howns
    rw [hkthread howns]
    exact hclaimed howns
  · have hholds : ∀ slot, HoldsAt s k slot → HoldsAt s1 k slot := by
      rintro slot ⟨p, hp, haddress⟩
      refine ⟨p, hp, ?_⟩
      rw [State.address, hreserved p hp]
      exact haddress
    have hself : k.stage.phase.moving = true →
        ∀ a, s1.schedSlot a = k.kthread ↔ s.schedSlot a = k.kthread :=
      fun hmoving => hslots _ ⟨hmoving, .inl rfl⟩
    have hother : k.stage.phase.moving = true → ∀ p, k.reserved = some p →
        ∀ a, s1.schedSlot a = p ↔ s.schedSlot a = p :=
      fun hmoving p hp => hslots _ ⟨hmoving, .inr hp⟩
    have hbetween : k.stage.phase.moving = true → Between s k.kthread k.reserved →
        Between s1 k.kthread k.reserved := by
      rintro hmoving ⟨hreset, haway, p, hp, hne, htwice⟩
      have hsame := hkthread (owns_of_moving hmoving)
      refine ⟨by rw [hsame]; exact hreset, ?_, p, hp, ?_, ?_⟩
      · exact fun a ha => haway a ((hself hmoving a).mp ha)
      · rw [State.address, State.address, hreserved p hp, hsame]
        exact hne
      · intro a
        rw [State.address, State.address, hreserved p hp, hsame]
        exact (hother hmoving p hp a).trans (htwice a)
    generalize k.stage.phase = phase at *
    cases phase with
    | opening => trivial
    | reserved slot | claimed slot => exact hholds slot hphase
    | slotSet slot | ready slot =>
      refine ⟨hholds slot hphase.1, ?_⟩
      rw [hkthread rfl]
      exact hphase.2
    | armed =>
      obtain ⟨slot, hat, hdata⟩ := hphase
      refine ⟨slot, hholds slot hat, ?_⟩
      rw [hkthread rfl]
      exact hdata
    | sent me =>
      obtain ⟨⟨slot, hat, hdata⟩, hme⟩ := hphase
      refine ⟨⟨slot, hholds slot hat, ?_⟩, ?_⟩
      · rw [hkthread rfl]
        exact hdata
      · rw [hkthread rfl]
        exact hme
    | chosen me other | blocked me other =>
      refine ⟨hphase.1, ?_⟩
      rw [hkthread rfl]
      exact hphase.2
    | taken me other saved =>
      obtain ⟨hp, hreset, hme, hnamed, hseat, hseat'⟩ := hphase
      refine ⟨hp, ?_, hme, hnamed, ?_, ?_⟩
      · rw [hkthread rfl]
        exact hreset
      · exact fun a => (hself rfl a).trans (hseat a)
      · intro a
        rw [State.address, hkthread rfl]
        exact (hother rfl other hp a).trans (hseat' a)
    | given me other =>
      obtain ⟨hp, hreset, hme, hseat, hseat'⟩ := hphase
      refine ⟨hp, ?_, ?_, ?_, ?_⟩
      · rw [hkthread rfl]
        exact hreset
      · rw [hreserved other hp]
        exact hme
      · intro a
        rw [State.address, hreserved other hp]
        exact (hself rfl a).trans (hseat a)
      · intro a
        rw [State.address, hkthread rfl]
        exact (hother rfl other hp a).trans (hseat' a)
    | between => exact hbetween rfl hphase
    | arrived me =>
      refine ⟨hbetween rfl hphase.1, ?_⟩
      rw [hkthread rfl]
      exact hphase.2
    | exchanged original => exact hphase
    | ending => trivial
    | failed => exact hphase

section SetThread

variable (s) {f : KThread → KThread}

theorem State.setThread_self (t : Thread) (f : KThread → KThread) :
    (s.setThread t f).threads t = f (s.threads t) :=
  update_self ..

theorem State.setThread_of_ne (f : KThread → KThread) (h : u ≠ t) :
    (s.setThread t f).threads u = s.threads u :=
  update_of_ne h _ _

theorem State.setThread_congr {α : Type} (g : KThread → α) (hg : ∀ k, g (f k) = g k) (u : Thread) :
    g ((s.setThread t f).threads u) = g (s.threads u) := by
  by_cases hu : u = t
  · rw [hu, s.setThread_self, hg]
  · rw [s.setThread_of_ne f hu]

end SetThread

def Apart (s : State) (i : Nat) (u : Thread) : Prop :=
  ∀ j l, j ≠ i → s.tasks j = some l →
    (l.stage.phase.owns = true → l.kthread ≠ u) ∧ l.reserved ≠ some u

/-- A step of task `i` leaves the other tasks and their kthreads as they are. -/
structure Frame (s s1 : State) (i : Nat) : Prop where
  tasks : s1.tasks = s.tasks
  free : ∀ u, (s1.threads u).state.free = (s.threads u).state.free
  threads : ∀ u, s1.threads u = s.threads u ∨ Apart s i u

/-- Task `i` can go on as `k`. -/
structure Fits (s s1 : State) (i : Nat) (k : Task) : Prop where
  ok : TaskOk s1 k
  owner : k.stage.phase.owns = true → Apart s i k.kthread
  holder : ∀ p, k.reserved = some p → Apart s i p

theorem Frame.of_eq (htasks : s1.tasks = s.tasks) (hthreads : s1.threads = s.threads) :
    Frame s s1 i :=
  ⟨htasks, fun u => by rw [hthreads], fun u => .inl (congrFun hthreads u)⟩

theorem Frame.setThread {f : KThread → KThread} (htasks : s1.tasks = s.tasks)
    (hthreads : s1.threads = (s.setThread t f).threads) (hapart : Apart s i t)
    (hfree : ∀ k, (f k).state.free = k.state.free) : Frame s s1 i := by
  refine ⟨htasks, fun u => ?_, fun u => ?_⟩ <;> rw [hthreads]
  · exact s.setThread_congr (·.state.free) hfree u
  · by_cases hu : u = t
    · exact .inr (hu ▸ hapart)
    · exact .inl (s.setThread_of_ne f hu)

theorem Task.not_involves (hmoving : k.stage.phase.moving = false) : ¬ k.Involves u := by
  simp [Task.Involves, hmoving]

section

variable (h : Consistent s)
include h

theorem Consistent.reserved_ne (hk : s.tasks i = some k)
    (hl : s.tasks j = some l) (hp : k.reserved = some p) : l.kthread ≠ p := by
  rintro rfl
  have hfree := ((h.tasks i k hk).spare _ hp).1
  rw [(h.tasks j l hl).busy] at hfree
  exact absurd hfree (by simp)

theorem Consistent.apart_reserved (hk : s.tasks i = some k)
    (hp : k.reserved = some p) : Apart s i p := by
  intro j l hj hl
  refine ⟨fun _ => h.reserved_ne hk hl hp, fun hp' => hj ?_⟩
  exact h.holders j i l k p hl hk hp' hp

theorem Consistent.apart_kthread (hk : s.tasks i = some k)
    (howns : k.stage.phase.owns = true) : Apart s i k.kthread := by
  intro j l hj hl
  refine ⟨fun howns' heq => hj ?_, fun hp => ?_⟩
  · exact h.owners j i l k hl hk howns' howns heq
  · exact h.reserved_ne hl hk hp rfl

theorem Consistent.settled_of_apart (hi : s.tasks i = some k)
    (hmoving : k.stage.phase.moving = false) (hapart : Apart s i u) : Settled s u := by
  refine h.settled u fun j l hl hinvolves => ?_
  by_cases hj : j = i
  · subst hj
    obtain rfl := some.inj (hi.symm.trans hl)
    exact Task.not_involves hmoving hinvolves
  · rcases hinvolves with ⟨hmoving', hu | hu⟩
    · exact (hapart j l hj hl).1 (owns_of_moving hmoving') hu
    · exact (hapart j l hj hl).2 hu

theorem Consistent.change {k0 : Option Task} (hi : s.tasks i = k0) (k' : Option Task)
    (hframe : Frame s s1 i)
    (hslots : ∀ a, s1.schedSlot a = s.schedSlot a ∨
      Apart s i (s.schedSlot a) ∧ Apart s i (s1.schedSlot a))
    (hnamed : ∀ u, (s1.threads u).place.Named)
    (hsettled : ∀ u, (∃ l, k' = some l ∧ l.Involves u) ∨ Settled s1 u ∨
      (∀ k ∈ k0, ¬ k.Involves u) ∧ (Settled s u → Settled s1 u))
    (hfits : ∀ l, k' = some l → Fits s s1 i l) : Consistent (s1.setTask i k') := by
  have htask : ∀ j l, (s1.setTask i k').tasks j = some l ↔
      if j = i then k' = some l else s.tasks j = some l := by
    intro j l
    simp only [State.setTask, hframe.tasks, update_apply]
    split <;> rfl
  refine ⟨hnamed, ?_, ?_, ?_, ?_⟩
  · intro u hu
    rcases hsettled u with ⟨l, hl, hinvolves⟩ | hnow | ⟨hnot, hkeep⟩
    · exact absurd hinvolves (hu i l (by simpa [htask] using hl))
    · exact hnow
    · refine hkeep (h.settled u fun j l hl => ?_)
      by_cases hj : j = i
      · exact hnot l (hi.symm.trans (hj ▸ hl))
      · exact hu j l (by simpa [htask, hj] using hl)
  · intro j l hl
    by_cases hj : j = i <;> simp only [htask, hj, if_true, if_false] at hl
    · exact (hfits l hl).ok.frame (fun _ => rfl) (fun _ => rfl) (fun _ _ => rfl)
        fun _ _ _ => Iff.rfl
    · refine (h.tasks j l hl).frame hframe.free ?_ ?_ ?_
      · intro howns
        exact (hframe.threads l.kthread).resolve_right fun hapart => (hapart j l hj hl).1 howns rfl
      · intro p hp
        exact (hframe.threads p).resolve_right fun hapart => (hapart j l hj hl).2 hp
      · rintro u ⟨hmoving, hu⟩ a
        have hapart : ∀ v, Apart s i v → v ≠ u := by
          rintro v hv rfl
          rcases hu with hu | hu
          · exact (hv j l hj hl).1 (owns_of_moving hmoving) hu
          · exact (hv j l hj hl).2 hu
        rcases hslots a with hsame | ⟨hold, hnew⟩
        · exact iff_of_eq (congrArg (· = u) hsame)
        · exact ⟨fun ha => absurd ha (hapart _ hnew), fun ha => absurd ha (hapart _ hold)⟩
  · intro j j' l l' hl hl' howns howns' heq
    by_cases hj : j = i <;> by_cases hj' : j' = i <;>
      simp only [htask, hj, hj', if_true, if_false] at hl hl'
    · rw [hj, hj']
    · exact absurd heq.symm (((hfits l hl).owner howns j' l' hj' hl').1 howns')
    · exact absurd heq (((hfits l' hl').owner howns' j l hj hl).1 howns)
    · exact h.owners j j' l l' hl hl' howns howns' heq
  · intro j j' l l' p hl hl' hp hp'
    by_cases hj : j = i <;> by_cases hj' : j' = i <;>
      simp only [htask, hj, hj', if_true, if_false] at hl hl'
    · rw [hj, hj']
    · exact absurd hp' ((hfits l hl).holder p hp j' l' hj' hl').2
    · exact absurd hp ((hfits l' hl').holder p hp' j l hj hl).2
    · exact h.holders j j' l l' p hl hl' hp hp'

theorem Consistent.touch (hi : s.tasks i = some k) (k' : Option Task) (hframe : Frame s s1 i)
    (hslots : s1.schedSlot = s.schedSlot)
    (hplace : ∀ u, (s1.threads u).place = (s.threads u).place)
    (hmoving : ∀ u, k.Involves u → ∃ l, k' = some l ∧ l.Involves u)
    (hfits : ∀ l, k' = some l → Fits s s1 i l) : Consistent (s1.setTask i k') := by
  refine h.change hi k' hframe (fun a => .inl (congrFun hslots a)) ?_ ?_ hfits
  · intro u
    rw [hplace]
    exact h.named u
  · intro u
    by_cases hu : k.Involves u
    · exact .inl (hmoving u hu)
    · refine .inr (.inr ⟨by simpa using hu, fun hsettled a => ?_⟩)
      rw [hslots, State.address, hplace]
      exact hsettled a

end

variable {stage : Stage}

section

variable (h : Consistent s) (hi : s.tasks i = some k)
include h hi

theorem Consistent.goto (hstep : some (s1.setTask i (some { k with stage := stage })) = some s')
    (htasks : s1.tasks = s.tasks) (hslots : s1.schedSlot = s.schedSlot)
    (hthreads : s1.threads = s.threads)
    (howns : stage.phase.owns = true → k.stage.phase.owns = true)
    (hmoving : k.stage.phase.moving = true → stage.phase.moving = true)
    (hphase : PhaseOk s { k with stage := stage } stage.phase) : Consistent s' := by
  cases hstep
  obtain ⟨hbusy, hspare, hclaimed, -⟩ := h.tasks i k hi
  refine h.touch hi _ (.of_eq htasks hthreads) hslots (fun u => by rw [hthreads]) ?_ ?_
  · exact fun u hu => ⟨_, rfl, hmoving hu.1, hu.2⟩
  · rintro l ⟨⟩
    have hok : TaskOk s { k with stage := stage } :=
      ⟨hbusy, hspare, fun howns' => hclaimed (howns howns'), hphase⟩
    refine ⟨hok.frame ?_ ?_ ?_ ?_, fun howns' => ?_, fun p hp => h.apart_reserved hi hp⟩
    · exact fun u => by rw [hthreads]
    · exact fun _ => congrFun hthreads _
    · exact fun p _ => congrFun hthreads p
    · exact fun u _ a => by rw [hslots]
    · have hapart := h.apart_kthread hi (howns howns')
      exact hapart

theorem Consistent.taskOk_setThread
    {f : KThread → KThread} (hfree : ∀ u, (f u).state.free = u.state.free)
    (hclaimed : stage.phase.owns = true → (f (s.threads k.kthread)).migrationData.isSome = true)
    (hphase : PhaseOk (s.setThread k.kthread f) { k with stage := stage } stage.phase) :
    TaskOk (s.setThread k.kthread f) { k with stage := stage } := by
  obtain ⟨hbusy, hspare, -, -⟩ := h.tasks i k hi
  refine ⟨(s.setThread_congr (·.state.free) hfree _).trans hbusy, ?_, ?_, hphase⟩
  · intro p hp
    rw [s.setThread_of_ne f (h.reserved_ne hi hi hp).symm]
    exact hspare p hp
  · intro howns
    rw [s.setThread_self]
    exact hclaimed howns

theorem Consistent.own {f : KThread → KThread}
    (hstep : some ((s.setThread k.kthread f).setTask i (some { k with stage := stage })) = some s')
    (hkeeps : ∀ u, (f u).place = u.place ∧ (f u).state.free = u.state.free)
    (hapart : Apart s i k.kthread) (hmoving : k.stage.phase.moving = false)
    (hclaimed : stage.phase.owns = true →
      (f (s.threads k.kthread)).migrationData.isSome = true)
    (hphase : PhaseOk (s.setThread k.kthread f) { k with stage := stage } stage.phase) :
    Consistent s' := by
  cases hstep
  have hfree := fun u => (hkeeps u).2
  refine h.touch hi _ (.setThread rfl rfl hapart hfree) rfl
    (s.setThread_congr (·.place) fun u => (hkeeps u).1)
    (fun u hu => absurd hu (Task.not_involves hmoving)) ?_
  rintro l ⟨⟩
  exact ⟨h.taskOk_setThread hi hfree hclaimed hphase, fun _ => hapart,
    fun p hp => h.apart_reserved hi hp⟩

theorem Consistent.leave (hstep : some (s1.setTask i none) = some s') (hframe : Frame s s1 i)
    (hslots : s1.schedSlot = s.schedSlot)
    (hplace : ∀ u, (s1.threads u).place = (s.threads u).place)
    (hmoving : k.stage.phase.moving = false) : Consistent s' := by
  cases hstep
  exact h.touch hi none hframe hslots hplace (fun u hu => absurd hu (Task.not_involves hmoving))
    (by simp)

end

end BgqDriver.ThreadMigration
