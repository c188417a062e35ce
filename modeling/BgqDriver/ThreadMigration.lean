import Mathlib.Algebra.GroupWithZero.Nat
import BgqDriver.EventRuns

/-!
Model of thread migration in `cnk/src/kthread.c`, with the system call that starts it
(`sched_setaffinity.cc`) and the interrupts that carry it on (`core2core.c`).

A migration is a task: a system call on one hardware thread, the move on the hardware
thread of the migrating kthread and the completion on the target. It is cut into steps at
every access to data that other hardware threads use, and the steps of any number of tasks
interleave. Registers, guard pages, watchpoints, priorities and the translation entries of
the target core are left out.
-/

namespace BgqDriver.ThreadMigration

open Function

/-- `CONFIG_MAX_HWTHREADS` hardware threads. -/
abbrev Processor := Fin 68

scoped instance neZeroProcessors : NeZero 68 := ⟨by decide⟩

/-- `CONFIG_SCHED_SLOTS_PER_HWTHREAD` slots; the last one is of the kernel thread. -/
abbrev Slot := Fin 6

/-- `NUM_KTHREADS` -/
abbrev Thread := Fin 408

abbrev Address := Processor × Slot

/-- `CONFIG_MAX_APP_THREADS` -/
def maxAppThreads : Nat := 64

/-- `CONFIG_AFFIN_SLOTS_PER_HWTHREAD` -/
def affinSlotsPerHwThread : Nat := 5

/-- `CONFIG_SCHED_KERNEL_SLOT_INDEX` -/
def kernelSlotIndex : Slot := 5

/-- The reasons why a kthread does not run. -/
structure SchedState where
  free : Bool := false
  sleep : Bool := false
  futex : Bool := false
  reset : Bool := false
  hold : Bool := false
  appExit : Bool := false
  poof : Bool := false
  suspend : Bool := false
  flock : Bool := false
  reserved : Bool := false
deriving DecidableEq, Inhabited

/-- `SCHED_STATE_RUN`: there is no reason. -/
def SchedState.run : SchedState := {}

structure Place where
  processorID : Processor
  slotIndex : Slot
  pHWThread : Processor
  pCoreState : Fin 17
deriving DecidableEq

def Place.address (p : Place) : Address := (p.processorID, p.slotIndex)

structure KThread where
  state : SchedState
  place : Place
  pAppProc : Nat
  isProcessLeader : Bool
  /-- The scheduling policy is `SCHED_COMM`. -/
  comm : Bool
  /-- The target processor and slot; `none` is a zero `dword`. -/
  migrationData : Option Address
deriving DecidableEq

inductive ThreadModel
  | ltm
  | bgp
  | eta
deriving DecidableEq

/-- What does not change while the processes run. -/
structure Node where
  processOf : Processor → Nat
  threadModel : Nat → ThreadModel
  /-- The hardware thread is one of the process's own. -/
  hwthreadMask : Nat → Processor → Bool

/-- Where a migration is in the code. The processor `me` is the one that executes it, and
`other` is the kthread whose place is taken. -/
inductive Stage
  -- `KThread_ReserveForMigration`
  | reserve
  | reserveLock
  | scan (affinitySlots : Nat) (schedSlot : Nat)
  | count (slot : Slot)
  | reserveUnlock (slot : Option Slot)
  -- `KThread_SetMigrationTarget`
  | claim (slot : Slot)
  | setSlot (slot : Slot)
  | setTarget (slot : Slot)
  -- the rest of the system call
  | copyProcess (slot : Slot)
  | request
  -- `KThread_ReleaseForMigration`
  | releaseLock (slot : Slot)
  | release (slot : Slot)
  | releaseUnlock
  -- `KThread_MoveToHwThread`
  | move (me : Processor)
  | moveLock (me : Processor) (other : Thread)
  | block (me : Processor) (other : Thread)
  | take (me : Processor) (other : Thread)
  | give (me : Processor) (other : Thread) (saved : Place)
  | store (me : Processor) (other : Thread)
  | moveUnlock (me : Processor)
  | notify
  -- `KThread_CompleteMigration`
  | completeLock (me : Processor)
  | exchange (me : Processor) (remote : Bool)
  | unreserve (me : Processor) (remote : Bool) (original : Thread) (originalID : Processor)
  | completeUnlock (me : Processor) (remote : Bool) (originalID : Processor)
  | makeAvail (me : Processor) (remote : Bool) (originalID : Processor)
  | unblockExit (me : Processor) (remote : Bool)
  | unblock (me : Processor)
  | finish
  -- an assertion has failed
  | asserted
deriving DecidableEq

structure Task where
  kthread : Thread
  target : Processor
  /-- The process of the caller. -/
  proc : Nat
  stage : Stage
  /-- The kthread that this task has reserved, for the statements about tasks. -/
  reserved : Option Thread
deriving DecidableEq

structure State where
  threads : Thread → KThread
  schedSlot : Address → Thread
  slotsAllocated : Processor → Nat
  pCommThread : Processor → Option Thread
  migrationLock : Processor → Option Nat
  tasks : Nat → Option Task

/-- The state after `KThread_InitHwThread` on every hardware thread, with the kthreads that
are already in use. -/
def initHwThreads (used : Thread → Bool) : State where
  threads u :=
    { state :=
        if u.val % 6 = 5 ∨ used u then SchedState.run else { SchedState.run with free := true }
      place :=
        { processorID := ⟨u.val / 6, by omega⟩
          slotIndex := ⟨u.val % 6, by omega⟩
          pHWThread := ⟨u.val / 6, by omega⟩
          pCoreState := ⟨u.val / 6 / 4, by omega⟩ }
      pAppProc := 0
      isProcessLeader := false
      comm := false
      migrationData := none }
  schedSlot a := ⟨a.2.val + a.1.val * 6, by omega⟩
  slotsAllocated _ := 0
  pCommThread _ := none
  migrationLock _ := none
  tasks _ := none

def State.setThread (s : State) (t : Thread) (f : KThread → KThread) : State :=
  { s with threads := update s.threads t (f (s.threads t)) }

def State.setTask (s : State) (i : Nat) (k : Option Task) : State :=
  { s with tasks := update s.tasks i k }

/-- `Kernel_Lock`; a lock that is held blocks the task. -/
def State.lock (s : State) (me : Processor) (i : Nat) : Option State :=
  if s.migrationLock me = none then
    some { s with migrationLock := update s.migrationLock me (some i) }
  else none

def State.unlock (s : State) (me : Processor) : State :=
  { s with migrationLock := update s.migrationLock me none }

/-- `Sched_Block` for `SCHED_STATE_RESET`. Another hardware thread is asked by an interrupt. -/
def schedBlockReset (me : Processor) (k : KThread) : KThread :=
  if k.place.pHWThread = me then { k with state := { k.state with reset := true } } else k

/-- `Sched_Unblock` for `SCHED_STATE_RESET` -/
def schedUnblockReset (me : Processor) (k : KThread) : KThread :=
  if k.place.pHWThread = me then { k with state := { k.state with reset := false } } else k

/-- `Sched_Unblock` for `SCHED_STATE_APPEXIT` -/
def schedUnblockExit (me : Processor) (k : KThread) : KThread :=
  if k.place.pHWThread = me then { k with state := { k.state with appExit := false } } else k

def affinitySlots (node : Node) (s : State) (proc : Nat) (target : Processor) : Nat :=
  if node.threadModel proc = .bgp then if (s.pCommThread target).isSome then 2 else 1
  else affinSlotsPerHwThread

/-- The checks of `sc_sched_setaffinity` before it reserves a kthread. -/
def accepts (node : Node) (s : State) (proc : Nat) (t : Thread) (target : Processor) : Bool :=
  !(s.threads t).state.free && (s.threads t).place.slotIndex != kernelSlotIndex &&
    !(s.threads t).isProcessLeader && decide (target.val < maxAppThreads) &&
    (node.hwthreadMask proc target || node.threadModel proc == .eta) &&
    (s.threads t).place.processorID != target

/-- The next step of a task. The answer `copied` is that of `vmm_copyProcessToOtherMMU`,
for a task that asks it. -/
def advance (node : Node) (s : State) (i : Nat) (k : Task) (copied : Bool) : Option State :=
  let t := k.kthread
  let goto (s : State) (stage : Stage) : State := s.setTask i (some { k with stage := stage })
  match k.stage with
  | .reserve =>
    if s.slotsAllocated k.target < affinitySlots node s k.proc k.target then
      some (goto s .reserveLock)
    else some (s.setTask i none)
  | .reserveLock => do
    let s ← s.lock k.target i
    some (goto s (.scan (affinitySlots node s k.proc k.target) 0))
  | .scan affinitySlots schedSlot =>
    if h : schedSlot < affinitySlots ∧ schedSlot < 6 then
      let slot : Slot := ⟨schedSlot, h.2⟩
      let other := s.schedSlot (k.target, slot)
      if (s.threads other).state.free = true ∧ (s.threads other).state.reserved = false then
        let s := s.setThread other fun o => { o with state := { o.state with reserved := true } }
        some (s.setTask i (some { k with stage := .count slot, reserved := some other }))
      else some (goto s (.scan affinitySlots (schedSlot + 1)))
    else some (goto s (.reserveUnlock none))
  | .count slot =>
    let s := { s with
      slotsAllocated := update s.slotsAllocated k.target (s.slotsAllocated k.target + 1) }
    some (goto s (.reserveUnlock (some slot)))
  | .reserveUnlock (some slot) => some (goto (s.unlock k.target) (.claim slot))
  | .reserveUnlock none => some ((s.unlock k.target).setTask i none)
  | .claim slot =>
    if (s.threads t).migrationData = none then
      some (goto (s.setThread t fun u => { u with migrationData := some (0, 0) }) (.setSlot slot))
    else some (goto s (.releaseLock slot))
  | .setSlot slot =>
    let s := s.setThread t fun u =>
      { u with migrationData := u.migrationData.map fun d => (d.1, slot) }
    some (goto s (.setTarget slot))
  | .setTarget slot =>
    let s := s.setThread t fun u =>
      { u with migrationData := u.migrationData.map fun d => (k.target, d.2) }
    some (goto s (.copyProcess slot))
  | .copyProcess slot =>
    if node.hwthreadMask k.proc k.target || copied then some (goto s .request)
    else some (goto s (.releaseLock slot))
  | .request => some (goto s (.move (s.threads t).place.processorID))
  | .releaseLock slot => do
    let s ← s.lock k.target i
    some (goto s (.release slot))
  | .release slot =>
    let other := s.schedSlot (k.target, slot)
    if (s.threads other).state.reserved then
      let s := s.setThread other fun o => { o with state := { o.state with reserved := false } }
      let s := { s with
        slotsAllocated := update s.slotsAllocated k.target (s.slotsAllocated k.target - 1) }
      some (s.setTask i (some { k with stage := .releaseUnlock, reserved := none }))
    else some (s.setTask i (some { k with stage := .releaseUnlock, reserved := none }))
  | .releaseUnlock => some ((s.unlock k.target).setTask i none)
  | .move me =>
    match (s.threads t).migrationData with
    | none => some (goto s .asserted)
    | some (newHwthread, newSlot) =>
      if newHwthread = me then
        some ((s.setThread t fun u => { u with migrationData := none }).setTask i none)
      else
        let other := s.schedSlot (newHwthread, newSlot)
        if (s.threads t).place.processorID = me ∧ (s.threads other).state.reserved = true then
          some (goto s (.moveLock me other))
        else some (goto s .asserted)
  | .moveLock me other => do
    let s ← s.lock me i
    some (goto s (.block me other))
  | .block me other => some (goto (s.setThread t (schedBlockReset me)) (.take me other))
  | .take me other =>
    let saved := (s.threads t).place
    some (goto (s.setThread t fun u => { u with place := (s.threads other).place })
      (.give me other saved))
  | .give me other saved =>
    let s := s.setThread other fun o => { o with place := saved, pAppProc := node.processOf me }
    let s :=
      if (s.threads t).comm then
        { s with pCommThread := update s.pCommThread saved.pHWThread none }
      else s
    some (goto s (.store me other))
  | .store me other =>
    let s := { s with
      schedSlot := update s.schedSlot (me, (s.threads other).place.slotIndex) other }
    some (goto s (.moveUnlock me))
  | .moveUnlock me => some (goto (s.unlock me) .notify)
  | .notify => some (goto s (.completeLock (s.threads t).place.processorID))
  | .completeLock me => do
    let s ← s.lock me i
    some (goto s (.exchange me ((s.threads t).pAppProc != node.processOf me)))
  | .exchange me remote =>
    let slot := (s.threads t).place.slotIndex
    let original := s.schedSlot (me, slot)
    let s := { s with
      schedSlot := update s.schedSlot (me, slot) t
      pCommThread :=
        if (s.threads t).comm then update s.pCommThread me (some t) else s.pCommThread }
    some (goto s (.unreserve me remote original (s.threads original).place.processorID))
  | .unreserve me remote original originalID =>
    if (s.threads original).state.reserved then
      let s := s.setThread original fun o => { o with
        state := { o.state with
          reserved := false
          appExit := o.state.appExit && !remote } }
      some (s.setTask i
        (some { k with stage := .completeUnlock me remote originalID, reserved := none }))
    else some (goto s .asserted)
  | .completeUnlock me remote originalID =>
    some (goto (s.unlock me) (.makeAvail me remote originalID))
  | .makeAvail me remote originalID =>
    let s := { s with
      slotsAllocated := update s.slotsAllocated originalID (s.slotsAllocated originalID - 1) }
    some (goto s (.unblockExit me remote))
  | .unblockExit me remote =>
    some (goto (if remote then s.setThread t (schedUnblockExit me) else s) (.unblock me))
  | .unblock me => some (goto (s.setThread t (schedUnblockReset me)) .finish)
  | .finish => some ((s.setThread t fun u => { u with migrationData := none }).setTask i none)
  | .asserted => none

inductive Label
  /-- A thread of the process calls `sched_setaffinity`. -/
  | setaffinity (task : Nat) (proc : Nat) (kthread : Thread) (target : Processor)
  /-- A task takes its next step. -/
  | advance (task : Nat) (copied : Bool)
deriving DecidableEq

def step (node : Node) (s : State) : Label → Option State
  | .setaffinity i proc t target =>
    if s.tasks i = none then
      if accepts node s proc t target then
        some (s.setTask i (some ⟨t, target, proc, .reserve, none⟩))
      else some s
    else none
  | .advance i copied => (s.tasks i).bind fun k => advance node s i k copied

end BgqDriver.ThreadMigration
