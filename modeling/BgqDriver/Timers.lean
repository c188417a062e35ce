import Mathlib.Algebra.Group.Nat.Defs
import BgqDriver.EventRuns

/-!
Model of the user decrementer of a hardware thread: `cnk/src/timers.c` with the timed waits of
`futex.c`, `syscalls/futex.cc`, the end of `Signal_Deliver` in `signal.c` and
`IPI_enableMessageChecker` in `flih.c`.

The time base is read once in an operation and the decrementer is written at that time. Which
threads a futex wake takes from the queues is decided by others; what it does to a thread of
this hardware thread is a step.
-/

namespace BgqDriver.Timers

def wordRange : Nat := 2 ^ 64

def maxInterval : Nat := 0xFFFFFFFF

/-- `CONFIG_IPIMESSAGECHECKER_INTERVAL`, in microseconds -/
def checkerInterval : Nat := 20000

def sigkill : Nat := 9

/-- `KThread_t`. A timeout of zero is none. -/
structure Thread where
  sleepTimeout : Nat
  futexTimeout : Nat
  /-- `SCHED_STATE_SLEEP` -/
  sleeping : Bool
  /-- `SCHED_STATE_FUTEX` -/
  waiting : Bool
  pendingSignals : List Nat
  maskedSignals : List Nat
  /-- The signals that the process ignores -/
  ignoredSignals : List Nat
deriving DecidableEq

/-- `HWThreadState_t` with the time base and the decrementer -/
structure HwThread where
  now : Nat
  /-- `Kernel_Config.FreqMHz` -/
  freqMHz : Nat
  /-- The threads of the slots before the one of the kernel -/
  threads : List Thread
  udecrExpiration : Nat
  /-- The time at which the decrementer fires; with zero in it, it does not count. -/
  udec : Option Nat
  ipiMessageCheckerExpiration : Nat
deriving DecidableEq

/-- `Timer_disableUDECRwakeup` -/
def HwThread.disableUDECRwakeup (h : HwThread) : HwThread :=
  { h with udecrExpiration := 0, udec := none }

/-- `Timer_enableUDECRwakeup` and `Timer_enableFutexTimeout` -/
def HwThread.enableUDECRwakeup (h : HwThread) (expiration : Nat) : HwThread :=
  let requested := (expiration + (wordRange - h.now)) % wordRange
  let interval := if requested / 2 ^ 32 ≠ 0 then maxInterval else requested
  { h with
    udecrExpiration := (h.now + interval) % wordRange
    udec := if interval = 0 then none else some (h.now + interval) }

/-- Cycles of a time as the system calls compute them -/
def cycles (freqMHz : Nat) (seconds nanoseconds : Int) : Nat :=
  (((seconds % wordRange).toNat * 1000000 + (nanoseconds % wordRange).toNat / 1000) * freqMHz) %
    wordRange

def HwThread.modifyThread (h : HwThread) (slot : Nat) (f : Thread → Thread) : HwThread :=
  { h with threads := h.threads.modify slot f }

/-- `Timer_NanoSleep` -/
def HwThread.nanoSleep (h : HwThread) (slot : Nat) (seconds nanoseconds : Int) : HwThread :=
  if nanoseconds < 0 ∨ 1000000000 ≤ nanoseconds then h
  else
    let expiration := (h.now + cycles h.freqMHz seconds nanoseconds) % wordRange
    if expiration ≤ h.now then h
    else
      let h := h.modifyThread slot fun t => { t with sleepTimeout := expiration, sleeping := true }
      if h.udecrExpiration = 0 ∨ expiration < h.udecrExpiration then h.enableUDECRwakeup expiration
      else h

/-- The timeout that `sc_futex` passes on -/
def HwThread.futexTimeout (h : HwThread) : Option (Int × Int) → Nat
  | none => 0
  | some (seconds, nanoseconds) => (cycles h.freqMHz seconds nanoseconds + h.now) % wordRange

/-- `Futex_Wait`. The futex may have another value, and there may be no free table entry. -/
def HwThread.futexWait (h : HwThread) (slot : Nat) (sameValue entry : Bool)
    (timespec : Option (Int × Int)) : HwThread :=
  let timeout := h.futexTimeout timespec
  if !sameValue then h
  else if !entry then h.modifyThread slot fun t => { t with waiting := true }
  else
    let h := h.modifyThread slot fun t => { t with futexTimeout := timeout, waiting := true }
    if timeout = 0 then h
    else h.enableUDECRwakeup (if timeout < h.now then (h.now + 1) % wordRange else timeout)

/-- What `Futex_WakeQueue` does to a thread -/
def HwThread.futexWake (h : HwThread) (slot : Nat) : HwThread :=
  h.modifyThread slot fun t => { t with futexTimeout := 0 }

/-- `Sched_Unblock` after a wake -/
def HwThread.futexUnblock (h : HwThread) (slot : Nat) : HwThread :=
  h.modifyThread slot fun t => { t with waiting := false }

/-- `Futex_Interrupt`, and `Futex_Timeout` with another return value -/
def Thread.futexInterrupt (t : Thread) : Thread := { t with futexTimeout := 0, waiting := false }

/-- What `Timer_Interrupt` and `Timer_Awaken` do to the thread -/
def Thread.awaken (t : Thread) : Thread := { t with sleepTimeout := 0, sleeping := false }

/-- `Timer_Interrupt` -/
def HwThread.timerInterrupt (h : HwThread) (slot : Nat) : HwThread :=
  (h.modifyThread slot Thread.awaken).disableUDECRwakeup

def Thread.addSignal (t : Thread) (sig : Nat) : Thread :=
  { t with pendingSignals := if sig = sigkill then [sig] else t.pendingSignals.insert sig }

/-- A signal of the thread is pending and not masked. -/
def Thread.signalled (t : Thread) : Bool :=
  t.pendingSignals.any (!t.maskedSignals.contains ·)

/-- `Signal_Deliver` once it has found the thread -/
def HwThread.signalDeliver (h : HwThread) (slot sig : Nat) : Option HwThread :=
  h.threads[slot]?.map fun t0 =>
    let t := t0.addSignal sig
    let h := h.modifyThread slot (·.addSignal sig)
    if !t.signalled then h
    else if t.ignoredSignals.contains sig then
      h.modifyThread slot fun t => { t with pendingSignals := t.pendingSignals.erase sig }
    else if t.waiting then h.modifyThread slot Thread.futexInterrupt
    else if t.sleeping then h.timerInterrupt slot
    else h

def consider (expiration candidate : Nat) : Nat :=
  if expiration = 0 ∨ candidate < expiration then candidate else expiration

/-- The sleep of a thread in the loop of `IntHandler_UDEC` -/
def checkSleep (now : Nat) (t : Thread) (expiration : Nat) : Thread × Nat :=
  if t.sleepTimeout = 0 then (t, expiration)
  else if t.sleepTimeout ≤ now then (t.awaken, expiration)
  else (t, consider expiration t.sleepTimeout)

/-- `Futex_CheckTimeout` and what the loop makes of it -/
def checkFutex (now : Nat) (t : Thread) (expiration : Nat) : Thread × Nat :=
  if t.futexTimeout = 0 then (t, expiration)
  else if t.futexTimeout ≤ now then (t.futexInterrupt, expiration)
  else (t, consider expiration t.futexTimeout)

/-- The loop of `IntHandler_UDEC` over the threads -/
def checkThreads (now : Nat) : List Thread → Nat → List Thread × Nat
  | [], expiration => ([], expiration)
  | t :: threads, expiration =>
    let (t, expiration) := checkSleep now t expiration
    let (t, expiration) := checkFutex now t expiration
    let (threads, expiration) := checkThreads now threads expiration
    (t :: threads, expiration)

def HwThread.nextChecker (h : HwThread) : Nat :=
  if h.ipiMessageCheckerExpiration < h.now then (h.now + checkerInterval * h.freqMHz) % wordRange
  else h.ipiMessageCheckerExpiration

/-- `IntHandler_UDEC` -/
def HwThread.intHandlerUDEC (h : HwThread) : HwThread :=
  let (threads, expiration) := checkThreads h.now h.threads 0
  let h := { h with threads }
  let (h, expiration) :=
    if h.ipiMessageCheckerExpiration = 0 then (h, expiration)
    else ({ h with ipiMessageCheckerExpiration := h.nextChecker },
      consider expiration h.nextChecker)
  if expiration = 0 then h.disableUDECRwakeup else h.enableUDECRwakeup expiration

inductive Label
  /-- Time passes. -/
  | pass (cycles : Nat)
  | nanoSleep (slot : Nat) (seconds nanoseconds : Int)
  | futexWait (slot : Nat) (sameValue entry : Bool) (timespec : Option (Int × Int))
  | futexWake (slot : Nat)
  | futexUnblock (slot : Nat)
  | signalDeliver (slot sig : Nat)
  | udecInterrupt
  /-- `PushSignal` takes a pending signal, and its handler runs with the mask. -/
  | pushSignal (slot sig : Nat) (masked : List Nat)
  /-- `Signal_SetMask`, and `PopSignal` at the end of a handler -/
  | setMask (slot : Nat) (masked : List Nat)
deriving DecidableEq

def HwThread.runnable (h : HwThread) (slot : Nat) : Bool :=
  h.threads[slot]?.any fun t => !t.sleeping && !t.waiting

/-- The time base does not reach the end of its 64 bits. -/
def step (h : HwThread) : Label → Option HwThread
  | .pass d =>
    if h.now + d + checkerInterval * h.freqMHz < wordRange then some { h with now := h.now + d }
    else none
  | .nanoSleep slot seconds nanoseconds =>
    if h.runnable slot then some (h.nanoSleep slot seconds nanoseconds) else none
  | .futexWait slot sameValue entry timespec =>
    if h.runnable slot then some (h.futexWait slot sameValue entry timespec) else none
  | .futexWake slot => some (h.futexWake slot)
  | .futexUnblock slot =>
    if h.threads[slot]?.any (·.futexTimeout = 0) then some (h.futexUnblock slot) else none
  | .signalDeliver slot sig => h.signalDeliver slot sig
  | .udecInterrupt =>
    if h.udec.any (· ≤ h.now) then some h.intHandlerUDEC else none
  | .pushSignal slot sig masked =>
    if h.runnable slot ∧ h.threads[slot]?.any fun t =>
        t.pendingSignals.contains sig && !t.maskedSignals.contains sig then
      some (h.modifyThread slot fun t =>
        { t with pendingSignals := t.pendingSignals.erase sig, maskedSignals := masked })
    else none
  | .setMask slot masked =>
    if h.runnable slot then
      some (h.modifyThread slot fun t => { t with maskedSignals := masked })
    else none

/-- A hardware thread before the job's threads start, with the masked and the ignored signals
of each of them, and with or without the message checker -/
def HwThread.init (now freqMHz : Nat) (signals : List (List Nat × List Nat)) (checker : Bool) :
    HwThread :=
  let h : HwThread :=
    ⟨now, freqMHz, signals.map fun s => ⟨0, 0, false, false, [], s.1, s.2⟩, 0, none, 0⟩
  if checker then
    -- `IPI_enableMessageChecker`
    let expiration := (now + checkerInterval * freqMHz) % wordRange
    { h with ipiMessageCheckerExpiration := expiration }.enableUDECRwakeup expiration
  else h

end BgqDriver.Timers
