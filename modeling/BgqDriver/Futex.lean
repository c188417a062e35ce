import Mathlib.Algebra.GroupWithZero.Nat
import BgqDriver.EventRuns
import BgqDriver.LinkedChains

/-!
The futex calls of the compute node kernel (`futex.c`, `syscalls/futex.cc`).

Every process has a table for its private futexes and the node has one for the
shared ones. A table entry holds a user address and the first of the kernel
threads that wait on it; the others follow through `FutexQueueNext`. Each call
changes the tables under the lock of the one table it works on and is a single
step here. `futexWake` unblocks the threads it has taken off a queue after
giving the lock back, so those unblocks are steps of their own.
-/

namespace BgqDriver.Futex

open Function
open LinkedChains

abbrev Addr := BitVec 64
abbrev Word := BitVec 32

def numKThreads : Nat := 6 * 4 * 17
def numFutex : Nat := numKThreads
def unblockListSize : Nat := 64 * (6 - 1)
def maxProcesses : Nat := 64 + 2

instance : NeZero numKThreads := ⟨by decide⟩
instance : NeZero numFutex := ⟨by decide⟩
instance : NeZero maxProcesses := ⟨by decide⟩

abbrev Tid := Fin numKThreads
abbrev Slot := Fin numFutex
abbrev Proc := Fin maxProcesses

abbrev TableId := Option Proc

structure AppProcess where
  text : Addr × Addr
  data : Addr × Addr
  heap : Addr × Addr
  shared : Addr × Addr
  dyn : Addr × Addr

/-- What the calls read and never change -/
structure Node where
  process : Proc → AppProcess
  pAppProc : Tid → Proc
  freqMHz : BitVec 64

/-- The futex fields of a kernel thread, the result registers of its call and the
`SCHED_STATE_FUTEX` bit of its scheduler state. -/
structure KThread where
  futexQueueNext : Option Tid
  futexVAddr : Addr
  futexValue : Word
  futexTimeout : BitVec 64
  futexIsShared : Bool
  gpr3 : BitVec 64
  crError : Bool
  blocked : Bool

structure FutexState where
  futexVAddr : Addr
  waiterNext : Option Tid

/-- `unblocking` are the threads on the `unblockList` of a `futexWake` that has
given its lock back. -/
structure State where
  kthreads : Tid → KThread
  table : TableId × Slot → FutexState
  memory : Proc → Addr → Word
  unblocking : List Tid

/-- All tables are empty and no thread waits. -/
def initial (memory : Proc → Addr → Word) : State where
  kthreads _ := ⟨none, 0#64, 0#32, 0#64, false, 0#64, false, false⟩
  table _ := ⟨0#64, none⟩
  memory := memory
  unblocking := []

namespace State

def next (s : State) (t : Tid) : Option Tid := (s.kthreads t).futexQueueNext

def head (s : State) (q : TableId × Slot) : Option Tid := (s.table q).waiterNext

def vaddr (s : State) (q : TableId × Slot) : Addr := (s.table q).futexVAddr

def setThread (s : State) (t : Tid) (k : KThread) : State :=
  { s with kthreads := update s.kthreads t k }

def setNext (s : State) (t : Tid) (p : Option Tid) : State :=
  s.setThread t { s.kthreads t with futexQueueNext := p }

def setHead (s : State) (q : TableId × Slot) (p : Option Tid) : State :=
  { s with table := update s.table q { s.table q with waiterNext := p } }

def setVAddr (s : State) (q : TableId × Slot) (a : Addr) : State :=
  { s with table := update s.table q { s.table q with futexVAddr := a } }

variable (s : State) (t : Tid) (q : TableId × Slot)

@[simp]
theorem next_setThread (k : KThread) : (s.setThread t k).next =
    update s.next t k.futexQueueNext := by
  funext u
  rcases eq_or_ne u t with rfl | hut
  · simp [next, setThread]
  · simp [next, setThread, hut]

@[simp]
theorem kthreads_setThread (k : KThread) : (s.setThread t k).kthreads = update s.kthreads t k := rfl

@[simp]
theorem head_setThread (k : KThread) : (s.setThread t k).head = s.head := rfl

@[simp]
theorem vaddr_setThread (k : KThread) : (s.setThread t k).vaddr = s.vaddr := rfl

section

variable (p : Option Tid)

@[simp]
theorem next_setNext : (s.setNext t p).next = update s.next t p :=
  next_setThread s t _

theorem kthreads_setNext (u : Tid) : (s.setNext t p).kthreads u =
      { s.kthreads u with futexQueueNext := (s.setNext t p).next u } := by
  rw [next_setNext]
  rcases eq_or_ne u t with rfl | hut
  · simp [setNext, setThread]
  · simp [setNext, setThread, hut, next]

@[simp]
theorem head_setNext : (s.setNext t p).head = s.head := rfl

@[simp]
theorem vaddr_setNext : (s.setNext t p).vaddr = s.vaddr := rfl

@[simp]
theorem next_setHead : (s.setHead q p).next = s.next := rfl

@[simp]
theorem kthreads_setHead : (s.setHead q p).kthreads = s.kthreads := rfl

end

@[simp]
theorem next_setVAddr (a : Addr) : (s.setVAddr q a).next = s.next := rfl

@[simp]
theorem kthreads_setVAddr (a : Addr) : (s.setVAddr q a).kthreads = s.kthreads := rfl

@[simp]
theorem head_setHead (p : Option Tid) : (s.setHead q p).head = update s.head q p := by
  funext r
  rcases eq_or_ne r q with rfl | hrq
  · simp [head, setHead]
  · simp [head, setHead, hrq]

@[simp]
theorem vaddr_setHead (p : Option Tid) : (s.setHead q p).vaddr = s.vaddr := by
  funext r
  rcases eq_or_ne r q with rfl | hrq
  · simp [vaddr, setHead]
  · simp [vaddr, setHead, hrq]

@[simp]
theorem head_setVAddr (a : Addr) : (s.setVAddr q a).head = s.head := by
  funext r
  rcases eq_or_ne r q with rfl | hrq
  · simp [head, setVAddr]
  · simp [head, setVAddr, hrq]

@[simp]
theorem vaddr_setVAddr (a : Addr) : (s.setVAddr q a).vaddr = update s.vaddr q a := by
  funext r
  rcases eq_or_ne r q with rfl | hrq
  · simp [vaddr, setVAddr]
  · simp [vaddr, setVAddr, hrq]

end State

inductive Errno where
  | EINTR
  | EAGAIN
  | EWOULDBLOCK
  | EFAULT
  | ENOSYS
  | ETIMEDOUT
  deriving DecidableEq, Repr

def Errno.code : Errno → BitVec 64
  | .EINTR => 4#64
  | .EAGAIN => 11#64
  | .EWOULDBLOCK => 11#64
  | .EFAULT => 14#64
  | .ENOSYS => 38#64
  | .ETIMEDOUT => 110#64

inductive Rc where
  | success (value : Nat)
  | failure (errno : Errno)
  deriving DecidableEq, Repr

def futexCmdMask : Word := ~~~(128#32 ||| 256#32)
def futexPrivateFlag : Word := 128#32

def Op.wait : Word := 0#32
def Op.wake : Word := 1#32
def Op.requeue : Word := 3#32
def Op.cmpRequeue : Word := 4#32
def Op.wakeOp : Word := 5#32

def vmmIsAppAddress (proc : AppProcess) (va size : BitVec 64) : Bool :=
  -- The sum wraps, as it does in the source.
  va != 0#64 && !(va + size < va) &&
    [proc.text, proc.data, proc.heap, proc.shared, proc.dyn].any fun range =>
      range.1 ≤ va && va + size ≤ range.2 + 1#64

def futexIsShared (proc : AppProcess) (futexVAddr : Addr) (opAndFlags : Word) : Bool :=
  if opAndFlags &&& futexPrivateFlag ≠ 0#32 then false
  else proc.shared.1 ≤ futexVAddr && futexVAddr ≤ proc.shared.2

def tableOf (p : Proc) (isShared : Bool) : TableId := if isShared then none else some p

def lookup (s : State) (T : TableId) (a : Addr) : Option Slot :=
  (List.finRange numFutex).find? fun i => s.vaddr (T, i) == a

def futexFindTableEntry (s : State) (T : TableId) (futexAddress : Addr)
    (allocateIfNecessary : Bool) : State × Option Slot :=
  match lookup s T futexAddress with
  | some i => (s, some i)
  | none =>
    if allocateIfNecessary then
      match lookup s T 0#64 with
      | some i => ((s.setVAddr (T, i) futexAddress).setHead (T, i) none, some i)
      | none => (s, none)
    else (s, none)

/-- The place where a queue ends: the link of its last thread or, of an empty
queue, the entry's own pointer. -/
def tailOf (fuel : Nat) (s : State) (q : TableId × Slot) : Option (Option Tid) :=
  match s.head q with
  | none => some none
  | some a => (lastFrom s.next fuel a).map some

def setTail (s : State) (q : TableId × Slot) (tail p : Option Tid) : State :=
  match tail with
  | none => s.setHead q p
  | some b => s.setNext b p

section

variable (s : State) (q : TableId × Slot) (tail p : Option Tid)

@[simp]
theorem vaddr_setTail : (setTail s q tail p).vaddr = s.vaddr := by
  cases tail <;> simp [setTail]

@[simp]
theorem unblocking_setTail : (setTail s q tail p).unblocking = s.unblocking := by
  cases tail <;> rfl

theorem kthreads_setTail (u : Tid) : (setTail s q tail p).kthreads u =
      { s.kthreads u with futexQueueNext := (setTail s q tail p).next u } := by
  cases tail with
  | none => rfl
  | some b => exact s.kthreads_setNext b p u

end

def schedBlock (s : State) (t : Tid) : State :=
  s.setThread t { s.kthreads t with blocked := true }

def schedUnblock (s : State) (t : Tid) : State :=
  s.setThread t { s.kthreads t with blocked := false }

def KThread.waiting (k : KThread) (futexVAddr : Addr) (futexValue : Word)
    (futexTimeout : BitVec 64) (futexIsShared : Bool) : KThread :=
  { k with
    futexQueueNext := none
    futexVAddr := futexVAddr
    futexValue := futexValue
    futexTimeout := futexTimeout
    futexIsShared := futexIsShared }

def futexWait (node : Node) (fuel : Nat) (s : State) (t : Tid) (opAndFlags : Word)
    (futexVAddr : Addr) (futexVal : Word) (timeout : BitVec 64) : Option (State × Rc) :=
  let p := node.pAppProc t
  let isShared := futexIsShared (node.process p) futexVAddr opAndFlags
  if s.memory p futexVAddr ≠ futexVal then some (s, .failure .EWOULDBLOCK)
  else
    match futexFindTableEntry s (tableOf p isShared) futexVAddr true with
    | (s, none) => some (schedBlock s t, .success 0)
    | (s, some i) => do
        let tail ← tailOf fuel s (tableOf p isShared, i)
        let s := setTail s (tableOf p isShared, i) tail (some t)
        let s := s.setThread t
          ((s.kthreads t).waiting futexVAddr (s.memory p futexVAddr) timeout isShared)
        some (schedBlock s t, .success 0)

/-- The futex fields of a thread that waits no more. -/
def KThread.cleared (k : KThread) : KThread :=
  { k with
    futexQueueNext := none
    futexVAddr := 0#64
    futexValue := 0#32
    futexTimeout := 0#64
    futexIsShared := false }

def KThread.failed (k : KThread) (errno : Errno) : KThread :=
  { k.cleared with crError := true, gpr3 := errno.code }

/-- Take a thread out of a queue that is not to be woken in order. -/
def dequeue (fuel : Nat) (s : State) (q : TableId × Slot) (t : Tid) : Option State :=
  if s.head q = some t then
    let s := s.setHead q (s.next t)
    some (if s.head q = none then s.setVAddr q 0#64 else s)
  else do
    let ftQ ← predecessor s.next t fuel (s.head q)
    match ftQ with
    | none => some s
    | some b => some (s.setNext b (s.next t))

/-- `futexTimeout` and `futexInterrupt`, which differ in the error number.
The private table is that of the process `p` current on the hardware thread. -/
def abandon (errno : Errno) (fuel : Nat) (s : State) (p : Proc) (t : Tid) : Option State := do
  let T := tableOf p (s.kthreads t).futexIsShared
  let s ← match (futexFindTableEntry s T (s.kthreads t).futexVAddr false).2 with
    | none => some s
    | some i => dequeue fuel s (T, i) t
  some (schedUnblock (s.setThread t ((s.kthreads t).failed errno)) t)

def futexTimeout (fuel : Nat) (s : State) (p : Proc) (t : Tid) : Option State :=
  abandon .ETIMEDOUT fuel s p t

def futexInterrupt (fuel : Nat) (s : State) (p : Proc) (t : Tid) : Option State :=
  abandon .EINTR fuel s p t

/-- Whether the thread's wait has timed out and, if it has not, when it will. -/
def futexCheckTimeout (fuel : Nat) (s : State) (p : Proc) (t : Tid)
    (currentTime : BitVec 64) : Option (State × Bool × BitVec 64) :=
  let expiration := (s.kthreads t).futexTimeout
  if expiration = 0#64 then some (s, false, 0#64)
  else if expiration ≤ currentTime then
    (futexTimeout fuel s p t).map fun s => (s, true, 0#64)
  else some (s, false, expiration)

def awaken (s : State) (q : TableId × Slot) (t : Tid) : State :=
  (s.setHead q (s.next t)).setThread t { (s.kthreads t).cleared with gpr3 := 0#64 }

@[simp]
theorem vaddr_awaken (s : State) (q : TableId × Slot) (t : Tid) :
    (awaken s q t).vaddr = s.vaddr := by
  simp [awaken]

def KThread.movedTo (k : KThread) (futexVAddr : Addr) (futexValue : Word) : KThread :=
  { k with futexVAddr := futexVAddr, futexValue := futexValue }

def readdress (p : Proc) (a : Addr) : Nat → State → Option Tid → Option State
  | 0, _, _ => none
  | _ + 1, s, none => some s
  | fuel + 1, s, some t =>
    readdress p a fuel (s.setThread t ((s.kthreads t).movedTo a (s.memory p a))) (s.next t)

def requeue (fuel : Nat) (s : State) (p : Proc) (q secondary : TableId × Slot) (t : Tid) :
    Option State := do
  let tail ← tailOf fuel s secondary
  let s := s.setHead q none
  let s := setTail s secondary tail (some t)
  readdress p (s.vaddr secondary) fuel s (some t)

/-- The loop of `futexWakeQueue`, with the threads awoken so far. -/
def wakeLoop (fuel : Nat) (p : Proc) (q : TableId × Slot) (maxToWake : Int)
    (secondary : Option (TableId × Slot)) : Nat → State → List Tid → Option (State × List Tid)
  | 0, _, _ => none
  | n + 1, s, awoken =>
    match s.head q with
    | none => some (s, awoken)
    | some t =>
      if awoken.length < maxToWake then
        wakeLoop fuel p q maxToWake secondary n (awaken s q t) (awoken ++ [t])
      else
        match secondary with
        | none => some (s, awoken)
        | some q' => do
            let s ← requeue fuel s p q q' t
            wakeLoop fuel p q maxToWake (some q') n s awoken

def releaseIfEmpty (s : State) (q : TableId × Slot) : State :=
  if s.head q = none then s.setVAddr q 0#64 else s

def futexWakeQueue (fuel : Nat) (s : State) (p : Proc) (entry : Option (TableId × Slot))
    (maxToWake : Int) (secondary : Option (TableId × Slot)) : Option (State × List Tid) :=
  match entry with
  | none => some (s, [])
  | some q => do
      let (s, awoken) ← wakeLoop fuel p q maxToWake secondary fuel s []
      let s := releaseIfEmpty s q
      match secondary with
      | none => some (s, awoken)
      | some q' => some (releaseIfEmpty s q', awoken)

/-- The new value of the second futex and whether its waiters are woken too, as
`FUTEX_WAKE_OP` encodes them. -/
def wakeOp (secondaryValue previousValue : Word) : Word × Bool :=
  let op := secondaryValue.extractLsb' 28 4
  let cmpop := secondaryValue.extractLsb' 24 4
  let operand := (secondaryValue.extractLsb' 12 12).signExtend 32
  let cmpOperand := (secondaryValue.extractLsb' 0 12).signExtend 32
  -- An invalid shift count is left to the machine, which uses six bits of it.
  let operand := if op &&& 8#4 ≠ 0#4 then 1#32 <<< (operand.toNat % 64) else operand
  let newValue := match (op &&& 7#4).toNat with
    | 0 => operand
    | 1 => previousValue + operand
    | 2 => previousValue ||| operand
    | 3 => previousValue &&& ~~~operand
    | 4 => previousValue ^^^ operand
    | _ => previousValue
  let wakeSecondary := match cmpop.toNat with
    | 0 => previousValue == cmpOperand
    | 1 => previousValue != cmpOperand
    | 2 => previousValue.slt cmpOperand
    | 3 => previousValue.sle cmpOperand
    | 4 => cmpOperand.slt previousValue
    | 5 => cmpOperand.sle previousValue
    | _ => false
  (newValue, wakeSecondary)

def store (s : State) (p : Proc) (a : Addr) (v : Word) : State :=
  { s with memory := update s.memory p (update (s.memory p) a v) }

/-- The wake of the second queue by `FUTEX_WAKE_OP`. -/
def wakeSecondQueue (fuel : Nat) (s : State) (p : Proc) (T : TableId) (wakeSecondary : Bool)
    (secondaryVAddr : Addr) (maxToWake2 : Int) : Option (State × List Tid) :=
  if wakeSecondary then
    futexWakeQueue fuel s p ((futexFindTableEntry s T secondaryVAddr false).2.map (T, ·))
      maxToWake2 none
  else some (s, [])

/-- The wakes of `futexWake`, once the entries it works on are found. -/
def wakeEntries (fuel : Nat) (s : State) (p : Proc) (T : TableId) (entry secondary : Option Slot)
    (maxToWake : Int) (wakeSecondary : Bool) (secondaryVAddr : Addr) (maxToWake2 : Int) :
    Option (State × Rc) := do
  let (s, awoken) ← futexWakeQueue fuel s p (entry.map (T, ·)) (min maxToWake unblockListSize)
    (secondary.map (T, ·))
  let (s, awoken2) ← wakeSecondQueue fuel s p T wakeSecondary secondaryVAddr
    (min maxToWake2 (unblockListSize - awoken.length))
  some ({ s with unblocking := s.unblocking ++ (awoken ++ awoken2) },
    .success (awoken.length + awoken2.length))

def futexWake (node : Node) (fuel : Nat) (s : State) (p : Proc) (opAndFlags : Word)
    (futexVAddr : Addr) (maxToWake : Int) (secondaryVAddr : Addr) (maxToWake2 : Int)
    (secondaryValue : Word) : Option (State × Rc) :=
  let operation := opAndFlags &&& futexCmdMask
  let T := tableOf p (futexIsShared (node.process p) futexVAddr opAndFlags)
  if operation = Op.cmpRequeue ∧ s.memory p futexVAddr ≠ secondaryValue then
    some (s, .failure .EAGAIN)
  else
    let previousValue := s.memory p secondaryVAddr
    let wakeSecondary := operation == Op.wakeOp && (wakeOp secondaryValue previousValue).2
    let s := if operation = Op.wakeOp then
        store s p secondaryVAddr (wakeOp secondaryValue previousValue).1 else s
    let entry := (futexFindTableEntry s T futexVAddr false).2
    if entry.isSome ∧ (operation = Op.requeue ∨ operation = Op.cmpRequeue) then
      match futexFindTableEntry s T secondaryVAddr true with
      | (s, none) => some (s, .failure .EAGAIN)
      | (s, some j) =>
        wakeEntries fuel s p T entry (some j) maxToWake wakeSecondary secondaryVAddr maxToWake2
    else wakeEntries fuel s p T entry none maxToWake wakeSecondary secondaryVAddr maxToWake2

/-- The two doublewords of a `timespec`. -/
def loadTimespec (memory : Addr → Word) (a : Addr) : BitVec 64 × BitVec 64 :=
  (memory a ++ memory (a + 4#64), memory (a + 8#64) ++ memory (a + 12#64))

def absoluteTimeout (freqMHz : BitVec 64) (timespec : BitVec 64 × BitVec 64)
    (currentTime : BitVec 64) : BitVec 64 :=
  (timespec.1 * 1000000#64 + timespec.2 / 1000#64) * freqMHz + currentTime

def scFutex (node : Node) (fuel : Nat) (s : State) (t : Tid) (r3 r4 r5 r6 r7 r8 : BitVec 64)
    (currentTime : BitVec 64) : Option (State × Rc) :=
  let p := node.pAppProc t
  let opAndFlags := r4.setWidth 32
  let op := opAndFlags &&& futexCmdMask
  let val := r5.setWidth 32
  if !vmmIsAppAddress (node.process p) r3 4#64 then some (s, .failure .EFAULT)
  else if op = Op.wait then
    if r6 = 0#64 then futexWait node fuel s t opAndFlags r3 val 0#64
    else if !vmmIsAppAddress (node.process p) r6 16#64 then some (s, .failure .EFAULT)
    else futexWait node fuel s t opAndFlags r3 val
      (absoluteTimeout node.freqMHz (loadTimespec (s.memory p) r6) currentTime)
  else if op = Op.wake then
    futexWake node fuel s p opAndFlags r3 val.toInt 0#64 (-1) (-1)
  else if op = Op.wakeOp then
    futexWake node fuel s p opAndFlags r3 val.toInt r7 (r6.setWidth 32).toInt (r8.setWidth 32)
  else if op = Op.requeue ∨ op = Op.cmpRequeue then
    futexWake node fuel s p opAndFlags r3 val.toInt r7 (-1) (r8.setWidth 32)
  else some (s, .failure .ENOSYS)

/-- What happens on the node. Timer ticks and signals for a thread come while the
process `p` is current on its hardware thread. -/
inductive Event where
  | futex (t : Tid) (r3 r4 r5 r6 r7 r8 : BitVec 64) (currentTime : BitVec 64)
  | timer (p : Proc) (t : Tid) (currentTime : BitVec 64)
  | signal (p : Proc) (t : Tid)
  | unblock (t : Tid)
  | store (p : Proc) (a : Addr) (v : Word)

/-- One step of the node; `none` when the step never ends. -/
def step (node : Node) (fuel : Nat) (s : State) : Event → Option State
  | .futex t r3 r4 r5 r6 r7 r8 currentTime =>
    -- A blocked thread makes no call.
    if (s.kthreads t).blocked then some s
    else (scFutex node fuel s t r3 r4 r5 r6 r7 r8 currentTime).map Prod.fst
  | .timer p t currentTime => (futexCheckTimeout fuel s p t currentTime).map Prod.fst
  | .signal p t => if (s.kthreads t).blocked then futexInterrupt fuel s p t else some s
  | .unblock t =>
    if t ∈ s.unblocking then
      some (schedUnblock { s with unblocking := s.unblocking.erase t } t)
    else some s
  | .store p a v => some (store s p a v)

end BgqDriver.Futex
