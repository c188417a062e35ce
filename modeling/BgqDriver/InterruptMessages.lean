import BgqDriver.EventRuns

/-!
Model of the messages between processors: `IPI_DeliverInterrupt` and `IPI_DeadlockAvoidance` in
`cnk/src/core2core.c`, `IntHandler_IPI_FLIH`, `IntHandler_IPI_FLIH17` and `IntHandler_IPIchecker`
in `flih.c`.

Every pair of hardware threads has a slot for one message and a status bit. A thread makes one
access to them in a step, and the steps of all threads are interleaved. A thread handles
interrupts and runs the checker with interrupts disabled; a handler that it calls may post
messages, and while such a post, or `IPI_tool_suspend` for its acknowledgement, waits the thread
may handle a message in turn. An interrupt may be lost, which is what the checker is for.
-/

namespace BgqDriver.InterruptMessages

def threadCount : Nat := 68

/-- `CONFIG_MAX_APP_THREADS`: the senders whose bits are in the first status register -/
def appThreads : Nat := 64

/-- `IPI_TIMEOUT` -/
def ipiTimeout : Nat := 1000

variable {F : Type}

/-- `IPI_Message_t` -/
structure Message (F : Type) where
  fcn : Option F
  param1 : Nat
  param2 : Nat
deriving DecidableEq

def Message.empty : Message F := ⟨none, 0, 0⟩

/-- Where a thread is in `IPI_DeliverInterrupt` -/
inductive SendStage
  | check
  | spin
  | storeFcn
  | storeParam1
  | storeParam2
  | interrupt
deriving DecidableEq

inductive TakeStage
  | fcn
  | param1
  | param2
  | clear
  | release
  | call
deriving DecidableEq

inductive FlihStage (F : Type)
  | scan
  | take (stage : TakeStage) (copy : Message F)
  | refresh
  | finish
deriving DecidableEq

inductive AvoidStage (F : Type)
  | status
  | test
  | take (stage : TakeStage) (copy : Message F)
deriving DecidableEq

inductive CheckStage
  | look
  | fcn
  | param1
  | param2
  | test
  | poll (timeout : Nat)
  | release
  | call
deriving DecidableEq

/-- What a hardware thread does outside of the functions that handlers call: `agents` tells
`IntHandler_IPI_FLIH17` from `IntHandler_IPI_FLIH`, `status` has the senders whose bits were set.
The checker notes how many messages had been posted when it turned to the slot. -/
inductive Base (F : Type)
  | idle
  | flih (agents : Bool) (status : List Nat) (i : Nat) (stage : FlihStage F)
  | checker (i seen : Nat) (stage : CheckStage) (copy : Message F)
deriving DecidableEq

/-- A handler, a call of `IPI_DeliverInterrupt` or of `IPI_DeadlockAvoidance` -/
inductive Call (F : Type)
  | handler
  | send (target : Nat) (message : Message F) (stage : SendStage)
  | avoid (source : Nat) (stage : AvoidStage F)
deriving DecidableEq

structure Thread (F : Type) where
  base : Base F
  /-- The innermost call first -/
  calls : List (Call F)
deriving DecidableEq

/-- The slots, the status bits of the target and the threads. What has been posted and what has
been handled is recorded for each sender and target. -/
structure Node (F : Type) where
  threads : Nat → Thread F
  slots : Nat → Nat → Message F
  bits : Nat → Nat → Bool
  posted : Nat → Nat → List (Message F)
  handled : Nat → Nat → List (Message F)

inductive Effect (F : Type)
  | none
  | storeFcn (target : Nat) (m : Message F)
  | storeParam1 (target : Nat) (m : Message F)
  | storeParam2 (target : Nat) (m : Message F)
  | interrupt (target : Nat)
  | clear (source : Nat)
  | release (source : Nat)
  | call (source : Nat) (copy : Message F)

def set {α : Type} (f : Nat → Nat → α) (s t : Nat) (v : α) : Nat → Nat → α :=
  fun s' t' => if s' = s ∧ t' = t then v else f s' t'

def Node.apply (n : Node F) (cpu : Nat) : Effect F → Node F
  | .none => n
  | .storeFcn t m => { n with slots := set n.slots cpu t { n.slots cpu t with fcn := m.fcn } }
  | .storeParam1 t m =>
    { n with slots := set n.slots cpu t { n.slots cpu t with param1 := m.param1 } }
  | .storeParam2 t m =>
    { n with
      slots := set n.slots cpu t { n.slots cpu t with param2 := m.param2 }
      posted := set n.posted cpu t (n.posted cpu t ++ [m]) }
  | .interrupt t => { n with bits := set n.bits cpu t true }
  | .clear s => { n with bits := set n.bits s cpu false }
  | .release s => { n with slots := set n.slots s cpu { n.slots s cpu with fcn := none } }
  | .call s copy => { n with handled := set n.handled s cpu (n.handled s cpu ++ [copy]) }

def Node.setThread (n : Node F) (cpu : Nat) (th : Thread F) : Node F :=
  { n with threads := fun c => if c = cpu then th else n.threads c }

/-- `IPI_DeliverInterrupt`; the calls that take its place, and the access -/
def sendNext (n : Node F) (cpu target : Nat) (m : Message F) : SendStage → List (Call F) × Effect F
  | .check =>
    if (n.slots cpu target).fcn.isNone then ([.send target m .storeFcn], .none)
    else if target = cpu then ([], .none)
    else ([.send target m .spin], .none)
  | .spin =>
    if (n.slots cpu target).fcn.isNone then ([.send target m .storeFcn], .none)
    else ([.avoid target .status, .send target m .spin], .none)
  | .storeFcn => ([.send target m .storeParam1], .storeFcn target m)
  | .storeParam1 => ([.send target m .storeParam2], .storeParam1 target m)
  | .storeParam2 => ([.send target m .interrupt], .storeParam2 target m)
  | .interrupt => ([], .interrupt target)

def takeNext (slot copy : Message F) (source : Nat) : TakeStage → TakeStage × Message F × Effect F
  | .fcn => (.param1, { copy with fcn := slot.fcn }, .none)
  | .param1 => (.param2, { copy with param1 := slot.param1 }, .none)
  | .param2 => (.clear, { copy with param2 := slot.param2 }, .none)
  | .clear => (.release, copy, .clear source)
  | .release => (.call, copy, .release source)
  | .call => (.call, copy, .none)

/-- `IPI_DeadlockAvoidance`. The first status register has no bits of the last core. -/
def avoidNext (acked : F → Bool) (n : Node F) (cpu source : Nat) :
    AvoidStage F → List (Call F) × Effect F
  | .status =>
    if source ≠ cpu ∧ source < appThreads ∧ n.bits source cpu = true then
      ([.avoid source .test], .none)
    else ([], .none)
  | .test =>
    if (n.slots source cpu).fcn.any acked then ([.avoid source (.take .fcn .empty)], .none)
    else ([], .none)
  | .take .call copy =>
    if copy.fcn.isSome then ([.handler], .call source copy) else ([], .none)
  | .take stage copy =>
    let (stage, copy, effect) := takeNext (n.slots source cpu) copy source stage
    ([.avoid source (.take stage copy)], effect)

def firstSource (agents : Bool) : Nat := if agents then appThreads else 0

def endSource (agents : Bool) : Nat := if agents then threadCount else appThreads

/-- The status register: the senders whose bits are set -/
def Node.readStatus (n : Node F) (cpu : Nat) (agents : Bool) : List Nat :=
  ((List.range (endSource agents)).drop (firstSource agents)).filter fun s => n.bits s cpu

/-- `IntHandler_IPI_FLIH` and `IntHandler_IPI_FLIH17`. Only the first reads the status again
after a handler. -/
def flihNext (n : Node F) (cpu : Nat) (agents : Bool) (status : List Nat) (i : Nat) :
    FlihStage F → Base F × List (Call F) × Effect F
  | .scan =>
    if endSource agents ≤ i then (.idle, [], .none)
    else if i ∈ status then (.flih agents status i (.take .fcn .empty), [], .none)
    else (.flih agents status (i + 1) .scan, [], .none)
  | .take .call copy =>
    if copy.fcn.isSome then
      (.flih agents status i (if agents then .finish else .refresh), [.handler], .call i copy)
    else (.flih agents status i .finish, [], .none)
  | .take stage copy =>
    let (stage, copy, effect) := takeNext (n.slots i cpu) copy i stage
    (.flih agents status i (.take stage copy), [], effect)
  | .refresh => (.flih agents (n.readStatus cpu agents) i .finish, [], .none)
  | .finish =>
    let status := status.filter (· ≠ i)
    if status = [] then (.idle, [], .none) else (.flih agents status (i + 1) .scan, [], .none)

/-- `IntHandler_IPIchecker` -/
def checkerNext (n : Node F) (cpu i seen : Nat) (copy : Message F) :
    CheckStage → Base F × List (Call F) × Effect F
  | .look =>
    if threadCount ≤ i then (.idle, [], .none)
    else (.checker i (n.posted i cpu).length .fcn .empty, [], .none)
  | .fcn => (.checker i seen .param1 { copy with fcn := (n.slots i cpu).fcn }, [], .none)
  | .param1 => (.checker i seen .param2 { copy with param1 := (n.slots i cpu).param1 }, [], .none)
  | .param2 => (.checker i seen .test { copy with param2 := (n.slots i cpu).param2 }, [], .none)
  | .test =>
    if (n.slots i cpu).fcn.isSome then (.checker i seen (.poll ipiTimeout) copy, [], .none)
    else (.checker (i + 1) seen .look copy, [], .none)
  | .poll 0 => (.checker i seen .release copy, [], .none)
  | .poll (timeout + 1) =>
    if n.bits i cpu then (.checker (i + 1) seen .look copy, [], .none)
    else (.checker i seen (.poll timeout) copy, [], .none)
  | .release => (.checker i seen .call copy, [], .release i)
  | .call => (.checker (i + 1) seen .look copy, [.handler], .call i copy)

/-- The next step of a thread that is not in a handler -/
def Node.next (acked : F → Bool) (n : Node F) (cpu : Nat) : Option (Thread F × Effect F) :=
  match n.threads cpu with
  | ⟨_, .handler :: _⟩ => none
  | ⟨base, .send target m stage :: calls⟩ =>
    let (new, effect) := sendNext n cpu target m stage
    some (⟨base, new ++ calls⟩, effect)
  | ⟨base, .avoid source stage :: calls⟩ =>
    let (new, effect) := avoidNext acked n cpu source stage
    some (⟨base, new ++ calls⟩, effect)
  | ⟨.idle, []⟩ => none
  | ⟨.flih agents status i stage, []⟩ =>
    let (base, calls, effect) := flihNext n cpu agents status i stage
    some (⟨base, calls⟩, effect)
  | ⟨.checker i seen stage copy, []⟩ =>
    let (base, calls, effect) := checkerNext n cpu i seen copy stage
    some (⟨base, calls⟩, effect)

inductive Label (F : Type)
  | run (cpu : Nat)
  | post (cpu target : Nat) (fcn : F) (param1 param2 : Nat)
  /-- The handler returns. -/
  | returns (cpu : Nat)
  | interrupt (cpu : Nat) (agents : Bool)
  | check (cpu : Nat)
  /-- A post that waits is given up for process exit. -/
  | abort (cpu : Nat)
  | lose (sender target : Nat)
  /-- `IPI_tool_suspend` waits for the acknowledgement of the message it has posted. -/
  | await (cpu target : Nat)
deriving DecidableEq

/-- Code outside of interrupt handling, or a handler, makes a call. -/
def Node.call (n : Node F) (cpu : Nat) (new : Call F) : Option (Node F) :=
  match n.threads cpu with
  | ⟨.idle, []⟩ => some (n.setThread cpu ⟨.idle, [new]⟩)
  | ⟨base, .handler :: calls⟩ => some (n.setThread cpu ⟨base, new :: .handler :: calls⟩)
  | _ => none

def step (acked : F → Bool) (n : Node F) : Label F → Option (Node F)
  | .run cpu => (n.next acked cpu).map fun (th, effect) => (n.apply cpu effect).setThread cpu th
  | .post cpu target fcn param1 param2 =>
    if cpu < threadCount ∧ target < threadCount then
      n.call cpu (.send target ⟨some fcn, param1, param2⟩ .check)
    else none
  | .returns cpu =>
    match n.threads cpu with
    | ⟨base, .handler :: calls⟩ => some (n.setThread cpu ⟨base, calls⟩)
    | _ => none
  | .interrupt cpu agents =>
    match n.threads cpu with
    | ⟨.idle, []⟩ =>
      some (n.setThread cpu
        ⟨.flih agents (n.readStatus cpu agents) (firstSource agents) .scan, []⟩)
    | _ => none
  | .check cpu =>
    match n.threads cpu with
    | ⟨.idle, []⟩ => some (n.setThread cpu ⟨.checker 0 0 .look .empty, []⟩)
    | _ => none
  | .abort cpu =>
    match n.threads cpu with
    | ⟨base, .send _ _ .spin :: calls⟩ => some (n.setThread cpu ⟨base, calls⟩)
    | _ => none
  | .lose sender target => some { n with bits := set n.bits sender target false }
  | .await cpu target => n.call cpu (.avoid target .status)

def Node.init : Node F where
  threads := fun _ => ⟨.idle, []⟩
  slots := fun _ _ => .empty
  bits := fun _ _ => false
  posted := fun _ _ => []
  handled := fun _ _ => []

end BgqDriver.InterruptMessages
