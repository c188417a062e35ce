import BgqDriver.DbTransactionsRuns

/-!
Model of the clients of the real-time server and of its monitor of the database log:
`realtime/server/Client.cc` and `realtime/server/db2/DbChangesMonitor.cc`.

A client and the monitor only call each other through their strands, which run what is posted
to them one after the other. The socket is given by what has been written to it. The filters
are those of a type that the model does not look into, with the check of a change.
-/

namespace BgqDriver.RealtimeServer

open DbTransactions Function

variable {φ σ : Type}

inductive OutMsg (σ : Type)
  | started (filterId : Nat)
  | ended
  | change (change : Change σ)
deriving DecidableEq

inductive Callback (σ : Type)
  | connected (isConnected : Bool)
  | dbChanges (changes : List (Change σ))
deriving DecidableEq

inductive Task
  | addClient
  | removeClient
deriving DecidableEq

/-- A line from the socket: a start message, or anything else, an error included -/
inductive InMsg (φ : Type)
  | startRealtime (filter : φ) (filterId : Nat)
  | invalid

structure Client (φ σ : Type) where
  filter : φ
  filterId : Nat
  shutdownInd : Bool
  waiting : Bool
  connected : Bool
  outMsgs : List (OutMsg σ)
  toWrite : Option (OutMsg σ)
  written : List (OutMsg σ)

/-- `MAX_MSGS` -/
def maxMsgs : Nat := 500

def Client.init (filter : φ) : Client φ σ :=
  { filter, filterId := 0, shutdownInd := false, waiting := false, connected := false
    outMsgs := [], toWrite := none, written := [] }

/-- All messages queued so far, in order -/
def Client.queued (c : Client φ σ) : List (OutMsg σ) :=
  c.written ++ c.toWrite.toList ++ c.outMsgs

/-- `_startWriting` -/
def Client.startWriting (c : Client φ σ) : Client φ σ :=
  match c.toWrite, c.outMsgs with
  | none, msg :: rest => { c with toWrite := some msg, outMsgs := rest }
  | _, _ => c

def Client.push (c : Client φ σ) (msgs : List (OutMsg σ)) : Client φ σ :=
  { c with outMsgs := c.outMsgs ++ msgs }.startWriting

/-- `_shutdown` -/
def Client.shutdown (c : Client φ σ) : Client φ σ × List Task :=
  if c.shutdownInd then (c, []) else ({ c with shutdownInd := true }, [.removeClient])

/-- `_notifyConnectedToDbMonitorImpl` -/
def Client.notifyConnected (c : Client φ σ) (isConnected : Bool) : Client φ σ × List Task :=
  if c.shutdownInd then (c, [.removeClient])
  else if isConnected then
    if c.connected then (c, [])
    else ({ c with waiting := false, connected := true }.push [.started c.filterId], [])
  else if !c.connected then (c, [])
  else ({ c with waiting := false, connected := false }.push [.ended], [])

/-- `_notifyDbChangesImpl` -/
def Client.notifyDbChanges (check : φ → Change σ → Bool) (c : Client φ σ)
    (changes : List (Change σ)) : Client φ σ × List Task :=
  if c.shutdownInd then (c, [.removeClient])
  else if !c.connected then (c, [.removeClient])
  else
    let filtered := changes.filter (check c.filter)
    if filtered.isEmpty then (c, [])
    else if c.outMsgs.length + filtered.length > maxMsgs then c.shutdown
    else (c.push (filtered.map .change), [])

/-- `_readComplete` with `_handleMessage` -/
def Client.receive (c : Client φ σ) : InMsg φ → Client φ σ × List Task
  | .startRealtime filter filterId =>
    if c.shutdownInd then (c, [])
    else
      let c := { c with filter, filterId }
      if c.waiting || c.connected then (c.push [.started filterId], [])
      else ({ c with waiting := true }, [.addClient])
  | .invalid => if c.shutdownInd then (c, []) else c.shutdown

/-- `_writeComplete` -/
def Client.writeComplete (c : Client φ σ) (ok : Bool) : Client φ σ × List Task :=
  if c.shutdownInd then (c, [])
  else if !ok then c.shutdown
  else ({ c with written := c.written ++ c.toWrite.toList, toWrite := none }.startWriting, [])

def Client.handle (check : φ → Change σ → Bool) (c : Client φ σ) :
    Callback σ → Client φ σ × List Task
  | .connected isConnected => c.notifyConnected isConnected
  | .dbChanges changes => c.notifyDbChanges check changes

structure Server (φ σ : Type) where
  clients : Nat → Client φ σ
  /-- The callbacks posted to each client that have not run yet -/
  strands : Nat → List (Callback σ)
  /-- The tasks posted to the monitor that have not run yet -/
  tasks : List (Task × Nat)
  /-- The clients that the monitor knows -/
  members : List Nat
  watching : Bool
  exited : Bool
  maxTransactCond : Bool
  tmap : TransactionMap σ
  /-- A buffer of log records is being processed. -/
  inBatch : Bool
  /-- The changes committed by the records of the buffer so far -/
  dbChanges : List (Change σ)

def Server.init (filter : φ) : Server φ σ :=
  { clients := fun _ => Client.init filter, strands := fun _ => [], tasks := [], members := []
    watching := false, exited := false, maxTransactCond := false, tmap := []
    inBatch := false, dbChanges := [] }

def Server.onClient (s : Server φ σ) (id : Nat) (r : Client φ σ × List Task) : Server φ σ :=
  { s with
    clients := update s.clients id r.1
    tasks := s.tasks ++ r.2.map (·, id) }

def Server.post (s : Server φ σ) (id : Nat) (callback : Callback σ) : Server φ σ :=
  { s with strands := update s.strands id (s.strands id ++ [callback]) }

def Server.postAll (s : Server φ σ) (callback : Callback σ) : Server φ σ :=
  { s with
    strands := fun id =>
      if id ∈ s.members then s.strands id ++ [callback] else s.strands id }

/-- `notifyMaxXactCondition` and `notifyMaxXactConditionEnd` -/
def Server.notify (s : Server φ σ) : Notice → Server φ σ
  | .maxXactCondition => { s with maxTransactCond := true }.postAll (.connected false)
  | .maxXactConditionEnd => { s with maxTransactCond := false }.postAll (.connected true)

/-- `_addClientImpl`; `ok` says whether the monitoring can be started. When it cannot, the
exception ends the server. -/
def Server.addClientImpl (s : Server φ σ) (id : Nat) (ok : Bool) : Server φ σ :=
  let s := { s with members := s.members.insert id }
  if s.maxTransactCond then s
  else if s.watching then s.post id (.connected true)
  else if ok then { s with watching := true }.post id (.connected true)
  else { s with exited := true }.post id (.connected false)

/-- `_removeClientImpl` -/
def Server.removeClientImpl (s : Server φ σ) (id : Nat) : Server φ σ :=
  { s with members := s.members.filter (· ≠ id) }

/-- The end of `_processChanges` -/
def Server.endBatch (s : Server φ σ) : Server φ σ :=
  let t := { s with inBatch := false, dbChanges := [] }
  if s.members.isEmpty || s.dbChanges.isEmpty || s.maxTransactCond then t
  else t.postAll (.dbChanges s.dbChanges)

def Server.withLog (s : Server φ σ) (t : State σ) : Server φ σ :=
  { s with tmap := t.tmap, dbChanges := t.dbChanges, inBatch := true }

inductive Label (φ σ : Type)
  | receive (id : Nat) (msg : InMsg φ)
  | writeComplete (id : Nat) (ok : Bool)
  /-- The strand of the client runs the first callback. -/
  | callback (id : Nat)
  /-- The strand of the monitor runs the first task. -/
  | task (ok : Bool)
  | record (record : Record σ)
  | endBatch

section Step

variable (check : φ → Change σ → Bool) (memcmp : Tid → Tid → Int) (maxSize : Nat)

/-- `_processLogRecord`, with what the transactions tell the monitor -/
def Server.processLogRecord (s : Server φ σ) (record : Record σ) : Option (Server φ σ) :=
  (DbTransactions.step memcmp maxSize ⟨s.tmap, s.dbChanges, []⟩ record).map fun t =>
    t.notices.foldl Server.notify (s.withLog t)

def step (s : Server φ σ) : Label φ σ → Option (Server φ σ)
  | .receive id msg => some (s.onClient id ((s.clients id).receive msg))
  | .writeComplete id ok =>
    if (s.clients id).toWrite.isNone then none
    else some (s.onClient id ((s.clients id).writeComplete ok))
  | .callback id =>
    match s.strands id with
    | [] => none
    | callback :: rest =>
      some ({ s with strands := update s.strands id rest }.onClient id
        ((s.clients id).handle check callback))
  | .task ok =>
    if s.inBatch || s.exited then none
    else
      match s.tasks with
      | [] => none
      | (.addClient, id) :: rest => some ({ s with tasks := rest }.addClientImpl id ok)
      | (.removeClient, id) :: rest => some ({ s with tasks := rest }.removeClientImpl id)
  | .record record =>
    if s.watching then s.processLogRecord memcmp maxSize record else none
  | .endBatch => if s.inBatch then some s.endBatch else none

end Step

end BgqDriver.RealtimeServer
