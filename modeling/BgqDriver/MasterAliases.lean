import BgqDriver.EventRuns

/-!
Model of the accounting of started binaries in the master server: `master/server/AgentRep.cc`,
`AgentManager.cc`, `ClientController.cc`, `Registrar.cc`, `MasterController.cc` and `Alias.h`,
with the controllers of `master/common/AgentBase.cc`.

Every alias has a list of the ids of its running binaries, every connected agent has the
controllers of the binaries it manages. What the policies choose and what the agents answer
comes with the operations. The operations follow one another; a lost agent is taken from the
list first, and its binaries are then handled one after the other.
-/

namespace BgqDriver.MasterAliases

/-- The id of a binary, unique among the managed binaries; `"0"` stands for none. -/
abbrev BinaryId := String

/-- `BinaryController`, with a number for the object -/
structure Controller where
  ref : Nat
  binid : BinaryId
  aliasName : String
  /-- A stop was requested. -/
  stopping : Bool
deriving DecidableEq

structure Agent where
  id : String
  host : String
  binaries : List Controller
deriving DecidableEq

structure Alias where
  name : String
  /-- The instance limit of its policy -/
  limit : Nat
  binaries : List BinaryId
deriving DecidableEq

structure Master where
  aliases : List Alias
  /-- The connected agents -/
  agents : List Agent
  agentsPerHost : Nat
  endRequested : Bool
  nextRef : Nat
  /-- The controllers of a lost agent that have not been handled yet -/
  lost : List Controller
deriving DecidableEq

inductive Policy
  /-- There is nothing to start. -/
  | none
  /-- The policy cannot be carried out. -/
  | throws
  /-- An agent is chosen; `runPolicy` checks the instance limit. -/
  | run (agentId : String)
deriving DecidableEq

inductive StartReply
  | reply (ok : Bool) (binaryId : BinaryId)
  | softError
  | noRequester
  | hardError
deriving DecidableEq

/-- What becomes of a stop request to an agent: a good reply, one with an error, or an error
of the connection -/
inductive StopReply
  | ok
  | error
  | softError
  | noRequester
  | hardError
deriving DecidableEq

structure Answer where
  policy : Policy
  reply : StartReply
  stops : List StopReply
deriving DecidableEq

def StartReply.started : StartReply → Option BinaryId
  | .reply true binaryId => if binaryId = "0" then none else some binaryId
  | _ => none

/-- `AgentBase::addController` -/
def addController (c : Controller) (binaries : List Controller) : List Controller :=
  if c.aliasName = "mmcs_server" then c :: binaries
  else binaries.takeWhile (·.aliasName ≠ "mc_server") ++
    c :: binaries.dropWhile (·.aliasName ≠ "mc_server")

def Master.held (m : Master) : List Controller := m.agents.flatMap (·.binaries) ++ m.lost

def Master.modifyAlias (m : Master) (name : String) (f : List BinaryId → List BinaryId) : Master :=
  { m with
    aliases := m.aliases.map fun al =>
      if al.name = name then { al with binaries := f al.binaries } else al }

def Master.modifyAgent (m : Master) (agentId : String)
    (f : List Controller → List Controller) : Master :=
  { m with
    agents := m.agents.map fun a =>
      if a.id = agentId then { a with binaries := f a.binaries } else a }

/-- `Alias::add_binary` -/
def Master.addBinary (m : Master) (name : String) (binid : BinaryId) : Master :=
  m.modifyAlias name (· ++ [binid])

/-- `Alias::remove_binary` -/
def Master.removeBinary (m : Master) (name : String) (binid : BinaryId) : Master :=
  m.modifyAlias name (List.filter (· ≠ binid))

/-- `remove_binary` for every alias -/
def Master.removeFromAll (m : Master) (binid : BinaryId) : Master :=
  { m with
    aliases := m.aliases.map fun al => { al with binaries := al.binaries.filter (· ≠ binid) } }

/-- `Alias::find_binary` -/
def Master.owns (m : Master) (name : String) (binid : BinaryId) : Bool :=
  m.aliases.any fun al => al.name = name && al.binaries.contains binid

/-- `AgentBase::removeController` -/
def Master.removeController (m : Master) (agentId : String) (ref : Nat) : Master :=
  m.modifyAgent agentId (List.filter (·.ref ≠ ref))

/-- `Alias::check_instances` fails, or `runPolicy` finds no room. -/
def Master.full (m : Master) (name : String) : Bool :=
  m.aliases.any fun al => al.name = name && al.limit ≤ al.binaries.length

def Master.names (m : Master) : List String := m.aliases.map (·.name)

def Master.connected (m : Master) (agentId : String) : Bool := m.agents.any (·.id = agentId)

/-- `AgentBase::find_binary` -/
def Master.findController (m : Master) (agentId : String) (binid : BinaryId) : Option Controller :=
  ((m.agents.filter (·.id = agentId)).flatMap (·.binaries)).reverse.find? (·.binid = binid)

/-- `AgentManager::findBinary` -/
def Master.findBinary (m : Master) (binid : BinaryId) : Option (String × Controller) :=
  (m.agents.flatMap fun a => a.binaries.map (a.id, ·)).reverse.find? (·.2.binid = binid)

/-- `AgentBase::runningAlias` -/
def Master.runningAlias (m : Master) (agentId name : String) : Bool :=
  m.agents.any fun a => a.id = agentId && a.binaries.any (·.aliasName = name)

/-- `evaluatePolicy` and `validateStartAgent` -/
def Master.evaluatePolicy (m : Master) (name : String) : Policy → Except Unit (Option String)
  | .none => .ok none
  | .throws => .error ()
  | .run agentId =>
    if m.full name then .error ()
    else .ok (if m.connected agentId then some agentId else none)

/-- `startBin`. The id of a new binary is not that of a managed one. -/
def Master.startBin (m : Master) (agentId name : String) (r : StartReply) :
    Option (Master × BinaryId) :=
  if m.endRequested then some (m, "0")
  else if m.full name then some (m, "0")
  else
    match r.started with
    | none => some (m, "0")
    | some binid =>
      if m.held.any (·.binid = binid) then none
      else
        some ({ m.modifyAgent agentId (addController ⟨m.nextRef, binid, name, false⟩) with
          nextRef := m.nextRef + 1 }.addBinary name binid, binid)

/-- What the callers of `startBin` do that add the id to the alias themselves -/
def Master.startAndAdd (m : Master) (agentId name : String) (r : StartReply) : Option Master :=
  (m.startBin agentId name r).map fun (m, binid) =>
    if binid = "0" then m else m.addBinary name binid

/-- The part of `doStartRequest` for one alias, and `executePolicy_nl` when the policy has not
been evaluated yet -/
def Master.executePolicy (m : Master) (name : String) (p : Policy) (r : StartReply) :
    Option Master :=
  match m.evaluatePolicy name p with
  | .error _ => some m
  | .ok none => some m
  | .ok (some agentId) => m.startAndAdd agentId name r

/-- The part of `startServers` for one alias -/
def Master.startServer (m : Master) (name : String) (p : Policy) (r : StartReply) : Option Master :=
  if name = "bgmaster_server" ∨ name = "bgmaster" then some m
  else if m.aliases.any fun al => al.name = name && !al.binaries.isEmpty then some m
  else
    match m.evaluatePolicy name p with
    | .error _ => some m
    | .ok none => some m
    | .ok (some agentId) => (m.startBin agentId name r).map Prod.fst

/-- What `removeAgent` does for an alias of a binary of the lost agent -/
def Master.restart (m : Master) (name : String) (p : Policy) (r : StartReply) : Option Master :=
  match m.evaluatePolicy name p with
  | .error _ => some m
  | .ok none => some m
  | .ok (some agentId) =>
    if m.runningAlias agentId name then some m else m.startAndAdd agentId name r

def Master.setStopping (m : Master) (agentId : String) (ref : Nat) : Master :=
  m.modifyAgent agentId
    (List.map fun c => if c.ref = ref then { c with stopping := true } else c)

/-- The loop of `stopBin_nl`. A hard error leaves the reply as good as it was. -/
def stopLoop (agentId : String) (c : Controller) (forget : Bool) :
    Master → Nat → List StopReply → Option Master
  | m, 0, _ => some m
  | _, _ + 1, [] => none
  | m, retries + 1, reply :: replies =>
    match reply with
    | .softError => stopLoop agentId c forget m retries replies
    | .noRequester => some m
    | .error =>
      stopLoop agentId c forget (if forget then m.removeFromAll c.binid else m) (retries + 1)
        replies
    | .ok | .hardError =>
      let m := m.removeController agentId c.ref
      some (if forget then m.removeFromAll c.binid else m)

/-- `stopBin_nl` -/
def Master.stopBin (m : Master) (agentId : String) (c : Controller) (failover : Bool)
    (replies : List StopReply) : Option Master :=
  let forget := !failover
  stopLoop agentId c forget (if forget then m.setStopping agentId c.ref else m) 20 replies

/-- A loop over the aliases that have the id -/
def policyLoop (binid : BinaryId) (body : Master → String → Answer → Option Master) :
    Master → List String → List Answer → Option Master
  | m, [], _ => some m
  | m, name :: names, answers =>
    if m.owns name binid then
      match answers with
      | [] => none
      | answer :: answers =>
        (body m name answer).bind fun m => policyLoop binid body m names answers
    else policyLoop binid body m names answers

/-- `doCompleteRequest`. For an unknown binary the server uses a null pointer. -/
def Master.completed (m : Master) (agentId : String) (binid : BinaryId) : Option Master :=
  (m.findController agentId binid).map fun c =>
    let m := m.removeController agentId c.ref
    match m.names.find? (m.owns · binid) with
    | none => m
    | some name => m.removeBinary name binid

/-- `doFailedRequest` with `executePolicyAndClear_nl` -/
def Master.failed (m : Master) (agentId : String) (binid : BinaryId) (answers : List Answer) :
    Option Master :=
  match m.findController agentId binid with
  | none => some m
  | some c =>
    (if c.stopping then some (m.removeFromAll binid)
      else policyLoop binid (fun m name answer =>
        (m.removeBinary name binid).executePolicy name answer.policy answer.reply)
        m m.names answers).map fun m => m.removeController agentId c.ref

/-- The loop of `stopBinaryAndExecutePolicy`. It ends with an exception when the policy cannot
be carried out, or when there is nothing to start. -/
def failoverLoop (agentId : String) (c : Controller) :
    Master → List String → List Answer → Option Master
  | m, [], _ => some m
  | m, name :: names, answers =>
    if m.owns name c.binid then
      match answers with
      | [] => none
      | answer :: answers =>
        let m := m.removeBinary name c.binid
        match m.evaluatePolicy name answer.policy with
        | .error _ => some m
        | .ok none => some (m.addBinary name c.binid)
        | .ok (some target) =>
          (m.stopBin agentId c true answer.stops).bind fun m =>
            (m.startAndAdd target name answer.reply).bind fun m =>
              failoverLoop agentId c (m.removeController agentId c.ref) names answers
    else failoverLoop agentId c m names answers

/-- The loop of the constructor of `AgentRep` over the running binaries -/
def joinLoop : Master → List Controller → List (BinaryId × String) → Master × List Controller
  | m, binaries, [] => (m, binaries)
  | m, binaries, (binid, name) :: rest =>
    if !m.names.contains name then joinLoop m binaries rest
    else if (m.findBinary binid).isSome then joinLoop m binaries rest
    else
      joinLoop { m.addBinary name binid with nextRef := m.nextRef + 1 }
        (addController ⟨m.nextRef, binid, name, false⟩ binaries) rest

/-- A join request, with `addNew` -/
def Master.join (m : Master) (agentId host : String) (running : List (BinaryId × String)) :
    Master :=
  let r := joinLoop m [] running
  if (m.agents.filter (·.host = host)).length < m.agentsPerHost then
    { r.1 with agents := r.1.agents ++ [⟨agentId, host, r.2⟩] }
  else r.1

/-- The first part of `removeAgent` -/
def Master.agentLost (m : Master) (agentId : String) : Master :=
  { m with
    agents := m.agents.filter (·.id ≠ agentId)
    lost := (m.agents.filter (·.id = agentId)).flatMap (·.binaries) }

/-- A turn of the loop of `removeAgent` -/
def Master.lostBinary (m : Master) (answers : List Answer) : Option Master :=
  match m.lost with
  | [] => none
  | c :: rest =>
    (if c.stopping then some m
      else policyLoop c.binid (fun m name answer =>
        (m.removeBinary name c.binid).restart name answer.policy answer.reply)
        m m.names answers).map fun m => { m with lost := rest }

inductive Label
  | clientStart (name : String) (policy : Policy) (reply : StartReply)
  | startServer (name : String) (policy : Policy) (reply : StartReply)
  | stop (binid : BinaryId) (replies : List StopReply)
  | completed (agentId : String) (binid : BinaryId)
  | failed (agentId : String) (binid : BinaryId) (answers : List Answer)
  | failover (binid : BinaryId) (answers : List Answer)
  | join (agentId host : String) (running : List (BinaryId × String))
  | agentLost (agentId : String)
  | lostBinary (answers : List Answer)
  | requestEnd
deriving DecidableEq

/-- An operation of the master while no lost agent is being handled -/
def Master.operate (m : Master) : Label → Option Master
  | .clientStart name policy reply =>
    if m.names.contains name then m.executePolicy name policy reply else some m
  | .startServer name policy reply =>
    if m.names.contains name then m.startServer name policy reply else none
  | .stop binid replies =>
    match m.findBinary binid with
    | none => some m
    | some (agentId, c) => m.stopBin agentId c false replies
  | .completed agentId binid => m.completed agentId binid
  | .failed agentId binid answers => m.failed agentId binid answers
  | .failover binid answers =>
    match m.findBinary binid with
    | none => some m
    | some (agentId, c) => failoverLoop agentId c m m.names answers
  | .join agentId host running =>
    if m.connected agentId || !decide (running.map Prod.fst).Nodup then none
    else some (m.join agentId host running)
  | .agentLost agentId => if m.connected agentId then some (m.agentLost agentId) else none
  | .lostBinary _ => none
  | .requestEnd => some { m with endRequested := true }

def step (m : Master) : Label → Option Master
  | .lostBinary answers => m.lostBinary answers
  | label => if m.lost = [] then m.operate label else none

/-- The entries of the configuration make the list of aliases; a name is taken once. -/
def addAlias (aliases : List Alias) (entry : String × Nat) : List Alias :=
  if aliases.any (·.name = entry.1) then aliases else aliases ++ [⟨entry.1, entry.2, []⟩]

def Master.init (entries : List (String × Nat)) (agentsPerHost : Nat) : Master :=
  { aliases := entries.foldl addAlias []
    agents := [], agentsPerHost, endRequested := false, nextRef := 0, lost := [] }

end BgqDriver.MasterAliases
