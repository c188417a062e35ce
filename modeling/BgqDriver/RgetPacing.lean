import Mathlib.Algebra.Group.Nat.Defs
import Mathlib.Logic.Function.Basic

/-!
Model of `agents/src/comm/rgetpacing.c`, the remote get pacing of the communication
agent. Work items are numbered by their addresses: `0` is the dummy item of the active
list and the others come from the heap, a block of sixteen at a time. A loop that follows
links carries fuel, and a function is `none` where the code would follow a null pointer
or a loop would not end.

`doRemoteGetPacingWork` is cut into the turns of its loops, so that the hardware can
progress between any two of them. What a turn learns from the injection fifo (whether
there is space, whether a descriptor has left it) is part of the label of the turn.
-/

namespace BgqDriver.RgetPacing

open Function

structure Descriptor where
  packetType : BitVec 8
  byte3 : BitVec 8
  destination : BitVec 32
  paPayload : BitVec 64
  messageLength : BitVec 64
  rgetInjFifoId : BitVec 10
  putOffsetMSB : BitVec 5
  putOffsetLSB : BitVec 32
  recCounterBaseAddressId : BitVec 10
  counterOffset : BitVec 64
deriving DecidableEq, Inhabited

/-- `MUSPI_SetZoneRouting` -/
def Descriptor.setZoneRouting (d : Descriptor) (zone : BitVec 8) : Descriptor :=
  { d with byte3 := (d.byte3 &&& 0xe7#8) ||| (zone &&& 0x18#8) }

/-- `MUSPI_SetRecCounterBaseAddressInfo` -/
def Descriptor.setRecCounterBaseAddressInfo (d : Descriptor) (id : BitVec 10)
    (offset : BitVec 64) : Descriptor :=
  { d with recCounterBaseAddressId := id, counterOffset := offset }

def Descriptor.advance (d : Descriptor) (size : Nat) : Descriptor :=
  let offset : BitVec 64 := d.putOffsetLSB.setWidth 64 ||| (d.putOffsetMSB.setWidth 64 <<< 32)
  let offset := offset + BitVec.ofNat 64 size
  { d with
    paPayload := d.paPayload + BitVec.ofNat 64 size
    putOffsetLSB := offset.setWidth 32
    putOffsetMSB := (offset >>> 32).setWidth 5 }

structure WorkItemID where
  globalInjFifo : BitVec 16
  globalRgetFifo : BitVec 16
  destCoords : BitVec 32
deriving DecidableEq, Inhabited

structure Request where
  globalInjFifo : BitVec 16
  peerID : BitVec 64
  rgetDescriptor : Descriptor
  payloadDescriptor : Descriptor
deriving DecidableEq, Inhabited

def Request.id (r : Request) : WorkItemID where
  globalInjFifo := r.globalInjFifo
  globalRgetFifo := r.rgetDescriptor.rgetInjFifoId.setWidth 16
  destCoords := r.rgetDescriptor.destination

/-- `MUHWI_PACKET_TYPE_PUT` -/
def packetTypePut : BitVec 8 := 0x40#8

def Descriptor.isDPut (d : Descriptor) : Bool := d.packetType &&& 0xc0#8 == packetTypePut

/-- A work item, without its links. The item also records which request it serves. -/
structure WorkItem where
  request : Nat
  rgetDescriptor : Descriptor
  payloadDescriptor : Descriptor
  remainingInjectLength : Nat
  remainingCompletionLength : Nat
  paceIt : Bool
  ensureComplete : Bool
  peerID : BitVec 64
  id : WorkItemID
deriving DecidableEq, Inhabited

structure Scaling where
  base : Nat
  threshold1 : Nat
  threshold2 : Nat
  multiplyingFactor1 : Nat
  multiplyingFactor2 : Nat
  threshold_le : threshold1 ≤ threshold2
  factor_le : multiplyingFactor1 ≤ multiplyingFactor2
  /-- The agent divides by these sizes. -/
  base_pos : 0 < base
  factor_pos : 0 < multiplyingFactor1
  /-- The sizes are of type `int`. -/
  size_lt : base * multiplyingFactor2 < 2 ^ 31

def Scaling.size (c : Scaling) (percentageActive : Nat) : Nat :=
  if c.threshold2 ≤ percentageActive then c.base * c.multiplyingFactor2
  else if c.threshold1 ≤ percentageActive then
    let amountIntoMultiplyingFactorRange :=
      (percentageActive - c.threshold1) * (c.multiplyingFactor2 - c.multiplyingFactor1 + 1) /
        (c.threshold2 - c.threshold1 + 1)
    c.base * (c.multiplyingFactor1 + amountIntoMultiplyingFactorRange)
  else c.base

/-- The configuration of the agent, after the environment variables have been read, and
the addresses that it sets up once. -/
structure Config where
  numCounters : Nat
  paceRgets : Bool
  doSubRegionCalculations : Bool
  subRemoteGetSize : Scaling
  maxBytesInNetwork : Scaling
  randomThreshold : Nat
  randomZone : BitVec 8
  numAnodes : Nat
  numBnodes : Nat
  numCnodes : Nat
  numDnodes : Nat
  globalBatId : BitVec 10
  counterAtomicOffsets : Nat → BitVec 64
  counterPayloadPA : Nat → BitVec 64
  /-- The physical address of the payload descriptor in a work item. -/
  payloadPA : Nat → BitVec 64

def numPlanes (nodes : Nat) : Nat := if nodes < 16 then if nodes < 4 then nodes else 4 else 8

def Config.numSubRegions (cfg : Config) : Nat :=
  numPlanes cfg.numAnodes * numPlanes cfg.numBnodes * numPlanes cfg.numCnodes *
    numPlanes cfg.numDnodes

def Config.subRegion (cfg : Config) (destination : BitVec 32) : Nat :=
  let A := (destination.extractLsb' 24 6).toNat
  let B := (destination.extractLsb' 18 6).toNat
  let C := (destination.extractLsb' 12 6).toNat
  let D := (destination.extractLsb' 6 6).toNat
  let Aindex := numPlanes cfg.numAnodes * A / cfg.numAnodes
  let Bindex := numPlanes cfg.numBnodes * B / cfg.numBnodes
  let Cindex := numPlanes cfg.numCnodes * C / cfg.numCnodes
  let Dindex := numPlanes cfg.numDnodes * D / cfg.numDnodes
  Aindex * (numPlanes cfg.numBnodes * numPlanes cfg.numCnodes * numPlanes cfg.numDnodes) +
    Bindex * (numPlanes cfg.numCnodes * numPlanes cfg.numDnodes) +
    Cindex * numPlanes cfg.numDnodes + Dindex

structure Pacing where
  subRegions : Nat → Nat
  numActiveSubRegions : Nat
  useRandomZone : Bool
  subRemoteGetSize : Nat
  maxBytesInNetwork : Nat
  numSubMessageCounters : Nat

def calculateSubRegionParameters (cfg : Config) (p : Pacing) : Pacing :=
  let percentageActive := p.numActiveSubRegions * 100 / cfg.numSubRegions
  let subRemoteGetSize := cfg.subRemoteGetSize.size percentageActive
  let maxBytesInNetwork := max (cfg.maxBytesInNetwork.size percentageActive) subRemoteGetSize
  { p with
    useRandomZone := p.useRandomZone || decide (cfg.randomThreshold ≤ percentageActive)
    subRemoteGetSize := subRemoteGetSize
    maxBytesInNetwork := maxBytesInNetwork
    numSubMessageCounters := maxBytesInNetwork / subRemoteGetSize }

/-- The counting part of `setRandomZone` at the start of a work item. -/
def Pacing.enter (cfg : Config) (p : Pacing) (destination : BitVec 32) : Pacing :=
  let index := cfg.subRegion destination
  let p := { p with subRegions := update p.subRegions index (p.subRegions index + 1) }
  if p.subRegions index = 1 then
    calculateSubRegionParameters cfg { p with numActiveSubRegions := p.numActiveSubRegions + 1 }
  else p

/-- `setRandomZone` at the end of a work item. -/
def Pacing.leave (cfg : Config) (p : Pacing) (destination : BitVec 32) : Pacing :=
  let index := cfg.subRegion destination
  let p := { p with subRegions := update p.subRegions index (p.subRegions index - 1) }
  if p.subRegions index = 0 then
    calculateSubRegionParameters cfg { p with numActiveSubRegions := p.numActiveSubRegions - 1 }
  else p

/-- What happened to the requests, for the statements about whole runs. A sub-message is
recorded with its descriptor and the sub-message size in force. -/
inductive Event
  | injected (request : Nat) (subMessage : Descriptor) (size : Nat)
  | completed (request : Nat) (length : Nat)
  | sent (request : Nat)
  | retired (request : Nat)
deriving DecidableEq

/-- The number of active paced sub-messages against the limit on it: when a paced sub-message
is injected, and when `setRandomZone` has replaced the old limit by the new one -/
inductive LimitEvent
  | injected (active : Int) (limit : Nat)
  | recalculated (active : Int) (old new : Nat)

/-- The state of the agent, without the lists of work items. -/
structure Data where
  items : Nat → WorkItem
  counterWorkItems : Nat → Option Nat
  subMessageSizes : Nat → BitVec 32
  receptionCounters : Nat → Nat
  counterPayload : Nat → Descriptor
  bytesWaitingToInject : BitVec 64
  numNonDPutWorkItems : Int
  numActiveCounters : Int
  numActivePacedCounters : Int
  pacing : Pacing
  arrivals : List Request
  log : List Event
  limits : List LimitEvent

/-- The lists of work items: `NULL` is `none`. -/
structure Links where
  nextPtr : Nat → Option Nat
  prevPtr : Nat → Option Nat
  nextPeerPtr : Nat → Option Nat
  prevPeerPtr : Nat → Option Nat
  nextWorkItemToProcess : Nat
  freeWorkItemList : Option Nat
  ensureWorkItemList : Option Nat
  /-- The number of work items in the heap. -/
  allocated : Nat

def dummy : Nat := 0

/-- Where the agent is in `doRemoteGetPacingWork`: outside, at a turn of the loop over the
counters, of `injectNonDPutMessages`, or of `checkWorkItemsWaitingForCompletion`. -/
inductive Control
  | idle
  | counters (counterNum : Nat) (numCountersToBeProcessed : Int) (tryToInject : Bool)
  | nonDPut (workItem : Nat)
  | ensure (workItem : Option Nat) (doWorkAgain : Bool)
deriving DecidableEq

structure State where
  data : Data
  links : Links
  control : Control

/-- The state after the first `RGET_INIT` request. -/
def init (cfg : Config) : State where
  data := {
    items := fun _ => default
    counterWorkItems := fun _ => none
    subMessageSizes := fun _ => 0
    receptionCounters := fun _ => 0
    counterPayload := fun _ => default
    bytesWaitingToInject := 0
    numNonDPutWorkItems := 0
    numActiveCounters := 0
    numActivePacedCounters := 0
    pacing := {
      subRegions := fun _ => 0
      numActiveSubRegions := 0
      useRandomZone := false
      subRemoteGetSize := cfg.subRemoteGetSize.base
      maxBytesInNetwork := cfg.maxBytesInNetwork.base
      numSubMessageCounters := cfg.maxBytesInNetwork.base / cfg.subRemoteGetSize.base }
    arrivals := []
    log := []
    limits := [] }
  links := {
    nextPtr := update (fun _ => none) dummy (some dummy)
    prevPtr := update (fun _ => none) dummy (some dummy)
    nextPeerPtr := fun _ => none
    prevPeerPtr := fun _ => none
    nextWorkItemToProcess := dummy
    freeWorkItemList := none
    ensureWorkItemList := none
    allocated := 0 }
  control := .idle

def isDPutWorkItem (d : Data) (w : Nat) : Bool := (d.items w).payloadDescriptor.isDPut

def Data.setItem (d : Data) (w : Nat) (f : WorkItem → WorkItem) : Data :=
  { d with items := update d.items w (f (d.items w)) }

def Data.record (d : Data) (e : Event) : Data := { d with log := d.log ++ [e] }

def Data.setPacing (d : Data) (p : Pacing) : Data :=
  { d with
    pacing := p
    limits := d.limits ++ [.recalculated d.numActivePacedCounters d.pacing.numSubMessageCounters
      p.numSubMessageCounters] }

def Data.activate (d : Data) (w : Nat) : Data :=
  if isDPutWorkItem d w then
    { d with
      bytesWaitingToInject :=
        d.bytesWaitingToInject + BitVec.ofNat 64 (d.items w).remainingInjectLength }
  else { d with numNonDPutWorkItems := d.numNonDPutWorkItems + 1 }

def Links.pushFree (k : Links) (w : Nat) : Links :=
  { k with
    nextPtr := update k.nextPtr w k.freeWorkItemList
    freeWorkItemList := some w }

def Links.pushEnsure (k : Links) (w : Nat) : Links :=
  { k with
    prevPtr :=
      update
        (match k.ensureWorkItemList with
        | some e => update k.prevPtr e (some w)
        | none => k.prevPtr)
        w none
    nextPtr := update k.nextPtr w k.ensureWorkItemList
    ensureWorkItemList := some w }

def Links.promote (k : Links) (peer lastPeer next prev : Nat) : Links :=
  { k with
    prevPtr := update (update k.prevPtr peer (some prev)) next (some peer)
    nextPtr := update (update k.nextPtr peer (some next)) prev (some peer)
    prevPeerPtr := update k.prevPeerPtr peer (some lastPeer)
    nextPeerPtr := update k.nextPeerPtr lastPeer (some peer) }

/-- Take an item without peers out of the active list. -/
def Links.unlink (k : Links) (next prev : Nat) : Links :=
  { k with
    prevPtr := update k.prevPtr next (some prev)
    nextPtr := update k.nextPtr prev (some next) }

def Links.moveAlong (k : Links) (w prev : Nat) : Option Links :=
  if k.nextWorkItemToProcess = w then do
    let cursor ← k.nextPtr prev
    some { k with nextWorkItemToProcess := cursor }
  else some k

def Links.putAway (k : Links) (w : Nat) (wait : Bool) : Links :=
  if wait then k.pushEnsure w else k.pushFree w

def removeWorkItem (d : Data) (k : Links) (w : Nat) (descComplete : Bool) :
    Option (Data × Links) := do
  let next ← k.nextPtr w
  let prev ← k.prevPtr w
  let peer ← k.nextPeerPtr w
  let (d, k) ←
    if peer ≠ w then do
      let lastPeer ← k.prevPeerPtr w
      some (d.activate peer, k.promote peer lastPeer next prev)
    else some (d, k.unlink next prev)
  let k ← k.moveAlong w prev
  some (d.record (.retired (d.items w).request),
    k.putAway w ((d.items w).ensureComplete && !descComplete))

/-- `COMM_AGENT_REMOTE_GET_PACING_NUM_WORK_ITEMS_IN_HEAP_BLOCK` -/
def numWorkItemsInHeapBlock : Nat := 16

def Links.grow (k : Links) : Links :=
  let block := k.allocated + 1
  let last := k.allocated + numWorkItemsInHeapBlock
  { k with
    prevPtr := fun w => if block ≤ w ∧ w ≤ last then none else k.prevPtr w
    nextPtr := fun w =>
      if block ≤ w ∧ w ≤ last then if w = last then none else some (w + 1) else k.nextPtr w
    freeWorkItemList := some block
    allocated := last }

def Links.clear (k : Links) (w : Nat) : Links :=
  { k with
    nextPtr := update k.nextPtr w none
    prevPtr := update k.prevPtr w none
    nextPeerPtr := update k.nextPeerPtr w none
    prevPeerPtr := update k.prevPeerPtr w none }

def Links.allocate (k : Links) : Option (Nat × Links) := do
  let k := if k.freeWorkItemList = none then k.grow else k
  let w ← k.freeWorkItemList
  some (w, { k with freeWorkItemList := k.nextPtr w }.clear w)

structure Matches where
  onPeer : Option Nat
  onID : Option Nat

def samePeer (peerID peerID' : BitVec 64) : Bool := peerID != 0 && peerID' != 0 && peerID == peerID'

def Matches.note (m : Matches) (mainItem : Nat) (i : WorkItem) (id : WorkItemID)
    (peerID : BitVec 64) : Matches where
  onPeer := if samePeer i.peerID peerID then some mainItem else m.onPeer
  onID := if i.id = id then m.onID.or (some mainItem) else m.onID

/-- The loop over the items that are queued behind one active item. -/
def scanPeers (items : Nat → WorkItem) (k : Links) (id : WorkItemID) (peerID : BitVec 64)
    (mainItem : Nat) : Nat → Nat → Matches → Option Matches
  | 0, _, _ => none
  | fuel + 1, peer, m => do
    let m := m.note mainItem (items peer) id peerID
    let peer ← k.nextPeerPtr peer
    if m.onPeer = none ∧ peer ≠ mainItem then scanPeers items k id peerID mainItem fuel peer m
    else some m

/-- The loop over the active items. -/
def scanMain (items : Nat → WorkItem) (k : Links) (id : WorkItemID) (peerID : BitVec 64) :
    Nat → Nat → Matches → Option Matches
  | 0, _, _ => none
  | fuel + 1, mainItem, m =>
    if m.onPeer = none ∧ mainItem ≠ dummy then do
      let m ← scanPeers items k id peerID mainItem (k.allocated + 1) mainItem m
      let mainItem ← k.nextPtr mainItem
      scanMain items k id peerID fuel mainItem m
    else some m

def Links.insertActive (k : Links) (w prev : Nat) : Links :=
  let next := k.nextWorkItemToProcess
  { k with
    nextPtr := update (update k.nextPtr w (some next)) prev (some w)
    prevPtr := update (update k.prevPtr w (some prev)) next (some w)
    nextPeerPtr := update k.nextPeerPtr w (some w)
    prevPeerPtr := update k.prevPeerPtr w (some w) }

def Links.insertPeer (k : Links) (w mainItem prev : Nat) : Links :=
  { k with
    nextPeerPtr := update (update k.nextPeerPtr w (some mainItem)) prev (some w)
    prevPeerPtr := update (update k.prevPeerPtr w (some prev)) mainItem (some w) }

def addWorkItem (items : Nat → WorkItem) (k : Links) (id : WorkItemID) (peerID : BitVec 64) :
    Option (Nat × Links) := do
  let (w, k) ← k.allocate
  let mainItem ← k.nextPtr dummy
  let m ← scanMain items k id peerID (k.allocated + 1) mainItem ⟨none, none⟩
  match m.onPeer.or m.onID with
  | none => do
    let prev ← k.prevPtr k.nextWorkItemToProcess
    some (w, k.insertActive w prev)
  | some mainItem => do
    let prev ← k.prevPeerPtr mainItem
    some (w, k.insertPeer w mainItem prev)

def Request.workItem (cfg : Config) (r : Request) (request : Nat) : WorkItem where
  request := request
  rgetDescriptor := r.rgetDescriptor
  payloadDescriptor := r.payloadDescriptor
  remainingInjectLength := r.payloadDescriptor.messageLength.toNat
  remainingCompletionLength := r.payloadDescriptor.messageLength.toNat
  paceIt := cfg.paceRgets
  ensureComplete := false
  peerID := r.peerID
  id := r.id

def Request.dPutPayload (cfg : Config) (r : Request) (useRandomZone : Bool) : Descriptor :=
  let payload := r.payloadDescriptor.setRecCounterBaseAddressInfo cfg.globalBatId 0
  if useRandomZone then payload.setZoneRouting cfg.randomZone else payload

def Data.fill (cfg : Config) (d : Data) (w : Nat) (r : Request) : Data :=
  let item := r.workItem cfg d.arrivals.length
  let d := { d with arrivals := d.arrivals ++ [r] }
  if r.payloadDescriptor.isDPut then
    let d :=
      if cfg.doSubRegionCalculations then
        d.setPacing (d.pacing.enter cfg r.rgetDescriptor.destination)
      else d
    let useRandomZone := cfg.doSubRegionCalculations && d.pacing.useRandomZone
    { d with
      items := update d.items w
        { item with payloadDescriptor := r.dPutPayload cfg useRandomZone } }
  else
    { d with
      items := update d.items w
        { item with rgetDescriptor := { r.rgetDescriptor with paPayload := cfg.payloadPA w } } }

/-- `setupWorkItem` after the item has its place in the lists. -/
def Data.setup (cfg : Config) (d : Data) (w : Nat) (r : Request) (active : Bool) : Data :=
  let d := d.fill cfg w r
  if active then d.activate w else d

def setupWorkItem (cfg : Config) (s : State) (r : Request) : Option State := do
  let (w, k) ← addWorkItem s.data.items s.links r.id r.peerID
  some { s with links := k, data := s.data.setup cfg w r (k.nextPtr w).isSome }

def Data.lengthCompleted (d : Data) (counterNum : Nat) : Nat :=
  ((d.subMessageSizes counterNum).signExtend 64).toNat

def completeWorkItem (cfg : Config) (d : Data) (k : Links) (w counterNum : Nat)
    (descComplete : Bool) : Option (Data × Links) :=
  if (d.items w).paceIt = false ∨
      (d.items w).remainingCompletionLength ≤ d.lengthCompleted counterNum then
    let d :=
      if cfg.doSubRegionCalculations then
        d.setPacing (d.pacing.leave cfg (d.items w).rgetDescriptor.destination)
      else d
    removeWorkItem d k w descComplete
  else
    let done := d.lengthCompleted counterNum
    some (d.setItem w fun i =>
      { i with remainingCompletionLength := i.remainingCompletionLength - done }, k)

def Data.eligible (d : Data) (w : Nat) : Bool :=
  w != dummy && isDPutWorkItem d w && (d.items w).remainingInjectLength != 0 &&
    !((d.items w).paceIt && d.numActivePacedCounters == d.pacing.numSubMessageCounters)

def findDPut (d : Data) (k : Links) : Nat → Nat → Option (Option Nat)
  | 0, _ => none
  | fuel + 1, w =>
    if d.eligible w then some (some w)
    else do
      let w ← k.nextPtr w
      if w = k.nextWorkItemToProcess then some none else findDPut d k fuel w

def Data.nextLength (d : Data) (w : Nat) : Nat :=
  if (d.items w).paceIt then min d.pacing.subRemoteGetSize (d.items w).remainingInjectLength
  else (d.items w).remainingInjectLength

def Data.nextSubMessage (cfg : Config) (d : Data) (w counterNum : Nat) : Descriptor :=
  { (d.items w).payloadDescriptor with
    messageLength := BitVec.ofNat 64 (d.nextLength w)
    counterOffset := cfg.counterAtomicOffsets counterNum }

def Data.inject (cfg : Config) (d : Data) (w counterNum : Nat) : Data :=
  let length := d.nextLength w
  let subMessage := d.nextSubMessage cfg w counterNum
  let item := d.items w
  { d with
    numActivePacedCounters :=
      if item.paceIt then d.numActivePacedCounters + 1 else d.numActivePacedCounters
    items := update d.items w
      { item with
        remainingInjectLength := item.remainingInjectLength - length
        rgetDescriptor := { item.rgetDescriptor with paPayload := cfg.counterPayloadPA counterNum }
        payloadDescriptor := subMessage.advance d.pacing.subRemoteGetSize }
    bytesWaitingToInject := d.bytesWaitingToInject - BitVec.ofNat 64 length
    receptionCounters := update d.receptionCounters counterNum length
    numActiveCounters := d.numActiveCounters + 1
    counterPayload := update d.counterPayload counterNum subMessage
    counterWorkItems := update d.counterWorkItems counterNum (some w)
    subMessageSizes := update d.subMessageSizes counterNum (BitVec.ofNat 32 length)
    log := d.log ++ [.injected item.request subMessage d.pacing.subRemoteGetSize]
    limits :=
      if item.paceIt then
        d.limits ++ [.injected d.numActivePacedCounters d.pacing.numSubMessageCounters]
      else d.limits }

def injectNextDPutSubMessage (cfg : Config) (d : Data) (k : Links) (counterNum : Nat)
    (space : Bool) : Option (Data × Links × Bool) :=
  if d.bytesWaitingToInject = 0 ∨ space = false then some (d, k, true)
  else do
    match ← findDPut d k (k.allocated + 1) k.nextWorkItemToProcess with
    | none => some (d, k, false)
    | some w => do
      let next ← k.nextPtr w
      some (d.inject cfg w counterNum, { k with nextWorkItemToProcess := next }, true)

def Data.releaseCounter (d : Data) (w counterNum : Nat) : Data :=
  let d := if (d.items w).paceIt then
    { d with numActivePacedCounters := d.numActivePacedCounters - 1 } else d
  { d with numActiveCounters := d.numActiveCounters - 1 }.record
    (.completed (d.items w).request (d.counterPayload counterNum).messageLength.toNat)

/-- The sub-message of a counter that is zero, if it has one, has completed. -/
def completeCounter (cfg : Config) (d : Data) (k : Links) (counterNum : Nat) (toBeProcessed : Int)
    (tryToInject descComplete : Bool) : Option (Data × Links × Int × Bool) :=
  match d.counterWorkItems counterNum with
  | none => some (d, k, toBeProcessed, tryToInject)
  | some w => do
    let (d, k) ← completeWorkItem cfg (d.releaseCounter w counterNum) k w counterNum descComplete
    some ({ d with counterWorkItems := update d.counterWorkItems counterNum none }, k,
      toBeProcessed - 1, true)

/-- A turn of the loop over the counters, for a counter that is zero. -/
def pollZeroCounter (cfg : Config) (d : Data) (k : Links) (counterNum : Nat) (toBeProcessed : Int)
    (tryToInject space descComplete : Bool) : Option (Data × Links × Int × Bool) := do
  let (d, k, toBeProcessed, tryToInject) ←
    completeCounter cfg d k counterNum toBeProcessed tryToInject descComplete
  if tryToInject && d.bytesWaitingToInject != 0 then do
    let (d, k, tryToInject) ← injectNextDPutSubMessage cfg d k counterNum space
    some (d, k, toBeProcessed, tryToInject)
  else some (d, k, toBeProcessed, tryToInject)

/-- The search for an active item that is not a direct put. -/
def findNonDPut (d : Data) (k : Links) : Nat → Nat → Option Nat
  | 0, _ => none
  | fuel + 1, w =>
    if w = dummy ∨ isDPutWorkItem d w then do findNonDPut d k fuel (← k.nextPtr w)
    else some w

/-- The descriptor of an item that is not a direct put is injected. -/
def Data.send (d : Data) (w : Nat) : Data :=
  (d.setItem w fun i => { i with ensureComplete := true }).record (.sent (d.items w).request)

/-- A turn of the loop of `injectNonDPutMessages`, with space in the injection fifo. The
result names the item to go on with. -/
def injectNonDPutMessage (d : Data) (k : Links) (workItem : Nat) (descComplete : Bool) :
    Option (Data × Links × Nat) := do
  let w ← findNonDPut d k (k.allocated + 1) workItem
  let nextWorkItem ← k.nextPtr w
  let (d, k) ← removeWorkItem (d.send w) k w descComplete
  some ({ d with numNonDPutWorkItems := d.numNonDPutWorkItems - 1 }, k, nextWorkItem)

def Links.popEnsure (k : Links) (w : Nat) : Links :=
  { k with
    nextPtr :=
      match k.prevPtr w with
      | some prev => update k.nextPtr prev (k.nextPtr w)
      | none => k.nextPtr
    prevPtr :=
      match k.nextPtr w with
      | some next => update k.prevPtr next (k.prevPtr w)
      | none => k.prevPtr
    ensureWorkItemList :=
      if k.ensureWorkItemList = some w then k.nextPtr w else k.ensureWorkItemList }

/-- The end of the outer loop of `doRemoteGetPacingWork`. -/
def State.finish (s : State) (doWorkAgain : Bool) : State :=
  { s with
    control := if doWorkAgain then .counters 0 s.data.numActiveCounters true else .idle }

/-- The start of `checkWorkItemsWaitingForCompletion`, if there is something to check. -/
def State.startEnsure (s : State) (doWorkAgain : Bool) : State :=
  if s.links.ensureWorkItemList = none then s.finish doWorkAgain
  else { s with control := .ensure s.links.ensureWorkItemList doWorkAgain }

/-- One turn of a loop of `doRemoteGetPacingWork`, or the call of it. -/
def work (cfg : Config) (s : State) (space descComplete : Bool) : Option State :=
  match s.control with
  | .idle => some (s.finish true)
  | .counters counterNum toBeProcessed tryToInject =>
    if counterNum < cfg.numCounters ∧ (toBeProcessed ≠ 0 ∨ s.data.bytesWaitingToInject ≠ 0) then
      if s.data.receptionCounters counterNum = 0 then do
        let (d, k, toBeProcessed, tryToInject) ←
          pollZeroCounter cfg s.data s.links counterNum toBeProcessed tryToInject space descComplete
        some ⟨d, k, .counters (counterNum + 1) toBeProcessed tryToInject⟩
      else some { s with control := .counters (counterNum + 1) toBeProcessed tryToInject }
    else if 0 < s.data.numNonDPutWorkItems then
      some { s with control := .nonDPut s.links.nextWorkItemToProcess }
    else some (s.startEnsure false)
  | .nonDPut workItem =>
    if 0 < s.data.numNonDPutWorkItems ∧ space then do
      let (d, k, workItem) ← injectNonDPutMessage s.data s.links workItem descComplete
      some ⟨d, k, .nonDPut workItem⟩
    else some (s.startEnsure true)
  | .ensure (some w) doWorkAgain =>
    some { s with
      links := if descComplete then (s.links.popEnsure w).pushFree w else s.links
      control := .ensure (s.links.nextPtr w) doWorkAgain }
  | .ensure none doWorkAgain =>
    some (s.finish (doWorkAgain || s.links.ensureWorkItemList.isSome))

inductive Label
  /-- A work request is processed. -/
  | request (r : Request)
  /-- The hardware has received bytes that a reception counter counts. -/
  | receive (counterNum bytes : Nat)
  /-- A turn of the agent. -/
  | work (space descComplete : Bool)
deriving DecidableEq

def step (cfg : Config) (s : State) : Label → Option State
  | .request r => if s.control = .idle then setupWorkItem cfg s r else none
  | .receive counterNum bytes =>
    if bytes ≤ s.data.receptionCounters counterNum then
      some { s with
        data := { s.data with
          receptionCounters := update s.data.receptionCounters counterNum
            (s.data.receptionCounters counterNum - bytes) } }
    else none
  | .work space descComplete => work cfg s space descComplete

end BgqDriver.RgetPacing
