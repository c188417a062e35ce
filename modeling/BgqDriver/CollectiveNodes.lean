import BgqDriver.ScalarReductions

/-!
The reduction node by node (`BgNDReduce_multiNodeScalarReduce` and
`BgNDReduce_allNodeScalarReduce` of `BgNDReduce_C.c`). A node combines what its
links deliver, each link being a child node or the node's own contribution, and
passes the result on. A failed assertion is `none`.
-/

namespace BgqDriver.NetworkReduce

open Function

/-- The arguments that all nodes share. `willParticipate node link` is negative for a
link that takes no part; the words of a local array are `uninit` until they are
written, and `cells` are the uninitialised arrays of a signed addition. -/
structure Collective where
  host : Host
  willParticipate : Nat → Nat → Int
  maxParticipant : Int
  participationGeneration : Nat
  offset : Nat
  elementWords : Nat
  opCode : ColOpcode
  Tree : Option (List Char)
  vContribution : Nat → Words
  vFlagsContribution : Option (Nat → BitVec 64)
  uninit : Words
  cells : AdderCells
  /-- The counters of the nodes stay within `int`. -/
  fits : (42 + 1) * (maxParticipant + 1) < 2 ^ 31

/-- What the calls for the nodes write. -/
structure NodeState where
  nodeParticipation : Nat → Nat
  totalParticipation : Nat
  vNodeExceptions : Option (Nat → Nat → BitVec 64)
  vNodeResult : Option (Nat → Words)

/-- The variables of the loop over the links: the local contributions with their
flags, and the exceptions of the nodes below. -/
structure LinkState where
  localContributions : List (Words × BitVec 64)
  globalException : BitVec 64
  nodes : NodeState

namespace Collective

variable (c : Collective)

def flags (node : Nat) : BitVec 64 :=
  match c.vFlagsContribution with
  | none => 0
  | some vFlags => vFlags node

def element (node : Nat) : Words := fun i => c.vContribution node (c.offset + i)

/-- The offset is a number of whole elements. -/
def offsetFits : Bool := c.elementWords != 0 && c.offset % c.elementWords == 0

def checkNeighbor (other : Nat) (otherException : BitVec 64) (words : Words) (st : NodeState) :
    Bool :=
  (match st.vNodeExceptions with
    | none => true
    | some exceptions =>
      let otherLocal := exceptions other (c.offset / c.elementWords)
      c.offsetFits && otherLocal == otherLocal &&& otherException) &&
  (match st.vNodeResult with
    | none => true
    | some results =>
      (List.range c.elementWords).all fun i => words i == results other (c.offset + i))

/-- One link of node `thisNode`; `visit` is the call for a neighbor node. -/
def linkStep (visit : Nat → BitVec 64 → Words → NodeState → Option (BitVec 64 × Words × NodeState))
    (thisNode : Nat) (s : LinkState) (link : Nat) : Option LinkState :=
  let otherParticipant := c.willParticipate thisNode link
  if otherParticipant < 0 then
    some s
  else if link < 11 then
    match visit otherParticipant.toNat 0 c.uninit s.nodes with
    | none => none
    | some (otherException, words, nodes) =>
      if c.checkNeighbor otherParticipant.toNat otherException words nodes then
        some ⟨s.localContributions ++ [(words, 0)], s.globalException ||| otherException, nodes⟩
      else
        none
  else if otherParticipant = thisNode then
    some { s with localContributions := s.localContributions ++
      [(fun i => if i < c.elementWords then c.element thisNode i else c.uninit i,
        c.flags thisNode)] }
  else
    none

def localArgs (localContributions : List (Words × BitVec 64)) (vFlagsResult : BitVec 64) :
    Args where
  host := c.host
  offset := 0
  elementWords := c.elementWords
  numParticipants := localContributions.length
  vContribution p := (localContributions.getD p (c.uninit, 0)).1
  vFlagsContribution := some fun p => (localContributions.getD p (c.uninit, 0)).2
  vFlagsResult := vFlagsResult

def store (thisNode : Nat) (localException : BitVec 64) (Result : Words) (st : NodeState) :
    Option NodeState :=
  let results := st.vNodeResult.map fun results : Nat → Words =>
    update results thisNode fun i =>
      if c.offset ≤ i ∧ i < c.offset + c.elementWords then Result (i - c.offset)
      else results thisNode i
  match st.vNodeExceptions with
  | none => some { st with vNodeResult := results }
  | some exceptions =>
    if c.offsetFits then
      some { st with
        vNodeExceptions := some (update exceptions thisNode
          (update (exceptions thisNode) (c.offset / c.elementWords) localException))
        vNodeResult := results }
    else
      none

/-- The call for node `thisNode`. The first argument bounds the depth of the calls,
which are for different nodes. -/
def multiNodeScalarReduce : Nat → Nat → BitVec 64 → Words → NodeState →
    Option (BitVec 64 × Words × NodeState)
  | 0, _, _, _, _ => none
  | depth + 1, thisNode, vFlagsResult, Result, st =>
    if c.maxParticipant < 0 then
      some (0, Result, st)
    else if ¬ ((thisNode : Int) ≤ c.maxParticipant ∧
        st.nodeParticipation thisNode = c.participationGeneration) then
      none
    else
      let st := { st with
        nodeParticipation := update st.nodeParticipation thisNode
          (st.nodeParticipation thisNode + 1)
        totalParticipation := st.totalParticipation + 1 }
      if ¬ (st.totalParticipation : Int) ≤
          (c.participationGeneration + 1) * (c.maxParticipant + 1) then
        none
      else
        match (List.range 12).foldlM (c.linkStep (multiNodeScalarReduce depth) thisNode)
            ⟨[], 0, st⟩ with
        | none => none
        | some s =>
          if s.localContributions.length = 0 then
            none
          else
            let (localException, Result) := scalarReduce .c
              (c.localArgs s.localContributions vFlagsResult) c.opCode
              (if c.opCode = .add then c.Tree else none) c.cells Result
            match c.store thisNode localException Result s.nodes with
            | none => none
            | some st => some (s.globalException ||| localException, Result, st)

/-- The reduction from the root node; `participationGeneration` is 42. Afterwards every
node has taken part once. -/
def allNodeScalarReduce (rootNode : Nat) (vNodeExceptions : Option (Nat → Nat → BitVec 64))
    (vNodeResult : Option (Nat → Words)) (vFlagsResult : BitVec 64) (Result : Words) :
    Option (BitVec 64 × Words × NodeState) :=
  let start : NodeState :=
    ⟨fun _ => 42, 42 * (c.maxParticipant + 1).toNat, vNodeExceptions, vNodeResult⟩
  if c.maxParticipant < 0 then
    some (0, Result, start)
  else if ¬ (rootNode : Int) ≤ c.maxParticipant then
    none
  else
    match { c with participationGeneration := 42 }.multiNodeScalarReduce
        (c.maxParticipant.toNat + 1) rootNode vFlagsResult Result start with
    | none => none
    | some (r, Result, st) =>
      if st.totalParticipation = (42 + 1) * (c.maxParticipant + 1).toNat ∧
          (List.range (c.maxParticipant.toNat + 1)).all
            fun i => st.nodeParticipation i == 42 + 1 then
        some (r, Result, st)
      else
        none

end Collective

end BgqDriver.NetworkReduce
