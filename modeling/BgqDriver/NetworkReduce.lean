import BgqDriver.CarrySums

/-!
The software model of the reductions that the network performs
(`bgq_util/src/BgNDReduce.cc` and its port `BgNDReduce_C.c`): the integer
operations on elements of `elementWords` words of 32 bits. Word arrays are functions
from word indices, a function that writes its result takes the array it writes to
and returns it together with the exception code.
-/

namespace BgqDriver.NetworkReduce

open Function

abbrev Words := Nat → BitVec 32

/-- The integer opcodes of a collective packet. -/
inductive ColOpcode
  | and | or | xor
  | u_add | u_min | u_max
  | add | min | max
  deriving DecidableEq, Repr

def invalidOpCode : BitVec 64 := 0x0000001
def illegalx86endian : Nat := 0x0000002
def u_addOverflow : BitVec 64 := 0x0000008
def addOverflow : BitVec 64 := 0x0000010
def verificationFail : BitVec 64 := 0x0000400
def strtolTrouble : BitVec 64 := 0x0004000
def noParticipant : BitVec 64 := 0x0008000
def doubleParticipant : BitVec 64 := 0x0010000
def unexpectedParticipant : BitVec 64 := 0x0020000
def lt2OnStack : BitVec 64 := 0x0040000
def nothingOnStack : BitVec 64 := 0x0080000
def tooMuchOnStack : BitVec 64 := 0x0100000
def unusedParticipant : BitVec 64 := 0x0200000
def illegalParticipant : BitVec 64 := 0x0400000
def whichCarryTrouble : BitVec 64 := 0x0800000
def illegalChar : BitVec 64 := 0x1000000

/-- The byte order of the machine the model runs on, and the override variable
`x86endian`. -/
structure Host where
  isBGendian : Bool
  x86endian : Int

def Host.getFlip (host : Host) : Nat :=
  let flip := if host.isBGendian then 0 else 1
  if host.x86endian = 0 then
    flip
  else if host.x86endian = 32 then
    if flip = 0 then 1 else 0
  else
    illegalx86endian

def uint32EndianFlip (x : BitVec 32) : BitVec 32 :=
  x.extractLsb' 0 8 ++ x.extractLsb' 8 8 ++ x.extractLsb' 16 8 ++ x.extractLsb' 24 8

def Host.maybeFlip (host : Host) (x : BitVec 32) : BitVec 32 :=
  if host.getFlip ≠ 0 then uint32EndianFlip x else x

/-- The arguments that the reductions of one element share. `numParticipants`,
`offset` and `elementWords` are of type `int` and are not negative. -/
structure Args where
  host : Host
  offset : Nat
  elementWords : Nat
  numParticipants : Nat
  vContribution : Nat → Words
  vFlagsContribution : Option (Nat → BitVec 64)
  vFlagsResult : BitVec 64

/-- Flag: the element is in network order, least significant word first. -/
def NdOrder : BitVec 64 := 1 <<< 0

def isNdOrder (flags : BitVec 64) : Bool := flags &&& NdOrder != 0

/-- The flags of a participant; a missing flag array has no flag set. -/
def Args.flags (a : Args) (p : Nat) : BitVec 64 :=
  match a.vFlagsContribution with
  | none => 0
  | some vFlags => vFlags p

def wordIndex (flags : BitVec 64) (elementWords e : Nat) : Nat :=
  if isNdOrder flags then e else elementWords - 1 - e

def Args.pValue (a : Args) (p i : Nat) : BitVec 32 :=
  a.host.maybeFlip (a.vContribution p (a.offset + i))

def logicInit (opCode : ColOpcode) : BitVec 32 :=
  if opCode = .and then 0xFFFFFFFF else 0

def logicCombine (opCode : ColOpcode) (u c : BitVec 32) : Option (BitVec 32) :=
  match opCode with
  | .and => some (u &&& c)
  | .or => some (u ||| c)
  | .xor => some (u ^^^ c)
  | _ => none

def logicWord (a : Args) (opCode : ColOpcode) (e : Nat) : Nat → Option (BitVec 32)
  | 0 => some (logicInit opCode)
  | p + 1 =>
    (logicWord a opCode e p).bind fun u =>
      logicCombine opCode u (a.vContribution p (a.offset + e))

/-- The loop of `logicOpScalarReduce` over the first words. -/
def logicLoop (a : Args) (opCode : ColOpcode) (Result : Words) : Nat → BitVec 64 × Words
  | 0 => (0, Result)
  | e + 1 =>
    let (rc, Result) := logicLoop a opCode Result e
    if rc ≠ 0 then
      (rc, Result)
    else
      match logicWord a opCode e a.numParticipants with
      | some u => (0, update Result e u)
      | none => (invalidOpCode, update Result e (logicInit opCode))

def logicOpScalarReduce (a : Args) (opCode : ColOpcode) (Result : Words) : BitVec 64 × Words :=
  logicLoop a opCode Result a.elementWords

/-- The variables of the loop over the participants. -/
structure Contest where
  winValue : BitVec 32
  winParticipant : Nat
  potentialWinner : Nat → Bool

/-- Does a value of word `e` that differs from the winning value beat it? Only the
first word is compared with its sign. -/
def newWinner (opCode : ColOpcode) (e : Nat) (pValue winValue : BitVec 32) : Bool :=
  if e = 0 ∧ opCode = .min then
    pValue.slt winValue
  else if e = 0 ∧ opCode = .max then
    winValue.slt pValue
  else if opCode = .u_min ∨ opCode = .min then
    pValue.ult winValue
  else if opCode = .u_max ∨ opCode = .max then
    winValue.ult pValue
  else
    false

def contestStep (a : Args) (opCode : ColOpcode) (e p : Nat) (s : Contest) : Contest :=
  if ¬ s.potentialWinner p then
    s
  else if a.pValue p e = s.winValue then
    { s with potentialWinner := update s.potentialWinner p true }
  else if newWinner opCode e (a.pValue p e) s.winValue then
    { winValue := a.pValue p e
      winParticipant := p
      -- all previous potential winners are cancelled
      potentialWinner := fun i =>
        if i < p then false else update s.potentialWinner p true i }
  else
    { s with potentialWinner := update s.potentialWinner p false }

/-- The loop over the first participants for word `e`. -/
def contestLoop (a : Args) (opCode : ColOpcode) (e : Nat) (s : Contest) : Nat → Contest
  | 0 => s
  | p + 1 => contestStep a opCode e p (contestLoop a opCode e s p)

/-- The variables of the loop over the words. -/
structure Tournament where
  winParticipant : Nat
  potentialWinner : Nat → Bool
  Result : Words

def tournamentStep (a : Args) (opCode : ColOpcode) (e : Nat) (t : Tournament) : Tournament :=
  let s := contestLoop a opCode e
    ⟨a.pValue t.winParticipant e, t.winParticipant, t.potentialWinner⟩ a.numParticipants
  { winParticipant := s.winParticipant
    potentialWinner := s.potentialWinner
    Result := update t.Result e (a.host.maybeFlip s.winValue) }

/-- The loop of `minORmaxScalarReduce` over the first words. -/
def tournament (a : Args) (opCode : ColOpcode) (Result : Words) : Nat → Tournament
  | 0 => ⟨0, fun _ => true, Result⟩
  | e + 1 => tournamentStep a opCode e (tournament a opCode Result e)

def minORmaxScalarReduce (a : Args) (opCode : ColOpcode) (Result : Words) : BitVec 64 × Words :=
  if a.numParticipants = 0 ∨ a.elementWords = 0 then
    (0, Result)
  else if opCode ≠ .u_min ∧ opCode ≠ .u_max ∧ opCode ≠ .min ∧ opCode ≠ .max then
    (invalidOpCode, Result)
  else
    (0, (tournament a opCode Result a.elementWords).Result)

def columnSum (a : Args) (carry : BitVec 32) (e : Nat) : Nat → BitVec 64
  | 0 => carry.setWidth 64
  | p + 1 =>
    columnSum a carry e p + (a.pValue p (wordIndex (a.flags p) a.elementWords e)).setWidth 64

def u_addLoop (a : Args) (Result : Words) : Nat → BitVec 32 × Words
  | 0 => (0, Result)
  | e + 1 =>
    let (carry, Result) := u_addLoop a Result e
    let sum := columnSum a carry e a.numParticipants
    ((sum >>> 32).setWidth 32,
      update Result (wordIndex a.vFlagsResult a.elementWords e)
        (a.host.maybeFlip (sum.setWidth 32)))

def u_addScalarReduce (a : Args) (opCode : ColOpcode) (Result : Words) : BitVec 64 × Words :=
  if a.numParticipants = 0 ∨ a.elementWords = 0 then
    (0, Result)
  else if opCode ≠ .u_add then
    (invalidOpCode, Result)
  else
    let (carry, Result) := u_addLoop a Result a.elementWords
    (if carry ≠ 0 then u_addOverflow else 0, Result)

/-- The two versions of the source differ in the characters they take as blanks. -/
inductive Build
  | cplusplus
  | c
  deriving DecidableEq

def Build.isBlank : Build → Char → Bool
  | .cplusplus, x => x == ' ' || (9 ≤ x.toNat && x.toNat ≤ 13)
  | .c, x => x == ' '

def Build.skips (build : Build) (x : Char) : Bool :=
  build.isBlank x || x == '(' || x == ')' || x == '[' || x == ']' || x == '{' || x == '}'

/-- `strtol` in base 10 at a digit: the value, saturated at the largest `long`, and
the number of characters read. -/
def strtol (s : List Char) : Nat × Nat :=
  let digits := s.takeWhile Char.isDigit
  (min (Nat.ofDigitChars 10 digits 0) (2 ^ 63 - 1), digits.length)

/-- The arrays that an adder tree writes, and its sum. In `addScalarReduce` they are
local variables without an initial value. -/
structure AdderCells where
  outCarry : Words
  signedOverflow : Nat → Bool
  sum32 : BitVec 32

def adderSum (a b inCarry : BitVec 32) : BitVec 64 :=
  a.setWidth 64 + b.setWidth 64 + inCarry.setWidth 64

def adderCarry (a b inCarry : BitVec 32) : BitVec 32 :=
  (adderSum a b inCarry >>> 32).setWidth 32

def adderOverflow (a b inCarry : BitVec 32) : Bool :=
  let carryIntoMSB : BitVec 32 := (a &&& 0x80000000) ^^^ (b &&& 0x80000000) ^^^
    (adderSum a b inCarry &&& 0x80000000).setWidth 32
  (carryIntoMSB != 0 && adderCarry a b inCarry == 0) ||
    (carryIntoMSB == 0 && adderCarry a b inCarry != 0)

/-- The variables of the scan over the tree text; the top of the stack is the head
of `st`. -/
structure TreeState where
  whichCarry : Nat
  done : Nat → Bool
  st : List (BitVec 32)
  participant : Int
  outCarry : Words
  signedOverflow : Nat → Bool

section TreeAdd

variable (build : Build) (numParticipants : Nat) (inCarry vContribution : Words)

/-- The branch for `S`: the participant just mentioned is pushed. -/
def pushParticipant (s : TreeState) : TreeState × Option (BitVec 64) :=
  if s.participant < 0 then
    (s, some noParticipant)
  else if s.done s.participant.toNat then
    (s, some doubleParticipant)
  else
    ({ s with
        st := vContribution s.participant.toNat :: s.st
        done := update s.done s.participant.toNat true
        participant := -1 }, none)

/-- The branch for `+`: the next adder takes the two topmost values. -/
def applyAdder (s : TreeState) : TreeState × Option (BitVec 64) :=
  if 0 ≤ s.participant then
    (s, some unexpectedParticipant)
  else
    match s.st with
    | a :: b :: st =>
      let carry := inCarry s.whichCarry
      ({ s with
          outCarry := update s.outCarry s.whichCarry (adderCarry a b carry)
          signedOverflow :=
            update s.signedOverflow s.whichCarry (adderOverflow a b carry)
          st := (adderSum a b carry).setWidth 32 :: st
          whichCarry := s.whichCarry + 1 }, none)
    | _ => (s, some lt2OnStack)

/-- The scan over the text; the first argument counts the characters that `strtol`
has already read. A scan that meets an error stops with its code. -/
def scanTree : Nat → List Char → TreeState → TreeState × Option (BitVec 64)
  | _, [], s => (s, none)
  | skip + 1, _ :: text, s => scanTree skip text s
  | 0, c :: text, s =>
    if c.isDigit then
      let (value, length) := strtol (c :: text)
      let s := { s with participant := (BitVec.ofNat 32 value).toInt }
      if length = 0 then
        (s, some strtolTrouble)
      else if (numParticipants : Int) ≤ s.participant then
        (s, some illegalParticipant)
      else
        scanTree (length - 1) text s
    else if build.skips c then
      scanTree 0 text s
    else if c = 'S' then
      match pushParticipant vContribution s with
      | (s, none) => scanTree 0 text s
      | (s, some rc) => (s, some rc)
    else if c = '+' then
      match applyAdder inCarry s with
      | (s, none) => scanTree 0 text s
      | (s, some rc) => (s, some rc)
    else
      (s, some illegalChar)

end TreeAdd

/-- The text used without a tree: `0S 1S +2S +3S +`…. -/
def defaultTree (numParticipants : Nat) : List Char :=
  "0S ".toList ++ (List.range (numParticipants - 1)).flatMap fun p =>
    Nat.toDigits 10 (p + 1) ++ "S +".toList

def treeResult (numParticipants : Nat) (s : TreeState) : Except (BitVec 64) (BitVec 32) :=
  if (s.whichCarry : Int) ≠ numParticipants - 1 then
    .error whichCarryTrouble
  else
    match s.st with
    | [] => .error nothingOnStack
    | _ :: _ :: _ => .error tooMuchOnStack
    | [sum32] =>
      if (List.range numParticipants).all s.done then
        .ok sum32
      else
        .error unusedParticipant

def treeAddScalarReduce (build : Build) (numParticipants : Nat) (Tree : Option (List Char))
    (inCarry : Words) (cells : AdderCells) (vContribution : Words) : BitVec 64 × AdderCells :=
  if numParticipants = 0 then
    (0, cells)
  else
    let text := Tree.getD (defaultTree numParticipants)
    let start : TreeState :=
      ⟨0, fun _ => false, [], -1, cells.outCarry, cells.signedOverflow⟩
    let (s, stopped) := scanTree build numParticipants inCarry vContribution 0 text start
    let cells := { cells with outCarry := s.outCarry, signedOverflow := s.signedOverflow }
    match stopped with
    | some rc => (rc, cells)
    | none =>
      match treeResult numParticipants s with
      | .error rc => (rc, cells)
      | .ok sum32 => (0, { cells with sum32 := sum32 })

/-- The variables of `addScalarReduce`. -/
structure AddState where
  rc : BitVec 64
  inCarry : Words
  cells : AdderCells
  Result : Words

def addStep (build : Build) (Tree : Option (List Char)) (a : Args) (e : Nat) (s : AddState) :
    AddState :=
  let iC := fun p => a.pValue p (wordIndex (a.flags p) a.elementWords e)
  let (rc, cells) := treeAddScalarReduce build a.numParticipants Tree s.inCarry s.cells iC
  { rc := s.rc ||| rc
    cells := cells
    Result := update s.Result (wordIndex a.vFlagsResult a.elementWords e)
      (a.host.maybeFlip cells.sum32)
    inCarry := fun p =>
      if p < a.numParticipants - 1 then cells.outCarry p else s.inCarry p }

/-- The loop of `addScalarReduce` over the first words. -/
def addLoop (build : Build) (Tree : Option (List Char)) (a : Args) (cells : AdderCells)
    (Result : Words) : Nat → AddState
  | 0 => ⟨0, fun _ => 0, cells, Result⟩
  | e + 1 => addStep build Tree a e (addLoop build Tree a cells Result e)

def addScalarReduce (build : Build) (a : Args) (opCode : ColOpcode) (Tree : Option (List Char))
    (cells : AdderCells) (Result : Words) : BitVec 64 × Words :=
  if a.numParticipants = 0 ∨ a.elementWords = 0 then
    (0, Result)
  else if opCode ≠ .add then
    (invalidOpCode, Result)
  else
    let s := addLoop build Tree a cells Result a.elementWords
    (if (List.range (a.numParticipants - 1)).any s.cells.signedOverflow then
        s.rc ||| addOverflow
      else
        s.rc, s.Result)

/-- A 64-bit integer from the two words of an element; an addition in network order
has the least significant word first. -/
def doubleWord (addition : Bool) (flags : BitVec 64) (w : Nat → BitVec 32) : BitVec 64 :=
  if addition && isNdOrder flags then w 1 ++ w 0 else w 0 ++ w 1

/-- `myReduce` after the first `p + 1` participants. -/
def myReduce (reduce : BitVec 64 → BitVec 64 → Option (BitVec 64)) (dC : Nat → BitVec 64) :
    Nat → Option (BitVec 64)
  | 0 => some (dC 0)
  | p + 1 => (myReduce reduce dC p).bind fun x => reduce x (dC (p + 1))

def verifyScalarReduce (a : Args) (addition : Bool)
    (reduce : BitVec 64 → BitVec 64 → Option (BitVec 64)) (Result : Words) : BitVec 64 :=
  if a.elementWords ≠ 2 then
    0
  else if a.numParticipants = 0 then
    0
  else
    let dC := fun p => doubleWord addition (a.flags p) (a.pValue p)
    let dR := doubleWord addition a.vFlagsResult fun i => a.host.maybeFlip (Result i)
    match myReduce reduce dC (a.numParticipants - 1) with
    | none => invalidOpCode
    | some r => if dR ≠ r then verificationFail else 0

/-- `min` and `max` are the macros `a < b ? a : b` and `a > b ? a : b`. -/
def verify_uint_ScalarReduce (a : Args) (opCode : ColOpcode) (Result : Words) : BitVec 64 :=
  verifyScalarReduce a (opCode == .u_add)
    (fun x y => match opCode with
      | .u_min => some (if x.ult y then x else y)
      | .u_max => some (if y.ult x then x else y)
      | .u_add => some (x + y)
      | _ => none) Result

def verify_int_ScalarReduce (a : Args) (opCode : ColOpcode) (Result : Words) : BitVec 64 :=
  verifyScalarReduce a (opCode == .add)
    (fun x y => match opCode with
      | .min => some (if x.slt y then x else y)
      | .max => some (if y.slt x then x else y)
      | .add => some (x + y)
      | _ => none) Result

def scalarReduce (build : Build) (a : Args) (opCode : ColOpcode) (Tree : Option (List Char))
    (cells : AdderCells) (Result : Words) : BitVec 64 × Words :=
  let (rc, Result) := match opCode with
    | .and | .or | .xor => logicOpScalarReduce a opCode Result
    | .u_min | .u_max | .min | .max => minORmaxScalarReduce a opCode Result
    | .u_add => u_addScalarReduce a opCode Result
    | .add => addScalarReduce build a opCode Tree cells Result
  match opCode with
  | .u_min | .u_max | .u_add => (rc ||| verify_uint_ScalarReduce a opCode Result, Result)
  | .min | .max | .add => (rc ||| verify_int_ScalarReduce a opCode Result, Result)
  | .and | .or | .xor => (rc, Result)

end BgqDriver.NetworkReduce
