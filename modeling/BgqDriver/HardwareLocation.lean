import BgqDriver.RankMap
import Mathlib.Data.List.DropRight

/-!
The `Location` class: a location string checked against one regular expression per
hardware type, and the numbers extracted from it.
-/

namespace BgqDriver.HardwareLocation

open RankMap (isspace)

inductive HwType where
  | computeRack | ioRack | bulkPowerSupplyOnComputeRack | powerModuleOnComputeRack
  | bulkPowerSupplyInIoRack | powerModuleOnIoRack | midplane | serviceCard
  | clockCardOnComputeRack | clockCardOnIoRack | ioBoardOnComputeRack | ioBoardOnIoRack
  | nodeBoard | computeCardOnNodeBoard | computeCardOnIoBoard | computeCardCoreOnNodeBoard
  | computeCardCoreOnIoBoard | dcaOnNodeBoard | pciAdapterCard | linkModuleOnNodeBoard
  | linkModuleOnIoBoardInIoRack | linkModuleOnIoBoardInComputeRack | opticalModuleOnNodeBoard
  | opticalModuleOnIoBoard | fanAssemblyInComputeRack | fanAssemblyInIoRack | fanInComputeRack
  | fanInIoRack | leakDetectorInComputeRack | switch | ioLinkOnNodeBoard
  | allNodeBoardsOnMidplane | notValid
deriving DecidableEq, Repr

inductive ThrowsSpec where
  | nothrow | throwsOnBadLocation
deriving DecidableEq, Repr

/-- The numeric members of a `Location`.  The switch dimension is kept as the digit value of
its letter. -/
inductive Member where
  | rackRow | rackColumn | bulkPowerSupply | powerModule | midplane | clockCard | ioBoard
  | nodeBoard | fan | computeCard | core | dca | pciAdapterCard | linkModule | opticalModule
  | fanAssembly | switchDimension | port
deriving DecidableEq, Repr

structure Location where
  location : List Char
  type : HwType
  rackType : HwType
  numbers : Member → Nat

/-! The regular expressions: literals and bracket expressions, in the order of the text,
with one group around each number. -/

/-- A bracket expression: the union of character ranges. -/
abbrev Bracket := List (Char × Char)

def Bracket.accepts (b : Bracket) (c : Char) : Bool :=
  b.any fun range => range.1 ≤ c && c ≤ range.2

inductive Item where
  | lit (c : Char)
  | group (brackets : List Bracket)

abbrev Regex := List Item

def lits (s : String) : Regex := s.toList.map .lit

def oneOf (s : String) : Bracket := s.toList.map fun c => (c, c)

def digit : Bracket := [('0', '9')]

def rackDigit : Bracket := [('0', '9'), ('A', 'V')]

def computePart : Regex := lits "J" ++ [.group [digit, digit]]
def corePart : Regex := lits "C" ++ [.group [digit, digit]]
def fanPart : Regex := lits "F" ++ [.group [oneOf "01"]]
def fanAssemblyPart : Regex := lits "H" ++ [.group [oneOf "012"]]
def opticalModulePart : Regex := lits "O" ++ [.group [digit, digit]]

def computeRackBase : Regex := lits "R" ++ [.group [rackDigit], .group [rackDigit]]
def ioRackBase : Regex := lits "Q" ++ [.group [rackDigit], .group [rackDigit]]
def bulkPowerSupplyOnComputeRackBase : Regex :=
  computeRackBase ++ lits "-B" ++ [.group [[('0', '3')]]]
def powerModuleOnComputeRackBase : Regex :=
  bulkPowerSupplyOnComputeRackBase ++ lits "-P" ++ [.group [[('0', '8')]]]
def bulkPowerSupplyInIoRackBase : Regex := ioRackBase ++ lits "-B"
def powerModuleOnIoRackBase : Regex :=
  bulkPowerSupplyInIoRackBase ++ lits "-P" ++ [.group [[('0', '5')]]]
def midplaneBase : Regex := computeRackBase ++ lits "-M" ++ [.group [oneOf "01"]]
def serviceCardBase : Regex := midplaneBase ++ lits "-S"
def clockCardOnComputeBase : Regex := computeRackBase ++ lits "-K"
def clockCardOnIoBase : Regex := ioRackBase ++ lits "-K" ++ [.group [oneOf "01"]]
def ioBoardOnComputeBase : Regex := computeRackBase ++ lits "-I" ++ [.group [oneOf "CDEF"]]
def ioBoardOnIoBase : Regex :=
  ioRackBase ++ lits "-I" ++ [.group [('0', '9') :: oneOf "AB"]]
def allNodeBoardsOnMidplaneBase : Regex := midplaneBase ++ lits "-N"
def nodeBoardBase : Regex := allNodeBoardsOnMidplaneBase ++ [.group [digit, digit]]
def computeOnNodeBoardBase : Regex := nodeBoardBase ++ lits "-" ++ computePart
def computeOnIoBoardBase : Regex := ioBoardOnIoBase ++ lits "-" ++ computePart
def computeOnIoBoardInComputeRackBase : Regex := ioBoardOnComputeBase ++ lits "-" ++ computePart
def coreOnNodeBoardBase : Regex := computeOnNodeBoardBase ++ lits "-" ++ corePart
def coreOnIoBoardBase : Regex := computeOnIoBoardBase ++ lits "-" ++ corePart
def dcaRegexBase : Regex := nodeBoardBase ++ lits "-D" ++ [.group [oneOf "01"]]
def pciRegexBase : Regex := ioBoardOnIoBase ++ lits "-A" ++ [.group [[('0', '7')]]]
def linkOnNodeBoardBase : Regex :=
  nodeBoardBase ++ lits "-U" ++ [.group [oneOf "0", [('0', '8')]]]
def linkOnIoBoardInIoRackBase : Regex :=
  ioBoardOnIoBase ++ lits "-U" ++ [.group [oneOf "0", [('0', '5')]]]
def linkOnIoBoardInComputeRackBase : Regex :=
  ioBoardOnComputeBase ++ lits "-U" ++ [.group [oneOf "0", [('0', '5')]]]
def opticalOnNodeBoardBase : Regex := nodeBoardBase ++ lits "-" ++ opticalModulePart
def opticalOnIoBoardBase : Regex := ioBoardOnIoBase ++ lits "-" ++ opticalModulePart
def fanAssemblyInComputeRackBase : Regex := ioBoardOnComputeBase ++ lits "-" ++ fanAssemblyPart
def fanAssemblyInIoRackBase : Regex := ioBoardOnIoBase ++ lits "-" ++ fanAssemblyPart
def fanInComputeRackBase : Regex := fanAssemblyInComputeRackBase ++ lits "-" ++ fanPart
def fanInIoRackBase : Regex := fanAssemblyInIoRackBase ++ lits "-" ++ fanPart
def leakDetectorInComputeRackBase : Regex := computeRackBase ++ lits "-L"
def switchBase : Regex := [.group [oneOf "ABCD"]] ++ lits "_" ++ midplaneBase
def ioLinkOnNodeBoardBase : Regex :=
  lits "I_" ++ nodeBoardBase ++ lits "-T" ++ [.group [digit, digit]]

/-- `regexec` for an expression anchored at both ends: where each group starts. -/
def regexec : Regex → List Char → Nat → Option (List Nat)
  | [], [], _ => some []
  | [], _ :: _, _ => none
  | .lit _ :: _, [], _ => none
  | .lit c :: regex, x :: s, i => if x = c then regexec regex s (i + 1) else none
  | .group brackets :: regex, s, i =>
    if brackets.length ≤ s.length ∧
        (brackets.zip s).all (fun entry => entry.1.accepts entry.2) = true then
      (regexec regex (s.drop brackets.length) (i + brackets.length)).map (i :: ·)
    else none

/-- What a C string holds: the characters up to the first null character. -/
def cstr (s : List Char) : List Char :=
  s.takeWhile (· ≠ '\x00')

def parseCharToNum (c : Char) : Nat :=
  if '0' ≤ c ∧ c ≤ '9' then c.toNat - '0'.toNat else 10 + (c.toNat - 'A'.toNat)

/-- `boost::lexical_cast<unsigned>` of decimal digits. -/
def lexicalCast (s : List Char) : Nat :=
  s.foldl (fun n c => 10 * n + (c.toNat - '0'.toNat)) 0

/-- How the number of one group is taken from the location: with `parseCharToNum`, as a
decimal digit, as two decimal digits below a limit that may depend on the type, or as a
switch dimension. -/
inductive Extract where
  | char (m : Member)
  | oneDigit (m : Member)
  | twoDigits (m : Member) (limit : HwType → Option Nat) (what : String)
  | dimension

def computeCardsOn : HwType → Option Nat
  | .computeCardOnNodeBoard | .computeCardCoreOnNodeBoard => some 32
  | .computeCardOnIoBoard | .computeCardCoreOnIoBoard => some 8
  | _ => some 0

def opticalModulesOn : HwType → Option Nat
  | .opticalModuleOnNodeBoard => some 36
  | .opticalModuleOnIoBoard => some 24
  | _ => some 0

def extractRackSubs : List Extract := [.char .rackRow, .char .rackColumn]
def extractBulkPowerSupply : Extract := .oneDigit .bulkPowerSupply
def extractPowerModule : Extract := .oneDigit .powerModule
def extractMidplane : Extract := .oneDigit .midplane
def extractClockCard : Extract := .oneDigit .clockCard
def extractIoBoard : Extract := .char .ioBoard
def extractNodeBoard : Extract := .twoDigits .nodeBoard (fun _ => some 16) "node board"
def extractFan : Extract := .oneDigit .fan
def extractComputeCard : Extract := .twoDigits .computeCard computeCardsOn "compute card"
def extractCore : Extract := .twoDigits .core (fun _ => some 17) "compute card core"
def extractDca : Extract := .oneDigit .dca
def extractPciAdapter : Extract := .oneDigit .pciAdapterCard
def extractLinkModule : Extract := .twoDigits .linkModule (fun _ => none) "link module"
def extractOpticalModule : Extract :=
  .twoDigits .opticalModule opticalModulesOn "optical module"
def extractFanAssembly : Extract := .oneDigit .fanAssembly
def extractPort : Extract := .twoDigits .port (fun _ => some 12) "port"

/-- A member is a `uint8_t`. -/
def Location.store (loc : Location) (m : Member) (value : Nat) : Location :=
  { loc with numbers := Function.update loc.numbers m (value % 256) }

def notValidMessage (location : List Char) (why : String) : String :=
  "location string '" ++ String.ofList location ++ "' is not valid" ++ why

/-- Take the number of a group that starts at `start`.  A number at or above its limit is
stored before the exception is thrown. -/
def Extract.run (given : List Char) (start : Nat) (loc : Location) :
    Extract → Location × Option String
  | char m => (loc.store m (parseCharToNum (loc.location.getD start '\x00')), none)
  | oneDigit m => (loc.store m (lexicalCast ((loc.location.drop start).take 1)), none)
  | twoDigits m limit what =>
    let loc := loc.store m (lexicalCast ((loc.location.drop start).take 2))
    if (limit loc.type).any (· ≤ loc.numbers m) = true then
      (loc, some (notValidMessage loc.location s!", the {what} position is too large"))
    else (loc, none)
  | dimension =>
    let c := loc.location.getD start '\x00'
    if c = 'A' ∨ c = 'B' ∨ c = 'C' ∨ c = 'D' then
      (loc.store .switchDimension (parseCharToNum c), none)
    else (loc, some (notValidMessage given ", the dimension is incorrect"))

def runExtracts (given : List Char) : List Extract → List Nat → Location → Location × Option String
  | e :: extracts, start :: starts, loc =>
    match e.run given start loc with
    | (loc, none) => runExtracts given extracts starts loc
    | (loc, some error) => (loc, some error)
  | _, _, loc => (loc, none)

inductive Branch where
  | computeRack | ioRack | bulkPowerSupplyOnComputeRack | powerModuleOnComputeRack
  | bulkPowerSupplyInIoRack | powerModuleOnIoRack | midplane | serviceCard
  | clockCardOnCompute | clockCardOnIo | ioBoardOnCompute | ioBoardOnIo | nodeboard
  | computeOnNodeboard | computeOnIoBoard | computeOnIoBoardInComputeRack | coreOnNodeboard
  | coreOnIoBoard | dca | pci | linkOnNodeboard | linkOnIoBoardInIoRack
  | linkOnIoBoardInComputeRack | opticalOnNodeboard | opticalOnIoBoard
  | fanAssemblyInComputeRack | fanAssemblyInIoRack | fanInComputeRack | fanInIoRack
  | leakDetectorInComputeRack | switch | ioLinkOnNodeBoard | allNodeBoardsOnMidplane
deriving DecidableEq, Repr

def branches : List Branch :=
  [.computeRack, .ioRack, .bulkPowerSupplyOnComputeRack, .powerModuleOnComputeRack,
    .bulkPowerSupplyInIoRack, .powerModuleOnIoRack, .midplane, .serviceCard,
    .clockCardOnCompute, .clockCardOnIo, .ioBoardOnCompute, .ioBoardOnIo, .nodeboard,
    .computeOnNodeboard, .computeOnIoBoard, .computeOnIoBoardInComputeRack, .coreOnNodeboard,
    .coreOnIoBoard, .dca, .pci, .linkOnNodeboard, .linkOnIoBoardInIoRack,
    .linkOnIoBoardInComputeRack, .opticalOnNodeboard, .opticalOnIoBoard,
    .fanAssemblyInComputeRack, .fanAssemblyInIoRack, .fanInComputeRack, .fanInIoRack,
    .leakDetectorInComputeRack, .switch, .ioLinkOnNodeBoard, .allNodeBoardsOnMidplane]

namespace Branch

/-- The `…Length` constant that the size of the location is compared with. -/
def length : Branch → Nat
  | computeRack => 3
  | ioRack => 3
  | bulkPowerSupplyOnComputeRack => 6
  | powerModuleOnComputeRack => 9
  | bulkPowerSupplyInIoRack => 5
  | powerModuleOnIoRack => 8
  | midplane => 6
  | serviceCard => 8
  | clockCardOnCompute => 5
  | clockCardOnIo => 6
  | ioBoardOnCompute => 6
  | ioBoardOnIo => 6
  | nodeboard => 10
  | computeOnNodeboard => 14
  | computeOnIoBoard => 10
  | computeOnIoBoardInComputeRack => 10
  | coreOnNodeboard => 18
  | coreOnIoBoard => 14
  | dca => 13
  | pci => 9
  | linkOnNodeboard => 14
  | linkOnIoBoardInIoRack => 10
  | linkOnIoBoardInComputeRack => 10
  | opticalOnNodeboard => 14
  | opticalOnIoBoard => 10
  | fanAssemblyInComputeRack => 9
  | fanAssemblyInIoRack => 9
  | fanInComputeRack => 12
  | fanInIoRack => 12
  | leakDetectorInComputeRack => 5
  | switch => 8
  | ioLinkOnNodeBoard => 16
  | allNodeBoardsOnMidplane => 8

def regex : Branch → Regex
  | computeRack => computeRackBase
  | ioRack => ioRackBase
  | bulkPowerSupplyOnComputeRack => bulkPowerSupplyOnComputeRackBase
  | powerModuleOnComputeRack => powerModuleOnComputeRackBase
  | bulkPowerSupplyInIoRack => bulkPowerSupplyInIoRackBase
  | powerModuleOnIoRack => powerModuleOnIoRackBase
  | midplane => midplaneBase
  | serviceCard => serviceCardBase
  | clockCardOnCompute => clockCardOnComputeBase
  | clockCardOnIo => clockCardOnIoBase
  | ioBoardOnCompute => ioBoardOnComputeBase
  | ioBoardOnIo => ioBoardOnIoBase
  | nodeboard => nodeBoardBase
  | computeOnNodeboard => computeOnNodeBoardBase
  | computeOnIoBoard => computeOnIoBoardBase
  | computeOnIoBoardInComputeRack => computeOnIoBoardInComputeRackBase
  | coreOnNodeboard => coreOnNodeBoardBase
  | coreOnIoBoard => coreOnIoBoardBase
  | dca => dcaRegexBase
  | pci => pciRegexBase
  | linkOnNodeboard => linkOnNodeBoardBase
  | linkOnIoBoardInIoRack => linkOnIoBoardInIoRackBase
  | linkOnIoBoardInComputeRack => linkOnIoBoardInComputeRackBase
  | opticalOnNodeboard => opticalOnNodeBoardBase
  | opticalOnIoBoard => opticalOnIoBoardBase
  | fanAssemblyInComputeRack => fanAssemblyInComputeRackBase
  | fanAssemblyInIoRack => fanAssemblyInIoRackBase
  | fanInComputeRack => fanInComputeRackBase
  | fanInIoRack => fanInIoRackBase
  | leakDetectorInComputeRack => leakDetectorInComputeRackBase
  | switch => switchBase
  | ioLinkOnNodeBoard => ioLinkOnNodeBoardBase
  | allNodeBoardsOnMidplane => allNodeBoardsOnMidplaneBase

def type : Branch → HwType
  | computeRack => .computeRack
  | ioRack => .ioRack
  | bulkPowerSupplyOnComputeRack => .bulkPowerSupplyOnComputeRack
  | powerModuleOnComputeRack => .powerModuleOnComputeRack
  | bulkPowerSupplyInIoRack => .bulkPowerSupplyInIoRack
  | powerModuleOnIoRack => .powerModuleOnIoRack
  | midplane => .midplane
  | serviceCard => .serviceCard
  | clockCardOnCompute => .clockCardOnComputeRack
  | clockCardOnIo => .clockCardOnIoRack
  | ioBoardOnCompute => .ioBoardOnComputeRack
  | ioBoardOnIo => .ioBoardOnIoRack
  | nodeboard => .nodeBoard
  | computeOnNodeboard => .computeCardOnNodeBoard
  | computeOnIoBoard => .computeCardOnIoBoard
  | computeOnIoBoardInComputeRack => .computeCardOnIoBoard
  | coreOnNodeboard => .computeCardCoreOnNodeBoard
  | coreOnIoBoard => .computeCardCoreOnIoBoard
  | dca => .dcaOnNodeBoard
  | pci => .pciAdapterCard
  | linkOnNodeboard => .linkModuleOnNodeBoard
  | linkOnIoBoardInIoRack => .linkModuleOnIoBoardInIoRack
  | linkOnIoBoardInComputeRack => .linkModuleOnIoBoardInComputeRack
  | opticalOnNodeboard => .opticalModuleOnNodeBoard
  | opticalOnIoBoard => .opticalModuleOnIoBoard
  | fanAssemblyInComputeRack => .fanAssemblyInComputeRack
  | fanAssemblyInIoRack => .fanAssemblyInIoRack
  | fanInComputeRack => .fanInComputeRack
  | fanInIoRack => .fanInIoRack
  | leakDetectorInComputeRack => .leakDetectorInComputeRack
  | switch => .switch
  | ioLinkOnNodeBoard => .ioLinkOnNodeBoard
  | allNodeBoardsOnMidplane => .allNodeBoardsOnMidplane

def rackType : Branch → HwType
  | ioRack | bulkPowerSupplyInIoRack | powerModuleOnIoRack | clockCardOnIo | ioBoardOnIo
  | computeOnIoBoard | coreOnIoBoard | pci | linkOnIoBoardInIoRack | opticalOnIoBoard
  | fanAssemblyInIoRack | fanInIoRack => .ioRack
  | _ => .computeRack

def extracts : Branch → List Extract
  | computeRack => extractRackSubs
  | ioRack => extractRackSubs
  | bulkPowerSupplyOnComputeRack => extractRackSubs ++ [extractBulkPowerSupply]
  | powerModuleOnComputeRack => extractRackSubs ++ [extractBulkPowerSupply, extractPowerModule]
  | bulkPowerSupplyInIoRack => extractRackSubs
  | powerModuleOnIoRack => extractRackSubs ++ [extractPowerModule]
  | midplane => extractRackSubs ++ [extractMidplane]
  | serviceCard => extractRackSubs ++ [extractMidplane]
  | clockCardOnCompute => extractRackSubs
  | clockCardOnIo => extractRackSubs ++ [extractClockCard]
  | ioBoardOnCompute => extractRackSubs ++ [extractIoBoard]
  | ioBoardOnIo => extractRackSubs ++ [extractIoBoard]
  | nodeboard => extractRackSubs ++ [extractMidplane, extractNodeBoard]
  | computeOnNodeboard =>
    extractRackSubs ++ [extractMidplane, extractNodeBoard, extractComputeCard]
  | computeOnIoBoard => extractRackSubs ++ [extractIoBoard, extractComputeCard]
  | computeOnIoBoardInComputeRack => extractRackSubs ++ [extractIoBoard, extractComputeCard]
  | coreOnNodeboard =>
    extractRackSubs ++ [extractMidplane, extractNodeBoard, extractComputeCard, extractCore]
  | coreOnIoBoard => extractRackSubs ++ [extractIoBoard, extractComputeCard, extractCore]
  | dca => extractRackSubs ++ [extractMidplane, extractNodeBoard, extractDca]
  | pci => extractRackSubs ++ [extractIoBoard, extractPciAdapter]
  | linkOnNodeboard => extractRackSubs ++ [extractMidplane, extractNodeBoard, extractLinkModule]
  | linkOnIoBoardInIoRack => extractRackSubs ++ [extractIoBoard, extractLinkModule]
  | linkOnIoBoardInComputeRack => extractRackSubs ++ [extractIoBoard, extractLinkModule]
  | opticalOnNodeboard =>
    extractRackSubs ++ [extractMidplane, extractNodeBoard, extractOpticalModule]
  | opticalOnIoBoard => extractRackSubs ++ [extractIoBoard, extractOpticalModule]
  | fanAssemblyInComputeRack => extractRackSubs ++ [extractIoBoard, extractFanAssembly]
  | fanAssemblyInIoRack => extractRackSubs ++ [extractIoBoard, extractFanAssembly]
  | fanInComputeRack => extractRackSubs ++ [extractIoBoard, extractFanAssembly, extractFan]
  | fanInIoRack => extractRackSubs ++ [extractIoBoard, extractFanAssembly, extractFan]
  | leakDetectorInComputeRack => extractRackSubs
  | switch => .dimension :: (extractRackSubs ++ [extractMidplane])
  | ioLinkOnNodeBoard => extractRackSubs ++ [extractMidplane, extractNodeBoard, extractPort]
  | allNodeBoardsOnMidplane => extractRackSubs ++ [extractMidplane]

def matches? (b : Branch) (location : List Char) : Option (List Nat) :=
  if location.length = b.length then regexec b.regex (cstr location) 0 else none

end Branch

/-- `boost::algorithm::trim_copy` -/
def trimCopy (s : List Char) : List Char :=
  (s.dropWhile isspace).rdropWhile isspace

/-- `Location::set`: the object afterwards, and the text of the exception it may throw. -/
def Location.set (loc : Location) (location : List Char) (throwsSpec : ThrowsSpec) :
    Location × Option String :=
  let loc := { loc with
    location := trimCopy location, type := .notValid, rackType := .notValid }
  match branches.findSome? fun b => (b.matches? loc.location).map (b, ·) with
  | some (b, starts) =>
    runExtracts location b.extracts starts { loc with type := b.type, rackType := b.rackType }
  | none =>
    if throwsSpec = .throwsOnBadLocation then (loc, some (notValidMessage location ""))
    else (loc, none)

/-- The string was taken as a location: nothing was thrown and the object is valid. -/
def Location.Accepts (loc : Location) (location : List Char) (throwsSpec : ThrowsSpec) : Prop :=
  (loc.set location throwsSpec).2 = none ∧ (loc.set location throwsSpec).1.type ≠ .notValid

end BgqDriver.HardwareLocation
