import BgqDriver.FixedForms
import BgqDriver.PackedWords

/-!
The universal component identifier: a 64-bit code for every replaceable part of the
machine, with its conversion from and to a location string.
-/

namespace BgqDriver.Uci

open FixedForms Function

/-- The numbers a location can hold, under the names `bg_string_to_uci` gives them. -/
inductive Number where
  | row | col | midplane | bps | pm | clock | iod | node | compute | core | link | optical
  | dca | pci | assembly | fan
deriving DecidableEq, Repr

inductive Component where
  | computeRack | ioRack | midplane | bulkPowerSupplyOnComputeRack | powerModuleOnComputeRack
  | powerModuleOnIoRack | clockCardOnComputeRack | clockCardOnIoRack | ioDrawerOnComputeRack
  | ioDrawerOnIoRack | nodeBoard | fanAssemblyOnIoRack | computeCardOnNodeBoard
  | computeCardOnIoBoardOnIoRack | computeCardCoreOnNodeBoard | computeCardCoreOnIoBoard
  | serviceCard | linkModuleOnNodeBoard | linkModuleOnIoBoard | opticalModuleOnNodeBoard
  | opticalModuleOnIoBoard | dcaOnNodeBoard | pciAdapterCard | bulkPowerSupplyOnIoRack
  | dcaOnIoBoard | fanAssemblyOnComputeRack | fanOnComputeRack | fanOnIoRack
  | leakDetectorOnComputeRack | computeCardOnIoBoardOnComputeRack
deriving DecidableEq, Repr

/-! The packed layout.  Bits are numbered from the most significant one, and a field is
given by its width and its last bit. -/

/-- `_BGQ_SET` -/
def bgqSet (w b : Nat) (v : BitVec 64) : BitVec 64 :=
  (v &&& ((2#64 <<< (w - 1)) - 1)) <<< (63 - b)

/-- `_BGQ_GET` -/
def bgqGet (w b : Nat) (x : BitVec 64) : BitVec 64 :=
  (x >>> (63 - b)) &&& ((2#64 <<< (w - 1)) - 1)

namespace Number

/-- The width of a number and its last bit, as the `BG_UCI_SET` and `BG_UCI_GET` macros
have them. -/
def bits : Number → Nat × Nat
  | row => (5, 10)
  | col => (5, 15)
  | midplane => (1, 16)
  | bps => (2, 17)
  | pm => (4, 21)
  | clock => (1, 16)
  | iod => (4, 19)
  | node => (4, 20)
  | assembly => (2, 21)
  | fan => (2, 23)
  | link => (4, 24)
  | optical => (6, 26)
  | compute => (5, 25)
  | core => (5, 30)
  | pci => (1, 20)
  | dca => (1, 21)

def width (n : Number) : Nat := n.bits.1

def bgUciSet (n : Number) (x : Nat) : BitVec 64 :=
  bgqSet n.bits.1 n.bits.2 (BitVec.ofNat 64 x)

def bgUciGet (n : Number) (uci : BitVec 64) : Nat :=
  (bgqGet n.bits.1 n.bits.2 uci).toNat

end Number

def bgUciSetComponent (x : Nat) : BitVec 64 :=
  bgqSet 6 5 (BitVec.ofNat 64 x)

def bgUciGetComponent (uci : BitVec 64) : Nat :=
  (bgqGet 6 5 uci).toNat

namespace Component

/-- The value of `BG_UCI_Component_…`. -/
def code : Component → Nat
  | computeRack => 1
  | ioRack => 2
  | midplane => 3
  | bulkPowerSupplyOnComputeRack => 4
  | powerModuleOnComputeRack => 5
  | powerModuleOnIoRack => 6
  | clockCardOnComputeRack => 7
  | clockCardOnIoRack => 8
  | ioDrawerOnComputeRack => 9
  | ioDrawerOnIoRack => 10
  | nodeBoard => 11
  | fanAssemblyOnIoRack => 12
  | computeCardOnNodeBoard => 13
  | computeCardOnIoBoardOnIoRack => 14
  | computeCardCoreOnNodeBoard => 15
  | computeCardCoreOnIoBoard => 16
  | serviceCard => 17
  | linkModuleOnNodeBoard => 18
  | linkModuleOnIoBoard => 19
  | opticalModuleOnNodeBoard => 20
  | opticalModuleOnIoBoard => 21
  | dcaOnNodeBoard => 22
  | pciAdapterCard => 23
  | bulkPowerSupplyOnIoRack => 24
  | dcaOnIoBoard => 25
  | fanAssemblyOnComputeRack => 26
  | fanOnComputeRack => 27
  | fanOnIoRack => 28
  | leakDetectorOnComputeRack => 29
  | computeCardOnIoBoardOnComputeRack => 30

/-- The value of `BG_UCI_Pattern_…`. -/
def pattern : Component → List Char
  | computeRack => "R**".toList
  | ioRack => "Q**".toList
  | midplane => "R**-M*".toList
  | bulkPowerSupplyOnComputeRack => "R**-B*".toList
  | powerModuleOnComputeRack => "R**-B*-P*".toList
  | powerModuleOnIoRack => "Q**-B-P*".toList
  | clockCardOnComputeRack => "R**-K".toList
  | clockCardOnIoRack => "Q**-K*".toList
  | ioDrawerOnComputeRack => "R**-I*".toList
  | ioDrawerOnIoRack => "Q**-I*".toList
  | nodeBoard => "R**-M*-N**".toList
  | fanAssemblyOnIoRack => "Q**-I*-H*".toList
  | computeCardOnNodeBoard => "R**-M*-N**-J**".toList
  | computeCardOnIoBoardOnIoRack => "Q**-I*-J**".toList
  | computeCardCoreOnNodeBoard => "R**-M*-N**-J**-C**".toList
  | computeCardCoreOnIoBoard => "Q**-I*-J**-C**".toList
  | serviceCard => "R**-M*-S".toList
  | linkModuleOnNodeBoard => "R**-M*-N**-U**".toList
  | linkModuleOnIoBoard => "Q**-I*-U**".toList
  | opticalModuleOnNodeBoard => "R**-M*-N**-O**".toList
  | opticalModuleOnIoBoard => "Q**-I*-O**".toList
  | dcaOnNodeBoard => "R**-M*-N**-D*".toList
  | pciAdapterCard => "Q**-I*-A*".toList
  | bulkPowerSupplyOnIoRack => "Q**-B".toList
  | dcaOnIoBoard => "Q**-I*-D*".toList
  | fanAssemblyOnComputeRack => "R**-I*-H*".toList
  | fanOnComputeRack => "R**-I*-H*-F*".toList
  | fanOnIoRack => "Q**-I*-H*-F*".toList
  | leakDetectorOnComputeRack => "R**-L".toList
  | computeCardOnIoBoardOnComputeRack => "R**-I*-J**".toList

open Number in
/-- The numbers that `bg_encode…UCI` packs and `bg_decode…UCI` reads back. -/
def numbers : Component → List Number
  | computeRack => [row, col]
  | ioRack => [row, col]
  | midplane => [row, col, .midplane]
  | bulkPowerSupplyOnComputeRack => [row, col, bps]
  | powerModuleOnComputeRack => [row, col, bps, pm]
  | powerModuleOnIoRack => [row, col, pm]
  | clockCardOnComputeRack => [row, col]
  | clockCardOnIoRack => [row, col, clock]
  | ioDrawerOnComputeRack => [row, col, iod]
  | ioDrawerOnIoRack => [row, col, iod]
  | nodeBoard => [row, col, .midplane, node]
  | fanAssemblyOnIoRack => [row, col, iod, assembly]
  | computeCardOnNodeBoard => [row, col, .midplane, node, compute]
  | computeCardOnIoBoardOnIoRack => [row, col, iod, compute]
  | computeCardCoreOnNodeBoard => [row, col, .midplane, node, compute, core]
  | computeCardCoreOnIoBoard => [row, col, iod, compute, core]
  | serviceCard => [row, col, .midplane]
  | linkModuleOnNodeBoard => [row, col, .midplane, node, link]
  | linkModuleOnIoBoard => [row, col, iod, link]
  | opticalModuleOnNodeBoard => [row, col, .midplane, node, optical]
  | opticalModuleOnIoBoard => [row, col, iod, optical]
  | dcaOnNodeBoard => [row, col, .midplane, node, dca]
  | pciAdapterCard => [row, col, iod, pci]
  | bulkPowerSupplyOnIoRack => [row, col]
  | dcaOnIoBoard => [row, col, iod, dca]
  | fanAssemblyOnComputeRack => [row, col, iod, assembly]
  | fanOnComputeRack => [row, col, iod, assembly, fan]
  | fanOnIoRack => [row, col, iod, assembly, fan]
  | leakDetectorOnComputeRack => [row, col]
  | computeCardOnIoBoardOnComputeRack => [row, col, iod, compute]

/-- The `bg_encode…UCI` function of the component. -/
def bgEncodeUci (c : Component) (f : Number → Nat) : BitVec 64 :=
  c.numbers.foldl (fun uci n => uci ||| n.bgUciSet (f n)) (0 ||| bgUciSetComponent c.code)

/-- The `bg_decode…UCI` function of the component. -/
def bgDecodeUci (c : Component) (uci : BitVec 64) : List (Number × Nat) :=
  c.numbers.map fun n => (n, n.bgUciGet uci)

end Component

/-- What one of the `_BG_ENCODE_…` macros appends to the buffer. -/
inductive Printed where
  | rack (letter : Char)
  | oneDigit (letter : Char) (n : Number)
  | twoDigits (letter : Char) (n : Number)
  | zeroAndDigit (letter : Char) (n : Number)
  | letter (letter : Char)

namespace Printed

def chars (uci : BitVec 64) : Printed → List Char
  | rack l => [l, digitChar (Number.row.bgUciGet uci), digitChar (Number.col.bgUciGet uci)]
  | oneDigit l n => ['-', l, digitChar (n.bgUciGet uci)]
  | twoDigits l n => ['-', l, digitChar (n.bgUciGet uci / 10), digitChar (n.bgUciGet uci % 10)]
  | zeroAndDigit l n => ['-', l, '0', digitChar (n.bgUciGet uci)]
  | letter l => ['-', l]

def computeRack : Printed := rack 'R'
def ioRack : Printed := rack 'Q'
def midplane : Printed := oneDigit 'M' .midplane
def ioDrawer : Printed := oneDigit 'I' .iod
def bulkPowerSupply : Printed := oneDigit 'B' .bps
def powerModule : Printed := oneDigit 'P' .pm
def clockCard : Printed := oneDigit 'K' .clock
def nodeBoard : Printed := twoDigits 'N' .node
def fan : Printed := oneDigit 'F' .fan
def fanAssembly : Printed := oneDigit 'H' .assembly
def computeCard : Printed := twoDigits 'J' .compute
def core : Printed := twoDigits 'C' .core
def linkModule : Printed := zeroAndDigit 'U' .link
def opticalModule : Printed := twoDigits 'O' .optical
def dca : Printed := oneDigit 'D' .dca
def pciAdapter : Printed := oneDigit 'A' .pci
def leakDetector : Printed := letter 'L'

end Printed

/-- What the component's case of `bg_uci_toString` appends.  Where the source appends a
digit and steps back over it (`i--`), only the letter remains. -/
def Component.printed : Component → List Printed
  | .computeRack => [.computeRack]
  | .ioRack => [.ioRack]
  | .midplane => [.computeRack, .midplane]
  | .bulkPowerSupplyOnComputeRack => [.computeRack, .bulkPowerSupply]
  | .bulkPowerSupplyOnIoRack => [.ioRack, .letter 'B']
  | .powerModuleOnComputeRack => [.computeRack, .bulkPowerSupply, .powerModule]
  | .powerModuleOnIoRack => [.ioRack, .letter 'B', .powerModule]
  | .clockCardOnComputeRack => [.computeRack, .letter 'K']
  | .clockCardOnIoRack => [.ioRack, .clockCard]
  | .ioDrawerOnComputeRack => [.computeRack, .ioDrawer]
  | .ioDrawerOnIoRack => [.ioRack, .ioDrawer]
  | .nodeBoard => [.computeRack, .midplane, .nodeBoard]
  | .fanAssemblyOnIoRack => [.ioRack, .ioDrawer, .fanAssembly]
  | .fanAssemblyOnComputeRack => [.computeRack, .ioDrawer, .fanAssembly]
  | .fanOnIoRack => [.ioRack, .ioDrawer, .fanAssembly, .fan]
  | .fanOnComputeRack => [.computeRack, .ioDrawer, .fanAssembly, .fan]
  | .computeCardOnNodeBoard => [.computeRack, .midplane, .nodeBoard, .computeCard]
  | .computeCardOnIoBoardOnIoRack => [.ioRack, .ioDrawer, .computeCard]
  | .computeCardOnIoBoardOnComputeRack => [.computeRack, .ioDrawer, .computeCard]
  | .computeCardCoreOnNodeBoard => [.computeRack, .midplane, .nodeBoard, .computeCard, .core]
  | .computeCardCoreOnIoBoard => [.ioRack, .ioDrawer, .computeCard, .core]
  | .serviceCard => [.computeRack, .midplane, .letter 'S']
  | .linkModuleOnNodeBoard => [.computeRack, .midplane, .nodeBoard, .linkModule]
  | .linkModuleOnIoBoard => [.ioRack, .ioDrawer, .linkModule]
  | .opticalModuleOnNodeBoard => [.computeRack, .midplane, .nodeBoard, .opticalModule]
  | .opticalModuleOnIoBoard => [.ioRack, .ioDrawer, .opticalModule]
  | .dcaOnNodeBoard => [.computeRack, .midplane, .nodeBoard, .dca]
  | .dcaOnIoBoard => [.ioRack, .ioDrawer, .dca]
  | .pciAdapterCard => [.ioRack, .ioDrawer, .pciAdapter]
  | .leakDetectorOnComputeRack => [.computeRack, .leakDetector]

/-- The branches of `bg_string_to_uci` in the order in which it tries them. -/
def branches : List Component :=
  [.computeRack, .ioRack, .midplane, .bulkPowerSupplyOnComputeRack, .powerModuleOnComputeRack,
    .powerModuleOnIoRack, .clockCardOnComputeRack, .clockCardOnIoRack, .ioDrawerOnComputeRack,
    .ioDrawerOnIoRack, .nodeBoard, .fanAssemblyOnComputeRack, .fanAssemblyOnIoRack,
    .fanOnComputeRack, .fanOnIoRack, .computeCardOnNodeBoard, .computeCardOnIoBoardOnIoRack,
    .computeCardOnIoBoardOnComputeRack, .computeCardCoreOnNodeBoard, .computeCardCoreOnIoBoard,
    .serviceCard, .linkModuleOnNodeBoard, .linkModuleOnIoBoard, .opticalModuleOnNodeBoard,
    .opticalModuleOnIoBoard, .dcaOnNodeBoard, .pciAdapterCard, .bulkPowerSupplyOnIoRack,
    .dcaOnIoBoard, .leakDetectorOnComputeRack]

/-- `bg_uci_toString`: the text written to the buffer, or nothing for the code of no
component. -/
def bgUciToString (uci : BitVec 64) : Option (List Char) :=
  (branches.find? fun c => c.code = bgUciGetComponent uci).map fun c =>
    c.printed.flatMap (Printed.chars uci)

/-! Parsing a location string.  A string is read through a cursor, and reads as the
terminating null character at its end. -/

/-- A null-terminated string, without its terminator. -/
@[ext]
structure CString where
  chars : List Char
  noNull : '\x00' ∉ chars

def cur (s : List Char) : Char :=
  s.headD '\x00'

def uciPatternMatches : List Char → List Char → Bool
  | s, [] => cur s = '\x00'
  | s, p :: ps =>
    if cur s = '\x00' then false
    else if p = '*' then uciPatternMatches s.tail ps
    else if p = cur s then uciPatternMatches s.tail ps
    else false

/-- The cursor, the local variables and the return code of `bg_string_to_uci`. -/
structure Parse where
  str : List Char
  vars : Number → Nat
  rc : BitVec 32

def parseRowCol (n : Number) (p : Parse) : Parse :=
  let c := cur p.str
  if '0' ≤ c ∧ c ≤ '9' then
    { p with str := p.str.tail, vars := update p.vars n (c.toNat - '0'.toNat) }
  else if 'A' ≤ c ∧ c ≤ 'V' then
    { p with str := p.str.tail, vars := update p.vars n (c.toNat - 'A'.toNat + 10) }
  else
    { p with str := p.str.tail, rc := p.rc ||| -1 }

/-- The common body of `_parseComputeRack` and `_parseIoRack`. -/
def parseRack (letter : Char) (p : Parse) : Parse :=
  if cur p.str = letter then
    parseRowCol .col (parseRowCol .row { p with str := p.str.tail })
  else
    { p with rc := p.rc ||| -1 }

/-- The result of a number parser: the value is stored, and refused out of its bounds. -/
def parsed (n : Number) (lower upper value : Nat) (p : Parse) : Parse :=
  { p with
    vars := update p.vars n value
    rc := p.rc ||| (if value < lower ∨ upper < value then 1 else 0) }

def parseSingleDigit (n : Number) (id : Char) (lower upper : Nat) (p : Parse) : Parse :=
  if cur p.str ≠ '-' then { p with rc := p.rc ||| -1 }
  else
    let p := { p with str := p.str.tail }
    if cur p.str ≠ id then { p with rc := p.rc ||| -1 }
    else
      let p := { p with str := p.str.tail }
      let digit := cur p.str
      if '0' ≤ digit ∧ digit ≤ '9' then
        parsed n lower upper (digit.toNat - '0'.toNat) { p with str := p.str.tail }
      else if 'A' ≤ digit ∧ digit ≤ 'Z' then
        parsed n lower upper (digit.toNat - 'A'.toNat + 10) { p with str := p.str.tail }
      else { p with rc := p.rc ||| -1 }

def parseDoubleDecimalDigits (n : Number) (id : Char) (lower upper : Nat) (p : Parse) : Parse :=
  if cur p.str ≠ '-' then { p with rc := p.rc ||| -1 }
  else
    let p := { p with str := p.str.tail }
    if cur p.str ≠ id then { p with rc := p.rc ||| -1 }
    else
      let p := { p with str := p.str.tail }
      let n0 := cur p.str
      let p := { p with str := p.str.tail }
      let n1 := cur p.str
      let p := { p with str := p.str.tail }
      if '0' ≤ n0 ∧ n0 ≤ '9' then
        let value := (n0.toNat - '0'.toNat) * 10
        if '0' ≤ n1 ∧ n1 ≤ '9' then
          parsed n lower upper (value + (n1.toNat - '0'.toNat)) p
        else { p with vars := update p.vars n value, rc := p.rc ||| -1 }
      else { p with rc := p.rc ||| -1 }

/-- One statement of a branch of `bg_string_to_uci`. -/
inductive Step where
  | rack (letter : Char)
  | singleDigit (n : Number) (id : Char) (lower upper : Nat)
  | doubleDecimalDigits (n : Number) (id : Char) (lower upper : Nat)
  | skip (count : Nat)

namespace Step

def run : Step → Parse → Parse
  | rack letter, p => parseRack letter p
  | singleDigit n id lower upper, p => parseSingleDigit n id lower upper p
  | doubleDecimalDigits n id lower upper, p => parseDoubleDecimalDigits n id lower upper p
  | skip count, p => { p with str := p.str.drop count }

end Step

def parseComputeRack : Step := .rack 'R'
def parseIoRack : Step := .rack 'Q'
def parseMidPlane : Step := .singleDigit .midplane 'M' 0 1
def parseBulkPowerSupply : Step := .singleDigit .bps 'B' 0 3
def parseDca : Step := .singleDigit .dca 'D' 0 1
def parsePciAdapter : Step := .singleDigit .pci 'A' 0 7
def parsePowerModule : Step := .singleDigit .pm 'P' 0 8
def parseClockCard : Step := .singleDigit .clock 'K' 0 1
def parseIoDrawer : Step := .singleDigit .iod 'I' 0 0xF
def parseFanAssembly : Step := .singleDigit .assembly 'H' 0 2
def parseFan : Step := .singleDigit .fan 'F' 0 1
def parseNodeBoard : Step := .doubleDecimalDigits .node 'N' 0 15
def parseComputeCard : Step := .doubleDecimalDigits .compute 'J' 0 31
def parseCore : Step := .doubleDecimalDigits .core 'C' 0 16
def parseOpticalModule : Step := .doubleDecimalDigits .optical 'O' 0 35
def parseLinkModule : Step := .doubleDecimalDigits .link 'U' 0 8

def Component.steps : Component → List Step
  | .computeRack => [parseComputeRack]
  | .ioRack => [parseIoRack]
  | .midplane => [parseComputeRack, parseMidPlane]
  | .bulkPowerSupplyOnComputeRack => [parseComputeRack, parseBulkPowerSupply]
  | .powerModuleOnComputeRack => [parseComputeRack, parseBulkPowerSupply, parsePowerModule]
  | .powerModuleOnIoRack => [parseIoRack, .skip 2, parsePowerModule]
  | .clockCardOnComputeRack => [parseComputeRack]
  | .clockCardOnIoRack => [parseIoRack, parseClockCard]
  | .ioDrawerOnComputeRack => [parseComputeRack, parseIoDrawer]
  | .ioDrawerOnIoRack => [parseIoRack, parseIoDrawer]
  | .nodeBoard => [parseComputeRack, parseMidPlane, parseNodeBoard]
  | .fanAssemblyOnComputeRack => [parseComputeRack, parseIoDrawer, parseFanAssembly]
  | .fanAssemblyOnIoRack => [parseIoRack, parseIoDrawer, parseFanAssembly]
  | .fanOnComputeRack => [parseComputeRack, parseIoDrawer, parseFanAssembly, parseFan]
  | .fanOnIoRack => [parseIoRack, parseIoDrawer, parseFanAssembly, parseFan]
  | .computeCardOnNodeBoard =>
    [parseComputeRack, parseMidPlane, parseNodeBoard, parseComputeCard]
  | .computeCardOnIoBoardOnIoRack => [parseIoRack, parseIoDrawer, parseComputeCard]
  | .computeCardOnIoBoardOnComputeRack => [parseComputeRack, parseIoDrawer, parseComputeCard]
  | .computeCardCoreOnNodeBoard =>
    [parseComputeRack, parseMidPlane, parseNodeBoard, parseComputeCard, parseCore]
  | .computeCardCoreOnIoBoard => [parseIoRack, parseIoDrawer, parseComputeCard, parseCore]
  | .serviceCard => [parseComputeRack, parseMidPlane]
  | .linkModuleOnNodeBoard => [parseComputeRack, parseMidPlane, parseNodeBoard, parseLinkModule]
  | .linkModuleOnIoBoard => [parseIoRack, parseIoDrawer, parseLinkModule]
  | .opticalModuleOnNodeBoard =>
    [parseComputeRack, parseMidPlane, parseNodeBoard, parseOpticalModule]
  | .opticalModuleOnIoBoard => [parseIoRack, parseIoDrawer, parseOpticalModule]
  | .dcaOnNodeBoard => [parseComputeRack, parseMidPlane, parseNodeBoard, parseDca]
  | .pciAdapterCard => [parseIoRack, parseIoDrawer, parsePciAdapter]
  | .bulkPowerSupplyOnIoRack => [parseIoRack]
  | .dcaOnIoBoard => [parseIoRack, parseIoDrawer, parseDca]
  | .leakDetectorOnComputeRack => [parseComputeRack]

def runSteps (steps : List Step) (p : Parse) : Parse :=
  steps.foldl (fun p step => step.run p) p

/-- `bg_string_to_uci`: the return code and the code stored. -/
def bgStringToUci (str : CString) : BitVec 32 × BitVec 64 :=
  match branches.find? fun c => uciPatternMatches str.chars c.pattern with
  | some c =>
    let p := runSteps c.steps { str := str.chars, vars := fun _ => 0, rc := 0 }
    (p.rc, c.bgEncodeUci p.vars)
  | none => (-1, 0)

end BgqDriver.Uci
