import Mathlib.Data.BitVec
import BgqDriver.ByteMemory
import BgqDriver.ExtentTables

/-!
The shared-memory files of the compute node kernel. All files of one manager lie in one
region of memory; a table of slots holds where. A file gets its storage with the first
write or mapping, and storage is moved when a file has to grow. Every call runs under
the lock of the table, so a call is one step.
-/

namespace BgqDriver.ShmFS

open Function
open ByteMemory ExtentTables

abbrev Byte := BitVec 8

abbrev Path := List Byte

/-- `SHM_MAX_OPENS` -/
@[irreducible]
def shmMaxOpens : Nat := 1072

abbrev Slot := Fin shmMaxOpens

instance : NeZero shmMaxOpens := ⟨by simp [shmMaxOpens]⟩

/-- The slots in the order in which the loops go through the table. -/
def slots : List Slot := List.finRange shmMaxOpens

theorem mem_slots (x : Slot) : x ∈ slots := List.mem_finRange x

def add64 (a b : Nat) : Nat := (a + b) % 2 ^ 64

def sub64 (a b : Nat) : Nat := (a + (2 ^ 64 - b)) % 2 ^ 64

def toU64 (x : Int) : Nat := (x % 2 ^ 64).toNat

def toI64 (x : Nat) : Int := if x < 2 ^ 63 then x else x - 2 ^ 64

/-- `ROUND_UP_MEMPAGE` -/
def roundUpMempage (p : Nat) : Nat := add64 p 4095 / 4096 * 4096

/-- `L2ATOMICSIZE` -/
def l2AtomicSize : Nat := 32 * 2 ^ 20

structure ShmMgr where
  vStart : Nat
  size : Nat

def ShmMgr.vEnd (mgr : ShmMgr) : Nat := add64 mgr.vStart mgr.size

structure ShmMgrEntry where
  /-- Whether the manager owns the slot. -/
  owner : Bool
  fileName : Path
  isHardLink : Bool
  pinned : Bool
  needAtomic : Bool
  markForDelete : Bool
  linkCount : BitVec 32
  hardLinkPtr : Slot
  allocatedAddr : Nat
  allocatedSize : Nat

def ShmMgrEntry.zero : ShmMgrEntry where
  owner := false
  fileName := []
  isHardLink := false
  pinned := false
  needAtomic := false
  markForDelete := false
  linkCount := 0#32
  hardLinkPtr := 0
  allocatedAddr := 0
  allocatedSize := 0

abbrev Pool := Slot → ShmMgrEntry

section Search

variable (mgr : ShmMgr) (pool : Pool)

def nextAddress (ptr : ShmMgrEntry) : Option Slot :=
  (scan (fun x maxva => (pool x).owner && decide (ptr.allocatedAddr < (pool x).allocatedAddr) &&
      decide ((pool x).allocatedAddr ≠ 0) && decide ((pool x).allocatedAddr ≤ maxva))
    (fun x => (pool x).allocatedAddr) (2 ^ 64 - 1, none) slots).2

def previousAddress (address : Nat) : Option Slot :=
  (scan (fun x minva => (pool x).owner && decide ((pool x).allocatedAddr ≠ 0) &&
      decide ((pool x).allocatedAddr < address) && decide (minva < (pool x).allocatedAddr))
    (fun x => (pool x).allocatedAddr) (0, none) slots).2

/-- Where the space above an entry ends: at the next file or at the end of the region. -/
def ceiling (ptr : ShmMgrEntry) : Nat :=
  match nextAddress pool ptr with
  | some next => (pool next).allocatedAddr
  | none => mgr.vEnd

def findRoom (space : Nat) : Option Nat :=
  slots.findSome? fun x =>
    if (pool x).owner = false ∨ (pool x).allocatedAddr = 0 then none
    else
      let newVaddr := roundUpMempage (add64 (pool x).allocatedAddr (pool x).allocatedSize)
      if add64 space newVaddr ≤ ceiling mgr pool (pool x) then some newVaddr else none

def ownerFound : Bool :=
  slots.any fun x => (pool x).owner && decide ((pool x).allocatedAddr ≠ 0)

/-- `strncpy` into `FileName`, which holds 256 bytes -/
def storedName (pathname : Path) : Path := pathname.take 256

/-- The slot of a name that is not marked for deletion, links not followed. A stored name of
256 bytes has no terminator of its own: it is compared on into the first byte of `Oflags`,
which is taken to be zero. -/
def findByName (pathname : Path) : Option Slot :=
  slots.find? fun x =>
    (pool x).owner && decide ((pool x).fileName = pathname) && !(pool x).markForDelete

def freeSlot : Option Slot := slots.find? fun x => !(pool x).owner

def resolve : Nat → Slot → Option Slot
  | 0, _ => none
  | fuel + 1, x => if (pool x).isHardLink then resolve fuel (pool x).hardLinkPtr else some x

end Search

structure Descriptor where
  slot : Slot
  offset : Nat

structure State (Fd : Type*) where
  pool : Pool
  fds : Fd → Option Descriptor
  memory : Nat → Byte

inductive Errno where
  | EBADF
  | EEXIST
  | EINVAL
  | EMFILE
  | ENOENT
  | ENOMEM
  | ENOSPC
  deriving DecidableEq

inductive Reply (Fd : Type*) where
  | value (n : Nat)
  | descriptor (fd : Fd)
  | bytes (bs : List Byte)
  | failure (e : Errno)
  deriving DecidableEq

inductive Whence where
  | SEEK_SET
  | SEEK_CUR
  | SEEK_END

variable {k x : Slot}

namespace State

variable {Fd : Type*} (s : State Fd)

def setEntry (k : Slot) (e : ShmMgrEntry) : State Fd := { s with pool := update s.pool k e }

@[simp]
theorem setEntry_pool_self (k : Slot) (e : ShmMgrEntry) : (s.setEntry k e).pool k = e :=
  update_self ..

theorem setEntry_pool_of_ne (h : x ≠ k) (e : ShmMgrEntry) : (s.setEntry k e).pool x = s.pool x :=
  update_of_ne h ..

def setSpace (k : Slot) (addr size : Nat) : State Fd :=
  s.setEntry k { s.pool k with allocatedAddr := addr, allocatedSize := size }

@[simp]
theorem setSpace_pool_self (k : Slot) (addr size : Nat) : (s.setSpace k addr size).pool k =
    { s.pool k with allocatedAddr := addr, allocatedSize := size } :=
  update_self ..

theorem setSpace_pool_of_ne (h : x ≠ k) (addr size : Nat) :
    (s.setSpace k addr size).pool x = s.pool x :=
  update_of_ne h ..

def relocate (k : Slot) (newVaddr space : Nat) : State Fd :=
  let e := s.pool k
  let cleared := fill s.memory newVaddr space 0#8
  let memory := if e.allocatedAddr ≠ 0 then moveUp cleared newVaddr e.allocatedAddr e.allocatedSize
    else cleared
  { s.setSpace k newVaddr space with memory := memory }

/-- The first part of `defineMemorySpace`: shrink, grow where the file is, or take the
start of the region. -/
def extendInPlace (mgr : ShmMgr) (k : Slot) (space : Nat) : Option (State Fd) :=
  let e := s.pool k
  if e.allocatedAddr ≠ 0 ∧ space ≤ e.allocatedSize then some (s.setSpace k e.allocatedAddr space)
  else
    match nextAddress s.pool e with
    | some next =>
      if e.allocatedAddr ≠ 0 then
        if add64 space e.allocatedAddr ≤ (s.pool next).allocatedAddr then
          some { s.setSpace k e.allocatedAddr space with
            memory := fill s.memory (add64 e.allocatedAddr e.allocatedSize)
              (space - e.allocatedSize) 0#8 }
        else none
      else if add64 space (roundUpMempage mgr.vStart) ≤ (s.pool next).allocatedAddr then
        some (s.relocate k (roundUpMempage mgr.vStart) space)
      else none
    | none =>
      -- No file above: the new space is taken as it is, without clearing it.
      if e.allocatedAddr ≠ 0 then
        if add64 space e.allocatedAddr ≤ mgr.vEnd then some (s.setSpace k e.allocatedAddr space)
        else none
      else if add64 space (roundUpMempage mgr.vStart) ≤ mgr.vEnd then
        some (s.setSpace k (roundUpMempage mgr.vStart) space)
      else none

def slide (k : Slot) (target : Nat) : State Fd :=
  let e := s.pool k
  { s.setSpace k target e.allocatedSize with
    memory := moveUp s.memory target e.allocatedAddr e.allocatedSize }

/-- The loop of `compactMemorySpace`, from the top of the region down to the first pinned
file. -/
def compactLoop : Nat → State Fd → Nat → Nat → Option (State Fd × Bool)
  | 0, _, _, _ => none
  | fuel + 1, s, maxva, bytesMoved =>
    match previousAddress s.pool maxva with
    | none => some (s, decide (0 < bytesMoved))
    | some k =>
      let e := s.pool k
      if e.pinned then some (s, decide (0 < bytesMoved))
      else
        let target := sub64 maxva e.allocatedSize
        if e.allocatedAddr ≠ target then
          compactLoop fuel (s.slide k target) target
            (add64 bytesMoved (sub64 target e.allocatedAddr))
        else compactLoop fuel s e.allocatedAddr bytesMoved

/-- Move the files up against each other; whether anything has moved. -/
def compactMemorySpace (fuel : Nat) (mgr : ShmMgr) : Option (State Fd × Bool) :=
  compactLoop fuel s mgr.vEnd 0

/-- The first part of the move of a file that cannot stay: a pinned file has the others
moved out of the way first. -/
def makeRoom (fuel : Nat) (mgr : ShmMgr) (k : Slot) : Option (State Fd) :=
  if (s.pool k).pinned then (s.compactMemorySpace fuel mgr).map Prod.fst else some s

/-- Where `defineMemorySpace` moves a file to. -/
def newSpace (mgr : ShmMgr) (space : Nat) : Option Nat :=
  match findRoom mgr s.pool space with
  | some newVaddr => some newVaddr
  | none =>
    if ownerFound s.pool = false ∧ add64 (roundUpMempage mgr.vStart) space ≤ mgr.vEnd then
      some (roundUpMempage mgr.vStart)
    else none

/-- Give a file `space` bytes; `false` stands for `ENOSPC`. The function calls itself
again after a compaction, and the fuel bounds these calls and the compactions. -/
def defineMemorySpace (fuel : Nat) (mgr : ShmMgr) (k : Slot) (space : Nat) :
    Nat → State Fd → Option (State Fd × Bool)
  | 0, _ => none
  | calls + 1, s =>
    match s.extendInPlace mgr k space with
    | some s => some (s, true)
    | none =>
      (s.makeRoom fuel mgr k).bind fun s =>
        match s.newSpace mgr space with
        | some newVaddr => some (s.relocate k newVaddr space, true)
        | none =>
          (s.compactMemorySpace fuel mgr).bind fun (s, moved) =>
            if moved then defineMemorySpace fuel mgr k space calls s else some (s, false)

def remove (k : Slot) : State Fd :=
  { s with pool := fun x =>
      if x = k ∨ ((s.pool x).owner ∧ (s.pool x).isHardLink ∧ (s.pool x).hardLinkPtr = k) then
        { s.pool x with owner := false }
      else s.pool x }

variable [DecidableEq Fd]

def setFd (fd : Fd) (d : Option Descriptor) : State Fd := { s with fds := update s.fds fd d }

variable (fuel : Nat) (mgr : ShmMgr)

def findByDescriptor (fd : Fd) : Option (Option (Slot × Descriptor)) :=
  match s.fds fd with
  | none => some none
  | some d => (resolve s.pool fuel d.slot).map fun k => some (k, d)

/-- A call through a descriptor, which fails when the descriptor is not open. -/
def withDescriptor (fd : Fd) (body : Slot → Descriptor → Option (State Fd × Reply Fd)) :
    Option (State Fd × Reply Fd) :=
  (s.findByDescriptor fuel fd).bind fun
    | none => some (s, .failure .EBADF)
    | some (k, d) => body k d

def close (fd : Fd) : Option (State Fd × Reply Fd) :=
  s.withDescriptor fuel fd fun k _ =>
    let count := (s.pool k).linkCount - 1#32
    let s := (s.setEntry k { s.pool k with linkCount := count }).setFd fd none
    some (if (s.pool k).markForDelete ∧ count = 0#32 then s.remove k else s, .value 0)

def ftruncate64 (fd : Fd) (offset : Int) : Option (State Fd × Reply Fd) :=
  s.withDescriptor fuel fd fun k _ =>
    some (s.setEntry k { s.pool k with allocatedSize := toU64 offset }, .value 0)

/-- `ioctl` with `FIOBGQATOMIC`. A descriptor that is not open is not reported. -/
def ioctl (fd : Fd) : Option (State Fd × Reply Fd) :=
  (s.withDescriptor fuel fd fun k _ =>
    some (s.setEntry k { s.pool k with needAtomic := true }, .value 0)).map fun (s, _) =>
      (s, .value 0)

def lseek (fd : Fd) (offset : Int) (whence : Whence) : Option (State Fd × Reply Fd) :=
  s.withDescriptor fuel fd fun k d =>
    let size := (s.pool k).allocatedSize
    let position := toI64 d.offset
    let target : Option Nat :=
      match whence with
      | .SEEK_SET => if size < toU64 offset ∨ offset < 0 then none else some (toU64 offset)
      | .SEEK_CUR =>
        if size < toU64 (position + offset) ∨ position + offset < 0 then none
        else some (toU64 (position + offset))
      | .SEEK_END =>
        if size < add64 size (toU64 offset) ∨ toI64 size + offset < 0 then none
        else some (add64 size (toU64 offset))
    match target with
    | none => some (s, .failure .EINVAL)
    | some position => some (s.setFd fd (some { d with offset := position }), .value position)

def link (path linkPath : Path) : Option (State Fd × Reply Fd) :=
  match findByName s.pool path with
  | none => some (s, .failure .ENOENT)
  | some x =>
    (resolve s.pool fuel x).bind fun source =>
      match findByName s.pool linkPath with
      | some _ => some (s, .failure .EEXIST)
      | none =>
        match freeSlot s.pool with
        | none => some (s, .failure .ENOSPC)
        | some k =>
          let s := s.setEntry k { ShmMgrEntry.zero with
            owner := true, isHardLink := true, hardLinkPtr := source,
            fileName := storedName linkPath }
          some (s.setEntry source { s.pool source with
            linkCount := (s.pool source).linkCount + 1#32 }, .value 0)

/-- Where a file for atomics starts: in the last part of the region, behind all files. -/
def atomicAddr : Nat :=
  let start := sub64 mgr.vEnd l2AtomicSize
  match previousAddress s.pool mgr.vEnd with
  | some previous =>
    max (add64 (s.pool previous).allocatedAddr (s.pool previous).allocatedSize) start
  | none => start

def mmap (fd : Fd) (length : Nat) : Option (State Fd × Reply Fd) :=
  s.withDescriptor fuel fd fun k _ =>
    let e := s.pool k
    if e.allocatedAddr ≠ 0 then some (s, .value e.allocatedAddr)
    else if e.needAtomic ∧ mgr.size < l2AtomicSize then some (s, .failure .ENOMEM)
    else
      let e := if e.needAtomic then { e with allocatedAddr := s.atomicAddr mgr, allocatedSize := 0 }
        else e
      (defineMemorySpace fuel mgr k length fuel (s.setEntry k { e with pinned := true })).map
        fun (s, ok) =>
          (s, if ok then .value (s.pool k).allocatedAddr else .failure .ENOSPC)

/-- Open a file. The descriptor is the one that `File_AllocateFD` finds, if any. -/
def openFile (pathname : Path) (creat excl : Bool) (fd : Option Fd) :
    Option (State Fd × Reply Fd) :=
  let attach (s : State Fd) (k : Slot) : State Fd × Reply Fd :=
    match fd with
    | none => (s, .failure .EMFILE)
    | some fd => (s.setFd fd (some ⟨k, 0⟩), .descriptor fd)
  match findByName s.pool pathname with
  | some x =>
    (resolve s.pool fuel x).map fun k =>
      if creat && excl then (s, .failure .EEXIST)
      else attach (s.setEntry k { s.pool k with linkCount := (s.pool k).linkCount + 1#32 }) k
  | none =>
    if creat = false then some (s, .failure .ENOENT)
    else
      match freeSlot s.pool with
      | none => some (s, .failure .EMFILE)
      | some k =>
        match fd with
        | none => some (s.setEntry k { ShmMgrEntry.zero with owner := true }, .failure .EMFILE)
        | some _ => some (attach (s.setEntry k { ShmMgrEntry.zero with
            owner := true, fileName := storedName pathname, linkCount := 1#32 }) k)

def read (fd : Fd) (length : Nat) : Option (State Fd × Reply Fd) :=
  s.withDescriptor fuel fd fun k d =>
    let e := s.pool k
    if e.allocatedAddr = 0 then some (s, .bytes [])
    else
      let length := min length (sub64 e.allocatedSize d.offset)
      some (s.setFd fd (some { d with offset := add64 d.offset length }),
        .bytes (load s.memory (add64 e.allocatedAddr d.offset) length))

def unlink (pathname : Path) : Option (State Fd × Reply Fd) :=
  match findByName s.pool pathname with
  | none => some (s, .failure .ENOENT)
  | some x =>
    (resolve s.pool fuel x).map fun k =>
      let count := if (s.pool x).isHardLink then (s.pool k).linkCount - 1#32
        else (s.pool k).linkCount
      let s := s.setEntry k { s.pool k with linkCount := count }
      (if count = 0#32 then s.remove k
        else s.setEntry k { s.pool k with markForDelete := true }, .value 0)

def writeSpace (k : Slot) (d : Descriptor) (length : Nat) : Nat :=
  max (s.pool k).allocatedSize (add64 d.offset length)

def write (fd : Fd) (buffer : List Byte) : Option (State Fd × Reply Fd) :=
  s.withDescriptor fuel fd fun k d =>
    (defineMemorySpace fuel mgr k (s.writeSpace k d buffer.length) fuel s).map fun (s, ok) =>
      if ok then
        ({ s.setFd fd (some { d with offset := add64 d.offset buffer.length }) with
            memory := store s.memory (add64 (s.pool k).allocatedAddr d.offset) buffer },
          .value buffer.length)
      else (s, .failure .ENOSPC)

end State

inductive Call (Fd : Type*) where
  | openFile (pathname : Path) (creat excl : Bool) (fd : Option Fd)
  | close (fd : Fd)
  | ftruncate64 (fd : Fd) (offset : Int)
  | ioctl (fd : Fd)
  | lseek (fd : Fd) (offset : Int) (whence : Whence)
  | link (path linkPath : Path)
  | mmap (fd : Fd) (length : Nat)
  | read (fd : Fd) (length : Nat)
  | unlink (pathname : Path)
  | write (fd : Fd) (buffer : List Byte)

section Step

variable {Fd : Type*} [DecidableEq Fd] (fuel : Nat) (mgr : ShmMgr)

/-- One call. A descriptor is allocated only when it is not open, and `sc_mmap` refuses an
empty length. -/
def call (s : State Fd) : Call Fd → Option (State Fd × Reply Fd)
  | .openFile pathname creat excl fd =>
    if fd.all (fun fd => (s.fds fd).isNone) then s.openFile fuel pathname creat excl fd else none
  | .close fd => s.close fuel fd
  | .ftruncate64 fd offset => s.ftruncate64 fuel fd offset
  | .ioctl fd => s.ioctl fuel fd
  | .lseek fd offset whence => s.lseek fuel fd offset whence
  | .link path linkPath => s.link fuel path linkPath
  | .mmap fd length => if length = 0 then some (s, .failure .EINVAL) else s.mmap fuel mgr fd length
  | .read fd length => s.read fuel fd length
  | .unlink pathname => s.unlink fuel pathname
  | .write fd buffer => s.write fuel mgr fd buffer

def step (s : State Fd) (c : Call Fd) : Option (State Fd) := (call fuel mgr s c).map Prod.fst

def initial (Fd : Type*) (memory : Nat → Byte) : State Fd where
  pool := fun _ => ShmMgrEntry.zero
  fds := fun _ => none
  memory := memory

end Step

end BgqDriver.ShmFS
