import Mathlib.Algebra.GroupWithZero.Nat
import BgqDriver.DoublyLinked

/-!
The memory map allocator of the compute node kernel (`mmap.c`, `syscalls/mmap.cc`).

The manager of a process divides one region of addresses into chunks, free or busy,
on a list in address order; a free chunk has bit 0 of its address set. The chunk
descriptors not on that list are in a pool. Each public routine holds the lock of the
manager from its first to its last access and is a single step. The searches carry
fuel, and a search that never meets the null pointer is `none`.
-/

namespace BgqDriver.Mmap

open Function
open LinkedChains DoublyLinked

abbrev Addr := BitVec 64

def mmapMaxAllocs : Nat := 1096

instance : NeZero mmapMaxAllocs := ⟨by decide⟩

abbrev ChunkId := Fin mmapMaxAllocs

/-- More than the chunks that a search meets. A free can meet a chunk twice. -/
def walkFuel : Nat := 3 * mmapMaxAllocs

def pageMask : Addr := 0xFFF#64

def mmapRoundUp (a : Addr) : Addr := (a + pageMask) &&& ~~~pageMask

def mmapRoundDn (a : Addr) : Addr := a &&& ~~~pageMask

def mmapChunkAddrFree : Addr := 0x00000001#64

structure Chunks where
  chunksLeft : BitVec 64
  freeChunkAnchor : Option ChunkId
  next : ChunkId → Option ChunkId
  byAddr : Links ChunkId
  addr : ChunkId → Addr
  size : ChunkId → BitVec 64

namespace Chunks

variable (k : Chunks)

def isFree (ch : ChunkId) : Bool := k.addr ch &&& mmapChunkAddrFree != 0#64

def cbase (ch : ChunkId) : Addr := k.addr ch &&& ~~~mmapChunkAddrFree

def climit (ch : ChunkId) : Addr := k.cbase ch + k.size ch - 1#64

def setAddr (ch : ChunkId) (a : Addr) : Chunks := { k with addr := update k.addr ch a }

def setSize (ch : ChunkId) (n : BitVec 64) : Chunks := { k with size := update k.size ch n }

def enQByAddrAfter (n o : ChunkId) : Chunks := { k with byAddr := k.byAddr.insertAfter n o }

def enQByAddrBefore (n o : ChunkId) : Chunks := { k with byAddr := k.byAddr.insertBefore n o }

def deQByAddr (c : ChunkId) : Chunks := { k with byAddr := k.byAddr.remove c }

def pushFreeChunk (pch : ChunkId) : Chunks :=
  { k with
    next := update k.next pch k.freeChunkAnchor
    freeChunkAnchor := some pch
    chunksLeft := k.chunksLeft + 1#64 }

def popFreeChunk : Option (ChunkId × Chunks) :=
  match k.freeChunkAnchor with
  | none => none
  | some pch => some (pch,
      { k with
        freeChunkAnchor := k.next pch
        next := update k.next pch none
        chunksLeft := k.chunksLeft - 1#64 })

def absorb (ch behind : ChunkId) : Chunks :=
  let k := k.setSize ch (k.size ch + k.size behind)
  let k := (k.setAddr behind 0#64).setSize behind 0#64
  (k.deQByAddr behind).pushFreeChunk behind

/-- The first half of `combineNeighbors`, with the chunk that goes on to the second. -/
def combinePrev (ch : ChunkId) : Chunks × ChunkId :=
  match k.byAddr.prev ch with
  | none => (k, ch)
  | some p => if k.isFree ch = k.isFree p then (k.absorb p ch, p) else (k, ch)

/-- The second half. The state to compare with is the one read at the start. -/
def combineNext (ch : ChunkId) (chFree : Bool) : Chunks :=
  match k.byAddr.next ch with
  | none => k
  | some n => if chFree = k.isFree n then k.absorb ch n else k

def combineNeighbors (ch : ChunkId) : Chunks × ChunkId :=
  let r := k.combinePrev ch
  (r.1.combineNext r.2 (k.isFree ch), r.2)

def freeFront (chunk : ChunkId) (addr : Addr) : Option Chunks :=
  k.popFreeChunk.map fun (t, k) =>
    let k := k.setAddr t (k.addr chunk)
    let k := k.setSize t (addr - k.addr chunk)
    let k := k.setAddr chunk (k.addr chunk + k.size t)
    let k := k.setSize chunk (k.size chunk - k.size t)
    k.enQByAddrBefore t chunk

def freeEnd (chunk : ChunkId) (rbytes : BitVec 64) : Option Chunks :=
  k.popFreeChunk.map fun (t, k) =>
    let k := k.setAddr t (k.addr chunk + rbytes)
    let k := k.setSize t (k.size chunk - rbytes)
    let k := k.setSize chunk (k.size chunk - k.size t)
    k.enQByAddrAfter t chunk

def fixedFront (ch : ChunkId) (addr : Addr) : Option Chunks :=
  k.popFreeChunk.map fun (prevch, k) =>
    let k := k.setAddr prevch (k.addr ch)
    let k := k.setSize prevch (addr - k.cbase prevch)
    let k := k.setAddr ch addr
    let k := k.setSize ch (k.size ch - k.size prevch)
    k.enQByAddrBefore prevch ch

/-- Cut the chunk down to the allocation, the rest to a free `newChunk`, or give
`newChunk` back, and clear the free flag. -/
def carve (ch newChunk : ChunkId) (rbytes : BitVec 64) : Chunks :=
  let k :=
    if rbytes < k.size ch then
      let k := k.setAddr newChunk (k.addr ch + rbytes)
      let k := k.setSize newChunk (k.size ch - rbytes)
      let k := k.setSize ch rbytes
      let k := k.setAddr newChunk (k.addr newChunk ||| mmapChunkAddrFree)
      k.enQByAddrAfter newChunk ch
    else k.pushFreeChunk newChunk
  k.setAddr ch (k.cbase ch)

def isRoomy (rbytes : BitVec 64) (ch : ChunkId) : Bool :=
  k.isFree ch && decide (rbytes ≤ k.size ch)

def isRange (base limit : Addr) (ch : ChunkId) : Bool :=
  k.cbase ch == base && k.climit ch == limit

def hasRange (base limit : Addr) (ch : ChunkId) : Bool :=
  decide (k.cbase ch ≤ base) && decide (limit ≤ k.climit ch)

def search (has : ChunkId → Bool) : Option (Option ChunkId) :=
  firstFrom k.byAddr.next has walkFuel k.byAddr.anchor

def attempt (r : Option Chunks) : Chunks × Bool :=
  match r with
  | none => (k, true)
  | some k => (k, false)

/-- The carving of `freeMemory`, with its `freeError`. -/
def freeCarve (chunk : ChunkId) (rbytes : BitVec 64) (addr : Addr) : Chunks × Bool :=
  if rbytes < k.size chunk then
    let front := if k.addr chunk < addr then k.attempt (k.freeFront chunk addr) else (k, false)
    let k := front.1
    let back :=
      if addr + rbytes < k.addr chunk + k.size chunk then k.attempt (k.freeEnd chunk rbytes)
      else (k, false)
    (back.1, front.2 || back.2)
  else (k, false)

end Chunks

structure MmapMgr where
  memStart : Addr
  memSize : BitVec 64
  memAvail : BitVec 64
  memBusy : BitVec 64
  highMark : Addr
  highMarkMax : Addr
  lowUnmap : Addr
  highUnmap : Addr
  chunks : Chunks

structure Guard where
  enable : Bool
  start : Addr
  size : BitVec 64
  stack : Addr

def Guard.conflicts (g : Guard) (addr : Addr) (rbytes : BitVec 64) : Bool :=
  g.enable && decide (g.start + g.size < g.stack) && decide (g.stack < addr + rbytes + g.size)

structure DynSegment where
  vaddrStart : Addr
  vsize : BitVec 64
  vsize2 : BitVec 64

namespace MmapMgr

variable (m : MmapMgr)

def freeMemory (chunk : ChunkId) (len : BitVec 64) (addr : Addr) : MmapMgr × ChunkId :=
  let rbytes := mmapRoundUp len
  let carved := m.chunks.freeCarve chunk rbytes addr
  let m :=
    if carved.2 then { m with chunks := carved.1 }
    else
      { m with
        chunks := carved.1.setAddr chunk (carved.1.addr chunk ||| mmapChunkAddrFree)
        lowUnmap := if addr < m.lowUnmap then addr else m.lowUnmap
        highUnmap := if m.highUnmap < addr + rbytes then addr + rbytes else m.highUnmap }
  let combined := m.chunks.combineNeighbors chunk
  ({ m with chunks := combined.1 }, combined.2)

/-- Take the front of a free chunk; the result is the address of the allocation. -/
def allocate (ch newChunk : ChunkId) (rbytes : BitVec 64) : MmapMgr × Addr :=
  let k := m.chunks.carve ch newChunk rbytes
  ({ m with
      memAvail := m.memAvail - k.size ch
      memBusy := m.memBusy + k.size ch
      chunks := (k.combineNeighbors ch).1 }, k.addr ch)

/-- Nothing has been allocated: return the unused chunk. -/
def refuse (newChunk : ChunkId) : MmapMgr × Addr :=
  ({ m with chunks := m.chunks.pushFreeChunk newChunk }, 0#64)

/-- `MMapMgr_Malloc` -/
def mgrMalloc (g : Guard) (rbytes : BitVec 64) (newChunk : ChunkId) : Option (MmapMgr × Addr) :=
  (m.chunks.search (m.chunks.isRoomy rbytes)).map fun
    | none => m.refuse newChunk
    | some ch =>
      if g.conflicts (m.chunks.addr ch) rbytes then m.refuse newChunk
      else m.allocate ch newChunk rbytes

def claim (ch newChunk : ChunkId) : MmapMgr :=
  let k := (m.chunks.setAddr ch (m.chunks.cbase ch)).pushFreeChunk newChunk
  { m with chunks := (k.combineNeighbors ch).1 }

/-- A fixed allocation inside a chunk. Without a descriptor for the memory in front
of it `newChunk` is not returned to the pool. -/
def mallocInside (ch newChunk : ChunkId) (rbytes : BitVec 64) (addr : Addr) : MmapMgr × Addr :=
  if m.chunks.isFree ch then
    match if m.chunks.cbase ch < addr then m.chunks.fixedFront ch addr else some m.chunks with
    | none => (m, 0#64)
    | some k => ((MmapMgr.allocate { m with chunks := k } ch newChunk rbytes).1, addr)
  else ({ m with chunks := m.chunks.pushFreeChunk newChunk }, addr)

/-- `MMapMgr_Malloc_Addr` -/
def mgrMallocAddr (rbytes : BitVec 64) (newChunk : ChunkId) (addr : Addr) :
    Option (MmapMgr × Addr) :=
  let rlimit := addr + rbytes - 1#64
  (m.chunks.search (m.chunks.isRange addr rlimit)).bind fun
    | some ch => some (m.claim ch newChunk, addr)
    | none =>
      (m.chunks.search (m.chunks.hasRange addr rlimit)).map fun
        | none => m.refuse newChunk
        | some ch => m.mallocInside ch newChunk rbytes addr

def noteHighMark (mem : Addr) (rbytes : BitVec 64) : MmapMgr :=
  if mem ≠ 0#64 ∧ m.highMark < mem + rbytes then
    { m with
      highMark := mem + rbytes
      highMarkMax := if m.highMarkMax < mem + rbytes then mem + rbytes else m.highMarkMax }
  else m

/-- Run an allocation with a chunk from the pool; without one it fails. -/
def withFreeChunk (rbytes : BitVec 64)
    (alloc : MmapMgr → ChunkId → Option (MmapMgr × Addr)) : Option (MmapMgr × Addr) :=
  match m.chunks.popFreeChunk with
  | none => some (m, 0#64)
  | some (newChunk, k) =>
    (alloc { m with chunks := k } newChunk).map fun (m, mem) => (m.noteHighMark mem rbytes, mem)

/-- `MMap_Malloc` -/
def malloc (g : Guard) (bytes : BitVec 64) : Option (MmapMgr × Addr) :=
  let rbytes := mmapRoundUp bytes
  if 0#64 < bytes ∧ rbytes ≤ m.memAvail then
    m.withFreeChunk rbytes fun m newChunk => m.mgrMalloc g rbytes newChunk
  else some (m, 0#64)

def inRegion (bytes : BitVec 64) (addr : Addr) : Bool :=
  decide (m.memStart ≤ addr) && decide (addr + bytes < m.memStart + m.memSize)

/-- `MMap_Malloc_Addr` -/
def mallocAddr (seg : DynSegment) (bytes : BitVec 64) (addr : Addr) : Option (MmapMgr × Addr) :=
  let rbytes := mmapRoundUp bytes
  if m.inRegion bytes addr then
    m.withFreeChunk rbytes fun m newChunk => m.mgrMallocAddr rbytes newChunk addr
  else if seg.vaddrStart ≤ addr ∧ addr + bytes < seg.vaddrStart + seg.vsize + seg.vsize2 then
    some (m, addr)
  else some (m, 0#64)

def raise (ch : ChunkId) (mark : Addr) : Addr :=
  let localHighMark := m.chunks.addr ch + m.chunks.size ch
  if mark < localHighMark then localHighMark else mark

def freeHit (rbase : Addr) (rbytes : BitVec 64) (ch : ChunkId) (mark : Addr) :
    MmapMgr × ChunkId × Addr :=
  let r := MmapMgr.freeMemory
    { m with memAvail := m.memAvail + rbytes, memBusy := m.memBusy - rbytes } ch rbytes rbase
  (r.1, r.2,
    match r.1.chunks.byAddr.prev r.2 with
    | none => mark
    | some pch => r.1.raise pch mark)

/-- The loop of `MMap_Free`, with the high mark that it collects. -/
def freeLoop (rbase rlimit : Addr) (rbytes : BitVec 64) :
    Nat → MmapMgr → Option ChunkId → Addr → Option (MmapMgr × Addr)
  | 0, _, _, _ => none
  | _ + 1, m, none, mark => some (m, mark)
  | n + 1, m, some ch, mark =>
    let r :=
      if m.chunks.hasRange rbase rlimit ch then m.freeHit rbase rbytes ch mark
      else (m, ch, mark)
    let mark := if r.1.chunks.isFree r.2.1 then r.2.2 else r.1.raise r.2.1 r.2.2
    freeLoop rbase rlimit rbytes n r.1 (r.1.chunks.byAddr.next r.2.1) mark

/-- `MMap_Free` -/
def free (addr : Addr) (len : BitVec 64) : Option MmapMgr :=
  (freeLoop addr (addr + len - 1#64) (mmapRoundUp len) walkFuel m m.chunks.byAddr.anchor
    m.memStart).map fun (m, mark) => { m with highMark := mark }

/-- A manager before `MMap_Init`, all of it zero. -/
def zero : MmapMgr where
  memStart := 0#64
  memSize := 0#64
  memAvail := 0#64
  memBusy := 0#64
  highMark := 0#64
  highMarkMax := 0#64
  lowUnmap := 0#64
  highUnmap := 0#64
  chunks :=
    { chunksLeft := 0#64
      freeChunkAnchor := none
      next := fun _ => none
      byAddr := ⟨none, fun _ => none, fun _ => none⟩
      addr := fun _ => 0#64
      size := fun _ => 0#64 }

def initRegion (pch : ChunkId) (k : Chunks) : MmapMgr :=
  let k := (k.setAddr pch m.memStart).setSize pch m.memSize
  let k := { k with byAddr := { k.byAddr with anchor := some pch } }
  let m := (MmapMgr.freeMemory { m with chunks := k } pch (k.size pch) (k.addr pch)).1
  { m with lowUnmap := m.memStart + m.memSize, highUnmap := m.memStart }

/-- `MMap_Init` -/
def init (start : Addr) (bytes : BitVec 64) : MmapMgr :=
  if bytes = 0#64 then zero
  else
    let memSize := mmapRoundDn bytes
    let chunks := (List.finRange mmapMaxAllocs).foldl Chunks.pushFreeChunk zero.chunks
    let m := { zero with
      memStart := mmapRoundUp start, memSize := memSize, memAvail := memSize, chunks := chunks }
    match chunks.popFreeChunk with
    | none => m
    | some (pch, k) => m.initRegion pch k

end MmapMgr

inductive Call where
  | malloc (g : Guard) (bytes : BitVec 64)
  | mallocAddr (bytes : BitVec 64) (addr : Addr)
  | free (addr : Addr) (len : BitVec 64)

def MmapMgr.call (seg : DynSegment) (m : MmapMgr) : Call → Option (MmapMgr × Addr)
  | .malloc g bytes => m.malloc g bytes
  | .mallocAddr bytes addr => m.mallocAddr seg bytes addr
  | .free addr len => (m.free addr len).map fun m => (m, 0#64)

def MmapMgr.step (seg : DynSegment) (m : MmapMgr) (c : Call) : Option MmapMgr :=
  (m.call seg c).map Prod.fst

inductive Errno where
  | EINVAL
  | ENOMEM
  deriving DecidableEq

structure MapFlags where
  executable : Bool
  growsDown : Bool
  shared : Bool
  fixed : Bool

/-- `sc_mmap` up to its allocator call. A shared mapping is made by the file system. -/
def scMmap (g : Guard) (addr : Addr) (len : BitVec 64) (flags : MapFlags) (ofs : BitVec 64) :
    Except Errno (Option Call) :=
  if addr &&& pageMask ≠ 0#64 ∨ ofs &&& pageMask ≠ 0#64 then .error .EINVAL
  else if flags.executable || flags.growsDown then .error .ENOMEM
  else if len = 0#64 then .error .EINVAL
  else if flags.shared then .ok none
  else if flags.fixed then .ok (some (.mallocAddr len addr))
  else .ok (some (.malloc g len))

def scMunmap (start : Addr) (len : BitVec 64) : Except Errno Call :=
  if start &&& pageMask ≠ 0#64 then .error .EINVAL else .ok (.free start len)

/-- The first call of `sc_mremap`, and the one that follows when it has returned memory. -/
def scMremap (g : Guard) (addr : Addr) (oldLen newLen : BitVec 64) :
    Except Errno (Call × Option Call) :=
  if addr &&& pageMask ≠ 0#64 then .error .EINVAL
  else if newLen < oldLen then .ok (.free (addr + newLen) (oldLen - newLen), none)
  else .ok (.malloc g newLen, some (.free addr oldLen))

def LetThrough (c : Call) : Prop :=
  (∃ g addr len flags ofs, scMmap g addr len flags ofs = .ok (some c)) ∨
    (∃ start len, scMunmap start len = .ok c) ∨
    ∃ g addr oldLen newLen first second, scMremap g addr oldLen newLen = .ok (first, second) ∧
      (c = first ∨ second = some c)

/-- The region that `sc_mmap` sets up: whole megabytes, not at address zero. -/
structure Region where
  start : Nat
  size : Nat
  pos_start : 0 < start
  pos_size : 0 < size
  dvd_start : 2 ^ 20 ∣ start
  dvd_size : 2 ^ 20 ∣ size
  lt : start + size < 2 ^ 64

namespace Region

variable (r : Region)

def limit : Nat := r.start + r.size

def init : MmapMgr := MmapMgr.init (BitVec.ofNat 64 r.start) (BitVec.ofNat 64 r.size)

end Region

end BgqDriver.Mmap
