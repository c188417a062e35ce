import Mathlib.Data.BitVec
import BgqDriver.EventRuns
import BgqDriver.RingPositions

/-!
The reception fifo of the message unit, `spi/include/mu/RecFifo.h` and
`spi/src/mu/RecFifo.c`. The hardware stores packets behind its tail, also across
the end of the buffer; the software polls, hands each packet to the receive
function its header names, and moves the hardware head.
-/

namespace BgqDriver.RecFifo

open EventRuns List Option Nat Function
open RingPositions

abbrev Byte := BitVec 8

/-- `(Byte8.Size + 1) << 5`; the size field is the low five bits of byte 8. -/
def packetBytes (byte8 : Byte) : Nat := ((byte8 &&& 0x1f#8).toNat + 1) <<< 5

/-- A packet as the network delivers it, header first, with a truthful size field. -/
structure Packet where
  bytes : List Byte
  length_eq : bytes.length = packetBytes (bytes.getD 8 0#8)
  length_le : bytes.length ≤ 544

/-- What `Kernel_RecFifoInit` sets once, with the conditions it asserts; `size` is
`size_1 + 1`. -/
structure Fifo where
  vaStart : Nat
  paStart : Nat
  size : Nat
  aligned : 32 ∣ vaStart
  dvd_size : 32 ∣ size
  min_size : 544 < size

def Fifo.vaEnd (fifo : Fifo) : Nat := fifo.vaStart + fifo.size

/-- The locals of a poll: the limit, the packets processed so far and the head.
`waiting` records how many packets stood in the fifo when the tail was read. -/
structure Call where
  npackets : Nat
  waiting : Nat
  numProcessed : Nat
  vaHead : Nat

/-- Where the software is: at a loop test of `MUSPI_RecFifoPoll`, after a receive
function returned there, or at the loop test of `MUSPI_RecFifoPollWrap`. -/
inductive Phase where
  | idle
  | loop (call : Call) (bytes bytesRecvd : Nat)
  | called (call : Call) (bytes bytesRecvd : Nat)
  | wrapLoop (call : Call) (hasWrapped : Bool)

/-- The shadow head, the hardware registers, the buffer, and what arrived, what was
handed to which receive function and which calls have returned. -/
structure State (Handler : Type*) where
  vaHead : Nat
  paHead : Nat
  paTail : Nat
  memory : Nat → Byte
  phase : Phase
  arrived : List Packet
  delivered : List (Handler × List Byte)
  returned : List Call

variable {Handler : Type*}

section Operations

variable (fifo : Fifo) (table : Byte → Handler) (s : State Handler)

def readBytes (memory : Nat → Byte) (va n : Nat) : List Byte :=
  (range n).map fun i => memory (va + i)

/-- `MUSPI_RecFifoPoll` up to its loop. -/
def recFifoPoll (npackets : Nat) : State Handler :=
  let vaTail := s.paTail - fifo.paStart + fifo.vaStart
  let call : Call := ⟨npackets, s.arrived.length - s.delivered.length, 0, s.vaHead⟩
  if s.vaHead = vaTail then { s with returned := s.returned ++ [call] }
  else if vaTail > s.vaHead then { s with phase := .loop call 0 (vaTail - s.vaHead) }
  else if s.vaHead ≥ fifo.vaEnd - 544 then { s with phase := .wrapLoop call false }
  else { s with phase := .loop call 0 (fifo.vaEnd - s.vaHead - 544) }

/-- The receive function registered under the first software byte of the header
(`Unused2[0]`, byte 18) gets `bytes`. -/
def deliver (call : Call) (bytes : List Byte) : State Handler :=
  { s with delivered := s.delivered ++ [(table (s.memory (call.vaHead + 18)), bytes)] }

/-- One iteration of the poll loop up to the return of the receive function, or
the end of the poll. -/
def loopStep (call : Call) (bytes bytesRecvd : Nat) : State Handler :=
  if bytes < bytesRecvd ∧ call.numProcessed < call.npackets then
    let n := packetBytes (s.memory (call.vaHead + 8))
    { deliver table s call (readBytes s.memory call.vaHead n) with
      phase := .called
        { call with numProcessed := call.numProcessed + 1, vaHead := call.vaHead + n }
        (bytes + n) bytesRecvd }
  else
    { s with vaHead := call.vaHead, phase := .idle, returned := s.returned ++ [call] }

/-- `MUSPI_setHwHead` at the end of an iteration. -/
def setHwHead (vaHead : Nat) : State Handler :=
  { s with paHead := fifo.paStart + (vaHead - fifo.vaStart) }

/-- One iteration of `MUSPI_RecFifoPollWrap`, or its end. A packet that reaches the
end of the buffer goes through `_wrapBuf`. -/
def wrapStep (call : Call) (hasWrapped : Bool) : State Handler :=
  if hasWrapped = false ∧ call.numProcessed < call.npackets then
    let n := packetBytes (s.memory (call.vaHead + 8))
    let call' := { call with numProcessed := call.numProcessed + 1 }
    if call.vaHead + n < fifo.vaEnd then
      { deliver table s call (readBytes s.memory call.vaHead n) with
        phase := .wrapLoop { call' with vaHead := call.vaHead + n } false }
    else
      let endBytes := fifo.vaEnd - call.vaHead
      let startBytes := n - endBytes
      let wrapBuf := readBytes s.memory call.vaHead endBytes ++
        readBytes s.memory fifo.vaStart startBytes
      { deliver table s call wrapBuf with
        phase := .wrapLoop { call' with vaHead := fifo.vaStart + startBytes } true }
  else
    { setHwHead fifo s call.vaHead with
      vaHead := call.vaHead
      phase := .idle
      returned := s.returned ++ [call] }

def used : Nat := (s.paTail + fifo.size - s.paHead) % fifo.size

def deposit (memory : Nat → Byte) : Nat → List Byte → Nat → Byte
  | _, [] => memory
  | offset, b :: rest =>
    update (deposit memory (offset + 1) rest) (fifo.vaStart + offset % fifo.size) b

def arrive (p : Packet) : State Handler :=
  let offset := s.paTail - fifo.paStart
  { s with
    memory := deposit fifo s.memory offset p.bytes
    paTail := fifo.paStart + (offset + p.bytes.length) % fifo.size
    arrived := s.arrived ++ [p] }

end Operations

inductive Event where
  | poll (npackets : Nat)
  | software
  | arrive (p : Packet)

/-- One step of the software or of the hardware. The hardware keeps at least one
chunk of the fifo unused, so its tail never reaches its head from behind. -/
def step (fifo : Fifo) (table : Byte → Handler) (s : State Handler) : Event → Option (State Handler)
  | .poll npackets =>
    match s.phase with
    | .idle => some (recFifoPoll fifo s npackets)
    | _ => none
  | .software =>
    match s.phase with
    | .idle => none
    | .loop call bytes bytesRecvd => some (loopStep table s call bytes bytesRecvd)
    | .called call bytes bytesRecvd =>
      some { setHwHead fifo s call.vaHead with phase := .loop call bytes bytesRecvd }
    | .wrapLoop call hasWrapped => some (wrapStep fifo table s call hasWrapped)
  | .arrive p =>
    if used fifo s + p.bytes.length < fifo.size then some (arrive fifo s p) else none

/-- `Kernel_RecFifoInit`; the buffer holds anything. -/
def initial (Handler : Type*) (fifo : Fifo) (memory : Nat → Byte) : State Handler where
  vaHead := fifo.vaStart
  paHead := fifo.paStart
  paTail := fifo.paStart
  memory := memory
  phase := .idle
  arrived := []
  delivered := []
  returned := []

def handed (table : Byte → Handler) (p : Packet) : Handler × List Byte :=
  (table (p.bytes.getD 18 0#8), p.bytes)

def offset (packets : List Packet) (k : Nat) : Nat :=
  ((packets.take k).map fun p => p.bytes.length).sum

def Phase.numProcessed : Phase → Nat
  | .idle => 0
  | .loop call _ _ => call.numProcessed
  | .called call _ _ => call.numProcessed
  | .wrapLoop call _ => call.numProcessed

def Phase.npackets : Phase → Nat
  | .idle => 0
  | .loop call _ _ => call.npackets
  | .called call _ _ => call.npackets
  | .wrapLoop call _ => call.npackets

/-- What the caller of a poll relies on: the order, the two heads, the limit and the count -/
structure Reliable (fifo : Fifo) (table : Byte → Handler) (s : State Handler) : Prop where
  in_order : s.delivered <+: s.arrived.map (handed table)
  head_in : fifo.vaStart ≤ s.vaHead ∧ s.vaHead < fifo.vaEnd ∧ 32 ∣ s.vaHead
  hwHead_le : ∃ released ≤ s.delivered.length,
    s.paHead = fifo.paStart + offset s.arrived released % fifo.size ∧
      offset s.arrived s.arrived.length < offset s.arrived released + fifo.size
  limit : s.phase.numProcessed ≤ s.phase.npackets ∧
    ∀ call ∈ s.returned, call.numProcessed ≤ call.npackets
  counted : s.delivered.length =
    (s.returned.map Call.numProcessed).sum + s.phase.numProcessed
  progress : ∀ call ∈ s.returned, 0 < call.npackets → 0 < call.waiting → 0 < call.numProcessed

variable {i k bytes bytesRecvd vaHead : Nat} {p : Packet} {call : Call} {l off : Nat}
  {memory : Nat → Byte}

section Packets

variable {packets : List Packet}

theorem Packet.dvd_length (p : Packet) : 32 ∣ p.bytes.length := by
  rw [p.length_eq, packetBytes, shiftLeft_eq]
  exact Nat.dvd_mul_left _ _

theorem Packet.header_le (p : Packet) : 32 ≤ p.bytes.length := by
  rw [p.length_eq, packetBytes, shiftLeft_eq]
  omega

theorem dvd_offset (packets : List Packet) (k : Nat) : 32 ∣ offset packets k := by
  apply dvd_sum
  intro n hn
  obtain ⟨p, -, rfl⟩ := mem_map.mp hn
  exact p.dvd_length

theorem offset_succ (hp : packets[k]? = some p) :
    offset packets (k + 1) = offset packets k + p.bytes.length := by
  rw [offset, take_add_one, hp]
  simp [offset]

theorem offset_mono (packets : List Packet) (hkl : k ≤ l) :
    offset packets k ≤ offset packets l := by
  induction l, hkl using le_induction with
  | base => exact le_rfl
  | succ l _ ih =>
    refine ih.trans ?_
    cases hp : packets[l]? with
    | none => simp [offset, take_add_one, hp]
    | some p =>
      rw [offset_succ hp]
      exact Nat.le_add_right _ _

theorem offset_lt_iff (packets : List Packet) (hl : l ≤ packets.length) :
    offset packets k < offset packets l ↔ k < l := by
  constructor
  · intro hlt
    by_contra hle
    have := offset_mono packets (Nat.le_of_not_lt hle)
    omega
  · intro hlt
    have hk : packets[k]? = some packets[k] := getElem?_eq_getElem (by omega)
    have hsucc := offset_succ hk
    have hhead := packets[k].header_le
    have := offset_mono packets (show k + 1 ≤ l from hlt)
    omega

theorem exists_of_offset_lt (packets : List Packet) (hl : l ≤ packets.length)
    (hlt : offset packets k < offset packets l) : k < l ∧ ∃ p, packets[k]? = some p := by
  have hkl := (offset_lt_iff packets hl).mp hlt
  exact ⟨hkl, _, getElem?_eq_getElem (by omega)⟩

theorem offset_concat (packets : List Packet) (p : Packet) :
    offset (packets ++ [p]) (packets ++ [p]).length =
      offset packets packets.length + p.bytes.length := by
  simp [offset]

def stream (packets : List Packet) : List Byte := packets.flatMap Packet.bytes

theorem length_stream (packets : List Packet) :
    (stream packets).length = offset packets packets.length := by
  simp [stream, offset, length_flatMap]

theorem stream_getElem? (hp : packets[k]? = some p) (hi : i < p.bytes.length) :
    (stream packets)[offset packets k + i]? = p.bytes[i]? := by
  induction packets generalizing k with
  | nil => cases hp
  | cons q packets ih =>
    cases k with
    | zero =>
      obtain rfl : q = p := by simpa using hp
      simp only [stream, flatMap_cons, offset, take_zero, map_nil, sum_nil, Nat.zero_add]
      exact getElem?_append_left hi
    | succ k =>
      have hrest := ih (k := k) (by simpa using hp)
      have hoff : offset (q :: packets) (k + 1) = q.bytes.length + offset packets k := by
        simp [offset]
      rw [hoff, stream, flatMap_cons, getElem?_append_right (by omega), ← hrest,
        stream]
      congr 1
      omega

end Packets

/-- The loop of a poll stops at the snapshot of the tail or, when the packets wrap,
544 bytes before the end of the buffer. Until then the next packet has arrived and
ends inside the buffer. -/
def Window (fifo : Fifo) (arrived : List Packet) (delivered vaHead bytes bytesRecvd : Nat) : Prop :=
  (∃ k, k ≤ arrived.length ∧ delivered ≤ k ∧
    offset arrived k + bytes = offset arrived delivered + bytesRecvd ∧
    vaHead + (offset arrived k - offset arrived delivered) < fifo.vaEnd) ∨
  (vaHead < fifo.vaEnd ∧ vaHead + bytesRecvd + 544 = fifo.vaEnd + bytes ∧
    offset arrived delivered + (fifo.vaEnd - vaHead) ≤ offset arrived arrived.length)

/-- The facts about the locals of a call. `released` packets are before the
hardware head. -/
def Phase.Located (fifo : Fifo) (arrived : List Packet) (delivered released : Nat) : Phase → Prop
  | .idle => released = delivered
  | .loop call bytes bytesRecvd =>
    call.vaHead = position fifo.vaStart fifo.size (offset arrived delivered) ∧
      released = delivered ∧ Window fifo arrived delivered call.vaHead bytes bytesRecvd ∧
      (call.numProcessed = 0 → bytes < bytesRecvd)
  | .called call bytes bytesRecvd =>
    call.vaHead = position fifo.vaStart fifo.size (offset arrived delivered) ∧
      released + 1 = delivered ∧ Window fifo arrived delivered call.vaHead bytes bytesRecvd ∧
      0 < call.numProcessed
  | .wrapLoop call hasWrapped =>
    call.vaHead = position fifo.vaStart fifo.size (offset arrived delivered) ∧
      released + call.numProcessed = delivered ∧
      (hasWrapped = true → 0 < call.numProcessed) ∧
      (hasWrapped = false →
        offset arrived delivered + (fifo.vaEnd - call.vaHead) ≤ offset arrived arrived.length)

/-- The ring invariant. Head and tail are counted in bytes of the stream; from the
hardware head to the tail the buffer holds the stream. -/
structure Ring (fifo : Fifo) (table : Byte → Handler) (s : State Handler) (released : Nat) :
    Prop where
  delivered_prefix : s.delivered <+: s.arrived.map (handed table)
  vaHead_eq : s.vaHead = position fifo.vaStart fifo.size
    (offset s.arrived (s.delivered.length - s.phase.numProcessed))
  paHead_eq : s.paHead = position fifo.paStart fifo.size (offset s.arrived released)
  paTail_eq : s.paTail = position fifo.paStart fifo.size (offset s.arrived s.arrived.length)
  released_le : released ≤ s.delivered.length
  room : offset s.arrived s.arrived.length < offset s.arrived released + fifo.size
  contents : ∀ j, offset s.arrived released ≤ j → j < offset s.arrived s.arrived.length →
    (stream s.arrived)[j]? = some (s.memory (position fifo.vaStart fifo.size j))
  limit : s.phase.numProcessed ≤ s.phase.npackets ∧
    ∀ call ∈ s.returned, call.numProcessed ≤ call.npackets
  counted : s.delivered.length =
    (s.returned.map Call.numProcessed).sum + s.phase.numProcessed
  progress : ∀ call ∈ s.returned, 0 < call.npackets → 0 < call.waiting → 0 < call.numProcessed
  located : s.phase.Located fifo s.arrived s.delivered.length released

section Invariant

variable {fifo : Fifo} {table : Byte → Handler} {s t : State Handler} {released : Nat}

theorem size_pos (fifo : Fifo) : 0 < fifo.size := by
  have := fifo.min_size
  omega

theorem ring_initial (fifo : Fifo) (table : Byte → Handler) (memory : Nat → Byte) :
    Ring fifo table (initial Handler fifo memory) 0 := by
  refine ⟨prefix_rfl, ?_, ?_, ?_, le_rfl, ?_, ?_, ?_, rfl, ?_, rfl⟩
  · simp [initial, offset, position]
  · simp [initial, offset, position]
  · simp [initial, offset, position]
  · simpa [initial, offset] using size_pos fifo
  · intro j _ hj
    simp [initial, offset] at hj
  · simp [initial, Phase.numProcessed]
  · simp [initial]

section

variable (hs : Ring fifo table s released)
include hs

theorem Ring.delivered_le : s.delivered.length ≤ s.arrived.length := by
  simpa using hs.delivered_prefix.length_le

theorem Ring.used_eq :
    used fifo s = offset s.arrived s.arrived.length - offset s.arrived released := by
  have hle := offset_mono s.arrived (hs.released_le.trans hs.delivered_le)
  rw [used, hs.paTail_eq, hs.paHead_eq, position_distance fifo.paStart (size_pos fifo) hle hs.room]

theorem Ring.read_byte (hp : s.arrived[s.delivered.length]? = some p) (hi : i < p.bytes.length) :
    p.bytes[i]? = some (s.memory (position fifo.vaStart fifo.size
      (offset s.arrived s.delivered.length + i))) := by
  have hlen : s.delivered.length < s.arrived.length := (List.getElem?_eq_some_iff.mp hp).1
  have hsucc := offset_succ hp
  have hnext := offset_mono s.arrived (show s.delivered.length + 1 ≤ s.arrived.length from hlen)
  have hle := offset_mono s.arrived hs.released_le
  rw [← stream_getElem? hp hi]
  exact hs.contents _ (by omega) (by omega)

omit hs in
theorem position_add_of_lt {base size m : Nat} (hsize : 0 < size) (hm : m ≤ size)
    (hlt : position base size k + m < base + size) :
    position base size (k + m) = position base size k + m := by
  rw [position_add base hsize hm, if_neg (by omega)]

theorem Ring.readBytes_eq {j n : Nat} (hp : s.arrived[s.delivered.length]? = some p)
    (hn : j + n ≤ p.bytes.length)
    (hva : vaHead = position fifo.vaStart fifo.size (offset s.arrived s.delivered.length + j))
    (hend : vaHead + n ≤ fifo.vaEnd) : readBytes s.memory vaHead n = (p.bytes.drop j).take n := by
  have hmax := p.length_le
  have hmin := fifo.min_size
  apply ext_getElem?
  intro i
  rcases Nat.lt_or_ge i n with hi | hi
  · have hbyte := hs.read_byte hp (show j + i < p.bytes.length by omega)
    rw [← Nat.add_assoc, position_add_of_lt (size_pos fifo) (by omega)
      (by unfold Fifo.vaEnd at hend; omega), ← hva] at hbyte
    rw [getElem?_take_of_lt hi, getElem?_drop, hbyte]
    simp [readBytes, hi]
  · rw [getElem?_eq_none (by simp [readBytes, hi]),
      getElem?_eq_none (by simp; omega)]

theorem Ring.read_header (hp : s.arrived[s.delivered.length]? = some p)
    (hva : vaHead = position fifo.vaStart fifo.size (offset s.arrived s.delivered.length)) :
    packetBytes (s.memory (vaHead + 8)) = p.bytes.length ∧
      s.memory (vaHead + 18) = p.bytes.getD 18 0#8 := by
  have hhead := p.header_le
  have hmin := fifo.min_size
  have hend := position_add_le fifo.vaStart (size_pos fifo)
    (dvd_offset s.arrived s.delivered.length) fifo.dvd_size
  have hbyte : ∀ i < 32, p.bytes.getD i 0#8 = s.memory (vaHead + i) := by
    intro i hi
    have := hs.read_byte hp (show i < p.bytes.length by omega)
    rw [position_add_of_lt (size_pos fifo) (by omega) (by omega), ← hva] at this
    rw [getD_eq_getElem?_getD, this, getD_some]
  refine ⟨?_, (hbyte 18 (by omega)).symm⟩
  rw [p.length_eq, hbyte 8 (by omega)]

end

section

variable (hs : Ring fifo table s released)
include hs

theorem Ring.poll (hidle : s.phase = .idle) (npackets : Nat) :
    Ring fifo table (recFifoPoll fifo s npackets) released := by
  have hhead := hs.vaHead_eq
  have hcounted := hs.counted
  have hlocated := hs.located
  simp only [hidle, Phase.numProcessed, Nat.sub_zero] at hhead hcounted
  obtain rfl : released = s.delivered.length := by simpa [hidle, Phase.Located] using hlocated
  have hle := offset_mono s.arrived hs.delivered_le
  have hroom := hs.room
  have htail : s.paTail - fifo.paStart + fifo.vaStart =
      position fifo.vaStart fifo.size (offset s.arrived s.arrived.length) := by
    rw [hs.paTail_eq, position_sub, position, Nat.add_comm]
  -- the tail seen from the head
  obtain ⟨m, hm⟩ := Nat.exists_eq_add_of_le hle
  have hadd := position_add (k := offset s.arrived s.delivered.length) fifo.vaStart
    (size_pos fifo) (show m ≤ fifo.size by omega)
  rw [← hm, ← hhead] at hadd
  have hlt := position_lt fifo.vaStart (offset s.arrived s.delivered.length) (size_pos fifo)
  rw [← hhead] at hlt
  unfold recFifoPoll
  simp only [htail]
  split
  next hempty =>
    have hzero : m = 0 := by
      split at hadd <;> omega
    have hnone : s.arrived.length - s.delivered.length = 0 := by
      have := (offset_lt_iff (k := s.delivered.length) s.arrived le_rfl).not.mp (by omega)
      omega
    refine { hs with limit := ?_, counted := ?_, progress := ?_ }
    · exact ⟨hs.limit.1, forall_mem_append.mpr ⟨hs.limit.2, by simp⟩⟩
    · simpa [hidle, Phase.numProcessed] using hcounted
    · exact forall_mem_append.mpr ⟨hs.progress, by simp [hnone]⟩
  next hne =>
    have hstart : ∀ phase : Phase, phase.numProcessed = 0 →
        phase.Located fifo s.arrived s.delivered.length s.delivered.length →
        Ring fifo table { s with phase := phase } s.delivered.length := by
      intro phase hzero hphase
      refine ⟨hs.delivered_prefix, ?_, hs.paHead_eq, hs.paTail_eq, le_rfl, hs.room, hs.contents,
        ⟨?_, hs.limit.2⟩, ?_, hs.progress, hphase⟩
      · simpa [hzero] using hhead
      · simp [hzero]
      · simpa [hzero] using hcounted
    split
    next hgt =>
      refine hstart _ rfl ⟨hhead, rfl, .inl ⟨s.arrived.length, le_rfl, hs.delivered_le, ?_, ?_⟩,
        fun _ => by omega⟩
      · split at hadd <;> omega
      · simp only [Fifo.vaEnd]
        split at hadd <;> omega
    · have hpast : offset s.arrived s.delivered.length + (fifo.vaEnd - s.vaHead) ≤
          offset s.arrived s.arrived.length := by
        unfold Fifo.vaEnd
        split at hadd <;> omega
      split
      · exact hstart _ rfl ⟨hhead, rfl, by simp, fun _ => hpast⟩
      next hfar =>
        unfold Fifo.vaEnd at hfar hpast ⊢
        refine hstart _ rfl ⟨hhead, rfl, .inr ⟨hlt, ?_, hpast⟩, fun _ => by omega⟩
        simp only [Fifo.vaEnd]
        omega

theorem Ring.finish
    (hphase : s.phase.numProcessed = call.numProcessed ∧ s.phase.npackets = call.npackets)
    (hva : call.vaHead = position fifo.vaStart fifo.size (offset s.arrived s.delivered.length))
    (hprogress : 0 < call.npackets → 0 < call.numProcessed) {paHead : Nat}
    (hpa : paHead = position fifo.paStart fifo.size
      (offset s.arrived s.delivered.length)) :
    Ring fifo table { s with
      paHead := paHead
      vaHead := call.vaHead
      phase := .idle
      returned := s.returned ++ [call] } s.delivered.length := by
  have hle := offset_mono s.arrived hs.released_le
  have hroom := hs.room
  refine ⟨hs.delivered_prefix, hva, hpa, hs.paTail_eq, le_rfl, ?_, ?_, ⟨le_rfl, ?_⟩, ?_, ?_, rfl⟩
  · simp only
    omega
  · exact fun j hj hj' => hs.contents j (hle.trans hj) hj'
  · refine forall_mem_append.mpr ⟨hs.limit.2, forall_mem_singleton.mpr ?_⟩
    have := hs.limit.1
    rwa [hphase.1, hphase.2] at this
  · have := hs.counted
    rw [hphase.1] at this
    simpa [Phase.numProcessed] using this
  · exact forall_mem_append.mpr
      ⟨hs.progress, forall_mem_singleton.mpr fun hlimit _ => hprogress hlimit⟩

theorem Ring.hand_over (hp : s.arrived[s.delivered.length]? = some p) {phase : Phase}
    (hnum : phase.numProcessed = s.phase.numProcessed + 1)
    (hlimit : phase.numProcessed ≤ phase.npackets)
    (hlocated : phase.Located fifo s.arrived (s.delivered.length + 1) released) :
    Ring fifo table { s with
      delivered := s.delivered ++ [handed table p], phase := phase } released := by
  have hcounted := hs.counted
  refine ⟨?_, ?_, hs.paHead_eq, hs.paTail_eq, ?_, hs.room, hs.contents, ⟨hlimit, hs.limit.2⟩, ?_,
    hs.progress, ?_⟩
  · obtain ⟨rest, hrest⟩ := hs.delivered_prefix
    have hget : (s.arrived.map (handed table))[s.delivered.length]? = some (handed table p) := by
      rw [getElem?_map, hp, map_some]
    rw [← hrest, getElem?_append_right le_rfl, Nat.sub_self] at hget
    cases rest with
    | nil => cases hget
    | cons d rest =>
      cases hget
      exact ⟨rest, by simp [← hrest]⟩
  · rw [hs.vaHead_eq]
    simp only [hnum, length_append, length_singleton, Nat.add_sub_add_right]
  · simpa using hs.released_le.trans (le_succ _)
  · simp only [length_append, length_singleton, hnum]
    omega
  · simpa using hlocated

omit hs in
theorem Window.next {arrived : List Packet} {delivered : Nat}
    (hw : Window fifo arrived delivered vaHead bytes bytesRecvd) (hlt : bytes < bytesRecvd) :
    ∃ p, arrived[delivered]? = some p ∧ vaHead + p.bytes.length < fifo.vaEnd ∧
      Window fifo arrived (delivered + 1) (vaHead + p.bytes.length)
        (bytes + p.bytes.length) bytesRecvd := by
  rcases hw with ⟨k, hk, hdk, hstop, hend⟩ | ⟨hin, hstop, hpast⟩
  · obtain ⟨hlt', p, hp⟩ := exists_of_offset_lt arrived (k := delivered) hk (by omega)
    have hsucc := offset_succ hp
    have hle := offset_mono arrived (show delivered + 1 ≤ k from hlt')
    exact ⟨_, hp, by omega, .inl ⟨k, hk, hlt', by omega, by omega⟩⟩
  · obtain ⟨-, p, hp⟩ := exists_of_offset_lt arrived (k := delivered) le_rfl (by omega)
    have hsucc := offset_succ hp
    have hmax := p.length_le
    exact ⟨_, hp, by omega, .inr ⟨by omega, by omega, by omega⟩⟩

theorem Ring.loopStep (hphase : s.phase = .loop call bytes bytesRecvd) :
    Ring fifo table (loopStep table s call bytes bytesRecvd) released := by
  have hlocated := hs.located
  have hmin := fifo.min_size
  rw [hphase] at hlocated
  obtain ⟨hva, rfl, hwindow, hfirst⟩ := hlocated
  unfold RecFifo.loopStep
  split
  next hcont =>
    obtain ⟨p, hp, hend, hnext⟩ := hwindow.next hcont.1
    have hmax := p.length_le
    obtain ⟨hsize, hid⟩ := hs.read_header hp hva
    have hread := hs.readBytes_eq hp (j := 0) (by omega) hva hend.le
    rw [drop_zero, take_length] at hread
    have hmoved : call.vaHead + p.bytes.length = position fifo.vaStart fifo.size
        (offset s.arrived (s.delivered.length + 1)) := by
      rw [offset_succ hp, position_add_of_lt (size_pos fifo) (by omega)
        (by unfold Fifo.vaEnd at hend; omega), ← hva]
    simp only [deliver, hsize, hid, hread]
    refine hs.hand_over hp ?_ ?_ ⟨hmoved, rfl, hnext, succ_pos _⟩
    · rw [hphase]
      rfl
    · exact hcont.2
  next hstop =>
    refine hs.finish ?_ hva ?_ hs.paHead_eq
    · rw [hphase]
      exact ⟨rfl, rfl⟩
    · intro hpos
      by_contra hzero
      exact hstop ⟨hfirst (by omega), by omega⟩

theorem Ring.called (hphase : s.phase = .called call bytes bytesRecvd) :
    Ring fifo table { setHwHead fifo s call.vaHead with phase := .loop call bytes bytesRecvd }
      s.delivered.length := by
  have hlocated := hs.located
  have hhead := hs.vaHead_eq
  have hlimit := hs.limit
  have hcounted := hs.counted
  rw [hphase] at hlocated hhead hlimit hcounted
  obtain ⟨hva, hreleased, hwindow, hpos⟩ := hlocated
  have hle := offset_mono s.arrived hs.released_le
  have hroom := hs.room
  refine ⟨hs.delivered_prefix, hhead, ?_, hs.paTail_eq, le_rfl, ?_, ?_, hlimit, hcounted,
    hs.progress, hva, rfl, hwindow, ?_⟩
  · rw [setHwHead, hva, position_sub]
    rfl
  · simp only [setHwHead]
    omega
  · exact fun j hj hj' => hs.contents j (hle.trans hj) hj'
  · intro hzero
    omega

theorem Ring.wrapStep {hasWrapped : Bool} (hphase : s.phase = .wrapLoop call hasWrapped) :
    ∃ released', Ring fifo table (wrapStep fifo table s call hasWrapped) released' := by
  have hlocated := hs.located
  have hmin := fifo.min_size
  rw [hphase] at hlocated
  obtain ⟨hva, hreleased, hwrapped, hpast⟩ := hlocated
  have hin : call.vaHead < fifo.vaEnd :=
    hva ▸ position_lt fifo.vaStart (offset s.arrived s.delivered.length) (size_pos fifo)
  have hvaEnd : fifo.vaEnd = fifo.vaStart + fifo.size := rfl
  unfold RecFifo.wrapStep
  split
  next hcont =>
    have hpast' := hpast hcont.1
    obtain ⟨-, p, hp⟩ := exists_of_offset_lt s.arrived (k := s.delivered.length) le_rfl
      (by omega)
    have hmax := p.length_le
    have hsucc := offset_succ hp
    have hadd := position_add (k := offset s.arrived s.delivered.length) fifo.vaStart
      (size_pos fifo) (show p.bytes.length ≤ fifo.size by omega)
    rw [← hsucc, ← hva] at hadd
    obtain ⟨hsize, hid⟩ := hs.read_header hp hva
    simp only [hsize]
    refine ⟨released, ?_⟩
    split
    next hend =>
      have hread := hs.readBytes_eq hp (j := 0) (by omega) hva hend.le
      rw [drop_zero, take_length] at hread
      simp only [deliver, hid, hread]
      refine hs.hand_over hp (by rw [hphase]; rfl) hcont.2 ⟨?_, ?_, by simp, fun _ => ?_⟩
      · rw [hadd, if_neg (by omega)]
      · simp only
        omega
      · simp only
        omega
    next hend =>
      -- the packet reaches the end of the buffer, possibly without crossing it
      have hfirst := hs.readBytes_eq hp (j := 0) (n := fifo.vaEnd - call.vaHead) (by omega) hva
        (by omega)
      have hstart := position_add (k := offset s.arrived s.delivered.length) fifo.vaStart
        (size_pos fifo) (show fifo.vaEnd - call.vaHead ≤ fifo.size by omega)
      rw [← hva, if_pos (by omega)] at hstart
      have hrest : readBytes s.memory fifo.vaStart
          (p.bytes.length - (fifo.vaEnd - call.vaHead)) = _ :=
        hs.readBytes_eq hp (j := fifo.vaEnd - call.vaHead) (by omega) (by rw [hstart]; omega)
          (by omega)
      rw [drop_zero] at hfirst
      rw [take_of_length_le (by simp)] at hrest
      simp only [deliver, hid, hfirst, hrest, take_append_drop]
      refine hs.hand_over hp (by rw [hphase]; rfl) hcont.2 ⟨?_, ?_, fun _ => succ_pos _,
        by simp⟩
      · rw [hadd, if_pos (by omega)]
        simp only
        omega
      · simp only
        omega
  next hstop =>
    refine ⟨_, hs.finish ?_ hva ?_ ?_⟩
    · rw [hphase]
      exact ⟨rfl, rfl⟩
    · intro hpos
      by_contra hzero
      have hfalse : hasWrapped = false := by
        cases hasWrapped with
        | false => rfl
        | true => exact absurd (hwrapped rfl) hzero
      exact hstop ⟨hfalse, by omega⟩
    · rw [setHwHead, hva, position_sub]
      rfl

end

theorem deposit_of_ne {bytes : List Byte} {va : Nat}
    (hva : ∀ i < bytes.length, va ≠ position fifo.vaStart fifo.size (off + i)) :
    deposit fifo memory off bytes va = memory va := by
  induction bytes generalizing off with
  | nil => rfl
  | cons b bytes ih =>
    have hhead : va ≠ fifo.vaStart + off % fifo.size := hva 0 (by simp)
    rw [deposit, update_of_ne hhead]
    apply ih
    intro i hi
    have := hva (i + 1) (by simpa using hi)
    rwa [show off + 1 + i = off + (i + 1) by omega]

theorem deposit_getElem? {bytes : List Byte} (hlen : bytes.length ≤ fifo.size)
    (hi : i < bytes.length) : bytes[i]? = some (deposit fifo memory off bytes
      (position fifo.vaStart fifo.size (off + i))) := by
  induction bytes generalizing off i with
  | nil => simp at hi
  | cons b bytes ih =>
    simp only [length_cons] at hlen hi
    cases i with
    | zero => simp [deposit, position]
    | succ i =>
      have hne : position fifo.vaStart fifo.size (off + (i + 1)) ≠
          fifo.vaStart + off % fifo.size := by
        intro heq
        have := eq_of_position_eq (h := off) (i := off + (i + 1)) (j := off) (by omega)
          (by omega) heq
        omega
      rw [deposit, update_of_ne hne, getElem?_cons_succ,
        show off + (i + 1) = off + 1 + i by omega]
      exact ih (by omega) (by omega)

section

variable (hs : Ring fifo table s released)
include hs

theorem Ring.arrive (hfits : used fifo s + p.bytes.length < fifo.size) :
    Ring fifo table (arrive fifo s p) released := by
  have hdelivered := hs.delivered_le
  have hreleased := hs.released_le.trans hdelivered
  rw [hs.used_eq] at hfits
  have hkeep : ∀ k ≤ s.arrived.length, offset (s.arrived ++ [p]) k = offset s.arrived k := by
    intro k hk
    rw [offset, take_append_of_le_length hk]
    rfl
  have hall := offset_concat s.arrived p
  have htail : s.paTail - fifo.paStart = offset s.arrived s.arrived.length % fifo.size := by
    rw [hs.paTail_eq, position_sub]
  have hwindow : ∀ va b r, Window fifo s.arrived s.delivered.length va b r →
      Window fifo (s.arrived ++ [p]) s.delivered.length va b r := by
    rintro va b r (⟨k, hk, hdk, hstop, hend⟩ | ⟨hin, hstop, hpast⟩)
    · refine .inl ⟨k, by simp; omega, hdk, ?_, ?_⟩
      all_goals rwa [hkeep k hk, hkeep _ hdelivered]
    · refine .inr ⟨hin, hstop, ?_⟩
      rw [hkeep _ hdelivered, hall]
      omega
  unfold RecFifo.arrive
  refine ⟨?_, ?_, ?_, ?_, hs.released_le, ?_, ?_, hs.limit, hs.counted, hs.progress, ?_⟩
  · simpa using hs.delivered_prefix.trans (prefix_append _ _)
  · simp only [hkeep _ ((sub_le _ _).trans hdelivered)]
    exact hs.vaHead_eq
  · simp only [hkeep _ hreleased]
    exact hs.paHead_eq
  · simp only [htail, hall, mod_add_mod]
    rfl
  · simp only [hall, hkeep _ hreleased]
    omega
  · intro j hj hj'
    simp only [hall, hkeep _ hreleased, htail] at hj hj' ⊢
    have hstream : stream (s.arrived ++ [p]) = stream s.arrived ++ p.bytes := by
      simp [stream]
    have hmodeq : ∀ i, position fifo.vaStart fifo.size
        (offset s.arrived s.arrived.length % fifo.size + i) =
        position fifo.vaStart fifo.size (offset s.arrived s.arrived.length + i) := by
      intro i
      rw [position, position, mod_add_mod]
    rcases Nat.lt_or_ge j (offset s.arrived s.arrived.length) with hold | hnew
    · rw [hstream, getElem?_append_left (by rwa [length_stream]), hs.contents j hj hold]
      rw [deposit_of_ne]
      intro i hi heq
      rw [hmodeq] at heq
      have := eq_of_position_eq (h := offset s.arrived released) (by omega) (by omega) heq
      omega
    · obtain ⟨i, rfl⟩ := Nat.exists_eq_add_of_le hnew
      rw [hstream, getElem?_append_right (by rw [length_stream]; omega), length_stream,
        Nat.add_sub_cancel_left, ← hmodeq]
      exact deposit_getElem? (by omega) (by omega)
  · have hlocated := hs.located
    generalize s.phase = phase at hlocated ⊢
    cases phase with
    | idle => exact hlocated
    | loop call bytes bytesRecvd =>
      obtain ⟨hva, hrel, hwin, hfirst⟩ := hlocated
      exact ⟨by rw [hkeep _ hdelivered]; exact hva, hrel, hwindow _ _ _ hwin, hfirst⟩
    | called call bytes bytesRecvd =>
      obtain ⟨hva, hrel, hwin, hpos⟩ := hlocated
      exact ⟨by rw [hkeep _ hdelivered]; exact hva, hrel, hwindow _ _ _ hwin, hpos⟩
    | wrapLoop call hasWrapped =>
      obtain ⟨hva, hrel, hwrapped, hpast⟩ := hlocated
      refine ⟨by rw [hkeep _ hdelivered]; exact hva, hrel, hwrapped, fun hfalse => ?_⟩
      have := hpast hfalse
      rw [hkeep _ hdelivered, hall]
      omega

theorem Ring.step {e : Event}
    (hstep : step fifo table s e = some t) : ∃ released', Ring fifo table t released' := by
  revert hstep
  fun_cases RecFifo.step fifo table s e <;> rintro ⟨⟩
  case case1 npackets hidle => exact ⟨released, hs.poll hidle npackets⟩
  case case4 hphase => exact ⟨released, hs.loopStep hphase⟩
  case case5 hphase => exact ⟨_, hs.called hphase⟩
  case case6 hphase => exact hs.wrapStep hphase
  case case7 hfits => exact ⟨released, hs.arrive hfits⟩

theorem Ring.reliable : Reliable fifo table s := by
  refine ⟨hs.delivered_prefix, ?_, ⟨released, hs.released_le, hs.paHead_eq, hs.room⟩, hs.limit,
    hs.counted, hs.progress⟩
  rw [hs.vaHead_eq]
  refine ⟨le_position, position_lt _ _ (size_pos fifo), ?_⟩
  exact Nat.dvd_add fifo.aligned ((dvd_mod_iff fifo.dvd_size).mpr (dvd_offset _ _))

end

end Invariant

/-- Over every interleaving of arriving packets with polls of any limit, each packet
is handed once, in order and with its own bytes to the receive function its header
names, and the hardware head stays behind what was handed over. -/
theorem recFifoPoll_reliable (fifo : Fifo) (table : Byte → Handler) (memory : Nat → Byte)
    (history : List Event) (s : State Handler)
    (hrun : run (step fifo table) (initial Handler fifo memory) history = some s) :
    Reliable fifo table s := by
  obtain ⟨released, hs⟩ := run_invariant (fun _ s => ∃ released, Ring fifo table s released)
    ⟨0, ring_initial fifo table memory⟩
    (fun _ _ _ _ _ ⟨_, hs⟩ hstep => hs.step hstep) hrun
  exact hs.reliable

def smallFifo : Fifo where
  vaStart := 0x1000
  paStart := 0x81000
  size := 576
  aligned := by decide
  dvd_size := by decide
  min_size := by decide

/-- A packet of `chunks + 1` chunks. -/
def samplePacket (chunks : Fin 17) : Packet where
  bytes := replicate 8 0#8 ++ [BitVec.ofNat 8 chunks] ++
    replicate (23 + 32 * chunks) 9#8
  length_eq := by
    revert chunks
    decide
  length_le := by
    simp
    omega

def smallHistory : List Event :=
  [.arrive (samplePacket 7), .arrive (samplePacket 7), .poll 5, .software, .software, .software,
    .software, .arrive (samplePacket 2), .software, .poll 1, .software, .software]

theorem recFifoPoll_reliable_wrapping_packet :
    ∃ s, run (step smallFifo id) (initial Byte smallFifo fun _ => 0#8) smallHistory = some s ∧
      s.delivered.length = 3 ∧ s.vaHead = 0x1020 ∧ Reliable smallFifo id s := by
  refine exists_of_map_run (fun s => (s.delivered.length, s.vaHead)) (3, 0x1020)
    (by decide +kernel) fun s hrun hs => ?_
  obtain ⟨hdelivered, hhead⟩ := Prod.mk.inj hs
  exact ⟨hdelivered, hhead, recFifoPoll_reliable _ _ _ _ _ hrun⟩

end BgqDriver.RecFifo
