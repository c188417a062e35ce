import Mathlib.Data.BitVec
import BgqDriver.EventRuns
import BgqDriver.RingPositions

/-!
The injection fifo of the message unit, `spi/include/mu/InjFifo.h`. Software
copies 64-byte descriptors into a ring, clears the slot after them and moves the
tail; the hardware reads the slots from the head to the tail, at any time.
-/

namespace BgqDriver.InjFifo

open EventRuns List Option BitVec Function Nat
open RingPositions

/-- `MUHWI_Descriptor_t`, `BGQ_MU_DESCRIPTOR_SIZE_IN_BYTES` bytes. -/
abbrev Desc := BitVec 512

/-- What `Kernel_InjFifoInit` sets once, with the conditions it asserts; `size` is
`size_1 + 1`. -/
structure Fifo where
  vaStart : Nat
  paStart : Nat
  size : Nat
  aligned : 64 ∣ vaStart
  dvd_size : 64 ∣ size
  min_size : 2 * 64 ≤ size
  size_le : size ≤ 2 ^ 64

def Fifo.vaEnd (fifo : Fifo) : Nat := fifo.vaStart + fifo.size

def Fifo.slots (fifo : Fifo) : Nat := fifo.size / 64

/-- Where the software is between two stores the hardware could see apart. In
`held` the caller owns the slots a next-descriptor call returned and has put
`contents` there; in `filling` a call has counted its descriptors, has the local
`tail_va`, and still copies `todo` after `batch`; in `publishing` the slot at
`tail_va` is cleared and only the tail moves are left. -/
inductive Phase where
  | idle
  | held (descs : List Nat) (contents : List Desc)
  | filling (tailVa : Nat) (batch todo : List Desc)
  | publishing (tailVa : Nat) (batch : List Desc)

open Phase

/-- The shadow `MUSPI_InjFifo_t`, the hardware registers, the slots, and what was
injected and processed so far. `result` is what the last call returned. -/
structure State where
  vaTail : Nat
  freeSpace : BitVec 64
  numInjected : BitVec 64
  paHead : Nat
  paTail : Nat
  memory : Nat → Desc
  phase : Phase
  result : BitVec 64
  injected : List Desc
  processed : List Desc

section Operations

variable (fifo : Fifo) (s : State)

def used : Nat := (s.paTail + fifo.size - s.paHead) % fifo.size / 64

/-- `MUSPI_getHwFreeSpace`: the hardware keeps one slot unused. -/
def getHwFreeSpace : BitVec 64 := BitVec.ofNat 64 (fifo.slots - 1 - used fifo s)

def nextSlot (va : Nat) : Nat :=
  if va + 64 ≥ fifo.vaEnd then fifo.vaStart else va + 64

/-- The pointers the loops over the next `n` descriptors visit. -/
def nextSlots : Nat → Nat → List Nat
  | 0, _ => []
  | n + 1, va => va :: nextSlots n (nextSlot fifo va)

/-- The free space check: `full` is `freeSpace == 0` in the calls for one
descriptor and `freeSpace < N` in the others. -/
def checkFreeSpace (full : BitVec 64 → Bool) : State :=
  if full s.freeSpace then { s with freeSpace := getHwFreeSpace fifo s } else s

def reserve (full : BitVec 64 → Bool) (N : BitVec 32) : State :=
  let s := checkFreeSpace fifo s full
  if full s.freeSpace then { s with result := -1#64 }
  else
    let descs := nextSlots fifo N.toNat s.vaTail
    { s with
      phase := .held descs (descs.map s.memory)
      result := s.numInjected + N.setWidth 64 }

/-- `MUSPI_InjFifoNextDesc`. -/
def nextDesc : State := reserve fifo s (· == 0#64) 1#32

/-- `MUSPI_InjFifoNextDescMultiple`. -/
def nextDescMultiple (N : BitVec 32) : State :=
  reserve fifo s (fun free => free < N.setWidth 64) N

/-- `MUSPI_InjFifoNextDescMultipleNoCheck`. -/
def nextDescMultipleNoCheck (N : BitVec 32) : State := reserve fifo s (fun _ => false) N

/-- `MUSPI_InjFifoAdvanceDesc` up to the clearing of the next slot. -/
def advanceDesc (contents : List Desc) : State :=
  { s with
    freeSpace := s.freeSpace - 1#64
    numInjected := s.numInjected + 1#64
    phase := .filling (nextSlot fifo s.vaTail) (contents.take 1) [] }

/-- `MUSPI_InjFifoAdvanceDescMultiple` up to the clearing of the next slot. The
byte count is a 32-bit shift. -/
def advanceDescMultiple (N : BitVec 32) (contents : List Desc) : State :=
  let tailVa := s.vaTail + (N <<< 6).toNat
  { s with
    freeSpace := s.freeSpace - N.setWidth 64
    numInjected := s.numInjected + N.setWidth 64
    phase := .filling
      (if tailVa ≥ fifo.vaEnd then fifo.vaStart + (tailVa - fifo.vaEnd) else tailVa)
      (contents.take N.toNat) [] }

def beginInject (full : BitVec 64 → Bool) (descs : List Desc) : State :=
  let s := checkFreeSpace fifo s full
  if full s.freeSpace then { s with result := -1#64 }
  else
    { s with
      freeSpace := s.freeSpace - BitVec.ofNat 64 descs.length
      numInjected := s.numInjected + BitVec.ofNat 64 descs.length
      phase := .filling s.vaTail [] descs }

/-- `MUSPI_InjFifoInject` up to its copy. -/
def inject (desc : Desc) : State := beginInject fifo s (· == 0#64) [desc]

/-- `MUSPI_InjFifoInjectMultiple` up to its loop; the caller passes `ndesc`
descriptors. -/
def injectMultiple (descs : List Desc) : State :=
  beginInject fifo s (fun free => free < BitVec.ofNat 64 descs.length) descs

/-- `MUSPI_setTailVa` and `MUSPI_setHwTail` at the end of a call, which then
returns `numInjected`. -/
def publish (tailVa : Nat) (batch : List Desc) : State :=
  { s with
    vaTail := tailVa
    paTail := fifo.paStart + (tailVa - fifo.vaStart)
    phase := .idle
    result := s.numInjected
    injected := s.injected ++ batch }

def headVa : Nat := fifo.vaStart + (s.paHead - fifo.paStart)

def process : State :=
  { s with
    paHead := fifo.paStart + (nextSlot fifo (headVa fifo s) - fifo.vaStart)
    processed := s.processed ++ [s.memory (headVa fifo s)] }

end Operations

/-- What can happen next. Between two calls of the software, `write i d` is the
caller storing `d` to the `i`-th slot it was given. -/
inductive Event where
  | nextDesc
  | nextDescMultiple (N : BitVec 32)
  | nextDescMultipleNoCheck (N : BitVec 32)
  | write (i : Nat) (desc : Desc)
  | advanceDesc
  | advanceDescMultiple (N : BitVec 32)
  | inject (desc : Desc)
  | injectMultiple (descs : List Desc)
  | copy
  | clear
  | publish
  | hardware

/-- No call is in progress. -/
def Phase.ready : Phase → Bool
  | .idle => true
  | .held _ _ => true
  | _ => false

/-- One step of the software or of the hardware. The software is one thread: a
call starts when the one before has returned, only slots from a next-descriptor
call are advanced over, and the call without a check is made when the shadow is
known to have the space. -/
def step (fifo : Fifo) (s : State) (e : Event) : Option State :=
  match e with
  | .nextDesc => if s.phase.ready then some (nextDesc fifo s) else none
  | .nextDescMultiple N => if s.phase.ready then some (nextDescMultiple fifo s N) else none
  | .nextDescMultipleNoCheck N =>
    if s.phase.ready ∧ N.setWidth 64 ≤ s.freeSpace then
      some (nextDescMultipleNoCheck fifo s N) else none
  | .write i desc =>
    match s.phase with
    | .held descs contents =>
      match descs[i]? with
      | some va => some { s with
          memory := update s.memory va desc
          phase := .held descs (contents.set i desc) }
      | none => none
    | _ => none
  | .advanceDesc =>
    match s.phase with
    | .held descs contents =>
      if 1 ≤ descs.length then some (advanceDesc fifo s contents) else none
    | _ => none
  | .advanceDescMultiple N =>
    match s.phase with
    | .held descs contents =>
      if N.toNat ≤ descs.length then some (advanceDescMultiple fifo s N contents) else none
    | _ => none
  | .inject desc => if s.phase.ready then some (inject fifo s desc) else none
  | .injectMultiple descs =>
    if s.phase.ready ∧ descs.length < 2 ^ 32 then some (injectMultiple fifo s descs) else none
  | .copy =>
    match s.phase with
    | .filling tailVa batch (desc :: todo) => some { s with
        memory := update s.memory tailVa desc
        phase := .filling (nextSlot fifo tailVa) (batch ++ [desc]) todo }
    | _ => none
  | .clear =>
    match s.phase with
    | .filling tailVa batch [] => some { s with
        memory := update s.memory tailVa 0#512
        phase := .publishing tailVa batch }
    | _ => none
  | .publish =>
    match s.phase with
    | .publishing tailVa batch => some (publish fifo s tailVa batch)
    | _ => none
  | .hardware => if s.paHead = s.paTail then none else some (process fifo s)

/-- `Kernel_InjFifoInit` on a fifo that has injected `numInjected` descriptors
before; the memory holds anything. -/
def initial (fifo : Fifo) (numInjected : BitVec 64) (memory : Nat → Desc) : State where
  vaTail := fifo.vaStart
  freeSpace := BitVec.ofNat 64 (fifo.slots - 1)
  numInjected := numInjected
  paHead := fifo.paStart
  paTail := fifo.paStart
  memory := memory
  phase := .idle
  result := 0#64
  injected := []
  processed := []

def storeTarget (s : State) : Event → Option Nat
  | .write i _ =>
    match s.phase with
    | .held descs _ => descs[i]?
    | _ => none
  | .copy =>
    match s.phase with
    | .filling tailVa _ (_ :: _) => some tailVa
    | _ => none
  | .clear =>
    match s.phase with
    | .filling tailVa _ [] => some tailVa
    | _ => none
  | _ => none

def waitingSlots (fifo : Fifo) (s : State) : List Nat :=
  nextSlots fifo (used fifo s) (headVa fifo s)

/-- What both sides rely on: the order, no overwriting, the shadow and the returned numbers -/
structure Reliable (fifo : Fifo) (first : BitVec 64) (s : State) : Prop where
  in_order : s.processed ++ (waitingSlots fifo s).map s.memory = s.injected
  no_overwrite : ∀ e t, step fifo s e = some t → ∀ va ∈ waitingSlots fifo s,
    storeTarget s e ≠ some va ∧ t.memory va = s.memory va
  freeSpace_le : s.freeSpace.toNat ≤ fifo.slots - 1 - used fifo s
  number : ∀ t, step fifo s .publish = some t →
    t.result = first + BitVec.ofNat 64 t.injected.length
  next_number : ∀ t, step fifo s .nextDesc = some t →
    t.result = -1#64 ∨ t.result = first + BitVec.ofNat 64 (s.injected.length + 1)
  next_number_multiple : ∀ N t, step fifo s (.nextDescMultiple N) = some t →
    t.result = -1#64 ∨ t.result = first + BitVec.ofNat 64 (s.injected.length + N.toNat)

variable {i k : Nat} {n : BitVec 64} {phase : Phase}

section Slots

variable (fifo : Fifo)

def slot (k : Nat) : Nat := position fifo.vaStart fifo.size (64 * k)

theorem size_eq : fifo.size = 64 * fifo.slots := (Nat.mul_div_cancel' fifo.dvd_size).symm

theorem size_pos : 0 < fifo.size := by
  have := fifo.min_size
  omega

theorem slots_lt : fifo.slots < 2 ^ 64 := by
  have := fifo.size_le
  have := size_eq fifo
  omega

theorem eq_of_slot_eq {h j : Nat} (hi : h ≤ i ∧ i < h + fifo.slots)
    (hj : h ≤ j ∧ j < h + fifo.slots) (heq : slot fifo i = slot fifo j) : i = j := by
  have hsize := size_eq fifo
  have := eq_of_position_eq (h := 64 * h) (by omega) (by omega) heq
  omega

theorem nextSlot_slot (k : Nat) : nextSlot fifo (slot fifo k) = slot fifo (k + 1) :=
  (position_step fifo.vaStart (size_pos fifo) (Nat.dvd_mul_right 64 k) fifo.dvd_size).symm

theorem nextSlots_slot (n k : Nat) :
    nextSlots fifo n (slot fifo k) = (List.range' k n).map (slot fifo) := by
  induction n generalizing k with
  | zero => rfl
  | succ n ih => rw [nextSlots, nextSlot_slot, ih, range'_succ, map_cons]

theorem slot_add {N : Nat} (k : Nat) (hN : N ≤ fifo.slots) :
    (if slot fifo k + 64 * N ≥ fifo.vaEnd then fifo.vaStart + (slot fifo k + 64 * N - fifo.vaEnd)
      else slot fifo k + 64 * N) = slot fifo (k + N) := by
  have hsize := size_eq fifo
  unfold slot Fifo.vaEnd
  rw [Nat.mul_add, position_add fifo.vaStart (size_pos fifo) (by omega)]
  split
  · omega
  · rfl

end Slots

/-- Descriptors a call has counted and not yet published. -/
def Phase.inflight : Phase → Nat
  | .filling _ batch todo => batch.length + todo.length
  | .publishing _ batch => batch.length
  | _ => 0

def Phase.staged : Phase → List Desc
  | .idle => []
  | .held _ contents => contents
  | .filling _ batch _ => batch
  | .publishing _ batch => batch

def Phase.Located (fifo : Fifo) (tail free : Nat) : Phase → Prop
  | .idle => True
  | .held descs contents =>
    descs = (List.range' tail contents.length).map (slot fifo) ∧ contents.length ≤ free
  | .filling tailVa batch _ => tailVa = slot fifo (tail + batch.length)
  | .publishing tailVa batch => tailVa = slot fifo (tail + batch.length)

/-- The ring invariant. Head and tail are counted in descriptors over the whole
run; the slots from the head on hold the injected descriptors, then the staged
ones, and the space the software still counts on is free. -/
structure Ring (fifo : Fifo) (first : BitVec 64) (s : State) : Prop where
  processed_prefix : s.processed <+: s.injected
  vaTail_eq : s.vaTail = slot fifo s.injected.length
  paTail_eq : s.paTail = position fifo.paStart fifo.size (64 * s.injected.length)
  paHead_eq : s.paHead = position fifo.paStart fifo.size (64 * s.processed.length)
  space : s.injected.length + s.phase.inflight + s.freeSpace.toNat <
    s.processed.length + fifo.slots
  contents : ∀ i, s.processed.length ≤ i → i < s.injected.length + s.phase.staged.length →
    (s.injected ++ s.phase.staged)[i]? = some (s.memory (slot fifo i))
  numInjected_eq : s.numInjected =
    first + BitVec.ofNat 64 (s.injected.length + s.phase.inflight)
  located : s.phase.Located fifo s.injected.length s.freeSpace.toNat

variable {N : BitVec 32} {batch contents todo : List Desc} {descs : List Nat} {e : Event}
  {full : BitVec 64 → Bool} {tailVa va : Nat}

section Invariant

variable {fifo : Fifo} {first : BitVec 64} {s t : State}

section

variable (hs : Ring fifo first s)
include hs

theorem Ring.used_eq : used fifo s = s.injected.length - s.processed.length := by
  have hle := hs.processed_prefix.length_le
  have hspace := hs.space
  have hsize := size_eq fifo
  rw [used, hs.paTail_eq, hs.paHead_eq,
    position_distance fifo.paStart (size_pos fifo) (by omega) (by omega)]
  omega

theorem Ring.headVa_eq : headVa fifo s = slot fifo s.processed.length := by
  rw [headVa, hs.paHead_eq, position_sub]
  rfl

theorem Ring.waitingSlots_eq : waitingSlots fifo s = (List.range' s.processed.length
      (s.injected.length - s.processed.length)).map (slot fifo) := by
  rw [waitingSlots, hs.used_eq, hs.headVa_eq, nextSlots_slot]

theorem Ring.toNat_getHwFreeSpace : (getHwFreeSpace fifo s).toNat =
      fifo.slots - 1 - (s.injected.length - s.processed.length) := by
  have := slots_lt fifo
  rw [getHwFreeSpace, hs.used_eq, toNat_ofNat, mod_eq_of_lt (by omega)]

/-- A call that copies its descriptors stores behind all that the hardware may still read. -/
theorem Ring.filling (hphase : s.phase = .filling tailVa batch todo) (desc : Desc) :
    tailVa = slot fifo (s.injected.length + batch.length) ∧
      s.injected.length + (batch.length + todo.length) + s.freeSpace.toNat <
        s.processed.length + fifo.slots ∧
      ∀ i, s.processed.length ≤ i → i < s.injected.length + batch.length →
        (s.injected ++ batch)[i]? = some (update s.memory tailVa desc (slot fifo i)) := by
  have hlocated := hs.located
  have hspace := hs.space
  have hcontents := hs.contents
  rw [hphase] at hlocated hspace hcontents
  obtain rfl : tailVa = slot fifo (s.injected.length + batch.length) := hlocated
  simp only [inflight] at hspace
  refine ⟨rfl, hspace, ?_⟩
  intro i hi hi'
  have hne : slot fifo i ≠ slot fifo (s.injected.length + batch.length) := by
    intro heq
    have := eq_of_slot_eq fifo (h := s.processed.length) (by omega) (by omega) heq
    omega
  rw [update_of_ne hne]
  exact hcontents i hi hi'

end

theorem inflight_of_ready (hready : phase.ready = true) : phase.inflight = 0 := by
  cases phase with
  | idle | held => rfl
  | filling | publishing => cases hready

theorem ring_initial (fifo : Fifo) (first : BitVec 64) (memory : Nat → Desc) :
    Ring fifo first (initial fifo first memory) := by
  have hslots := slots_lt fifo
  have hmin := fifo.min_size
  have hsize := size_eq fifo
  refine ⟨prefix_rfl, rfl, rfl, rfl, ?_, ?_, ?_, trivial⟩
  · simp only [initial, inflight, toNat_ofNat, length_nil]
    omega
  · intro i _ hi
    simp [initial, staged] at hi
  · simp [initial, inflight]

theorem Ring.freeSpace_le (hs : Ring fifo first s) :
    s.freeSpace.toNat ≤ (getHwFreeSpace fifo s).toNat := by
  have := hs.toNat_getHwFreeSpace
  have := hs.space
  have := hs.processed_prefix.length_le
  omega

theorem Ring.refresh (hs : Ring fifo first s) (hready : s.phase.ready = true) :
    Ring fifo first { s with freeSpace := getHwFreeSpace fifo s } := by
  have hle := hs.freeSpace_le
  have hfree := hs.toNat_getHwFreeSpace
  have hspace := hs.space
  refine ⟨hs.processed_prefix, hs.vaTail_eq, hs.paTail_eq, hs.paHead_eq, ?_, hs.contents,
    hs.numInjected_eq, ?_⟩
  · simp only [inflight_of_ready hready, hfree]
    omega
  · have hlocated := hs.located
    revert hready hlocated
    cases hphase : s.phase with
    | idle => simp [Phase.Located]
    | held descs contents =>
      rintro - ⟨hdescs, hcontents⟩
      exact ⟨hdescs, hcontents.trans hle⟩
    | filling | publishing => simp [ready]

theorem Ring.checkFreeSpace (hs : Ring fifo first s) (hready : s.phase.ready = true)
    (full : BitVec 64 → Bool) : ∃ free, checkFreeSpace fifo s full = { s with freeSpace := free } ∧
      s.freeSpace.toNat ≤ free.toNat ∧ Ring fifo first { s with freeSpace := free } := by
  unfold InjFifo.checkFreeSpace
  split
  · exact ⟨_, rfl, hs.freeSpace_le, hs.refresh hready⟩
  · exact ⟨_, rfl, le_rfl, hs⟩

section

variable (fifo : Fifo) (s : State) (full : BitVec 64 → Bool)

theorem checkFreeSpace_memory : (checkFreeSpace fifo s full).memory = s.memory := by
  unfold checkFreeSpace
  split <;> rfl

theorem reserve_memory (N : BitVec 32) : (reserve fifo s full N).memory = s.memory := by
  rw [← checkFreeSpace_memory fifo s full]
  unfold reserve
  simp only
  split <;> rfl

theorem beginInject_memory
    (descs : List Desc) : (beginInject fifo s full descs).memory = s.memory := by
  rw [← checkFreeSpace_memory fifo s full]
  unfold beginInject
  simp only
  split <;> rfl

end

theorem Ring.with_result (hs : Ring fifo first s) (result : BitVec 64) :
    Ring fifo first { s with result := result } :=
  ⟨hs.processed_prefix, hs.vaTail_eq, hs.paTail_eq, hs.paHead_eq, hs.space, hs.contents,
    hs.numInjected_eq, hs.located⟩

/-- The free space check `full` lets `n` descriptors through only into free slots. -/
def Guards (full : BitVec 64 → Bool) (n : Nat) (s : State) : Prop :=
  ∀ free : BitVec 64, s.freeSpace.toNat ≤ free.toNat → full free = false → n ≤ free.toNat

section

variable (hs : Ring fifo first s)
include hs

section

variable (hready : s.phase.ready = true)
include hready

theorem Ring.reserve (hfull : Guards full N.toNat s) : Ring fifo first (reserve fifo s full N) := by
  obtain ⟨free, hfree, hmore, hcheck⟩ := hs.checkFreeSpace hready full
  simp only [InjFifo.reserve, hfree]
  split
  · exact hcheck.with_result _
  next hroom =>
    have hN := hfull _ hmore (by simpa using hroom)
    have hinflight : s.phase.inflight = 0 := inflight_of_ready hready
    have hspace := hcheck.space
    simp only [hinflight] at hspace
    refine ⟨hs.processed_prefix, hs.vaTail_eq, hs.paTail_eq, hs.paHead_eq,
      hspace, ?_, ?_, ?_⟩
    · intro i hi hi'
      simp only [staged, hs.vaTail_eq, nextSlots_slot, length_map, length_range'] at hi' ⊢
      rcases Nat.lt_or_ge i s.injected.length with hlt | hge
      · rw [getElem?_append_left hlt]
        have := hs.contents i hi (by omega)
        rwa [getElem?_append_left hlt] at this
      · rw [getElem?_append_right hge]
        simp only [getElem?_map, getElem?_range' (show i - s.injected.length < N.toNat by omega),
          map_some]
        congr 3
        omega
    · rw [hs.numInjected_eq, hinflight]
      rfl
    · simp only [Phase.Located, hs.vaTail_eq, nextSlots_slot, length_map,
        length_range', true_and]
      exact hN

theorem Ring.take_space (hn : n.toNat ≤ s.freeSpace.toNat) (hinflight : phase.inflight = n.toNat)
    (hstaged : phase.staged <+: s.phase.staged)
    (hlocated : phase.Located fifo s.injected.length (s.freeSpace - n).toNat) :
    Ring fifo first { s with
      freeSpace := s.freeSpace - n
      numInjected := s.numInjected + n
      phase := phase } := by
  have hspace := hs.space
  have hsub := toNat_sub_of_le (le_def.mpr hn)
  refine ⟨hs.processed_prefix, hs.vaTail_eq, hs.paTail_eq, hs.paHead_eq, ?_, ?_, ?_, hlocated⟩
  · simp only [hinflight, hsub]
    omega
  · intro i hi hi'
    obtain ⟨rest, hrest⟩ := hstaged
    have hmore := hs.contents i hi
    rw [← hrest, ← List.append_assoc, length_append] at hmore
    rw [← hmore (by simp only at hi'; omega)]
    exact (getElem?_append_left (by simpa using hi')).symm
  · simp only [hs.numInjected_eq, inflight_of_ready hready, hinflight, Nat.add_zero,
      ofNat_add, ofNat_toNat, setWidth_eq, BitVec.add_assoc]

theorem Ring.beginInject
    {descs : List Desc} (hlen : descs.length < 2 ^ 32) (hfull : Guards full descs.length s) :
    Ring fifo first (beginInject fifo s full descs) := by
  obtain ⟨free, hfree, hmore, hcheck⟩ := hs.checkFreeSpace hready full
  simp only [InjFifo.beginInject, hfree]
  split
  · exact hcheck.with_result _
  next hroom =>
    have hfits := hfull _ hmore (by simpa using hroom)
    have hn : (BitVec.ofNat 64 descs.length).toNat = descs.length := by
      rw [toNat_ofNat, mod_eq_of_lt (by omega)]
    refine hcheck.take_space hready (by simp only; omega) ?_ nil_prefix ?_
    · simp [inflight, hn]
    · simpa [Phase.Located] using hcheck.vaTail_eq

end

section

variable (hphase : s.phase = .held descs contents)
include hphase

theorem Ring.advanceDesc
    (hone : 1 ≤ descs.length) : Ring fifo first (advanceDesc fifo s contents) := by
  have hlocated := hs.located
  rw [hphase] at hlocated
  obtain ⟨rfl, hfree⟩ := hlocated
  simp only [length_map, length_range'] at hone
  have htake : (contents.take 1).length = 1 := by simp; omega
  refine hs.take_space (by rw [hphase]; rfl) ?_ ?_ ?_ ?_
  · simp only [toNat_ofNat]
    omega
  · simp [inflight, htake]
  · rw [hphase]
    exact take_prefix 1 contents
  · rw [Phase.Located, htake, hs.vaTail_eq, nextSlot_slot]

theorem Ring.advanceDescMultiple (hN : N.toNat ≤ descs.length) (hfits : N.toNat < 2 ^ 26) :
    Ring fifo first (advanceDescMultiple fifo s N contents) := by
  have hlocated := hs.located
  have hspace := hs.space
  have hlen := hs.processed_prefix.length_le
  rw [hphase] at hlocated
  obtain ⟨rfl, hfree⟩ := hlocated
  simp only [length_map, length_range'] at hN
  have htake : (contents.take N.toNat).length = N.toNat := by simp; omega
  have hwidth : (N.setWidth 64).toNat = N.toNat := by
    rw [toNat_setWidth, mod_eq_of_lt (by omega)]
  have hshift : (N <<< 6).toNat = 64 * N.toNat := by
    rw [toNat_shiftLeft, Nat.shiftLeft_eq, mod_eq_of_lt (by omega)]
    omega
  refine hs.take_space (by rw [hphase]; rfl) ?_ ?_ ?_ ?_
  · omega
  · simp [inflight, htake, hwidth]
  · rw [hphase]
    exact take_prefix _ contents
  · rw [Phase.Located, htake, hs.vaTail_eq, hshift]
    exact slot_add fifo _ (by omega)

theorem Ring.write (hva : descs[i]? = some va) (desc : Desc) : Ring fifo first { s with
      memory := update s.memory va desc
      phase := .held descs (contents.set i desc) } := by
  have hlocated := hs.located
  have hspace := hs.space
  have hlen := hs.processed_prefix.length_le
  have hcontents := hs.contents
  rw [hphase] at hlocated hspace hcontents
  obtain ⟨rfl, hfree⟩ := hlocated
  obtain ⟨hi, rfl⟩ : i < contents.length ∧ slot fifo (s.injected.length + i) = va := by
    obtain ⟨hi, hget⟩ := List.getElem?_eq_some_iff.mp hva
    simp only [length_map, length_range'] at hi
    exact ⟨hi, by simpa using hget⟩
  refine ⟨hs.processed_prefix, hs.vaTail_eq, hs.paTail_eq, hs.paHead_eq, hspace, ?_, ?_, ?_⟩
  · intro j (hj : s.processed.length ≤ j) hj'
    simp only [staged, length_set] at hj'
    rcases eq_or_ne j (s.injected.length + i) with rfl | hne
    · simp [staged, hi]
    · have hslot : slot fifo j ≠ slot fifo (s.injected.length + i) := fun heq =>
        hne (eq_of_slot_eq fifo (h := s.processed.length) (by omega) (by omega) heq)
      simp only [update_of_ne hslot, ← hcontents j hj hj', staged]
      rcases Nat.lt_or_ge j s.injected.length with hlt | hge
      · rw [getElem?_append_left hlt, getElem?_append_left hlt]
      · rw [getElem?_append_right hge, getElem?_append_right hge,
          getElem?_set_ne (by omega)]
  · simpa [hphase, inflight] using hs.numInjected_eq
  · simpa [Phase.Located] using hfree

end

theorem Ring.copy {desc : Desc} (hphase : s.phase = .filling tailVa batch (desc :: todo)) :
    Ring fifo first { s with
      memory := update s.memory tailVa desc
      phase := .filling (nextSlot fifo tailVa) (batch ++ [desc]) todo } := by
  obtain ⟨rfl, hspace, hkept⟩ := hs.filling hphase desc
  rw [length_cons] at hspace
  refine ⟨hs.processed_prefix, hs.vaTail_eq, hs.paTail_eq, hs.paHead_eq, ?_, ?_, ?_, ?_⟩
  · simp only [inflight, length_append, length_singleton]
    omega
  · intro i (hi : s.processed.length ≤ i) hi'
    simp only [staged, length_append, length_singleton] at hi'
    simp only [staged, ← List.append_assoc]
    rcases Nat.lt_or_ge i (s.injected.length + batch.length) with hlt | hge
    · rw [getElem?_append_left (by simpa using hlt)]
      exact hkept i hi hlt
    · obtain rfl : i = s.injected.length + batch.length := by omega
      simp
  · simpa [hphase, inflight, Nat.add_assoc, Nat.add_comm 1] using hs.numInjected_eq
  · simp only [Phase.Located, nextSlot_slot, length_append, length_singleton, Nat.add_assoc]

theorem Ring.clear (hphase : s.phase = .filling tailVa batch []) : Ring fifo first { s with
      memory := update s.memory tailVa 0#512
      phase := .publishing tailVa batch } := by
  obtain ⟨rfl, hspace, hkept⟩ := hs.filling hphase 0#512
  refine ⟨hs.processed_prefix, hs.vaTail_eq, hs.paTail_eq, hs.paHead_eq, hspace, hkept, ?_, rfl⟩
  simpa [hphase, inflight] using hs.numInjected_eq

theorem Ring.publish (hphase : s.phase = .publishing tailVa batch) :
    Ring fifo first (publish fifo s tailVa batch) := by
  have hlocated := hs.located
  have hspace := hs.space
  have hcontents := hs.contents
  have hnumber := hs.numInjected_eq
  rw [hphase] at hlocated hspace hcontents hnumber
  obtain rfl : tailVa = slot fifo (s.injected.length + batch.length) := hlocated
  have hlen : (s.injected ++ batch).length = s.injected.length + batch.length :=
    length_append
  refine ⟨hs.processed_prefix.trans (prefix_append _ _), ?_, ?_, hs.paHead_eq, ?_, ?_, ?_,
    trivial⟩
  · simp only [InjFifo.publish, hlen]
  · simp only [InjFifo.publish, hlen, slot, position_sub]
    rfl
  · simpa [InjFifo.publish, inflight] using hspace
  · simpa [InjFifo.publish, staged] using hcontents
  · simpa [InjFifo.publish, inflight] using hnumber

theorem Ring.process (hne : s.paHead ≠ s.paTail) : Ring fifo first (process fifo s) := by
  have hle := hs.processed_prefix.length_le
  have hspace := hs.space
  have hlt : s.processed.length < s.injected.length := by
    rcases Nat.lt_or_eq_of_le hle with hlt | heq
    · exact hlt
    · rw [hs.paHead_eq, hs.paTail_eq, heq] at hne
      exact absurd rfl hne
  have hread := hs.contents s.processed.length le_rfl (by omega)
  rw [getElem?_append_left hlt, ← hs.headVa_eq] at hread
  refine ⟨?_, hs.vaTail_eq, hs.paTail_eq, ?_, ?_, ?_, hs.numInjected_eq, hs.located⟩
  · obtain ⟨rest, hrest⟩ := hs.processed_prefix
    rw [← hrest, getElem?_append_right le_rfl, Nat.sub_self] at hread
    obtain ⟨tl, rfl⟩ : ∃ tl, rest = s.memory (headVa fifo s) :: tl := by
      cases rest with
      | nil => cases hread
      | cons d tl => exact ⟨tl, by rw [some.inj hread]⟩
    exact ⟨tl, by simp [InjFifo.process, ← hrest]⟩
  · simp only [InjFifo.process, hs.headVa_eq, nextSlot_slot, length_append, length_singleton]
    rw [slot, position_sub]
    rfl
  · simp only [InjFifo.process, length_append, length_singleton]
    omega
  · intro i hi hi'
    exact hs.contents i (by simp [InjFifo.process] at hi; omega) hi'

end

theorem guards_zero (s : State) : Guards (· == 0#64) 1 s := by
  intro free _ hfull
  have hne : free ≠ 0#64 := by simpa using hfull
  have : free.toNat ≠ 0 := fun h => hne (eq_of_toNat_eq h)
  omega

theorem guards_lt (hk : n.toNat = k) (s : State) : Guards (fun free => free < n) k s := by
  intro free _ hfull
  have hle : ¬ free < n := by simpa using hfull
  rw [lt_def] at hle
  omega

theorem toNat_setWidth_64 (N : BitVec 32) : (N.setWidth 64).toNat = N.toNat := by
  have := N.isLt
  rw [toNat_setWidth, mod_eq_of_lt (by omega)]

def Event.Fits : Event → Prop
  | .advanceDescMultiple N => N.toNat < 2 ^ 26
  | _ => True

theorem Ring.step (hs : Ring fifo first s) (hfits : e.Fits) (hstep : step fifo s e = some t) :
    Ring fifo first t := by
  revert hstep
  fun_cases InjFifo.step fifo s e <;> rintro ⟨⟩
  case case1 hready => exact hs.reserve hready (guards_zero s)
  case case3 N hready => exact hs.reserve hready (guards_lt (toNat_setWidth_64 N) s)
  case case5 hready =>
    refine hs.reserve hready.1 fun free hfree _ => ?_
    have hroom := hready.2
    rw [le_def, toNat_setWidth_64] at hroom
    omega
  case case7 hphase _ hva => exact hs.write hphase hva _
  case case10 hphase hone => exact hs.advanceDesc hphase hone
  case case13 hphase hN => exact hs.advanceDescMultiple hphase hN hfits
  case case16 hready => exact hs.beginInject hready (by simp) (guards_zero s)
  case case18 hready =>
    refine hs.beginInject hready.1 hready.2 (guards_lt ?_ s)
    rw [toNat_ofNat, mod_eq_of_lt (by omega)]
  case case20 hphase => exact hs.copy hphase
  case case22 hphase => exact hs.clear hphase
  case case24 hphase => exact hs.publish hphase
  case case27 hne => exact hs.process hne

theorem ring_of_run {memory : Nat → Desc} {history : List Event}
    (hrun : run (InjFifo.step fifo) (initial fifo first memory) history = some s)
    (hfits : ∀ e ∈ history, e.Fits) : Ring fifo first s := by
  refine run_invariant (fun es s => (∀ e ∈ es, e.Fits) → Ring fifo first s) ?_ ?_ hrun hfits
  · exact fun _ => ring_initial fifo first memory
  · intro es s e t _ hs hstep hall
    simp only [mem_append, mem_singleton] at hall
    exact (hs fun e he => hall e (.inl he)).step (hall e (.inr rfl)) hstep

theorem step_memory (hstep : step fifo s e = some t) (hva : storeTarget s e ≠ some va) :
    t.memory va = s.memory va := by
  revert hstep
  fun_cases InjFifo.step fifo s e <;> rintro ⟨⟩
  case case1 | case3 | case5 => exact congrFun (reserve_memory fifo s _ _) va
  case case16 | case18 => exact congrFun (beginInject_memory fifo s _ _) va
  case case7 hphase _ htarget =>
    simp only [storeTarget, hphase, htarget, ne_eq, some.injEq] at hva
    exact update_of_ne (Ne.symm hva) _ _
  case case20 hphase | case22 hphase =>
    simp only [storeTarget, hphase, ne_eq, some.injEq] at hva
    exact update_of_ne (Ne.symm hva) _ _
  all_goals rfl

section

variable (hs : Ring fifo first s)
include hs

theorem Ring.storeTarget_eq (hva : storeTarget s e = some va) :
    ∃ k, va = slot fifo k ∧ s.injected.length ≤ k ∧ k < s.processed.length + fifo.slots := by
  have hlocated := hs.located
  have hspace := hs.space
  revert hva
  fun_cases storeTarget s e <;> intro hva
  case case1 i _ _ _ hphase =>
    rw [hphase] at hlocated
    obtain ⟨rfl, hfree⟩ := hlocated
    obtain ⟨hi, rfl⟩ := List.getElem?_eq_some_iff.mp hva
    simp only [length_map, length_range'] at hi
    exact ⟨s.injected.length + i, by simp, by omega, by omega⟩
  case case3 hphase | case5 hphase =>
    cases hva
    rw [hphase] at hlocated hspace
    simp only [inflight, length_cons, length_nil] at hspace
    exact ⟨_, hlocated, by omega, by omega⟩
  all_goals cases hva

theorem Ring.storeTarget_ne (e : Event) (hva : va ∈ waitingSlots fifo s) :
    storeTarget s e ≠ some va := by
  intro htarget
  obtain ⟨k, rfl, hk, hk'⟩ := hs.storeTarget_eq htarget
  rw [hs.waitingSlots_eq] at hva
  obtain ⟨i, hi, heq⟩ := List.mem_map.mp hva
  rw [mem_range'_1] at hi
  have := eq_of_slot_eq fifo (h := s.processed.length) (by omega) (by omega) heq
  omega

theorem Ring.in_order : s.processed ++ (waitingSlots fifo s).map s.memory = s.injected := by
  obtain ⟨rest, hrest⟩ := hs.processed_prefix
  have hlen : s.injected.length - s.processed.length = rest.length := by
    rw [← hrest, length_append, Nat.add_sub_cancel_left]
  rw [hs.waitingSlots_eq, hlen]
  refine Eq.trans ?_ hrest
  congr 1
  apply ext_getElem?
  intro i
  rcases Nat.lt_or_ge i rest.length with hlt | hge
  · have hread := hs.contents (s.processed.length + i) (by omega) (by omega)
    rw [getElem?_append_left (by omega), ← hrest, getElem?_append_right (by omega),
      Nat.add_sub_cancel_left] at hread
    simp [hread, getElem?_range' hlt]
  · simp [hge]

theorem Ring.reserve_result (hready : s.phase.ready = true)
    (full : BitVec 64 → Bool) (N : BitVec 32) : (InjFifo.reserve fifo s full N).result = -1#64 ∨
      (InjFifo.reserve fifo s full N).result =
        first + BitVec.ofNat 64 (s.injected.length + N.toNat) := by
  obtain ⟨free, hfree, -, -⟩ := hs.checkFreeSpace hready full
  simp only [InjFifo.reserve, hfree]
  split
  · exact .inl rfl
  · right
    simp [hs.numInjected_eq, inflight_of_ready hready, ofNat_add, BitVec.add_assoc]

theorem Ring.reliable : Reliable fifo first s := by
  refine ⟨hs.in_order, ?_, ?_, ?_, ?_, ?_⟩
  · intro e t hstep va hva
    exact ⟨hs.storeTarget_ne e hva, step_memory hstep (hs.storeTarget_ne e hva)⟩
  · have hspace := hs.space
    have hlen := hs.processed_prefix.length_le
    rw [hs.used_eq]
    omega
  · intro t hstep
    simp only [InjFifo.step] at hstep
    split at hstep
    next tailVa batch hphase =>
      cases hstep
      have hnumber := hs.numInjected_eq
      rw [hphase] at hnumber
      simpa [InjFifo.publish, inflight] using hnumber
    · cases hstep
  · intro t hstep
    obtain ⟨hready, ⟨⟩⟩ := ite_none_right_eq_some.mp hstep
    exact hs.reserve_result hready _ 1#32
  · intro N t hstep
    obtain ⟨hready, ⟨⟩⟩ := ite_none_right_eq_some.mp hstep
    exact hs.reserve_result hready _ N

end

end Invariant

/-- Over every interleaving of the software and the hardware in which no advance
over several descriptors counts `2 ^ 26` of them or more, the hardware gets the
injected descriptors in order and no slot is stored to before it is processed. -/
theorem injFifo_reliable (fifo : Fifo) (first : BitVec 64) (memory : Nat → Desc)
    (history : List Event) (s : State)
    (hrun : run (step fifo) (initial fifo first memory) history = some s)
    (hfits : ∀ N : BitVec 32, .advanceDescMultiple N ∈ history → N.toNat < 2 ^ 26) :
    Reliable fifo first s := by
  refine (ring_of_run hrun fun e he => ?_).reliable
  cases e with
  | advanceDescMultiple N => exact hfits N he
  | _ => trivial

/-- Three slots, so that the third descriptor of the run wraps. -/
def smallFifo : Fifo where
  vaStart := 0x1000
  paStart := 0x81000
  size := 192
  aligned := by decide
  dvd_size := by decide
  min_size := by decide
  size_le := by decide

/-- The second call finds the fifo full; the third descriptor goes into the slot
that was kept free. -/
def smallHistory : List Event :=
  [.injectMultiple [1#512, 2#512], .copy, .copy, .clear, .publish, .inject 9#512,
    .hardware, .nextDesc, .write 0 3#512, .advanceDescMultiple 1#32, .hardware, .clear,
    .publish, .hardware]

theorem injFifo_reliable_three_slots :
    ∃ s, run (step smallFifo) (initial smallFifo 40#64 fun _ => 0#512) smallHistory = some s ∧
      s.processed = [1#512, 2#512, 3#512] ∧ s.result = 43#64 ∧ Reliable smallFifo 40#64 s := by
  refine exists_of_map_run (fun s => (s.processed, s.result)) ([1#512, 2#512, 3#512], 43#64) rfl
    fun s hrun hs => ?_
  obtain ⟨hprocessed, hresult⟩ := Prod.mk.inj hs
  exact ⟨hprocessed, hresult, injFifo_reliable _ _ _ _ _ hrun (by simp [smallHistory])⟩

theorem length_nextSlots (fifo : Fifo) (n va : Nat) : (nextSlots fifo n va).length = n := by
  induction n generalizing va with
  | zero => rfl
  | succ n ih => rw [nextSlots, length_cons, ih]

theorem reserve_of_room (fifo : Fifo) (s : State) (N : BitVec 32)
    (hroom : full s.freeSpace = false) :
    reserve fifo s full N = { s with
      phase := .held (nextSlots fifo N.toNat s.vaTail)
        ((nextSlots fifo N.toNat s.vaTail).map s.memory)
      result := s.numInjected + N.setWidth 64 } := by
  simp [reserve, checkFreeSpace, hroom]

/-- Advancing over `2 ^ 26` descriptors shifts their count out of its 32 bits: the
tail stays where it is and the hardware never sees them. -/
theorem exists_lost_descriptors (fifo : Fifo) (hslots : 2 ^ 26 < fifo.slots) (first : BitVec 64)
    (memory : Nat → Desc) (hN : N.toNat = 2 ^ 26) (hshift : N <<< 6 = 0#32) :
    ∃ s, run (step fifo) (initial fifo first memory)
        [.nextDescMultiple N, .advanceDescMultiple N, .clear, .publish] = some s ∧
      s.processed = [] ∧ used fifo s = 0 ∧ s.injected.length = 2 ^ 26 := by
  have hsize := size_pos fifo
  have hlt := slots_lt fifo
  have hroom : decide ((initial fifo first memory).freeSpace < N.setWidth 64) = false := by
    rw [decide_eq_false_iff_not, lt_def, toNat_setWidth_64, hN, initial,
      toNat_ofNat, mod_eq_of_lt (by omega)]
    omega
  have hreserve : step fifo (initial fifo first memory) (.nextDescMultiple N) = some _ :=
    congrArg some (reserve_of_room fifo _ N hroom)
  have htail : ¬ fifo.vaEnd ≤ fifo.vaStart := by
    unfold Fifo.vaEnd
    omega
  rw [run_cons, hreserve, bind_some, run_cons]
  simp only [step, length_nextSlots, le_refl, if_true, bind_some, advanceDescMultiple,
    initial, run_cons, run_nil]
  refine ⟨_, rfl, rfl, ?_, ?_⟩
  · simp [used, publish, hshift, htail]
  · simp only [publish, nil_append, length_take, length_map, length_nextSlots, hN, Nat.min_self]

def hugeFifo : Fifo where
  vaStart := 0
  paStart := 0
  size := 64 * (2 ^ 26 + 1)
  aligned := by decide
  dvd_size := by decide
  min_size := by decide
  size_le := by decide

theorem not_forall_run_reliable :
    ¬ ∀ (fifo : Fifo) (first : BitVec 64) (memory : Nat → Desc) (history : List Event)
      (s : State), run (step fifo) (initial fifo first memory) history = some s →
        Reliable fifo first s := by
  intro hall
  obtain ⟨s, hrun, hprocessed, hused, hinjected⟩ :=
    exists_lost_descriptors hugeFifo (by decide) 0#64 (fun _ => 0#512) (N := 0x4000000#32)
      (by decide) (by decide)
  have horder := (hall _ _ _ _ _ hrun).in_order
  rw [hprocessed, waitingSlots, hused, nextSlots] at horder
  rw [← horder] at hinjected
  cases hinjected

end BgqDriver.InjFifo
