import BgqDriver.InjFifo

/-!
Injecting several descriptors at once against injecting them one by one, from any
state between two calls and with the hardware at rest.
-/

namespace BgqDriver.InjFifo

open EventRuns List Option BitVec Function Nat

/-- `MUSPI_InjFifoInject`, from the call to its return. -/
def injectCall (desc : Desc) : List Event := [.inject desc, .copy, .clear, .publish]

/-- `MUSPI_InjFifoInjectMultiple`. -/
def injectMultipleCall (descs : List Desc) : List Event :=
  .injectMultiple descs :: (replicate descs.length .copy ++ [.clear, .publish])

def writes (first : Nat) (descs : List Desc) : List Event :=
  descs.mapIdx fun i desc => .write (first + i) desc

/-- `MUSPI_InjFifoNextDescMultiple`, the caller's stores to all slots it returned, and
`MUSPI_InjFifoAdvanceDescMultiple`. -/
def nextAdvanceCalls (descs : List Desc) : List Event :=
  let N := BitVec.ofNat 32 descs.length
  .nextDescMultiple N :: (writes 0 descs ++ [.advanceDescMultiple N, .clear, .publish])

/-- The fifos are the same to the hardware and to the next call. -/
structure SameFifo (fifo : Fifo) (t u : State) : Prop where
  contents : (waitingSlots fifo t).map t.memory = (waitingSlots fifo u).map u.memory
  vaTail : t.vaTail = u.vaTail
  freeSpace : t.freeSpace = u.freeSpace
  numInjected : t.numInjected = u.numInjected
  paTail : t.paTail = u.paTail

/-- The free space after a check for `n` descriptors that finds room. -/
def available (fifo : Fifo) (s : State) (n : Nat) : BitVec 64 :=
  if n ≤ s.freeSpace.toNat then s.freeSpace else getHwFreeSpace fifo s

structure Injected (fifo : Fifo) (first : BitVec 64) (s : State) (descs : List Desc)
    (t : State) : Prop where
  ring : Ring fifo first t
  ready : t.phase.ready = true
  injected : t.injected = s.injected ++ descs
  processed : t.processed = s.processed
  freeSpace : t.freeSpace.toNat = (available fifo s descs.length).toNat - descs.length

variable {fifo : Fifo} {first : BitVec 64} {s t u : State} {batch contents todo : List Desc}
  {slots : List Nat} {descs : List Desc} {e : Event} {es : List Event} {full : BitVec 64 → Bool}
  {n tailVa : Nat}

theorem Injected.sameFifo (ht : Injected fifo first s descs t)
    (hu : Injected fifo first s descs u) : SameFifo fifo t u := by
  have hinjected := ht.injected.trans hu.injected.symm
  have hprocessed := ht.processed.trans hu.processed.symm
  refine ⟨?_, ?_, eq_of_toNat_eq (ht.freeSpace.trans hu.freeSpace.symm), ?_, ?_⟩
  · have horder := ht.ring.in_order
    rw [hinjected, ← hu.ring.in_order, hprocessed] at horder
    exact append_cancel_left horder
  · rw [ht.ring.vaTail_eq, hu.ring.vaTail_eq, hinjected]
  · rw [ht.ring.numInjected_eq, hu.ring.numInjected_eq, hinjected, inflight_of_ready ht.ready,
      inflight_of_ready hu.ready]
  · rw [ht.ring.paTail_eq, hu.ring.paTail_eq, hinjected]

theorem checkFreeSpace_eq (hfull : ∀ free, full free = true ↔ free.toNat < n) :
    checkFreeSpace fifo s full = { s with freeSpace := available fifo s n } := by
  unfold checkFreeSpace available
  rcases Nat.lt_or_ge s.freeSpace.toNat n with hlt | hge
  · rw [if_pos ((hfull _).mpr hlt), if_neg (by omega)]
  · rw [if_neg (by rw [hfull]; omega), if_pos hge]

theorem le_available (hroom : n ≤ (getHwFreeSpace fifo s).toNat) :
    n ≤ (available fifo s n).toNat := by
  unfold available
  split <;> omega

theorem run_close (hphase : s.phase = .filling tailVa batch []) :
    run (step fifo) s [.clear, .publish] = some (publish fifo { s with
      memory := update s.memory tailVa 0#512
      phase := .publishing tailVa batch } tailVa batch) := by
  simp [run_cons, step, hphase]

/-- The end of a call that has counted its descriptors. -/
theorem run_copies (hphase : s.phase = .filling tailVa batch todo) :
    ∃ t, run (step fifo) s (replicate todo.length .copy ++ [.clear, .publish]) = some t ∧
      t.phase = .idle ∧ t.injected = s.injected ++ (batch ++ todo) ∧
      t.processed = s.processed ∧ t.freeSpace = s.freeSpace := by
  induction todo generalizing s tailVa batch with
  | nil => exact ⟨_, run_close hphase, rfl, by simp [publish], rfl, rfl⟩
  | cons desc todo ih =>
    obtain ⟨t, hrun, hidle, hinjected, hrest⟩ := ih (s := { s with
      memory := update s.memory tailVa desc
      phase := .filling (nextSlot fifo tailVa) (batch ++ [desc]) todo }) rfl
    refine ⟨t, ?_, hidle, ?_, hrest⟩
    · rw [length_cons, List.replicate_succ, List.cons_append, run_cons]
      simpa only [step, hphase, bind_some] using hrun
    · rw [hinjected, List.append_assoc, singleton_append]

theorem run_writes (batch : List Desc) (hphase : s.phase = .held slots (batch ++ contents))
    (hslots : slots.length = batch.length + descs.length)
    (hcontents : contents.length = descs.length) :
    ∃ memory, run (step fifo) s (writes batch.length descs) = some { s with
      memory := memory
      phase := .held slots (batch ++ descs) } := by
  induction descs generalizing s batch contents with
  | nil =>
    obtain rfl := length_eq_zero_iff.mp hcontents
    exact ⟨s.memory, by rw [← hphase]; rfl⟩
  | cons desc descs ih =>
    obtain ⟨old, contents, rfl⟩ := exists_cons_of_length_eq_add_one hcontents
    simp only [length_cons] at hslots hcontents
    have hlt : batch.length < slots.length := by omega
    obtain ⟨memory, hrun⟩ := ih (batch ++ [desc]) (s := { s with
      memory := update s.memory slots[batch.length] desc
      phase := .held slots ((batch ++ [desc]) ++ contents) }) rfl (by simp; omega) (by omega)
    refine ⟨memory, ?_⟩
    have hcons : writes batch.length (desc :: descs) =
        .write batch.length desc :: writes (batch ++ [desc]).length descs := by
      simp [writes, mapIdx_cons, Nat.add_assoc, Nat.add_comm 1]
    rw [hcons, run_cons]
    simpa [step, hphase, hlt, set_append_right] using hrun

section

variable (hs : Ring fifo first s)
include hs

theorem Ring.of_run (hfits : ∀ e ∈ es, e.Fits) (hrun : run (InjFifo.step fifo) s es = some t) :
    Ring fifo first t :=
  invariant_of_runMeets (fun _ _ _ hs he hstep => hs.step he hstep) hs
    (runMeets_of_forall (fun e he _ => hfits e he) s) hrun

variable (hroom : descs.length ≤ (getHwFreeSpace fifo s).toNat)
include hroom

/-- One call that copies `descs`, whichever of the two it is. -/
theorem injected_call (hlen : descs.length < 2 ^ 32)
    (hfull : ∀ free, full free = true ↔ free.toNat < descs.length)
    (hstep : step fifo s e = some (beginInject fifo s full descs)) (hfits : e.Fits) :
    ∃ t, run (step fifo) s (e :: (replicate descs.length .copy ++ [.clear, .publish])) = some t ∧
      Injected fifo first s descs t := by
  have hle := le_available hroom
  have hbegin : beginInject fifo s full descs = { s with
      freeSpace := available fifo s descs.length - BitVec.ofNat 64 descs.length
      numInjected := s.numInjected + BitVec.ofNat 64 descs.length
      phase := .filling s.vaTail [] descs } := by
    unfold beginInject
    simp only [checkFreeSpace_eq hfull]
    rw [if_neg (by rw [hfull]; omega)]
  obtain ⟨t, hrun, hidle, hinjected, hprocessed, hfree⟩ :=
    run_copies (s := beginInject fifo s full descs) (by rw [hbegin])
  have ht : Ring fifo first t :=
    (hs.step hfits hstep).of_run (by simp +contextual [or_imp, Event.Fits]) hrun
  rw [hbegin] at hinjected hprocessed hfree
  refine ⟨t, ?_, ht, by rw [hidle]; rfl, hinjected, hprocessed, ?_⟩
  · rw [run_cons, hstep]
    exact hrun
  · rw [hfree, toNat_sub_of_le (by rw [le_def, toNat_ofNat]; omega), toNat_ofNat,
      mod_eq_of_lt (by omega)]

variable (hready : s.phase.ready = true)
include hready

theorem injected_singles : ∃ t,
    run (step fifo) s (descs.flatMap injectCall) = some t ∧ Injected fifo first s descs t := by
  induction descs generalizing s with
  | nil => exact ⟨s, rfl, hs, hready, by simp, rfl, by simp [available]⟩
  | cons desc descs ih =>
    rw [length_cons] at hroom
    obtain ⟨t, hcall, ht⟩ := injected_call (e := .inject desc) hs
      (show [desc].length ≤ _ by rw [length_singleton]; omega)
      (by simp) (by simp [← toNat_inj]) (if_pos hready) trivial
    have hfree := ht.freeSpace
    have hspace := ht.ring.toNat_getHwFreeSpace
    have hle := hs.freeSpace_le
    rw [ht.injected, ht.processed, length_append, length_singleton] at hspace
    have hspace' := hs.toNat_getHwFreeSpace
    have hlen := hs.processed_prefix.length_le
    obtain ⟨u, hrest, hu⟩ := ih ht.ring (by omega) ht.ready
    refine ⟨u, ?_, hu.ring, hu.ready, ?_, hu.processed.trans ht.processed, ?_⟩
    · rw [flatMap_cons, run_append, show run _ s (injectCall desc) = some t from hcall]
      exact hrest
    · rw [hu.injected, ht.injected, List.append_assoc, singleton_append]
    · have hfree' := hu.freeSpace
      simp only [available, apply_ite BitVec.toNat, length_cons, length_nil] at hfree hfree' ⊢
      split_ifs at hfree hfree' ⊢ <;> omega

/-- The shift in `MUSPI_InjFifoAdvanceDescMultiple` counts the descriptors modulo `2 ^ 26`. -/
theorem injected_nextAdvance (hlen : descs.length < 2 ^ 32) : ∃ t,
    run (step fifo) s (nextAdvanceCalls descs) = some t ∧
      t.vaTail = slot fifo (s.injected.length + descs.length % 2 ^ 26) ∧
      (descs.length < 2 ^ 26 → Injected fifo first s descs t) := by
  have hle := le_available hroom
  have hspace := hs.toNat_getHwFreeSpace
  have hN : (BitVec.ofNat 32 descs.length).toNat = descs.length := by
    rw [toNat_ofNat, mod_eq_of_lt hlen]
  have hwrites : ∃ memory, run (step fifo) s
      (.nextDescMultiple (BitVec.ofNat 32 descs.length) :: writes 0 descs) = some { s with
        freeSpace := available fifo s descs.length
        memory := memory
        phase := .held (nextSlots fifo descs.length s.vaTail) descs
        result := s.numInjected + (BitVec.ofNat 32 descs.length).setWidth 64 } := by
    have hfull : ∀ free : BitVec 64, decide (free < (BitVec.ofNat 32 descs.length).setWidth 64) =
        true ↔ free.toNat < descs.length := by
      intro free
      rw [decide_eq_true_iff, lt_def, toNat_setWidth_64, hN]
    simp only [run_cons, step, hready, if_true, nextDescMultiple, reserve, checkFreeSpace_eq hfull,
      hN]
    rw [if_neg (by rw [hfull]; omega)]
    exact run_writes [] rfl (by simp [length_nextSlots]) (by simp [length_nextSlots])
  obtain ⟨memory, hwrites⟩ := hwrites
  have hadvance : ∃ t, run (step fifo) s (nextAdvanceCalls descs) = some t ∧ t.phase = .idle ∧
      t.vaTail = slot fifo (s.injected.length + descs.length % 2 ^ 26) ∧
      t.injected = s.injected ++ descs ∧ t.processed = s.processed ∧
      t.freeSpace = available fifo s descs.length - (BitVec.ofNat 32 descs.length).setWidth 64 := by
    rw [nextAdvanceCalls, ← List.cons_append, run_append, hwrites, bind_some, run_cons]
    simp only [step, length_nextSlots, hN, le_refl, if_true, bind_some]
    refine ⟨_, run_close rfl, rfl, ?_, ?_, rfl, rfl⟩
    · have hshift : (BitVec.ofNat 32 descs.length <<< 6).toNat =
          64 * (descs.length % 2 ^ 26) := by
        rw [toNat_shiftLeft, hN, Nat.shiftLeft_eq]
        omega
      simp only [publish, hs.vaTail_eq, hshift]
      exact slot_add fifo _ (by omega)
    · simp [publish, advanceDescMultiple, hN]
  obtain ⟨t, hrun, hidle, htail, hinjected, hprocessed, hfree⟩ := hadvance
  refine ⟨t, hrun, htail, fun hfits => ⟨hs.of_run ?_ hrun, by rw [hidle]; rfl, hinjected,
    hprocessed, ?_⟩⟩
  · intro e he
    cases e with
    | advanceDescMultiple N =>
      obtain rfl : N = BitVec.ofNat 32 descs.length := by
        simpa [nextAdvanceCalls, writes, mem_mapIdx] using he
      exact hN.trans_lt hfits
    | _ => trivial
  · rw [hfree, toNat_sub_of_le (by rw [le_def, toNat_setWidth_64, hN]; exact hle),
      toNat_setWidth_64, hN]

theorem nextAdvance_same_iff (hlen : descs.length < 2 ^ 32)
    (ht : Injected fifo first s descs t) : ∃ u,
    run (step fifo) s (nextAdvanceCalls descs) = some u ∧
      (SameFifo fifo t u ↔ descs.length < 2 ^ 26) := by
  obtain ⟨u, hrun, htail, hu⟩ := injected_nextAdvance hs hroom hready hlen
  refine ⟨u, hrun, ?_, fun hfits => ht.sameFifo (hu hfits)⟩
  intro hsame
  have hfree := hs.toNat_getHwFreeSpace
  have hsize := size_pos fifo
  rw [size_eq] at hsize
  have hslot := ht.ring.vaTail_eq.symm.trans (hsame.vaTail.trans htail)
  rw [ht.injected, length_append] at hslot
  have := eq_of_slot_eq fifo (h := s.injected.length) (by omega) (by omega) hslot
  omega

end

/-- Copying `n` descriptors into free slots ends as `n` single injections do. Advancing
over `n` slots that the caller filled does so exactly below `2 ^ 26`. -/
theorem multiple_eq_singles_iff (fifo : Fifo) (first : BitVec 64) (s : State)
    (descs : List Desc) (hs : Ring fifo first s) (hready : s.phase.ready = true)
    (hlen : descs.length < 2 ^ 32) (hroom : descs.length ≤ (getHwFreeSpace fifo s).toNat) :
    ∃ t, run (step fifo) s (descs.flatMap injectCall) = some t ∧
      (∃ u, run (step fifo) s (injectMultipleCall descs) = some u ∧ SameFifo fifo t u) ∧
      ∃ u, run (step fifo) s (nextAdvanceCalls descs) = some u ∧
        (SameFifo fifo t u ↔ descs.length < 2 ^ 26) := by
  obtain ⟨t, hsingles, ht⟩ := injected_singles hs hroom hready
  have hfull (free : BitVec 64) : decide (free < BitVec.ofNat 64 descs.length) = true ↔
      free.toNat < descs.length := by
    rw [decide_eq_true_iff, lt_def, toNat_ofNat, mod_eq_of_lt (by omega)]
  obtain ⟨u, hmultiple, hu⟩ := injected_call (e := .injectMultiple descs) hs hroom hlen hfull
    (if_pos ⟨hready, hlen⟩) trivial
  exact ⟨t, hsingles, ⟨u, hmultiple, ht.sameFifo hu⟩,
    nextAdvance_same_iff hs hroom hready hlen ht⟩

theorem multiple_eq_singles_iff_two : ∃ t u,
    run (step smallFifo) (initial smallFifo 40#64 fun _ => 0#512)
        ([1#512, 2#512].flatMap injectCall) = some t ∧
      run (step smallFifo) (initial smallFifo 40#64 fun _ => 0#512)
        (nextAdvanceCalls [1#512, 2#512]) = some u ∧ SameFifo smallFifo t u := by
  obtain ⟨t, hsingles, -, u, hrun, hsame⟩ := multiple_eq_singles_iff smallFifo 40#64 _
    [1#512, 2#512] (ring_initial _ _ fun _ => 0#512) rfl (by decide) (by decide)
  exact ⟨t, u, hsingles, hrun, hsame.mpr (by decide)⟩

theorem not_forall_multiple_eq_singles :
    ¬ ∀ (fifo : Fifo) (first : BitVec 64) (memory : Nat → Desc) (descs : List Desc) (t u : State),
      descs.length ≤ (getHwFreeSpace fifo (initial fifo first memory)).toNat →
      run (step fifo) (initial fifo first memory) (descs.flatMap injectCall) = some t →
      run (step fifo) (initial fifo first memory) (nextAdvanceCalls descs) = some u →
      SameFifo fifo t u := by
  intro hall
  have hlen : (List.replicate (2 ^ 26) 0#512).length = 2 ^ 26 := length_replicate
  have hs := ring_initial hugeFifo 0#64 fun _ => 0#512
  have hroom : (List.replicate (2 ^ 26) 0#512).length ≤
      (getHwFreeSpace hugeFifo (initial hugeFifo 0#64 fun _ => 0#512)).toNat := by
    rw [hlen]
    decide
  obtain ⟨t, hsingles, ht⟩ := injected_singles hs hroom rfl
  obtain ⟨u, hrun, hsame⟩ := nextAdvance_same_iff hs hroom rfl (by rw [hlen]; decide) ht
  have hlt := hsame.mp (hall _ _ _ _ _ _ hroom hsingles hrun)
  rw [hlen] at hlt
  exact absurd hlt (Nat.lt_irrefl _)

end BgqDriver.InjFifo
