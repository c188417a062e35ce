import BgqDriver.FutexRuns

/-!
What a wake does to the threads that wait on its addresses, which wakes end, and
that the tables have room for every wait.
-/

namespace BgqDriver.FutexWakes

open Function List Option Nat
open EventRuns
open LinkedChains
open Futex
open FutexQueues
open FutexRuns

variable {node : Node} {s : State} {Q : TableId × Slot → List Tid} {idle : Set (TableId × Slot)}
  {W : List Tid} {q q' : TableId × Slot} {t : Tid}

theorem recorded_onAddress (h : Inv node s) (x : TableId × Addr) :
    ∀ u ∈ onAddress s x, (s.kthreads u).futexVAddr = x.2 := by
  obtain ⟨Q, hQ⟩ := h
  obtain ⟨T, a⟩ := x
  intro u hu
  by_cases hentry : ∃ i, s.vaddr (T, i) = a
  · obtain ⟨i, rfl⟩ := hentry
    rw [hQ.shows_onAddress.entry (T, i)] at hu
    exact (hQ.recorded (T, i) u hu).1
  · rw [hQ.shows_onAddress.absent T a (not_exists.mp hentry)] at hu
    exact absurd hu not_mem_nil

def threeWaits : List Event :=
  [.futex 0 0x3000000 0 0 0 0 0 100, .futex 1 0x3000000 0 0 0 0 0 100,
    .futex 2 0x3000000 0 0 0 0 0 100]

theorem careful_threeWaits : ∀ e ∈ threeWaits, ∀ s, Careful twoProcesses s e := by
  simp only [threeWaits, forall_mem_cons]
  refine ⟨?_, ?_, ?_, by simp⟩
  all_goals exact fun s hop => absurd hop (by decide)

theorem threeWaits_reach :
    ∃ s, run (step twoProcesses (numKThreads + 1)) (initial fun _ _ => 0) threeWaits = some s ∧
      Inv twoProcesses s ∧ (s.kthreads 3).blocked = false ∧
      onAddress s (some 0, 0x3000000) = [0, 1, 2] ∧ onAddress s (some 0, 0x3000040) = [] ∧
      s.unblocking = [] := by
  obtain ⟨s, hrun, hs⟩ := inv_run (lt_succ_self numKThreads)
    (runMeets_of_forall careful_threeWaits (initial fun _ _ => 0))
  have hmap : (run (step twoProcesses (numKThreads + 1)) (initial fun _ _ => 0) threeWaits).map
      (fun s => ((s.kthreads 3).blocked, onAddress s (some 0, 0x3000000),
        onAddress s (some 0, 0x3000040), s.unblocking)) =
      some (false, [0, 1, 2], [], []) := by
    decide +kernel
  rw [hrun, map_some, some_inj] at hmap
  simp only [Prod.mk.injEq] at hmap
  exact ⟨s, hrun, hs, hmap⟩

/-- A call of `futexWake` that requeues waiters which it does not wake to the address
they wait on. -/
def RequeuesToSelf (node : Node) (s : State) (p : Proc) (opAndFlags : Word) (a : Addr)
    (maxToWake : Int) (b : Addr) (value : Word) : Prop :=
  (opAndFlags &&& futexCmdMask = Op.requeue ∨
    (opAndFlags &&& futexCmdMask = Op.cmpRequeue ∧ s.memory p a = value)) ∧
  b = a ∧ (min maxToWake unblockListSize).toNat < (waitersOn node s p opAndFlags a).length

variable {fuel : Nat} {maxToWake : Int}

theorem wakeLoop_ends {n : Nat} (p : Proc) (hfuel : numKThreads < fuel) (awoken : List Tid)
    (h : Queued node s Q idle (W ++ awoken)) (hn : (Q q).length < n)
    (hend : (Q q).length ≤ (maxToWake - awoken.length).toNat ∨ q' ≠ q) :
    ∃ r, wakeLoop fuel p q maxToWake (some q') n s awoken = some r := by
  induction n generalizing s Q idle awoken with
  | zero => omega
  | succ n ih =>
    rw [wakeLoop]
    cases hQ : Q q with
    | nil =>
      rw [h.head_eq_none_iff.mpr hQ]
      exact ⟨_, rfl⟩
    | cons t l =>
      have hchain := h.chain q
      rw [hQ] at hchain hn hend
      simp only [length_cons] at hn hend
      rw [hchain.1]
      simp only
      split
      · have hawoken := h.awaken hQ
        rw [append_assoc] at hawoken
        have hl : update Q q l q = l := update_self ..
        apply ih _ hawoken
        · rw [hl]
          omega
        · rw [hl]
          simp only [length_append, length_singleton]
          exact hend.imp_left (by omega)
      · have hne : q' ≠ q := hend.resolve_left (by omega)
        obtain ⟨s', hrun, hchain', -⟩ := h.requeue_eq hfuel hQ hne p
        have hempty := hchain' q
        rw [update_of_ne hne.symm, update_self] at hempty
        obtain ⟨n, rfl⟩ := exists_eq_succ_of_ne_zero (by omega : n ≠ 0)
        refine ⟨(s', awoken), ?_⟩
        simp [hrun, wakeLoop, chain_nil_iff.mp hempty]

theorem futexWake_ends (hfuel : numKThreads < fuel) (h : Inv node s)
    (ht : (s.kthreads t).blocked = false) {p : Proc} {opAndFlags : Word} {a : Addr} {b : Addr}
    (maxToWake2 : Int) {value : Word}
    (hapart : ¬ RequeuesToSelf node s p opAndFlags a maxToWake b value) :
    ∃ r, futexWake node fuel s p opAndFlags a maxToWake b maxToWake2 value = some r := by
  by_cases hrefused : opAndFlags &&& futexCmdMask = Op.cmpRequeue ∧ s.memory p a ≠ value
  · exact ⟨_, by simp only [futexWake, if_pos hrefused]; rfl⟩
  have hvalue : opAndFlags &&& futexCmdMask = Op.cmpRequeue → s.memory p a = value :=
    fun hop => by_contra fun hne => hrefused ⟨hop, hne⟩
  by_cases hop : opAndFlags &&& futexCmdMask = Op.requeue ∨
      opAndFlags &&& futexCmdMask = Op.cmpRequeue
  swap
  · obtain ⟨s', hrun, -⟩ := futexWake_returns hfuel h ht (fun hop' => absurd hop' hop)
      (fun hop' => absurd hop' hop) maxToWake2 value hvalue
    exact ⟨_, hrun⟩
  obtain ⟨Q, hQ⟩ := h
  have hwakeOp : opAndFlags &&& futexCmdMask ≠ Op.wakeOp := by
    rcases hop with heq | heq
    all_goals
      rw [heq]
      decide
  have hleft : (waitersOn node s p opAndFlags a).length ≤
      (min maxToWake unblockListSize).toNat ∨ b ≠ a := by
    by_contra hboth
    rw [not_or, not_le, not_not] at hboth
    exact hapart ⟨hop.imp_right fun heq => ⟨heq, hvalue heq⟩, hboth.2, hboth.1⟩
  rw [waitersOn_eq] at hleft
  rw [futexWake, if_neg hrefused]
  generalize tableOf p (futexIsShared (node.process p) a opAndFlags) = T at *
  simp only [if_neg hwakeOp, beq_eq_false_iff_ne.mpr hwakeOp, Bool.false_and, find_not_allocate,
    wakeEntries, wakeSecondQueue, Bool.false_eq_true, ↓reduceIte]
  cases hlookup : lookup s T a with
  | none => exact ⟨_, by simp [futexWakeQueue]; rfl⟩
  | some i =>
    obtain rfl := vaddr_of_lookup hlookup
    rw [hQ.shows_onAddress.entry (T, i)] at hleft
    obtain ⟨s2, j, hfind, h2, hvaddr, ⟨hkept, -⟩, -⟩ := hQ.find ht T b
    have hend : (Q (T, i)).length ≤ (min maxToWake unblockListSize - ([] : List Tid).length).toNat ∨
        (T, j) ≠ (T, i) := by
      rw [length_nil, Int.natCast_zero, Int.sub_zero]
      by_cases hzero : s.vaddr (T, i) = 0#64
      · rw [hQ.free _ hzero]
        exact .inl (Nat.zero_le _)
      · refine hleft.imp_right fun hba heq => hba ?_
        rw [← hvaddr, heq, hkept _ hzero]
    obtain ⟨r, hrun⟩ : ∃ r, wakeLoop fuel p (T, i) (min maxToWake unblockListSize) (some (T, j))
        fuel s2 [] = some r :=
      wakeLoop_ends p hfuel [] (by simpa using h2) (h2.length_lt hfuel) hend
    exact ⟨_, by simp [hfind, hop, futexWakeQueue, hrun]; rfl⟩

/-- A running thread always finds an entry for an address, and every blocked thread is
on a queue or about to be unblocked. -/
structure RoomForAll (s : State) : Prop where
  entry : ∀ t, (s.kthreads t).blocked = false → ∀ T a, (futexFindTableEntry s T a true).2.isSome
  queued : ∀ t, (s.kthreads t).blocked = true → t ∉ s.unblocking → ∃ q, t ∈ waiters s q

end BgqDriver.FutexWakes
