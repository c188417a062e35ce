import Mathlib.Algebra.Group.Nat.Defs
import Mathlib.Data.Fintype.Card
import BgqDriver.EventRuns

/-!
The barrier of the compute node kernel on one word: the lower half counts the threads that
have arrived, the upper half is a generation. A call is taken apart into the accesses to the
word, which the threads perform in any order. A store succeeds only while the reservation of
the load before it stands, and may fail even then.
-/

namespace BgqDriver.KernelBarrier

open Function Finset BitVec
open EventRuns

/-- Where a thread is: in front of the load, in front of the store, or waiting for the
generation to change. -/
inductive Phase
  | idle
  | loaded (value : BitVec 32)
  | waiting (generation : BitVec 32)

/-- A thread, and how often it has entered and left the barrier. -/
structure Thread where
  phase : Phase
  reserved : Bool
  entered : Nat
  left : Nat

structure State (n : Nat) where
  word : BitVec 32
  thread : Fin n → Thread

variable {n : Nat}

def init (n : Nat) : State n where
  word := 0#32
  thread _ := ⟨.idle, false, 0, 0⟩

def State.set (s : State n) (t : Fin n) (thread : Thread) : State n :=
  { s with thread := update s.thread t thread }

/-- A store that succeeds takes all reservations away. -/
def State.store (s : State n) (word : BitVec 32) : State n where
  word := word
  thread t := { s.thread t with reserved := false }

/-- One access to the word -/
inductive Label (n : Nat)
  | loadReserved (t : Fin n)
  | storeConditional (t : Fin n) (ok : Bool)
  | poll (t : Fin n)

def generationOf (value : BitVec 32) : BitVec 32 := (value + 1#32) >>> 16

/-- The value that an arriving thread stores. The last one increments the generation and
clears the count. -/
def arrive (rendezvousNum value : BitVec 32) : BitVec 32 :=
  let tmpVal := value + 1#32
  if tmpVal &&& 0xffff#32 = rendezvousNum then (generationOf value + 1#32) <<< 16 else tmpVal

/-- One access of one thread. -/
def step (s : State n) : Label n → Option (State n)
  | .loadReserved t =>
    match (s.thread t).phase with
    | .idle => some (s.set t { s.thread t with phase := .loaded s.word, reserved := true })
    | _ => none
  | .storeConditional t ok =>
    match (s.thread t).phase with
    | .loaded value =>
      if (s.thread t).reserved && ok then
        some ((s.set t { s.thread t with
          phase := .waiting (generationOf value), entered := (s.thread t).entered + 1 }).store
            (arrive (BitVec.ofNat 32 n) value))
      else some (s.set t { s.thread t with phase := .idle, reserved := false })
    | _ => none
  | .poll t =>
    match (s.thread t).phase with
    | .waiting generation =>
      if s.word >>> 16 = generation then some s
      else some (s.set t { s.thread t with phase := .idle, left := (s.thread t).left + 1 })
    | _ => none

/-- A thread during round `G`, the first one that is not complete. A thread that waits is in
this round, or has not yet seen that the one before is over. -/
def InRound (G : Nat) (word : BitVec 32) (thread : Thread) : Prop :=
  match thread.phase with
  | .idle => thread.entered = thread.left ∧ thread.left = G
  | .loaded value => thread.entered = thread.left ∧ thread.left = G ∧
      (thread.reserved = true → value = word)
  | .waiting generation => thread.entered = thread.left + 1 ∧
      generation.toNat = thread.left % 2 ^ 16 ∧ (thread.left = G ∨ thread.left + 1 = G)

def arrived (G : Nat) (thread : Fin n → Thread) : Finset (Fin n) :=
  univ.filter fun t => (thread t).entered = G + 1

structure Inv (s : State n) (G : Nat) : Prop where
  word : s.word.toNat = G % 2 ^ 16 * 2 ^ 16 + (arrived G s.thread).card
  card_lt : (arrived G s.thread).card < n
  thread : ∀ t, InRound G s.word (s.thread t)

variable {s s' : State n} {G c : Nat} {t : Fin n} {value : BitVec 32} {thread : Thread}

section Words

variable (hvalue : value.toNat = G % 2 ^ 16 * 2 ^ 16 + c) (hc : c + 1 < 2 ^ 16)
include hvalue hc

theorem toNat_succ : (value + 1#32).toNat = G % 2 ^ 16 * 2 ^ 16 + (c + 1) := by
  rw [toNat_add, hvalue, toNat_ofNat]
  omega

theorem toNat_generationOf : (generationOf value).toNat = G % 2 ^ 16 := by
  rw [generationOf, toNat_ushiftRight, toNat_succ hvalue hc, Nat.shiftRight_eq_div_pow]
  omega

theorem toNat_count : ((value + 1#32) &&& 0xffff#32).toNat = c + 1 := by
  rw [toNat_and, toNat_succ hvalue hc]
  have hmask : (0xffff#32).toNat = 2 ^ 16 - 1 := rfl
  rw [hmask, Nat.and_two_pow_sub_one_eq_mod]
  omega

theorem toNat_arrive (hn : n < 2 ^ 16) : (arrive (BitVec.ofNat 32 n) value).toNat =
    if c + 1 = n then (G + 1) % 2 ^ 16 * 2 ^ 16 else G % 2 ^ 16 * 2 ^ 16 + (c + 1) := by
  have hlast : ((value + 1#32) &&& 0xffff#32 = BitVec.ofNat 32 n) ↔ c + 1 = n := by
    rw [← toNat_inj, toNat_count hvalue hc, toNat_ofNat, Nat.mod_eq_of_lt (by omega)]
  rw [arrive]
  simp only [hlast]
  split
  · rw [toNat_shiftLeft, toNat_add, toNat_generationOf hvalue hc,
      toNat_ofNat, Nat.shiftLeft_eq]
    omega
  · exact toNat_succ hvalue hc

end Words

namespace InRound

variable {word : BitVec 32} (h : InRound G word thread)
include h

theorem bounds : thread.left ≤ G ∧ G ≤ thread.entered ∧ thread.entered ≤ G + 1 := by
  rw [InRound] at h
  split at h
  all_goals omega

theorem unreserved (word : BitVec 32) : InRound G word { thread with reserved := false } := by
  rw [InRound] at h ⊢
  cases hphase : thread.phase with
  | idle | waiting _ =>
    simp only [hphase] at h ⊢
    exact h
  | loaded value =>
    simp only [hphase] at h ⊢
    exact ⟨h.1, h.2.1, Bool.noConfusion⟩

theorem next (hentered : thread.entered = G + 1) : InRound (G + 1) word thread := by
  rw [InRound] at h ⊢
  split at h
  · omega
  · omega
  · exact ⟨h.1, h.2.1, by omega⟩

end InRound

theorem arrived_set (hbefore : (s.thread t).entered = G)
    (hafter : thread.entered = G + 1) :
    (arrived G (s.set t thread).thread).card = (arrived G s.thread).card + 1 := by
  rw [← card_insert_of_notMem (a := t) (by simp [arrived, hbefore])]
  congr 1
  ext u
  rw [mem_insert, arrived, arrived, mem_filter, mem_filter, State.set]
  rcases eq_or_ne u t with rfl | hne
  · simp [hafter]
  · simp [hne]

theorem arrived_store (word : BitVec 32) : arrived G (s.store word).thread = arrived G s.thread :=
  rfl

theorem card_arrived_eq_iff : (arrived G s.thread).card = n ↔
    ∀ t, (s.thread t).entered = G + 1 := by
  have hcard := card_eq_iff_eq_univ (arrived G s.thread)
  rw [Fintype.card_fin, arrived, filter_eq_self] at hcard
  rw [arrived, hcard]
  exact ⟨fun h t => h t (mem_univ t), fun h t _ => h t⟩

namespace Inv

variable (h : Inv s G)
include h

theorem set (hentered : thread.entered = (s.thread t).entered)
    (hthread : InRound G s.word thread) : Inv (s.set t thread) G := by
  have hsame : arrived G (s.set t thread).thread = arrived G s.thread := by
    apply filter_congr
    intro u _
    rcases eq_or_ne u t with rfl | hne
    · simp [State.set, hentered]
    · simp [State.set, hne]
  exact ⟨hsame ▸ h.word, hsame ▸ h.card_lt,
    (forall_update_iff s.thread fun _ x => InRound G s.word x).mpr
      ⟨hthread, fun u _ => h.thread u⟩⟩

theorem generation (hn : n < 2 ^ 16) : (s.word >>> 16).toNat = G % 2 ^ 16 ∧
    generationOf s.word = s.word >>> 16 := by
  have hlt := h.card_lt
  have hword := h.word
  have hshift : (s.word >>> 16).toNat = G % 2 ^ 16 := by
    rw [toNat_ushiftRight, hword, Nat.shiftRight_eq_div_pow]
    omega
  refine ⟨hshift, ?_⟩
  rw [← toNat_inj, hshift, toNat_generationOf hword (by omega)]

/-- One more thread enters. If it is the last one, then the next round begins. -/
theorem store (hn : n < 2 ^ 16) (hbefore : (s.thread t).entered = G)
    (hafter : thread.entered = G + 1) (hthread : InRound G s.word thread) :
    ∃ G, Inv ((s.set t thread).store (arrive (BitVec.ofNat 32 n) s.word)) G := by
  have hlt := h.card_lt
  have hword := toNat_arrive h.word (by omega) hn
  have hall : ∀ u, InRound G s.word ((s.set t thread).thread u) :=
    (forall_update_iff s.thread fun _ x => InRound G s.word x).mpr
      ⟨hthread, fun u _ => h.thread u⟩
  have hcard := arrived_set hbefore hafter
  split at hword
  next hlast =>
    have hentered := card_arrived_eq_iff.mp (hcard.trans hlast)
    have hnone : (arrived (G + 1) (s.set t thread).thread).card = 0 := by
      rw [card_eq_zero, arrived, filter_eq_empty_iff]
      intro u _
      rw [hentered u]
      omega
    refine ⟨G + 1, ?_, ?_, fun u => ((hall u).next (hentered u)).unreserved _⟩
    · rw [arrived_store, hnone, Nat.add_zero]
      exact hword
    · rw [arrived_store, hnone]
      omega
  · refine ⟨G, ?_, ?_, fun u => (hall u).unreserved _⟩
    · rw [arrived_store, hcard]
      exact hword
    · rw [arrived_store, hcard]
      omega

theorem generation_eq_iff (hn : n < 2 ^ 16) {generation : BitVec 32}
    (hphase : (s.thread t).phase = .waiting generation) :
    s.word >>> 16 = generation ↔ (s.thread t).left = G := by
  have hthread := h.thread t
  simp only [InRound, hphase] at hthread
  rw [← toNat_inj, (h.generation hn).1]
  omega

/-- A waiting thread is let go exactly when all threads have entered its round. -/
theorem generation_ne_iff (hn : n < 2 ^ 16) {generation : BitVec 32}
    (hphase : (s.thread t).phase = .waiting generation) : s.word >>> 16 ≠ generation ↔
      ∀ u, (s.thread t).entered ≤ (s.thread u).entered := by
  have hthread := h.thread t
  simp only [InRound, hphase] at hthread
  rw [Ne, h.generation_eq_iff hn hphase]
  constructor
  · intro hleft u
    have hbounds := (h.thread u).bounds
    omega
  · intro hall hleft
    refine absurd (card_arrived_eq_iff.mpr ?_) (Nat.ne_of_lt h.card_lt)
    intro u
    have hu := hall u
    have hbounds := (h.thread u).bounds
    omega

end Inv

theorem step_inv (hn : n < 2 ^ 16) {label : Label n} (h : ∃ G, Inv s G)
    (hstep : step s label = some s') : ∃ G, Inv s' G := by
  obtain ⟨G, h⟩ := h
  revert hstep
  fun_cases step s label <;> rintro ⟨⟩
  case case1 t hphase =>
    have hthread := h.thread t
    simp only [InRound, hphase] at hthread
    exact ⟨G, h.set rfl ⟨hthread.1, hthread.2, fun _ => rfl⟩⟩
  case case3 t _ value hphase hok =>
    have hthread := h.thread t
    simp only [InRound, hphase] at hthread
    obtain ⟨hentered, hleft, hreserved⟩ := hthread
    obtain rfl := hreserved (Bool.and_eq_true_iff.mp hok).1
    have hgeneration := toNat_generationOf h.word (by have := h.card_lt; omega)
    refine h.store hn (hentered.trans hleft) (congrArg (· + 1) (hentered.trans hleft)) ?_
    exact ⟨congrArg (· + 1) hentered, hgeneration.trans (by rw [← hleft]), Or.inl hleft⟩
  case case4 t _ value hphase _ =>
    have hthread := h.thread t
    simp only [InRound, hphase] at hthread
    exact ⟨G, h.set rfl ⟨hthread.1, hthread.2.1⟩⟩
  case case6 => exact ⟨G, h⟩
  case case7 t generation hphase hne =>
    have hthread := h.thread t
    rw [h.generation_eq_iff hn hphase] at hne
    simp only [InRound, hphase] at hthread
    exact ⟨G, h.set rfl ⟨hthread.1, hthread.2.2.resolve_left hne⟩⟩

theorem init_inv (hpos : 0 < n) : Inv (init n) 0 := by
  have hnone : arrived 0 (init n).thread = ∅ := by
    rw [arrived, filter_eq_empty_iff]
    intro t _ h
    cases h
  refine ⟨?_, ?_, fun t => ⟨rfl, rfl⟩⟩
  · rw [hnone]
    rfl
  · rw [hnone]
    exact hpos

/-- After every run of the accesses of `n` threads, no thread has left a barrier that
another one has not entered, a waiting thread is let go exactly when all have entered its
barrier, and the next arrival does not carry into the generation. -/
theorem barrier_separates (hpos : 0 < n) (hn : n ≤ 65535) (labels : List (Label n)) (s : State n)
    (hrun : run step (init n) labels = some s) :
    (∀ t u, (s.thread t).left ≤ (s.thread u).entered) ∧
      (∀ t generation, (s.thread t).phase = .waiting generation →
        (s.word >>> 16 ≠ generation ↔ ∀ u, (s.thread t).entered ≤ (s.thread u).entered)) ∧
      (s.word + 1#32) >>> 16 = s.word >>> 16 := by
  have hlt : n < 2 ^ 16 := by omega
  obtain ⟨G, h⟩ := run_invariant (fun _ s => ∃ G, Inv s G) ⟨0, init_inv hpos⟩
    (fun _ _ _ _ _ h hstep => step_inv hlt h hstep) hrun
  refine ⟨?_, ?_, (h.generation hlt).2⟩
  · intro t u
    exact Nat.le_trans (h.thread t).bounds.1 (h.thread u).bounds.2.1
  · intro t generation hphase
    exact h.generation_ne_iff hlt hphase

/-- Of two threads the second one loses its reservation and tries again. -/
theorem barrier_separates_two : ∃ s : State 2, run step (init 2) [.loadReserved 0,
    .loadReserved 1, .storeConditional 0 true, .storeConditional 1 true, .poll 0,
    .loadReserved 1, .storeConditional 1 true, .poll 0] = some s ∧ (s.thread 0).left = 1 ∧
      ∀ u, (s.thread 0).left ≤ (s.thread u).entered := by
  refine exists_of_map_run (fun s => (s.thread 0).left) 1 (by decide) fun s hs hleft => ?_
  exact ⟨hleft, (barrier_separates (by decide) (by decide) _ s hs).1 0⟩

end BgqDriver.KernelBarrier
