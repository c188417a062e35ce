import BgqDriver.FutexQueues

/-!
Runs of the node: which steps keep the wait queues sound, and a pair of calls that
does not.
-/

namespace BgqDriver.FutexRuns

open Function List Option Bool
open EventRuns
open LinkedChains
open Futex
open FutexQueues

variable {node : Node} {s : State} {Q : TableId × Slot → List Tid} {idle : Set (TableId × Slot)}
  {W : List Tid} {q : TableId × Slot} {t : Tid}

def waitersOn (node : Node) (s : State) (p : Proc) (opAndFlags : Word) (a : Addr) : List Tid :=
  let T := tableOf p (futexIsShared (node.process p) a opAndFlags)
  match lookup s T a with
  | none => []
  | some i => waiters s (T, i)

/-- A requeue leaves waiters over only when its second address is neither null nor
the first. -/
def RequeuesApart (node : Node) (s : State) (p : Proc) (opAndFlags : Word) (a : Addr)
    (maxToWake : Int) (b : Addr) : Prop :=
  opAndFlags &&& futexCmdMask = Op.requeue ∨ opAndFlags &&& futexCmdMask = Op.cmpRequeue →
    ((waitersOn node s p opAndFlags a).length : Int) ≤ min maxToWake unblockListSize ∨
      (b ≠ a ∧ b ≠ 0#64)

theorem waitersOn_eq (p : Proc) (opAndFlags : Word) (a : Addr) : waitersOn node s p opAndFlags a =
      onAddress s (tableOf p (futexIsShared (node.process p) a opAndFlags), a) := rfl

variable {a b : Addr} {fuel : Nat} {maxToWake : Int} {opAndFlags : Word} {p : Proc}

theorem inv_futexWait (hfuel : numKThreads < fuel) (h : Inv node s)
    (ht : (s.kthreads t).blocked = false) (opAndFlags : Word) (ha : a ≠ 0#64) (val : Word)
    (timeout : BitVec 64) :
    ∃ s' rc, futexWait node fuel s t opAndFlags a val timeout = some (s', rc) ∧
      Inv node s' := by
  obtain ⟨Q, hQ⟩ := h
  unfold futexWait
  simp only
  split
  · exact ⟨s, _, rfl, Q, hQ⟩
  · generalize hshared : futexIsShared (node.process (node.pAppProc t)) a opAndFlags = isShared
    obtain ⟨s1, i, hfind, h1, haddr, -, hthreads, hunblocking⟩ :=
      hQ.find ht (tableOf (node.pAppProc t) isShared) a
    rw [← hthreads] at ht
    have hqueued := fun value => h1.enqueue ht (haddr.symm ▸ ha) rfl value timeout
    simp only [haddr] at hqueued
    simp only [hfind, h1.tailOf_eq hfuel]
    refine ⟨_, _, rfl, (hqueued _).inv ?_⟩
    exact (unblocking_setTail _ _ _ _).trans hunblocking

/-- What `futexWake` does to the queues of the addresses and which threads it takes off
them, in the order in which it unblocks them. -/
def wakeAddresses (A : TableId × Addr → List Tid) (x y : TableId × Addr) (moves wakes : Bool)
    (maxToWake maxToWake2 : Int) : (TableId × Addr → List Tid) × List Tid :=
  let k := (min maxToWake unblockListSize).toNat
  let first := (A x).take k
  let A := afterWake A x k (if moves then some y else none)
  let k2 := (min maxToWake2 (unblockListSize - first.length)).toNat
  if wakes then (dropFront A y k2, first ++ (A y).take k2) else (A, first)

/-- What a call of `futexWake` that is not refused does to the waiting threads. -/
def wakeOf (node : Node) (s : State) (p : Proc) (opAndFlags : Word) (a : Addr) (maxToWake : Int)
    (b : Addr) (maxToWake2 : Int) (value : Word) : (TableId × Addr → List Tid) × List Tid :=
  let op := opAndFlags &&& futexCmdMask
  let T := tableOf p (futexIsShared (node.process p) a opAndFlags)
  wakeAddresses (onAddress s) (T, a) (T, b) (op = Op.requeue ∨ op = Op.cmpRequeue)
    (op == Op.wakeOp && (wakeOp value (s.memory p b)).2) maxToWake maxToWake2

variable {A : TableId × Addr → List Tid} {T : TableId} {entry second : Option Slot} {l : List Tid}

section

variable (hfuel : numKThreads < fuel)
include hfuel

section

variable (hA : Shows s Q A) (hentry : ∀ i, entry = some i → s.vaddr (T, i) = a)
  (hnone : entry = none → A (T, a) = [] ∧ second = none)
include hA hentry hnone

theorem wakeQueue_shows (p : Proc) (maxToWake : Int)
    (h : Queued node s Q {q | second.map (T, ·) = some q} W)
    (hsecond : ∀ j, second = some j → s.vaddr (T, j) = b ∧
      (((A (T, a)).length : Int) ≤ maxToWake ∨ (b ≠ a ∧ b ≠ 0#64))) :
    ∃ s' Q', futexWakeQueue fuel s p (entry.map (T, ·)) maxToWake (second.map (T, ·)) =
        some (s', (A (T, a)).take maxToWake.toNat) ∧
      Queued node s' Q' ∅ (W ++ (A (T, a)).take maxToWake.toNat) ∧
      Shows s' Q' (afterWake A (T, a) maxToWake.toNat (second.map fun _ => (T, b))) ∧
      s'.unblocking = s.unblocking := by
  cases entry with
  | none =>
    obtain ⟨hnil, rfl⟩ := hnone rfl
    rw [afterWake_nil hnil, hnil, take_nil, append_nil]
    exact ⟨s, Q, rfl, by simpa using h, hA, rfl⟩
  | some i =>
    obtain rfl := hentry i rfl
    have hfirst : A (T, s.vaddr (T, i)) = Q (T, i) := hA.entry (T, i)
    have happly : ∀ q', second.map (T, ·) = some q' →
        ((Q (T, i)).length : Int) ≤ maxToWake ∨
          (q' ≠ (T, i) ∧ q'.1 = T ∧ s.vaddr q' ≠ 0#64) := by
      intro q' hq'
      obtain ⟨j, rfl, rfl⟩ := map_eq_some_iff.mp hq'
      obtain ⟨rfl, hleft⟩ := hsecond j rfl
      rw [hfirst] at hleft
      exact hleft.imp_right fun hapart => ⟨fun heq => hapart.1 (by rw [heq]), rfl, hapart.2⟩
    obtain ⟨s', hrun, hs', hvaddr, hunblocking⟩ :=
      h.wakeQueue hfuel p (T, i) maxToWake (second.map (T, ·)) happly
    have hshows := hA.afterWake (q := (T, i)) (k := maxToWake.toNat) h fun q' hq' =>
      (happly q' hq').imp (by omega) fun hapart => hapart.2.2
    have haddrs : (second.map (T, ·)).map (fun q' => (q'.1, s.vaddr q')) =
        second.map fun _ => (T, b) := by
      cases second with
      | none => rfl
      | some j => simp [(hsecond j rfl).1]
    rw [haddrs] at hshows
    rw [hfirst]
    exact ⟨s', _, hrun, hs', hshows.released hvaddr, hunblocking⟩

theorem wakeEntries_returns (p : Proc) {moves : Bool} (wakes : Bool)
    (maxToWake2 : Int) (h : Queued node s Q {q | second.map (T, ·) = some q} s.unblocking)
    (hsecond : ∀ j, second = some j → s.vaddr (T, j) = b ∧
      (((A (T, a)).length : Int) ≤ min maxToWake unblockListSize ∨ (b ≠ a ∧ b ≠ 0#64)))
    (hmoves : entry ≠ none → (second.map fun _ => (T, b)) = if moves then some (T, b) else none) :
    let w := wakeAddresses A (T, a) (T, b) moves wakes maxToWake maxToWake2
    ∃ s', wakeEntries fuel s p T entry second maxToWake wakes b maxToWake2 =
        some (s', .success w.2.length) ∧
      Inv node s' ∧ onAddress s' = w.1 ∧ s'.unblocking = s.unblocking ++ w.2 := by
  obtain ⟨s1, Q1, hfirst, h1, hA1, hunblocking1⟩ :=
    wakeQueue_shows hfuel hA hentry hnone p (min maxToWake unblockListSize) h hsecond
  have hafter : afterWake A (T, a) (min maxToWake unblockListSize).toNat
      (second.map fun _ => (T, b)) =
      afterWake A (T, a) (min maxToWake unblockListSize).toNat
        (if moves then some (T, b) else none) := by
    by_cases hentry : entry = none
    · rw [afterWake_nil (hnone hentry).1, afterWake_nil (hnone hentry).1]
    · rw [hmoves hentry]
  rw [hafter] at hA1
  simp only [wakeAddresses, wakeEntries, wakeSecondQueue, hfirst, find_not_allocate,
    bind_eq_bind, bind_some]
  generalize (A (T, a)).take (min maxToWake unblockListSize).toNat = first at *
  generalize afterWake A (T, a) (min maxToWake unblockListSize).toNat
    (if moves then some (T, b) else none) = A1 at *
  have hsame : ∀ {s2 : State} {Q2 ids}, Queued node s2 Q2 ∅ ids →
      Queued node { s2 with unblocking := ids } Q2 ∅ ids := fun h2 =>
    ⟨h2.chain, h2.free, h2.used, h2.distinct, h2.recorded, h2.blocked, h2.off, h2.timed, h2.nodup⟩
  cases wakes with
  | false =>
    simp only [false_eq_true, ↓reduceIte, bind_some, append_nil,
      length_nil, Nat.add_zero, hunblocking1]
    refine ⟨_, rfl, ⟨Q1, hsame h1⟩, ?_, rfl⟩
    exact h1.shows_onAddress.unique hA1
  | true =>
    obtain ⟨s2, Q2, hsecond, h2, hA2, hunblocking2⟩ :=
      wakeQueue_shows (b := b) hfuel hA1
        (fun i (hi : lookup s1 T b = some i) => vaddr_of_lookup hi)
        (fun hi => ⟨hA1.absent T b (vaddr_ne_of_lookup hi), rfl⟩) p
        (min maxToWake2 (unblockListSize - first.length))
        (by simpa using h1 : Queued node s1 Q1 {q | Option.none.map (T, ·) = some q} _) (by simp)
    rw [map_none] at hsecond
    simp only [↓reduceIte, hsecond, bind_some]
    refine ⟨_, by rw [length_append], ⟨Q2, ?_⟩, ?_, ?_⟩
    · simpa [hunblocking2, hunblocking1] using hsame h2
    · exact h2.shows_onAddress.unique hA2
    · rw [hunblocking2, hunblocking1]

end

theorem futexWake_returns (h : Inv node s) (ht : (s.kthreads t).blocked = false)
    (ha : opAndFlags &&& futexCmdMask = Op.requeue ∨ opAndFlags &&& futexCmdMask = Op.cmpRequeue →
      a ≠ 0#64) (hapart : RequeuesApart node s p opAndFlags a maxToWake b) (maxToWake2 : Int)
    (value : Word) (hvalue : opAndFlags &&& futexCmdMask = Op.cmpRequeue → s.memory p a = value) :
    let w := wakeOf node s p opAndFlags a maxToWake b maxToWake2 value
    ∃ s', futexWake node fuel s p opAndFlags a maxToWake b maxToWake2 value =
        some (s', .success w.2.length) ∧
      Inv node s' ∧ onAddress s' = w.1 ∧ s'.unblocking = s.unblocking ++ w.2 := by
  obtain ⟨Q, hQ⟩ := h
  unfold futexWake wakeOf
  simp only [find_not_allocate]
  rw [if_neg fun hrefused => hrefused.2 (hvalue hrefused.1)]
  rw [RequeuesApart, waitersOn_eq] at hapart
  generalize tableOf p (futexIsShared (node.process p) a opAndFlags) = T at *
  generalize (opAndFlags &&& futexCmdMask == Op.wakeOp &&
    (wakeOp value (s.memory p b)).2) = wakes
  generalize hs1 : (if opAndFlags &&& futexCmdMask = Op.wakeOp then
    Futex.store s p b (wakeOp value (s.memory p b)).1 else s) = s1
  have h1 : Queued node s1 Q ∅ s.unblocking ∧ s1.unblocking = s.unblocking ∧
      s1.kthreads = s.kthreads ∧ onAddress s1 = onAddress s := by
    subst hs1
    split
    · exact ⟨hQ.store p b _, rfl, rfl, rfl⟩
    · exact ⟨hQ, rfl, rfl, rfl⟩
  obtain ⟨h1, hunblocking, hthreads, hsame⟩ := h1
  rw [← hthreads] at ht
  rw [← hsame] at hapart ⊢
  rw [← hunblocking] at h1 ⊢
  have hA := h1.shows_onAddress
  split
  next hrequeues =>
    obtain ⟨i, hi⟩ := isSome_iff_exists.mp hrequeues.1
    obtain ⟨s2, j, hfind, h2, hvaddr, ⟨hkept, hsame2⟩, -, hunblocking2⟩ := h1.find ht T b
    have hvaddr1 := vaddr_of_lookup hi
    rw [← hsame2] at hapart ⊢
    rw [← hunblocking2] at h2 ⊢
    rw [hfind, hi]
    apply wakeEntries_returns hfuel h2.shows_onAddress ?_ ?_ p wakes maxToWake2
    · exact h2.mono fun q hq => congrArg some hq.symm
    · rintro j' ⟨⟩
      exact ⟨hvaddr, hapart hrequeues.2⟩
    · simp [hrequeues.2]
    · rintro i' ⟨⟩
      rw [hkept _ (hvaddr1 ▸ ha hrequeues.2), hvaddr1]
    · simp
  next hnot =>
    apply wakeEntries_returns hfuel hA (fun i hi => vaddr_of_lookup hi)
      (fun hnone => ⟨hA.absent T a (vaddr_ne_of_lookup hnone), rfl⟩) p wakes maxToWake2
    · exact h1.mono (Set.empty_subset _)
    · simp
    · intro hentry
      rw [decide_eq_false fun hop => hnot ⟨isSome_iff_ne_none.mpr hentry, hop⟩]
      rfl

theorem inv_futexWake (h : Inv node s) (ht : (s.kthreads t).blocked = false) (ha : a ≠ 0#64)
    (hapart : RequeuesApart node s p opAndFlags a maxToWake b) (maxToWake2 : Int) (value : Word) :
    ∃ s' rc, futexWake node fuel s p opAndFlags a maxToWake b maxToWake2 value = some (s', rc) ∧
      Inv node s' := by
  by_cases hrefused : opAndFlags &&& futexCmdMask = Op.cmpRequeue ∧ s.memory p a ≠ value
  · exact ⟨s, .failure .EAGAIN, by simp only [futexWake, if_pos hrefused], h⟩
  · obtain ⟨s', hrun, hs', -⟩ := futexWake_returns hfuel h ht (fun _ => ha) hapart maxToWake2
      value fun hop => by_contra fun hne => hrefused ⟨hop, hne⟩
    exact ⟨s', _, hrun, hs'⟩

end

def InOwnTable (node : Node) (s : State) (p : Proc) (t : Tid) : Prop :=
  p = node.pAppProc t ∨ (s.kthreads t).futexIsShared = true

theorem InOwnTable.tableOf_eq (h : InOwnTable node s p t) :
    tableOf p (s.kthreads t).futexIsShared = ownTable node s t := by
  rcases h with rfl | hshared
  · rfl
  · simp [ownTable, tableOf, hshared]

/-- The steps after which the queues can be relied on: requeues to another address;
timeouts and signals of a thread that waits on a private futex handled while its own
process is current; no signal for a thread that is being unblocked. -/
def Careful (node : Node) (s : State) : Event → Prop
  | .futex t r3 r4 r5 _ r7 _ _ =>
    RequeuesApart node s (node.pAppProc t) (r4.setWidth 32) r3 (r5.setWidth 32).toInt r7
  | .timer p t currentTime =>
    (s.kthreads t).futexTimeout ≠ 0#64 → (s.kthreads t).futexTimeout ≤ currentTime →
      InOwnTable node s p t
  | .signal p t => (s.kthreads t).blocked = true → t ∉ s.unblocking ∧ InOwnTable node s p t
  | .unblock _ => True
  | .store _ _ _ => True

theorem queued_initial (node : Node) (memory : Proc → Addr → Word) :
    Queued node (initial memory) (fun _ => []) ∅ [] := by
  constructor <;> simp [initial, State.head, State.vaddr]

theorem inv_abandon (hfuel : numKThreads < fuel) (h : Inv node s) (htable : InOwnTable node s p t)
    (hqueued : ∃ q, t ∈ waiters s q) (errno : Errno) :
    ∃ s', abandon errno fuel s p t = some s' ∧ Inv node s' := by
  obtain ⟨Q, hQ⟩ := h
  obtain ⟨q, hq⟩ := hqueued
  rw [hQ.waiters_eq] at hq
  obtain ⟨s', hrun, hs', hunblocking⟩ := hQ.abandon hfuel htable.tableOf_eq hq errno
  exact ⟨s', hrun, hs'.inv hunblocking⟩

theorem inv_scFutex (hfuel : numKThreads < fuel) (h : Inv node s)
    (ht : (s.kthreads t).blocked = false) {r3 r4 r5 r7 : BitVec 64}
    (hapart : RequeuesApart node s (node.pAppProc t) (r4.setWidth 32) r3 (r5.setWidth 32).toInt r7)
    (r6 r8 currentTime : BitVec 64) :
    ∃ s' rc, scFutex node fuel s t r3 r4 r5 r6 r7 r8 currentTime = some (s', rc) ∧
      Inv node s' := by
  unfold scFutex
  simp only
  split
  · exact ⟨s, _, rfl, h⟩
  rename_i hnot
  have ha : r3 ≠ 0#64 := by
    simp only [vmmIsAppAddress, not_eq_true, not_eq_false', and_eq_true,
      bne_iff_ne] at hnot
    exact hnot.1.1
  have hnotRequeue : ∀ {op : Word} {maxToWake : Int} {b : Addr},
      op = r4.setWidth 32 &&& futexCmdMask →
      op ≠ Op.requeue → op ≠ Op.cmpRequeue →
      RequeuesApart node s (node.pAppProc t) (r4.setWidth 32) r3 maxToWake b := by
    rintro op maxToWake b rfl h1 h2 (h | h)
    · exact absurd h h1
    · exact absurd h h2
  split
  · split
    · exact inv_futexWait hfuel h ht _ ha _ _
    split
    · exact ⟨s, _, rfl, h⟩
    · exact inv_futexWait hfuel h ht _ ha _ _
  split
  next hop =>
    exact inv_futexWake hfuel h ht ha
      (hnotRequeue rfl (by rw [hop]; decide) (by rw [hop]; decide)) _ _
  split
  next hop =>
    exact inv_futexWake hfuel h ht ha
      (hnotRequeue rfl (by rw [hop]; decide) (by rw [hop]; decide)) _ _
  split
  · exact inv_futexWake hfuel h ht ha hapart _ _
  · exact ⟨s, _, rfl, h⟩

theorem inv_step (hfuel : numKThreads < fuel) (h : Inv node s) (e : Event)
    (hcareful : Careful node s e) : ∃ s', step node fuel s e = some s' ∧ Inv node s' := by
  cases e with
  | futex t r3 r4 r5 r6 r7 r8 currentTime =>
    rw [step]
    split
    · exact ⟨s, rfl, h⟩
    next ht =>
      obtain ⟨s', rc, hrun, hs'⟩ :=
        inv_scFutex hfuel h (by simpa using ht) hcareful r6 r8 currentTime
      exact ⟨s', by rw [hrun]; rfl, hs'⟩
  | timer p t currentTime =>
    rw [step, futexCheckTimeout]
    split
    · exact ⟨s, rfl, h⟩
    split
    next hzero hexpired =>
      obtain ⟨Q, hQ⟩ := h
      have hwaits : ∃ q, t ∈ waiters s q := by
        simpa only [hQ.waiters_eq] using hQ.timed t hzero
      obtain ⟨s', hrun, hs'⟩ :=
        inv_abandon hfuel ⟨Q, hQ⟩ (hcareful hzero hexpired) hwaits .ETIMEDOUT
      exact ⟨s', by rw [futexTimeout, hrun]; rfl, hs'⟩
    · exact ⟨s, rfl, h⟩
  | signal p t =>
    rw [step]
    split
    next hblocked =>
      obtain ⟨hrunning, htable⟩ := hcareful hblocked
      obtain ⟨Q, hQ⟩ := h
      have hwaits : ∃ q, t ∈ waiters s q := by
        simpa only [hQ.waiters_eq] using ((hQ.blocked t).mp hblocked).resolve_left hrunning
      exact inv_abandon hfuel ⟨Q, hQ⟩ htable hwaits .EINTR
    · exact ⟨s, rfl, h⟩
  | unblock t =>
    rw [step]
    split
    next ht =>
      obtain ⟨Q, hQ⟩ := h
      exact ⟨_, rfl, (hQ.unblock ht).inv rfl⟩
    · exact ⟨s, rfl, h⟩
  | store p a v =>
    obtain ⟨Q, hQ⟩ := h
    exact ⟨_, rfl, (hQ.store p a v).inv rfl⟩

/-- What the futex calls rely on between them. A thread that a wake has taken off
its queue and has not unblocked yet is the only kind of blocked thread off the queues. -/
structure Sound (s : State) : Prop where
  finite : ∀ q, Chain s.next (s.head q) (waiters s q) ∧ (waiters s q).Nodup
  queued : ∀ t, (s.kthreads t).blocked = true → t ∉ s.unblocking → ∃! q, t ∈ waiters s q
  recorded : ∀ q, ∀ t ∈ waiters s q, (s.kthreads t).futexVAddr = s.vaddr q
  distinct : ∀ T i j, s.vaddr (T, i) ≠ 0#64 → s.vaddr (T, i) = s.vaddr (T, j) → i = j
  nonempty : ∀ q, s.vaddr q ≠ 0#64 → waiters s q ≠ []

theorem sound_of_inv (h : Inv node s) : Sound s := by
  obtain ⟨Q, hQ⟩ := h
  constructor
  case finite =>
    intro q
    rw [hQ.waiters_eq]
    exact ⟨hQ.chain q, (hQ.chain q).nodup⟩
  case queued =>
    intro t hblocked hnot
    simp only [hQ.waiters_eq]
    obtain ⟨q, hq⟩ := ((hQ.blocked t).mp hblocked).resolve_left hnot
    exact ⟨q, hq, fun q' hq' => hQ.unique hq' hq⟩
  case recorded =>
    intro q t ht
    rw [hQ.waiters_eq] at ht
    exact (hQ.recorded q t ht).1
  case distinct => exact hQ.distinct
  case nonempty =>
    intro q hq hnil
    rw [hQ.waiters_eq] at hnil
    exact (hQ.used q hnil).elim hq id

theorem inv_run {memory : Proc → Addr → Word} {es : List Event} (hfuel : numKThreads < fuel)
    (hcareful : RunMeets (step node fuel) (Careful node) (initial memory) es) :
    ∃ s, run (step node fuel) (initial memory) es = some s ∧ Inv node s :=
  exists_run_of_runMeets (fun _ e hs he => inv_step hfuel hs e he)
    ((queued_initial node memory).inv rfl) hcareful

/-- The first half of the threads belongs to process 0, the second half to process 1. -/
def twoProcesses : Node where
  process _ := ⟨(0x1000000#64, 0x1ffffff#64), (0x2000000#64, 0x2ffffff#64),
    (0x3000000#64, 0x3ffffff#64), (0x4000000#64, 0x4ffffff#64), (0x5000000#64, 0x5ffffff#64)⟩
  pAppProc t := if t < 204 then 0 else 1
  freqMHz := 1600#64

/-- Two threads wait on one address; a third wakes the first of them and moves the
other to a second address. -/
def requeueRun : List Event :=
  [.futex 0 0x3000000 0 0 0 0 0 100,
    .futex 1 0x3000000 0 0 0 0 0 100,
    .futex 2 0x3000000 3 1 0 0x3000040 0 100,
    .timer 0 1 200,
    .unblock 0]

theorem careful_requeueRun : ∀ e ∈ requeueRun, ∀ s, Careful twoProcesses s e := by
  simp only [requeueRun, forall_mem_cons]
  refine ⟨?_, ?_, ?_, ?_, ?_, by simp⟩
  · exact fun s hop => absurd hop (by decide)
  · exact fun s hop => absurd hop (by decide)
  · exact fun s _ => .inr (by decide)
  · exact fun s _ _ => .inl rfl
  · exact fun s => trivial

theorem readdress_loop (p : Proc) (a : Addr) (h : ∀ u ∈ l, ∃ v ∈ l, s.next u = some v)
    (ht : t ∈ l) :
    readdress p a fuel s (some t) = none := by
  induction fuel generalizing s t with
  | zero => rfl
  | succ fuel ih =>
    obtain ⟨v, hv, hnext⟩ := h t ht
    have hsame : (s.setThread t ((s.kthreads t).movedTo a (s.memory p a))).next = s.next := by
      rw [State.next_setThread]
      exact update_eq_self t s.next
    rw [readdress, hnext]
    exact ih (by rwa [hsame]) hv

/-- The queue that a requeue to its own address makes has no end. -/
theorem requeue_self (h : Queued node s Q idle W) (fuel : Nat) (p : Proc) (hQ : Q q = t :: l) :
    requeue fuel s p q q t = none := by
  obtain hnil | ⟨m, b, hconcat⟩ := eq_nil_or_concat' (Q q)
  · rw [hnil] at hQ
    cases hQ
  have hchain := h.chain q
  have hhead : s.head q = some t := by
    rw [hQ] at hchain
    exact hchain.1
  rw [hhead, hconcat] at hchain
  simp only [requeue, tailOf, hhead]
  rcases hchain.lastFrom_eq_or fuel with hnone | hlast
  · rw [hnone]
    rfl
  · have ht : t ∈ m ++ [b] := by rw [← hconcat, hQ]; simp
    rw [hlast]
    apply readdress_loop (l := m ++ [b]) p _ _ ht
    intro u hu
    simpa [setTail] using hchain.exists_next_of_join ht hu

theorem wakeLoop_self {n : Nat} (p : Proc) (awoken : List Tid)
    (h : Queued node s Q idle (W ++ awoken)) (hQ : Q q ≠ [])
    (hleft : maxToWake < awoken.length + (Q q).length) :
    wakeLoop fuel p q maxToWake (some q) n s awoken = none := by
  induction n generalizing s Q idle awoken with
  | zero => rfl
  | succ n ih =>
    obtain ⟨t, l, hcons⟩ := exists_cons_of_ne_nil hQ
    have hchain := h.chain q
    rw [hcons] at hchain hleft
    simp only [length_cons, Int.natCast_add, Int.natCast_one] at hleft
    rw [wakeLoop, hchain.1]
    simp only
    split
    · have hawoken := h.awaken hcons
      rw [append_assoc] at hawoken
      have hl : update Q q l q = l := update_self ..
      apply ih _ hawoken
      · rw [hl, ← length_pos_iff_ne_nil]
        omega
      · rw [hl]
        simp only [length_append, length_singleton]
        omega
    · simp [requeue_self h fuel p hcons]

/-- A requeue of waiters to their own address never ends. -/
theorem futexWake_requeue_self (fuel : Nat) (h : Inv node s) (maxToWake2 : Int) {value : Word}
    (hop : opAndFlags &&& futexCmdMask = Op.requeue ∨
      (opAndFlags &&& futexCmdMask = Op.cmpRequeue ∧ s.memory p a = value))
    (hleft : (min maxToWake unblockListSize).toNat < (waitersOn node s p opAndFlags a).length) :
    futexWake node fuel s p opAndFlags a maxToWake a maxToWake2 value = none := by
  obtain ⟨Q, hQ⟩ := h
  have hrequeues : opAndFlags &&& futexCmdMask = Op.requeue ∨
      opAndFlags &&& futexCmdMask = Op.cmpRequeue := hop.imp_right And.left
  have hops : Op.requeue ≠ Op.cmpRequeue ∧ Op.requeue ≠ Op.wakeOp ∧ Op.cmpRequeue ≠ Op.wakeOp := by
    decide
  have hwakeOp : opAndFlags &&& futexCmdMask ≠ Op.wakeOp := by
    rcases hrequeues with heq | heq
    · rw [heq]
      exact hops.2.1
    · rw [heq]
      exact hops.2.2
  rw [futexWake, if_neg (by
    rintro ⟨hcmp, hne⟩
    rcases hop with heq | heq
    · exact hops.1 (heq.symm.trans hcmp)
    · exact hne heq.2)]
  rw [waitersOn_eq] at hleft
  generalize tableOf p (futexIsShared (node.process p) a opAndFlags) = T at *
  cases hlookup : lookup s T a with
  | none =>
    rw [hQ.shows_onAddress.absent T a (vaddr_ne_of_lookup hlookup)] at hleft
    simp at hleft
  | some i =>
    obtain rfl := vaddr_of_lookup hlookup
    rw [hQ.shows_onAddress.entry (T, i)] at hleft
    have hself : wakeLoop fuel p (T, i) (min maxToWake unblockListSize) (some (T, i)) fuel s [] =
        none := wakeLoop_self p [] (by simpa using hQ)
      (length_pos_iff_ne_nil.mp (by omega)) (by simp only [length_nil]; omega)
    simp only [if_neg hwakeOp, futexFindTableEntry, hlookup, wakeEntries, map_some,
      futexWakeQueue, hself]
    simp [hrequeues]

theorem futexWait_initial (node : Node) (fuel : Nat) (memory : Proc → Addr → Word) (t : Tid)
    (opAndFlags : Word) (a : Addr) (ha : a ≠ 0#64) (timeout : BitVec 64) :
    ∃ s i, futexWait node fuel (initial memory) t opAndFlags a (memory (node.pAppProc t) a)
        timeout = some (s, .success 0) ∧
      s.vaddr (tableOf (node.pAppProc t)
        (futexIsShared (node.process (node.pAppProc t)) a opAndFlags), i) = a ∧
      Queued node s (update (fun _ => []) (tableOf (node.pAppProc t)
        (futexIsShared (node.process (node.pAppProc t)) a opAndFlags), i) [t]) ∅ [] ∧
      s.unblocking = [] := by
  generalize hshared : futexIsShared (node.process (node.pAppProc t)) a opAndFlags = isShared
  obtain ⟨s1, i, hfind, h1, haddr, -, hthreads, hunblocking⟩ :=
    (queued_initial node memory).find (t := t) rfl (tableOf (node.pAppProc t) isShared) a
  have ht : (s1.kthreads t).blocked = false := by
    rw [hthreads]
    rfl
  have hqueued := fun value => h1.enqueue ht (haddr.symm ▸ ha) rfl value timeout
  simp only [haddr, nil_append, getLast?_nil] at hqueued
  have htail : tailOf fuel s1 (tableOf (node.pAppProc t) isShared, i) = some none := by
    rw [tailOf, h1.head_eq_none_iff.mpr rfl]
  refine ⟨_, i, ?_, ?_, hqueued (s1.memory (node.pAppProc t) a), hunblocking⟩
  · simp only [futexWait, hshared, hfind, htail]
    rw [if_neg (by simp [initial])]
    rfl
  · simpa [schedBlock, setTail] using haddr

def selfRequeueRun : List Event :=
  [.futex 0 0x3000000 0 0 0 0 0 100, .futex 1 0x3000000 3 0 0 0x3000000 0 100]

end BgqDriver.FutexRuns
