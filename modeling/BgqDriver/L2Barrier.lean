import BgqDriver.EventRuns

/-!
The barrier on two counters in the L2 cache (`spi/include/l2/barrier.h`):
`L2_Barrier` and `L2_BarrierWithTicket`. A call is taken apart into its accesses to
the counters, which the threads perform in any order.
-/

namespace BgqDriver.L2Barrier

open Function

/-- Where a thread is. A call with a ticket is one of `L2_BarrierWithTicket`; `start`
and `count` are the values that the call has read. -/
inductive Phase
  | idle
  | entered (withTicket : Bool)
  | loaded (withTicket : Bool) (start : BitVec 64)
  /-- The increment of `L2_Barrier` was performed before its load of `start`. -/
  | early (count : BitVec 64)
  | counted (withTicket : Bool) (start count : BitVec 64)
  | waiting (withTicket : Bool) (start count : BitVec 64)
  | done (withTicket : Bool) (start count : BitVec 64)
  deriving DecidableEq

/-- The barrier, its `n` threads, and what their calls have returned: the number of
calls each thread has returned from and the tickets it got, indexed from 1. -/
structure State (n : Nat) where
  start : BitVec 64
  count : BitVec 64
  phase : Fin n → Phase
  returns : Fin n → Nat
  tickets : Fin n → Nat → Option (BitVec 32)

variable {n : Nat}

/-- `L2_BARRIER_INITIALIZER`, before any call. -/
def init (n : Nat) : State n where
  start := 0
  count := 0
  phase _ := .idle
  returns _ := 0
  tickets _ _ := none

/-- The calls that the thread has made -/
def State.calls (s : State n) (t : Fin n) : Nat :=
  s.returns t + if s.phase t = .idle then 0 else 1

def State.move (s : State n) (t : Fin n) (phase : Phase) : State n :=
  { s with phase := update s.phase t phase }

inductive Label (n : Nat)
  | call (t : Fin n) (withTicket : Bool)
  | loadStart (t : Fin n)
  | loadIncrement (t : Fin n)
  | compare (t : Fin n)
  | poll (t : Fin n)
  | ret (t : Fin n)

/-- One access of one thread. The two loads of `L2_Barrier` are not ordered; those of
`L2_BarrierWithTicket` are, by `ppc_msync`. -/
def step (s : State n) : Label n → Option (State n)
  | .call t withTicket =>
    match s.phase t with
    | .idle => some (s.move t (.entered withTicket))
    | _ => none
  | .loadStart t =>
    match s.phase t with
    | .entered withTicket => some (s.move t (.loaded withTicket s.start))
    | .early count => some (s.move t (.counted false s.start count))
    | _ => none
  | .loadIncrement t =>
    match s.phase t with
    | .loaded withTicket start =>
      some { s.move t (.counted withTicket start s.count) with count := s.count + 1 }
    | .entered false => some { s.move t (.early s.count) with count := s.count + 1 }
    | _ => none
  | .compare t =>
    match s.phase t with
    | .counted withTicket start count =>
      let target := start + BitVec.ofNat 64 n
      let current := count + 1
      if current = target then
        some { s.move t (.done withTicket start count) with start := current }
      else
        some (s.move t (.waiting withTicket start count))
    | _ => none
  | .poll t =>
    match s.phase t with
    | .waiting withTicket start count =>
      if s.start < count + 1 then some s
      else some (s.move t (.done withTicket start count))
    | _ => none
  | .ret t =>
    match s.phase t with
    | .done withTicket start count =>
      let ticket := if withTicket then some ((count - start).setWidth 32) else none
      some { s.move t .idle with
        returns := update s.returns t (s.returns t + 1)
        tickets := update s.tickets t
          (update (s.tickets t) (s.returns t + 1) ticket) }
    | _ => none

end BgqDriver.L2Barrier
