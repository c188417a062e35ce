import Mathlib
import BgqDriver.EventRuns

/-!
The three-state global interrupt barrier of the message unit. Every node owns a
control register, the status register each node reads is the OR of all control
registers, and software rotates the pattern `100`, `010`, `001`.
-/

namespace BgqDriver.GIBarrier

open EventRuns Function List

/-- `MUSPI_GIBARRIER_INITIAL_STATE`. -/
def initialState : BitVec 64 := 0x4

def nextPattern (state : BitVec 64) : BitVec 64 :=
  let pattern := state >>> 1
  if pattern = 0#64 then initialState else pattern

/-- The arguments and locals of a `giBarrierPollWithTimeout` call that has not
returned yet. -/
structure PollLoop where
  state : BitVec 64
  startTime : BitVec 64
  timeoutInCycles : BitVec 64
  deriving DecidableEq

/-- What one node contributes: its control register, the `state` field of its
`MUSPI_GIBarrier_t`, and the timed poll it is inside, if any. -/
structure Node where
  controlReg : BitVec 64
  state : BitVec 64
  polling : Option PollLoop
  deriving DecidableEq

/-- `MUSPI_GIBarrierInit` on a node whose control register holds `controlReg`. -/
def giBarrierInit (controlReg : BitVec 64) : Node where
  controlReg := controlReg
  state := controlReg &&& 0x7
  polling := none

/-- `MUSPI_GIBarrierEnter`. -/
def giBarrierEnter (node : Node) : Node :=
  { node with controlReg := nextPattern node.state }

/-- `MUSPI_GIBarrierPoll` with the status register value it reads; the return
code is 0 on completion and -1 otherwise. -/
def giBarrierPoll (node : Node) (statusRegValue : BitVec 64) : Node × Int :=
  if statusRegValue &&& node.state ≠ 0#64 then (node, -1)
  else ({ node with state := nextPattern node.state }, 0)

/-- The part of `MUSPI_GIBarrierPollWithTimeout` before its loop. -/
def giBarrierPollWithTimeout (node : Node) (timeoutInCycles timeBase : BitVec 64) : Node :=
  let loop : PollLoop :=
    { state := node.state, startTime := timeBase, timeoutInCycles := timeoutInCycles }
  { node with polling := some loop }

/-- One iteration of the timed poll: the status read, and the time base read
that decides about the next iteration. The return code is there once the call
returns. -/
def pollWithTimeoutIteration (node : Node) (loop : PollLoop)
    (statusRegValue timeBase : BitVec 64) : Node × Option Int :=
  if statusRegValue &&& loop.state = 0#64 then
    ({ node with state := nextPattern loop.state, polling := none }, some 0)
  else if timeBase - loop.startTime < loop.timeoutInCycles then (node, none)
  else ({ node with polling := none }, some (-1))

variable {n : Nat}

/-- The status register: the OR of the control registers of all nodes. -/
def statusReg (nodes : Fin n → Node) : BitVec 64 :=
  (finRange n).foldl (fun status i => status ||| (nodes i).controlReg) 0#64

/-- One step of one node, labelled with what the caller observes. A timed poll
is one `timedPoll` label and one `timedRead` label for each status read, so
other nodes may run between two of its reads. -/
inductive Label (n : Nat) where
  | enter (i : Fin n)
  | poll (i : Fin n) (rc : Int)
  | timedPoll (i : Fin n) (timeoutInCycles timeBase : BitVec 64)
  | timedRead (i : Fin n) (timeBase : BitVec 64) (rc : Option Int)
  deriving DecidableEq

/-- A node makes one call at a time: inside a timed poll it only iterates. -/
def step (nodes : Fin n → Node) : Label n → Option (Fin n → Node)
  | .enter i =>
    if (nodes i).polling = none then
      some (update nodes i (giBarrierEnter (nodes i)))
    else none
  | .poll i rc =>
    let r := giBarrierPoll (nodes i) (statusReg nodes)
    if (nodes i).polling = none ∧ rc = r.2 then some (update nodes i r.1) else none
  | .timedPoll i timeout timeBase =>
    if (nodes i).polling = none then
      some (update nodes i (giBarrierPollWithTimeout (nodes i) timeout timeBase))
    else none
  | .timedRead i timeBase rc =>
    match (nodes i).polling with
    | none => none
    | some loop =>
      let r := pollWithTimeoutIteration (nodes i) loop (statusReg nodes) timeBase
      if rc = r.2 then some (update nodes i r.1) else none

def initial (n : Nat) (pattern : BitVec 64) : Fin n → Node :=
  fun _ => giBarrierInit pattern

/-- The step tells node `i` that its round is complete. -/
def Label.completes (i : Fin n) : Label n → Bool
  | .poll j rc => j = i && rc = 0
  | .timedRead j _ rc => j = i && rc = some 0
  | _ => false

/-- How many rounds node `i` has seen complete; its next poll is for the round
of that number. -/
def observed (history : List (Label n)) (i : Fin n) : Nat :=
  history.countP (Label.completes i)

/-- Node `i` called `giBarrierEnter` while its current round was `k`. -/
def HasEntered (history : List (Label n)) (i : Fin n) (k : Nat) : Prop :=
  ∃ before after, history = before ++ .enter i :: after ∧ observed before i = k

/-- The bit of round `k` -/
def roundPattern (pattern : BitVec 64) (k : Nat) : BitVec 64 := nextPattern^[k] pattern

/-- One of the three bits that are rotated -/
def IsPattern (pattern : BitVec 64) : Prop :=
  pattern = 0x4 ∨ pattern = 0x2 ∨ pattern = 0x1

theorem roundPattern_succ (pattern : BitVec 64) (k : Nat) :
    roundPattern pattern (k + 1) = nextPattern (roundPattern pattern k) :=
  iterate_succ_apply' nextPattern k pattern

theorem roundPattern_mod {pattern : BitVec 64} (hpattern : IsPattern pattern) (k : Nat) :
    roundPattern pattern k = roundPattern pattern (k % 3) := by
  have hperiod : nextPattern^[3] pattern = pattern := by
    rcases hpattern with rfl | rfl | rfl <;> decide
  conv_lhs => rw [← Nat.mod_add_div k 3]
  unfold roundPattern
  rw [iterate_add_apply, iterate_mul]
  exact congrArg _ (iterate_fixed hperiod _)

theorem roundPattern_and_eq_zero_iff {pattern : BitVec 64} (hpattern : IsPattern pattern)
    (j k : Nat) : roundPattern pattern j &&& roundPattern pattern k = 0#64 ↔ j % 3 ≠ k % 3 := by
  rw [roundPattern_mod hpattern j, roundPattern_mod hpattern k]
  have hj : j % 3 < 3 := Nat.mod_lt _ (by decide)
  have hk : k % 3 < 3 := Nat.mod_lt _ (by decide)
  generalize j % 3 = a at hj
  generalize k % 3 = b at hk
  rcases hpattern with rfl | rfl | rfl <;> interval_cases a <;> interval_cases b <;> decide

theorem statusReg_and_eq_zero_iff (nodes : Fin n → Node) (m : BitVec 64) :
    statusReg nodes &&& m = 0#64 ↔ ∀ i, (nodes i).controlReg &&& m = 0#64 := by
  have hfold : ∀ (l : List (Fin n)) (acc : BitVec 64),
      l.foldl (fun status i => status ||| (nodes i).controlReg) acc &&& m = 0#64 ↔
        acc &&& m = 0#64 ∧ ∀ i ∈ l, (nodes i).controlReg &&& m = 0#64 := by
    intro l
    induction l with
    | nil => simp
    | cons i l ih =>
      intro acc
      rw [foldl_cons, ih, BitVec.and_comm, BitVec.and_or_distrib_left, BitVec.or_eq_zero_iff,
        BitVec.and_comm m, BitVec.and_comm m]
      simp [and_assoc]
  rw [statusReg, hfold]
  simp

theorem observed_concat (history : List (Label n)) (label : Label n) (i : Fin n) :
    observed (history ++ [label]) i =
      observed history i + if label.completes i then 1 else 0 := by
  simp [observed, countP_append, countP_singleton]

theorem hasEntered_concat (history : List (Label n)) (label : Label n) (i : Fin n) (k : Nat) :
    HasEntered (history ++ [label]) i k ↔
      HasEntered history i k ∨ (label = .enter i ∧ observed history i = k) := by
  constructor
  · rintro ⟨before, after, heq, hk⟩
    rcases eq_nil_or_concat after with rfl | ⟨after, last, rfl⟩
    · obtain ⟨rfl, hlabel⟩ := append_inj' heq rfl
      exact .inr ⟨by simpa using hlabel, hk⟩
    · refine .inl ⟨before, after, ?_, hk⟩
      have heq' : history ++ [label] = (before ++ .enter i :: after) ++ [last] := by
        simpa using heq
      exact (append_inj' heq' rfl).1
  · rintro (⟨before, after, rfl, hk⟩ | ⟨rfl, hk⟩)
    · exact ⟨before, after ++ [label], by simp, hk⟩
    · exact ⟨history, [], rfl, hk⟩

variable {label : Label n} {i : Fin n}

/-- Everything a step can do: enter a barrier, report a completion, or change
nothing but the local variables of a timed poll. -/
theorem step_cases {nodes nodes' : Fin n → Node} (hstep : step nodes label = some nodes') :
    (∃ i, label = .enter i ∧ nodes' = update nodes i (giBarrierEnter (nodes i))) ∨
    (∃ i state, (∀ j, label.completes j = decide (i = j)) ∧ (∀ j, label ≠ .enter j) ∧
      (state = (nodes i).state ∨ ∃ loop, (nodes i).polling = some loop ∧ state = loop.state) ∧
      statusReg nodes &&& state = 0#64 ∧
      nodes' = update nodes i
        { nodes i with state := nextPattern state, polling := none }) ∨
    (∃ i polling, (∀ j, label.completes j = false) ∧ (∀ j, label ≠ .enter j) ∧
      (∀ loop, polling = some loop →
        (nodes i).polling = some loop ∨ loop.state = (nodes i).state) ∧
      nodes' = update nodes i { nodes i with polling := polling }) := by
  revert hstep
  fun_cases step nodes label <;> rintro ⟨⟩
  case case1 i _ => exact .inl ⟨i, rfl, rfl⟩
  case case3 i rc r hguard =>
    obtain ⟨hidle, rfl⟩ := hguard
    right
    by_cases hclear : statusReg nodes &&& (nodes i).state = 0#64
    · left
      refine ⟨i, (nodes i).state, ?_, by simp, .inl rfl, hclear, ?_⟩
      · simp [Label.completes, r, giBarrierPoll, hclear]
      · simp [r, giBarrierPoll, hclear, ← hidle]
    · right
      refine ⟨i, (nodes i).polling, ?_, by simp, by simp +contextual, ?_⟩
      · simp [Label.completes, r, giBarrierPoll, hclear]
      · simp [r, giBarrierPoll, hclear]
  case case5 i timeout timeBase _ =>
    refine .inr (.inr ⟨i, (giBarrierPollWithTimeout (nodes i) timeout timeBase).polling,
      by simp [Label.completes], by simp, ?_, rfl⟩)
    intro loop hloop
    cases hloop
    exact .inr rfl
  case case8 i timeBase loop hloop r =>
    right
    by_cases hclear : statusReg nodes &&& loop.state = 0#64
    · left
      refine ⟨i, loop.state, ?_, by simp, .inr ⟨loop, hloop, rfl⟩, hclear, ?_⟩
      · simp [Label.completes, r, pollWithTimeoutIteration, hclear]
      · simp [r, pollWithTimeoutIteration, hclear]
    · right
      by_cases htime : timeBase - loop.startTime < loop.timeoutInCycles
      · refine ⟨i, (nodes i).polling, ?_, by simp, by simp +contextual, ?_⟩
        · simp [Label.completes, r, pollWithTimeoutIteration, hclear, htime]
        · simp [r, pollWithTimeoutIteration, hclear, htime]
      · refine ⟨i, none, ?_, by simp, by simp, ?_⟩
        · simp [Label.completes, r, pollWithTimeoutIteration, hclear, htime]
        · simp [r, pollWithTimeoutIteration, hclear, htime]

/-- The registers after `history`, where node `i` has entered the rounds below
`entered i`. No node has seen a round complete that some node has not entered. -/
structure Progress (pattern : BitVec 64) (history : List (Label n))
    (nodes : Fin n → Node) (entered : Fin n → Nat) : Prop where
  entered_iff : ∀ i k, HasEntered history i k ↔ k < entered i
  state_eq : ∀ i, (nodes i).state = roundPattern pattern (observed history i)
  control_eq : ∀ i, (nodes i).controlReg = roundPattern pattern (entered i)
  polling_eq : ∀ i loop, (nodes i).polling = some loop → loop.state = (nodes i).state
  entered_le : ∀ i, entered i ≤ observed history i + 1
  observed_le : ∀ i j, observed history i ≤ entered j

section Progress

variable {pattern : BitVec 64} {history : List (Label n)} {nodes : Fin n → Node}
  {entered : Fin n → Nat}

theorem progress_initial (hpattern : IsPattern pattern) :
    Progress pattern [] (initial n pattern) fun _ => 0 where
  entered_iff i k := by simp [HasEntered]
  state_eq i := by
    rcases hpattern with rfl | rfl | rfl <;> rfl
  control_eq i := rfl
  polling_eq i loop h := by cases h
  entered_le i := Nat.zero_le _
  observed_le i j := Nat.zero_le _

section

variable (hprogress : Progress pattern history nodes entered)
include hprogress

theorem Progress.lt_entered_of_clear
    (hpattern : IsPattern pattern) (hclear : statusReg nodes &&& (nodes i).state = 0#64)
    (j : Fin n) :
    observed history i < entered j := by
  have hle := hprogress.observed_le i j
  have hj := (statusReg_and_eq_zero_iff nodes _).mp hclear j
  rw [hprogress.control_eq, hprogress.state_eq, roundPattern_and_eq_zero_iff hpattern] at hj
  omega

theorem Progress.clear_of_lt_entered
    (hpattern : IsPattern pattern) {k : Nat} (hentered : ∀ j, k < entered j)
    (hi : observed history i ≤ k) : statusReg nodes &&& roundPattern pattern k = 0#64 := by
  rw [statusReg_and_eq_zero_iff]
  intro j
  rw [hprogress.control_eq, roundPattern_and_eq_zero_iff hpattern]
  -- all control registers are at most two rounds past `k`, so none wraps onto its bit
  have h1 := hentered j
  have h2 := hprogress.entered_le j
  have h3 := hprogress.observed_le j i
  have h4 := hprogress.entered_le i
  omega

-- A step changes one node; what the invariant says of the others is as before.
theorem Progress.set {node : Node} {entered' : Fin n → Nat}
    (hothers : ∀ j, j ≠ i → label.completes j = false ∧ entered' j = entered j)
    (hentered : ∀ j k, HasEntered (history ++ [label]) j k ↔ k < entered' j)
    (hstate : node.state = roundPattern pattern (observed (history ++ [label]) i))
    (hcontrol : node.controlReg = roundPattern pattern (entered' i))
    (hpolling : ∀ loop, node.polling = some loop → loop.state = node.state)
    (hgrows : entered i ≤ entered' i) (hle : entered' i ≤ observed (history ++ [label]) i + 1)
    (hobserved : ∀ j, observed (history ++ [label]) i ≤ entered' j) :
    Progress pattern (history ++ [label]) (update nodes i node) entered' := by
  have hold : ∀ j, j ≠ i → observed (history ++ [label]) j = observed history j := by
    intro j hj
    rw [observed_concat, (hothers j hj).1]
    rfl
  refine ⟨hentered, ?_, ?_, ?_, ?_, ?_⟩
  · refine (forall_update_iff nodes fun j x => x.state = _).mpr ⟨hstate, fun j hj => ?_⟩
    rw [hold j hj, hprogress.state_eq]
  · refine (forall_update_iff nodes fun j x => x.controlReg = _).mpr ⟨hcontrol, fun j hj => ?_⟩
    rw [(hothers j hj).2, hprogress.control_eq]
  · exact (forall_update_iff nodes
      fun _ x => ∀ loop, x.polling = some loop → loop.state = x.state).mpr
        ⟨hpolling, fun j _ => hprogress.polling_eq j⟩
  · intro j
    rcases eq_or_ne j i with rfl | hj
    · exact hle
    · rw [hold j hj, (hothers j hj).2]
      exact hprogress.entered_le j
  · intro j l
    have hj := hprogress.observed_le j l
    rcases eq_or_ne j i with rfl | hne
    · exact hobserved l
    · rw [hold j hne]
      rcases eq_or_ne l i with rfl | hl
      · omega
      · exact (hothers l hl).2 ▸ hj

theorem progress_enter (i : Fin n) : Progress pattern (history ++ [.enter i])
      (update nodes i (giBarrierEnter (nodes i)))
      (update entered i (observed history i + 1)) := by
  have hle := hprogress.observed_le i i
  have hentered := hprogress.entered_le i
  have hobserved : observed (history ++ [.enter i]) i = observed history i := by
    simp [observed_concat, Label.completes]
  refine hprogress.set (fun j hj => ⟨rfl, update_of_ne hj ..⟩) ?_ (hobserved ▸ hprogress.state_eq i)
    ?_ (hprogress.polling_eq i) ?_ ?_ ?_
  · intro j k
    rw [hasEntered_concat, hprogress.entered_iff]
    rcases eq_or_ne j i with rfl | hj
    · simp only [true_and, update_self]
      omega
    · simp [hj, hj.symm]
  · simp [giBarrierEnter, hprogress.state_eq, roundPattern_succ]
  · simpa using hentered
  · simp [hobserved]
  · refine (forall_update_iff entered fun _ x => _ ≤ x).mpr ⟨by omega, fun j _ => ?_⟩
    exact hobserved ▸ hprogress.observed_le i j

theorem progress_complete
    (hpattern : IsPattern pattern) (hcompletes : ∀ j, label.completes j = decide (i = j))
    (hlabel : ∀ j, label ≠ .enter j) (hclear : statusReg nodes &&& (nodes i).state = 0#64) :
    Progress pattern (history ++ [label])
      (update nodes i
        { nodes i with state := nextPattern (nodes i).state, polling := none }) entered := by
  have hlt := hprogress.lt_entered_of_clear hpattern hclear
  have hobserved : observed (history ++ [label]) i = observed history i + 1 := by
    simp [observed_concat, hcompletes]
  have hle := hprogress.entered_le i
  refine hprogress.set (fun j hj => ⟨by simp [hcompletes, hj.symm], rfl⟩) ?_ ?_
    (hprogress.control_eq i)
    (by simp) le_rfl (by omega) ?_
  · intro j k
    rw [hasEntered_concat, ← hprogress.entered_iff]
    simp [hlabel]
  · simp [hobserved, hprogress.state_eq, roundPattern_succ]
  · rw [hobserved]
    exact hlt

theorem progress_silent {polling : Option PollLoop} (hcompletes : ∀ j, label.completes j = false)
    (hlabel : ∀ j, label ≠ .enter j) (hpolling : ∀ loop, polling = some loop →
      (nodes i).polling = some loop ∨ loop.state = (nodes i).state) :
    Progress pattern (history ++ [label])
      (update nodes i { nodes i with polling := polling }) entered := by
  have hobserved : observed (history ++ [label]) i = observed history i := by
    simp [observed_concat, hcompletes]
  refine hprogress.set (fun j _ => ⟨hcompletes j, rfl⟩) ?_ (hobserved ▸ hprogress.state_eq i)
    (hprogress.control_eq i) ?_ le_rfl (hobserved ▸ hprogress.entered_le i)
    (hobserved ▸ hprogress.observed_le i)
  · intro j k
    rw [hasEntered_concat, ← hprogress.entered_iff]
    simp [hlabel]
  · intro loop hloop
    exact (hpolling loop hloop).elim (hprogress.polling_eq i loop) id

end

/-- The run lemma: the registers of every reachable state are those of some
assignment of entered rounds. -/
theorem exists_progress_of_run (hpattern : IsPattern pattern)
    (hrun : run step (initial n pattern) history = some nodes) :
    ∃ entered, Progress pattern history nodes entered := by
  refine run_invariant (fun history nodes => ∃ entered, Progress pattern history nodes entered)
    ⟨_, progress_initial hpattern⟩ ?_ hrun
  rintro history nodes label nodes' - ⟨entered, hprogress⟩ hstep
  rcases step_cases hstep with ⟨i, rfl, rfl⟩ |
    ⟨i, state, hcompletes, hlabel, hstate, hclear, rfl⟩ |
    ⟨i, polling, hcompletes, hlabel, hpolling, rfl⟩
  · exact ⟨_, progress_enter hprogress i⟩
  · obtain rfl : state = (nodes i).state := by
      rcases hstate with rfl | ⟨loop, hloop, rfl⟩
      · rfl
      · exact hprogress.polling_eq i loop hloop
    exact ⟨_, progress_complete hprogress hpattern hcompletes hlabel hclear⟩
  · exact ⟨_, progress_silent hprogress hcompletes hlabel hpolling⟩

end Progress

/-- Safety of the rotating barrier, after any history of any number of nodes.
Node `i` polls the bit of the round it is in; a poll that reports completion of
a round finds every node in it; no node is more than one round ahead of another,
neither in the rounds seen complete nor in the rounds entered; and the bit of a
round that all nodes have entered is clear as long as some node has yet to see
that round complete. -/
theorem giBarrier_rounds {pattern : BitVec 64} (hpattern : IsPattern pattern)
    {history : List (Label n)} {nodes : Fin n → Node}
    (hrun : run step (initial n pattern) history = some nodes) :
    (∀ i, (nodes i).state = roundPattern pattern (observed history i)) ∧
    (∀ i label nodes', step nodes label = some nodes' → label.completes i = true →
      ∀ j, HasEntered history j (observed history i)) ∧
    (∀ i j, observed history i ≤ observed history j + 1) ∧
    (∀ i j k, HasEntered history i (k + 1) → HasEntered history j k) ∧
    (∀ k, (∀ j, HasEntered history j k) → (∃ i, observed history i ≤ k) →
      statusReg nodes &&& roundPattern pattern k = 0#64) := by
  obtain ⟨entered, hprogress⟩ := exists_progress_of_run hpattern hrun
  refine ⟨hprogress.state_eq, ?_, ?_, ?_, ?_⟩
  · intro i label nodes' hstep hcompletes j
    rw [hprogress.entered_iff]
    rcases step_cases hstep with ⟨i', rfl, -⟩ |
      ⟨i', state, hlabel, -, hstate, hclear, -⟩ | ⟨i', polling, hlabel, -, -, -⟩
    · simp [Label.completes] at hcompletes
    · obtain rfl : i' = i := by simpa [hlabel] using hcompletes
      obtain rfl : state = (nodes i').state := by
        rcases hstate with rfl | ⟨loop, hloop, rfl⟩
        · rfl
        · exact hprogress.polling_eq i' loop hloop
      exact hprogress.lt_entered_of_clear hpattern hclear j
    · simp [hlabel] at hcompletes
  · intro i j
    exact (hprogress.observed_le i j).trans (hprogress.entered_le j)
  · intro i j k hi
    rw [hprogress.entered_iff] at hi ⊢
    have h1 := hprogress.entered_le i
    have h2 := hprogress.observed_le i j
    omega
  · rintro k hentered ⟨i, hi⟩
    refine hprogress.clear_of_lt_entered hpattern (fun j => ?_) hi
    exact (hprogress.entered_iff j k).mp (hentered j)

/-- Two nodes, the second polling with a timeout: the first read comes before the
other node enters and the second read completes the round. -/
theorem giBarrier_rounds_two_nodes : ∃ (history : List (Label 2)) (nodes : Fin 2 → Node),
      history = [.enter 1, .timedPoll 1 100 0, .timedRead 1 7 none, .enter 0,
        .timedRead 1 9 (some 0), .poll 0 0] ∧
      run step (initial 2 0x4) history = some nodes ∧
      ∀ i j, observed history i ≤ observed history j + 1 :=
  ⟨_, _, rfl, rfl, (giBarrier_rounds (.inl rfl) rfl).2.2.1⟩

end BgqDriver.GIBarrier
