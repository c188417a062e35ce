import BgqDriver.RgetPacingRuns

/-!
The history of a run. Every request that has arrived is served by one work item until it
is retired, and is retired once. With that, the totals of the agent are compared with the
lists of work items and with the history.
-/

namespace BgqDriver.RgetPacing

open Function List
open EventRuns

variable {cfg : Config} {Q Q' L M : List Queue} {d d' : Data} {s : State} {w x c : Nat}
  {ps : List Nat}

def Event.request : Event → Nat
  | .injected request _ _ => request
  | .completed request _ => request
  | .sent request => request
  | .retired request => request

def Event.isInjected : Event → Bool
  | .injected _ _ _ => true
  | _ => false

def Event.isCompleted : Event → Bool
  | .completed _ _ => true
  | _ => false

/-- The number of sub-messages that have been injected and have not completed. -/
def inFlight (log : List Event) : Int :=
  (log.countP Event.isInjected : Int) - log.countP Event.isCompleted

theorem inFlight_append (log log' : List Event) :
    inFlight (log ++ log') = inFlight log + inFlight log' := by
  simp only [inFlight, countP_append, Int.natCast_add]
  omega

structure Serves (cfg : Config) (r : Request) (i : WorkItem) : Prop where
  id : i.id = r.id
  peerID : i.peerID = r.peerID
  put : i.payloadDescriptor.isDPut = r.payloadDescriptor.isDPut
  paceIt : i.paceIt = cfg.paceRgets

variable {r : Request}

theorem Fresh.serves {n : Nat} {i : WorkItem} (h : Fresh cfg r n i) : Serves cfg r i :=
  ⟨h.id, h.peerID, h.put, h.paceIt⟩

def requests (Q : List Queue) (d : Data) : List Nat := (queued Q).map fun w => (d.items w).request

structure Recorded (cfg : Config) (Q : List Queue) (d : Data) : Prop where
  serves : ∀ w ∈ queued Q, ∃ r, d.arrivals[(d.items w).request]? = some r ∧ Serves cfg r (d.items w)
  /-- A request that has arrived is either retired, once, or served by one item. -/
  once : ∀ n, d.log.count (.retired n) + (requests Q d).count n =
    if n < d.arrivals.length then 1 else 0
  known : ∀ e ∈ d.log, e.request < d.arrivals.length
  active : d.numActiveCounters = inFlight d.log

structure WorkItem.SameRequest (i j : WorkItem) : Prop where
  request : i.request = j.request
  id : i.id = j.id
  peerID : i.peerID = j.peerID
  put : i.payloadDescriptor.isDPut = j.payloadDescriptor.isDPut
  paceIt : i.paceIt = j.paceIt

theorem WorkItem.SameRequest.serves {i j : WorkItem} (h : i.SameRequest j)
    (hserves : Serves cfg r j) : Serves cfg r i :=
  ⟨h.id.trans hserves.id, h.peerID.trans hserves.peerID, h.put.trans hserves.put,
    h.paceIt.trans hserves.paceIt⟩

theorem complete_sameRequest (d : Data) (w c a : Nat) :
    ((d.complete w c).items a).SameRequest (d.items a) := by
  rw [complete_items]
  exact ⟨rfl, rfl, rfl, rfl, rfl⟩

theorem inject_sameRequest (cfg : Config) (d : Data) (w c a : Nat) :
    ((d.inject cfg w c).items a).SameRequest (d.items a) := by
  by_cases ha : a = w
  · subst ha
    rw [inject_items_self]
    exact ⟨rfl, rfl, rfl, rfl, rfl⟩
  · rw [inject_items_of_ne ha]
    exact ⟨rfl, rfl, rfl, rfl, rfl⟩

theorem send_sameRequest (d : Data) (w a : Nat) : ((d.send w).items a).SameRequest (d.items a) := by
  rw [send_items]
  exact ⟨rfl, rfl, rfl, rfl, rfl⟩

theorem setup_eq (cfg : Config) (w : Nat) (r : Request) (active : Bool) (hsized : d.pacing.Sized) :
    ∃ i p limits bytes n, Fresh cfg r d.arrivals.length i ∧ d.setup cfg w r active = { d with
      items := update d.items w i
      arrivals := d.arrivals ++ [r]
      pacing := p
      limits := limits
      bytesWaitingToInject := bytes
      numNonDPutWorkItems := n } := by
  obtain ⟨i, p, limits, hfresh, -, hfill⟩ := fill_eq cfg w r hsized
  unfold Data.setup
  rw [hfill]
  cases active with
  | false => exact ⟨i, p, limits, _, _, hfresh, rfl⟩
  | true =>
    simp only [if_true, activate_eq]
    exact ⟨i, p, limits, _, _, hfresh, rfl⟩

theorem Recorded.request_lt (h : Recorded cfg Q d) (hw : w ∈ queued Q) :
    (d.items w).request < d.arrivals.length := by
  obtain ⟨r, hr, -⟩ := h.serves w hw
  exact (List.getElem?_eq_some_iff.mp hr).1

theorem Recorded.arrive (h : Recorded cfg Q d) (hsized : d.pacing.Sized) (active : Bool)
    (hw : w ∉ queued Q) (hperm : (queued Q').Perm (w :: queued Q)) :
    Recorded cfg Q' (d.setup cfg w r active) := by
  obtain ⟨i, p, limits, bytes, n, hfresh, hsetup⟩ := setup_eq cfg w r active hsized
  have hself : (d.setup cfg w r active).items w = i := by
    rw [hsetup]
    exact update_self ..
  have hother : ∀ a ∈ queued Q, (d.setup cfg w r active).items a = d.items a := by
    intro a ha
    rw [hsetup]
    refine update_of_ne ?_ _ _
    rintro rfl
    exact hw ha
  have harrivals : (d.setup cfg w r active).arrivals = d.arrivals ++ [r] := by rw [hsetup]
  have hlog : (d.setup cfg w r active).log = d.log := by rw [hsetup]
  have hrequests : (requests Q' (d.setup cfg w r active)).Perm
      (d.arrivals.length :: requests Q d) := by
    refine (hperm.map _).trans (Perm.of_eq ?_)
    rw [map_cons, hself, hfresh.request]
    exact congrArg _ (map_congr_left fun a ha => by rw [hother a ha])
  constructor
  · intro a ha
    rw [harrivals]
    rcases mem_cons.mp (hperm.mem_iff.mp ha) with rfl | ha
    · refine ⟨r, ?_, ?_⟩
      · rw [hself, hfresh.request, getElem?_concat_length]
      · rw [hself]
        exact hfresh.serves
    · obtain ⟨r', hr', hserves⟩ := h.serves a ha
      rw [hother a ha]
      exact ⟨r', (getElem?_append_left (h.request_lt ha)).trans hr', hserves⟩
  · intro m
    have honce := h.once m
    grind
  · intro e he
    rw [hlog] at he
    rw [harrivals, length_append]
    exact Nat.lt_of_lt_of_le (h.known e he) (Nat.le_add_right ..)
  · rw [hlog, ← h.active, hsetup]

theorem Recorded.proceed (h : Recorded cfg Q d)
    (hitems : ∀ a ∈ queued Q, (d'.items a).SameRequest (d.items a))
    (harrivals : d'.arrivals = d.arrivals) (events : List Event) (hlog : d'.log = d.log ++ events)
    (hevents : ∀ e ∈ events, (∃ w ∈ queued Q, e.request = (d.items w).request) ∧
      e ≠ .retired e.request)
    (hactive : d'.numActiveCounters = d.numActiveCounters + inFlight events) :
    Recorded cfg Q d' := by
  have hrequests : requests Q d' = requests Q d := map_congr_left fun a ha => (hitems a ha).request
  constructor
  · intro a ha
    obtain ⟨r, hr, hserves⟩ := h.serves a ha
    rw [harrivals, (hitems a ha).request]
    exact ⟨r, hr, (hitems a ha).serves hserves⟩
  · intro n
    have hnone : events.count (.retired n) = 0 := by
      refine List.count_eq_zero.mpr fun hmem => ?_
      exact (hevents _ hmem).2 rfl
    rw [hlog, harrivals, hrequests, count_append, hnone]
    exact h.once n
  · intro e he
    rw [hlog] at he
    rw [harrivals]
    rcases mem_append.mp he with he | he
    · exact h.known e he
    · obtain ⟨⟨w, hw, hrequest⟩, -⟩ := hevents e he
      rw [hrequest]
      exact h.request_lt hw
  · rw [hlog, inFlight_append, ← h.active, hactive]

theorem Recorded.remove (h : Recorded cfg (L ++ (w, ps) :: M) d)
    (hitems : ∀ a ∈ queued (L ++ (w, ps) :: M), (d'.items a).SameRequest (d.items a))
    (harrivals : d'.arrivals = d.arrivals) (event : Event)
    (hrequest : event.request = (d.items w).request) (hevent : event ≠ .retired event.request)
    (hlog : d'.log = d.log ++ [event] ++ [.retired (d.items w).request])
    (hactive : d'.numActiveCounters = d.numActiveCounters + inFlight [event]) :
    Recorded cfg (L ++ (promoted ps ++ M)) d' := by
  have hperm : (queued (L ++ (w, ps) :: M)).Perm (w :: queued (L ++ (promoted ps ++ M))) := by
    simp only [queued_append, queued_cons, queued_promoted]
    exact perm_middle
  have hmem : ∀ a ∈ queued (L ++ (promoted ps ++ M)), a ∈ queued (L ++ (w, ps) :: M) :=
    fun a ha => hperm.mem_iff.mpr (mem_cons_of_mem _ ha)
  have hw : w ∈ queued (L ++ (w, ps) :: M) := hperm.mem_iff.mpr mem_cons_self
  have hrequests : (requests (L ++ (w, ps) :: M) d).Perm
      ((d.items w).request :: requests (L ++ (promoted ps ++ M)) d') := by
    refine (hperm.map _).trans (Perm.of_eq ?_)
    exact congrArg _ (map_congr_left fun a ha => (hitems a (hmem a ha)).request.symm)
  constructor
  · intro a ha
    obtain ⟨r, hr, hserves⟩ := h.serves a (hmem a ha)
    rw [harrivals, (hitems a (hmem a ha)).request]
    exact ⟨r, hr, (hitems a (hmem a ha)).serves hserves⟩
  · intro n
    have honce := h.once n
    have hnone : [event].count (.retired n) = 0 := by
      refine List.count_eq_zero.mpr fun hmem => hevent ?_
      rw [mem_singleton] at hmem
      rw [← hmem]
      rfl
    have hretired : [Event.retired (d.items w).request].count (.retired n) =
        [(d.items w).request].count n := by
      simp [count_singleton]
    rw [hrequests.count_eq, count_cons] at honce
    rw [hlog, harrivals, count_append, count_append, hnone, hretired, ← honce, count_singleton]
    omega
  · intro e he
    rw [hlog] at he
    rw [harrivals]
    simp only [mem_append, mem_singleton] at he
    rcases he with (he | rfl) | rfl
    · exact h.known e he
    · rw [hrequest]
      exact h.request_lt hw
    · exact h.request_lt hw
  · rw [hlog, inFlight_append, inFlight_append, ← h.active, hactive]
    exact (Int.add_zero _).symm

theorem Transition.recorded {a : Option Request} (ht : Transition cfg a Q d Q' d')
    (hbalanced : Balanced cfg Q d)
    (h : Recorded cfg Q d) : Recorded cfg Q' d' := by
  cases ht with
  | @start L M _ w r hw hx =>
    exact h.arrive hbalanced.sized true (fun hmem => hw (mem_cons_of_mem _ hmem))
      queued_start_perm
  | @follow L M _ w x ps r hw hx =>
    exact h.arrive hbalanced.sized false (fun hmem => hw (mem_cons_of_mem _ hmem))
      queued_follow_perm
  | receive counters =>
    exact h.proceed (fun _ _ => ⟨rfl, rfl, rfl, rfl, rfl⟩) rfl [] (append_nil _).symm
      (by simp) (Int.add_zero _).symm
  | @advance _ _ w c hc hzero hmore =>
    have hactive := (hbalanced.busy c w hc).active
    rw [hbalanced.advance hc (by simpa using (not_or.mp hmore).1)]
    refine h.proceed (fun a _ => complete_sameRequest d w c a) ?_
      [.completed (d.items w).request (d.length c)] ?_ ?_ ?_
    · rw [complete_eq]
    · rw [complete_eq]
    · intro e he
      obtain rfl := mem_singleton.mp he
      exact ⟨⟨w, mem_queued_of_active hactive, rfl⟩, by simp⟩
    · rw [complete_eq]
      rfl
  | @retire L M _ w c ps hc hzero hdone =>
    obtain ⟨p, limits, -, hretire⟩ := retire_eq cfg d w c ps
    rw [hretire]
    exact h.remove (fun _ _ => ⟨rfl, rfl, rfl, rfl, rfl⟩) rfl
      (.completed (d.items w).request (d.length c)) rfl (by simp) rfl rfl
  | @inject _ _ w c hw heligible hfree hc =>
    refine h.proceed (fun a _ => inject_sameRequest cfg d w c a) rfl [_] rfl ?_ rfl
    intro e he
    obtain rfl := mem_singleton.mp he
    exact ⟨⟨w, mem_queued_of_active hw, rfl⟩, by simp⟩
  | @send L M _ w ps hput =>
    rw [sendOff_eq]
    exact h.remove (fun a _ => send_sameRequest d w a) rfl (.sent (d.items w).request) rfl
      (by simp) rfl (Int.add_zero _).symm

theorem init_recorded (cfg : Config) : Recorded cfg [] (init cfg).data := by
  refine ⟨?_, ?_, ?_, rfl⟩
  all_goals simp [init, requests]

/-- The active items of direct puts -/
def State.dPuts (s : State) : List Nat := (actives s.links.queues).filter (isDPutWorkItem s.data)

/-- The active items that are not direct puts. -/
def State.nonDPuts (s : State) : List Nat :=
  (actives s.links.queues).filter fun w => !isDPutWorkItem s.data w

theorem sum_waiting (l : List Nat) : (l.map d.waiting).sum =
    ((l.filter (isDPutWorkItem d)).map fun w => (d.items w).remainingInjectLength).sum := by
  induction l with
  | nil => rfl
  | cons w l ih =>
    rw [map_cons, sum_cons, ih, filter_cons, Data.waiting]
    split
    · rw [map_cons, sum_cons]
    · exact Nat.zero_add _

theorem Recorded.isPaced_eq (h : Recorded cfg Q d) (hbalanced : Balanced cfg Q d) (c : Nat) :
    d.isPaced c = (cfg.paceRgets && (d.counterWorkItems c).isSome) := by
  unfold Data.isPaced
  cases hw : d.counterWorkItems c with
  | none => simp
  | some w =>
    obtain ⟨r, -, hserves⟩ := h.serves w (mem_queued_of_active (hbalanced.busy c w hw).active)
    simp [hserves.paceIt]

theorem Recorded.paced (h : Recorded cfg Q d) (hbalanced : Balanced cfg Q d) :
    d.numActivePacedCounters = if cfg.paceRgets then d.numActiveCounters else 0 := by
  rw [hbalanced.paced, hbalanced.active]
  simp only [h.isPaced_eq hbalanced]
  cases cfg.paceRgets <;> simp

/-- In every state of a run, each work item is in one place of one list, the lists are well
linked, and the totals agree with the lists and with the history. -/
theorem lists_and_totals {labels : List Label} (hrun : run (step cfg) (init cfg) labels = some s) :
    (∃ free ensure, Represents s.links [] s.links.queues free ensure) ∧
      s.data.bytesWaitingToInject = BitVec.ofNat 64
        (s.dPuts.map fun w => (s.data.items w).remainingInjectLength).sum ∧
      s.data.numNonDPutWorkItems = s.nonDPuts.length ∧
      s.data.numActiveCounters = inFlight s.data.log ∧
      s.data.numActivePacedCounters = if cfg.paceRgets then inFlight s.data.log else 0 := by
  obtain ⟨Q, free, ensure, hfollows, hbalanced, hrecorded⟩ := run_keeps (init_recorded cfg)
    (fun a Q d Q' d' ht => ht.recorded) hrun
  obtain rfl := hfollows.links.queues_eq
  refine ⟨⟨free, ensure, hfollows.links⟩, ?_, ?_, hrecorded.active, ?_⟩
  · rw [hbalanced.bytes, sum_waiting, State.dPuts]
  · rw [hbalanced.nonDPut, countP_eq_length_filter, State.nonDPuts]
    congr 3
    funext w
    cases isDPutWorkItem s.data w <;> rfl
  · rw [hrecorded.paced hbalanced, hrecorded.active]

def sampleConfig : Config where
  numCounters := 4
  paceRgets := true
  doSubRegionCalculations := false
  subRemoteGetSize := ⟨32, 10, 90, 1, 2, by decide, by decide, by decide, by decide, by decide⟩
  maxBytesInNetwork := ⟨64, 10, 90, 1, 2, by decide, by decide, by decide, by decide, by decide⟩
  randomThreshold := 50
  randomZone := 0
  numAnodes := 2
  numBnodes := 2
  numCnodes := 2
  numDnodes := 2
  globalBatId := 1
  counterAtomicOffsets := fun _ => 0
  counterPayloadPA := fun _ => 0
  payloadPA := fun _ => 0

def sampleRequest (destination : BitVec 32) (peerID length : BitVec 64) : Request where
  globalInjFifo := 0
  peerID := peerID
  rgetDescriptor := { (default : Descriptor) with destination := destination }
  payloadDescriptor :=
    { (default : Descriptor) with packetType := packetTypePut, messageLength := length }

/-- One request of a hundred bytes, and the agent injects on two counters. -/
theorem lists_and_totals_injecting : ∃ s, run (step sampleConfig) (init sampleConfig)
      [.request (sampleRequest 0 0 100), .work true true, .work true true, .work true true] =
        some s ∧
    inFlight s.data.log = 2 ∧
    s.data.bytesWaitingToInject = BitVec.ofNat 64
      (s.dPuts.map fun w => (s.data.items w).remainingInjectLength).sum ∧
    s.data.numActiveCounters = inFlight s.data.log := by
  refine exists_of_map_run (fun s => inFlight s.data.log) 2 (by decide) fun s hrun hinFlight => ?_
  obtain ⟨-, hbytes, -, hactive, -⟩ := lists_and_totals hrun
  exact ⟨hinFlight, hbytes, hactive⟩

/-- The bytes of two direct puts wrap the total, and a queue without peers is a ring too. -/
theorem lists_and_totals_wrap : ∃ s, run (step sampleConfig) (init sampleConfig)
      [.request (sampleRequest 0 0 (2 ^ 63)), .request (sampleRequest 1 0 (2 ^ 63))] = some s ∧
    s.data.bytesWaitingToInject.toNat = 0 ∧
    (s.dPuts.map fun w => (s.data.items w).remainingInjectLength).sum = 2 ^ 64 ∧
    s.links.nextPeerPtr 1 = some 1 := by
  refine exists_of_map_run (fun s => (s.data.bytesWaitingToInject.toNat,
    (s.dPuts.map fun w => (s.data.items w).remainingInjectLength).sum, s.links.nextPeerPtr 1))
    (0, 2 ^ 64, some 1) (by decide +kernel) fun s _ hs => ?_
  simpa only [Prod.mk.injEq] using hs

end BgqDriver.RgetPacing
