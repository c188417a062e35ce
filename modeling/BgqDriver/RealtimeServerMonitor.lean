import BgqDriver.RealtimeServerClients

/-!
What the monitor and its clients agree on: the callbacks on the strand of a client leave it
connected exactly if the monitor knows it and no transaction exceeds the limit. The agreement
is kept by every step but a start message to a client that waits for the monitor.
-/

namespace BgqDriver.RealtimeServer

open DbTransactions Function List

variable {φ σ : Type} {check : φ → Change σ → Bool}

section Events

variable (memcmp : Tid → Tid → Int) (maxSize : Nat)

/-- One event of a log record, as the monitor handles it -/
def Server.handle (s : Server φ σ) (event : Event σ) : Server φ σ :=
  let t := State.handle memcmp maxSize ⟨s.tmap, s.dbChanges, []⟩ event
  t.notices.foldl Server.notify (s.withLog t)

def Notice.callback : Notice → Callback σ
  | .maxXactCondition => .connected false
  | .maxXactConditionEnd => .connected true

def Notice.condition : Notice → Bool
  | .maxXactCondition => true
  | .maxXactConditionEnd => false

theorem notify_eq (s : Server φ σ) (notice : Notice) : s.notify notice =
      { s with maxTransactCond := Notice.condition notice }.postAll (Notice.callback notice) := by
  cases notice <;> rfl

/-- The notices do not touch the transactions, so that they can be given after each event. -/
theorem withLog_foldl_notify (notices : List Notice) (s : Server φ σ) (t : State σ) :
    (notices.foldl Server.notify s).withLog t = notices.foldl Server.notify (s.withLog t) := by
  induction notices generalizing s with
  | nil => rfl
  | cons notice notices ih =>
    rw [foldl_cons, foldl_cons, ih]
    cases notice <;> rfl

theorem handle_notices (s : State σ) (event : Event σ) : s.handle memcmp maxSize event =
      { State.handle memcmp maxSize { s with notices := [] } event with
        notices := s.notices ++
          (State.handle memcmp maxSize { s with notices := [] } event).notices } := by
  cases event with
  | change tid change => simp [State.handle, State.change]
  | commit tid => simp [State.handle, commit_eq]
  | rollback tid => simp [State.handle, rollback_eq]

theorem foldl_notify_handle (events : List (Event σ)) (s : Server φ σ) (t : State σ) :
    (events.foldl (State.handle memcmp maxSize) t).notices.foldl Server.notify
        (s.withLog (events.foldl (State.handle memcmp maxSize) t)) =
      events.foldl (Server.handle memcmp maxSize)
        (t.notices.foldl Server.notify (s.withLog t)) := by
  induction events generalizing t with
  | nil => rfl
  | cons event events ih =>
    rw [foldl_cons, foldl_cons, ih, ← withLog_foldl_notify t.notices s t,
      handle_notices memcmp maxSize t, foldl_append,
      ← withLog_foldl_notify t.notices]
    rfl

theorem processLogRecord_eq (s : Server φ σ) (record : Record σ) :
    s.processLogRecord memcmp maxSize record =
      some (record.events.foldl (Server.handle memcmp maxSize)
        { s with inBatch := true }) := by
  rw [Server.processLogRecord, DbTransactions.step_eq, Option.map_some, foldl_notify_handle]
  rfl

end Events

/-- What holds for a client and its strand: `watching` is the monitor's, `joined` says that the
monitor knows the client and that no transaction exceeds the limit. -/
structure LaneOk (watching joined : Bool) (c : Client φ σ) (strand : List (Callback σ)) :
    Prop where
  control : c.shutdownInd = false → latestControl c.queued = some true → c.connected = true
  ending : watching = true → c.shutdownInd = false → willBeConnected c.connected strand = joined
  orderly : c.shutdownInd = false → Orderly c.connected strand
  unwatched : watching = false → c.connected = false ∧ .connected true ∉ strand

section Lane

variable {watching joined : Bool} {c d : Client φ σ} {strand : List (Callback σ)}

theorem laneOk_init (watching : Bool) (filter : φ) :
    LaneOk watching false (Client.init filter : Client φ σ) [] where
  control := by simp [Client.init, Client.queued, latestControl]
  ending := fun _ _ => rfl
  orderly := fun _ => trivial
  unwatched := by simp [Client.init]

theorem LaneOk.watched (h : LaneOk watching joined c strand) (hconnected : c.connected = true) :
    watching = true := by
  by_contra hw
  rw [(h.unwatched (by simpa using hw)).1] at hconnected
  cases hconnected

theorem LaneOk.update (h : LaneOk watching joined c strand) (hconnected : d.connected = c.connected)
    (hshutdown : d.shutdownInd = false → c.shutdownInd = false)
    (hcontrol : d.shutdownInd = false → latestControl d.queued = some true → d.connected = true) :
    LaneOk watching joined d strand where
  control := hcontrol
  ending := fun hwatching hd => by
    rw [hconnected]
    exact h.ending hwatching (hshutdown hd)
  orderly := fun hd => by
    rw [hconnected]
    exact h.orderly (hshutdown hd)
  unwatched := by
    rw [hconnected]
    exact h.unwatched

theorem receive_connected (c : Client φ σ) (msg : InMsg φ) :
    (c.receive msg).1.connected = c.connected := by
  cases msg with
  | startRealtime filter filterId =>
    rw [Client.receive]
    split
    · rfl
    · dsimp only
      split
      · rw [connected_push]
      · rfl
  | invalid =>
    rw [Client.receive, Client.shutdown]
    split <;> rfl

theorem writeComplete_connected (c : Client φ σ) (ok : Bool) :
    (c.writeComplete ok).1.connected = c.connected := by
  rw [Client.writeComplete, Client.shutdown]
  split
  · rfl
  · split
    · rfl
    · exact (startWriting_eq _).1

theorem Outcome.control {told : List (Change σ)} {r : Client φ σ × List Task}
    (h : Outcome check c told r)
    (hc : latestControl c.queued = some true → c.connected = true) (hwaiting : c.waiting = false)
    (hshutdown : r.1.shutdownInd = false) (hlatest : latestControl r.1.queued = some true) :
    r.1.connected = true := by
  cases h with
  | same hqueued hconnected =>
    rw [hconnected]
    exact hc (by rwa [← hqueued])
  | refilter hqueued _ hbefore =>
    have hconnected := hc (by rwa [← hqueued])
    rw [hbefore] at hconnected
    cases hconnected
  | shut _ _ hshut => exact absurd (hshut.symm.trans hshutdown) (by simp)
  | started _ _ hconnected => exact hconnected
  | ended hqueued =>
    rw [hqueued, latestControl_ended] at hlatest
    cases hlatest
  | changes _ _ _ hconnected => exact hconnected
  | removed => exact hc hlatest
  | early _ _ _ hwaits => exact absurd (hwaits.symm.trans hwaiting) (by simp)

theorem LaneOk.receive (h : LaneOk watching joined c strand) {msg : InMsg φ}
    (hwaiting : c.shutdownInd = false → msg ≠ .invalid → c.waiting = false) :
    LaneOk watching joined (c.receive msg).1 strand := by
  rcases Bool.eq_false_or_eq_true c.shutdownInd with hc | hc
  · rw [Client.receive_shut hc]
    exact h
  · have houtcome := Client.receive_outcome (fun _ _ => true) c msg
    refine h.update (receive_connected c msg) (fun _ => hc) ?_
    cases msg with
    | startRealtime filter filterId => exact houtcome.control (h.control hc) (hwaiting hc (by simp))
    | invalid =>
      intro hshutdown
      rw [Client.receive, if_neg (by simp [hc]), Client.shutdown,
        if_neg (by simp [hc])] at hshutdown
      cases hshutdown

theorem LaneOk.writeComplete (h : LaneOk watching joined c strand) (ok : Bool) :
    LaneOk watching joined (c.writeComplete ok).1 strand := by
  rcases Bool.eq_false_or_eq_true c.shutdownInd with hc | hc
  · rw [Client.writeComplete_shut hc]
    exact h
  · refine h.update (writeComplete_connected c ok) (fun _ => hc) ?_
    rw [writeComplete_connected]
    intro hshutdown
    cases ok with
    | false =>
      rw [Client.writeComplete, if_neg (by simp [hc]), if_pos (by rfl), Client.shutdown,
        if_neg (by simp [hc])] at hshutdown
      cases hshutdown
    | true =>
      rw [Client.writeComplete, if_neg (by simp [hc]), if_neg (by simp), queued_startWriting]
      intro hlatest
      apply h.control hc
      simpa [Client.queued] using hlatest

theorem LaneOk.callback (check : φ → Change σ → Bool) {callback : Callback σ}
    (h : LaneOk watching joined c (callback :: strand)) :
    LaneOk watching joined (c.handle check callback).1 strand ∧
      (.removeClient ∈ (c.handle check callback).2 →
        (c.handle check callback).1.shutdownInd = true) := by
  have hunwatched : watching = false → c.connected = false ∧ .connected true ∉ strand :=
    fun hw => ⟨(h.unwatched hw).1, fun hmem => (h.unwatched hw).2 (mem_cons_of_mem _ hmem)⟩
  rcases Bool.eq_false_or_eq_true c.shutdownInd with hc | hc
  · rw [Client.handle_shut hc]
    refine ⟨⟨?_, ?_, ?_, hunwatched⟩, fun _ => hc⟩
    all_goals simp [hc]
  · cases callback with
    | connected isConnected =>
      -- the client is connected as the callback says, whatever it was before
      have hnext : (c.handle check (.connected isConnected)).2 = [] ∧
          (c.handle check (.connected isConnected)).1.connected = isConnected ∧
          (latestControl (c.handle check (.connected isConnected)).1.queued = some true →
            isConnected = true) := by
        rcases notifyConnected_eq hc isConnected with
          ⟨hconnected, hd⟩ | ⟨d, hd, hqueued, -, hconnected, -⟩
        · have hlatest := h.control hc
          rw [hconnected] at hlatest
          rw [Client.handle, hd]
          exact ⟨rfl, hconnected, hlatest⟩
        · rw [Client.handle, hd, hqueued]
          cases isConnected <;> simp [hconnected]
      obtain ⟨htasks, hconnected, hlatest⟩ := hnext
      refine ⟨⟨?_, ?_, ?_, ?_⟩, by simp [htasks]⟩
      · rw [hconnected]
        exact fun _ => hlatest
      · rw [hconnected]
        exact fun hw _ => h.ending hw hc
      · rw [hconnected]
        exact fun _ => h.orderly hc
      · intro hw
        rw [hconnected]
        refine ⟨?_, (hunwatched hw).2⟩
        cases isConnected with
        | false => rfl
        | true => exact absurd (by simp) (h.unwatched hw).2
    | dbChanges changes =>
      obtain ⟨hconnected, horderly⟩ := h.orderly hc
      have hwatched := h.watched hconnected
      rcases notifyDbChanges_connected check hc hconnected changes with
        ⟨d, hd, hqueued, hdc, hshutdown⟩ | ⟨d, hd, hqueued, hdc, hfilter, hshutdown⟩
      · rw [Client.handle, hd]
        refine ⟨⟨?_, ?_, ?_, ?_⟩, fun _ => hshutdown⟩
        · simp [hshutdown]
        · simp [hshutdown]
        · simp [hshutdown]
        · simp [hwatched]
      · rw [Client.handle, hd]
        refine ⟨⟨fun _ _ => hdc, ?_, ?_, by simp [hwatched]⟩, by simp⟩
        · intro hw _
          rw [hdc.trans hconnected.symm]
          exact h.ending hw hc
        · intro _
          rw [hdc.trans hconnected.symm]
          exact horderly

theorem LaneOk.postConnected (h : LaneOk true joined c strand) (isConnected : Bool) :
    LaneOk true isConnected c (strand ++ [.connected isConnected]) where
  control := h.control
  ending := fun _ _ => willBeConnected_append _ _ _
  orderly := fun hc => orderly_append.mpr ⟨h.orderly hc, trivial⟩
  unwatched := by simp

theorem LaneOk.postDbChanges (h : LaneOk true true c strand) (changes : List (Change σ)) :
    LaneOk true true c (strand ++ [.dbChanges changes]) where
  control := h.control
  ending := fun hw hc => (willBeConnected_append _ _ _).trans (h.ending hw hc)
  orderly := fun hc => orderly_append.mpr ⟨h.orderly hc, h.ending rfl hc, trivial⟩
  unwatched := by simp

theorem willBeConnected_false (h : .connected true ∉ strand) :
    willBeConnected false strand = false := by
  induction strand with
  | nil => rfl
  | cons callback rest ih =>
    rw [mem_cons, not_or] at h
    rcases callback with ⟨_ | _⟩ | changes
    · exact ih h.2
    · exact absurd rfl h.1
    · exact ih h.2

section

variable (h : LaneOk false joined c strand)
include h

theorem LaneOk.watch : LaneOk true false c strand where
  control := h.control
  ending := fun _ _ => by
    rw [(h.unwatched rfl).1]
    exact willBeConnected_false (h.unwatched rfl).2
  orderly := h.orderly
  unwatched := by simp

theorem LaneOk.reject (joined' : Bool) : LaneOk false joined' c (strand ++ [.connected false]) where
  control := h.control
  ending := by simp
  orderly := fun hc => orderly_append.mpr ⟨h.orderly hc, trivial⟩
  unwatched := fun _ => ⟨(h.unwatched rfl).1, by simpa using (h.unwatched rfl).2⟩

theorem LaneOk.unjoined (joined' : Bool) : LaneOk false joined' c strand where
  control := h.control
  ending := by simp
  orderly := h.orderly
  unwatched := h.unwatched

end

theorem LaneOk.ofShut (h : LaneOk watching joined c strand) (hc : c.shutdownInd = true)
    (joined' : Bool) : LaneOk watching joined' c strand where
  control := h.control
  ending := by simp [hc]
  orderly := h.orderly
  unwatched := h.unwatched

end Lane

/-- The monitor knows the client and no transaction exceeds the limit. -/
def Server.joined (s : Server φ σ) (id : Nat) : Bool :=
  decide (id ∈ s.members) && !s.maxTransactCond

structure Consistent (s : Server φ σ) : Prop where
  lane : ∀ id, LaneOk s.watching (s.joined id) (s.clients id) (s.strands id)
  removal : ∀ id, (.removeClient, id) ∈ s.tasks → (s.clients id).shutdownInd = true
  batch : s.inBatch = false → s.dbChanges = []
  watching : s.inBatch = true → s.watching = true
  unwatched : s.watching = false →
    s.maxTransactCond = false ∧ (s.exited = false → s.members = [])

theorem consistent_init (filter : φ) : Consistent (Server.init filter : Server φ σ) where
  lane := fun _ => laneOk_init _ _
  removal := by simp [Server.init]
  batch := fun _ => rfl
  watching := by simp [Server.init]
  unwatched := fun _ => ⟨rfl, fun _ => rfl⟩

variable {id : Nat}

section Steps

variable {s : Server φ σ}

theorem Consistent.onClient (hs : Consistent s) {r : Client φ σ × List Task}
    {strand : List (Callback σ)} (hextends : Extends (s.clients id) r.1)
    (hlane : LaneOk s.watching (s.joined id) r.1 strand)
    (hremoval : .removeClient ∈ r.2 → r.1.shutdownInd = true) :
    Consistent ({ s with strands := update s.strands id strand }.onClient id r) where
  lane := by
    intro other
    by_cases hid : other = id
    · subst hid
      simp only [Server.onClient, update_self]
      exact hlane
    · simp only [Server.onClient, update_of_ne hid]
      exact hs.lane other
  removal := by
    intro other hother
    simp only [Server.onClient, mem_append, mem_map, Prod.mk.injEq] at hother ⊢
    by_cases hid : other = id
    · subst hid
      rw [update_self]
      rcases hother with hold | ⟨task, htask, rfl, -⟩
      · exact hextends.shutdownInd (hs.removal other hold)
      · exact hremoval htask
    · rw [update_of_ne hid]
      rcases hother with hold | ⟨task, htask, -, rfl⟩
      · exact hs.removal other hold
      · exact absurd rfl hid
  batch := hs.batch
  watching := hs.watching
  unwatched := hs.unwatched

theorem update_strand_self (s : Server φ σ) (id : Nat) :
    { s with strands := update s.strands id (s.strands id) } = s := by
  rw [update_eq_self]

theorem receive_removal {c : Client φ σ} {msg : InMsg φ} (h : .removeClient ∈ (c.receive msg).2) :
    (c.receive msg).1.shutdownInd = true := by
  cases msg with
  | startRealtime filter filterId =>
    rw [Client.receive] at h
    dsimp only at h
    split at h
    · simp at h
    · split at h <;> simp at h
  | invalid =>
    rw [Client.receive, Client.shutdown] at h ⊢
    split at h <;> simp_all

theorem writeComplete_removal {c : Client φ σ} {ok : Bool}
    (h : .removeClient ∈ (c.writeComplete ok).2) : (c.writeComplete ok).1.shutdownInd = true := by
  rw [Client.writeComplete, Client.shutdown] at h ⊢
  split at h
  · simp at h
  · split at h <;> simp_all

theorem Consistent.receive (hs : Consistent s) {msg : InMsg φ}
    (hwaiting : (s.clients id).shutdownInd = false → msg ≠ .invalid →
      (s.clients id).waiting = false) :
    Consistent (s.onClient id ((s.clients id).receive msg)) := by
  rw [← update_strand_self s id]
  exact hs.onClient (Client.receive_outcome (fun _ _ => true) _ msg).extends
    ((hs.lane id).receive hwaiting) receive_removal

theorem Consistent.writeComplete (hs : Consistent s) (id : Nat) (ok : Bool) :
    Consistent (s.onClient id ((s.clients id).writeComplete ok)) := by
  rw [← update_strand_self s id]
  exact hs.onClient (Client.writeComplete_outcome (fun _ _ => true) _ ok).extends
    ((hs.lane id).writeComplete ok) writeComplete_removal

theorem Consistent.callback (check : φ → Change σ → Bool) (hs : Consistent s)
    {callback : Callback σ} {rest : List (Callback σ)} (hstrand : s.strands id = callback :: rest) :
    Consistent ({ s with strands := update s.strands id rest }.onClient id
      ((s.clients id).handle check callback)) := by
  have hlane := hs.lane id
  rw [hstrand] at hlane
  obtain ⟨hnext, hremoval⟩ := hlane.callback check
  exact hs.onClient (Client.handle_outcome check _ callback).extends hnext hremoval

section

variable (hs : Consistent s)
include hs

theorem Consistent.dropTask {task : Task × Nat} {rest : List (Task × Nat)}
    (htasks : s.tasks = task :: rest) : Consistent { s with tasks := rest } where
  lane := hs.lane
  removal := fun id hid => hs.removal id (by rw [htasks]; exact mem_cons_of_mem _ hid)
  batch := hs.batch
  watching := hs.watching
  unwatched := hs.unwatched

theorem Consistent.monitor {t : Server φ σ} (hclients : t.clients = s.clients)
    (htasks : t.tasks = s.tasks)
    (hlane : ∀ id, LaneOk t.watching (t.joined id) (s.clients id) (t.strands id))
    (hbatch : t.inBatch = false → t.dbChanges = [])
    (hwatching : t.inBatch = true → t.watching = true) (hunwatched : t.watching = false →
      t.maxTransactCond = false ∧ (t.exited = false → t.members = [])) : Consistent t where
  lane := by rw [hclients]; exact hlane
  removal := by rw [hclients, htasks]; exact hs.removal
  batch := hbatch
  watching := hwatching
  unwatched := hunwatched

theorem Consistent.addClientImpl (hbatch : s.inBatch = false)
    (hexited : s.exited = false) (id : Nat) (ok : Bool) : Consistent (s.addClientImpl id ok) := by
  unfold Server.addClientImpl
  dsimp only
  split
  next hcond =>
    have hwatching : s.watching = true := by
      by_contra hw
      rw [(hs.unwatched (by simpa using hw)).1] at hcond
      cases hcond
    refine hs.monitor rfl rfl (fun other => ?_) hs.batch hs.watching (by simp [hwatching])
    have hsame : { s with members := s.members.insert id }.joined other = s.joined other := by
      simp [Server.joined, hcond]
    rw [hsame]
    exact hs.lane other
  next hcond =>
    split
    next hwatching =>
      refine hs.monitor rfl rfl (fun other => ?_) hs.batch hs.watching
        (by simp [Server.post, hwatching])
      by_cases hid : other = id
      · subst hid
        have hlane := hs.lane other
        rw [hwatching] at hlane
        simpa [Server.post, Server.joined, hcond, hwatching] using hlane.postConnected true
      · simp only [Server.post, update_of_ne hid]
        simpa [Server.joined, hid] using hs.lane other
    next hwatching =>
      rw [Bool.not_eq_true] at hwatching
      have hmembers := (hs.unwatched hwatching).2 hexited
      have hlane : ∀ other, LaneOk false (s.joined other) (s.clients other) (s.strands other) :=
        fun other => hwatching ▸ hs.lane other
      split
      next =>
        refine hs.monitor rfl rfl (fun other => ?_) hs.batch (fun _ => rfl) (by simp [Server.post])
        by_cases hid : other = id
        · subst hid
          simpa [Server.post, Server.joined, hcond] using (hlane other).watch.postConnected true
        · simpa [Server.post, Server.joined, hid, hmembers] using (hlane other).watch
      next =>
        refine hs.monitor rfl rfl (fun other => ?_) hs.batch (by simp [Server.post, hbatch])
          (fun _ => ⟨Bool.eq_false_iff.mpr hcond, by simp [Server.post]⟩)
        simp only [Server.post, hwatching]
        by_cases hid : other = id
        · subst hid
          rw [update_self]
          exact (hlane other).reject _
        · rw [update_of_ne hid]
          exact (hlane other).unjoined _

theorem Consistent.removeClientImpl (hid : (s.clients id).shutdownInd = true) :
    Consistent (s.removeClientImpl id) := by
  refine hs.monitor rfl rfl (fun other => ?_) hs.batch hs.watching fun hw => ?_
  · by_cases hother : other = id
    · subst hother
      exact (hs.lane other).ofShut hid _
    · have hsame : (s.removeClientImpl id).joined other = s.joined other := by
        simp [Server.removeClientImpl, Server.joined, hother]
      rw [hsame]
      exact hs.lane other
  · obtain ⟨hcond, hmembers⟩ := hs.unwatched hw
    refine ⟨hcond, fun hexited => ?_⟩
    simp [Server.removeClientImpl, hmembers hexited]

section

variable (hwatching : s.watching = true)
include hwatching

theorem Consistent.notify (notice : Notice) : Consistent (s.notify notice) := by
  rw [notify_eq]
  refine hs.monitor rfl rfl (fun id => ?_) hs.batch hs.watching
    (by simp [Server.postAll, hwatching])
  have hlane := hs.lane id
  rw [hwatching] at hlane
  by_cases hid : id ∈ s.members
  · have hnext := hlane.postConnected (!Notice.condition notice)
    have hcallback : (Notice.callback notice : Callback σ) =
        .connected (!Notice.condition notice) := by
      cases notice <;> rfl
    simpa [Server.postAll, Server.joined, hid, hwatching, hcallback] using hnext
  · simpa [Server.postAll, Server.joined, hid, hwatching] using hlane

theorem Consistent.withLog (t : State σ) : Consistent (s.withLog t) :=
  hs.monitor rfl rfl hs.lane (by simp [Server.withLog]) (fun _ => hwatching)
    (by simp [Server.withLog, hwatching])

theorem Consistent.foldl_notify
    (notices : List Notice) : Consistent (notices.foldl Server.notify s) ∧
      (notices.foldl Server.notify s).watching = true := by
  induction notices generalizing s with
  | nil => exact ⟨hs, hwatching⟩
  | cons notice notices ih =>
    exact ih (hs.notify hwatching notice) (by cases notice <;> exact hwatching)

theorem Consistent.handle (memcmp : Tid → Tid → Int) (maxSize : Nat) (event : Event σ) :
    Consistent (s.handle memcmp maxSize event) ∧
      (s.handle memcmp maxSize event).watching = true :=
  (hs.withLog hwatching _).foldl_notify hwatching _

end

theorem Consistent.endBatch (hbatch : s.inBatch = true) : Consistent s.endBatch := by
  have hwatching := hs.watching hbatch
  unfold Server.endBatch
  split
  next =>
    exact hs.monitor rfl rfl hs.lane (fun _ => rfl) (by simp) (by simp [hwatching])
  next hposts =>
    refine hs.monitor rfl rfl (fun id => ?_) (fun _ => rfl) (by simp [Server.postAll])
      (by simp [Server.postAll, hwatching])
    have hcond : s.maxTransactCond = false := by
      simp only [Bool.or_eq_true, not_or, Bool.not_eq_true] at hposts
      exact hposts.2
    have hlane := hs.lane id
    rw [hwatching] at hlane
    by_cases hid : id ∈ s.members
    · have hjoined : s.joined id = true := by simp [Server.joined, hid, hcond]
      rw [hjoined] at hlane
      simpa [Server.postAll, Server.joined, hid, hwatching, hcond] using
        hlane.postDbChanges s.dbChanges
    · simpa [Server.postAll, Server.joined, hid, hwatching, hcond] using hlane

end

end Steps

end BgqDriver.RealtimeServer
