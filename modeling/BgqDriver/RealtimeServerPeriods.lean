import BgqDriver.RealtimeServerRuns

/-!
What is queued to a client of the real-time server in the periods between its started and
ended events.
-/

namespace BgqDriver.RealtimeServer

open DbTransactions EventRuns List Option Server Bool

variable {φ σ : Type} {check : φ → Change σ → Bool}

section Until

variable (maxSize : Nat)

def Exceeding (l : Ledger σ) : Event σ → Bool
  | .change tid change => decide (Exceeds maxSize (l.recorded tid) change)
  | .commit _ => false
  | .rollback _ => false

def exceeded (history : List (Event σ)) : List (Event σ) → Bool
  | [] => false
  | event :: events =>
    Exceeding maxSize (ledger history) event || exceeded (history ++ [event]) events

def committedUntil (history : List (Event σ)) : List (Event σ) → List (Change σ)
  | [] => []
  | event :: events =>
    if Exceeding maxSize (ledger history) event then []
    else committedBy (ledger history) event ++ committedUntil (history ++ [event]) events

theorem exceeded_concat (history events : List (Event σ)) (event : Event σ) :
    exceeded maxSize history (events ++ [event]) =
      (exceeded maxSize history events ||
        Exceeding maxSize (ledger (history ++ events)) event) := by
  induction events generalizing history with
  | nil => simp [exceeded]
  | cons first events ih =>
    rw [cons_append, exceeded, ih, exceeded, Bool.or_assoc, append_assoc, singleton_append]

theorem committedUntil_concat (history events : List (Event σ)) (event : Event σ) :
    committedUntil maxSize history (events ++ [event]) =
      committedUntil maxSize history events ++
        if exceeded maxSize history (events ++ [event]) then []
        else committedBy (ledger (history ++ events)) event := by
  induction events generalizing history with
  | nil => simp [committedUntil, exceeded]
  | cons first events ih =>
    rw [cons_append, committedUntil, committedUntil, exceeded]
    split
    next h => simp [h]
    next h =>
      simp only [not_eq_true] at h
      rw [ih, h, Bool.false_or, append_assoc, append_assoc, singleton_append]

end Until

/-- What has been queued to a client in a period, and what is on its way, are the changes
that were on their way when it began and all that were committed in it. `owed` says that no
disconnect was on its way then. -/
structure Track (check : φ → Change σ → Bool) (maxSize : Nat) (owed : Bool)
    (earlier : List (Change σ)) (history events : List (Event σ)) (filter : φ)
    (queued : List (Change σ)) (strand : List (Callback σ)) (dbChanges : List (Change σ)) :
    Prop where
  ending : disconnects strand = (!owed || exceeded maxSize history events)
  changes : queued ++ (inFlight strand dbChanges).filter (check filter) =
    earlier ++ (if owed then committedUntil maxSize history events else []).filter (check filter)

variable {c : Client φ σ} {dbChanges' queued' final : List (Change σ)} {event : Event σ}
  {strand' : List (Callback σ)} {start : List (OutMsg σ)}

section Track

variable {memcmp : Tid → Tid → Int} {maxSize : Nat} {owed : Bool} {earlier : List (Change σ)}
  {history events : List (Event σ)} {filter : φ} {queued : List (Change σ)}
  {strand : List (Callback σ)} {dbChanges : List (Change σ)}

theorem track_start (history : List (Event σ)) (strand : List (Callback σ))
    (dbChanges : List (Change σ)) :
    Track check maxSize (!disconnects strand) ((inFlight strand dbChanges).filter (check filter))
      history [] filter [] strand dbChanges where
  ending := by simp [exceeded]
  changes := by simp [committedUntil]

section

variable (h : Track check maxSize owed earlier history events filter queued strand dbChanges)
include h

theorem Track.cut (hcut : disconnects strand = true) (event : Event σ)
    (hends : disconnects strand' = true) (hbefore : beforeEnd strand' = beforeEnd strand)
    (dbChanges' : List (Change σ)) :
    Track check maxSize owed earlier history (events ++ [event]) filter queued strand'
      dbChanges' := by
  have hstopped := h.ending
  rw [hcut] at hstopped
  have hcuts : (!owed || exceeded maxSize history (events ++ [event])) = true := by
    rw [exceeded_concat, ← Bool.or_assoc, ← hstopped, Bool.true_or]
  refine ⟨by rw [hends, hcuts], ?_⟩
  have hflight : inFlight strand' dbChanges' = inFlight strand dbChanges := by
    rw [inFlight, inFlight, hends, hcut, hbefore]
    rfl
  rw [hflight, h.changes, committedUntil_concat]
  cases owed with
  | false => rfl
  | true =>
    rw [Bool.not_true, Bool.false_or] at hcuts
    simp [hcuts]

theorem Track.extend (hgoes : disconnects strand = false) (hends : disconnects strand' =
      Exceeding maxSize (ledger (history ++ events)) event)
    (hflight : inFlight strand' dbChanges' = inFlight strand dbChanges ++
      if Exceeding maxSize (ledger (history ++ events)) event then []
      else committedBy (ledger (history ++ events)) event) :
    Track check maxSize owed earlier history (events ++ [event]) filter queued strand'
      dbChanges' := by
  have hstopped := h.ending
  rw [hgoes] at hstopped
  obtain ⟨howed, hexceeded⟩ := or_eq_false_iff.mp hstopped.symm
  rw [not_eq_false'] at howed
  subst howed
  have hnext := exceeded_concat maxSize history events event
  rw [hexceeded, Bool.false_or] at hnext
  refine ⟨by rw [hends, hnext]; rfl, ?_⟩
  rw [hflight, filter_append, ← append_assoc, h.changes, committedUntil_concat, hnext]
  simp

end

theorem beforeEnd_callbacks (strand : List (Callback σ)) (notices : List Notice) :
    beforeEnd (strand ++ notices.map Notice.callback) = beforeEnd strand := by
  have hnone : beforeEnd (notices.map Notice.callback : List (Callback σ)) = [] := by
    induction notices with
    | nil => rfl
    | cons notice notices ih => cases notice <;> simp [Notice.callback, beforeEnd, ih]
  rw [beforeEnd_append, hnone, ite_self, append_nil]

variable {s t : Server φ σ} {id : Nat}

theorem Track.handle (hmem : IsMemcmp memcmp) (hs : Good maxSize (history ++ events) s)
    (h : Track check maxSize owed earlier history events filter queued (s.strands id)
      s.dbChanges) (hjoined : disconnects (s.strands id) = false → s.joined id = true)
    (hok : EventOk memcmp maxSize s event) :
    Track check maxSize owed earlier history (events ++ [event]) filter queued
      ((s.handle memcmp maxSize event).strands id)
      (s.handle memcmp maxSize event).dbChanges := by
  obtain ⟨-, hchanges, hstrands, -⟩ := hs.handle_eq hmem hok
  rcases eq_false_or_eq_true (disconnects (s.strands id)) with hcut | hgoes
  · refine h.cut hcut event ?_ ?_ _
    · rw [hstrands]
      split
      · rw [disconnects_append, hcut, Bool.true_or]
      · exact hcut
    · rw [hstrands]
      split
      · exact beforeEnd_callbacks _ _
      · rfl
  · obtain ⟨hmember, hcond⟩ := Bool.and_eq_true_iff.mp (hjoined hgoes)
    rw [decide_eq_true_eq] at hmember
    rw [not_eq_true'] at hcond
    have hfind := hs.matching.getD_find (s := ⟨s.tmap, s.dbChanges, []⟩) (hok.told hmem)
    rw [hchanges, hstrands, if_pos hmember]
    have hends : disconnects (s.strands id ++
        ((ledger (history ++ events)).noticed maxSize event).map Notice.callback) =
        Exceeding maxSize (ledger (history ++ events)) event := by
      rw [disconnects_append, hgoes, Bool.false_or]
      cases event with
      | change tid change =>
        rw [Ledger.noticed, Exceeding]
        split
        next hexceeds => rw [decide_eq_true hexceeds]; rfl
        next hexceeds => rw [decide_eq_false hexceeds]; rfl
      | commit tid | rollback tid =>
        rw [Ledger.noticed, Exceeding, Transaction.endNotice]
        split <;> rfl
    refine h.extend hgoes hends ?_
    rw [inFlight, beforeEnd_callbacks, hends, inFlight, hgoes]
    cases event with
    | change tid change =>
      split
      next hexceeds =>
        -- nothing of the buffer is lost with the disconnect
        have hfull := fullFor_store maxSize _ _ (of_decide_eq_true hexceeds)
        have hnone : s.dbChanges = [] := hok.2 (hfind ▸ hfull) hcond
        simp [hnone]
      next => simp [Ledger.handed, committedBy]
    | commit tid =>
      have hfits : ¬maxSize < (mergeAll ((ledger (history ++ events)).recorded
          tid)).length := by
        intro hlong
        have hlarge : ((find memcmp s.tmap tid).getD Transaction.empty).maxXactCond = true := by
          rw [show (find memcmp s.tmap tid).getD Transaction.empty = _ from hfind,
            maxXactCond_store]
          exact decide_eq_true hlong
        exact absurd (hcond.symm.trans (hok.2 hlarge)) (by simp)
      simp [Exceeding, Ledger.handed, committedBy, commit_store (Nat.not_lt.mp hfits)]
    | rollback tid => simp [Exceeding, Ledger.handed, committedBy]

theorem Track.move (h : Track check maxSize owed earlier history events filter queued strand
      dbChanges) (hends : disconnects strand' = disconnects strand)
    (hmoved : queued' ++ (inFlight strand' dbChanges').filter (check filter) =
      queued ++ (inFlight strand dbChanges).filter (check filter)) :
    Track check maxSize owed earlier history events filter queued' strand' dbChanges' where
  ending := by rw [hends, h.ending]
  changes := by
    rw [hmoved]
    exact h.changes

theorem LaneOk.joined_of_connected {watching joined : Bool} (h : LaneOk watching joined c strand)
    (hconnected : c.connected = true) (hshut : c.shutdownInd = false)
    (hgoes : disconnects strand = false) : joined = true := by
  rw [← h.ending (h.watched hconnected) hshut, hconnected, willBeConnected_true hgoes]

theorem Track.foldl_handle (hmem : IsMemcmp memcmp)
    (hs : Good maxSize (history ++ events) s) (hwatching : s.watching = true)
    (h : Track check maxSize owed earlier history events filter queued (s.strands id)
      s.dbChanges)
    (hconnected : (s.clients id).connected = true)
    (hshut : (s.clients id).shutdownInd = false) {more : List (Event σ)}
    (hmeets : RunMeets (fun s event => some (s.handle memcmp maxSize event))
      (EventOk memcmp maxSize) s more) :
    Track check maxSize owed earlier history (events ++ more) filter queued
      ((more.foldl (Server.handle memcmp maxSize) s).strands id)
      (more.foldl (Server.handle memcmp maxSize) s).dbChanges := by
  induction more generalizing events s with
  | nil => simpa using h
  | cons event more ih =>
    have hjoined := (hs.consistent.lane id).joined_of_connected hconnected hshut
    have hclients := (hs.handle_eq hmem hmeets.1).1
    have hnext := hs.handle hmem hwatching hmeets.1
    rw [append_assoc] at hnext
    rw [append_cons, foldl_cons]
    exact ih hnext (hs.consistent.handle hwatching memcmp maxSize event).2
      (h.handle hmem hs hjoined hmeets.1) (by rw [hclients, hconnected])
      (by rw [hclients, hshut]) (hmeets.2 _ rfl)

theorem control_not_changes {msg : OutMsg σ} {queued : List (Change σ)}
    (hcontrol : ∀ change, msg ≠ .change change)
    (h : start ++ queued.map .change ++ [msg] = start ++ queued'.map .change) : False := by
  rw [append_assoc, append_right_inj] at h
  have hmsg : msg ∈ queued'.map OutMsg.change := by
    rw [← h]
    simp
  obtain ⟨change, -, rfl⟩ := mem_map.mp hmsg
  exact hcontrol change rfl

theorem changes_inj {queued : List (Change σ)}
    (h : start ++ queued.map .change = start ++ queued'.map .change) : queued = queued' := by
  rw [append_right_inj] at h
  exact map_injective_iff.mpr (fun _ _ h => OutMsg.change.inj h) h

theorem Outcome.period {told : List (Change σ)} {r : Client φ σ × List Task}
    (h : Outcome check c told r) (hconnected : c.connected = true) (hshut : r.1.shutdownInd = false)
    {queued : List (Change σ)} (hqueued : c.queued = start ++ queued.map .change)
    (hqueued' : r.1.queued = start ++ queued'.map .change) :
    r.1.filter = c.filter ∧ queued' = queued ++ told.filter (check c.filter) := by
  cases h with
  | same hsame _ hfilter =>
    refine ⟨hfilter, ?_⟩
    rw [filter_nil, append_nil]
    exact changes_inj (hqueued'.symm.trans (hsame.trans hqueued))
  | refilter _ _ hbefore | removed hbefore => exact absurd (hbefore.symm.trans hconnected) (by simp)
  | shut _ _ hshutdown => exact absurd (hshutdown.symm.trans hshut) (by simp)
  | started filterId hnew | ended hnew | early filterId hnew =>
    rw [hqueued] at hnew
    exact (control_not_changes (by simp) (hnew.symm.trans hqueued')).elim
  | changes _ hnew _ _ hfilter =>
    refine ⟨hfilter, ?_⟩
    rw [hqueued, append_assoc, ← map_append] at hnew
    exact changes_inj (hqueued'.symm.trans hnew)

theorem addClientImpl_lane (hs : Consistent s) (hconnected : (s.clients id).connected = true)
    (added : Nat) (ok : Bool) : (s.addClientImpl added ok).strands id = s.strands id ∨
      (s.addClientImpl added ok).strands id = s.strands id ++ [.connected true] := by
  have hwatching := (hs.lane id).watched hconnected
  unfold addClientImpl
  dsimp only
  split
  · exact .inl rfl
  · by_cases hid : id = added
    · subst hid
      right
      simp [post]
    · left
      simp [post, hid]

theorem inFlight_connected (strand : List (Callback σ)) (dbChanges : List (Change σ)) :
    inFlight (strand ++ [.connected true]) dbChanges = inFlight strand dbChanges := by
  simp [inFlight, beforeEnd_append, beforeEnd, disconnects]

theorem inFlight_cons_dbChanges (changes : List (Change σ)) (rest : List (Callback σ))
    (dbChanges : List (Change σ)) :
    inFlight (.dbChanges changes :: rest) dbChanges = changes ++ inFlight rest dbChanges := by
  rw [inFlight, beforeEnd, append_assoc]
  rfl

theorem endBatch_lane (hjoined : disconnects (s.strands id) = false → s.joined id = true) :
    disconnects (s.endBatch.strands id) = disconnects (s.strands id) ∧
      inFlight (s.endBatch.strands id) s.endBatch.dbChanges =
        inFlight (s.strands id) s.dbChanges := by
  rcases eq_false_or_eq_true (disconnects (s.strands id)) with hcut | hgoes
  · unfold endBatch
    split
    · refine ⟨rfl, ?_⟩
      simp [inFlight, hcut]
    · by_cases hid : id ∈ s.members
      · simp [postAll, hid, inFlight, hcut, beforeEnd_append]
      · simp [postAll, hid, inFlight, hcut]
  · obtain ⟨hmember, hcond⟩ := Bool.and_eq_true_iff.mp (hjoined hgoes)
    rw [decide_eq_true_eq] at hmember
    rw [not_eq_true'] at hcond
    unfold endBatch
    split
    next hnone =>
      have hempty : s.dbChanges = [] := by
        have hsome : s.members.isEmpty = false := by
          rw [isEmpty_eq_false_iff]
          exact ne_nil_of_mem hmember
        simpa [hsome, hcond] using hnone
      exact ⟨rfl, by rw [hempty]⟩
    next => simp [postAll, hmember, inFlight, hgoes, beforeEnd_append, beforeEnd, disconnects]

theorem queued_between {msgs : List (OutMsg σ)} (hstart : start <+: msgs)
    (hfinal : msgs <+: start ++ final.map .change) :
    ∃ queued : List (Change σ), msgs = start ++ queued.map .change := by
  obtain ⟨rest, rfl⟩ := hstart
  rw [prefix_append_right_inj] at hfinal
  obtain ⟨later, hlater⟩ := hfinal
  obtain ⟨queued, -, -, rfl, -⟩ := map_eq_append_iff.mp hlater.symm
  exact ⟨queued, rfl⟩

section

variable (hmem : IsMemcmp memcmp) (hs : Good maxSize (history ++ events) s)
  (hstart : latestControl start = some true)
  (hqueued : (s.clients id).queued = start ++ queued.map .change)
  (hshut : (t.clients id).shutdownInd = false)
  (h : Track check maxSize owed earlier history events (s.clients id).filter queued
    (s.strands id) s.dbChanges)
include hmem hs hstart hqueued hshut h

theorem Track.step {label : Label φ σ} (hsound : Sound memcmp maxSize s label)
    (hstep : step check memcmp maxSize s label = some t)
    (hqueued' : (t.clients id).queued = start ++ queued'.map .change) :
    (t.clients id).filter = (s.clients id).filter ∧
      Track check maxSize owed earlier history (events ++ label.events) (s.clients id).filter
        queued' (t.strands id) t.dbChanges := by
  have hnot := (step_extends hstep id).running hshut
  have hlane := hs.consistent.lane id
  have hconnected : (s.clients id).connected = true := by
    apply hlane.control hnot
    rw [hqueued, latestControl_changes, hstart]
  have hjoined := hlane.joined_of_connected hconnected hnot
  rcases label_cases label with ⟨hevents, hclient⟩ | hmonitor
  · obtain ⟨own, told, rest, r, houtcome, rfl, hrest⟩ := step_client hstep hclient
    rw [hevents, append_nil]
    by_cases hid : id = own
    · subst hid
      simp only [onClient, Function.update_self] at hqueued' hshut ⊢
      obtain ⟨hfilter, rfl⟩ := houtcome.period hconnected hshut hqueued hqueued'
      refine ⟨hfilter, ?_⟩
      rcases hrest with ⟨rfl, rfl⟩ | ⟨callback, hstrand, rfl, rfl⟩
      · simpa using h
      · rw [hstrand] at h
        rcases callback with ⟨_ | _⟩ | changes
        · -- a disconnect of a connected client would have queued an ended event
          rcases notifyConnected_eq hnot false with ⟨hc, -⟩ | ⟨d, hd, hended, -⟩
          · exact absurd (hconnected.symm.trans hc) (by simp)
          · simp only [Client.handle, hd] at hqueued'
            rw [hended, hqueued] at hqueued'
            exact (control_not_changes (by simp) hqueued').elim
        · refine h.move rfl ?_
          rw [Callback.changes, filter_nil, append_nil]
          rfl
        · refine h.move rfl ?_
          rw [inFlight_cons_dbChanges, Callback.changes, filter_append, append_assoc]
    · simp only [onClient, Function.update_of_ne hid] at hqueued' ⊢
      obtain rfl := changes_inj (hqueued.symm.trans hqueued')
      exact ⟨trivial, h⟩
  · have hclients := step_monitor hstep hmonitor
    rw [hclients] at hqueued' ⊢
    obtain rfl := changes_inj (hqueued.symm.trans hqueued')
    refine ⟨rfl, ?_⟩
    rcases hmonitor with ⟨ok, rfl⟩ | ⟨r, rfl⟩ | rfl
    · have hevents : (Label.task ok : Label φ σ).events = [] := rfl
      rw [hevents, append_nil]
      obtain ⟨-, hstep⟩ := ite_none_left_eq_some.mp hstep
      split at hstep
      next => cases hstep
      next added rest htasks =>
        cases hstep
        rw [(addClientImpl_rest _ _ _).2.1]
        rcases addClientImpl_lane (hs.consistent.dropTask htasks) hconnected added ok with
          hsame | hposted
        · rw [hsame]
          exact h
        · rw [hposted]
          refine h.move (by simp [disconnects]) ?_
          rw [inFlight_connected]
      next removed rest _ =>
        cases hstep
        exact h
    · obtain ⟨hwatching, hstep⟩ := ite_none_right_eq_some.mp hstep
      rw [processLogRecord_eq] at hstep
      cases hstep
      exact h.foldl_handle hmem (hs.begin hwatching) hwatching hconnected hnot hsound.begin
    · have hevents : (Label.endBatch : Label φ σ).events = [] := rfl
      rw [hevents, append_nil]
      obtain ⟨-, hstep⟩ := ite_none_right_eq_some.mp hstep
      cases hstep
      obtain ⟨hends, hflight⟩ := endBatch_lane hjoined
      exact h.move hends (by rw [hflight])

theorem track_run {labels : List (Label φ σ)} (hmeets : RunMeets (step check memcmp maxSize)
      (Sound memcmp maxSize) s labels)
    (hrun : run (step check memcmp maxSize) s labels = some t)
    (hfinal : (t.clients id).queued = start ++ final.map .change) :
    Track check maxSize owed earlier history (events ++ logOf labels) (s.clients id).filter
      final (t.strands id) t.dbChanges := by
  induction labels generalizing s events queued with
  | nil =>
    cases hrun
    obtain rfl := changes_inj (hqueued.symm.trans hfinal)
    simpa [logOf] using h
  | cons label labels ih =>
    obtain ⟨u, hu, hrest⟩ := bind_eq_some_iff.mp hrun
    have hext := run_extends hrest id
    have hushut := hext.running hshut
    have hbefore : start <+: (u.clients id).queued :=
      IsPrefix.trans (by rw [hqueued]; exact prefix_append _ _)
        (step_extends hu id).queued
    obtain ⟨next, hnext⟩ := queued_between hbefore (by rw [← hfinal]; exact hext.queued)
    obtain ⟨hfilter, htrack⟩ :=
      h.step hmem hs hstart hqueued hushut hmeets.1 hu hnext
    have hgood := hs.step hmem hmeets.1 hu
    rw [append_assoc] at hgood
    rw [← hfilter] at htrack ⊢
    have := ih hgood hnext htrack (hmeets.2 u hu) hrest
    rw [append_assoc] at this
    exact this

end

end Track

/-- The run from `s` to `t` began with a started event as the last message of the client. As
long as only changes are queued to the client and it is not shut down, what has been queued and
what is on its way are the changes that were on their way then, and every change committed
since, as far as they pass the filter, until a disconnect is sent to the client. -/
def PeriodComplete (check : φ → Change σ → Bool) (maxSize : Nat)
    (before after : List (Label φ σ)) (s t : Server φ σ) (id : Nat) : Prop :=
  ∀ filterId start queued, (s.clients id).queued = start ++ [.started filterId] →
    (t.clients id).queued = (s.clients id).queued ++ queued.map .change →
    (t.clients id).shutdownInd = false →
    queued ++ (inFlight (t.strands id) t.dbChanges).filter (check (s.clients id).filter) =
      (inFlight (s.strands id) s.dbChanges ++ if disconnects (s.strands id) then []
        else committedUntil maxSize (logOf before) (logOf after)).filter
          (check (s.clients id).filter)

def passAll (_ : Unit) (_ : Change Bool) : Bool := true

def signMemcmp (a b : Tid) : Int := (firstDifference a.toList b.toList).sign

def sampleStep : Server Unit Bool → Label Unit Bool → Option (Server Unit Bool) :=
  step passAll signMemcmp 1

def sampleChange (id : Nat) : Change Bool := .added (.job id) false id

def sampleRecord (tid : Fin 256) (id : Nat) (commits : Bool) : Label Unit Bool :=
  .record (.normal (.replicate 6 tid) (some (sampleChange id)) commits)

def startClient (id : Nat) : List (Label Unit Bool) :=
  [.receive id (.startRealtime () 1), .task true, .callback id]

/-- The period between the two parts of a run is not complete. -/
def Incomplete (before after : List (Label Unit Bool)) (id : Nat) : Prop :=
  ∃ s t, run sampleStep (Server.init ()) before = some s ∧ run sampleStep s after = some t ∧
    ¬PeriodComplete passAll 1 before after s t id

theorem incomplete (start : List (OutMsg Bool)) {before after : List (Label Unit Bool)}
    {id : Nat} (hbefore : (run sampleStep (Server.init ()) before).map (fun s =>
      ((s.clients id).queued, disconnects (s.strands id))) = some (start ++ [.started 1], false))
    (hafter : (run sampleStep (Server.init ()) (before ++ after)).map (fun t =>
      ((t.clients id).queued, (t.clients id).shutdownInd,
        inFlight (t.strands id) t.dbChanges)) = some (start ++ [.started 1], false, []))
    (hcommitted : committedUntil 1 (logOf before) (logOf after) ≠ []) :
    Incomplete before after id := by
  obtain ⟨s, hs, hbefore⟩ := map_eq_some_iff.mp hbefore
  obtain ⟨t, ht, hafter⟩ := map_eq_some_iff.mp hafter
  rw [run_append, hs, bind_some] at ht
  simp only [Prod.mk.injEq] at hbefore hafter
  refine ⟨s, t, hs, ht, fun hcomplete => ?_⟩
  have hchanges := hcomplete 1 start [] hbefore.1 (by rw [hafter.1, hbefore.1]; simp) hafter.2.1
  rw [hafter.2.2, hbefore.2, if_neg (by simp), filter_eq_self.mpr (by simp [passAll]),
    filter_eq_self.mpr (by simp [passAll])] at hchanges
  exact hcommitted (append_eq_nil_iff.mp hchanges.symm).2

end BgqDriver.RealtimeServer
