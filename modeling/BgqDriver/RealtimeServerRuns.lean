import BgqDriver.RealtimeServerMonitor

/-!
Runs of the real-time server: the condition on their steps, and what holds after every run
that meets it.
-/

namespace BgqDriver.RealtimeServer

open DbTransactions EventRuns List Option Server Function

variable {φ σ : Type} {check : φ → Change σ → Bool}

def Label.events : Label φ σ → List (Event σ)
  | .record r => r.events
  | _ => []

def logOf (labels : List (Label φ σ)) : List (Event σ) := labels.flatMap Label.events

def committedBy (l : Ledger σ) : Event σ → List (Change σ)
  | .change _ _ => []
  | .commit tid => mergeAll (l.recorded tid)
  | .rollback _ => []

theorem merged_note (l : Ledger σ) (event : Event σ) :
    (l.note event).merged = l.merged ++ committedBy l event := by
  cases event <;> simp [Ledger.note, Ledger.merged, committedBy]

section Condition

variable (memcmp : Tid → Tid → Int) (maxSize : Nat)

/-- The transaction has as many changes as it may have, and the change does not merge. -/
def fullFor (t : Transaction σ) (change : Change σ) : Bool :=
  !t.maxXactCond && (mergeChange t.dbChanges change).isNone &&
    t.dbChanges.length == maxSize

/-- The comparison tells the id of the event from those of the other open transactions. A
transaction gets too large, while none is, only before the buffer has committed changes, and a
transaction that is too large is committed only while the clients are disconnected. -/
def EventOk (s : Server φ σ) (event : Event σ) : Prop :=
  (∀ entry ∈ s.tmap, Tells memcmp event.tid entry.1) ∧
  match event with
  | .change tid change =>
    fullFor maxSize ((find memcmp s.tmap tid).getD Transaction.empty) change = true →
      s.maxTransactCond = false → s.dbChanges = []
  | .commit tid =>
    ((find memcmp s.tmap tid).getD Transaction.empty).maxXactCond = true →
      s.maxTransactCond = true
  | .rollback _ => True

/-- A start message does not come while the client waits for the monitor, and the events of a
record are in order. -/
def Sound (s : Server φ σ) : Label φ σ → Prop
  | .receive id (.startRealtime _ _) =>
    (s.clients id).shutdownInd = false → (s.clients id).waiting = false
  | .record record =>
    RunMeets (fun s event => some (s.handle memcmp maxSize event))
      (EventOk memcmp maxSize) s record.events
  | _ => True

instance (s : Server φ σ) : ∀ event, Decidable (EventOk memcmp maxSize s event)
  | .change _ _ => inferInstanceAs (Decidable (_ ∧ (_ → _ → _)))
  | .commit _ => inferInstanceAs (Decidable (_ ∧ (_ → _)))
  | .rollback _ => inferInstanceAs (Decidable (_ ∧ True))

instance (s : Server φ σ) : ∀ label, Decidable (Sound memcmp maxSize s label)
  | .receive _ (.startRealtime _ _) => inferInstanceAs (Decidable (_ → _))
  | .receive _ .invalid => inferInstanceAs (Decidable True)
  | .writeComplete _ _ => inferInstanceAs (Decidable True)
  | .callback _ => inferInstanceAs (Decidable True)
  | .task _ => inferInstanceAs (Decidable True)
  | .record _ => inferInstanceAs (Decidable (RunMeets _ _ _ _))
  | .endBatch => inferInstanceAs (Decidable True)

end Condition

theorem maxXactCond_store (maxSize : Nat) (changes : List (Change σ)) :
    (store maxSize changes).maxXactCond =
      decide (maxSize < (mergeAll changes).length) := by
  unfold store
  split
  next h => simp [h]
  next h => simpa using h

theorem fullFor_store (maxSize : Nat) (changes : List (Change σ)) (change : Change σ)
    (h : Exceeds maxSize changes change) :
    fullFor maxSize (store maxSize changes) change = true := by
  obtain ⟨hfits, hlong⟩ := h
  rw [mergeAll_concat] at hlong
  have hnone : mergeChange (mergeAll changes) change = none := by
    cases hmerged : mergeChange (mergeAll changes) change with
    | none => rfl
    | some merged =>
      rw [hmerged, getD_some, length_mergeChange hmerged] at hlong
      omega
  rw [hnone, getD_none, length_append, length_singleton] at hlong
  have hlength : (mergeAll changes).length = maxSize := by omega
  simp [fullFor, store, hnone, hlength]

structure Good (maxSize : Nat) (events : List (Event σ)) (s : Server φ σ) : Prop where
  consistent : Consistent s
  matching : Matches maxSize events s.tmap
  /-- What has been queued to a client and what is on its way has been committed, in this
  order. -/
  accounted : ∀ id,
    (queuedChanges (s.clients id).queued ++ strandChanges (s.strands id) ++ s.dbChanges).Sublist
      (ledger events).merged

variable {memcmp : Tid → Tid → Int} {maxSize : Nat} {events : List (Event σ)}
  {s t : Server φ σ} {id : Nat} {event : Event σ}

theorem foldl_notify_strands (notices : List Notice) (s : Server φ σ) (id : Nat) :
    (notices.foldl notify s).strands id =
      if id ∈ s.members then s.strands id ++ notices.map Notice.callback else s.strands id := by
  induction notices generalizing s with
  | nil => simp
  | cons notice notices ih =>
    rw [foldl_cons, ih, notify_eq]
    by_cases hid : id ∈ s.members <;> simp [postAll, hid]

theorem foldl_notify_rest (notices : List Notice) (s : Server φ σ) :
    (notices.foldl notify s).clients = s.clients ∧
      (notices.foldl notify s).tmap = s.tmap ∧
      (notices.foldl notify s).dbChanges = s.dbChanges := by
  induction notices generalizing s with
  | nil => exact ⟨rfl, rfl, rfl⟩
  | cons notice notices ih => cases notice <;> exact ih (s.notify _)

theorem strandChanges_callbacks (notices : List Notice) :
    strandChanges (notices.map Notice.callback : List (Callback σ)) = [] := by
  induction notices with
  | nil => rfl
  | cons notice notices ih => cases notice <;> exact ih

theorem EventOk.told (hmem : IsMemcmp memcmp) (hok : EventOk memcmp maxSize s event) :
    Told memcmp event.tid s.tmap :=
  fun entry hentry => equivalent_eq hmem (hok.1 entry hentry)

theorem Good.handle_eq (hmem : IsMemcmp memcmp) (hs : Good maxSize events s)
    (hok : EventOk memcmp maxSize s event) : (s.handle memcmp maxSize event).clients = s.clients ∧
      (s.handle memcmp maxSize event).dbChanges =
        s.dbChanges ++ (ledger events).handed maxSize event ∧
      (∀ id, (s.handle memcmp maxSize event).strands id =
        if id ∈ s.members then
          s.strands id ++ ((ledger events).noticed maxSize event).map Notice.callback
        else s.strands id) ∧
      Matches maxSize (events ++ [event])
        (s.handle memcmp maxSize event).tmap := by
  have htold := hok.told hmem
  have hmatching : Matches maxSize events
      (State.mk s.tmap s.dbChanges []).tmap := hs.matching
  obtain ⟨hclients, htmap, hchanges⟩ := foldl_notify_rest
    (State.handle memcmp maxSize ⟨s.tmap, s.dbChanges, []⟩ event).notices
    (s.withLog (State.handle memcmp maxSize ⟨s.tmap, s.dbChanges, []⟩ event))
  refine ⟨hclients, hchanges.trans (hmatching.handle_dbChanges htold), fun id => ?_, ?_⟩
  · rw [Server.handle, foldl_notify_strands, hmatching.handle_notices htold, nil_append]
    rfl
  · rw [Server.handle, htmap]
    exact hmatching.handle htold

theorem handed_sublist (maxSize : Nat) (l : Ledger σ) (event : Event σ) :
    (l.handed maxSize event).Sublist (committedBy l event) := by
  cases event with
  | change tid change | rollback tid => exact Sublist.refl _
  | commit tid =>
    simp only [Ledger.handed, store, committedBy]
    split
    · exact Sublist.refl _
    · exact nil_sublist _

theorem Good.handle (hmem : IsMemcmp memcmp) (hs : Good maxSize events s)
    (hwatching : s.watching = true) (hok : EventOk memcmp maxSize s event) :
    Good maxSize (events ++ [event]) (s.handle memcmp maxSize event) where
  consistent := (hs.consistent.handle hwatching memcmp maxSize event).1
  matching := (hs.handle_eq hmem hok).2.2.2
  accounted := by
    intro id
    obtain ⟨hclients, hchanges, hstrands, -⟩ := hs.handle_eq hmem hok
    have hsame : strandChanges ((s.handle memcmp maxSize event).strands id) =
        strandChanges (s.strands id) := by
      rw [hstrands]
      split
      · rw [strandChanges_append, strandChanges_callbacks, append_nil]
      · rfl
    rw [hclients, hsame, hchanges, ledger_concat, merged_note, ← append_assoc]
    exact (hs.accounted id).append (handed_sublist _ _ _)

variable {label : Label φ σ} {labels : List (Label φ σ)}

theorem addClientImpl_rest (s : Server φ σ) (added : Nat) (ok : Bool) :
    (s.addClientImpl added ok).clients = s.clients ∧
      (s.addClientImpl added ok).dbChanges = s.dbChanges ∧
      (s.addClientImpl added ok).tmap = s.tmap := by
  fun_cases addClientImpl s added ok <;> exact ⟨rfl, rfl, rfl⟩

section

variable (hstep : step check memcmp maxSize s label = some t)
include hstep

theorem step_client
    (hclient : (∃ id msg, label = .receive id msg) ∨ (∃ id ok, label = .writeComplete id ok) ∨
      ∃ id, label = .callback id) :
    ∃ id told rest r, Outcome check (s.clients id) told r ∧
      t = { s with strands := update s.strands id rest }.onClient id r ∧
      ((told = [] ∧ rest = s.strands id) ∨ ∃ callback, s.strands id = callback :: rest ∧
        told = callback.changes ∧ r = (s.clients id).handle check callback) := by
  rcases hclient with ⟨id, msg, rfl⟩ | ⟨id, ok, rfl⟩ | ⟨id, rfl⟩
  · cases hstep
    exact ⟨id, [], s.strands id, _, Client.receive_outcome check _ msg,
      by rw [update_strand_self], .inl ⟨rfl, rfl⟩⟩
  · obtain ⟨-, ht⟩ := ite_none_left_eq_some.mp hstep
    cases ht
    exact ⟨id, [], s.strands id, _, Client.writeComplete_outcome check _ ok,
      by rw [update_strand_self], .inl ⟨rfl, rfl⟩⟩
  · rw [step] at hstep
    split at hstep
    next => cases hstep
    next callback rest hstrand =>
      cases hstep
      exact ⟨id, callback.changes, rest, _, Client.handle_outcome check _ callback, rfl,
        .inr ⟨callback, hstrand, rfl, rfl⟩⟩

theorem step_monitor
    (hmonitor : (∃ ok, label = .task ok) ∨ (∃ r, label = .record r) ∨ label = .endBatch) :
    t.clients = s.clients := by
  rcases hmonitor with ⟨ok, rfl⟩ | ⟨r, rfl⟩ | rfl
  · obtain ⟨-, hstep⟩ := ite_none_left_eq_some.mp hstep
    split at hstep
    next => cases hstep
    next id rest _ =>
      cases hstep
      exact (addClientImpl_rest _ id ok).1
    next id rest _ =>
      cases hstep
      rfl
  · obtain ⟨-, hstep⟩ := ite_none_right_eq_some.mp hstep
    obtain ⟨u, -, rfl⟩ := map_eq_some_iff.mp hstep
    exact (foldl_notify_rest u.notices (s.withLog u)).1
  · obtain ⟨-, hstep⟩ := ite_none_right_eq_some.mp hstep
    cases hstep
    unfold Server.endBatch
    split <;> rfl

omit hstep in
theorem label_cases (label : Label φ σ) :
    (label.events = [] ∧ ((∃ id msg, label = .receive id msg) ∨
      (∃ id ok, label = .writeComplete id ok) ∨ ∃ id, label = .callback id)) ∨
    ((∃ ok, label = .task ok) ∨ (∃ r, label = .record r) ∨ label = .endBatch) := by
  cases label <;> simp [Label.events]

theorem step_clients {P : Client φ σ → Client φ σ → Prop} (hsame : ∀ c, P c c)
    (houtcome : ∀ c told r, Outcome check c told r → P c r.1) (id : Nat) :
    P (s.clients id) (t.clients id) := by
  rcases label_cases label with ⟨-, hclient⟩ | hmonitor
  · obtain ⟨own, told, rest, r, hr, rfl, -⟩ := step_client hstep hclient
    by_cases hid : id = own
    · subst hid
      simpa [onClient] using houtcome _ _ _ hr
    · simpa [onClient, hid] using hsame (s.clients id)
  · rw [step_monitor hstep hmonitor]
    exact hsame _

theorem step_extends (id : Nat) : Extends (s.clients id) (t.clients id) :=
  step_clients hstep Extends.rfl (fun _ _ _ h => h.extends) id

theorem step_placed (hs : Placed (s.clients id)) : Placed (t.clients id) :=
  step_clients hstep (P := fun c d => Placed c → Placed d) (fun _ h => h)
    (fun _ _ _ h => h.placed) id hs

end

theorem Good.foldl_handle (hmem : IsMemcmp memcmp) (hs : Good maxSize events s)
    (hwatching : s.watching = true) {more : List (Event σ)}
    (hmeets : RunMeets (fun s event => some (s.handle memcmp maxSize event))
      (EventOk memcmp maxSize) s more) : Good maxSize (events ++ more)
      (more.foldl (Server.handle memcmp maxSize) s) := by
  induction more generalizing events s with
  | nil => simpa using hs
  | cons event more ih =>
    rw [append_cons]
    exact ih (hs.handle hmem hwatching hmeets.1)
      (hs.consistent.handle hwatching memcmp maxSize event).2 (hmeets.2 _ rfl)

theorem Sound.begin {record : Record σ} (hsound : Sound memcmp maxSize s (.record record)) :
    RunMeets (fun s event => some (s.handle memcmp maxSize event)) (EventOk memcmp maxSize)
      { s with inBatch := true } record.events := by
  change RunMeets _ _ s _ at hsound
  cases hevents : record.events with
  | nil => trivial
  | cons event events =>
    rw [hevents] at hsound
    exact hsound

theorem Good.begin (hs : Good maxSize events s)
    (hwatching : s.watching = true) :
    Good maxSize events { s with inBatch := true } where
  consistent := hs.consistent.monitor rfl rfl hs.consistent.lane (by simp) (fun _ => hwatching)
    (by simp [hwatching])
  matching := hs.matching
  accounted := hs.accounted

theorem Consistent.step (hs : Consistent s) (hsound : Sound memcmp maxSize s label)
    (hstep : step check memcmp maxSize s label = some t) : Consistent t := by
  revert hstep
  fun_cases RealtimeServer.step check memcmp maxSize s label <;> intro hstep
  case case10 r hwatching =>
    obtain ⟨u, -, rfl⟩ := map_eq_some_iff.mp hstep
    exact ((hs.withLog hwatching u).foldl_notify hwatching u.notices).1
  all_goals cases hstep
  case case1 id msg =>
    refine hs.receive fun hshut hmsg => ?_
    cases msg with
    | startRealtime filter filterId => exact hsound hshut
    | invalid => exact absurd rfl hmsg
  case case3 => exact hs.writeComplete _ _
  case case5 hstrand => exact hs.callback check hstrand
  case case8 hidle id rest htasks =>
    simp only [Bool.or_eq_true, not_or, Bool.not_eq_true] at hidle
    exact (hs.dropTask htasks).addClientImpl hidle.1 hidle.2 id _
  case case9 id rest htasks =>
    exact (hs.dropTask htasks).removeClientImpl (hs.removal id (by simp [htasks]))
  case case12 hbatch => exact hs.endBatch hbatch

theorem strandChanges_addClientImpl (s : Server φ σ) (added : Nat) (ok : Bool) (id : Nat) :
    strandChanges ((s.addClientImpl added ok).strands id) = strandChanges (s.strands id) := by
  have hpost : ∀ (u : Server φ σ) (isConnected : Bool), u.strands = s.strands →
      strandChanges ((u.post added (.connected isConnected)).strands id) =
        strandChanges (s.strands id) := by
    intro u isConnected hu
    by_cases hid : id = added
    · subst hid
      simp [post, hu, strandChanges]
    · simp [post, hu, hid]
  fun_cases addClientImpl s added ok
  case case1 => rfl
  all_goals exact hpost _ _ rfl

theorem strandChanges_endBatch (s : Server φ σ) (id : Nat) :
    (strandChanges (s.endBatch.strands id) ++ s.endBatch.dbChanges).Sublist
      (strandChanges (s.strands id) ++ s.dbChanges) := by
  unfold Server.endBatch
  split
  · exact (Sublist.refl _).append (nil_sublist _)
  · by_cases hid : id ∈ s.members
    · simp [postAll, hid, strandChanges]
    · simp [postAll, hid]

theorem Good.step (hmem : IsMemcmp memcmp) (hs : Good maxSize events s)
    (hsound : Sound memcmp maxSize s label)
    (hstep : step check memcmp maxSize s label = some t) :
    Good maxSize (events ++ label.events) t := by
  have hconsistent := hs.consistent.step hsound hstep
  rcases label_cases label with ⟨hevents, hclient⟩ | ⟨ok, rfl⟩ | ⟨r, rfl⟩ | rfl
  · obtain ⟨own, told, rest, r, houtcome, rfl, hrest⟩ := step_client hstep hclient
    rw [hevents, append_nil]
    refine ⟨hconsistent, hs.matching, fun id => ?_⟩
    by_cases hid : id = own
    · subst hid
      have hstrand : strandChanges (s.strands id) = told ++ strandChanges rest := by
        rcases hrest with ⟨rfl, rfl⟩ | ⟨callback, hstrand, rfl, -⟩
        · rfl
        · rw [hstrand]
          cases callback <;> rfl
      obtain ⟨new, hnew, hqueued⟩ := houtcome.queuedChanges
      have haccounted := hs.accounted id
      simp only [onClient, update_self]
      rw [hstrand] at haccounted
      rw [hqueued, append_assoc (queuedChanges _)]
      exact (((Sublist.refl _).append (hnew.append (Sublist.refl _))).append
        (Sublist.refl _)).trans haccounted
    · simp only [onClient, update_of_ne hid]
      exact hs.accounted id
  · have hevents : (Label.task ok : Label φ σ).events = [] := rfl
    rw [hevents, append_nil]
    have hclients := step_monitor hstep (.inl ⟨ok, rfl⟩)
    obtain ⟨-, hstep⟩ := ite_none_left_eq_some.mp hstep
    split at hstep
    next => cases hstep
    next id rest _ =>
      cases hstep
      obtain ⟨-, hchanges, htmap⟩ := addClientImpl_rest { s with tasks := rest } id ok
      refine ⟨hconsistent, by rw [htmap]; exact hs.matching, fun other => ?_⟩
      rw [strandChanges_addClientImpl, hchanges, hclients]
      exact hs.accounted other
    next id rest _ =>
      cases hstep
      exact ⟨hconsistent, hs.matching, hs.accounted⟩
  · obtain ⟨hwatching, hstep⟩ := ite_none_right_eq_some.mp hstep
    rw [processLogRecord_eq] at hstep
    cases hstep
    exact (hs.begin hwatching).foldl_handle hmem hwatching hsound.begin
  · have hevents : (Label.endBatch : Label φ σ).events = [] := rfl
    rw [hevents, append_nil]
    have hclients := step_monitor hstep (.inr (.inr rfl))
    obtain ⟨-, hstep⟩ := ite_none_right_eq_some.mp hstep
    cases hstep
    refine ⟨hconsistent, ?_, fun id => ?_⟩
    rotate_left
    · rw [hclients, append_assoc]
      exact ((Sublist.refl _).append (strandChanges_endBatch s id)).trans
        (by rw [← append_assoc]; exact hs.accounted id)
    unfold Server.endBatch
    split <;> exact hs.matching

theorem run_extends (hrun : run (step check memcmp maxSize) s labels = some t) (id : Nat) :
    Extends (s.clients id) (t.clients id) := by
  induction labels generalizing s with
  | nil =>
    cases hrun
    exact Extends.rfl _
  | cons label labels ih =>
    obtain ⟨u, hu, hrest⟩ := bind_eq_some_iff.mp hrun
    exact (step_extends hu id).trans (ih hrest)

theorem good_run (hmem : IsMemcmp memcmp) (hs : Good maxSize events s)
    (hmeets : RunMeets (step check memcmp maxSize) (Sound memcmp maxSize) s
      labels) (hrun : run (step check memcmp maxSize) s labels = some t) :
    Good maxSize (events ++ logOf labels) t := by
  induction labels generalizing s events with
  | nil =>
    cases hrun
    simpa [logOf] using hs
  | cons label labels ih =>
    obtain ⟨u, hu, hrest⟩ := bind_eq_some_iff.mp hrun
    have hnext := ih (hs.step hmem hmeets.1 hu) (hmeets.2 u hu) hrest
    rw [append_assoc] at hnext
    exact hnext

theorem good_init (maxSize : Nat) (filter : φ) :
    Good maxSize [] (Server.init filter : Server φ σ) where
  consistent := consistent_init filter
  matching := matches_nil maxSize
  accounted := by
    intro id
    simp [Server.init, strandChanges, Client.init, Client.queued, queuedChanges]

theorem run_placed (hs : Placed (s.clients id))
    (hrun : run (step check memcmp maxSize) s labels = some t) : Placed (t.clients id) :=
  run_invariant (fun _ u => Placed (u.clients id)) hs
    (fun _ _ _ _ _ hu hstep => step_placed hstep hu) hrun

end BgqDriver.RealtimeServer
