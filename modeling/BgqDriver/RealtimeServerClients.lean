import BgqDriver.RealtimeServer

/-!
What the handlers of one client do to the messages queued to it, and what the callbacks on its
strand are going to do.
-/

namespace BgqDriver.RealtimeServer

open DbTransactions List Client Bool

variable {φ σ : Type} {check : φ → Change σ → Bool} {c : Client φ σ}

/-- The latest control event: whether it is a started event -/
def latestControl : List (OutMsg σ) → Option Bool :=
  foldl (fun latest msg =>
    match msg with
    | .started _ => some true
    | .ended => some false
    | .change _ => latest) none

@[simp]
theorem latestControl_started (msgs : List (OutMsg σ)) (filterId : Nat) :
    latestControl (msgs ++ [.started filterId]) = some true := by
  simp [latestControl]

@[simp]
theorem latestControl_ended (msgs : List (OutMsg σ)) :
    latestControl (msgs ++ [.ended]) = some false := by
  simp [latestControl]

@[simp]
theorem latestControl_changes (msgs : List (OutMsg σ)) (changes : List (Change σ)) :
    latestControl (msgs ++ changes.map .change) = latestControl msgs := by
  induction changes using reverseRecOn with
  | nil => simp
  | append_singleton changes change ih =>
    rw [map_append, ← append_assoc, ← ih]
    simp [latestControl]

section

variable (c : Client φ σ)

theorem queued_startWriting : c.startWriting.queued = c.queued := by
  unfold startWriting
  split
  next msg rest hwrite hout => simp [Client.queued, hwrite, hout]
  next => rfl

theorem startWriting_eq :
    c.startWriting.connected = c.connected ∧ c.startWriting.shutdownInd = c.shutdownInd ∧
      c.startWriting.filter = c.filter := by
  unfold startWriting
  split <;> exact ⟨rfl, rfl, rfl⟩

section

variable (msgs : List (OutMsg σ))

@[simp]
theorem queued_push : (c.push msgs).queued = c.queued ++ msgs := by
  rw [push, queued_startWriting]
  simp [Client.queued]

@[simp]
theorem connected_push : (c.push msgs).connected = c.connected := (startWriting_eq _).1

@[simp]
theorem shutdownInd_push : (c.push msgs).shutdownInd = c.shutdownInd := (startWriting_eq _).2.1

@[simp]
theorem filter_push : (c.push msgs).filter = c.filter := (startWriting_eq _).2.2

end

end

/-- What a handler can do to a client that is not shut down: nothing that shows, shut it down,
queue one control event with the change of the connection that belongs to it, set another
filter, or queue the changes it was told of, which are the index. -/
inductive Outcome (check : φ → Change σ → Bool) (c : Client φ σ) :
    List (Change σ) → Client φ σ × List Task → Prop
  | same {d : Client φ σ} (hqueued : d.queued = c.queued) (hconnected : d.connected = c.connected)
      (hfilter : d.filter = c.filter) (hshutdown : d.shutdownInd = c.shutdownInd) :
      Outcome check c [] (d, [])
  | refilter {d : Client φ σ} (hqueued : d.queued = c.queued) (hconnected : d.connected = false)
      (hbefore : c.connected = false) (hshutdown : d.shutdownInd = c.shutdownInd) :
      Outcome check c [] (d, [.addClient])
  | shut {d : Client φ σ} (hqueued : d.queued = c.queued) (hconnected : d.connected = c.connected)
      (hshutdown : d.shutdownInd = true) (changes : List (Change σ)) (tasks : List Task) :
      Outcome check c changes (d, tasks)
  | started {d : Client φ σ} (filterId : Nat)
      (hqueued : d.queued = c.queued ++ [.started filterId]) (hconnected : d.connected = true)
      (hshutdown : d.shutdownInd = c.shutdownInd) : Outcome check c [] (d, [])
  | ended {d : Client φ σ} (hqueued : d.queued = c.queued ++ [.ended])
      (hbefore : c.connected = true) (hconnected : d.connected = false)
      (hshutdown : d.shutdownInd = c.shutdownInd) : Outcome check c [] (d, [])
  | changes {d : Client φ σ} (changes : List (Change σ))
      (hqueued : d.queued = c.queued ++ (changes.filter (check c.filter)).map .change)
      (hbefore : c.connected = true) (hconnected : d.connected = true)
      (hfilter : d.filter = c.filter) (hshutdown : d.shutdownInd = c.shutdownInd) :
      Outcome check c changes (d, [])
  /-- A client is told of changes when it is not connected. -/
  | removed (hconnected : c.connected = false) (changes : List (Change σ)) :
      Outcome check c changes (c, [.removeClient])
  /-- A start message arrives while the client waits for the monitor. -/
  | early {d : Client φ σ} (filterId : Nat)
      (hqueued : d.queued = c.queued ++ [.started filterId]) (hconnected : d.connected = false)
      (hwaiting : c.waiting = true) (hshutdown : d.shutdownInd = c.shutdownInd) :
      Outcome check c [] (d, [])

def Callback.changes : Callback σ → List (Change σ)
  | .connected _ => []
  | .dbChanges changes => changes

theorem Client.shutdown_outcome (check : φ → Change σ → Bool) (c : Client φ σ) :
    Outcome check c [] c.shutdown := by
  unfold shutdown
  split
  next h => exact .shut rfl rfl h _ _
  next => exact .shut (c := c) (d := { c with shutdownInd := true }) rfl rfl rfl _ _

theorem notifyConnected_eq (hc : c.shutdownInd = false) (isConnected : Bool) :
    (c.connected = isConnected ∧ c.notifyConnected isConnected = (c, [])) ∨
      ∃ d, c.notifyConnected isConnected = (d, []) ∧
        d.queued = c.queued ++ [if isConnected then .started c.filterId else .ended] ∧
        c.connected = !isConnected ∧ d.connected = isConnected ∧ d.shutdownInd = false := by
  by_cases hconnected : c.connected = isConnected
  · left
    cases isConnected <;> simp [notifyConnected, hc, hconnected]
  · right
    rw [← ne_eq, ← Bool.eq_not] at hconnected
    refine ⟨{ c with waiting := false, connected := isConnected }.push
      [if isConnected then .started c.filterId else .ended], ?_, ?_, hconnected, ?_, ?_⟩
    · cases isConnected <;> simp [notifyConnected, hc, hconnected]
    · rw [queued_push]
      rfl
    · rw [connected_push]
    · rw [shutdownInd_push]
      exact hc

theorem notifyDbChanges_connected (check : φ → Change σ → Bool) (hc : c.shutdownInd = false)
    (hconnected : c.connected = true) (changes : List (Change σ)) :
    (∃ d, c.notifyDbChanges check changes = (d, [.removeClient]) ∧ d.queued = c.queued ∧
        d.connected = true ∧ d.shutdownInd = true) ∨
      ∃ d, c.notifyDbChanges check changes = (d, []) ∧
        d.queued = c.queued ++ (changes.filter (check c.filter)).map .change ∧
        d.connected = true ∧ d.filter = c.filter ∧ d.shutdownInd = false := by
  simp only [notifyDbChanges, hc, hconnected, false_eq_true, if_false, Bool.not_true]
  split
  next hempty =>
    right
    rw [List.isEmpty_iff.mp hempty]
    exact ⟨c, rfl, by simp, hconnected, rfl, hc⟩
  next =>
    split
    next =>
      left
      exact ⟨{ c with shutdownInd := true }, by simp [shutdown, hc], rfl, hconnected, rfl⟩
    next =>
      right
      refine ⟨_, rfl, queued_push c _, ?_, filter_push c _, ?_⟩
      · rw [connected_push, hconnected]
      · rw [shutdownInd_push, hc]

theorem Client.handle_shut (hc : c.shutdownInd = true) (callback : Callback σ) :
    c.handle check callback = (c, [.removeClient]) := by
  cases callback <;> simp [handle, notifyConnected, notifyDbChanges, hc]

theorem Client.receive_shut (hc : c.shutdownInd = true) (msg : InMsg φ) :
    c.receive msg = (c, []) := by
  cases msg <;> simp [receive, hc]

theorem Client.writeComplete_shut (hc : c.shutdownInd = true) (ok : Bool) :
    c.writeComplete ok = (c, []) := by
  simp [writeComplete, hc]

section

variable (check : φ → Change σ → Bool) (c : Client φ σ)

theorem Client.handle_outcome
    (callback : Callback σ) : Outcome check c callback.changes (c.handle check callback) := by
  rcases eq_false_or_eq_true c.shutdownInd with hc | hc
  · rw [handle_shut hc]
    exact .shut rfl rfl hc _ _
  cases callback with
  | connected isConnected =>
    rcases notifyConnected_eq hc isConnected with
      ⟨-, h⟩ | ⟨d, h, hqueued, hbefore, hconnected, hshutdown⟩
    · rw [handle, h]
      exact .same rfl rfl rfl rfl
    · rw [handle, h]
      cases isConnected with
      | true => exact .started _ hqueued hconnected (hshutdown.trans hc.symm)
      | false => exact .ended hqueued hbefore hconnected (hshutdown.trans hc.symm)
  | dbChanges changes =>
    cases hconnected : c.connected with
    | false =>
      have h : c.handle check (.dbChanges changes) = (c, [.removeClient]) := by
        simp [handle, notifyDbChanges, hc, hconnected]
      rw [h]
      exact .removed hconnected _
    | true =>
      rcases notifyDbChanges_connected check hc hconnected changes with
        ⟨d, h, hqueued, hd, hshutdown⟩ | ⟨d, h, hqueued, hd, hfilter, hshutdown⟩
      · rw [handle, h]
        exact .shut hqueued (hd.trans hconnected.symm) hshutdown _ _
      · rw [handle, h]
        exact .changes _ hqueued hconnected hd hfilter (hshutdown.trans hc.symm)

theorem Client.receive_outcome (msg : InMsg φ) : Outcome check c [] (c.receive msg) := by
  rcases eq_false_or_eq_true c.shutdownInd with hc | hc
  · rw [receive_shut hc]
    exact .shut rfl rfl hc _ _
  cases msg with
  | invalid =>
    rw [receive, if_neg (by simp [hc])]
    exact c.shutdown_outcome check
  | startRealtime filter filterId =>
    rw [receive, if_neg (by simp [hc])]
    dsimp only
    split
    next hopen =>
      have hqueued : ({ c with filter, filterId }.push [.started filterId]).queued =
          c.queued ++ [.started filterId] := queued_push _ _
      rcases eq_false_or_eq_true c.connected with hconnected | hconnected
      · refine .started filterId hqueued ?_ (shutdownInd_push _ _)
        rw [connected_push]
        exact hconnected
      · refine .early filterId hqueued ?_ ?_ (shutdownInd_push _ _)
        · rw [connected_push]
          exact hconnected
        · simpa [hconnected] using hopen
    next hopen =>
      have hconnected : c.connected = false :=
        (or_eq_false_iff.mp (eq_false_iff.mpr hopen)).2
      exact .refilter rfl hconnected hconnected rfl

theorem Client.writeComplete_outcome (ok : Bool) : Outcome check c [] (c.writeComplete ok) := by
  rcases eq_false_or_eq_true c.shutdownInd with hc | hc
  · rw [writeComplete_shut hc]
    exact .shut rfl rfl hc _ _
  cases ok with
  | false =>
    have h : c.writeComplete false = c.shutdown := by simp [writeComplete, hc]
    rw [h]
    exact c.shutdown_outcome check
  | true =>
    rw [writeComplete, if_neg (by simp [hc]), if_neg (by simp)]
    obtain ⟨hconnected, hshutdown, hfilter⟩ := startWriting_eq
      { c with written := c.written ++ c.toWrite.toList, toWrite := none }
    refine .same ?_ hconnected hfilter hshutdown
    rw [queued_startWriting]
    simp [Client.queued]

end

/-- Messages are only added to what has been queued, and a client stays shut down. -/
structure Extends (c d : Client φ σ) : Prop where
  queued : c.queued <+: d.queued
  shutdownInd : c.shutdownInd = true → d.shutdownInd = true

theorem Extends.rfl (c : Client φ σ) : Extends c c := ⟨prefix_rfl, id⟩

theorem Extends.trans {d e : Client φ σ} (hcd : Extends c d) (hde : Extends d e) : Extends c e :=
  ⟨hcd.queued.trans hde.queued, fun h => hde.shutdownInd (hcd.shutdownInd h)⟩

theorem Extends.running {d : Client φ σ} (h : Extends c d) (hd : d.shutdownInd = false) :
    c.shutdownInd = false := by
  by_contra hc
  rw [h.shutdownInd (by simpa using hc)] at hd
  cases hd

variable {told : List (Change σ)} {r : Client φ σ × List Task}

theorem Outcome.extends (h : Outcome check c told r) : Extends c r.1 := by
  cases h with
  | same hqueued _ _ hshutdown | refilter hqueued _ _ hshutdown =>
    exact ⟨by rw [hqueued], by rw [hshutdown]; exact id⟩
  | shut hqueued _ hshutdown => exact ⟨by rw [hqueued], fun _ => hshutdown⟩
  | started _ hqueued _ hshutdown | ended hqueued _ _ hshutdown
  | changes _ hqueued _ _ _ hshutdown | early _ hqueued _ _ hshutdown =>
    exact ⟨by rw [hqueued]; exact prefix_append _ _, by rw [hshutdown]; exact id⟩
  | removed => exact Extends.rfl c

def queuedChanges (msgs : List (OutMsg σ)) : List (Change σ) :=
  msgs.filterMap fun msg =>
    match msg with
    | .started _ => none
    | .ended => none
    | .change change => some change

theorem Outcome.queuedChanges (h : Outcome check c told r) : ∃ new, new.Sublist told ∧
      RealtimeServer.queuedChanges r.1.queued =
        RealtimeServer.queuedChanges c.queued ++ new := by
  cases h with
  | same hqueued | refilter hqueued | shut hqueued => exact ⟨[], nil_sublist _, by simp [hqueued]⟩
  | started _ hqueued | ended hqueued | early _ hqueued =>
    exact ⟨[], nil_sublist _, by simp [hqueued, RealtimeServer.queuedChanges]⟩
  | changes _ hqueued =>
    exact ⟨_, filter_sublist, by
      rw [hqueued, RealtimeServer.queuedChanges, filterMap_append, filterMap_map]
      exact congrArg _ filterMap_some⟩
  | removed => exact ⟨[], nil_sublist _, by simp⟩

/-- Before every change the latest control event is a started event, and this also holds at
the end while the client is connected. -/
structure Placed (c : Client φ σ) : Prop where
  connected : c.connected = true → latestControl c.queued = some true
  change : ∀ earlier change later, c.queued = earlier ++ .change change :: later →
    latestControl earlier = some true

theorem placed_init (filter : φ) : Placed (init filter : Client φ σ) where
  connected := by simp [init]
  change := by
    intro earlier change later h
    simp [Client.queued, init] at h

/-- `Placed.change` for any messages -/
def ChangesPlaced (msgs : List (OutMsg σ)) : Prop :=
  ∀ earlier change later, msgs = earlier ++ .change change :: later →
    latestControl earlier = some true

theorem ChangesPlaced.append {msgs new : List (OutMsg σ)} (hmsgs : ChangesPlaced msgs)
    (hnew : ∀ earlier change later, new = earlier ++ .change change :: later →
      latestControl (msgs ++ earlier) = some true) : ChangesPlaced (msgs ++ new) := by
  intro earlier change later h
  rcases append_eq_append_iff.mp h with ⟨rest, rfl, hrest⟩ | ⟨rest, hmsgs', hrest⟩
  · exact hnew rest change later hrest
  · cases rest with
    | nil =>
      rw [append_nil] at hmsgs'
      rw [← hmsgs', ← append_nil msgs]
      exact hnew [] change later hrest.symm
    | cons msg rest =>
      obtain ⟨rfl, -⟩ := cons.inj hrest
      exact hmsgs earlier change rest hmsgs'

theorem ChangesPlaced.append_control {msgs : List (OutMsg σ)} {msg : OutMsg σ}
    (hmsgs : ChangesPlaced msgs) (hcontrol : ∀ change, msg ≠ .change change) :
    ChangesPlaced (msgs ++ [msg]) := by
  apply hmsgs.append
  intro earlier change later hsingle
  rcases earlier with _ | ⟨first, earlier⟩
  · exact absurd (cons.inj hsingle).1 (hcontrol change)
  · simp at hsingle

theorem Outcome.placed (h : Outcome check c told r) (hc : Placed c) : Placed r.1 := by
  have hplaced : ChangesPlaced c.queued := hc.change
  cases h with
  | same hqueued hconnected | shut hqueued hconnected =>
    exact ⟨by rw [hconnected, hqueued]; exact hc.connected, by rw [hqueued]; exact hc.change⟩
  | refilter hqueued hconnected =>
    exact ⟨by simp [hconnected], by rw [hqueued]; exact hc.change⟩
  | started filterId hqueued =>
    refine ⟨fun _ => by rw [hqueued, latestControl_started], ?_⟩
    rw [hqueued]
    exact hplaced.append_control (by simp)
  | ended hqueued _ hconnected | early filterId hqueued hconnected =>
    refine ⟨by simp [hconnected], ?_⟩
    rw [hqueued]
    exact hplaced.append_control (by simp)
  | changes changes hqueued hbefore =>
    have hlatest := hc.connected hbefore
    refine ⟨fun _ => by rw [hqueued, latestControl_changes, hlatest], ?_⟩
    rw [hqueued]
    refine hplaced.append ?_
    intro earlier change later hchanges
    obtain ⟨first, rest, -, rfl, -⟩ := map_eq_append_iff.mp hchanges
    rw [latestControl_changes, hlatest]
  | removed => exact hc

def willBeConnected : Bool → List (Callback σ) → Bool
  | connected, [] => connected
  | _, .connected isConnected :: rest => willBeConnected isConnected rest
  | connected, .dbChanges _ :: rest => willBeConnected connected rest

/-- Changes only come when the client is connected. -/
def Orderly : Bool → List (Callback σ) → Prop
  | _, [] => True
  | _, .connected isConnected :: rest => Orderly isConnected rest
  | connected, .dbChanges _ :: rest => connected = true ∧ Orderly connected rest

def beforeEnd : List (Callback σ) → List (Change σ)
  | [] => []
  | .connected true :: rest => beforeEnd rest
  | .connected false :: _ => []
  | .dbChanges changes :: rest => changes ++ beforeEnd rest

def disconnects : List (Callback σ) → Bool
  | [] => false
  | .connected false :: _ => true
  | .connected true :: rest => disconnects rest
  | .dbChanges _ :: rest => disconnects rest

theorem willBeConnected_append (connected : Bool) (strand rest : List (Callback σ)) :
    willBeConnected connected (strand ++ rest) =
      willBeConnected (willBeConnected connected strand) rest := by
  induction connected, strand using willBeConnected.induct with
  | case1 connected => rfl
  | case2 connected isConnected strand ih | case3 connected changes strand ih => exact ih

theorem orderly_append {connected : Bool} {strand rest : List (Callback σ)} :
    Orderly connected (strand ++ rest) ↔
      Orderly connected strand ∧ Orderly (willBeConnected connected strand) rest := by
  induction connected, strand using Orderly.induct with
  | case1 connected => simp [Orderly, willBeConnected]
  | case2 connected isConnected strand ih => exact ih
  | case3 connected changes strand ih => exact (and_congr_right fun _ => ih).trans and_assoc.symm

@[simp]
theorem disconnects_append (strand rest : List (Callback σ)) :
    disconnects (strand ++ rest) = (disconnects strand || disconnects rest) := by
  induction strand using disconnects.induct with
  | case1 | case2 strand => rfl
  | case3 strand ih | case4 changes strand ih => exact ih

theorem beforeEnd_append (strand rest : List (Callback σ)) : beforeEnd (strand ++ rest) =
      beforeEnd strand ++ if disconnects strand then [] else beforeEnd rest := by
  induction strand using beforeEnd.induct with
  | case1 => rfl
  | case2 strand ih => exact ih
  | case3 strand => rfl
  | case4 first strand ih =>
    rw [cons_append, beforeEnd, ih, beforeEnd, append_assoc]
    rfl

theorem willBeConnected_true {strand : List (Callback σ)} (h : disconnects strand = false) :
    willBeConnected true strand = true := by
  induction strand using disconnects.induct with
  | case1 => rfl
  | case2 rest => cases h
  | case3 rest ih | case4 changes rest ih => exact ih h

def strandChanges : List (Callback σ) → List (Change σ)
  | [] => []
  | .connected _ :: rest => strandChanges rest
  | .dbChanges changes :: rest => changes ++ strandChanges rest

@[simp]
theorem strandChanges_append (strand rest : List (Callback σ)) :
    strandChanges (strand ++ rest) = strandChanges strand ++ strandChanges rest := by
  induction strand using strandChanges.induct with
  | case1 => rfl
  | case2 isConnected strand ih => exact ih
  | case3 changes strand ih =>
    rw [cons_append, strandChanges, strandChanges, ih, append_assoc]

/-- What is on its way to a client before its next disconnect: the changes on its strand, and
those of the buffer that is being processed -/
def inFlight (strand : List (Callback σ)) (dbChanges : List (Change σ)) : List (Change σ) :=
  beforeEnd strand ++ if disconnects strand then [] else dbChanges

end BgqDriver.RealtimeServer
