import BgqDriver.EventRuns
import BgqDriver.RgetPacingTotals

/-!
Runs of the agent. Every step of the agent succeeds, and what it does to the links and
the state is a sequence of transitions of the queues that the links represent. So the
lists stay well linked, no work item is lost or in two of them, and the totals agree with
the lists in every state of a run.
-/

namespace BgqDriver.RgetPacing

open Function Option List Relation
open EventRuns

variable {cfg : Config} {Q L M : List Queue} {d d' : Data} {k k' : Links} {s s' : State}
  {w x c : Nat} {ps free ensure : List Nat}

/-- What the agent does without a request, as a sequence of transitions. -/
abbrev Transitions (cfg : Config) (Q : List Queue) (d : Data) (Q' : List Queue) (d' : Data) :
    Prop :=
  ReflTransGen (fun a b : List Queue × Data => Transition cfg none a.1 a.2 b.1 b.2) (Q, d)
    (Q', d')

variable {Q' : List Queue} {label : Label}

theorem Transition.once (h : Transition cfg none Q d Q' d') : Transitions cfg Q d Q' d' :=
  ReflTransGen.single h

variable {P : List Queue → Data → Prop}

theorem Transitions.keep (h : Transitions cfg Q d Q' d')
    (hkeep : ∀ Q d Q' d', Transition cfg none Q d Q' d' → P Q d → P Q' d') (hP : P Q d) :
    P Q' d' := by
  have hgeneral : ∀ b : List Queue × Data, ReflTransGen
      (fun a b : List Queue × Data => Transition cfg none a.1 a.2 b.1 b.2) (Q, d) b →
        P b.1 b.2 := by
    intro b hb
    induction hb with
    | refl => exact hP
    | tail _ hstep ih => exact hkeep _ _ _ _ hstep ih
  exact hgeneral (Q', d') h

def Control.Sound (Q : List Queue) (ensure : List Nat) : Control → Prop
  | .idle => True
  | .counters _ _ _ => True
  | .nonDPut workItem => workItem ∈ dummy :: actives Q
  | .ensure none _ => True
  | .ensure (some workItem) _ => workItem ∈ ensure

structure Follows (s : State) (Q : List Queue) (free ensure : List Nat) : Prop where
  links : Represents s.links [] Q free ensure
  control : s.control.Sound Q ensure

section

variable (hrep : Represents k [] Q free ensure) (h : Balanced cfg Q d)
include hrep h

theorem completeWorkItem_eq
    (hc : d.counterWorkItems c = some w) (hzero : d.receptionCounters c = 0) (descComplete : Bool) :
    ∃ d' k' Q' free' ensure',
      completeWorkItem cfg (d.releaseCounter w c) k w c descComplete = some (d', k') ∧
      Represents k' [] Q' free' ensure' ∧
      Transition cfg none Q d Q'
        { d' with counterWorkItems := update d'.counterWorkItems c none } := by
  by_cases hdone : (d.items w).paceIt = false ∨
      (d.items w).remainingCompletionLength ≤ d.lengthCompleted c
  · obtain ⟨y, hy, rfl⟩ := mem_map.mp (h.busy c w hc).active
    obtain ⟨L, M, rfl⟩ := append_of_mem hy
    obtain ⟨x, ps⟩ := y
    have hcond : ((d.releaseCounter x c).items x).paceIt = false ∨
        ((d.releaseCounter x c).items x).remainingCompletionLength ≤
          (d.releaseCounter x c).lengthCompleted c := by
      rw [releaseCounter_eq]
      exact hdone
    rw [completeWorkItem, if_pos hcond]
    obtain ⟨k', free', ensure', hremove, hrep'⟩ := removeWorkItem_eq hrep
      (if cfg.doSubRegionCalculations then
        (d.releaseCounter x c).setPacing ((d.releaseCounter x c).pacing.leave cfg
          ((d.releaseCounter x c).items x).rgetDescriptor.destination)
      else d.releaseCounter x c) descComplete
    exact ⟨_, k', _, free', ensure', hremove, hrep', Transition.retire hc hzero hdone⟩
  · have hcond : ¬ (((d.releaseCounter w c).items w).paceIt = false ∨
        ((d.releaseCounter w c).items w).remainingCompletionLength ≤
          (d.releaseCounter w c).lengthCompleted c) := by
      rw [releaseCounter_eq]
      exact hdone
    rw [completeWorkItem, if_neg hcond]
    exact ⟨_, k, Q, free, ensure, rfl, hrep, Transition.advance hc hzero hdone⟩

omit h in
theorem injectNextDPutSubMessage_eq
    (hfree : d.counterWorkItems c = none) (hc : c < cfg.numCounters) (space : Bool) :
    ∃ d' k' again, injectNextDPutSubMessage cfg d k c space = some (d', k', again) ∧
      Represents k' [] Q free ensure ∧ Transitions cfg Q d Q d' := by
  unfold injectNextDPutSubMessage
  split
  · exact ⟨d, k, true, rfl, hrep, ReflTransGen.refl⟩
  · obtain ⟨r, hfind, hr⟩ := hrep.findDPut d
    rw [hfind]
    cases r with
    | none => exact ⟨d, k, false, rfl, hrep, ReflTransGen.refl⟩
    | some w =>
      obtain ⟨hactive, heligible⟩ := hr w rfl
      obtain ⟨y, hy, rfl⟩ := mem_map.mp hactive
      obtain ⟨L, M, rfl⟩ := append_of_mem hy
      obtain ⟨x, ps⟩ := y
      obtain ⟨p, n, -, -, -, hnext, -, hn⟩ := hrep.around
      refine ⟨d.inject cfg x c, { k with nextWorkItemToProcess := n }, true, ?_, ?_, ?_⟩
      · simp only [bind_eq_bind, bind_some, hnext]
      · refine ⟨hrep.ring, hrep.peers, ?_, hrep.freeList, hrep.ensureList, hrep.perm⟩
        rw [actives_append, actives_cons]
        grind
      · exact (Transition.inject hactive heligible hfree hc).once

theorem completeCounter_eq
    (hzero : d.receptionCounters c = 0) (toBeProcessed : Int) (tryToInject descComplete : Bool) :
    ∃ d' k' n again Q' free' ensure',
      completeCounter cfg d k c toBeProcessed tryToInject descComplete =
        some (d', k', n, again) ∧
      Represents k' [] Q' free' ensure' ∧ d'.counterWorkItems c = none ∧
      Transitions cfg Q d Q' d' := by
  unfold completeCounter
  cases hw : d.counterWorkItems c with
  | none => exact ⟨d, k, _, _, Q, free, ensure, rfl, hrep, hw, ReflTransGen.refl⟩
  | some w =>
    obtain ⟨d', k', Q', free', ensure', hcomplete, hrep', htrans⟩ :=
      completeWorkItem_eq hrep h hw hzero descComplete
    refine ⟨_, k', toBeProcessed - 1, true, Q', free', ensure', ?_, hrep', update_self ..,
      htrans.once⟩
    simp only [hcomplete, bind_eq_bind, bind_some]

theorem pollZeroCounter_eq
    (hc : c < cfg.numCounters) (hzero : d.receptionCounters c = 0) (toBeProcessed : Int)
    (tryToInject space descComplete : Bool) : ∃ d' k' n again Q' free' ensure',
      pollZeroCounter cfg d k c toBeProcessed tryToInject space descComplete =
        some (d', k', n, again) ∧
      Represents k' [] Q' free' ensure' ∧ Transitions cfg Q d Q' d' := by
  obtain ⟨d1, k1, n, again, Q', free', ensure', hcomplete, hrep1, hidle, htrans⟩ :=
    completeCounter_eq hrep h hzero toBeProcessed tryToInject descComplete
  simp only [pollZeroCounter, hcomplete, bind_eq_bind, bind_some]
  split
  · obtain ⟨d2, k2, again2, hinject, hrep2, htrans2⟩ :=
      injectNextDPutSubMessage_eq hrep1 hidle hc space
    refine ⟨d2, k2, n, again2, Q', free', ensure', ?_, hrep2, htrans.trans htrans2⟩
    simp only [hinject, bind_some]
  · exact ⟨d1, k1, n, again, Q', free', ensure', rfl, hrep1, htrans⟩

theorem injectNonDPutMessage_eq
    (hw : w ∈ dummy :: actives Q) (hsome : 0 < d.numNonDPutWorkItems) (descComplete : Bool) :
    ∃ d' k' n Q' free' ensure', injectNonDPutMessage d k w descComplete = some (d', k', n) ∧
      Represents k' [] Q' free' ensure' ∧ n ∈ dummy :: actives Q' ∧
      Transition cfg none Q d Q' d' := by
  have hexists : ∃ x ∈ actives Q, isDPutWorkItem d x = false := by
    rw [h.nonDPut] at hsome
    obtain ⟨x, hx, hput⟩ := countP_pos_iff.mp (Int.natCast_pos.mp hsome)
    exact ⟨x, hx, by simpa using hput⟩
  obtain ⟨x, hx, hfind, hput⟩ := hrep.findNonDPut d hw hexists
  obtain ⟨y, hy, rfl⟩ := mem_map.mp hx
  obtain ⟨L, M, rfl⟩ := append_of_mem hy
  obtain ⟨x, ps⟩ := y
  obtain ⟨p, n, -, -, -, hnext, -, hn⟩ := hrep.around
  obtain ⟨k', free', ensure', hremove, hrep'⟩ := removeWorkItem_eq hrep (d.send x) descComplete
  refine ⟨d.sendOff x ps, k', n, _, free', ensure', ?_, hrep', ?_, Transition.send hput⟩
  · simp only [injectNonDPutMessage, hfind, hnext, hremove, bind_eq_bind, bind_some]
    rw [send_items]
    rfl
  · rw [actives_append, actives_append]
    grind

end

theorem Follows.finish (h : Represents s.links [] Q free ensure) (doWorkAgain : Bool) :
    Follows (s.finish doWorkAgain) Q free ensure := by
  refine ⟨h, ?_⟩
  cases doWorkAgain <;> trivial

theorem Follows.startEnsure (h : Represents s.links [] Q free ensure) (doWorkAgain : Bool) :
    Follows (s.startEnsure doWorkAgain) Q free ensure ∧
      (s.startEnsure doWorkAgain).data = s.data := by
  unfold State.startEnsure
  split
  · exact ⟨Follows.finish h doWorkAgain, rfl⟩
  · refine ⟨⟨h, ?_⟩, rfl⟩
    rw [show s.links.ensureWorkItemList = _ from DoublyLinked.Segment.pointer_eq h.ensureList]
    cases ensure with
    | nil => trivial
    | cons e ensure => exact mem_cons_self

theorem Follows.checked (h : Represents k [] Q free ensure) (hw : w ∈ ensure) (d : Data)
    (doWorkAgain descComplete : Bool) : ∃ free' ensure', Follows
      ⟨d, if descComplete then (k.popEnsure w).pushFree w else k, .ensure (k.nextPtr w) doWorkAgain⟩
      Q free' ensure' := by
  obtain ⟨l, m, rfl⟩ := append_of_mem hw
  have hnext : k.nextPtr w = m.head? := h.ensureList.next_eq
  rw [hnext]
  cases descComplete with
  | false =>
    refine ⟨free, l ++ w :: m, h, ?_⟩
    cases m with
    | nil => trivial
    | cons e m => simp [Control.Sound]
  | true =>
    refine ⟨w :: free, l ++ m, h.popEnsure.pushFree, ?_⟩
    cases m with
    | nil => trivial
    | cons e m => simp [Control.Sound]

/-- Every turn of the agent succeeds, as a sequence of transitions. -/
theorem work_eq (hfollows : Follows s Q free ensure) (h : Balanced cfg Q s.data)
    (space descComplete : Bool) : ∃ s' Q' free' ensure', work cfg s space descComplete = some s' ∧
      Follows s' Q' free' ensure' ∧ Transitions cfg Q s.data Q' s'.data := by
  obtain ⟨hrep, hsound⟩ := hfollows
  obtain ⟨d, k, control⟩ := s
  cases control with
  | idle =>
    exact ⟨_, Q, free, ensure, rfl, Follows.finish hrep true, ReflTransGen.refl⟩
  | counters c toBeProcessed tryToInject =>
    simp only [work]
    split
    next hmore =>
      split
      next hzero =>
        obtain ⟨d', k', n, again, Q', free', ensure', hpoll, hrep', htrans⟩ :=
          pollZeroCounter_eq hrep h hmore.1 hzero toBeProcessed tryToInject space descComplete
        refine ⟨⟨d', k', .counters (c + 1) n again⟩, Q', free', ensure', ?_, ⟨hrep', trivial⟩,
          htrans⟩
        simp only [hpoll, bind_eq_bind, bind_some]
      · exact ⟨_, Q, free, ensure, rfl, ⟨hrep, trivial⟩, ReflTransGen.refl⟩
    · split
      · exact ⟨_, Q, free, ensure, rfl, ⟨hrep, hrep.cursor⟩, ReflTransGen.refl⟩
      · obtain ⟨hfollows, hdata⟩ := Follows.startEnsure hrep false
        refine ⟨_, Q, free, ensure, rfl, hfollows, ?_⟩
        rw [hdata]
  | nonDPut w =>
    simp only [work]
    split
    next hmore =>
      obtain ⟨d', k', n, Q', free', ensure', hinject, hrep', hn, htrans⟩ :=
        injectNonDPutMessage_eq hrep h hsound hmore.1 descComplete
      refine ⟨⟨d', k', .nonDPut n⟩, Q', free', ensure', ?_, ⟨hrep', hn⟩, htrans.once⟩
      simp only [hinject, bind_eq_bind, bind_some]
    · obtain ⟨hfollows, hdata⟩ := Follows.startEnsure hrep true
      refine ⟨_, Q, free, ensure, rfl, hfollows, ?_⟩
      rw [hdata]
  | ensure w doWorkAgain =>
    cases w with
    | none => exact ⟨_, Q, free, ensure, rfl, Follows.finish hrep _, ReflTransGen.refl⟩
    | some w =>
      obtain ⟨free', ensure', hfollows⟩ := Follows.checked hrep hsound d doWorkAgain descComplete
      exact ⟨_, Q, free', ensure', rfl, hfollows, ReflTransGen.refl⟩

theorem setupWorkItem_eq (hrep : Represents s.links [] Q free ensure) (r : Request) :
    ∃ s' Q' free', setupWorkItem cfg s r = some s' ∧ s'.control = s.control ∧
      Represents s'.links [] Q' free' ensure ∧ Transition cfg (some r) Q s.data Q' s'.data := by
  obtain ⟨w, k', free', hadd, hw, hplace⟩ := addWorkItem_eq s.data.items r.id r.peerID hrep
  simp only [setupWorkItem, hadd, bind_eq_bind, bind_some]
  cases hx : followed s.data.items r.id r.peerID Q with
  | none =>
    rw [hx] at hplace
    obtain ⟨hactive, L, M, rfl, hrep'⟩ := hplace
    rw [hactive]
    exact ⟨_, _, free', rfl, rfl, hrep', Transition.start hw hx⟩
  | some x =>
    rw [hx] at hplace
    obtain ⟨hwaits, L, ps, M, rfl, hrep'⟩ := hplace
    rw [hwaits]
    exact ⟨_, _, free', rfl, rfl, hrep', Transition.follow hw hx⟩

theorem step_transitions (hfollows : Follows s Q free ensure) (h : Balanced cfg Q s.data)
    (hstep : step cfg s label = some s') : ∃ Q' free' ensure', Follows s' Q' free' ensure' ∧
      ((∃ r, label = .request r ∧ Transition cfg (some r) Q s.data Q' s'.data) ∨
        Transitions cfg Q s.data Q' s'.data) := by
  cases label with
  | request r =>
    simp only [step] at hstep
    split at hstep
    next hidle =>
      obtain ⟨t, Q', free', hsetup, hcontrol, hrep', htrans⟩ := setupWorkItem_eq hfollows.links r
      obtain rfl := some.inj (hsetup.symm.trans hstep)
      refine ⟨Q', free', ensure, ⟨hrep', ?_⟩, .inl ⟨r, rfl, htrans⟩⟩
      rw [hcontrol, hidle]
      trivial
    · exact absurd hstep (by simp)
  | receive c bytes =>
    simp only [step] at hstep
    split at hstep
    · cases hstep
      exact ⟨Q, free, ensure, ⟨hfollows.links, hfollows.control⟩,
        .inr (Transition.receive _).once⟩
    · exact absurd hstep (by simp)
  | work space descComplete =>
    obtain ⟨t, Q', free', ensure', hwork, hfollows', htrans⟩ :=
      work_eq hfollows h space descComplete
    obtain rfl := some.inj (hwork.symm.trans hstep)
    exact ⟨Q', free', ensure', hfollows', .inr htrans⟩

/-- An invariant of the transitions, with the totals, is kept by a step. -/
theorem step_keeps (hfollows : Follows s Q free ensure) (hbalanced : Balanced cfg Q s.data)
    (hP : P Q s.data) (hstep : step cfg s label = some s')
    (hrequest : ∀ r Q' d', label = .request r → Transition cfg (some r) Q s.data Q' d' → P Q' d')
    (hwork : ∀ Q d Q' d', Transition cfg none Q d Q' d' → Balanced cfg Q d → P Q d → P Q' d') :
    ∃ Q' free' ensure', Follows s' Q' free' ensure' ∧ Balanced cfg Q' s'.data ∧ P Q' s'.data := by
  obtain ⟨Q', free', ensure', hfollows', hcases⟩ := step_transitions hfollows hbalanced hstep
  refine ⟨Q', free', ensure', hfollows', ?_⟩
  rcases hcases with ⟨r, hlabel, htrans⟩ | htrans
  · exact ⟨htrans.balanced hbalanced, hrequest r Q' _ hlabel htrans⟩
  · exact htrans.keep (P := fun Q d => Balanced cfg Q d ∧ P Q d)
      (fun Q d Q' d' ht h => ⟨ht.balanced h.1, hwork Q d Q' d' ht h.1 h.2⟩) ⟨hbalanced, hP⟩

theorem init_follows (cfg : Config) : Follows (init cfg) [] [] [] := by
  refine ⟨⟨⟨?_, ?_⟩, ?_, ?_, rfl, rfl, ?_⟩, trivial⟩
  · exact isChain_pair.mpr ⟨rfl, rfl⟩
  all_goals simp [init, dummy, actives, queued]

theorem init_balanced (cfg : Config) : Balanced cfg [] (init cfg).data := by
  refine ⟨by simp, rfl, rfl, ?_, ?_, ?_, ?_, ?_, init_sized cfg⟩
  all_goals simp [init, Data.isPaced]

/-- An invariant of the transitions, with the totals, holds in every run. -/
theorem run_keeps (hinit : P [] (init cfg).data)
    (hkeep : ∀ a Q d Q' d', Transition cfg a Q d Q' d' → Balanced cfg Q d → P Q d → P Q' d')
    {labels : List Label} (hrun : run (step cfg) (init cfg) labels = some s) :
    ∃ Q free ensure, Follows s Q free ensure ∧ Balanced cfg Q s.data ∧ P Q s.data := by
  refine run_invariant (P := fun _ s => ∃ Q free ensure, Follows s Q free ensure ∧
    Balanced cfg Q s.data ∧ P Q s.data) ?_ ?_ hrun
  · exact ⟨[], [], [], init_follows cfg, init_balanced cfg, hinit⟩
  · rintro es s e t - ⟨Q, free, ensure, hfollows, hbalanced, hP⟩ hstep
    exact step_keeps hfollows hbalanced hP hstep
      (fun r Q' d' _ ht => hkeep _ _ _ _ _ ht hbalanced hP) (hkeep none)

end BgqDriver.RgetPacing
