import BgqDriver.RgetPacingHistory

/-!
The order of related requests. Two requests are related when they have the same identity
or the same peer identifier, and a related request is meant to wait in the queue of those
before it. It does in every run in which no request matches one queue by its peer
identifier and another by its identity; then nothing is injected for a request before the
related ones that arrived earlier have been retired.
-/

namespace BgqDriver.RgetPacing

open Function List Bool
open EventRuns

variable {cfg : Config} {Q Q' L M : List Queue} {d d' : Data} {s : State} {w x : Nat}
  {ps : List Nat} {r : Request} {log : List Event} {arrivals : List Request}

def Request.related (r r' : Request) : Bool := r.id == r'.id || samePeer r.peerID r'.peerID

def Event.isInjection : Event → Bool
  | .injected _ _ _ => true
  | .sent _ => true
  | _ => false

/-- Data of a request is only injected after every related request that arrived earlier
has been retired. -/
def InOrder (arrivals : List Request) (log : List Event) : Prop :=
  ∀ earlier e later, log = earlier ++ e :: later → e.isInjection = true →
    ∀ m r r', m < e.request → arrivals[m]? = some r → arrivals[e.request]? = some r' →
      r.related r' = true → .retired m ∈ earlier

theorem InOrder.concat {e : Event} (h : InOrder arrivals log)
    (he : e.isInjection = true → ∀ m r r', m < e.request → arrivals[m]? = some r →
      arrivals[e.request]? = some r' → r.related r' = true → .retired m ∈ log) :
    InOrder arrivals (log ++ [e]) := by
  intro earlier e' later hsplit hinjection
  rcases eq_nil_or_concat later with rfl | ⟨later, last, rfl⟩
  · obtain ⟨rfl, hlast⟩ := append_inj' hsplit rfl
    obtain rfl := singleton_inj.mp hlast
    exact he hinjection
  · have hsplit' : log ++ [e] = (earlier ++ e' :: later) ++ [last] := by simpa using hsplit
    obtain ⟨rfl, -⟩ := append_inj' hsplit' rfl
    exact h earlier e' later rfl hinjection

theorem InOrder.arrive (h : InOrder arrivals log) (hknown : ∀ e ∈ log, e.request < arrivals.length)
    (r : Request) : InOrder (arrivals ++ [r]) log := by
  intro earlier e later hsplit hinjection m r1 r2 hm hr1 hr2
  have he : e.request < arrivals.length := hknown e (by simp [hsplit])
  rw [getElem?_append_left (Nat.lt_trans hm he)] at hr1
  rw [getElem?_append_left he] at hr2
  exact h earlier e later hsplit hinjection m r1 r2 hm hr1 hr2

def WorkItem.related (i j : WorkItem) : Bool := i.id == j.id || samePeer i.peerID j.peerID

theorem samePeer_iff {p q : BitVec 64} : samePeer p q = true ↔ p ≠ 0 ∧ p = q := by
  simp only [samePeer, and_eq_true, bne_iff_ne, beq_iff_eq]
  constructor
  · rintro ⟨⟨hp, -⟩, hpq⟩
    exact ⟨hp, hpq⟩
  · rintro ⟨hp, rfl⟩
    exact ⟨⟨hp, hp⟩, rfl⟩

variable {i j : WorkItem} {n : Nat}

theorem related_iff : i.related j = true ↔ i.id = j.id ∨ i.peerID ≠ 0 ∧ i.peerID = j.peerID := by
  rw [WorkItem.related, or_eq_true, beq_iff_eq, samePeer_iff]

theorem related_symm (h : i.related j = true) : j.related i = true := by
  rw [related_iff] at h ⊢
  rcases h with h | ⟨hne, h⟩
  · exact .inl h.symm
  · exact .inr ⟨h ▸ hne, h.symm⟩

variable {r' : Request}

theorem Serves.related (hi : Serves cfg r i) (hj : Serves cfg r' j) :
    i.related j = r.related r' := by
  rw [WorkItem.related, hi.id, hi.peerID, hj.id, hj.peerID, Request.related]

structure Lined (Q : List Queue) (d : Data) : Prop where
  together : ∀ y ∈ Q, ∀ a ∈ y.1 :: y.2, ∀ b ∈ queued Q,
    (d.items a).related (d.items b) = true → b ∈ y.1 :: y.2
  increasing : ∀ y ∈ Q, ((y.1 :: y.2).map fun a => (d.items a).request).Pairwise (· < ·)

theorem increasing_congr {l : List Nat}
    (h : (l.map fun a => (d.items a).request).Pairwise (· < ·))
    (heq : ∀ a ∈ l, (d'.items a).request = (d.items a).request) :
    (l.map fun a => (d'.items a).request).Pairwise (· < ·) := by
  rwa [map_congr_left heq]

theorem Lined.congr (h : Lined Q d)
    (hitems : ∀ a ∈ queued Q, (d'.items a).SameRequest (d.items a)) : Lined Q d' := by
  constructor
  · intro y hy a ha b hb hrelated
    refine h.together y hy a ha b hb ?_
    have hia := hitems a (mem_queued_of_mem hy ha)
    have hib := hitems b hb
    rw [WorkItem.related, ← hia.id, ← hib.id, ← hia.peerID, ← hib.peerID]
    exact hrelated
  · intro y hy
    exact increasing_congr (h.increasing y hy) fun a ha =>
      (hitems a (mem_queued_of_mem hy ha)).request

theorem Lined.remove (h : Lined (L ++ (w, ps) :: M) d)
    (hnodup : (queued (L ++ (w, ps) :: M)).Nodup) : Lined (L ++ (promoted ps ++ M)) d := by
  have hqueued : ∀ a ∈ queued (L ++ (promoted ps ++ M)),
      a ∈ queued (L ++ (w, ps) :: M) ∧ a ≠ w := by
    intro a ha
    simp only [queued_append, queued_cons, queued_promoted] at ha hnodup ⊢
    grind
  -- A queue that is left is an old one or starts with the first peer.
  have hcases : ∀ y ∈ L ++ (promoted ps ++ M),
      y ∈ L ++ (w, ps) :: M ∨ (y.1 :: y.2 = ps) := by
    intro y hy
    cases ps with
    | nil =>
      simp only [promoted, nil_append] at hy
      exact .inl (by grind)
    | cons p ps =>
      simp only [promoted, mem_append, mem_cons] at hy
      grind
  constructor
  · intro y hy a ha b hb hrelated
    obtain ⟨hold, hbw⟩ := hqueued b hb
    rcases hcases y hy with hy | hps
    · exact h.together y hy a ha b hold hrelated
    · rw [hps] at ha ⊢
      have hmem := h.together (w, ps) (by simp) a (mem_cons_of_mem w ha) b hold hrelated
      exact (mem_cons.mp hmem).resolve_left hbw
  · intro y hy
    rcases hcases y hy with hy | hps
    · exact h.increasing y hy
    · rw [hps]
      exact (pairwise_cons.mp (h.increasing (w, ps) (by simp))).2

theorem Lined.retired_before (h : Lined Q d) (hrecorded : Recorded cfg Q d) (hw : w ∈ actives Q)
    {m : Nat} (hm : m < (d.items w).request) (hr : d.arrivals[m]? = some r)
    (hr' : d.arrivals[(d.items w).request]? = some r') (hrelated : r.related r' = true) :
    .retired m ∈ d.log := by
  by_contra hopen
  -- The earlier request is served by an item, which is in the queue of the active one.
  have honce := hrecorded.once m
  rw [if_pos (List.getElem?_eq_some_iff.mp hr).1, count_eq_zero.mpr hopen,
    Nat.zero_add] at honce
  obtain ⟨b, hb, rfl⟩ := mem_map.mp (count_pos_iff.mp (honce ▸ Nat.one_pos))
  obtain ⟨y, hy, rfl⟩ := mem_map.mp hw
  obtain ⟨r1, hr1, hserves1⟩ := hrecorded.serves b hb
  obtain ⟨r2, hr2, hserves2⟩ := hrecorded.serves y.1 (mem_queued_of_active hw)
  obtain rfl := Option.some.inj (hr.symm.trans hr1)
  obtain rfl := Option.some.inj (hr'.symm.trans hr2)
  have hitems : (d.items y.1).related (d.items b) = true :=
    related_symm ((hserves1.related hserves2).trans hrelated)
  have hmem := h.together y hy y.1 mem_cons_self b hb hitems
  rcases mem_cons.mp hmem with rfl | hmem
  · exact absurd hm (Nat.lt_irrefl _)
  · have hlt := (pairwise_cons.mp (h.increasing y hy)).1 _ (mem_map_of_mem hmem)
    exact absurd hm (Nat.lt_asymm hlt)

def OneQueue (items : Nat → WorkItem) (r : Request) (Q : List Queue) : Prop :=
  ∀ y ∈ Q, ((y.1 :: y.2).any fun a => onPeer r.peerID (items a)) = true →
    ∀ b ∈ queued Q, onID r.id (items b) = true → b ∈ y.1 :: y.2

instance decidableOneQueue (items : Nat → WorkItem) (r : Request) (Q : List Queue) :
    Decidable (OneQueue items r Q) :=
  inferInstanceAs (Decidable (∀ y ∈ Q, _ → ∀ b ∈ queued Q, _ → b ∈ y.1 :: y.2))

theorem Fresh.related_iff (h : Fresh cfg r n i) :
    j.related i = true ↔ onID r.id j = true ∨ onPeer r.peerID j = true := by
  rw [WorkItem.related, h.id, h.peerID, or_eq_true, onID, onPeer]

theorem queue_unique (hnodup : (queued Q).Nodup) {y z : Queue} (hy : y ∈ Q) (hz : z ∈ Q) {a : Nat}
    (hay : a ∈ y.1 :: y.2) (haz : a ∈ z.1 :: z.2) : y = z := by
  induction Q with
  | nil => exact absurd hy not_mem_nil
  | cons q Q ih =>
    rw [queued_cons, ← cons_append, nodup_append] at hnodup
    obtain ⟨-, hrest, hapart⟩ := hnodup
    rcases mem_cons.mp hy with rfl | hyQ <;> rcases mem_cons.mp hz with rfl | hzQ
    · rfl
    · exact absurd rfl (hapart a hay a (mem_queued_of_mem hzQ haz))
    · exact absurd rfl (hapart a haz a (mem_queued_of_mem hyQ hay))
    · exact ih hrest hyQ hzQ

theorem Lined.mem_followed (h : Lined Q d) (hnodup : (queued Q).Nodup)
    (hone : OneQueue d.items r Q) (hy : (x, ps) ∈ Q)
    (hx : followed d.items r.id r.peerID Q = some x) {b : Nat} (hb : b ∈ queued Q)
    (hmatch : onID r.id (d.items b) = true ∨ onPeer r.peerID (d.items b) = true) : b ∈ x :: ps := by
  have hthis : ∀ P, firstQueue d.items P Q = some x →
      ∃ a ∈ x :: ps, P (d.items a) = true := by
    intro P hfirst
    obtain ⟨L', ps', M', hQ, hany⟩ := exists_of_firstQueue hfirst
    have hsame : (x, ps') = (x, ps) := queue_unique hnodup (by rw [hQ]; simp) hy
      (a := x) mem_cons_self mem_cons_self
    obtain rfl : ps' = ps := (Prod.mk.inj hsame).2
    exact any_eq_true.mp hany
  unfold followed at hx
  cases hpeer : firstQueue d.items (onPeer r.peerID) Q with
  | some x' =>
    rw [hpeer, Option.some_or] at hx
    obtain rfl := Option.some.inj hx
    obtain ⟨a, ha, hpeerA⟩ := hthis _ hpeer
    rcases hmatch with hID | hpeerB
    · exact hone (x', ps) hy (any_eq_true.mpr ⟨a, ha, hpeerA⟩) b hb hID
    · rw [onPeer, samePeer_iff] at hpeerA hpeerB
      refine h.together (x', ps) hy a ha b hb (related_iff.mpr (.inr ?_))
      exact ⟨hpeerA.1, hpeerA.2.trans hpeerB.2.symm⟩
  | none =>
    rw [hpeer, Option.none_or] at hx
    obtain ⟨a, ha, hIDA⟩ := hthis _ hx
    rcases hmatch with hIDB | hpeerB
    · rw [onID, beq_iff_eq] at hIDA hIDB
      exact h.together (x, ps) hy a ha b hb (related_iff.mpr (.inl (hIDA.trans hIDB.symm)))
    · exact absurd hpeerB (by rw [not_any_of_firstQueue hpeer hb]; simp)

theorem items_of_update (hitems : d'.items = update d.items w i) (hw : w ∉ queued Q) :
    d'.items w = i ∧ ∀ a ∈ queued Q, d'.items a = d.items a := by
  rw [hitems]
  refine ⟨update_self .., fun a ha => update_of_ne ?_ _ _⟩
  rintro rfl
  exact hw ha

theorem Lined.start (h : Lined (L ++ M) d) (hw : w ∉ queued (L ++ M))
    (hx : followed d.items r.id r.peerID (L ++ M) = none) (hfresh : Fresh cfg r n i)
    (hitems : d'.items = update d.items w i) : Lined (L ++ (w, []) :: M) d' := by
  obtain ⟨hself, hother⟩ := items_of_update hitems hw
  obtain ⟨hpeer, hID⟩ := Option.or_eq_none_iff.mp hx
  have hapart : ∀ a ∈ queued (L ++ M), (d.items a).related i = false := by
    intro a ha
    refine eq_false_iff.mpr fun hrelated => ?_
    rcases hfresh.related_iff.mp hrelated with hmatch | hmatch
    · exact absurd hmatch (by rw [not_any_of_firstQueue hID ha]; simp)
    · exact absurd hmatch (by rw [not_any_of_firstQueue hpeer ha]; simp)
  have hqueued : ∀ b, b ∈ queued (L ++ (w, []) :: M) ↔ b = w ∨ b ∈ queued (L ++ M) := by
    intro b
    simp only [queued_append, queued_cons]
    grind
  have hqueues : ∀ y, y ∈ L ++ (w, []) :: M ↔ y = (w, []) ∨ y ∈ L ++ M := by
    intro y
    grind
  constructor
  · intro y hy a ha b hb hrelated
    rcases (hqueues y).mp hy with rfl | hy
    · obtain rfl := mem_singleton.mp ha
      rcases (hqueued b).mp hb with rfl | hb
      · exact mem_cons_self
      · rw [hself, hother b hb] at hrelated
        exact absurd (related_symm hrelated) (by rw [hapart b hb]; simp)
    · have haQ := mem_queued_of_mem hy ha
      rcases (hqueued b).mp hb with rfl | hb
      · rw [hself, hother a haQ] at hrelated
        exact absurd hrelated (by rw [hapart a haQ]; simp)
      · rw [hother a haQ, hother b hb] at hrelated
        exact h.together y hy a ha b hb hrelated
  · intro y hy
    rcases (hqueues y).mp hy with rfl | hy
    · exact pairwise_singleton ..
    · exact increasing_congr (h.increasing y hy) fun a ha => by
        rw [hother a (mem_queued_of_mem hy ha)]

theorem Lined.follow (h : Lined (L ++ (x, ps) :: M) d) (hnodup : (queued (L ++ (x, ps) :: M)).Nodup)
    (hw : w ∉ queued (L ++ (x, ps) :: M)) (hone : OneQueue d.items r (L ++ (x, ps) :: M))
    (hx : followed d.items r.id r.peerID (L ++ (x, ps) :: M) = some x)
    (hlt : ∀ a ∈ queued (L ++ (x, ps) :: M), (d.items a).request < n) (hfresh : Fresh cfg r n i)
    (hitems : d'.items = update d.items w i) : Lined (L ++ (x, ps ++ [w]) :: M) d' := by
  obtain ⟨hself, hother⟩ := items_of_update hitems hw
  have hmem : ∀ b ∈ queued (L ++ (x, ps) :: M), (d.items b).related i = true → b ∈ x :: ps :=
    fun b hb hrelated => h.mem_followed hnodup hone (by simp) hx hb (hfresh.related_iff.mp hrelated)
  have hqueued : ∀ b, b ∈ queued (L ++ (x, ps ++ [w]) :: M) ↔
      b = w ∨ b ∈ queued (L ++ (x, ps) :: M) := by
    intro b
    simp only [queued_append, queued_cons]
    grind
  have hqueues : ∀ y ∈ L ++ (x, ps ++ [w]) :: M, y = (x, ps ++ [w]) ∨
      (y ∈ L ++ (x, ps) :: M ∧ y ≠ (x, ps)) := by
    intro y hy
    have hne : y ∈ L ++ M → y ≠ (x, ps) := by
      rintro hyLM rfl
      simp only [queued_append, queued_cons] at hnodup
      rcases mem_append.mp hyLM with hyL | hyM
      · have hxL := mem_queued_of_mem hyL (a := x) mem_cons_self
        grind
      · have hxM := mem_queued_of_mem hyM (a := x) mem_cons_self
        grind
    grind
  constructor
  · intro y hy a ha b hb hrelated
    rcases hqueues y hy with rfl | ⟨hyQ, hne⟩
    · rcases (hqueued b).mp hb with rfl | hbQ
      · simp
      · suffices hbx : b ∈ x :: ps by grind
        by_cases haw : a = w
        · subst haw
          rw [hself, hother b hbQ] at hrelated
          exact hmem b hbQ (related_symm hrelated)
        · have hax : a ∈ x :: ps := by grind
          have haQ : a ∈ queued (L ++ (x, ps) :: M) :=
            mem_queued_of_mem (y := (x, ps)) (by simp) hax
          rw [hother a haQ, hother b hbQ] at hrelated
          exact h.together (x, ps) (by simp) a hax b hbQ hrelated
    · have haQ := mem_queued_of_mem hyQ ha
      rcases (hqueued b).mp hb with rfl | hbQ
      · rw [hself, hother a haQ] at hrelated
        exact absurd (queue_unique hnodup hyQ (by simp) ha (hmem a haQ hrelated)) hne
      · rw [hother a haQ, hother b hbQ] at hrelated
        exact h.together y hyQ a ha b hbQ hrelated
  · intro y hy
    rcases hqueues y hy with rfl | ⟨hy, -⟩
    · have hmap : ((x :: ps).map fun a => (d'.items a).request) =
          (x :: ps).map fun a => (d.items a).request :=
        map_congr_left fun a ha => by
          rw [hother a (mem_queued_of_mem (y := (x, ps)) (by simp) ha)]
      rw [← cons_append, map_append, hmap, map_singleton, hself, hfresh.request]
      refine pairwise_append.mpr ⟨h.increasing (x, ps) (by simp), pairwise_singleton .., ?_⟩
      intro m hm m' hm'
      obtain ⟨a, ha, rfl⟩ := mem_map.mp hm
      obtain rfl := mem_singleton.mp hm'
      exact hlt a (mem_queued_of_mem (y := (x, ps)) (by simp) ha)
    · exact increasing_congr (h.increasing y hy) fun a ha => by
        rw [hother a (mem_queued_of_mem hy ha)]

structure Ordered (cfg : Config) (Q : List Queue) (d : Data) : Prop where
  recorded : Recorded cfg Q d
  lined : Lined Q d
  inOrder : InOrder d.arrivals d.log

theorem Ordered.arrive (h : Ordered cfg Q d) (hbalanced : Balanced cfg Q d)
    (hone : OneQueue d.items r Q) (ht : Transition cfg (some r) Q d Q' d') : Ordered cfg Q' d' := by
  have hrecorded := ht.recorded hbalanced h.recorded
  cases ht with
  | @start L M _ w r hw hx =>
    obtain ⟨i, p, limits, bytes, n, hfresh, hsetup⟩ := setup_eq cfg w r true hbalanced.sized
    refine ⟨hrecorded, ?_, ?_⟩
    · exact h.lined.start (fun hmem => hw (mem_cons_of_mem _ hmem)) hx hfresh (by rw [hsetup])
    · rw [hsetup]
      exact h.inOrder.arrive h.recorded.known r
  | @follow L M _ w x ps r hw hx =>
    obtain ⟨i, p, limits, bytes, n, hfresh, hsetup⟩ := setup_eq cfg w r false hbalanced.sized
    refine ⟨hrecorded, ?_, ?_⟩
    · exact h.lined.follow hbalanced.nodup.of_cons (fun hmem => hw (mem_cons_of_mem _ hmem))
        hone hx (fun a ha => h.recorded.request_lt ha) hfresh (by rw [hsetup])
    · rw [hsetup]
      exact h.inOrder.arrive h.recorded.known r

theorem Ordered.work (h : Ordered cfg Q d) (hbalanced : Balanced cfg Q d)
    (ht : Transition cfg none Q d Q' d') : Ordered cfg Q' d' := by
  have hrecorded := ht.recorded hbalanced h.recorded
  have hother : ∀ e : Event, e.isInjection = false → ∀ {log}, InOrder d.arrivals log →
      InOrder d.arrivals (log ++ [e]) :=
    fun e he log hlog => hlog.concat fun hinjection => absurd hinjection (by simp [he])
  cases ht with
  | receive counters => exact ⟨hrecorded, ⟨h.lined.together, h.lined.increasing⟩, h.inOrder⟩
  | @advance _ _ w c hc hzero hmore =>
    rw [hbalanced.advance hc (by simpa using (not_or.mp hmore).1)] at hrecorded ⊢
    refine ⟨hrecorded, h.lined.congr fun a _ => complete_sameRequest d w c a, ?_⟩
    rw [complete_eq]
    exact hother _ rfl h.inOrder
  | @retire L M _ w c ps hc hzero hdone =>
    obtain ⟨p, limits, -, hretire⟩ := retire_eq cfg d w c ps
    rw [hretire] at hrecorded ⊢
    refine ⟨hrecorded, (h.lined.remove hbalanced.nodup.of_cons).congr
      fun _ _ => ⟨rfl, rfl, rfl, rfl, rfl⟩, ?_⟩
    exact hother _ rfl (hother _ rfl h.inOrder)
  | @inject _ _ w c hw heligible hfree hc =>
    refine ⟨hrecorded, h.lined.congr fun a _ => inject_sameRequest cfg d w c a,
      h.inOrder.concat ?_⟩
    rintro - m r r' hm hr hr' hrelated
    exact h.lined.retired_before h.recorded hw hm hr hr' hrelated
  | @send L M _ w ps hput =>
    rw [sendOff_eq] at hrecorded ⊢
    refine ⟨hrecorded, (h.lined.remove hbalanced.nodup.of_cons).congr
      fun a _ => send_sameRequest d w a, hother _ rfl (h.inOrder.concat ?_)⟩
    rintro - m r r' hm hr hr' hrelated
    exact h.lined.retired_before h.recorded (by simp) hm hr hr' hrelated

theorem init_ordered (cfg : Config) : Ordered cfg [] (init cfg).data := by
  refine ⟨init_recorded cfg, ⟨?_, ?_⟩, ?_⟩
  · simp
  · simp
  · intro earlier e later hsplit
    exact absurd hsplit (by simp [init])

/-- An arriving request matches one queue only. -/
def Unambiguous (s : State) : Label → Prop
  | .request r => OneQueue s.data.items r s.links.queues
  | .receive _ _ => True
  | .work _ _ => True

instance decidableUnambiguous (s : State) : ∀ label, Decidable (Unambiguous s label)
  | .request r => decidableOneQueue s.data.items r s.links.queues
  | .receive _ _ => isTrue trivial
  | .work _ _ => isTrue trivial

/-- In every run whose requests match one queue only, related requests are processed one
after the other in the order of their arrival. -/
theorem related_in_order {labels : List Label}
    (hmeets : RunMeets (step cfg) Unambiguous (init cfg) labels)
    (hrun : run (step cfg) (init cfg) labels = some s) : InOrder s.data.arrivals s.data.log := by
  have hinv : ∃ Q free ensure, Follows s Q free ensure ∧ Balanced cfg Q s.data ∧
      Ordered cfg Q s.data := by
    refine invariant_of_runMeets (P := fun s => ∃ Q free ensure, Follows s Q free ensure ∧
      Balanced cfg Q s.data ∧ Ordered cfg Q s.data) ?_ ?_ hmeets hrun
    · rintro s label t ⟨Q, free, ensure, hfollows, hbalanced, hordered⟩ hclear hstep
      refine step_keeps hfollows hbalanced hordered hstep ?_ ?_
      · rintro r Q' d' rfl ht
        have hone : OneQueue s.data.items r s.links.queues := hclear
        rw [hfollows.links.queues_eq] at hone
        exact hordered.arrive hbalanced hone ht
      · exact fun Q d Q' d' ht hbalanced hordered => hordered.work hbalanced ht
    · exact ⟨[], [], [], init_follows cfg, init_balanced cfg, init_ordered cfg⟩
  obtain ⟨Q, free, ensure, -, -, hordered⟩ := hinv
  exact hordered.inOrder

/-- Two requests with one identity: the second is injected when the first is retired. -/
theorem related_in_order_sameID : ∃ s, run (step sampleConfig) (init sampleConfig)
      ([.request (sampleRequest 1 0 32), .request (sampleRequest 1 7 8), .work true true,
        .work true true, .receive 0 32] ++ replicate 4 (.work true true)) = some s ∧
    s.data.log.map Event.request = [0, 0, 0, 1] ∧ InOrder s.data.arrivals s.data.log := by
  refine exists_of_map_run (fun s => s.data.log.map Event.request) [0, 0, 0, 1] (by decide)
    fun s hrun hrequests => ?_
  exact ⟨hrequests, related_in_order (by decide) hrun⟩

/-- The third request has the identity of the first and the peer identifier of the second.
It waits for the second only, and is injected while the first is under way. -/
theorem not_related_in_order : ∃ s, run (step sampleConfig) (init sampleConfig)
      ([.request (sampleRequest 1 0 32), .request (sampleRequest 2 7 8),
        .request (sampleRequest 1 7 8), .work true true, .work true true, .work true true,
        .receive 1 8] ++ replicate 4 (.work true true)) = some s ∧
    ¬ InOrder s.data.arrivals s.data.log := by
  refine exists_of_map_run (fun s => (s.data.arrivals[0]?, s.data.arrivals[2]?,
      decide (.retired 0 ∈ s.data.log), s.data.log.any fun e => e.isInjection && e.request == 2))
    (some (sampleRequest 1 0 32), some (sampleRequest 1 7 8), false, true) (by decide)
    fun s _ hs hinOrder => ?_
  simp only [Prod.mk.injEq, decide_eq_false_iff_not, any_eq_true, and_eq_true,
    beq_iff_eq] at hs
  obtain ⟨hfirst, hthird, hopen, e, he, hinjection, hrequest⟩ := hs
  obtain ⟨earlier, later, hlog⟩ := append_of_mem he
  refine hopen ?_
  rw [hlog]
  refine mem_append_left _
    (hinOrder earlier e later hlog hinjection 0 _ (sampleRequest 1 7 8) ?_ hfirst ?_ ?_)
  · rw [hrequest]
    decide
  · rw [hrequest]
    exact hthird
  · decide

end BgqDriver.RgetPacing
