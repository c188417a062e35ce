import BgqDriver.MasterAliasesAccounting

/-!
What the operations of the master do to the accounting: each takes the id of the controller it
is about off its list before the controller goes, and puts the id of a new controller on it.
-/

namespace BgqDriver.MasterAliases

open List Function Bool

variable {once : Prop} {gone : Option Nat} {m m' : Master} {ref : Nat}

structure Grows (m m' : Master) : Prop where
  next : m.nextRef ≤ m'.nextRef
  lost : m'.lost = m.lost
  ids : m'.agents.map (·.id) = m.agents.map (·.id)
  names : m'.names = m.names
  ended : m'.endRequested = m.endRequested
  kept : ∀ p ∈ m.places, p ∈ m'.places
  new : ∀ p ∈ m'.places, p ∈ m.places ∨ m.nextRef ≤ p.2.ref

theorem Grows.refl (m : Master) : Grows m m :=
  ⟨Nat.le_refl _, rfl, rfl, rfl, rfl, fun _ hp => hp, fun _ hp => .inl hp⟩

theorem Grows.trans {m1 m2 m3 : Master} (h : Grows m1 m2) (h' : Grows m2 m3) : Grows m1 m3 where
  next := Nat.le_trans h.next h'.next
  lost := h'.lost.trans h.lost
  ids := h'.ids.trans h.ids
  names := h'.names.trans h.names
  ended := h'.ended.trans h.ended
  kept := fun p hp => h'.kept p (h.kept p hp)
  new := by
    intro p hp
    rcases h'.new p hp with hold | hnew
    · exact h.new p hold
    · exact .inr (Nat.le_trans h.next hnew)

theorem grows_modifyAlias (m : Master) (name : String) (f : List BinaryId → List BinaryId) :
    Grows m (m.modifyAlias name f) :=
  ⟨Nat.le_refl _, rfl, rfl, names_modifyAlias m name f, rfl, fun _ hp => hp, fun _ hp => .inl hp⟩

def At (place : Option String) (ref : Nat) (m : Master) : Prop :=
  ∀ p ∈ m.places, p.2.ref = ref → p.1 = place

variable {p : Option String × Controller} {binid : BinaryId} {policy : Policy} {c : Controller}

theorem Accounted.at_place (h : Accounted once gone m) (hp : p ∈ m.places) : At p.1 p.2.ref m := by
  intro q hq href
  rw [h.eq_of_ref hq hp href]

theorem At.grows {place : Option String} (hat : At place ref m) (hlt : ref < m.nextRef)
    (hgrows : Grows m m') : At place ref m' := by
  intro p hp href
  rcases hgrows.new p hp with hold | hnew
  · exact hat p hold href
  · exact absurd hlt (by rw [← href]; exact Nat.not_lt.mpr hnew)

theorem Accounted.removeController (h : Accounted once (some ref) m) {agentId : String}
    (hat : At (some agentId) ref m) : Accounted once none (m.removeController agentId ref) := by
  have hplaces := places_removeController m agentId ref
  refine h.drop ?_ ?_ ?_
  · exact (congrArg Nodup (ids_modifyAgent m agentId _)).mpr h.agentIds
  · change (m.removeController agentId ref).places.Sublist m.places
    rw [hplaces]
    exact filter_sublist
  · intro p
    change p ∈ (m.removeController agentId ref).places ↔ _
    rw [hplaces, mem_filter]
    refine and_congr_right fun hp => ?_
    constructor
    · intro hkeep href
      simp [hat p hp href, href] at hkeep
    · intro hne
      simp [hne]

theorem Accounted.gone_of_unlisted (h : Accounted once none m)
    (hno : ∀ p ∈ m.places, p.2.ref = ref → ∀ al ∈ m.aliases, p.2.aliasName ≠ al.name) :
    Accounted once (some ref) m := by
  refine h.relist rfl ?_ h.distinct
  intro al hal b
  rw [h.listed al hal b]
  constructor
  · rintro ⟨p, hp, hbinid, halias, -⟩
    refine ⟨p, hp, hbinid, halias, ?_⟩
    rw [ne_eq, Option.some.injEq]
    intro href
    exact hno p hp href.symm al hal halias
  · rintro ⟨p, hp, hbinid, halias, -⟩
    exact ⟨p, hp, hbinid, halias, by simp⟩

theorem not_mem_places_removeController {agentId : String} (hat : At (some agentId) ref m) :
    ∀ p ∈ (m.removeController agentId ref).places, p.2.ref ≠ ref := by
  intro p hp href
  rw [places_removeController, mem_filter] at hp
  have hkeep := hp.2
  simp [hat p hp.1 href, href] at hkeep

def startsBinary : Policy → StartReply → Bool
  | .run _, r => r.started.isSome
  | _, _ => false

theorem startBin_cases {agentId name : String} {r : StartReply}
    (h : m.startBin agentId name r = some (m', binid)) : (m' = m ∧ binid = "0") ∨
    (m.endRequested = false ∧ r.started = some binid ∧ (∀ p ∈ m.places, p.2.binid ≠ binid) ∧
      m' = { m.modifyAgent agentId (addController ⟨m.nextRef, binid, name, false⟩) with
        nextRef := m.nextRef + 1 }.addBinary name binid) := by
  revert h
  fun_cases Master.startBin m agentId name r <;> rintro ⟨⟩
  case case5 hended _ hstarted hfree =>
    refine .inr ⟨not_eq_true _ ▸ hended, hstarted, ?_, rfl⟩
    intro p hp hbinid
    apply hfree
    rw [any_eq_true]
    refine ⟨p.2, ?_, by simp [hbinid]⟩
    rw [held_eq]
    exact mem_map_of_mem hp
  all_goals exact .inl ⟨rfl, rfl⟩

section Start

variable {agentId name : String} {r : StartReply}

section

variable (h : Accounted once gone m) (hgone : ∀ ref, gone = some ref → ref < m.nextRef)
  (hconnected : m.connected agentId = true)
include h hgone hconnected

theorem startBin_accounted
    (hstart : m.startBin agentId name r = some (m', binid)) : Accounted once gone m' ∧ Grows m m' ∧
      (binid ≠ "0" → ∃ p ∈ m'.places,
        p.2.binid = binid ∧ p.2.aliasName = name ∧ p.2.ref = m.nextRef) := by
  rcases startBin_cases hstart with ⟨rfl, hzero⟩ | ⟨-, -, hnew, rfl⟩
  · exact ⟨h, .refl m', fun hne => absurd hzero hne⟩
  have hplaces := places_addController h.agentIds hconnected ⟨m.nextRef, binid, name, false⟩
  have hids := ids_modifyAgent m agentId (addController ⟨m.nextRef, binid, name, false⟩)
  refine ⟨h.addNew hgone ⟨m.nextRef, binid, name, false⟩ (hids ▸ h.agentIds) rfl hnew hplaces,
    ?_, ?_⟩
  · refine ⟨Nat.le_succ _, rfl, hids, names_modifyAlias _ _ _, rfl, ?_, ?_⟩
    · intro p hp
      exact hplaces.mem_iff.mpr (mem_cons_of_mem _ hp)
    · intro p hp
      rcases mem_cons.mp (hplaces.mem_iff.mp hp) with rfl | hold
      · exact .inr (Nat.le_refl _)
      · exact .inl hold
  · intro _
    exact ⟨_, hplaces.mem_iff.mpr mem_cons_self, rfl, rfl, rfl⟩

theorem startAndAdd_accounted (honce : once → m.endRequested = true ∨ r.started = none)
    (hstart : m.startAndAdd agentId name r = some m') : Accounted once gone m' ∧ Grows m m' := by
  obtain ⟨⟨m1, binid⟩, hbin, rfl⟩ := Option.map_eq_some_iff.mp hstart
  obtain ⟨hm1, hgrows, hplace⟩ := startBin_accounted h hgone hconnected hbin
  by_cases hzero : binid = "0"
  · simp only [hzero, if_true]
    exact ⟨hm1, hgrows⟩
  · simp only [hzero, if_false]
    obtain ⟨p, hp, rfl, rfl, href⟩ := hplace hzero
    refine ⟨hm1.addAgain hp ?_ ?_, hgrows.trans (grows_modifyAlias m1 _ _)⟩
    · intro hsome
      exact absurd (hgone _ hsome) (by rw [href]; exact Nat.lt_irrefl _)
    · intro hyes
      rcases startBin_cases hbin with ⟨-, hzero'⟩ | ⟨hended, hstarted, -, -⟩
      · exact hzero hzero'
      · rcases honce hyes with hend | hnone
        · simp [hended] at hend
        · simp [hstarted] at hnone

end

theorem startAndAdd_places (h : Accounted once gone m) (hconnected : m.connected agentId = true)
    (hstart : m.startAndAdd agentId name r = some m') (hp : p ∈ m'.places) :
    p ∈ m.places ∨ p.2.aliasName = name := by
  obtain ⟨⟨m1, binid⟩, hbin, rfl⟩ := Option.map_eq_some_iff.mp hstart
  have hp1 : p ∈ m1.places := by
    dsimp only at hp
    split at hp <;> exact hp
  rcases startBin_cases hbin with ⟨rfl, -⟩ | ⟨-, -, -, rfl⟩
  · exact .inl hp1
  · have hplaces := places_addController h.agentIds hconnected ⟨m.nextRef, binid, name, false⟩
    rcases mem_cons.mp (hplaces.mem_iff.mp hp1) with rfl | hold
    · exact .inr rfl
    · exact .inl hold

theorem connected_of_evaluatePolicy (h : m.evaluatePolicy name policy = .ok (some agentId)) :
    m.connected agentId = true ∧ policy = .run agentId ∧ m.full name = false := by
  revert h
  fun_cases Master.evaluatePolicy m name policy <;> intro h
  case case4 target hfull =>
    obtain ⟨hconnected, ⟨⟩⟩ := Option.ite_none_right_eq_some.mp (Except.ok.inj h)
    exact ⟨hconnected, rfl, not_eq_true _ ▸ hfull⟩
  all_goals cases h

section

variable (h : Accounted once gone m) (hgone : ∀ ref, gone = some ref → ref < m.nextRef)
include h hgone

theorem executePolicy_accounted
    (honce : once → m.endRequested = true ∨ m.full name = true ∨ startsBinary policy r = false)
    (hexec : m.executePolicy name policy r = some m') : Accounted once gone m' ∧ Grows m m' := by
  revert hexec
  fun_cases Master.executePolicy m name policy r with
  | case1 | case2 =>
    rintro ⟨⟩
    exact ⟨h, .refl m⟩
  | case3 target heval =>
    intro hexec
    obtain ⟨hconnected, rfl, hroom⟩ := connected_of_evaluatePolicy heval
    refine startAndAdd_accounted h hgone hconnected ?_ hexec
    intro hyes
    rcases honce hyes with hend | hfull | hstarts
    · exact .inl hend
    · simp [hroom] at hfull
    · exact .inr (by simpa [startsBinary] using hstarts)

theorem restart_accounted (honce : once → m.endRequested = true ∨ startsBinary policy r = false)
    (hrestart : m.restart name policy r = some m') : Accounted once gone m' ∧ Grows m m' := by
  revert hrestart
  fun_cases Master.restart m name policy r with
  | case1 | case2 | case3 =>
    rintro ⟨⟩
    exact ⟨h, .refl m⟩
  | case4 target heval =>
    intro hrestart
    obtain ⟨hconnected, rfl, -⟩ := connected_of_evaluatePolicy heval
    refine startAndAdd_accounted h hgone hconnected ?_ hrestart
    intro hyes
    exact (honce hyes).imp_right fun hstarts => by simpa [startsBinary] using hstarts

end

theorem startServer_accounted (h : Accounted once none m)
    (hstart : m.startServer name policy r = some m') : Accounted once none m' ∧ Grows m m' := by
  revert hstart
  fun_cases Master.startServer m name policy r with
  | case1 | case2 | case3 | case4 =>
    rintro ⟨⟩
    exact ⟨h, .refl m⟩
  | case5 _ _ target heval =>
    intro hstart
    obtain ⟨⟨m1, binid⟩, hbin, rfl⟩ := Option.map_eq_some_iff.mp hstart
    obtain ⟨hm1, hgrows, -⟩ := startBin_accounted h (by simp)
      (connected_of_evaluatePolicy heval).1 hbin
    exact ⟨hm1, hgrows⟩

end Start

theorem owns_iff {name : String} :
    m.owns name binid = true ↔ ∃ al ∈ m.aliases, al.name = name ∧ binid ∈ al.binaries := by
  simp [Master.owns]

theorem Accounted.owner (h : Accounted once gone m) (hp : p ∈ m.places) {name : String}
    (howns : m.owns name p.2.binid = true) : name = p.2.aliasName ∧ gone ≠ some p.2.ref := by
  obtain ⟨al, hal, rfl, hmem⟩ := owns_iff.mp howns
  obtain ⟨q, hq, hbinid, halias, href⟩ := (h.listed al hal _).mp hmem
  rw [h.eq_of_binid hq hp hbinid] at halias href
  exact ⟨halias.symm, href⟩

theorem Accounted.gone_of_unowned (h : Accounted once none m) (hp : p ∈ m.places)
    (hno : m.owns p.2.aliasName p.2.binid = false) : Accounted once (some p.2.ref) m := by
  apply h.gone_of_unlisted
  intro q hq href al hal halias
  obtain rfl := h.eq_of_ref hq hp href
  have howns : m.owns q.2.aliasName q.2.binid = true :=
    owns_iff.mpr ⟨al, hal, halias.symm, (h.listed al hal _).mpr ⟨q, hq, rfl, halias, by simp⟩⟩
  simp [hno] at howns

theorem owns_false_of_not_mem_names {name : String} (h : name ∉ m.names) :
    m.owns name binid = false := by
  rw [eq_false_iff]
  intro howns
  obtain ⟨al, hal, rfl, -⟩ := owns_iff.mp howns
  exact h (mem_map_of_mem hal)

def Replaces (once : Prop) (ref : Nat) (g : Master → String → Answer → Option Master) : Prop :=
  ∀ m m' name answer, Accounted once (some ref) m → ref < m.nextRef →
    (once → m.endRequested = true ∨ startsBinary answer.policy answer.reply = false) →
    g m name answer = some m' → Accounted once (some ref) m' ∧ Grows m m'

/-- The loop over the aliases finds the alias of the binary, takes the id off its list and
starts a binary in its place. -/
theorem policyLoop_accounted {g : Master → String → Answer → Option Master}
    (hg : Replaces once p.2.ref g) {names : List String} {answers : List Answer}
    (hm : Accounted once (some p.2.ref) m ∨
      Accounted once none m ∧ (p.2.aliasName ∈ m.names → p.2.aliasName ∈ names)) (hp : p ∈ m.places)
    (honce : once → m.endRequested = true ∨
      ∀ answer ∈ answers, startsBinary answer.policy answer.reply = false)
    (hloop : policyLoop p.2.binid (fun m name answer => g (m.removeBinary name p.2.binid) name
      answer) m names answers = some m') : Accounted once (some p.2.ref) m' ∧ Grows m m' := by
  induction names generalizing m answers with
  | nil =>
    simp only [policyLoop, Option.some.injEq] at hloop
    subst hloop
    refine ⟨?_, .refl m⟩
    rcases hm with hm | ⟨hm, hnames⟩
    · exact hm
    · exact hm.gone_of_unowned hp
        (owns_false_of_not_mem_names fun hmem => absurd (hnames hmem) not_mem_nil)
  | cons name names ih =>
    unfold policyLoop at hloop
    split at hloop
    next howns =>
      rcases hm with hm | ⟨hm, -⟩
      · exact absurd rfl (hm.owner hp howns).2
      obtain ⟨rfl, -⟩ := hm.owner hp howns
      split at hloop
      · simp at hloop
      next answer answers =>
        obtain ⟨m1, hbody, hrest⟩ := Option.bind_eq_some_iff.mp hloop
        have hremoved := hm.removeBinary hp
        have hgrows := grows_modifyAlias m p.2.aliasName (List.filter (· ≠ p.2.binid))
        obtain ⟨hm1, hgrows1⟩ := hg _ _ _ _ hremoved (hm.fresh p hp)
          (fun hyes => (honce hyes).imp_right fun hall => hall _ mem_cons_self) hbody
        obtain ⟨hm', hgrows'⟩ := ih (.inl hm1) (hgrows1.kept p hp)
          (fun hyes => (honce hyes).imp (fun hend => hgrows1.ended.trans hend)
            fun hall a ha => hall a (mem_cons_of_mem _ ha)) hrest
        exact ⟨hm', (hgrows.trans hgrows1).trans hgrows'⟩
    next hother =>
      refine ih ?_ hp honce hloop
      rcases hm with hm | ⟨hm, hnames⟩
      · exact .inl hm
      by_cases hname : p.2.aliasName = name
      · subst hname
        exact .inl (hm.gone_of_unowned hp (not_eq_true _ ▸ hother))
      · refine .inr ⟨hm, fun hmem => ?_⟩
        rcases mem_cons.mp (hnames hmem) with heq | hmem
        · exact absurd heq hname
        · exact hmem

theorem mem_places_of_findController {agentId : String}
    (h : m.findController agentId binid = some c) :
    (some agentId, c) ∈ m.places ∧ c.binid = binid := by
  have hmem := mem_of_find?_eq_some h
  have hbinid := find?_some h
  simp only [mem_reverse, mem_flatMap, mem_filter, decide_eq_true_eq] at hmem hbinid
  obtain ⟨a, ⟨ha, rfl⟩, hc⟩ := hmem
  exact ⟨mem_places.mpr (.inl ⟨a, ha, rfl, hc⟩), hbinid⟩

theorem mem_places_of_findBinary {agentId : String} (h : m.findBinary binid = some (agentId, c)) :
    (some agentId, c) ∈ m.places ∧ c.binid = binid := by
  have hmem := mem_of_find?_eq_some h
  have hbinid := find?_some h
  simp only [mem_reverse, mem_flatMap, mem_map, Prod.mk.injEq, decide_eq_true_eq] at hmem hbinid
  obtain ⟨a, ha, c', hc, rfl, rfl⟩ := hmem
  exact ⟨mem_places.mpr (.inl ⟨a, ha, rfl, hc⟩), hbinid⟩

theorem ne_of_findBinary_eq_none (h : m.findBinary binid = none) {a : Agent} (ha : a ∈ m.agents)
    (hc : c ∈ a.binaries) : c.binid ≠ binid := by
  unfold Master.findBinary at h
  rw [find?_eq_none] at h
  have hne := h (a.id, c) (by
    rw [mem_reverse, mem_flatMap]
    exact ⟨a, ha, mem_map_of_mem hc⟩)
  simpa using hne

/-- The loop of `stopBin_nl` gives up after a reply with an error. -/
def abandons : Bool → Nat → List StopReply → Bool
  | seen, 0, _ => seen
  | _, _ + 1, [] => false
  | seen, retries + 1, .softError :: replies => abandons seen retries replies
  | seen, _ + 1, .noRequester :: _ => seen
  | _, retries + 1, .error :: replies => abandons true (retries + 1) replies
  | _, _ + 1, .ok :: _ => false
  | _, _ + 1, .hardError :: _ => false

theorem setStopping_accounted (h : Accounted once gone m) (agentId : String) (ref : Nat) :
    Accounted once gone (m.setStopping agentId ref) := by
  obtain ⟨f, hplaces, hf⟩ := places_setStopping m agentId ref
  refine h.rearrange rfl rfl ?_ ?_
  · exact (congrArg Nodup (ids_modifyAgent m agentId _)).mpr h.agentIds
  · rw [hplaces, map_map]
    refine Perm.of_eq (map_congr_left fun p _ => ?_)
    obtain ⟨-, href, hbinid, halias⟩ := hf p
    simp only [comp_apply, href, hbinid, halias]

theorem stopLoop_accounted {agentId : String} {retries : Nat} {replies : List StopReply}
    (seen : Bool) (hm : Accounted once (if seen then some c.ref else none) m) (hp : p ∈ m.places)
    (hpc : p.1 = some agentId ∧ p.2.ref = c.ref ∧ p.2.binid = c.binid)
    (hkeeps : abandons seen retries replies = false)
    (hloop : stopLoop agentId c true m retries replies = some m') : Accounted once none m' := by
  have hforget : Accounted once (some p.2.ref) (m.removeFromAll p.2.binid) := by
    refine hm.removeFromAll ?_ hp
    rw [hpc.2.1]
    cases seen
    · exact .inl rfl
    · exact .inr rfl
  rw [hpc.2.1, hpc.2.2] at hforget
  have hat : At (some agentId) c.ref m := by
    rw [← hpc.1, ← hpc.2.1]
    exact hm.at_place hp
  fun_induction stopLoop agentId c true m retries replies generalizing seen with
  | case1 m | case4 m =>
    cases hloop
    rw [abandons] at hkeeps
    rw [hkeeps] at hm
    exact hm
  | case2 => simp at hloop
  | case3 m retries replies ih => exact ih seen hm hp hkeeps hloop hforget hat
  | case5 m retries replies ih =>
    have hagain := hforget.removeFromAll (p := p) (.inr (by rw [hpc.2.1])) hp
    rw [hpc.2.1, hpc.2.2] at hagain
    exact ih true hforget hp hkeeps hloop hagain hat
  | case6 m | case7 m =>
    cases hloop
    exact hforget.removeController hat

end BgqDriver.MasterAliases
