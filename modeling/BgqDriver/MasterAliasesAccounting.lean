import BgqDriver.MasterAliases
import Mathlib.Data.List.Nodup

/-!
The lists of the aliases and the controllers say the same: an id is on the list of an alias
exactly if a controller of one of the alias's binaries has it. In the middle of an operation
the id of one controller may already be off the list. Whether an id is on a list only once is
followed as well, as long as nothing adds it a second time.
-/

namespace BgqDriver.MasterAliases

open List Function Master

def Master.places (m : Master) : List (Option String × Controller) :=
  (m.agents.flatMap fun a => a.binaries.map (some a.id, ·)) ++ m.lost.map (none, ·)

theorem held_eq (m : Master) : m.held = m.places.map Prod.snd := by
  simp [held, places, map_flatMap, comp_def]

variable {p : Option String × Controller} {agents : List Agent}

theorem mem_places {m : Master} :
    p ∈ m.places ↔ (∃ a ∈ m.agents, p.1 = some a.id ∧ p.2 ∈ a.binaries) ∨
      (p.1 = none ∧ p.2 ∈ m.lost) := by
  obtain ⟨place, c⟩ := p
  simp only [places, mem_append, mem_flatMap, mem_map, Prod.mk.injEq]
  constructor
  · rintro (⟨a, ha, c', hc, rfl, rfl⟩ | ⟨c', hc, rfl, rfl⟩)
    · exact .inl ⟨a, ha, rfl, hc⟩
    · exact .inr ⟨rfl, hc⟩
  · rintro (⟨a, ha, rfl, hc⟩ | ⟨rfl, hc⟩)
    · exact .inl ⟨a, ha, c, hc, rfl, rfl⟩
    · exact .inr ⟨c, hc, rfl, rfl⟩

theorem addController_perm (c : Controller) (binaries : List Controller) :
    (addController c binaries).Perm (c :: binaries) := by
  unfold addController
  split
  · exact List.Perm.refl _
  · refine perm_middle.trans (Perm.cons c ?_)
    rw [takeWhile_append_dropWhile]

section

variable (m : Master) (agentId : String) (f : List Controller → List Controller)

theorem places_modifyAgent : (m.modifyAgent agentId f).places = (m.agents.flatMap fun a =>
        (if a.id = agentId then f a.binaries else a.binaries).map (some a.id, ·)) ++
        m.lost.map (none, ·) := by
  simp only [places, modifyAgent, flatMap_map]
  congr 2
  funext a
  split <;> rfl

theorem ids_modifyAgent : (m.modifyAgent agentId f).agents.map (·.id) = m.agents.map (·.id) := by
  simp only [modifyAgent, map_map]
  apply map_congr_left
  intro a _
  simp only [comp_apply]
  split <;> rfl

end

variable {agentId : String} {al : Alias} {gone' : Option Nat} {lost : List Controller}
  {q : Option String × Controller}

theorem flatMap_modify_perm (hids : (agents.map (·.id)).Nodup)
    (hconnected : agentId ∈ agents.map (·.id)) (c : Controller) :
    (agents.flatMap fun a => (if a.id = agentId then addController c a.binaries
        else a.binaries).map (some a.id, ·)).Perm
      ((some agentId, c) :: agents.flatMap fun a => a.binaries.map (some a.id, ·)) := by
  induction agents with
  | nil => simp at hconnected
  | cons first agents ih =>
    rw [map_cons, nodup_cons] at hids
    rw [flatMap_cons, flatMap_cons]
    by_cases hfirst : first.id = agentId
    · have hrest : (agents.flatMap fun a => (if a.id = agentId then addController c a.binaries
          else a.binaries).map (some a.id, ·)) =
          agents.flatMap fun a => a.binaries.map (some a.id, ·) := by
        apply flatMap_congr
        intro a ha
        rw [if_neg]
        rintro hsame
        exact hids.1 (by rw [hfirst, ← hsame]; exact mem_map_of_mem ha)
      rw [hrest, if_pos hfirst, ← hfirst]
      exact ((addController_perm c first.binaries).map _).append_right _
    · rw [if_neg hfirst]
      have hmem : agentId ∈ agents.map (·.id) := by
        rcases mem_map.mp hconnected with ⟨a, ha, rfl⟩
        rcases mem_cons.mp ha with rfl | ha
        · exact absurd rfl hfirst
        · exact mem_map_of_mem ha
      exact ((ih hids.2 hmem).append_left _).trans perm_middle

theorem places_addController {m : Master} (hids : (m.agents.map (·.id)).Nodup)
    (hconnected : m.connected agentId = true) (c : Controller) :
    (m.modifyAgent agentId (addController c)).places.Perm ((some agentId, c) :: m.places) := by
  rw [places_modifyAgent]
  refine (flatMap_modify_perm hids ?_ c).append_right _
  simpa [connected] using hconnected

theorem places_removeController (m : Master) (agentId : String) (ref : Nat) :
    (m.removeController agentId ref).places =
      m.places.filter fun p => !(p.1 = some agentId && p.2.ref = ref) := by
  rw [removeController, places_modifyAgent, places, filter_append, filter_flatMap]
  congr 1
  · apply flatMap_congr
    intro a _
    by_cases ha : a.id = agentId
    all_goals simp [ha, filter_map, comp_def]
  · simp [filter_map, comp_def]

theorem places_setStopping (m : Master) (agentId : String) (ref : Nat) :
    ∃ f : Option String × Controller → Option String × Controller,
      (m.setStopping agentId ref).places = m.places.map f ∧
      ∀ p, (f p).1 = p.1 ∧ (f p).2.ref = p.2.ref ∧ (f p).2.binid = p.2.binid ∧
        (f p).2.aliasName = p.2.aliasName := by
  refine ⟨fun p => (p.1, if p.1 = some agentId ∧ p.2.ref = ref then
    { p.2 with stopping := true } else p.2), ?_, ?_⟩
  · rw [setStopping, places_modifyAgent, places, map_append, map_flatMap]
    congr 1
    · apply flatMap_congr
      intro a _
      by_cases ha : a.id = agentId
      all_goals simp [ha, comp_def]
    · simp [comp_def]
  · intro p
    dsimp only
    split <;> simp

/-- The lists of the aliases have the ids of the controllers, apart from one that is gone, and
each of them once if that is asked for. -/
structure Accounted (once : Prop) (gone : Option Nat) (m : Master) : Prop where
  names : m.names.Nodup
  agentIds : (m.agents.map (·.id)).Nodup
  fresh : ∀ p ∈ m.places, p.2.ref < m.nextRef
  refs : (m.places.map (·.2.ref)).Nodup
  binids : (m.places.map (·.2.binid)).Nodup
  listed : ∀ al ∈ m.aliases, ∀ b, b ∈ al.binaries ↔
    ∃ p ∈ m.places, p.2.binid = b ∧ p.2.aliasName = al.name ∧ gone ≠ some p.2.ref
  distinct : once → ∀ al ∈ m.aliases, al.binaries.Nodup

theorem foldl_addAlias (entries : List (String × Nat)) (aliases : List Alias)
    (hnames : (aliases.map (·.name)).Nodup) (hempty : ∀ al ∈ aliases, al.binaries = []) :
    ((entries.foldl addAlias aliases).map (·.name)).Nodup ∧
      ∀ al ∈ entries.foldl addAlias aliases, al.binaries = [] := by
  induction entries generalizing aliases with
  | nil => exact ⟨hnames, hempty⟩
  | cons entry entries ih =>
    rw [foldl_cons]
    unfold addAlias
    split
    · exact ih aliases hnames hempty
    next hnew =>
      refine ih _ ?_ ?_
      · rw [map_append, map_singleton, ← concat_eq_append]
        refine hnames.concat fun hmem => hnew ?_
        obtain ⟨al, hal, hname⟩ := mem_map.mp hmem
        exact any_eq_true.mpr ⟨al, hal, decide_eq_true hname⟩
      · intro al hal
        rcases mem_append.mp hal with hold | hlast
        · exact hempty al hold
        · rw [mem_singleton.mp hlast]

theorem accounted_init (once : Prop) (entries : List (String × Nat)) (agentsPerHost : Nat) :
    Accounted once none (init entries agentsPerHost) := by
  obtain ⟨hnames, hempty⟩ := foldl_addAlias entries [] nodup_nil (by simp)
  refine ⟨hnames, by simp [init], by simp [init, places],
    by simp [init, places], by simp [init, places], ?_, ?_⟩
  · intro al hal b
    rw [hempty al hal]
    simp [init, places]
  · intro _ al hal
    rw [hempty al hal]
    exact nodup_nil

section Accounted

variable {once : Prop} {gone : Option Nat} {m : Master}

section

variable (h : Accounted once gone m) (hp : p ∈ m.places) (hq : q ∈ m.places)
include h hp hq

theorem Accounted.eq_of_ref (href : p.2.ref = q.2.ref) : p = q :=
  inj_on_of_nodup_map h.refs hp hq href

theorem Accounted.eq_of_binid (hbinid : p.2.binid = q.2.binid) : p = q :=
  inj_on_of_nodup_map h.binids hp hq hbinid

end

theorem mem_modifyAlias {name : String} {f : List BinaryId → List BinaryId}
    (hal : al ∈ (m.modifyAlias name f).aliases) : ∃ al0 ∈ m.aliases, al.name = al0.name ∧
      al.binaries = if al0.name = name then f al0.binaries else al0.binaries := by
  obtain ⟨al0, hal0, rfl⟩ := mem_map.mp hal
  refine ⟨al0, hal0, ?_, ?_⟩ <;> split <;> rfl

theorem names_modifyAlias (m : Master) (name : String) (f : List BinaryId → List BinaryId) :
    (m.modifyAlias name f).names = m.names := by
  simp only [Master.names, modifyAlias, map_map]
  apply map_congr_left
  intro al _
  simp only [comp_apply]
  split <;> rfl

section

variable (h : Accounted once gone m)
include h

theorem Accounted.relist {aliases : List Alias}
    (hnames : aliases.map (·.name) = m.names) (hlisted : ∀ al ∈ aliases, ∀ b, b ∈ al.binaries ↔
      ∃ p ∈ m.places, p.2.binid = b ∧ p.2.aliasName = al.name ∧ gone' ≠ some p.2.ref)
    (hdistinct : once → ∀ al ∈ aliases, al.binaries.Nodup) :
    Accounted once gone' { m with aliases } where
  names := by
    rw [Master.names, hnames]
    exact h.names
  agentIds := h.agentIds
  fresh := h.fresh
  refs := h.refs
  binids := h.binids
  listed := hlisted
  distinct := hdistinct

theorem Accounted.modifyAlias (name : String) (f : List BinaryId → List BinaryId)
    (hlisted : ∀ al ∈ m.aliases, ∀ b, b ∈ (if al.name = name then f al.binaries else al.binaries) ↔
      ∃ p ∈ m.places, p.2.binid = b ∧ p.2.aliasName = al.name ∧ gone' ≠ some p.2.ref)
    (hdistinct : once → ∀ al ∈ m.aliases, al.name = name → al.binaries.Nodup →
      (f al.binaries).Nodup) : Accounted once gone' (m.modifyAlias name f) := by
  refine h.relist (names_modifyAlias m name f) ?_ ?_
  · intro al hal b
    obtain ⟨al0, hal0, hname, hbinaries⟩ := mem_modifyAlias hal
    rw [hbinaries, hname]
    exact hlisted al0 hal0 b
  · intro honce al hal
    obtain ⟨al0, hal0, -, hbinaries⟩ := mem_modifyAlias hal
    have hnodup := h.distinct honce al0 hal0
    rw [hbinaries]
    split
    next hname => exact hdistinct honce al0 hal0 hname hnodup
    next => exact hnodup

theorem Accounted.listed_gone_iff (hp : p ∈ m.places) {name : String}
    {b : BinaryId} : (∃ q ∈ m.places, q.2.binid = b ∧ q.2.aliasName = name ∧
        some p.2.ref ≠ some q.2.ref) ↔
      (∃ q ∈ m.places, q.2.binid = b ∧ q.2.aliasName = name ∧ none ≠ some q.2.ref) ∧
        b ≠ p.2.binid := by
  constructor
  · rintro ⟨q, hq, rfl, halias, href⟩
    exact ⟨⟨q, hq, rfl, halias, by simp⟩, fun hbinid => href (by rw [h.eq_of_binid hq hp hbinid])⟩
  · rintro ⟨⟨q, hq, rfl, halias, -⟩, hne⟩
    refine ⟨q, hq, rfl, halias, ?_⟩
    rw [ne_eq, Option.some.injEq]
    intro href
    exact hne (by rw [h.eq_of_ref hp hq href])

theorem Accounted.binid_ne (hp : p ∈ m.places) {name : String}
    {b : BinaryId} (hother : name ≠ p.2.aliasName)
    (hlisted : ∃ q ∈ m.places, q.2.binid = b ∧ q.2.aliasName = name ∧ none ≠ some q.2.ref) :
    b ≠ p.2.binid := by
  obtain ⟨q, hq, rfl, halias, -⟩ := hlisted
  intro hbinid
  exact hother (by rw [← halias, h.eq_of_binid hq hp hbinid])

end

theorem Accounted.removeBinary (h : Accounted once none m) (hp : p ∈ m.places) :
    Accounted once (some p.2.ref) (m.removeBinary p.2.aliasName p.2.binid) := by
  refine h.modifyAlias _ _ ?_ fun _ al _ _ hnodup => hnodup.filter _
  intro al hal b
  have hlisted := h.listed al hal b
  rw [h.listed_gone_iff hp]
  split
  next => rw [mem_filter, hlisted, decide_eq_true_eq]
  next hother =>
    rw [hlisted]
    exact (and_iff_left_of_imp (h.binid_ne hp hother)).symm

theorem Accounted.removeFromAll (h : Accounted once gone m)
    (hgone : gone = none ∨ gone = some p.2.ref) (hp : p ∈ m.places) :
    Accounted once (some p.2.ref) (m.removeFromAll p.2.binid) := by
  refine h.relist (by simp [Master.names, comp_def]) ?_ ?_
  · intro al hal b
    obtain ⟨al0, hal0, rfl⟩ := mem_map.mp hal
    rw [mem_filter, h.listed al0 hal0 b, decide_eq_true_eq]
    rcases hgone with rfl | rfl
    · exact (h.listed_gone_iff hp).symm
    · rw [h.listed_gone_iff hp, and_assoc, and_self]
  · intro honce al hal
    obtain ⟨al0, hal0, rfl⟩ := mem_map.mp hal
    exact (h.distinct honce al0 hal0).filter _

theorem Accounted.addBack (h : Accounted once (some p.2.ref) m) (hp : p ∈ m.places) :
    Accounted once none (m.addBinary p.2.aliasName p.2.binid) := by
  refine h.modifyAlias _ _ ?_ ?_
  · intro al hal b
    have hlisted := h.listed al hal b
    rw [h.listed_gone_iff hp] at hlisted
    split
    next hsame =>
      rw [mem_append, hlisted, mem_singleton, and_or_right, or_iff_left_of_imp, and_iff_left]
      · exact Decidable.not_or_of_imp id
      · rintro rfl
        exact ⟨p, hp, rfl, hsame.symm, by simp⟩
    next hother =>
      rw [hlisted]
      exact and_iff_left_of_imp (h.binid_ne hp hother)
  · intro _ al hal _ hnodup
    rw [← concat_eq_append]
    refine hnodup.concat fun hmem => ?_
    obtain ⟨q, hq, hbinid, -, href⟩ := (h.listed al hal _).mp hmem
    exact href (by rw [h.eq_of_binid hq hp hbinid])

theorem Accounted.addAgain (h : Accounted once gone m) (hp : p ∈ m.places)
    (hgone : gone ≠ some p.2.ref) (honce : ¬once) :
    Accounted once gone (m.addBinary p.2.aliasName p.2.binid) := by
  refine h.modifyAlias _ _ ?_ fun hyes => absurd hyes honce
  intro al hal b
  have hlisted := h.listed al hal b
  split
  next hsame =>
    rw [mem_append, hlisted, mem_singleton]
    constructor
    · rintro (hold | rfl)
      · exact hold
      · exact ⟨p, hp, rfl, hsame.symm, hgone⟩
    · exact .inl
  next => exact hlisted

theorem Accounted.addNew (h : Accounted once gone m)
    (hgone : ∀ ref, gone = some ref → ref < m.nextRef) {place : Option String} (c : Controller)
    (hids : (agents.map (·.id)).Nodup) (href : c.ref = m.nextRef)
    (hnew : ∀ p ∈ m.places, p.2.binid ≠ c.binid)
    (hplaces : { m with agents, lost }.places.Perm ((place, c) :: m.places)) :
    Accounted once gone ({ m with agents, lost, nextRef := m.nextRef + 1 }.addBinary c.aliasName
      c.binid) where
  names := by
    rw [addBinary, names_modifyAlias]
    exact h.names
  agentIds := hids
  fresh := by
    intro p hp
    rcases mem_cons.mp (hplaces.mem_iff.mp hp) with rfl | hold
    · exact Nat.lt_succ_of_le (Nat.le_of_eq href)
    · exact Nat.lt_succ_of_lt (h.fresh p hold)
  refs := by
    refine ((hplaces.map (·.2.ref)).nodup_iff).mpr ?_
    rw [map_cons, nodup_cons]
    refine ⟨fun hmem => ?_, h.refs⟩
    obtain ⟨p, hp, hsame⟩ := mem_map.mp hmem
    exact absurd (h.fresh p hp) (by rw [hsame]; exact Nat.not_lt.mpr (Nat.le_of_eq href.symm))
  binids := by
    refine ((hplaces.map (·.2.binid)).nodup_iff).mpr ?_
    rw [map_cons, nodup_cons]
    refine ⟨fun hmem => ?_, h.binids⟩
    obtain ⟨p, hp, hsame⟩ := mem_map.mp hmem
    exact hnew p hp hsame
  listed := by
    intro al hal b
    obtain ⟨al0, hal0, hname, hbinaries⟩ := mem_modifyAlias hal
    have hlisted := h.listed al0 hal0 b
    have hmem : ∀ p, p ∈ ({ m with agents, lost, nextRef := m.nextRef + 1 }.addBinary c.aliasName
        c.binid).places ↔ p = (place, c) ∨ p ∈ m.places :=
      fun p => hplaces.mem_iff.trans mem_cons
    have hstays : gone ≠ some c.ref := by
      intro hsome
      exact absurd (hgone _ hsome) (by rw [href]; exact Nat.lt_irrefl _)
    simp only [hmem, or_and_right, exists_or, exists_eq_left, hbinaries, hname]
    split
    next hsame =>
      rw [mem_append, hlisted, mem_singleton, or_comm]
      refine or_congr ⟨?_, ?_⟩ Iff.rfl
      · rintro rfl
        exact ⟨rfl, hsame.symm, hstays⟩
      · rintro ⟨rfl, -, -⟩
        rfl
    next hother =>
      rw [hlisted]
      constructor
      · exact .inr
      · rintro (⟨-, halias, -⟩ | hold)
        · exact absurd halias.symm hother
        · exact hold
  distinct := by
    intro honce al hal
    obtain ⟨al0, hal0, -, hbinaries⟩ := mem_modifyAlias hal
    have hnodup := h.distinct honce al0 hal0
    rw [hbinaries]
    split
    next =>
      rw [← concat_eq_append]
      refine hnodup.concat fun hmem => ?_
      obtain ⟨p, hp, hbinid, -⟩ := (h.listed al0 hal0 _).mp hmem
      exact hnew p hp hbinid
    next => exact hnodup

theorem Accounted.drop {ref : Nat} (h : Accounted once (some ref) m)
    (hids : (agents.map (·.id)).Nodup) (hsub : { m with agents, lost }.places.Sublist m.places)
    (hplaces : ∀ p, p ∈ { m with agents, lost }.places ↔ p ∈ m.places ∧ p.2.ref ≠ ref) :
    Accounted once none { m with agents, lost } where
  names := h.names
  agentIds := hids
  fresh := fun p hp => h.fresh p ((hplaces p).mp hp).1
  refs := h.refs.sublist (hsub.map _)
  binids := h.binids.sublist (hsub.map _)
  listed := by
    intro al hal b
    rw [h.listed al hal b]
    constructor
    · rintro ⟨p, hp, hbinid, halias, href⟩
      refine ⟨p, (hplaces p).mpr ⟨hp, fun hsame => href (by rw [hsame])⟩, hbinid, halias, by simp⟩
    · rintro ⟨p, hp, hbinid, halias, -⟩
      obtain ⟨hold, hne⟩ := (hplaces p).mp hp
      exact ⟨p, hold, hbinid, halias, by simpa using Ne.symm hne⟩
  distinct := h.distinct

theorem Accounted.rearrange (h : Accounted once gone m) {m' : Master}
    (haliases : m'.aliases = m.aliases) (hnext : m'.nextRef = m.nextRef)
    (hids : (m'.agents.map (·.id)).Nodup)
    (hplaces : (m'.places.map fun p => (p.2.ref, p.2.binid, p.2.aliasName)).Perm
      (m.places.map fun p => (p.2.ref, p.2.binid, p.2.aliasName))) :
    Accounted once gone m' where
  names := by
    rw [Master.names, haliases]
    exact h.names
  agentIds := hids
  fresh := by
    intro p hp
    obtain ⟨q, hq, hsame⟩ := mem_map.mp (hplaces.mem_iff.mp (mem_map_of_mem hp))
    simp only [Prod.mk.injEq] at hsame
    rw [hnext, ← hsame.1]
    exact h.fresh q hq
  refs := by
    have hperm := hplaces.map Prod.fst
    simp only [map_map, comp_def] at hperm
    exact hperm.nodup_iff.mpr h.refs
  binids := by
    have hperm := hplaces.map (·.2.1)
    simp only [map_map, comp_def] at hperm
    exact hperm.nodup_iff.mpr h.binids
  listed := by
    intro al hal b
    rw [haliases] at hal
    rw [h.listed al hal b]
    constructor
    · rintro ⟨p, hp, rfl, halias, href⟩
      obtain ⟨q, hq, hsame⟩ := mem_map.mp (hplaces.mem_iff.mpr (mem_map_of_mem hp))
      simp only [Prod.mk.injEq] at hsame
      exact ⟨q, hq, hsame.2.1, hsame.2.2.trans halias, by rw [hsame.1]; exact href⟩
    · rintro ⟨p, hp, rfl, halias, href⟩
      obtain ⟨q, hq, hsame⟩ := mem_map.mp (hplaces.mem_iff.mp (mem_map_of_mem hp))
      simp only [Prod.mk.injEq] at hsame
      exact ⟨q, hq, hsame.2.1, hsame.2.2.trans halias, by rw [hsame.1]; exact href⟩
  distinct := by
    rw [haliases]
    exact h.distinct

theorem Accounted.length_eq (h : Accounted once none m) (honce : once) (hal : al ∈ m.aliases) :
    al.binaries.length = (m.held.filter (·.aliasName = al.name)).length := by
  have hmap : m.held.map (·.binid) = m.places.map (·.2.binid) := by
    rw [held_eq, map_map]
    rfl
  have hbinids : ((m.held.filter (·.aliasName = al.name)).map (·.binid)).Nodup := by
    refine Nodup.sublist (filter_sublist.map _) ?_
    rw [hmap]
    exact h.binids
  have hlength : ((m.held.filter (·.aliasName = al.name)).map (·.binid)).length =
      (m.held.filter (·.aliasName = al.name)).length := length_map _
  rw [← hlength]
  refine ((perm_ext_iff_of_nodup (h.distinct honce al hal) hbinids).mpr ?_).length_eq
  intro b
  rw [h.listed al hal b, held_eq]
  simp only [mem_map, mem_filter, decide_eq_true_eq]
  constructor
  · rintro ⟨p, hp, hbinid, halias, -⟩
    exact ⟨p.2, ⟨⟨p, hp, rfl⟩, halias⟩, hbinid⟩
  · rintro ⟨c, ⟨⟨p, hp, rfl⟩, halias⟩, hbinid⟩
    exact ⟨p, hp, hbinid, halias, by simp⟩

end Accounted

end BgqDriver.MasterAliases
