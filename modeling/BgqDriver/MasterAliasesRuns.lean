import BgqDriver.MasterAliasesOperations

/-!
The accounting along every run of the master. Two things can spoil it: an operation that is
given up half-way or skips a binary, and the second entry that most starts make.
-/

namespace BgqDriver.MasterAliases

open EventRuns List Master

variable {once : Prop} {m m' : Master} {agentId host : String} {answers : List Answer}
  {c : Controller} {running : List (BinaryId × String)} {binid : BinaryId}
  {replies : List StopReply} {names : List String} {binaries : List Controller} {label : Label}

theorem completed_accounted (h : Accounted once none m)
    (hstep : m.completed agentId binid = some m') : Accounted once none m' := by
  obtain ⟨c, hfind, rfl⟩ := Option.map_eq_some_iff.mp hstep
  obtain ⟨hp, rfl⟩ := mem_places_of_findController hfind
  have hat : At (some agentId) c.ref m := h.at_place hp
  -- the lists are those from before the controller went
  have hlists : ∀ name, (m.removeController agentId c.ref).owns name c.binid =
      m.owns name c.binid := fun _ => rfl
  simp only [hlists]
  split
  next hnone =>
    have hno : m.owns c.aliasName c.binid = false := by
      by_cases hmem : c.aliasName ∈ m.names
      · simpa using find?_eq_none.mp hnone _ hmem
      · exact owns_false_of_not_mem_names hmem
    exact (h.gone_of_unowned hp hno).removeController hat
  next name hname =>
    have howns : m.owns name c.binid = true := by simpa using find?_some hname
    obtain ⟨rfl, -⟩ := h.owner hp howns
    exact Accounted.removeController (h.removeBinary hp) hat

theorem executePolicy_replaces (ref : Nat) : Replaces once ref fun m name answer =>
    m.executePolicy name answer.policy answer.reply := by
  intro m m' name answer h hlt honce hexec
  refine executePolicy_accounted h ?_ (fun hyes => (honce hyes).imp_right .inr) hexec
  rintro _ ⟨⟩
  exact hlt

theorem restart_replaces (ref : Nat) : Replaces once ref fun m name answer =>
    m.restart name answer.policy answer.reply := by
  intro m m' name answer h hlt honce hrestart
  refine restart_accounted h ?_ honce hrestart
  rintro _ ⟨⟩
  exact hlt

theorem failed_accounted (h : Accounted once none m) (honce : once → m.endRequested = true ∨
      ∀ answer ∈ answers, startsBinary answer.policy answer.reply = false)
    (hstep : m.failed agentId binid answers = some m') : Accounted once none m' := by
  unfold Master.failed at hstep
  split at hstep
  · cases hstep
    exact h
  next c hfind =>
    obtain ⟨hp, rfl⟩ := mem_places_of_findController hfind
    have hat : At (some agentId) c.ref m := h.at_place hp
    obtain ⟨m1, hclear, rfl⟩ := Option.map_eq_some_iff.mp hstep
    split at hclear
    · cases hclear
      exact Accounted.removeController (h.removeFromAll (.inl rfl) hp) hat
    · obtain ⟨hm1, hgrows⟩ := policyLoop_accounted (p := (some agentId, c))
        (executePolicy_replaces c.ref) (.inr ⟨h, id⟩) hp honce hclear
      exact hm1.removeController (hat.grows (h.fresh _ hp) hgrows)

theorem stopLoop_failover {retries : Nat}
    (hloop : stopLoop agentId c false m retries replies = some m') :
    m' = m ∨ m' = m.removeController agentId c.ref := by
  fun_induction stopLoop agentId c false m retries replies with
  | case1 m | case4 m =>
    cases hloop
    exact .inl rfl
  | case2 => simp at hloop
  | case3 m retries replies ih | case5 m retries replies ih => exact ih hloop
  | case6 m | case7 m =>
    cases hloop
    exact .inr rfl

theorem failover_stopped (h : Accounted once (some c.ref) m) (hat : At (some agentId) c.ref m)
    (hstop : m.stopBin agentId c true replies = some m') :
    Accounted once (some c.ref) m' ∧ At (some agentId) c.ref m' ∧
      (∀ p ∈ m'.places, p ∈ m.places) ∧ m'.nextRef = m.nextRef ∧
      m'.endRequested = m.endRequested ∧ ∀ target, m'.connected target = m.connected target := by
  rcases stopLoop_failover hstop with rfl | rfl
  · exact ⟨h, hat, fun _ hp => hp, rfl, rfl, fun _ => rfl⟩
  · have hsub : ∀ p ∈ (m.removeController agentId c.ref).places, p ∈ m.places := by
      intro p hp
      rw [places_removeController] at hp
      exact mem_of_mem_filter hp
    refine ⟨(h.removeController hat).gone_of_unlisted fun p hp href =>
        absurd href (not_mem_places_removeController hat p hp),
      fun p hp => hat p (hsub p hp), hsub, rfl, rfl, fun target => ?_⟩
    have hids := congrArg (any · (· = target)) (ids_modifyAgent m agentId (filter (·.ref ≠ c.ref)))
    rw [any_map, any_map] at hids
    exact hids

theorem failoverLoop_of_unowned (hno : ∀ name ∈ names, m.owns name c.binid = false) :
    failoverLoop agentId c m names answers = some m := by
  induction names with
  | nil => simp [failoverLoop]
  | cons name names ih =>
    unfold failoverLoop
    rw [hno name mem_cons_self]
    exact ih fun n hn => hno n (mem_cons_of_mem _ hn)

def carriedOut (m : Master) (c : Controller) : List Answer → Bool
  | [] => true
  | answer :: _ =>
    ((m.removeBinary c.aliasName c.binid).evaluatePolicy c.aliasName answer.policy).isOk

theorem failoverLoop_accounted (h : Accounted once none m) (hp : (some agentId, c) ∈ m.places)
    (hnames : names.Nodup) (hcarried : carriedOut m c answers = true)
    (honce : once → m.endRequested = true ∨
      ∀ answer ∈ answers, startsBinary answer.policy answer.reply = false)
    (hloop : failoverLoop agentId c m names answers = some m') : Accounted once none m' := by
  induction names with
  | nil =>
    simp only [failoverLoop, Option.some.injEq] at hloop
    exact hloop ▸ h
  | cons name names ih =>
    rw [nodup_cons] at hnames
    unfold failoverLoop at hloop
    split at hloop
    next howns =>
      obtain ⟨rfl, -⟩ := h.owner hp howns
      split at hloop
      · simp at hloop
      next answer answers =>
        have hremoved : Accounted once (some c.ref) (m.removeBinary c.aliasName c.binid) :=
          h.removeBinary hp
        have hat : At (some agentId) c.ref (m.removeBinary c.aliasName c.binid) := h.at_place hp
        have hlt : c.ref < m.nextRef := h.fresh _ hp
        dsimp only at hloop
        split at hloop
        next herror =>
          simp [carriedOut, herror, Except.isOk, Except.toBool] at hcarried
        next =>
          cases hloop
          exact Accounted.addBack (p := (some agentId, c)) hremoved hp
        next target heval =>
          obtain ⟨hconnected, hpolicy, -⟩ := connected_of_evaluatePolicy heval
          obtain ⟨m1, hstop, hloop⟩ := Option.bind_eq_some_iff.mp hloop
          obtain ⟨m2, hstart, hloop⟩ := Option.bind_eq_some_iff.mp hloop
          obtain ⟨hm1, hat1, hsub, hnext, hended, hconn⟩ := failover_stopped hremoved hat hstop
          rw [← hconn] at hconnected
          have hlt1 : c.ref < m1.nextRef := by
            rw [hnext]
            exact hlt
          obtain ⟨hm2, hgrows⟩ := startAndAdd_accounted hm1
            (by rintro _ ⟨⟩; exact hlt1) hconnected (by
              intro hyes
              refine (honce hyes).imp (fun hend => hended.trans hend) fun hall => ?_
              simpa [startsBinary, hpolicy] using hall answer mem_cons_self) hstart
          have hat2 := hat1.grows hlt1 hgrows
          have hm3 := hm2.removeController hat2
          rw [failoverLoop_of_unowned] at hloop
          · cases hloop
            exact hm3
          -- a binary with the same id can only be the one just started
          intro other hother
          rw [Bool.eq_false_iff]
          intro howns'
          obtain ⟨al, hal, rfl, hmem⟩ := owns_iff.mp howns'
          obtain ⟨q, hq, hbinid, halias, -⟩ := (hm3.listed al hal _).mp hmem
          have hne := not_mem_places_removeController hat2 q hq
          rw [places_removeController] at hq
          rcases startAndAdd_places hm1 hconnected hstart (mem_of_mem_filter hq) with
            hold | hnew
          · have hsame := h.eq_of_binid (hsub q hold) hp hbinid
            exact hne (by rw [hsame])
          · exact hnames.1 (by rw [← hnew, halias]; exact hother)
    next => exact ih hnames.2 hloop

def Master.withAgent (m : Master) (a : Agent) : Master := { m with agents := m.agents ++ [a] }

theorem places_withAgent (m : Master) (a : Agent) : (m.withAgent a).places =
      ((m.agents.flatMap fun a => a.binaries.map (some a.id, ·)) ++
        a.binaries.map (some a.id, ·)) ++ m.lost.map (none, ·) := by
  simp [places, withAgent, flatMap_append]

theorem withAgent_accounted (h : Accounted once none m) (hnew : m.connected agentId = false) :
    Accounted once none (m.withAgent ⟨agentId, host, []⟩) := by
  refine h.rearrange rfl rfl ?_ ?_
  · simp only [withAgent, map_append, map_singleton]
    rw [← concat_eq_append]
    refine h.agentIds.concat ?_
    simpa [connected] using hnew
  · rw [places_withAgent, map_nil, append_nil]
    exact List.Perm.refl _

theorem joinLoop_accounted (hlost : m.lost = [])
    (h : Accounted once none (m.withAgent ⟨agentId, host, binaries⟩))
    (hids : (running.map Prod.fst).Nodup) (hnew : ∀ c ∈ binaries, c.binid ∉ running.map Prod.fst) :
    Accounted once none ((joinLoop m binaries running).1.withAgent
      ⟨agentId, host, (joinLoop m binaries running).2⟩) := by
  fun_induction joinLoop m binaries running with
  | case1 m binaries => exact h
  | case2 m binaries binid name rest hname ih | case3 m binaries binid name rest hname hknown ih =>
    rw [map_cons, nodup_cons] at hids
    exact ih hlost h hids.2 fun c hc => fun hmem => hnew c hc (mem_cons_of_mem _ hmem)
  | case4 m binaries binid name rest hname hknown ih =>
    rw [map_cons, nodup_cons] at hids
    have hperm := addController_perm ⟨m.nextRef, binid, name, false⟩ binaries
    refine ih hlost ?_ hids.2 ?_
    · have hplaces : (m.withAgent ⟨agentId, host, addController
          ⟨m.nextRef, binid, name, false⟩ binaries⟩).places.Perm
          ((some agentId, ⟨m.nextRef, binid, name, false⟩) ::
            (m.withAgent ⟨agentId, host, binaries⟩).places) := by
        rw [places_withAgent, places_withAgent]
        exact (((hperm.map _).append_left _).trans perm_middle).append_right _
      refine h.addNew (by simp) ⟨m.nextRef, binid, name, false⟩ ?_ rfl ?_ hplaces
      · simpa [withAgent, addBinary, modifyAlias] using h.agentIds
      · intro p hp
        rw [places_withAgent, hlost] at hp
        simp only [map_nil, append_nil, mem_append, mem_flatMap, mem_map] at hp
        rcases hp with ⟨a, ha, c, hc, rfl⟩ | ⟨c, hc, rfl⟩
        · exact ne_of_findBinary_eq_none (by simpa using hknown) ha hc
        · intro hsame
          exact hnew c hc (by rw [hsame]; exact mem_cons_self)
    · intro c hc hmem
      rcases mem_cons.mp (hperm.mem_iff.mp hc) with rfl | hold
      · exact hids.1 hmem
      · exact hnew c hold (mem_cons_of_mem _ hmem)

theorem joinLoop_of_known (hknown : ∀ entry ∈ running, m.names.contains entry.2 = false ∨
      (m.findBinary entry.1).isSome = true) : joinLoop m binaries running = (m, binaries) := by
  induction running with
  | nil => rfl
  | cons entry running ih =>
    have hrest := ih fun e he => hknown e (mem_cons_of_mem _ he)
    rw [joinLoop]
    rcases hknown entry mem_cons_self with hname | hbinary
    · rw [hname, Bool.not_false, if_pos rfl, hrest]
    · rw [hbinary, if_pos rfl, hrest, ite_self]

section

variable (h : Accounted once none m)
include h

theorem agentLost_accounted (hlost : m.lost = []) : Accounted once none (m.agentLost agentId) := by
  refine h.rearrange rfl rfl (h.agentIds.sublist (filter_sublist.map _)) ?_
  have hsplit := filter_append_perm (fun a : Agent => a.id ≠ agentId) m.agents
  have hflat := hsplit.flatMap_right fun a : Agent =>
    a.binaries.map fun c => (c.ref, c.binid, c.aliasName)
  simpa [places, Master.agentLost, hlost, map_flatMap, Function.comp_def] using hflat

theorem lostBinary_accounted
    (hkept : ∀ c ∈ m.lost.head?, c.stopping = false) (honce : once → m.endRequested = true ∨
      ∀ answer ∈ answers, startsBinary answer.policy answer.reply = false)
    (hstep : m.lostBinary answers = some m') : Accounted once none m' := by
  unfold Master.lostBinary at hstep
  split at hstep
  · simp at hstep
  next c rest hlost =>
    have hp : (none, c) ∈ m.places :=
      mem_places.mpr (.inr ⟨rfl, by rw [hlost]; exact mem_cons_self⟩)
    obtain ⟨m1, hloop, rfl⟩ := Option.map_eq_some_iff.mp hstep
    rw [hkept c (by rw [hlost]; rfl)] at hloop
    obtain ⟨hm1, hgrows⟩ := policyLoop_accounted (p := (none, c)) (restart_replaces c.ref)
      (.inr ⟨h, id⟩) hp honce hloop
    have hplaces : m1.places = (m1.agents.flatMap fun a => a.binaries.map (some a.id, ·)) ++
        (none, c) :: rest.map (none, ·) := by
      rw [places, hgrows.lost, hlost, map_cons]
    have hrefs := hm1.refs
    rw [hplaces, (perm_middle.map _).nodup_iff, map_cons, nodup_cons] at hrefs
    refine hm1.drop hm1.agentIds ?_ ?_
    · rw [hplaces]
      exact (sublist_cons_self _ _).append_left _
    · intro p
      rw [hplaces, perm_middle.mem_iff, mem_cons]
      constructor
      · intro hmem
        exact ⟨.inr hmem, fun href => hrefs.1 (href ▸ mem_map_of_mem hmem)⟩
      · rintro ⟨rfl | hmem, hne⟩
        · exact absurd rfl hne
        · exact hmem

end

/-- The operation is not left half-way with the accounting wrong: a stop is not given up after
a reply with an error, a policy is carried out on fail-over, an agent that joins has room at
its host unless it brings nothing, and a binary of a lost agent is not about to be stopped. -/
def Thorough (m : Master) : Label → Prop
  | .stop binid replies => (m.findBinary binid).isSome = true → abandons false 20 replies = false
  | .failover binid answers =>
    ∀ found ∈ m.findBinary binid, carriedOut m found.2 answers = true
  | .join _ host running =>
    (m.agents.filter (·.host = host)).length < m.agentsPerHost ∨
      ∀ entry ∈ running, m.names.contains entry.2 = false ∨ (m.findBinary entry.1).isSome = true
  | .lostBinary _ => ∀ c ∈ m.lost.head?, c.stopping = false
  | _ => True

/-- The operation starts no binary that it enters in the list of the alias once more. -/
def Unrepeated (m : Master) : Label → Prop
  | .clientStart name policy reply =>
    m.endRequested = true ∨ m.full name = true ∨ startsBinary policy reply = false
  | .failed _ _ answers | .failover _ answers | .lostBinary answers =>
    m.endRequested = true ∨ ∀ answer ∈ answers, startsBinary answer.policy answer.reply = false
  | _ => True

instance (m : Master) (label : Label) : Decidable (Thorough m label) := by
  cases label <;> unfold Thorough <;> infer_instance

instance (m : Master) (label : Label) : Decidable (Unrepeated m label) := by
  cases label <;> unfold Unrepeated <;> infer_instance

theorem operate_accounted (h : Accounted once none m) (hlost : m.lost = [])
    (hthorough : Thorough m label) (honce : once → Unrepeated m label)
    (hstep : m.operate label = some m') : Accounted once none m' := by
  revert hstep
  fun_cases operate m label <;> intro hstep
  case case1 => exact (executePolicy_accounted h (by simp) honce hstep).1
  case case3 => exact (startServer_accounted h hstep).1
  case case6 agentId c hfind =>
    obtain ⟨hp, -⟩ := mem_places_of_findBinary hfind
    obtain ⟨f, hplaces, hf⟩ := places_setStopping m agentId c.ref
    obtain ⟨hplace, href, hbinid, -⟩ := hf (some agentId, c)
    refine stopLoop_accounted false (setStopping_accounted h agentId c.ref) ?_
      ⟨hplace, href, hbinid⟩ (hthorough (by rw [hfind]; rfl)) hstep
    rw [hplaces]
    exact mem_map_of_mem hp
  case case7 => exact completed_accounted h hstep
  case case8 => exact failed_accounted h honce hstep
  case case10 agentId c hfind =>
    exact failoverLoop_accounted h (mem_places_of_findBinary hfind).1 h.names
      (hthorough _ hfind) honce hstep
  case case12 hnew =>
    cases hstep
    simp only [Bool.or_eq_true, Bool.not_eq_true', not_or, decide_eq_false_iff_not,
      not_not, Bool.not_eq_true] at hnew
    unfold Master.join
    split
    next => exact joinLoop_accounted hlost (withAgent_accounted h hnew.1) hnew.2 (by simp)
    next hfull =>
      rw [joinLoop_of_known (Or.resolve_left hthorough hfull)]
      exact h
  case case13 =>
    cases hstep
    exact agentLost_accounted h hlost
  case case16 =>
    cases hstep
    exact h.rearrange rfl rfl h.agentIds (List.Perm.refl _)
  case case2 | case5 | case9 =>
    cases hstep
    exact h
  all_goals cases hstep

theorem step_accounted (h : Accounted once none m)
    (hmeets : Thorough m label ∧ (once → Unrepeated m label)) (hstep : step m label = some m') :
    Accounted once none m' := by
  unfold step at hstep
  split at hstep
  next answers => exact lostBinary_accounted h hmeets.1 hmeets.2 hstep
  next =>
    split at hstep
    next hlost => exact operate_accounted h hlost hmeets.1 hmeets.2 hstep
    next => simp at hstep

theorem run_accounted (once : Prop) (entries : List (String × Nat)) (agentsPerHost : Nat)
    {labels : List Label}
    (hthorough : RunMeets step Thorough (init entries agentsPerHost) labels)
    (honce : once → RunMeets step Unrepeated (init entries agentsPerHost) labels)
    (hrun : run step (init entries agentsPerHost) labels = some m) :
    Accounted once none m := by
  by_cases hyes : once
  · refine invariant_of_runMeets (fun s e t hs hC ht => step_accounted hs ?_ ht)
      (accounted_init once entries agentsPerHost) (runMeets_and hthorough (honce hyes)) hrun
    exact ⟨hC.1, fun _ => hC.2⟩
  · refine invariant_of_runMeets (fun s e t hs hC ht => step_accounted hs ?_ ht)
      (accounted_init once entries agentsPerHost) hthorough hrun
    exact ⟨hC, fun h => absurd h hyes⟩

/-- An agent joins with a running binary, another one is started with all servers, the first is
stopped after a reply with an error, the second fails and is not restarted. -/
def sampleLabels : List Label :=
  [.join "a" "h" [("7", "gateway")], .startServer "mc_server" (.run "a") (.reply true "8"),
    .startServer "mmcs_server" (.run "a") (.reply true "9"),
    .stop "7" [.softError, .error, .ok], .failed "a" "8" [⟨.none, .noRequester, []⟩]]

end BgqDriver.MasterAliases
