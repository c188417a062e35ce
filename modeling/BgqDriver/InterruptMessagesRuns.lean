import BgqDriver.InterruptMessagesPairs

/-!
A step of a thread changes the slot it works on as a move does and leaves the other slots alone,
so that what has been posted stays accounted for along every run.
-/

namespace BgqDriver.InterruptMessages

open EventRuns List Node Option

variable {F : Type} {n n' : Node F} {c : Nat} {base : Base F}
  {calls : List (Call F)} {th : Thread F}

def Call.Suspended : Call F → Prop
  | .handler => True
  | .send _ _ .spin => True
  | _ => False

def Base.Suspended : Base F → Prop
  | .idle => True
  | .flih agents _ _ .finish => agents = true
  | .flih agents _ _ .refresh => agents = false
  | .checker _ _ .look _ => True
  | _ => False

/-- A call as it can be found: messages have a function, and only messages of application
threads are flushed. -/
def Call.Valid : Call F → Prop
  | .handler => True
  | .send _ m _ => m.fcn.isSome
  | .avoid _ .status => True
  | .avoid source _ => source < appThreads

structure Thread.Shaped (th : Thread F) : Prop where
  tail : ∀ call ∈ th.calls.tail, call.Suspended
  base : th.calls ≠ [] → th.base.Suspended
  valid : ∀ call ∈ th.calls, call.Valid

structure Thread.Quiet (th : Thread F) : Prop where
  storing : ∀ t, th.storing t = .none
  taking : ∀ s, th.taking s = .none

/-- The thread stores to no slot and takes at most the message of `i`. -/
structure Thread.Only (th : Thread F) (i : Nat) : Prop where
  storing : ∀ t, th.storing t = .none
  taking : ∀ s, s ≠ i → th.taking s = .none

theorem Thread.Quiet.only (h : th.Quiet) (i : Nat) : th.Only i :=
  ⟨h.storing, fun s _ => h.taking s⟩

theorem quiet_check {target : Nat} {m : Message F} :
    Thread.Quiet ⟨base, .send target m .check :: calls⟩ :=
  ⟨fun _ => ite_self _, fun _ => rfl⟩

theorem quiet_handler : Thread.Quiet ⟨base, .handler :: calls⟩ := ⟨fun _ => rfl, fun _ => rfl⟩

theorem quiet_idle : Thread.Quiet (⟨.idle, []⟩ : Thread F) := ⟨fun _ => rfl, fun _ => rfl⟩

theorem Base.Suspended.taking {b : Base F} (h : b.Suspended) (s : Nat) : b.taking s = .none := by
  unfold Base.Suspended at h
  split at h
  · rfl
  · exact ite_self _
  · exact ite_self _
  · exact ite_self _
  · exact h.elim

theorem quiet_of_suspended (hbase : base.Suspended)
    (hcalls : ∀ call ∈ calls, call.Suspended) : Thread.Quiet ⟨base, calls⟩ := by
  cases calls with
  | nil => exact ⟨fun _ => rfl, fun s => hbase.taking s⟩
  | cons call calls =>
    have hcall := hcalls call mem_cons_self
    unfold Call.Suspended at hcall
    split at hcall
    · exact ⟨fun _ => rfl, fun _ => rfl⟩
    · exact ⟨fun t => ite_self _, fun _ => rfl⟩
    · exact hcall.elim

variable {call : Call F} {α : Type} {p : Pair F} {slot : Message F} {acked : F → Bool}

theorem Thread.Shaped.pop (h : Thread.Shaped ⟨base, call :: calls⟩) :
    Thread.Shaped ⟨base, calls⟩ ∧ Thread.Quiet ⟨base, calls⟩ := by
  have hbase := h.base (cons_ne_nil _ _)
  refine ⟨⟨fun call' hmem => h.tail call' (mem_of_mem_tail hmem), fun _ => hbase,
    fun call' hmem => h.valid call' (mem_cons_of_mem _ hmem)⟩, ?_⟩
  exact quiet_of_suspended hbase h.tail

theorem Thread.Shaped.push (hbase : base.Suspended)
    (hcalls : ∀ call ∈ calls, call.Suspended ∧ call.Valid) (hcall : call.Valid) :
    Thread.Shaped ⟨base, call :: calls⟩ where
  tail := fun call' hmem => (hcalls call' hmem).1
  base := fun _ => hbase
  valid := by
    intro call' hmem
    rcases mem_cons.mp hmem with rfl | hmem
    · exact hcall
    · exact (hcalls call' hmem).2

structure Changed (n n' : Node F) (c s0 t0 : Nat) (th : Thread F) : Prop where
  threads : ∀ x, n'.threads x = if x = c then th else n.threads x
  slots : ∀ s t, ¬(s = s0 ∧ t = t0) → n'.slots s t = n.slots s t
  bits : ∀ s t, ¬(s = s0 ∧ t = t0) → n'.bits s t = n.bits s t
  posted : ∀ s t, ¬(s = s0 ∧ t = t0) → n'.posted s t = n.posted s t
  handled : ∀ s t, ¬(s = s0 ∧ t = t0) → n'.handled s t = n.handled s t

theorem changed_setThread (n : Node F) (c s0 t0 : Nat) (th : Thread F) :
    Changed n (n.setThread c th) c s0 t0 th :=
  ⟨fun _ => rfl, fun _ _ _ => rfl, fun _ _ _ => rfl, fun _ _ _ => rfl, fun _ _ _ => rfl⟩

variable {s s0 t t0 : Nat} {effect : Effect F} {new : List (Call F)} {copy' : Message F}
  {stage' : TakeStage} {S : Storing F} {T : Taking F}

theorem set_other {f : Nat → Nat → α} {v : α} (h : ¬(s = s0 ∧ t = t0)) :
    set f s0 t0 v s t = f s t := if_neg h

theorem set_same {f : Nat → Nat → α} {v : α} : set f s t v s t = v :=
  if_pos ⟨rfl, rfl⟩

/-- The slot that an access of thread `c` is about -/
def Effect.At (c s t : Nat) : Effect F → Prop
  | .none => True
  | .storeFcn target _ | .storeParam1 target _ | .storeParam2 target _ | .interrupt target =>
    s = c ∧ t = target
  | .clear source | .release source | .call source _ => s = source ∧ t = c

theorem changed_apply (hat : effect.At c s0 t0) (n : Node F) (th : Thread F) :
    Changed n ((n.apply c effect).setThread c th) c s0 t0 th := by
  cases effect with
  | none => exact changed_setThread n c s0 t0 th
  | _ =>
    obtain ⟨rfl, rfl⟩ := hat
    constructor <;> intros <;> first | rfl | exact set_other ‹_›

def Node.accessed (n : Node F) (c : Nat) (effect : Effect F) (s t : Nat) (S : Storing F)
    (T : Taking F) : Pair F where
  slot := (n.apply c effect).slots s t
  bit := (n.apply c effect).bits s t
  posted := (n.apply c effect).posted s t
  handled := (n.apply c effect).handled s t
  storing := S
  taking := T

def Pair.Goes (p q : Pair F) : Prop := q = p ∨ Move p q

theorem Pair.goes_of_eq (hS : p.storing = S) (hT : p.taking = T) :
    p.Goes { p with storing := S, taking := T } := by
  subst hS hT
  exact .inl rfl

def Moves (n n' : Node F) : Prop := ∀ s t, (n.pair s t).Goes (n'.pair s t)

theorem Changed.moves (h : Changed n n' c s0 t0 th)
    (hstoring : ∀ t, ¬(c = s0 ∧ t = t0) → th.storing t = (n.threads c).storing t)
    (htaking : ∀ s, ¬(s = s0 ∧ c = t0) → th.taking s = (n.threads c).taking s)
    (hmove : (n.pair s0 t0).Goes (n'.pair s0 t0)) : Moves n n' := by
  intro s t
  by_cases hpair : s = s0 ∧ t = t0
  · obtain ⟨rfl, rfl⟩ := hpair
    exact hmove
  · left
    have hS : (n'.threads s).storing t = (n.threads s).storing t := by
      rw [h.threads]
      split
      next hs =>
        subst hs
        exact hstoring t hpair
      next => rfl
    have hT : (n'.threads t).taking s = (n.threads t).taking s := by
      rw [h.threads]
      split
      next ht =>
        subst ht
        exact htaking s hpair
      next => rfl
    simp only [pair, h.slots s t hpair, h.bits s t hpair, h.posted s t hpair,
      h.handled s t hpair, hS, hT]

theorem Move.pending_of_isSome {q : Pair F} (hmove : Move p q) (hsome : q.slot.fcn.isSome)
    (hpending : p.Pending) : q.Pending := by
  cases hmove with
  | release | checkRelease => simp at hsome
  | begin m _ hfree _ => exact absurd hpending.1 (by simp [hfree])
  | storeFcn m hstoring | storeParam1 m hstoring | storeParam2 m hstoring | interrupt m hstoring =>
    exact absurd hpending.2 (by simp [hstoring])
  | lose | start | take | clear | call | leave | look | check | checkCall => exact hpending

theorem Moves.pending_of_isSome (h : Moves n n') (hsome : (n'.slots s t).fcn.isSome)
    (hpending : (n.pair s t).Pending) : (n'.pair s t).Pending := by
  rcases h s t with heq | hmove
  · rw [heq]
    exact hpending
  · exact hmove.pending_of_isSome hsome hpending

theorem Moves.pending (h : Moves n n') (htaking : (n'.threads t).taking s = (n.threads t).taking s)
    (hpending : (n.pair s t).Pending) : (n'.pair s t).Pending := by
  refine h.pending_of_isSome ?_ hpending
  change (n'.pair s t).taking = (n.pair s t).taking at htaking
  change (n'.pair s t).slot.fcn.isSome
  obtain ⟨hsome, hnone⟩ := hpending
  rcases h s t with heq | hmove
  · rw [heq]
    exact hsome
  · generalize n'.pair s t = q at hmove htaking
    cases hmove with
    | release copy hrelease | checkRelease seen copy hrelease => simp [hrelease] at htaking
    | storeFcn m hstoring => simp [hstoring] at hnone
    | _ => exact hsome

/-- The senders in the status that have not been dealt with -/
def FlihStage.Waits (i j : Nat) : FlihStage F → Prop
  | .scan => True
  | .take stage _ => stage ≠ .call ∨ j ≠ i
  | .refresh => False
  | .finish => j ≠ i

def StatusOk (n : Node F) (t : Nat) (base : Base F) : Prop :=
  match base with
  | .flih agents status i stage => ∀ j ∈ status,
    (agents = true → appThreads ≤ j) ∧ (stage.Waits i j → (n.pair j t).Pending)
  | _ => True

structure Sound (n : Node F) : Prop where
  shaped : ∀ c, (n.threads c).Shaped
  ok : ∀ s t, (n.pair s t).Ok
  status : ∀ t, StatusOk n t (n.threads t).base

theorem StatusOk.keep (hold : StatusOk n c base)
    (hkeep : ∀ j, (n.pair j c).Pending → (n'.pair j c).Pending) : StatusOk n' c base := by
  unfold StatusOk at hold ⊢
  split
  · exact fun j hj => ⟨(hold j hj).1, fun hwaits => hkeep j ((hold j hj).2 hwaits)⟩
  · trivial

theorem Sound.shaped_of (h : Sound n) (hth : n.threads c = th) : th.Shaped := hth ▸ h.shaped c

theorem Sound.status_of (h : Sound n) (hth : n.threads c = th) : StatusOk n c th.base :=
  hth ▸ h.status c

theorem Sound.change (h : Sound n) (hchanged : Changed n n' c s0 t0 th)
    (hmoves : Moves n n') (hshaped : th.Shaped) (hstatus : StatusOk n' c th.base) : Sound n' where
  shaped := by
    intro x
    rw [hchanged.threads]
    split
    · exact hshaped
    · exact h.shaped x
  ok := by
    intro s t
    rcases hmoves s t with heq | hmove
    · rw [heq]
      exact h.ok s t
    · exact hmove.ok (h.ok s t)
  status := by
    intro t
    by_cases ht : t = c
    · subst ht
      rw [hchanged.threads, if_pos rfl]
      exact hstatus
    · have hsame : n'.threads t = n.threads t := by rw [hchanged.threads, if_neg ht]
      rw [hsame]
      exact (h.status t).keep fun j => hmoves.pending (by rw [hsame])

theorem statusOk_suspended (hbase : base.Suspended) (hold : StatusOk n c base)
    (hkeep : ∀ j, appThreads ≤ j → (n.pair j c).Pending → (n'.pair j c).Pending) :
    StatusOk n' c base := by
  unfold StatusOk at hold ⊢
  split
  next agents status i stage =>
    intro j hj
    obtain ⟨hagents, hpending⟩ := hold j hj
    refine ⟨hagents, fun hwaits => ?_⟩
    unfold Base.Suspended at hbase
    split at hbase
    next heq => simp at heq
    next heq =>
      cases heq
      exact hkeep j (hagents hbase) (hpending hwaits)
    next heq =>
      cases heq
      exact hwaits.elim
    next heq => simp at heq
    next => exact hbase.elim
  next => trivial

section Send

variable {target : Nat} {m : Message F} {stage : SendStage}

section

variable (h : Sound n) (hth : n.threads c = ⟨base, .send target m stage :: calls⟩)
include h hth

theorem Sound.sent (hat : effect.At c c target) (hshaped : Thread.Shaped ⟨base, new⟩)
    (hstoring : ∀ t, t ≠ target → Thread.storing ⟨base, new⟩ t = .none)
    (htaking : ∀ s, Thread.taking ⟨base, new⟩ s = .none)
    (hS : Thread.storing ⟨base, new⟩ target = S)
    (hmove : (n.pair c target).Goes (n.accessed c effect c target S (n.pair c target).taking)) :
    Sound ((n.apply c effect).setThread c ⟨base, new⟩) := by
  have hchanged := changed_apply hat n ⟨base, new⟩
  have hquiet : ∀ s, (n.threads c).taking s = .none := fun s => by rw [hth]; rfl
  have hsame : ∀ x s, (((n.apply c effect).setThread c ⟨base, new⟩).threads x).taking s =
      (n.threads x).taking s := by
    intro x s
    rw [hchanged.threads]
    split
    next hx => rw [hx, htaking, hquiet]
    next => rfl
  have hmoves : Moves n ((n.apply c effect).setThread c ⟨base, new⟩) := by
    refine hchanged.moves ?_ (fun s _ => by rw [htaking, hquiet]) ?_
    · intro t hne
      have htarget : t ≠ target := fun ht => hne ⟨rfl, ht⟩
      rw [hstoring t htarget, hth, storing_send_ne htarget]
    · have hpair : ((n.apply c effect).setThread c ⟨base, new⟩).pair c target =
          n.accessed c effect c target S (n.pair c target).taking := by
        rw [pair, hsame, hchanged.threads, if_pos rfl, hS]
        rfl
      rw [hpair]
      exact hmove
  exact h.change hchanged hmoves hshaped
    ((h.status_of hth).keep fun j => hmoves.pending (hsame c j))

theorem send_sound : Sound ((n.apply c (sendNext n c target m stage).2).setThread c
    ⟨base, (sendNext n c target m stage).1 ++ calls⟩) := by
  have hshaped := h.shaped_of hth
  have hm : m.fcn.isSome := hshaped.valid _ mem_cons_self
  have hpop := hshaped.pop
  have hbase := hshaped.base (cons_ne_nil _ _)
  have hcalls : ∀ call ∈ calls, call.Suspended ∧ call.Valid := fun call hmem =>
    ⟨hshaped.tail call hmem, hshaped.valid call (mem_cons_of_mem _ hmem)⟩
  have hbefore : (n.pair c target).storing = stage.storing m := by
    rw [pair, hth, storing_send]
  -- the post goes on to another stage, or ends
  have hgoes : ∀ (effect : Effect F) (stage' : SendStage), effect.At c c target →
      (n.pair c target).Goes
        (n.accessed c effect c target (stage'.storing m) (n.pair c target).taking) →
      Sound ((n.apply c effect).setThread c ⟨base, .send target m stage' :: calls⟩) :=
    fun effect stage' hat => h.sent hth hat (.push hbase hcalls hm)
      (fun t hne => storing_send_ne hne)
      (fun _ => rfl) storing_send
  have hends : ∀ effect : Effect F, effect.At c c target → (n.pair c target).Goes
      (n.accessed c effect c target .none (n.pair c target).taking) →
      Sound ((n.apply c effect).setThread c ⟨base, calls⟩) :=
    fun effect hat => h.sent hth hat hpop.1 (fun t _ => hpop.2.storing t) hpop.2.taking
      (hpop.2.storing target)
  have hfree : stage.storing m = .none → (n.slots c target).fcn.isNone →
      Sound ((n.apply c .none).setThread c ⟨base, .send target m .storeFcn :: calls⟩) :=
    fun hstage hnone => hgoes .none .storeFcn trivial
      (.inr (Move.begin m (hbefore.trans hstage) (Option.isNone_iff_eq_none.mp hnone) hm))
  fun_cases sendNext n c target m stage with
  | case1 hnone | case4 hnone => exact hfree rfl hnone
  | case2 => exact hends .none trivial (Pair.goes_of_eq hbefore rfl)
  | case3 => exact hgoes .none .spin trivial (Pair.goes_of_eq hbefore rfl)
  | case5 =>
    refine h.sent hth trivial (.push hbase ?_ trivial) (fun _ _ => rfl) (fun _ => ite_self _) rfl
      (Pair.goes_of_eq hbefore rfl)
    intro call hmem
    rcases mem_cons.mp hmem with rfl | hmem
    · exact ⟨trivial, hm⟩
    · exact hcalls call hmem
  | case6 =>
    refine hgoes _ .storeParam1 ⟨rfl, rfl⟩ (.inr ?_)
    simp only [accessed, apply, set_same]
    exact Move.storeFcn m hbefore
  | case7 =>
    refine hgoes _ .storeParam2 ⟨rfl, rfl⟩ (.inr ?_)
    simp only [accessed, apply, set_same]
    exact Move.storeParam1 m hbefore
  | case8 =>
    refine hgoes _ .interrupt ⟨rfl, rfl⟩ (.inr ?_)
    simp only [accessed, apply, set_same]
    exact Move.storeParam2 m hbefore
  | case9 =>
    refine hends _ ⟨rfl, rfl⟩ (.inr ?_)
    simp only [accessed, apply, set_same]
    exact Move.interrupt m hbefore

end

end Send

section Take

variable {source : Nat} {copy : Message F}

theorem Sound.took (h : Sound n) (hat : effect.At c source c) (hshaped : th.Shaped)
    (hbefore : (n.threads c).Only source) (hafter : th.Only source) (hT : th.taking source = T)
    (hmove : (n.pair source c).Goes (n.accessed c effect source c (n.pair source c).storing T))
    (hstatus : Moves n ((n.apply c effect).setThread c th) →
      StatusOk ((n.apply c effect).setThread c th) c th.base) :
    Sound ((n.apply c effect).setThread c th) := by
  have hchanged := changed_apply hat n th
  have hstoring : (((n.apply c effect).setThread c th).threads source).storing c =
      (n.threads source).storing c := by
    rw [hchanged.threads]
    split
    next hsource => rw [hsource, hafter.storing, hbefore.storing]
    next => rfl
  have hmoves : Moves n ((n.apply c effect).setThread c th) := by
    refine hchanged.moves (fun t _ => by rw [hafter.storing, hbefore.storing]) ?_ ?_
    · intro s hne
      have hs : s ≠ source := fun hs => hne ⟨hs, rfl⟩
      rw [hafter.taking s hs, hbefore.taking s hs]
    · have hpair : ((n.apply c effect).setThread c th).pair source c =
          n.accessed c effect source c (n.pair source c).storing T := by
        rw [pair, hstoring, hchanged.threads c, if_pos rfl, hT]
        rfl
      rw [hpair]
      exact hmove
  exact h.change hchanged hmoves hshaped (hstatus hmoves)

theorem takeNext_at {stage : TakeStage}
    (hnext : takeNext slot copy source stage = (stage', copy', effect)) : effect.At c source c := by
  cases stage <;> cases hnext <;> trivial

theorem takeNext_move {stage : TakeStage}
    (hnext : takeNext (n.slots source c) copy source stage = (stage', copy', effect))
    (hcall : stage ≠ .call) (htaking : (n.pair source c).taking = .take stage copy) :
    Move (n.pair source c)
      (n.accessed c effect source c (n.pair source c).storing (.take stage' copy')) := by
  cases stage with
  | fcn | param1 | param2 =>
    cases hnext
    exact Move.take _ _ copy _ source htaking hcall rfl
  | clear =>
    cases hnext
    simp only [accessed, apply, set_same]
    exact Move.clear _ htaking
  | release =>
    cases hnext
    simp only [accessed, apply, set_same]
    exact Move.release _ htaking
  | call => exact absurd rfl hcall

theorem takeNext_keeps {stage : TakeStage}
    (hnext : takeNext slot copy source stage = (stage', copy', effect)) (hcall : stage' ≠ .call)
    (hsome : (n.slots source c).fcn.isSome) : ((n.apply c effect).slots source c).fcn.isSome := by
  cases stage with
  | fcn | param1 | param2 | clear => cases hnext; exact hsome
  | release | call => cases hnext; exact absurd rfl hcall

end Take

section Flush

variable {source : Nat} {stage : AvoidStage F}

theorem only_avoid : Thread.Only ⟨base, .avoid source stage :: calls⟩ source :=
  ⟨fun _ => rfl, fun _ hne => taking_avoid_ne hne⟩

section

variable (h : Sound n) (hth : n.threads c = ⟨base, .avoid source stage :: calls⟩)
include h hth

theorem Sound.flushed (hat : effect.At c source c) (hshaped : Thread.Shaped ⟨base, new⟩)
    (hafter : Thread.Only ⟨base, new⟩ source) (hT : Thread.taking ⟨base, new⟩ source = T)
    (hsource : source < appThreads ∨ T = stage.taking)
    (hmove : (n.pair source c).Goes (n.accessed c effect source c (n.pair source c).storing T)) :
    Sound ((n.apply c effect).setThread c ⟨base, new⟩) := by
  refine h.took hat hshaped (hth ▸ only_avoid) hafter hT hmove ?_
  intro hmoves
  have hold := h.status_of hth
  refine statusOk_suspended ((h.shaped_of hth).base (cons_ne_nil _ _)) hold ?_
  intro j hj hpending
  refine hmoves.pending ?_ hpending
  rw [(changed_apply hat n _).threads, if_pos rfl, hth]
  by_cases hsame : j = source
  · subst hsame
    rw [taking_avoid, hT]
    exact hsource.resolve_left (Nat.not_lt.mpr hj)
  · rw [hafter.taking j hsame, taking_avoid_ne hsame]

theorem avoid_sound : Sound ((n.apply c (avoidNext acked n c source stage).2).setThread c
    ⟨base, (avoidNext acked n c source stage).1 ++ calls⟩) := by
  have hshaped := h.shaped_of hth
  have hpop := hshaped.pop
  have hbase := hshaped.base (cons_ne_nil _ _)
  have hcalls : ∀ call ∈ calls, call.Suspended ∧ call.Valid := fun call hmem =>
    ⟨hshaped.tail call hmem, hshaped.valid call (mem_cons_of_mem _ hmem)⟩
  have hvalid : Call.Valid (.avoid source stage) := hshaped.valid _ mem_cons_self
  have hbefore : (n.pair source c).taking = stage.taking := by
    rw [pair, hth, taking_avoid]
  have hgoes : ∀ (effect : Effect F) (stage' : AvoidStage F), source < appThreads →
      Call.Valid (.avoid source stage') → effect.At c source c → (n.pair source c).Goes
        (n.accessed c effect source c (n.pair source c).storing stage'.taking) →
      Sound ((n.apply c effect).setThread c ⟨base, .avoid source stage' :: calls⟩) :=
    fun effect stage' hsource hvalid hat => h.flushed hth hat (.push hbase hcalls hvalid) only_avoid
      taking_avoid (.inl hsource)
  have hleaves : stage.taking.inHand = [] → (source < appThreads ∨ .none = stage.taking) →
      Sound ((n.apply c .none).setThread c ⟨base, calls⟩) :=
    fun hstage hsource => h.flushed hth trivial hpop.1 (hpop.2.only source) (hpop.2.taking source)
      hsource (.inr (Move.leave (hbefore ▸ hstage)))
  fun_cases avoidNext acked n c source stage with
  | case1 hfinds =>
    exact hgoes .none .test hfinds.2.1 hfinds.2.1 trivial
      (.inr (Move.start hbefore ((h.ok source c).bit hfinds.2.2)))
  | case2 => exact hleaves rfl (.inr rfl)
  | case3 =>
    exact hgoes .none (.take .fcn .empty) hvalid hvalid trivial (Pair.goes_of_eq rfl hbefore)
  | case4 => exact hleaves rfl (.inl hvalid)
  | case5 copy =>
    refine h.flushed hth ⟨rfl, rfl⟩ (.push hbase hcalls trivial) (quiet_handler.only source) rfl
      (.inl hvalid) (.inr ?_)
    simp only [accessed, apply, set_same]
    exact Move.call copy hbefore
  | case6 copy hnone => exact absurd ((h.ok source c).called copy hbefore) hnone
  | case7 stage copy hcall stage' copy' effect hnext =>
    exact hgoes effect (.take stage' copy') hvalid hvalid (takeNext_at hnext)
      (.inr (takeNext_move hnext (by simpa using hcall) hbefore))

end

end Flush

theorem shaped_nil (base : Base F) : Thread.Shaped ⟨base, []⟩ :=
  ⟨by simp, fun hne => absurd rfl hne, by simp⟩

theorem mem_readStatus {agents : Bool} {j : Nat} (h : j ∈ n.readStatus c agents) :
    n.bits j c = true ∧ (agents = true → appThreads ≤ j) := by
  rw [readStatus, mem_filter] at h
  refine ⟨h.2, ?_⟩
  rintro rfl
  obtain ⟨k, hk, rfl⟩ := mem_drop_iff_getElem.mp h.1
  simp [firstSource]

section Scan

variable {agents : Bool} {status : List Nat} {i : Nat} {stage : FlihStage F}

theorem only_flih : Thread.Only (⟨.flih agents status i stage, []⟩ : Thread F) i :=
  ⟨fun _ => rfl, fun _ hne => if_neg (Ne.symm hne)⟩

section

variable (h : Sound n) (hth : n.threads c = ⟨.flih agents status i stage, []⟩)
include h hth

theorem Sound.scanned (hat : effect.At c i c) (hshaped : th.Shaped) (hafter : th.Only i)
    (hT : th.taking i = T)
    (hmove : (n.pair i c).Goes (n.accessed c effect i c (n.pair i c).storing T))
    (hstatus : ∀ n', (∀ j, (n.pair j c).Pending →
      j ≠ i ∨ ((n.apply c effect).slots i c).fcn.isSome → (n'.pair j c).Pending) →
        StatusOk n' c th.base) : Sound ((n.apply c effect).setThread c th) := by
  have hbefore : (n.threads c).Only i := hth ▸ only_flih
  refine h.took hat hshaped hbefore hafter hT hmove ?_
  intro hmoves
  refine hstatus _ fun j hpending hkeep => ?_
  by_cases hj : j = i
  · subst hj
    exact hmoves.pending_of_isSome (hkeep.resolve_left fun hne => hne rfl) hpending
  · refine hmoves.pending ?_ hpending
    rw [(changed_apply hat n th).threads, if_pos rfl, hafter.taking j hj, hbefore.taking j hj]

theorem flih_sound : Sound ((n.apply c (flihNext n c agents status i stage).2.2).setThread c
    ⟨(flihNext n c agents status i stage).1, (flihNext n c agents status i stage).2.1⟩) := by
  have hbefore : (n.pair i c).taking = stage.taking := by
    rw [pair, hth]
    exact if_pos rfl
  have hold : ∀ j ∈ status, (agents = true → appThreads ≤ j) ∧
      (stage.Waits i j → (n.pair j c).Pending) := h.status_of hth
  -- the handler goes on, with the message of `i` in hand or not
  have hgoes : ∀ (effect : Effect F) (status' : List Nat) (stage' : FlihStage F),
      effect.At c i c → (n.pair i c).Goes
        (n.accessed c effect i c (n.pair i c).storing stage'.taking) →
      (∀ n', (∀ j, (n.pair j c).Pending →
        j ≠ i ∨ ((n.apply c effect).slots i c).fcn.isSome → (n'.pair j c).Pending) →
          StatusOk n' c (.flih agents status' i stage')) →
      Sound ((n.apply c effect).setThread c ⟨.flih agents status' i stage', []⟩) :=
    fun _ _ _ hat => h.scanned hth hat (shaped_nil _) only_flih (if_pos rfl)
  have hquiet : ∀ status', Thread.Quiet (⟨.flih agents status' (i + 1) .scan, []⟩ : Thread F) :=
    fun _ => ⟨fun _ => rfl, fun _ => ite_self _⟩
  fun_cases flihNext n c agents status i stage with
  | case1 | case8 =>
    exact h.scanned hth trivial (shaped_nil _) (quiet_idle.only i) rfl (Pair.goes_of_eq rfl hbefore)
      fun _ _ => trivial
  | case2 hend hmem =>
    have hpending : ∀ j ∈ status, (n.pair j c).Pending := fun j hj => (hold j hj).2 trivial
    refine hgoes .none status (.take .fcn .empty) trivial
      (.inr (Move.start hbefore (hpending i hmem))) ?_
    intro n' hkeep j hj
    exact ⟨(hold j hj).1, fun _ => hkeep j (hpending j hj) (.inr (hpending i hmem).1)⟩
  | case3 =>
    refine h.scanned hth trivial (shaped_nil _) ((hquiet status).only i) ((hquiet status).taking i)
      (Pair.goes_of_eq rfl hbefore) ?_
    intro n' hkeep j hj
    have hpending := (hold j hj).2 trivial
    refine ⟨(hold j hj).1, fun _ => hkeep j hpending ?_⟩
    by_cases hi : j = i
    · exact .inr (hi ▸ hpending.1)
    · exact .inl hi
  | case6 stage copy hcall stage' copy' effect hnext =>
    replace hcall : stage ≠ .call := by simpa using hcall
    refine hgoes effect status (.take stage' copy') (takeNext_at hnext)
      (.inr (takeNext_move hnext hcall hbefore)) ?_
    intro n' hkeep j hj
    refine ⟨(hold j hj).1, fun hwaits => ?_⟩
    have hpending := (hold j hj).2 (.inl hcall)
    refine hkeep j hpending ?_
    by_cases hi : j = i
    · subst hi
      right
      exact takeNext_keeps hnext (hwaits.resolve_right fun hne => hne rfl) hpending.1
    · exact .inl hi
  | case4 copy =>
    have hsuspended : Base.Suspended
        (.flih agents status i (if agents then .finish else .refresh) : Base F) := by
      cases agents <;> exact rfl
    refine h.scanned hth ⟨rfl, rfl⟩ (.push hsuspended (by simp) trivial) (quiet_handler.only i) rfl
      (.inr ?_) ?_
    · simp only [accessed, apply, set_same]
      exact Move.call copy hbefore
    · intro n' hkeep j hj
      refine ⟨(hold j hj).1, fun hwaits => ?_⟩
      have hi : j ≠ i := by
        cases agents
        · exact hwaits.elim
        · exact hwaits
      exact hkeep j ((hold j hj).2 (.inr hi)) (.inl hi)
  | case5 copy hnone => exact absurd ((h.ok i c).called copy hbefore) hnone
  | case7 =>
    refine hgoes .none _ .finish trivial (Pair.goes_of_eq rfl hbefore) ?_
    intro n' hkeep j hj
    obtain ⟨hbit, hagents⟩ := mem_readStatus hj
    exact ⟨hagents, fun hi => hkeep j ((h.ok j c).bit hbit) (.inl hi)⟩
  | case9 =>
    refine h.scanned hth trivial (shaped_nil _) ((hquiet _).only i) ((hquiet _).taking i)
      (Pair.goes_of_eq rfl hbefore) ?_
    intro n' hkeep j hj
    obtain ⟨hj, hi⟩ := mem_filter.mp hj
    have hne : j ≠ i := by simpa using hi
    exact ⟨(hold j hj).1, fun _ => hkeep j ((hold j hj).2 hne) (.inl hne)⟩

end

end Scan

section Check

variable {i seen : Nat} {stage : CheckStage} {copy : Message F}

theorem only_checker : Thread.Only (⟨.checker i seen stage copy, []⟩ : Thread F) i :=
  ⟨fun _ => rfl, fun _ hne => if_neg (Ne.symm hne)⟩

section

variable (h : Sound n) (hth : n.threads c = ⟨.checker i seen stage copy, []⟩)
include h hth

theorem Sound.checked {seen' : Nat} {stage' : CheckStage} (hmove : Move (n.pair i c)
      { n.pair i c with taking := stage'.taking seen' copy' }) :
    Sound (n.setThread c ⟨.checker i seen' stage' copy', []⟩) :=
  h.took (show Effect.At c i c (.none : Effect F) from trivial) (shaped_nil _)
    (hth ▸ only_checker) only_checker (if_pos rfl) (.inr hmove) fun _ => trivial

theorem Sound.left
    (hhand : (stage.taking seen copy).inHand = []) (hbase : base.Suspended)
    (hstatus : ∀ n : Node F, StatusOk n c base) : Sound (n.setThread c ⟨base, []⟩) := by
  refine h.took (show Effect.At c i c (.none : Effect F) from trivial) (shaped_nil _)
    (hth ▸ only_checker) ((quiet_of_suspended hbase (by simp)).only i) (hbase.taking i)
    (.inr (Move.leave ?_)) fun _ => hstatus _
  have hbefore : (n.pair i c).taking = stage.taking seen copy := by
    rw [pair, hth]
    exact if_pos rfl
  rw [hbefore]
  exact hhand

end

/-- The checker takes a message only if the sender is not posting to it, has not posted since it
turned to the slot, and has no interrupt under way. -/
def Undisturbed (n : Node F) (c i seen : Nat) : Prop :=
  (n.threads i).storing c = .none ∧ (n.posted i c).length = seen ∧ n.bits i c = false

theorem checker_sound (h : Sound n) (hth : n.threads c = ⟨.checker i seen stage copy, []⟩)
    (horderly : stage = .release → Undisturbed n c i seen) :
    Sound ((n.apply c (checkerNext n c i seen copy stage).2.2).setThread c
      ⟨(checkerNext n c i seen copy stage).1, (checkerNext n c i seen copy stage).2.1⟩) := by
  have hbefore : (n.pair i c).taking = stage.taking seen copy := by
    rw [pair, hth]
    exact if_pos rfl
  have hnext : ∀ seen', Base.Suspended (.checker (i + 1) seen' .look copy : Base F) :=
    fun _ => trivial
  cases stage with
  | look =>
    rw [checkerNext]
    split
    · exact h.left hth rfl trivial fun _ => trivial
    · exact h.checked hth (Move.look hbefore)
  | fcn =>
    exact h.checked hth (Move.check seen .fcn .param1 copy _ hbefore (by simp)
      (fun _ => rfl) (by simp [CheckStage.found]))
  | param1 =>
    exact h.checked hth (Move.check seen .param1 .param2 copy _ hbefore (by simp)
      (fun hagree => ⟨hagree, rfl⟩) (by simp [CheckStage.found]))
  | param2 =>
    refine h.checked hth (Move.check seen .param2 .test copy _ hbefore (by simp)
      (fun hagree => ?_) (by simp [CheckStage.found]))
    change { copy with param2 := (n.slots i c).param2 } = n.slots i c
    have hfcn : copy.fcn = (n.slots i c).fcn := hagree.1
    have hparam1 : copy.param1 = (n.slots i c).param1 := hagree.2
    rw [hfcn, hparam1]
  | test =>
    rw [checkerNext]
    split
    next hsome =>
      exact h.checked hth (Move.check seen .test (.poll ipiTimeout) copy copy hbefore
        (by simp) (fun hagree => hagree) (fun _ => hsome))
    next => exact h.left hth rfl (hnext seen) fun _ => trivial
  | poll timeout =>
    have hfound := ((h.ok i c).checked seen (.poll timeout) copy hbefore (by simp)).2.2 rfl
    cases timeout with
    | zero =>
      exact h.checked hth (Move.check seen (.poll 0) .release copy copy hbefore (by simp)
        (fun hagree => hagree) (fun _ => hfound))
    | succ timeout =>
      rw [checkerNext]
      split
      · exact h.left hth rfl (hnext seen) fun _ => trivial
      · exact h.checked hth (Move.check seen (.poll (timeout + 1)) (.poll timeout) copy copy
          hbefore (by simp) (fun hagree => hagree) (fun _ => hfound))
  | release =>
    obtain ⟨hidle, hsame, hbit⟩ := horderly rfl
    refine h.took (show Effect.At c i c (.release i : Effect F) from ⟨rfl, rfl⟩) (shaped_nil _)
      (hth ▸ only_checker) only_checker (if_pos rfl) (.inr ?_) fun _ => trivial
    simp only [checkerNext, accessed, apply, set_same]
    exact Move.checkRelease seen copy hbefore hidle hsame hbit
  | call =>
    refine h.took (show Effect.At c i c (.call i copy) from ⟨rfl, rfl⟩)
      (.push (hnext seen) (by simp) trivial) (hth ▸ only_checker) (quiet_handler.only i) rfl
      (.inr ?_) fun _ => trivial
    simp only [checkerNext, accessed, apply, set_same]
    exact Move.checkCall seen copy hbefore

end Check

def Thread.releases : Thread F → Option (Nat × Nat)
  | ⟨.checker i seen .release _, []⟩ => some (i, seen)
  | _ => none

/-- The checker is not disturbed where it takes a message. -/
def Orderly (n : Node F) : Label F → Prop
  | .run cpu => ∀ p ∈ (n.threads cpu).releases, Undisturbed n cpu p.1 p.2
  | _ => True

instance [DecidableEq F] (n : Node F) (c i seen : Nat) : Decidable (Undisturbed n c i seen) :=
  inferInstanceAs (Decidable (_ ∧ _ ∧ _))

instance [DecidableEq F] (n : Node F) (label : Label F) : Decidable (Orderly n label) :=
  match label with
  | .run cpu =>
    inferInstanceAs (Decidable (∀ p ∈ (n.threads cpu).releases, Undisturbed n cpu p.1 p.2))
  | .post _ _ _ _ _ => .isTrue trivial
  | .returns _ => .isTrue trivial
  | .interrupt _ _ => .isTrue trivial
  | .check _ => .isTrue trivial
  | .abort _ => .isTrue trivial
  | .lose _ _ => .isTrue trivial
  | .await _ _ => .isTrue trivial

theorem run_sound (h : Sound n) (horderly : Orderly n (.run c))
    (hnext : n.next acked c = some (th, effect)) : Sound ((n.apply c effect).setThread c th) := by
  unfold Node.next at hnext
  split at hnext
  next => simp at hnext
  next base target m stage calls hth =>
    cases hnext
    exact send_sound h hth
  next base source stage calls hth =>
    cases hnext
    exact avoid_sound h hth
  next => simp at hnext
  next agents status i stage hth =>
    cases hnext
    exact flih_sound h hth
  next i seen stage copy hth =>
    cases hnext
    refine checker_sound h hth ?_
    rintro rfl
    exact horderly (i, seen) (by rw [hth]; rfl)

theorem Sound.quiet (h : Sound n) (hbefore : (n.threads c).Quiet)
    (hafter : th.Quiet) (hshaped : th.Shaped)
    (hstatus : Moves n (n.setThread c th) → StatusOk (n.setThread c th) c th.base) :
    Sound (n.setThread c th) := by
  have hchanged := changed_setThread n c c c th
  have hmoves : Moves n (n.setThread c th) := by
    refine hchanged.moves (fun t _ => by rw [hafter.storing, hbefore.storing])
      (fun s _ => by rw [hafter.taking, hbefore.taking]) (.inl ?_)
    rw [pair, pair, hchanged.threads, if_pos rfl, hafter.storing, hafter.taking,
      hbefore.storing, hbefore.taking]
    rfl
  exact h.change hchanged hmoves hshaped (hstatus hmoves)

theorem Sound.recall (h : Sound n) {old : List (Call F)}
    (hth : n.threads c = ⟨base, old⟩) (hbefore : Thread.Quiet ⟨base, old⟩)
    (hafter : Thread.Quiet ⟨base, new⟩) (hshaped : Thread.Shaped ⟨base, new⟩) :
    Sound (n.setThread c ⟨base, new⟩) := by
  refine h.quiet (hth ▸ hbefore) hafter hshaped fun hmoves => ?_
  refine (h.status_of hth).keep fun j => hmoves.pending ?_
  rw [(changed_setThread n c c c _).threads, if_pos rfl, hafter.taking, hth, hbefore.taking]

theorem call_sound (h : Sound n) (hcall : n.call c call = some n')
    (hquiet : ∀ base calls, Thread.Quiet ⟨base, call :: calls⟩) (hvalid : call.Valid) :
    Sound n' := by
  unfold Node.call at hcall
  split at hcall
  next hth =>
    cases hcall
    exact h.recall hth quiet_idle (hquiet _ _) (.push trivial (by simp) hvalid)
  next hth =>
    cases hcall
    have hshaped := h.shaped_of hth
    refine h.recall hth quiet_handler (hquiet _ _)
      (.push (hshaped.base (cons_ne_nil _ _)) ?_ hvalid)
    intro call hmem
    refine ⟨?_, hshaped.valid call hmem⟩
    rcases mem_cons.mp hmem with rfl | hmem
    · trivial
    · exact hshaped.tail call hmem
  next => cases hcall

theorem step_sound {label : Label F} (h : Sound n) (horderly : Orderly n label)
    (hstep : step acked n label = some n') : Sound n' := by
  revert hstep
  fun_cases step acked n label <;> intro hstep
  case case1 =>
    obtain ⟨⟨th, effect⟩, hnext, rfl⟩ := map_eq_some_iff.mp hstep
    exact run_sound h horderly hnext
  case case2 => exact call_sound h hstep (fun _ _ => quiet_check) rfl
  case case13 =>
    exact call_sound h hstep (fun _ _ => ⟨fun _ => rfl, fun _ => ite_self _⟩) trivial
  all_goals cases hstep
  case case4 hth =>
    have hpop := (h.shaped_of hth).pop
    exact h.recall hth quiet_handler hpop.2 hpop.1
  case case6 cpu agents hth =>
    refine h.quiet (hth ▸ quiet_idle) ⟨fun _ => rfl, fun _ => ite_self _⟩ (shaped_nil _) ?_
    intro hmoves j hj
    obtain ⟨hbit, hagents⟩ := mem_readStatus hj
    refine ⟨hagents, fun _ => hmoves.pending ?_ ((h.ok j cpu).bit hbit)⟩
    rw [(changed_setThread n cpu cpu cpu _).threads, if_pos rfl, hth]
    exact ite_self _
  case case8 hth =>
    exact h.quiet (hth ▸ quiet_idle) ⟨fun _ => rfl, fun _ => ite_self _⟩ (shaped_nil _)
      fun _ => trivial
  case case10 hth =>
    have hpop := (h.shaped_of hth).pop
    exact h.recall hth ⟨fun _ => ite_self _, fun _ => rfl⟩ hpop.2 hpop.1
  case case12 sender target =>
    have hchanged : Changed n { n with bits := set n.bits sender target false } sender sender
        target (n.threads sender) := by
      refine ⟨fun x => ?_, fun _ _ _ => rfl, fun _ _ h => set_other h, fun _ _ _ => rfl,
        fun _ _ _ => rfl⟩
      split
      next hx => rw [hx]
      next => rfl
    have hmoves : Moves n { n with bits := set n.bits sender target false } := by
      refine hchanged.moves (fun _ _ => rfl) (fun _ _ => rfl) (.inr ?_)
      simp only [pair, set_same]
      exact Move.lose
    exact h.change hchanged hmoves (h.shaped sender)
      ((h.status sender).keep fun j => hmoves.pending rfl)

theorem init_sound : Sound (init : Node F) where
  shaped := fun _ => shaped_nil _
  ok := fun _ _ => ⟨by simp [pair, init], trivial, by simp [pair, init, Thread.taking, Base.taking],
    by simp [pair, init, Thread.taking, Base.taking], by simp [pair, init],
    by simp [pair, init, Thread.taking, Base.taking], rfl⟩
  status := fun _ => trivial

/-- In every orderly run the messages that a thread has posted to another one are those handled,
in that order and with all their words, then one that is being handled, then the one in the
slot. -/
theorem messages_accounted (acked : F → Bool) {labels : List (Label F)}
    (hrun : run (step acked) init labels = some n)
    (horderly : RunMeets (step acked) Orderly init labels) (s t : Nat) :
    (n.pair s t).handled ++ (n.pair s t).taking.inHand ++ (n.pair s t).recorded =
      (n.pair s t).posted :=
  ((invariant_of_runMeets (fun _ _ _ hs hC ht => step_sound hs hC ht) init_sound horderly
    hrun).ok s t).accounted

def sampleLabels : List (Label Bool) :=
  [.post 0 1 true 5 6] ++ replicate 5 (.run 0) ++ [.interrupt 1 false] ++
    replicate 7 (.run 1) ++ [.post 1 0 false 7 8] ++ replicate 5 (.run 1) ++
    [.returns 1, .run 1, .run 1]

theorem messages_accounted_sample : ∃ n, run (step id) init sampleLabels = some n ∧
      n.handled 0 1 = [⟨some true, 5, 6⟩] ∧ n.slots 1 0 = ⟨some false, 7, 8⟩ ∧
      (n.pair 0 1).handled ++ (n.pair 0 1).taking.inHand ++ (n.pair 0 1).recorded =
        (n.pair 0 1).posted := by
  refine exists_of_map_run (fun n => (n.handled 0 1, n.slots 1 0))
    ([⟨some true, 5, 6⟩], ⟨some false, 7, 8⟩) (by decide) fun n hrun hend => ?_
  rw [Prod.mk.injEq] at hend
  exact ⟨hend.1, hend.2, messages_accounted id hrun (by decide) 0 1⟩

theorem run_polls (acked : F → Bool) {i seen : Nat} {copy : Message F} (timeout : Nat)
    (hth : n.threads c = ⟨.checker i seen (.poll timeout) copy, []⟩) (hbit : n.bits i c = false) :
    run (step acked) n (replicate (timeout + 1) (.run c)) =
      some (n.setThread c ⟨.checker i seen .release copy, []⟩) := by
  induction timeout generalizing n with
  | zero => simp [run, step, Node.next, hth, checkerNext, apply]
  | succ timeout ih =>
    have hstep : step acked n (.run c) =
        some (n.setThread c ⟨.checker i seen (.poll timeout) copy, []⟩) := by
      simp [step, Node.next, hth, checkerNext, hbit, apply]
    rw [replicate_succ, run_cons, hstep, bind_some]
    rw [ih (n := n.setThread c ⟨.checker i seen (.poll timeout) copy, []⟩) (if_pos rfl) hbit]
    simp only [setThread, some.injEq, Node.mk.injEq, and_true]
    funext x
    split <;> rfl

/-- Thread 0 has stored the function of a message when the checker of thread 1 comes upon it and
finds no interrupt: the function is called with other parameters. -/
theorem not_messages_accounted :
    ∃ n, run (step id) init ([.post 0 1 true 5 6, .run 0, .run 0, .check 1] ++
        replicate 5 (.run 1) ++ replicate 1001 (.run 1) ++ replicate 2 (.run 1)) =
          some n ∧
      n.handled 0 1 = [⟨some true, 0, 0⟩] ∧ n.posted 0 1 = [] ∧
      (n.pair 0 1).handled ++ (n.pair 0 1).taking.inHand ++ (n.pair 0 1).recorded ≠
        (n.pair 0 1).posted := by
  obtain ⟨n1, hrun1, hth1, hbit1, hhandled1, hposted1⟩ :
      ∃ n : Node Bool, run (step id) init ([.post 0 1 true 5 6, .run 0, .run 0, .check 1] ++
        replicate 5 (.run 1)) = some n ∧
        n.threads 1 = ⟨.checker 0 0 (.poll 1000) ⟨some true, 0, 0⟩, []⟩ ∧ n.bits 0 1 = false ∧
        n.handled 0 1 = [] ∧ n.posted 0 1 = [] := ⟨_, rfl, rfl, rfl, rfl, rfl⟩
  have hpolls := run_polls id 1000 hth1 hbit1
  obtain ⟨n2, hn2⟩ : ∃ n2, n2 = n1.setThread 1
    ⟨.checker 0 0 .release ⟨some true, 0, 0⟩, []⟩ := ⟨_, rfl⟩
  rw [← hn2] at hpolls
  obtain ⟨n3, hrun3, hhandled3, hposted3⟩ : ∃ n3, run (step id) n2 (replicate 2 (.run 1)) =
      some n3 ∧ n3.handled 0 1 = n1.handled 0 1 ++ [⟨some true, 0, 0⟩] ∧
        n3.posted 0 1 = n1.posted 0 1 := by
    subst hn2
    exact ⟨_, rfl, rfl, rfl⟩
  rw [hhandled1, nil_append] at hhandled3
  rw [hposted1] at hposted3
  refine ⟨n3, ?_, hhandled3, hposted3, ?_⟩
  · rw [run_append, run_append, hrun1, bind_some, hpolls, bind_some, hrun3]
  · simp [pair, hhandled3, hposted3]

end BgqDriver.InterruptMessages
