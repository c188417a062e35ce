import BgqDriver.RgetPacingSearch
import Mathlib.Algebra.Order.BigOperators.Group.Finset
import Mathlib.Data.BitVec

/-!
The work of the agent on the list of queues, and the totals that it keeps. `Transition`
says what can happen to the queues and to the rest of the state in one go; `Balanced`
relates the totals to the queues and to the counters in use, and every transition keeps it.
-/

namespace BgqDriver.RgetPacing

open Function List Option

def Data.advance (d : Data) (w c : Nat) : Data :=
  let d := d.releaseCounter w c
  let d := d.setItem w fun i =>
    { i with remainingCompletionLength := i.remainingCompletionLength - d.lengthCompleted c }
  { d with counterWorkItems := update d.counterWorkItems c none }

def Data.retire (cfg : Config) (d : Data) (w c : Nat) (ps : List Nat) : Data :=
  let d := d.releaseCounter w c
  let d :=
    if cfg.doSubRegionCalculations then
      d.setPacing (d.pacing.leave cfg (d.items w).rgetDescriptor.destination)
    else d
  let d := (d.promote ps).record (.retired (d.items w).request)
  { d with counterWorkItems := update d.counterWorkItems c none }

/-- An active item that is not a direct put is injected and removed. -/
def Data.sendOff (d : Data) (w : Nat) (ps : List Nat) : Data :=
  let d := ((d.send w).promote ps).record (.retired (d.items w).request)
  { d with numNonDPutWorkItems := d.numNonDPutWorkItems - 1 }

/-- What can happen to the queues and the state, for a request that arrives or, without
one, in the work of the agent. -/
inductive Transition (cfg : Config) :
    Option Request → List Queue → Data → List Queue → Data → Prop
  | start {L M : List Queue} {d : Data} {w : Nat} {r : Request} (hw : w ∉ dummy :: queued (L ++ M))
      (hx : followed d.items r.id r.peerID (L ++ M) = none) :
      Transition cfg (some r) (L ++ M) d (L ++ (w, []) :: M) (d.setup cfg w r true)
  | follow {L M : List Queue} {d : Data} {w x : Nat} {ps : List Nat} {r : Request}
      (hw : w ∉ dummy :: queued (L ++ (x, ps) :: M))
      (hx : followed d.items r.id r.peerID (L ++ (x, ps) :: M) = some x) :
      Transition cfg (some r) (L ++ (x, ps) :: M) d (L ++ (x, ps ++ [w]) :: M)
        (d.setup cfg w r false)
  | receive {Q : List Queue} {d : Data} (counters : Nat → Nat) :
      Transition cfg none Q d Q { d with receptionCounters := counters }
  | advance {Q : List Queue} {d : Data} {w c : Nat} (hc : d.counterWorkItems c = some w)
      (hzero : d.receptionCounters c = 0)
      (hmore : ¬ ((d.items w).paceIt = false ∨
        (d.items w).remainingCompletionLength ≤ d.lengthCompleted c)) :
      Transition cfg none Q d Q (d.advance w c)
  | retire {L M : List Queue} {d : Data} {w c : Nat} {ps : List Nat}
      (hc : d.counterWorkItems c = some w) (hzero : d.receptionCounters c = 0)
      (hdone : (d.items w).paceIt = false ∨
        (d.items w).remainingCompletionLength ≤ d.lengthCompleted c) :
      Transition cfg none (L ++ (w, ps) :: M) d (L ++ (promoted ps ++ M)) (d.retire cfg w c ps)
  | inject {Q : List Queue} {d : Data} {w c : Nat} (hw : w ∈ actives Q)
      (heligible : d.eligible w = true) (hfree : d.counterWorkItems c = none)
      (hc : c < cfg.numCounters) : Transition cfg none Q d Q (d.inject cfg w c)
  | send {L M : List Queue} {d : Data} {w : Nat} {ps : List Nat}
      (hput : isDPutWorkItem d w = false) :
      Transition cfg none (L ++ (w, ps) :: M) d (L ++ (promoted ps ++ M)) (d.sendOff w ps)

def Pacing.Sized (p : Pacing) : Prop := 0 < p.subRemoteGetSize ∧ p.subRemoteGetSize < 2 ^ 31

theorem Scaling.size_le (c : Scaling) (percentageActive : Nat) :
    0 < c.size percentageActive ∧ c.size percentageActive ≤ c.base * c.multiplyingFactor2 := by
  have hfactor := c.factor_le
  have hpos : 0 < c.multiplyingFactor2 := Nat.lt_of_lt_of_le c.factor_pos hfactor
  unfold Scaling.size
  split
  · exact ⟨Nat.mul_pos c.base_pos hpos, Nat.le_refl _⟩
  next hbelow =>
    split
    next habove =>
      -- The amount into the range stays below the width of the range of factors.
      have hamount : (percentageActive - c.threshold1) *
          (c.multiplyingFactor2 - c.multiplyingFactor1 + 1) /
            (c.threshold2 - c.threshold1 + 1) <
          c.multiplyingFactor2 - c.multiplyingFactor1 + 1 := by
        rw [Nat.div_lt_iff_lt_mul (Nat.succ_pos _), Nat.mul_comm]
        exact Nat.mul_lt_mul_of_pos_left (by omega) (Nat.succ_pos _)
      refine ⟨Nat.mul_pos c.base_pos (Nat.add_pos_left c.factor_pos _), ?_⟩
      exact Nat.mul_le_mul_left c.base (by omega)
    · exact ⟨c.base_pos, Nat.le_mul_of_pos_right c.base hpos⟩

theorem calculate_sized (cfg : Config) (p : Pacing) :
    (calculateSubRegionParameters cfg p).Sized := by
  obtain ⟨hpos, hle⟩ := cfg.subRemoteGetSize.size_le
    (p.numActiveSubRegions * 100 / cfg.numSubRegions)
  exact ⟨hpos, Nat.lt_of_le_of_lt hle cfg.subRemoteGetSize.size_lt⟩

variable {p : Pacing} {f g : Nat → Nat}

theorem Pacing.Sized.enter (h : p.Sized) (cfg : Config) (destination : BitVec 32) :
    (p.enter cfg destination).Sized := by
  unfold Pacing.enter
  dsimp only
  split
  · exact calculate_sized cfg _
  · exact h

theorem Pacing.Sized.leave (h : p.Sized) (cfg : Config) (destination : BitVec 32) :
    (p.leave cfg destination).Sized := by
  unfold Pacing.leave
  dsimp only
  split
  · exact calculate_sized cfg _
  · exact h

theorem init_sized (cfg : Config) : (init cfg).data.pacing.Sized := by
  have hfactor := Nat.lt_of_lt_of_le cfg.subRemoteGetSize.factor_pos cfg.subRemoteGetSize.factor_le
  exact ⟨cfg.subRemoteGetSize.base_pos, Nat.lt_of_le_of_lt
    (Nat.le_mul_of_pos_right _ hfactor) cfg.subRemoteGetSize.size_lt⟩

/-- The bytes of an item that wait to be injected if it is active. -/
def Data.waiting (d : Data) (w : Nat) : Nat :=
  if isDPutWorkItem d w then (d.items w).remainingInjectLength else 0

def Data.length (d : Data) (c : Nat) : Nat := (d.counterPayload c).messageLength.toNat

/-- The bytes of an item that have been injected and have not completed. -/
def Data.outstanding (cfg : Config) (d : Data) (w : Nat) : Nat :=
  ∑ c ∈ Finset.range cfg.numCounters, if d.counterWorkItems c = some w then d.length c else 0

def Data.isPaced (d : Data) (c : Nat) : Bool :=
  (d.counterWorkItems c).any fun w => (d.items w).paceIt

structure Busy (cfg : Config) (Q : List Queue) (d : Data) (c w : Nat) : Prop where
  lt : c < cfg.numCounters
  active : w ∈ actives Q
  put : isDPutWorkItem d w = true
  pos : 0 < d.length c
  size : d.subMessageSizes c = BitVec.ofNat 32 (d.length c)
  paced : (d.items w).paceIt = true → d.length c < 2 ^ 31
  whole : (d.items w).paceIt = false →
    (d.items w).remainingInjectLength = 0 ∧ d.length c = (d.items w).remainingCompletionLength

structure Balanced (cfg : Config) (Q : List Queue) (d : Data) : Prop where
  nodup : (dummy :: queued Q).Nodup
  bytes : d.bytesWaitingToInject = BitVec.ofNat 64 ((actives Q).map d.waiting).sum
  nonDPut : d.numNonDPutWorkItems =
    ((actives Q).countP fun w => isDPutWorkItem d w == false : Nat)
  active : d.numActiveCounters =
    (∑ c ∈ Finset.range cfg.numCounters, if (d.counterWorkItems c).isSome then 1 else 0 : Nat)
  paced : d.numActivePacedCounters =
    (∑ c ∈ Finset.range cfg.numCounters, if d.isPaced c then 1 else 0 : Nat)
  busy : ∀ c w, d.counterWorkItems c = some w → Busy cfg Q d c w
  remaining : ∀ w ∈ queued Q, isDPutWorkItem d w = true →
    (d.items w).remainingCompletionLength =
      (d.items w).remainingInjectLength + d.outstanding cfg w
  fits : ∀ w ∈ queued Q, (d.items w).remainingInjectLength < 2 ^ 64
  sized : d.pacing.Sized

variable {cfg : Config} {Q L M : List Queue} {d d' : Data} {w x c : Nat} {ps : List Nat}

theorem Busy.congr (h : Busy cfg Q d c w) (hput : isDPutWorkItem d' w = isDPutWorkItem d w)
    (hlength : d'.length c = d.length c) (hsizes : d'.subMessageSizes c = d.subMessageSizes c)
    (hpace : (d'.items w).paceIt = (d.items w).paceIt)
    (hrest : (d.items w).paceIt = false →
      (d'.items w).remainingInjectLength = (d.items w).remainingInjectLength ∧
        (d'.items w).remainingCompletionLength = (d.items w).remainingCompletionLength) :
    Busy cfg Q d' c w := by
  refine ⟨h.lt, h.active, hput.trans h.put, hlength ▸ h.pos, ?_, ?_, ?_⟩
  · rw [hsizes, hlength]
    exact h.size
  · rw [hpace, hlength]
    exact h.paced
  · rw [hpace, hlength]
    intro hwhole
    rw [(hrest hwhole).1, (hrest hwhole).2]
    exact h.whole hwhole

def Data.numNonDPut (d : Data) (Q : List Queue) : Nat :=
  (actives Q).countP fun w => isDPutWorkItem d w == false

def Data.numBytes (d : Data) (Q : List Queue) : Nat := ((actives Q).map d.waiting).sum

theorem totals_congr (h : ∀ w ∈ actives Q, isDPutWorkItem d' w = isDPutWorkItem d w ∧
      (d'.items w).remainingInjectLength = (d.items w).remainingInjectLength) :
    d'.numBytes Q = d.numBytes Q ∧ d'.numNonDPut Q = d.numNonDPut Q := by
  refine ⟨congrArg sum (map_congr_left fun w hw => ?_), countP_congr fun w hw => by rw [(h w hw).1]⟩
  rw [Data.waiting, (h w hw).1, (h w hw).2, Data.waiting]

theorem Balanced.congr (h : Balanced cfg Q d) (hitems : ∀ w ∈ queued Q, d'.items w = d.items w)
    (hbytes : d'.bytesWaitingToInject = d.bytesWaitingToInject)
    (hnonDPut : d'.numNonDPutWorkItems = d.numNonDPutWorkItems)
    (hactive : d'.numActiveCounters = d.numActiveCounters)
    (hpaced : d'.numActivePacedCounters = d.numActivePacedCounters)
    (hcounters : d'.counterWorkItems = d.counterWorkItems)
    (hpayload : d'.counterPayload = d.counterPayload)
    (hsizes : d'.subMessageSizes = d.subMessageSizes) (hsized : d'.pacing.Sized) :
    Balanced cfg Q d' := by
  have hactives : ∀ w ∈ actives Q, d'.items w = d.items w := fun w hw =>
    hitems w (mem_queued_of_active hw)
  have hput : ∀ w ∈ queued Q, isDPutWorkItem d' w = isDPutWorkItem d w := fun w hw => by
    rw [isDPutWorkItem, hitems w hw, isDPutWorkItem]
  have hlength : d'.length = d.length := by
    unfold Data.length
    rw [hpayload]
  have houtstanding : ∀ w, d'.outstanding cfg w = d.outstanding cfg w := fun w => by
    rw [Data.outstanding, hlength, hcounters, Data.outstanding]
  obtain ⟨hsum, hcount⟩ := totals_congr fun w hw =>
    ⟨hput w (mem_queued_of_active hw), by rw [hactives w hw]⟩
  refine ⟨h.nodup, ?_, ?_, ?_, ?_, ?_, ?_, ?_, hsized⟩
  · rw [hbytes, h.bytes]
    exact congrArg _ hsum.symm
  · rw [hnonDPut, h.nonDPut]
    exact congrArg _ hcount.symm
  · rw [hactive, h.active, hcounters]
  · have hsame : ∀ c, d'.isPaced c = d.isPaced c := by
      intro c
      rw [Data.isPaced, hcounters, Data.isPaced]
      cases hc : d.counterWorkItems c with
      | none => rfl
      | some w => exact congrArg WorkItem.paceIt (hactives w (h.busy c w hc).active)
    simp only [hpaced, h.paced, hsame]
  · intro c w hc
    rw [hcounters] at hc
    have hbusy := h.busy c w hc
    have hitem := hactives w hbusy.active
    exact hbusy.congr (hput w (mem_queued_of_active hbusy.active)) (congrFun hlength c)
      (congrFun hsizes c) (by rw [hitem]) fun _ => by rw [hitem]; exact ⟨rfl, rfl⟩
  · intro w hw hdput
    rw [hput w hw] at hdput
    rw [hitems w hw, houtstanding]
    exact h.remaining w hw hdput
  · intro w hw
    rw [hitems w hw]
    exact h.fits w hw

def Descriptor.putOffset (m : Descriptor) : BitVec 37 := m.putOffsetMSB ++ m.putOffsetLSB

structure Fresh (cfg : Config) (r : Request) (request : Nat) (i : WorkItem) : Prop where
  request : i.request = request
  inject : i.remainingInjectLength = r.payloadDescriptor.messageLength.toNat
  completion : i.remainingCompletionLength = r.payloadDescriptor.messageLength.toNat
  paceIt : i.paceIt = cfg.paceRgets
  peerID : i.peerID = r.peerID
  id : i.id = r.id
  put : i.payloadDescriptor.isDPut = r.payloadDescriptor.isDPut
  address : i.payloadDescriptor.paPayload = r.payloadDescriptor.paPayload
  offset : i.payloadDescriptor.putOffset = r.payloadDescriptor.putOffset

theorem fill_eq (cfg : Config) (w : Nat) (r : Request) (hsized : d.pacing.Sized) :
    ∃ i p limits, Fresh cfg r d.arrivals.length i ∧ p.Sized ∧ d.fill cfg w r = { d with
      items := update d.items w i
      arrivals := d.arrivals ++ [r]
      pacing := p
      limits := limits } := by
  have hfresh : ∀ zone, Fresh cfg r d.arrivals.length { r.workItem cfg d.arrivals.length with
      payloadDescriptor := r.dPutPayload cfg zone } := by
    intro zone
    cases zone <;> exact ⟨rfl, rfl, rfl, rfl, rfl, rfl, rfl, rfl, rfl⟩
  unfold Data.fill
  split
  · dsimp only
    split
    · exact ⟨_, _, _, hfresh _, hsized.enter cfg _, rfl⟩
    · exact ⟨_, _, _, hfresh _, hsized, rfl⟩
  · refine ⟨_, d.pacing, d.limits, ?_, hsized, rfl⟩
    exact ⟨rfl, rfl, rfl, rfl, rfl, rfl, rfl, rfl, rfl⟩

theorem Balanced.outstanding_eq_zero (h : Balanced cfg Q d) (hw : w ∉ dummy :: queued Q) :
    d.outstanding cfg w = 0 := by
  refine Finset.sum_eq_zero fun c _ => if_neg fun hc => ?_
  exact hw (mem_cons_of_mem _ (mem_queued_of_active (h.busy c w hc).active))

theorem numNonDPut_append (d : Data) : d.numNonDPut (L ++ M) = d.numNonDPut L + d.numNonDPut M := by
  rw [Data.numNonDPut, actives_append, countP_append]
  rfl

theorem numBytes_append (d : Data) : d.numBytes (L ++ M) = d.numBytes L + d.numBytes M := by
  rw [Data.numBytes, actives_append, map_append, sum_append]
  rfl

/-- Some queues give way to others, and the totals change by what these queues count for. -/
theorem Balanced.exchange {X Y : List Queue} {bytes : BitVec 64} {nonDPut : Int}
    (h : Balanced cfg (L ++ (X ++ M)) d) (hnodup : (dummy :: queued (L ++ (Y ++ M))).Nodup)
    (hkept : ∀ c w, d.counterWorkItems c = some w → w ∈ actives X → w ∈ actives Y)
    (hitems : ∀ w ∈ queued Y, w ∈ queued X ∨
      ((d.items w).remainingCompletionLength =
        (d.items w).remainingInjectLength + d.outstanding cfg w ∧
        (d.items w).remainingInjectLength < 2 ^ 64))
    (hbytes : bytes + BitVec.ofNat 64 (d.numBytes X) =
      d.bytesWaitingToInject + BitVec.ofNat 64 (d.numBytes Y))
    (hnonDPut : nonDPut + d.numNonDPut X = d.numNonDPutWorkItems + d.numNonDPut Y) :
    Balanced cfg (L ++ (Y ++ M))
      { d with bytesWaitingToInject := bytes, numNonDPutWorkItems := nonDPut } := by
  have hqueued : ∀ w ∈ queued (L ++ (Y ++ M)), w ∈ queued (L ++ (X ++ M)) ∨
      ((d.items w).remainingCompletionLength =
        (d.items w).remainingInjectLength + d.outstanding cfg w ∧
        (d.items w).remainingInjectLength < 2 ^ 64) := by
    intro w hw
    simp only [queued_append, mem_append] at hw ⊢
    rcases hw with hw | hw | hw
    · exact .inl (.inl hw)
    · exact (hitems w hw).imp_left fun hx => .inr (.inl hx)
    · exact .inl (.inr (.inr hw))
  refine ⟨hnodup, ?_, ?_, h.active, h.paced, ?_, ?_, ?_, h.sized⟩
  · have hold : d.bytesWaitingToInject = BitVec.ofNat 64 (d.numBytes (L ++ (X ++ M))) := h.bytes
    change bytes = BitVec.ofNat 64 (d.numBytes (L ++ (Y ++ M)))
    rw [hold, numBytes_append, numBytes_append] at hbytes
    rw [numBytes_append, numBytes_append]
    refine add_right_cancel (b := BitVec.ofNat 64 (d.numBytes X)) ?_
    rw [hbytes]
    simp only [← BitVec.ofNat_add]
    congr 1
    omega
  · have hold : d.numNonDPutWorkItems = (d.numNonDPut (L ++ (X ++ M)) : Nat) := h.nonDPut
    change nonDPut = (d.numNonDPut (L ++ (Y ++ M)) : Nat)
    rw [hold, numNonDPut_append, numNonDPut_append] at hnonDPut
    rw [numNonDPut_append, numNonDPut_append]
    omega
  · intro c w hc
    obtain ⟨hlt, hactive, hput, hpos, hsize, hpaced, hwhole⟩ := h.busy c w hc
    refine ⟨hlt, ?_, hput, hpos, hsize, hpaced, hwhole⟩
    simp only [actives_append, mem_append] at hactive ⊢
    exact hactive.imp_right (Or.imp_left (hkept c w hc))
  · intro w hw hput
    rcases hqueued w hw with hold | hnew
    · exact h.remaining w hold hput
    · exact hnew.1
  · intro w hw
    rcases hqueued w hw with hold | hnew
    · exact h.fits w hold
    · exact hnew.2

theorem activate_eq (d : Data) (w : Nat) : d.activate w = { d with
    bytesWaitingToInject := d.bytesWaitingToInject + BitVec.ofNat 64 (d.numBytes [(w, [])])
    numNonDPutWorkItems := d.numNonDPutWorkItems + d.numNonDPut [(w, [])] } := by
  unfold Data.activate
  split
  all_goals
    rename_i hput
    simp [Data.numBytes, Data.numNonDPut, Data.waiting, hput]

theorem promote_eq (d : Data) (ps : List Nat) : d.promote ps = { d with
    bytesWaitingToInject := d.bytesWaitingToInject + BitVec.ofNat 64 (d.numBytes (promoted ps))
    numNonDPutWorkItems := d.numNonDPutWorkItems + d.numNonDPut (promoted ps) } := by
  cases ps with
  | nil => simp [Data.promote, promoted, Data.numBytes, Data.numNonDPut]
  | cons p ps => exact activate_eq d p

theorem Balanced.follow (h : Balanced cfg (L ++ (x, ps) :: M) d)
    (hw : w ∉ dummy :: queued (L ++ (x, ps) :: M))
    (hrem : (d.items w).remainingCompletionLength = (d.items w).remainingInjectLength)
    (hfits : (d.items w).remainingInjectLength < 2 ^ 64) :
    Balanced cfg (L ++ (x, ps ++ [w]) :: M) d := by
  change Balanced cfg (L ++ ([(x, ps ++ [w])] ++ M)) { d with
    bytesWaitingToInject := d.bytesWaitingToInject, numNonDPutWorkItems := d.numNonDPutWorkItems }
  refine h.exchange (X := [(x, ps)]) ?_ (fun c a _ ha => ha) ?_ rfl rfl
  · have hperm : (dummy :: queued (L ++ (x, ps ++ [w]) :: M)).Perm
        (w :: dummy :: queued (L ++ (x, ps) :: M)) :=
      (queued_follow_perm.cons dummy).trans (Perm.swap ..)
    exact hperm.nodup_iff.mpr (nodup_cons.mpr ⟨hw, h.nodup⟩)
  · intro a ha
    have hcase : a = w ∨ a ∈ queued [(x, ps)] := by
      simp only [queued_cons, queued_nil, append_nil, mem_append, mem_cons] at ha ⊢
      tauto
    rcases hcase with rfl | hold
    · exact .inr ⟨by rw [hrem, h.outstanding_eq_zero hw, Nat.add_zero], hfits⟩
    · exact .inl hold

theorem Balanced.start (h : Balanced cfg (L ++ M) d) (hw : w ∉ dummy :: queued (L ++ M))
    (hrem : (d.items w).remainingCompletionLength = (d.items w).remainingInjectLength)
    (hfits : (d.items w).remainingInjectLength < 2 ^ 64) :
    Balanced cfg (L ++ (w, []) :: M) (d.activate w) := by
  rw [activate_eq]
  refine h.exchange (X := []) (Y := [(w, [])]) ?_ (fun c a _ ha => absurd ha (by simp)) ?_ ?_ ?_
  · have hperm : (dummy :: queued (L ++ (w, []) :: M)).Perm (w :: dummy :: queued (L ++ M)) :=
      (queued_start_perm.cons dummy).trans (Perm.swap ..)
    exact hperm.nodup_iff.mpr (nodup_cons.mpr ⟨hw, h.nodup⟩)
  · intro a ha
    obtain rfl : a = w := by simpa using ha
    exact .inr ⟨by rw [hrem, h.outstanding_eq_zero hw, Nat.add_zero], hfits⟩
  · simp [Data.numBytes]
  · simp [Data.numNonDPut]

theorem Balanced.remove (h : Balanced cfg (L ++ (w, ps) :: M) d)
    (hidle : ∀ c, d.counterWorkItems c ≠ some w) (hwaiting : d.waiting w = 0) :
    Balanced cfg (L ++ (promoted ps ++ M)) { d.promote ps with
      numNonDPutWorkItems := (d.promote ps).numNonDPutWorkItems - d.numNonDPut [(w, ps)] } := by
  rw [promote_eq]
  refine h.exchange (X := [(w, ps)]) (Y := promoted ps) ?_ ?_ ?_ ?_ ?_
  · refine h.nodup.sublist (Sublist.cons_cons dummy ?_)
    rw [queued_append, queued_append, queued_promoted, queued_append, queued_cons]
    exact (sublist_cons_self w _).append_left _
  · intro c a hc ha
    obtain rfl : a = w := by simpa using ha
    exact absurd hc (hidle c)
  · intro a ha
    rw [queued_promoted] at ha
    exact .inl (by simp [ha])
  · have hzero : d.numBytes [(w, ps)] = 0 := by simpa [Data.numBytes] using hwaiting
    rw [hzero, BitVec.add_zero]
  · exact Int.sub_add_cancel ..

theorem sum_range_of_ne {N : Nat} (hc : c < N) (h : ∀ x ≠ c, g x = f x) :
    ∑ x ∈ Finset.range N, g x + f c = ∑ x ∈ Finset.range N, f x + g c := by
  have hmem := Finset.mem_range.mpr hc
  have hrest : ∑ x ∈ (Finset.range N).erase c, g x = ∑ x ∈ (Finset.range N).erase c, f x :=
    Finset.sum_congr rfl fun x hx => h x (Finset.ne_of_mem_erase hx)
  rw [← Finset.add_sum_erase _ g hmem, ← Finset.add_sum_erase _ f hmem, hrest]
  omega

theorem sum_map_of_ne {l : List Nat} (hnodup : l.Nodup) (hw : w ∈ l) (h : ∀ x ≠ w, g x = f x) :
    (l.map g).sum + f w = (l.map f).sum + g w := by
  obtain ⟨l1, l2, rfl⟩ := append_of_mem hw
  have hleft : l1.map g = l1.map f := map_congr_left fun x hx => h x (by grind)
  have hright : l2.map g = l2.map f := map_congr_left fun x hx => h x (by grind)
  simp only [map_append, map_cons, sum_append, sum_cons, hleft, hright]
  omega

theorem le_outstanding (hlt : c < cfg.numCounters) (hc : d.counterWorkItems c = some w) :
    d.length c ≤ d.outstanding cfg w := by
  have hle := Finset.single_le_sum (f := fun c =>
    if d.counterWorkItems c = some w then d.length c else 0) (fun _ _ => Nat.zero_le _)
    (Finset.mem_range.mpr hlt)
  simp only [hc, if_true] at hle
  exact hle

theorem outstanding_release (hlt : c < cfg.numCounters)
    (hcounters : d'.counterWorkItems = update d.counterWorkItems c none)
    (hlength : d'.length = d.length) (w : Nat) :
    d'.outstanding cfg w + (if d.counterWorkItems c = some w then d.length c else 0) =
      d.outstanding cfg w := by
  have hsum := sum_range_of_ne hlt
    (f := fun c => if d.counterWorkItems c = some w then d.length c else 0)
    (g := fun c => if d'.counterWorkItems c = some w then d'.length c else 0) fun x hx => by
      rw [hcounters, hlength, update_of_ne hx]
  simpa [Data.outstanding, hcounters] using hsum

/-- The numbers of counters in use when counter `c` passes to the item `o`, or to none. -/
theorem Balanced.counters {o : Option Nat} (h : Balanced cfg Q d) (hlt : c < cfg.numCounters)
    (hcounters : d'.counterWorkItems = update d.counterWorkItems c o)
    (hpace : ∀ a, (d'.items a).paceIt = (d.items a).paceIt)
    (hactive : d'.numActiveCounters + (d.counterWorkItems c).isSome.toNat =
      d.numActiveCounters + o.isSome.toNat)
    (hpaced : d'.numActivePacedCounters + (d.isPaced c).toNat =
      d.numActivePacedCounters + (o.any fun w => (d.items w).paceIt).toNat) :
    d'.numActiveCounters = (∑ c ∈ Finset.range cfg.numCounters,
        if (d'.counterWorkItems c).isSome then 1 else 0 : Nat) ∧
      d'.numActivePacedCounters =
        (∑ c ∈ Finset.range cfg.numCounters, if d'.isPaced c then 1 else 0 : Nat) := by
  have hsame : ∀ x, d'.isPaced x = (update d.counterWorkItems c o x).any
      fun w => (d.items w).paceIt := fun x => by
    rw [Data.isPaced, hcounters]
    simp only [hpace]
  have hsum := sum_range_of_ne hlt (f := fun x => (d.counterWorkItems x).isSome.toNat)
    (g := fun x => (d'.counterWorkItems x).isSome.toNat) fun x hx => by
      rw [hcounters, update_of_ne hx]
  have hsum' := sum_range_of_ne hlt (f := fun x => (d.isPaced x).toNat)
    (g := fun x => (d'.isPaced x).toNat) fun x hx => by
      rw [hsame, update_of_ne hx, Data.isPaced]
  rw [hcounters, update_self, ← hcounters] at hsum
  rw [hsame, update_self] at hsum'
  have hold := h.active
  have hold' := h.paced
  simp only [Bool.toNat, Bool.cond_eq_ite] at *
  omega

theorem Balanced.counter_unique {c' : Nat} (h : Balanced cfg Q d)
    (hc : d.counterWorkItems c = some w) (hc' : d.counterWorkItems c' = some w)
    (hpace : (d.items w).paceIt = false) : c' = c := by
  by_contra hne
  have hbusy := h.busy c w hc
  have hbusy' := h.busy c' w hc'
  have hremaining := h.remaining w (mem_queued_of_active hbusy.active) hbusy.put
  let released : Data := { d with counterWorkItems := update d.counterWorkItems c none }
  have hcounters : released.counterWorkItems = update d.counterWorkItems c none := rfl
  have hrelease := outstanding_release (d := d) hbusy.lt hcounters rfl w
  have hle : released.length c' ≤ released.outstanding cfg w :=
    le_outstanding hbusy'.lt ((update_of_ne hne _ _).trans hc')
  have hpos := hbusy'.pos
  obtain ⟨hinject, hlength⟩ := hbusy.whole hpace
  rw [if_pos hc] at hrelease
  change d.length c' ≤ _ at hle
  omega

def Data.complete (d : Data) (w c : Nat) : Data :=
  let d := d.releaseCounter w c
  let d := d.setItem w fun i =>
    { i with remainingCompletionLength := i.remainingCompletionLength - d.length c }
  { d with counterWorkItems := update d.counterWorkItems c none }

theorem releaseCounter_eq (d : Data) (w c : Nat) : d.releaseCounter w c = { d with
    numActivePacedCounters := d.numActivePacedCounters - if (d.items w).paceIt then 1 else 0
    numActiveCounters := d.numActiveCounters - 1
    log := d.log ++ [.completed (d.items w).request (d.length c)] } := by
  unfold Data.releaseCounter
  split
  · rfl
  · simp [Data.record, Data.length]

theorem complete_eq (d : Data) (w c : Nat) : d.complete w c = { d with
    numActivePacedCounters := d.numActivePacedCounters - if (d.items w).paceIt then 1 else 0
    numActiveCounters := d.numActiveCounters - 1
    log := d.log ++ [.completed (d.items w).request (d.length c)]
    items := update d.items w { d.items w with
      remainingCompletionLength := (d.items w).remainingCompletionLength - d.length c }
    counterWorkItems := update d.counterWorkItems c none } := by
  simp only [Data.complete, releaseCounter_eq, Data.setItem]
  rfl

theorem complete_items (d : Data) (w c a : Nat) : (d.complete w c).items a = { d.items a with
      remainingCompletionLength := (d.items a).remainingCompletionLength -
        if a = w then d.length c else 0 } := by
  rw [complete_eq]
  change update d.items w _ a = _
  by_cases ha : a = w
  · subst ha
    rw [update_self, if_pos rfl]
  · rw [update_of_ne ha, if_neg ha, Nat.sub_zero]

theorem complete_put (d : Data) (w c a : Nat) :
    isDPutWorkItem (d.complete w c) a = isDPutWorkItem d a := by
  rw [isDPutWorkItem, complete_items, isDPutWorkItem]

theorem complete_totals (d : Data) (w c : Nat) (Q : List Queue) :
    (d.complete w c).numBytes Q = d.numBytes Q ∧ (d.complete w c).numNonDPut Q = d.numNonDPut Q :=
  totals_congr fun a _ => ⟨complete_put d w c a, by rw [complete_items]⟩

section

variable (h : Balanced cfg Q d) (hc : d.counterWorkItems c = some w)
include h hc

theorem Balanced.complete : Balanced cfg Q (d.complete w c) := by
  have hbusy := h.busy c w hc
  have hitems := complete_items d w c
  have hput := complete_put d w c
  have hcounters : (d.complete w c).counterWorkItems = update d.counterWorkItems c none := by
    rw [complete_eq]
  have hlength : (d.complete w c).length = d.length := by
    rw [complete_eq]
    rfl
  have houtstanding := outstanding_release hbusy.lt hcounters hlength
  have hsizes : (d.complete w c).subMessageSizes = d.subMessageSizes := by rw [complete_eq]
  obtain ⟨hactive, hpaced⟩ := h.counters hbusy.lt hcounters (fun a => by rw [hitems])
    (by rw [hc, complete_eq]; simp) (by
      rw [Data.isPaced, hc, complete_eq]
      cases hp : (d.items w).paceIt <;> simp [hp])
  refine ⟨h.nodup, ?_, ?_, hactive, hpaced, ?_, ?_, ?_, ?_⟩
  · refine Eq.trans ?_ (h.bytes.trans (congrArg _ (complete_totals d w c Q).1.symm))
    rw [complete_eq]
  · refine Eq.trans ?_ (h.nonDPut.trans (congrArg _ (complete_totals d w c Q).2.symm))
    rw [complete_eq]
  · intro c' w' hc'
    rw [hcounters] at hc'
    have hne : c' ≠ c := by
      rintro rfl
      exact absurd hc' (by simp)
    rw [update_of_ne hne] at hc'
    refine (h.busy c' w' hc').congr (hput w') (congrFun hlength c') (congrFun hsizes c')
      (by rw [hitems]) fun hp => ?_
    have hw : w' ≠ w := by
      rintro rfl
      exact hne (h.counter_unique hc hc' hp)
    rw [hitems, if_neg hw]
    exact ⟨rfl, rfl⟩
  · intro a ha hdput
    rw [hput] at hdput
    have hremaining := h.remaining a ha hdput
    have hsum := houtstanding a
    rw [hitems]
    by_cases haw : a = w
    · subst haw
      rw [if_pos hc] at hsum
      simp only [if_true]
      omega
    · have hcw : d.counterWorkItems c ≠ some a := by
        rw [hc]
        exact fun heq => haw (some.inj heq).symm
      rw [if_neg hcw] at hsum
      simp only [if_neg haw]
      omega
  · intro a ha
    rw [hitems]
    exact h.fits a ha
  · rw [complete_eq]
    exact h.sized

theorem Balanced.lengthCompleted_eq
    (hpace : (d.items w).paceIt = true) : d.lengthCompleted c = d.length c := by
  have hbusy := h.busy c w hc
  have hlt := hbusy.paced hpace
  rw [Data.lengthCompleted, hbusy.size]
  have hmsb : (BitVec.ofNat 32 (d.length c)).msb = false := by
    rw [BitVec.msb_eq_false_iff_two_mul_lt, BitVec.toNat_ofNat, Nat.mod_eq_of_lt (by omega)]
    omega
  rw [BitVec.signExtend_eq_setWidth_of_msb_false hmsb, BitVec.toNat_setWidth, BitVec.toNat_ofNat]
  omega

theorem Balanced.advance (hpace : (d.items w).paceIt = true) : d.advance w c = d.complete w c := by
  have hlength : (d.releaseCounter w c).lengthCompleted c = (d.releaseCounter w c).length c := by
    rw [releaseCounter_eq]
    exact h.lengthCompleted_eq hc hpace
  simp only [Data.advance, Data.complete, hlength]

theorem Balanced.done (hdone : (d.items w).paceIt = false ∨
      (d.items w).remainingCompletionLength ≤ d.lengthCompleted c) :
    (d.items w).remainingInjectLength = 0 ∧
      (d.items w).remainingCompletionLength = d.length c ∧
      ∀ c', (d.complete w c).counterWorkItems c' ≠ some w := by
  have hbusy := h.busy c w hc
  have hle := le_outstanding hbusy.lt hc
  have hremaining := h.remaining w (mem_queued_of_active hbusy.active) hbusy.put
  have hboth : (d.items w).remainingInjectLength = 0 ∧
      (d.items w).remainingCompletionLength = d.length c := by
    cases hpace : (d.items w).paceIt with
    | false =>
      obtain ⟨hinject, hlength⟩ := hbusy.whole hpace
      exact ⟨hinject, hlength.symm⟩
    | true =>
      have hlast := hdone.resolve_left (by simp [hpace])
      rw [h.lengthCompleted_eq hc hpace] at hlast
      omega
  refine ⟨hboth.1, hboth.2, ?_⟩
  -- A counter that is still in use would count bytes that are left to complete.
  intro c' hc'
  have hcomplete := h.complete hc
  have hbusy' := hcomplete.busy c' w hc'
  have hle' := le_outstanding hbusy'.lt hc'
  have hremaining' := hcomplete.remaining w (mem_queued_of_active hbusy'.active) hbusy'.put
  have hpos := hbusy'.pos
  rw [complete_items, if_pos rfl] at hremaining'
  simp only at hremaining'
  omega

end

theorem retire_eq (cfg : Config) (d : Data) (w c : Nat) (ps : List Nat) :
    ∃ p limits, (d.pacing.Sized → p.Sized) ∧ d.retire cfg w c ps = { d with
      numActivePacedCounters := d.numActivePacedCounters - if (d.items w).paceIt then 1 else 0
      numActiveCounters := d.numActiveCounters - 1
      counterWorkItems := update d.counterWorkItems c none
      pacing := p
      bytesWaitingToInject := d.bytesWaitingToInject + BitVec.ofNat 64 (d.numBytes (promoted ps))
      numNonDPutWorkItems := d.numNonDPutWorkItems + d.numNonDPut (promoted ps)
      log := d.log ++ [.completed (d.items w).request (d.length c)] ++
        [.retired (d.items w).request]
      limits := limits } := by
  simp only [Data.retire, releaseCounter_eq, promote_eq]
  split
  · exact ⟨_, _, fun hsized => hsized.leave cfg _, rfl⟩
  · exact ⟨_, _, id, rfl⟩

theorem Balanced.retire (h : Balanced cfg (L ++ (w, ps) :: M) d)
    (hc : d.counterWorkItems c = some w) (hdone : (d.items w).paceIt = false ∨
      (d.items w).remainingCompletionLength ≤ d.lengthCompleted c) :
    Balanced cfg (L ++ (promoted ps ++ M)) (d.retire cfg w c ps) := by
  obtain ⟨hinject, -, hidle⟩ := h.done hc hdone
  have hbusy := h.busy c w hc
  have hwaiting : (d.complete w c).waiting w = 0 := by
    rw [Data.waiting, complete_put, if_pos hbusy.put, complete_items]
    exact hinject
  have hzero : (d.complete w c).numNonDPut [(w, ps)] = 0 := by
    simp [Data.numNonDPut, complete_put, hbusy.put]
  obtain ⟨hbytes, hnonDPut⟩ := complete_totals d w c (promoted ps)
  have hnodup := h.nodup
  have hremoved := (h.complete hc).remove hidle hwaiting
  rw [hzero, promote_eq, hbytes, hnonDPut] at hremoved
  obtain ⟨p, limits, hsized, hretire⟩ := retire_eq cfg d w c ps
  rw [hretire]
  refine hremoved.congr ?_ ?_ ?_ ?_ ?_ ?_ ?_ ?_ (hsized h.sized)
  · intro a ha
    have haw : a ≠ w := by
      simp only [queued_append, queued_cons, queued_promoted] at ha hnodup
      grind
    rw [complete_items, if_neg haw, Nat.sub_zero]
  · rw [complete_eq]
  · rw [complete_eq, Nat.cast_zero, Int.sub_zero]
  all_goals rw [complete_eq]

theorem Balanced.nodup_actives (h : Balanced cfg Q d) : (actives Q).Nodup := by
  refine h.nodup.of_cons.sublist ?_
  clear h
  induction Q with
  | nil => exact nil_sublist _
  | cons y Q ih => exact (sublist_append_of_sublist_right ih).cons_cons y.1

theorem eligible_iff : d.eligible w = true ↔ w ≠ dummy ∧ isDPutWorkItem d w = true ∧
    (d.items w).remainingInjectLength ≠ 0 ∧ ¬ ((d.items w).paceIt = true ∧
      d.numActivePacedCounters = (d.pacing.numSubMessageCounters : Int)) := by
  cases hpace : (d.items w).paceIt <;> simp [Data.eligible, hpace, and_assoc]

theorem nextLength_bounds (hsized : d.pacing.Sized)
    (hrest : (d.items w).remainingInjectLength ≠ 0) :
    0 < d.nextLength w ∧ d.nextLength w ≤ (d.items w).remainingInjectLength ∧
      ((d.items w).paceIt = true → d.nextLength w ≤ d.pacing.subRemoteGetSize) ∧
      ((d.items w).paceIt = false → d.nextLength w = (d.items w).remainingInjectLength) := by
  have hpos := hsized.1
  unfold Data.nextLength
  split
  next hpace =>
    refine ⟨by omega, Nat.min_le_right .., fun _ => Nat.min_le_left .., ?_⟩
    rw [hpace]
    exact fun hfalse => absurd hfalse (by simp)
  next hpace =>
    exact ⟨by omega, Nat.le_refl _, fun htrue => absurd htrue hpace, fun _ => rfl⟩

theorem inject_items_of_ne {a : Nat} (ha : a ≠ w) : (d.inject cfg w c).items a = d.items a :=
  update_of_ne ha _ _

theorem inject_items_self : (d.inject cfg w c).items w = { d.items w with
    remainingInjectLength := (d.items w).remainingInjectLength - d.nextLength w
    rgetDescriptor := { (d.items w).rgetDescriptor with paPayload := cfg.counterPayloadPA c }
    payloadDescriptor :=
      (d.nextSubMessage cfg w c).advance d.pacing.subRemoteGetSize } :=
  update_self ..

theorem inject_put (a : Nat) : isDPutWorkItem (d.inject cfg w c) a = isDPutWorkItem d a := by
  by_cases ha : a = w
  · subst ha
    rw [isDPutWorkItem, inject_items_self]
    rfl
  · rw [isDPutWorkItem, inject_items_of_ne ha, isDPutWorkItem]

theorem inject_length (cfg : Config) (c : Nat) (hfits : d.nextLength w < 2 ^ 64) :
    (d.inject cfg w c).length = update d.length c (d.nextLength w) := by
  funext x
  change (update d.counterPayload c _ x).messageLength.toNat = _
  by_cases hx : x = c
  · subst hx
    rw [update_self, update_self]
    exact (BitVec.toNat_ofNat ..).trans (Nat.mod_eq_of_lt hfits)
  · rw [update_of_ne hx, update_of_ne hx]
    rfl

theorem Balanced.inject (h : Balanced cfg Q d) (hw : w ∈ actives Q)
    (heligible : d.eligible w = true) (hfree : d.counterWorkItems c = none)
    (hc : c < cfg.numCounters) : Balanced cfg Q (d.inject cfg w c) := by
  obtain ⟨-, hput, hrest, -⟩ := eligible_iff.mp heligible
  obtain ⟨hpos, hle, hpaced, hwhole⟩ := nextLength_bounds h.sized hrest
  have hqueued := mem_queued_of_active hw
  have hfits : d.nextLength w < 2 ^ 64 := Nat.lt_of_le_of_lt hle (h.fits w hqueued)
  have hlength := inject_length cfg c hfits
  have hcounters : (d.inject cfg w c).counterWorkItems = update d.counterWorkItems c (some w) := rfl
  have hpace : ∀ a, ((d.inject cfg w c).items a).paceIt = (d.items a).paceIt := by
    intro a
    by_cases ha : a = w
    · subst ha
      rw [inject_items_self]
    · rw [inject_items_of_ne ha]
  have houtstanding : ∀ a, (d.inject cfg w c).outstanding cfg a =
      d.outstanding cfg a + if a = w then d.nextLength w else 0 := by
    intro a
    have hsum := sum_range_of_ne hc
      (f := fun x => if d.counterWorkItems x = some a then d.length x else 0)
      (g := fun x => if (d.inject cfg w c).counterWorkItems x = some a then
        (d.inject cfg w c).length x else 0) fun x hx => by
          rw [hcounters, hlength, update_of_ne hx, update_of_ne hx]
    simp only [hcounters, hlength, update_self, hfree] at hsum
    simpa [Data.outstanding, hcounters, hlength, eq_comm] using hsum
  have hothers : ∀ c', d.counterWorkItems c' = some w → (d.items w).paceIt = true := by
    intro c' hc'
    by_contra hfalse
    exact hrest ((h.busy c' w hc').whole (Bool.eq_false_iff.mpr hfalse)).1
  obtain ⟨hactive, hpacedCounters⟩ := h.counters hc hcounters hpace
    (by rw [hfree]; exact Int.add_zero _) (by
      have hnum : (d.inject cfg w c).numActivePacedCounters = if (d.items w).paceIt then
        d.numActivePacedCounters + 1 else d.numActivePacedCounters := rfl
      rw [Data.isPaced, hfree, hnum]
      cases hp : (d.items w).paceIt <;> simp [hp])
  refine ⟨h.nodup, ?_, ?_, hactive, hpacedCounters, ?_, ?_, ?_, h.sized⟩
  · have hother : ∀ a ≠ w, (d.inject cfg w c).waiting a = d.waiting a := fun a ha => by
      rw [Data.waiting, inject_put, inject_items_of_ne ha, Data.waiting]
    have hself : (d.inject cfg w c).waiting w = (d.items w).remainingInjectLength -
        d.nextLength w := by
      rw [Data.waiting, inject_put, if_pos hput, inject_items_self]
    have hold : d.waiting w = (d.items w).remainingInjectLength := if_pos hput
    have hsum := sum_map_of_ne h.nodup_actives hw hother
    have hbytes : (d.inject cfg w c).bytesWaitingToInject =
        d.bytesWaitingToInject - BitVec.ofNat 64 (d.nextLength w) := rfl
    have htotal : ((actives Q).map d.waiting).sum =
        ((actives Q).map (d.inject cfg w c).waiting).sum + d.nextLength w := by omega
    rw [hbytes, h.bytes, htotal, BitVec.ofNat_add, BitVec.add_sub_cancel]
  · simp only [inject_put]
    exact h.nonDPut
  · intro c' w' hc'
    rw [hcounters] at hc'
    by_cases hcc : c' = c
    · subst hcc
      rw [update_self] at hc'
      cases hc'
      refine ⟨hc, hw, ?_, ?_, ?_, ?_, ?_⟩
      · rw [inject_put]
        exact hput
      · rw [hlength, update_self]
        exact hpos
      · rw [hlength, update_self]
        exact update_self ..
      · rw [hlength, update_self, hpace]
        exact fun hp => Nat.lt_of_le_of_lt (hpaced hp) h.sized.2
      · rw [hlength, update_self, hpace]
        intro hp
        have hnone : d.outstanding cfg w = 0 := Finset.sum_eq_zero fun x _ =>
          if_neg fun hx => absurd (hothers x hx) (by simp [hp])
        have hremaining := h.remaining w hqueued hput
        have hlast := hwhole hp
        rw [inject_items_self]
        simp only
        omega
    · rw [update_of_ne hcc] at hc'
      refine (h.busy c' w' hc').congr (inject_put w') (by rw [hlength, update_of_ne hcc])
        (update_of_ne hcc _ _) (hpace w') fun hp => ?_
      have hww : w' ≠ w := by
        rintro rfl
        exact absurd (hothers c' hc') (by simp [hp])
      rw [inject_items_of_ne hww]
      exact ⟨rfl, rfl⟩
  · intro a ha hdput
    rw [inject_put] at hdput
    have hremaining := h.remaining a ha hdput
    have hsum := houtstanding a
    by_cases haw : a = w
    · subst haw
      rw [if_pos rfl] at hsum
      rw [inject_items_self, hsum]
      simp only
      omega
    · rw [if_neg haw] at hsum
      rw [inject_items_of_ne haw, hsum]
      exact hremaining
  · intro a ha
    by_cases haw : a = w
    · subst haw
      rw [inject_items_self]
      exact Nat.lt_of_le_of_lt (Nat.sub_le ..) (h.fits a ha)
    · rw [inject_items_of_ne haw]
      exact h.fits a ha

theorem send_items (d : Data) (w a : Nat) : (d.send w).items a = { d.items a with
    ensureComplete := (d.items a).ensureComplete || decide (a = w) } := by
  change update d.items w _ a = _
  by_cases ha : a = w
  · subst ha
    simp
  · rw [update_of_ne ha]
    simp [ha]

theorem send_put (d : Data) (w a : Nat) : isDPutWorkItem (d.send w) a = isDPutWorkItem d a := by
  rw [isDPutWorkItem, send_items, isDPutWorkItem]

theorem sendOff_eq (d : Data) (w : Nat) (ps : List Nat) : d.sendOff w ps = { d with
    items := (d.send w).items
    bytesWaitingToInject := d.bytesWaitingToInject + BitVec.ofNat 64 (d.numBytes (promoted ps))
    numNonDPutWorkItems := d.numNonDPutWorkItems + d.numNonDPut (promoted ps) - 1
    log := d.log ++ [.sent (d.items w).request] ++ [.retired (d.items w).request] } := by
  obtain ⟨hbytes, hnonDPut⟩ := totals_congr (Q := promoted ps) (d := d) fun a _ =>
    ⟨send_put d w a, by rw [send_items]⟩
  simp only [Data.sendOff, promote_eq, hbytes, hnonDPut]
  rfl

theorem Balanced.send (h : Balanced cfg (L ++ (w, ps) :: M) d) (hput : isDPutWorkItem d w = false) :
    Balanced cfg (L ++ (promoted ps ++ M)) (d.sendOff w ps) := by
  have hidle : ∀ c, d.counterWorkItems c ≠ some w := fun c hc =>
    absurd (h.busy c w hc).put (by simp [hput])
  have hwaiting : d.waiting w = 0 := if_neg (by simp [hput])
  have hone : d.numNonDPut [(w, ps)] = 1 := by simp [Data.numNonDPut, hput]
  have hnodup := h.nodup
  have hremoved := h.remove hidle hwaiting
  rw [hone, promote_eq] at hremoved
  rw [sendOff_eq]
  refine hremoved.congr ?_ rfl rfl rfl rfl rfl rfl rfl h.sized
  intro a ha
  have haw : a ≠ w := by
    simp only [queued_append, queued_cons, queued_promoted] at ha hnodup
    grind
  rw [send_items]
  simp [haw]

theorem Balanced.fill (h : Balanced cfg Q d) (hw : w ∉ dummy :: queued Q) (r : Request) :
    Balanced cfg Q (d.fill cfg w r) ∧
      ((d.fill cfg w r).items w).remainingCompletionLength =
        ((d.fill cfg w r).items w).remainingInjectLength ∧
      ((d.fill cfg w r).items w).remainingInjectLength < 2 ^ 64 := by
  obtain ⟨i, p, limits, hfresh, hsized, hfill⟩ := fill_eq cfg w r h.sized
  have hitem : (d.fill cfg w r).items w = i := by
    rw [hfill]
    exact update_self ..
  rw [hitem, hfresh.completion, hfresh.inject]
  refine ⟨?_, rfl, BitVec.isLt _⟩
  rw [hfill]
  refine h.congr ?_ rfl rfl rfl rfl rfl rfl rfl hsized
  intro a ha
  refine update_of_ne ?_ _ _
  rintro rfl
  exact hw (mem_cons_of_mem _ ha)

theorem Transition.balanced {a : Option Request} {Q' : List Queue} (ht : Transition cfg a Q d Q' d')
    (h : Balanced cfg Q d) : Balanced cfg Q' d' := by
  cases ht with
  | @start L M _ w r hw hx =>
    obtain ⟨hfilled, hrem, hfits⟩ := h.fill hw r
    exact hfilled.start hw hrem hfits
  | @follow L M _ w x ps r hw hx =>
    obtain ⟨hfilled, hrem, hfits⟩ := h.fill hw r
    exact hfilled.follow hw hrem hfits
  | receive counters => exact h.congr (fun _ _ => rfl) rfl rfl rfl rfl rfl rfl rfl h.sized
  | advance hc hzero hmore =>
    rw [h.advance hc (by simpa using (not_or.mp hmore).1)]
    exact h.complete hc
  | retire hc hzero hdone => exact h.retire hc hdone
  | inject hw heligible hfree hc => exact h.inject hw heligible hfree hc
  | send hput => exact h.send hput

end BgqDriver.RgetPacing
