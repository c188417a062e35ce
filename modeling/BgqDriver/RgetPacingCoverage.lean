import BgqDriver.RgetPacingHistory

/-!
The sub-messages of a direct put. While an item serves its request, what has been injected
and what is left to inject make up its bytes, and so do what has completed and what is left
to complete. The next sub-message starts where the last one ended, whatever the sizes in
force were, so the sub-messages cover the bytes of the request once and in order.
-/

namespace BgqDriver.RgetPacing

open Function List BitVec Option Nat
open EventRuns

variable {cfg : Config} {Q Q' L M : List Queue} {d d' : Data} {s : State} {w c n : Nat}
  {ps : List Nat} {r : Request} {log log' : List Event}

def Request.length (r : Request) : Nat := r.payloadDescriptor.messageLength.toNat

/-- The sub-messages injected for request `n`, with the sizes in force -/
def subMessages (log : List Event) (n : Nat) : List (Descriptor × Nat) :=
  log.filterMap fun e => match e with
    | .injected request subMessage size => if request = n then some (subMessage, size) else none
    | _ => none

def total (l : List (Descriptor × Nat)) : Nat := (l.map fun m => m.1.messageLength.toNat).sum

/-- The bytes of request `n` that have completed -/
def completedBytes (log : List Event) (n : Nat) : Nat :=
  (log.map fun e => match e with
    | .completed request length => if request = n then length else 0
    | _ => 0).sum

@[simp]
theorem subMessages_append :
    subMessages (log ++ log') n = subMessages log n ++ subMessages log' n :=
  filterMap_append

@[simp]
theorem completedBytes_append :
    completedBytes (log ++ log') n = completedBytes log n + completedBytes log' n := by
  simp [completedBytes]

theorem subMessages_eq_nil (h : ∀ e ∈ log, e.request ≠ n) : subMessages log n = [] := by
  refine filterMap_eq_nil_iff.mpr fun e he => ?_
  cases e with
  | injected request subMessage size => exact if_neg (h _ he)
  | completed request length | sent request | retired request => rfl

theorem completedBytes_eq_zero (h : ∀ e ∈ log, e.request ≠ n) : completedBytes log n = 0 := by
  refine sum_eq_zero fun x hx => ?_
  obtain ⟨e, he, rfl⟩ := mem_map.mp hx
  cases e with
  | injected request subMessage size => rfl
  | completed request length => exact if_neg (h _ he)
  | sent request | retired request => rfl

structure Descriptor.At (r : Request) (offset : Nat) (m : Descriptor) : Prop where
  address : m.paPayload = r.payloadDescriptor.paPayload + BitVec.ofNat 64 offset
  putOffset : m.putOffset = r.payloadDescriptor.putOffset + BitVec.ofNat 37 offset

theorem putOffset_toNat (m : Descriptor) :
    m.putOffset.toNat = m.putOffsetMSB.toNat * 2 ^ 32 + m.putOffsetLSB.toNat := by
  rw [Descriptor.putOffset, toNat_append, ← shiftLeft_add_eq_or_of_lt (isLt _),
    Nat.shiftLeft_eq]

theorem wide_putOffset (m : Descriptor) :
    (m.putOffsetLSB.setWidth 64 ||| (m.putOffsetMSB.setWidth 64 <<< 32)).toNat =
      m.putOffset.toNat := by
  have hLSB := m.putOffsetLSB.isLt
  rw [putOffset_toNat, toNat_or, toNat_shiftLeft, toNat_setWidth,
    toNat_setWidth, Nat.or_comm, mod_eq_of_lt (by omega), mod_eq_of_lt (by omega),
    Nat.shiftLeft_eq, mod_eq_of_lt (by omega), ← Nat.shiftLeft_eq,
    ← shiftLeft_add_eq_or_of_lt hLSB]

theorem putOffset_advance (m : Descriptor) (size : Nat) :
    (m.advance size).putOffset = m.putOffset + BitVec.ofNat 37 size := by
  refine eq_of_toNat_eq ?_
  have hwide := wide_putOffset m
  rw [putOffset_toNat]
  simp only [Descriptor.advance, toNat_add, toNat_ofNat, toNat_setWidth,
    toNat_ushiftRight, hwide, shiftRight_eq_div_pow]
  omega

theorem Descriptor.At.advance {offset : Nat} {m : Descriptor} (h : m.At r offset) (size : Nat) :
    (m.advance size).At r (offset + size) := by
  constructor
  · change m.paPayload + _ = _
    rw [h.address, BitVec.add_assoc, ofNat_add]
  · rw [putOffset_advance, h.putOffset, BitVec.add_assoc, ofNat_add]

def Tiles (cfg : Config) (r : Request) : Nat → List (Descriptor × Nat) → Prop
  | _, [] => True
  | offset, m :: l => m.1.At r offset ∧
      (cfg.paceRgets = true → m.1.messageLength.toNat ≤ m.2) ∧
      Tiles cfg r (offset + m.1.messageLength.toNat) l

theorem tiles_concat {offset : Nat} {l : List (Descriptor × Nat)} {m : Descriptor × Nat}
    (h : Tiles cfg r offset l) (hat : m.1.At r (offset + total l))
    (hsize : cfg.paceRgets = true → m.1.messageLength.toNat ≤ m.2) :
    Tiles cfg r offset (l ++ [m]) := by
  induction l generalizing offset with
  | nil => exact ⟨hat, hsize, trivial⟩
  | cons a l ih =>
    obtain ⟨hfirst, hbound, hrest⟩ := h
    refine ⟨hfirst, hbound, ih hrest ?_⟩
    rw [Nat.add_assoc]
    exact hat

structure Progress (r : Request) (log : List Event) (i : WorkItem) : Prop where
  injected : total (subMessages log i.request) + i.remainingInjectLength = r.length
  completed : completedBytes log i.request + i.remainingCompletionLength = r.length
  unfinished : r.length ≠ 0 → 0 < i.remainingCompletionLength
  next : i.remainingInjectLength ≠ 0 →
    i.payloadDescriptor.At r (total (subMessages log i.request))

structure Covered (cfg : Config) (Q : List Queue) (d : Data) : Prop where
  tiles : ∀ n r, d.arrivals[n]? = some r → r.payloadDescriptor.isDPut = true →
    Tiles cfg r 0 (subMessages d.log n)
  serving : ∀ w ∈ queued Q, ∀ r, d.arrivals[(d.items w).request]? = some r →
    r.payloadDescriptor.isDPut = true → Progress r d.log (d.items w)
  done : ∀ n r, d.arrivals[n]? = some r → r.payloadDescriptor.isDPut = true →
    .retired n ∈ d.log → total (subMessages d.log n) = r.length ∧ completedBytes d.log n = r.length

theorem Recorded.request_inj (h : Recorded cfg Q d) {a b : Nat} (ha : a ∈ queued Q)
    (hb : b ∈ queued Q) (hab : (d.items a).request = (d.items b).request) : a = b := by
  have hnodup : (requests Q d).Nodup := by
    refine nodup_iff_count_le_one.mpr fun n => ?_
    have honce := h.once n
    split at honce <;> omega
  exact inj_on_of_nodup_map hnodup ha hb hab

theorem Recorded.not_retired (h : Recorded cfg Q d) (hw : w ∈ queued Q) :
    .retired (d.items w).request ∉ d.log := by
  intro hmem
  have honce := h.once (d.items w).request
  have hcount := count_pos_iff.mpr hmem
  have hrequests : 0 < (requests Q d).count (d.items w).request :=
    count_pos_iff.mpr (mem_map_of_mem hw)
  split at honce <;> omega

theorem Covered.touch (h : Covered cfg Q d) (request : Nat) {events : List Event}
    (harrivals : d'.arrivals = d.arrivals) (hlog : d'.log = d.log ++ events)
    (hevents : ∀ e ∈ events, e.request = request)
    (hitems : ∀ a ∈ queued Q', a ∈ queued Q ∧ (d'.items a).request = (d.items a).request ∧
      ((d.items a).request ≠ request → d'.items a = d.items a))
    (htouched : ∀ r, d.arrivals[request]? = some r → r.payloadDescriptor.isDPut = true →
      Tiles cfg r 0 (subMessages d'.log request) ∧
      (∀ a ∈ queued Q', (d.items a).request = request → Progress r d'.log (d'.items a)) ∧
      (.retired request ∈ d'.log → total (subMessages d'.log request) = r.length ∧
        completedBytes d'.log request = r.length)) : Covered cfg Q' d' := by
  have hsame : ∀ n ≠ request, subMessages d'.log n = subMessages d.log n ∧
      completedBytes d'.log n = completedBytes d.log n := by
    intro n hn
    have hother : ∀ e ∈ events, e.request ≠ n := fun e he => by
      rw [hevents e he]
      exact hn.symm
    rw [hlog, subMessages_append, completedBytes_append, subMessages_eq_nil hother,
      completedBytes_eq_zero hother, append_nil]
    exact ⟨rfl, rfl⟩
  constructor
  · intro n r hr hput
    rw [harrivals] at hr
    by_cases hn : n = request
    · subst hn
      exact (htouched r hr hput).1
    · rw [(hsame n hn).1]
      exact h.tiles n r hr hput
  · intro a ha r hr hput
    obtain ⟨hold, hrequest, hitem⟩ := hitems a ha
    rw [harrivals, hrequest] at hr
    by_cases hn : (d.items a).request = request
    · rw [hn] at hr
      exact (htouched r hr hput).2.1 a ha hn
    · have hprogress := h.serving a hold r hr hput
      obtain ⟨hsub, hcompleted⟩ := hsame _ hn
      rw [hitem hn]
      refine ⟨?_, ?_, hprogress.unfinished, ?_⟩
      · rw [hsub]
        exact hprogress.injected
      · rw [hcompleted]
        exact hprogress.completed
      · rw [hsub]
        exact hprogress.next
  · intro n r hr hput hretired
    rw [harrivals] at hr
    by_cases hn : n = request
    · subst hn
      exact (htouched r hr hput).2.2 hretired
    · obtain ⟨hsub, hcompleted⟩ := hsame n hn
      rw [hsub, hcompleted]
      refine h.done n r hr hput ?_
      rw [hlog] at hretired
      rcases mem_append.mp hretired with hold | hnew
      · exact hold
      · exact absurd (hevents _ hnew) hn

theorem Fresh.progress {i : WorkItem} (h : Fresh cfg r n i) (hlog : ∀ e ∈ log, e.request ≠ n) :
    Progress r log i := by
  have hsub : subMessages log i.request = [] := by
    rw [h.request]
    exact subMessages_eq_nil hlog
  have hcompleted : completedBytes log i.request = 0 := by
    rw [h.request]
    exact completedBytes_eq_zero hlog
  constructor
  · rw [hsub, h.inject]
    exact Nat.zero_add _
  · rw [hcompleted, h.completion]
    exact Nat.zero_add _
  · rw [h.completion]
    exact Nat.pos_of_ne_zero
  · intro _
    rw [hsub]
    exact ⟨h.address.trans (BitVec.add_zero _).symm, h.offset.trans (BitVec.add_zero _).symm⟩

theorem Covered.arrive (h : Covered cfg Q d) (hrecorded : Recorded cfg Q d)
    (hsized : d.pacing.Sized) (active : Bool) (hw : w ∉ queued Q)
    (hperm : (queued Q').Perm (w :: queued Q)) : Covered cfg Q' (d.setup cfg w r active) := by
  obtain ⟨i, p, limits, bytes, m, hfresh, hsetup⟩ := setup_eq cfg w r active hsized
  rw [hsetup]
  have hnone : ∀ e ∈ d.log, e.request ≠ d.arrivals.length :=
    fun e he => Nat.ne_of_lt (hrecorded.known e he)
  -- A request of the longer list is the new one or has arrived before.
  have hcases : ∀ n r', (d.arrivals ++ [r])[n]? = some r' →
      (n = d.arrivals.length ∧ r' = r) ∨ d.arrivals[n]? = some r' := by
    intro n r' hr'
    rcases Nat.lt_or_ge n d.arrivals.length with hlt | hge
    · rw [getElem?_append_left hlt] at hr'
      exact .inr hr'
    · have hn : n = d.arrivals.length := by
        have hlt := (List.getElem?_eq_some_iff.mp hr').1
        rw [length_append, length_singleton] at hlt
        omega
      subst hn
      rw [getElem?_concat_length] at hr'
      exact .inl ⟨rfl, (some.inj hr').symm⟩
  constructor
  · intro n r' hr' hput
    rcases hcases n r' hr' with ⟨rfl, rfl⟩ | hold
    · rw [subMessages_eq_nil hnone]
      trivial
    · exact h.tiles n r' hold hput
  · intro a ha r' hr' hput
    change (d.arrivals ++ [r])[(update d.items w i a).request]? = some r' at hr'
    change Progress r' d.log (update d.items w i a)
    rcases mem_cons.mp (hperm.mem_iff.mp ha) with rfl | ha
    · rw [update_self, hfresh.request, getElem?_concat_length] at hr'
      cases hr'
      rw [update_self]
      exact hfresh.progress hnone
    · have haw : a ≠ w := by
        rintro rfl
        exact hw ha
      rw [update_of_ne haw, getElem?_append_left (hrecorded.request_lt ha)] at hr'
      rw [update_of_ne haw]
      exact h.serving a ha r' hr' hput
  · intro n r' hr' hput hretired
    rcases hcases n r' hr' with ⟨rfl, rfl⟩ | hold
    · exact absurd rfl (hnone _ hretired)
    · exact h.done n r' hold hput hretired

theorem Covered.complete (h : Covered cfg Q d) (hrecorded : Recorded cfg Q d) (hw : w ∈ queued Q)
    (hmore : d.length c < (d.items w).remainingCompletionLength) :
    Covered cfg Q (d.complete w c) := by
  have hlog : (d.complete w c).log = d.log ++ [.completed (d.items w).request (d.length c)] := by
    rw [complete_eq]
  refine h.touch (d.items w).request (by rw [complete_eq]) hlog (by simp [Event.request]) ?_ ?_
  · refine fun a ha => ⟨ha, (complete_sameRequest d w c a).request, fun hne => ?_⟩
    have haw : a ≠ w := fun haw => hne (by rw [haw])
    rw [complete_items, if_neg haw, Nat.sub_zero]
  · intro r hr hput
    have hprogress := h.serving w hw r hr hput
    have hsub : subMessages (d.complete w c).log (d.items w).request =
        subMessages d.log (d.items w).request := by
      rw [hlog, subMessages_append]
      exact append_nil _
    have hbytes : completedBytes (d.complete w c).log (d.items w).request =
        completedBytes d.log (d.items w).request + d.length c := by
      rw [hlog, completedBytes_append]
      simp [completedBytes]
    refine ⟨?_, ?_, ?_⟩
    · rw [hsub]
      exact h.tiles _ r hr hput
    · intro a ha hrequest
      obtain rfl := hrecorded.request_inj ha hw hrequest
      have hcompleted := hprogress.completed
      rw [complete_items, if_pos rfl]
      constructor
      · rw [hsub]
        exact hprogress.injected
      · rw [hbytes]
        simp only
        omega
      · intro _
        exact Nat.sub_pos_of_lt hmore
      · rw [hsub]
        exact hprogress.next
    · intro hretired
      rw [hlog] at hretired
      exact absurd (by simpa using hretired) (hrecorded.not_retired hw)

theorem Covered.remove (h : Covered cfg (L ++ (w, ps) :: M) d)
    (hnodup : (queued (L ++ (w, ps) :: M)).Nodup)
    (hrecorded : Recorded cfg (L ++ (promoted ps ++ M)) d') (harrivals : d'.arrivals = d.arrivals)
    {events : List Event} (hlog : d'.log = d.log ++ events)
    (hevents : ∀ e ∈ events, e.request = (d.items w).request)
    (hretired : .retired (d.items w).request ∈ events) (hitems : ∀ a ≠ w, d'.items a = d.items a)
    (hdone : ∀ r, d.arrivals[(d.items w).request]? = some r →
      r.payloadDescriptor.isDPut = true →
      Tiles cfg r 0 (subMessages d'.log (d.items w).request) ∧
      total (subMessages d'.log (d.items w).request) = r.length ∧
      completedBytes d'.log (d.items w).request = r.length) :
    Covered cfg (L ++ (promoted ps ++ M)) d' := by
  have hqueued : ∀ a ∈ queued (L ++ (promoted ps ++ M)),
      a ∈ queued (L ++ (w, ps) :: M) ∧ a ≠ w := by
    intro a ha
    simp only [queued_append, queued_cons, queued_promoted] at ha hnodup ⊢
    grind
  refine h.touch (d.items w).request harrivals hlog hevents ?_ ?_
  · intro a ha
    obtain ⟨hold, haw⟩ := hqueued a ha
    rw [hitems a haw]
    exact ⟨hold, rfl, fun _ => rfl⟩
  · intro r hr hput
    obtain ⟨htiles, hall⟩ := hdone r hr hput
    refine ⟨htiles, ?_, fun _ => hall⟩
    intro a ha hrequest
    have hopen := hrecorded.not_retired ha
    rw [hitems a (hqueued a ha).2, hrequest, hlog] at hopen
    exact absurd (mem_append_right _ hretired) hopen

theorem Covered.inject (h : Covered cfg Q d) (hrecorded : Recorded cfg Q d)
    (hbalanced : Balanced cfg Q d) (hw : w ∈ queued Q)
    (hrest : (d.items w).remainingInjectLength ≠ 0) : Covered cfg Q (d.inject cfg w c) := by
  obtain ⟨hpos, hle, hpaced, hunpaced⟩ := nextLength_bounds hbalanced.sized hrest
  have hlength : (d.nextSubMessage cfg w c).messageLength.toNat = d.nextLength w :=
    (toNat_ofNat ..).trans (mod_eq_of_lt (Nat.lt_of_le_of_lt hle (hbalanced.fits w hw)))
  have hlog : (d.inject cfg w c).log = d.log ++
    [.injected (d.items w).request (d.nextSubMessage cfg w c) d.pacing.subRemoteGetSize] := rfl
  refine h.touch (d.items w).request rfl hlog (by simp [Event.request]) ?_ ?_
  · refine fun a ha => ⟨ha, (inject_sameRequest cfg d w c a).request, fun hne => ?_⟩
    exact inject_items_of_ne fun haw => hne (by rw [haw])
  · intro r hr hput
    have hprogress := h.serving w hw r hr hput
    have hat : (d.nextSubMessage cfg w c).At r (total (subMessages d.log (d.items w).request)) :=
      ⟨(hprogress.next hrest).address, (hprogress.next hrest).putOffset⟩
    have hsub : subMessages (d.inject cfg w c).log (d.items w).request =
        subMessages d.log (d.items w).request ++
          [(d.nextSubMessage cfg w c, d.pacing.subRemoteGetSize)] := by
      rw [hlog, subMessages_append]
      simp [subMessages]
    have htotal : total (subMessages (d.inject cfg w c).log (d.items w).request) =
        total (subMessages d.log (d.items w).request) + d.nextLength w := by
      rw [hsub, ← hlength]
      simp [total]
    have hbytes : completedBytes (d.inject cfg w c).log (d.items w).request =
        completedBytes d.log (d.items w).request := by
      rw [hlog, completedBytes_append]
      rfl
    obtain ⟨r', -, hserves⟩ := hrecorded.serves w hw
    refine ⟨?_, ?_, ?_⟩
    · rw [hsub]
      refine tiles_concat (h.tiles _ r hr hput) ?_ ?_
      · rw [Nat.zero_add]
        exact hat
      · intro hpace
        rw [hlength]
        exact hpaced (hserves.paceIt.trans hpace)
    · intro a ha hrequest
      obtain rfl := hrecorded.request_inj ha hw hrequest
      have hinjected := hprogress.injected
      rw [inject_items_self]
      refine ⟨?_, ?_, hprogress.unfinished, ?_⟩
      · rw [htotal]
        simp only
        omega
      · rw [hbytes]
        exact hprogress.completed
      · -- Something is left only if the sub-message had the full size.
        intro hleft
        have hsize : d.nextLength a = d.pacing.subRemoteGetSize := by
          simp only at hleft
          cases hpace : (d.items a).paceIt with
          | false =>
            rw [hunpaced hpace] at hleft
            omega
          | true =>
            have hdef : d.nextLength a =
                min d.pacing.subRemoteGetSize (d.items a).remainingInjectLength := if_pos hpace
            omega
        rw [htotal]
        simp only [hsize]
        exact hat.advance _
    · intro hretired
      rw [hlog] at hretired
      exact absurd (by simpa using hretired) (hrecorded.not_retired hw)

theorem Transition.covered {a : Option Request} (ht : Transition cfg a Q d Q' d')
    (hbalanced : Balanced cfg Q d) (hrecorded : Recorded cfg Q d) (h : Covered cfg Q d) :
    Covered cfg Q' d' := by
  have hrecorded' := ht.recorded hbalanced hrecorded
  cases ht with
  | @start L M _ w r hw hx =>
    exact h.arrive hrecorded hbalanced.sized true
      (fun hmem => hw (mem_cons_of_mem _ hmem))
      queued_start_perm
  | @follow L M _ w x ps r hw hx =>
    exact h.arrive hrecorded hbalanced.sized false
      (fun hmem => hw (mem_cons_of_mem _ hmem))
      queued_follow_perm
  | receive counters => exact ⟨h.tiles, h.serving, h.done⟩
  | @advance _ _ w c hc hzero hmore =>
    obtain ⟨hpace, hlt⟩ := not_or.mp hmore
    rw [Bool.not_eq_false] at hpace
    rw [hbalanced.lengthCompleted_eq hc hpace] at hlt
    rw [hbalanced.advance hc hpace]
    exact h.complete hrecorded (mem_queued_of_active (hbalanced.busy c w hc).active)
      (Nat.lt_of_not_le hlt)
  | @retire L M _ w c ps hc hzero hdone =>
    obtain ⟨hinject, hcompletion, -⟩ := hbalanced.done hc hdone
    have hw := mem_queued_of_active (hbalanced.busy c w hc).active
    obtain ⟨p, limits, -, hretire⟩ := retire_eq cfg d w c ps
    rw [hretire] at hrecorded' ⊢
    refine h.remove hbalanced.nodup.of_cons hrecorded' rfl (append_assoc ..) ?_ ?_ ?_ ?_
    · simp [Event.request]
    · simp
    · exact fun _ _ => rfl
    · intro r hr hput
      have hprogress := h.serving w hw r hr hput
      have hinjected := hprogress.injected
      have hcompleted := hprogress.completed
      rw [hinject] at hinjected
      rw [hcompletion] at hcompleted
      simp only [subMessages_append, completedBytes_append]
      simp only [subMessages, completedBytes, filterMap_cons, filterMap_nil,
        map_cons, map_nil, append_nil]
      refine ⟨h.tiles _ r hr hput, hinjected, ?_⟩
      simpa [completedBytes] using hcompleted
  | @inject _ _ w c hw heligible hfree hc =>
    exact h.inject hrecorded hbalanced (mem_queued_of_active hw) (eligible_iff.mp heligible).2.2.1
  | @send L M _ w ps hput =>
    rw [sendOff_eq] at hrecorded' ⊢
    refine h.remove hbalanced.nodup.of_cons hrecorded' rfl (append_assoc ..) ?_ ?_ ?_ ?_
    · simp [Event.request]
    · simp
    · intro a haw
      rw [send_items]
      simp [haw]
    · intro r hr hrput
      obtain ⟨r', hr', hserves⟩ := hrecorded.serves w (by simp)
      obtain rfl := some.inj (hr.symm.trans hr')
      exact absurd (hserves.put.trans hrput) (by simpa [isDPutWorkItem] using hput)

theorem init_covered (cfg : Config) : Covered cfg [] (init cfg).data := by
  constructor
  all_goals simp [init]

def Request.offset (r : Request) (m : Descriptor) : Nat :=
  (m.paPayload - r.payloadDescriptor.paPayload).toNat

/-- The bytes of the request that the sub-message sends -/
def Request.bytes (r : Request) (m : Descriptor) : List Nat :=
  range' (r.offset m) m.messageLength.toNat

theorem Descriptor.At.offset_eq {offset : Nat} {m : Descriptor} (h : m.At r offset)
    (hfits : offset < 2 ^ 64) : r.offset m = offset := by
  rw [Request.offset, h.address, BitVec.add_comm, BitVec.add_sub_cancel, toNat_ofNat]
  exact mod_eq_of_lt hfits

theorem Tiles.flatMap_bytes {offset : Nat} {l : List (Descriptor × Nat)}
    (h : Tiles cfg r offset l) (hfits : offset + total l < 2 ^ 64) :
    l.flatMap (fun m => r.bytes m.1) = range' offset (total l) := by
  induction l generalizing offset with
  | nil => rfl
  | cons m l ih =>
    obtain ⟨hat, -, hrest⟩ := h
    have htotal : total (m :: l) = m.1.messageLength.toNat + total l := rfl
    rw [htotal] at hfits ⊢
    rw [flatMap_cons, ih hrest (by omega), Request.bytes, hat.offset_eq (by omega),
      range'_append_1]

theorem Tiles.putOffset_eq {offset : Nat} {l : List (Descriptor × Nat)}
    (h : Tiles cfg r offset l) (hfits : offset + total l < 2 ^ 64) {m : Descriptor × Nat}
    (hm : m ∈ l) : m.1.putOffset = r.payloadDescriptor.putOffset + BitVec.ofNat 37 (r.offset m.1) ∧
      (cfg.paceRgets = true → m.1.messageLength.toNat ≤ m.2) := by
  induction l generalizing offset with
  | nil => exact absurd hm not_mem_nil
  | cons a l ih =>
    obtain ⟨hat, hsize, hrest⟩ := h
    have htotal : total (a :: l) = a.1.messageLength.toNat + total l := rfl
    rcases mem_cons.mp hm with rfl | hm
    · rw [hat.offset_eq (by omega)]
      exact ⟨hat.putOffset, hsize⟩
    · exact ih hrest (by omega) hm

theorem run_covered {labels : List Label} (hrun : run (step cfg) (init cfg) labels = some s) :
    ∃ Q, Recorded cfg Q s.data ∧ Covered cfg Q s.data := by
  obtain ⟨Q, -, -, -, -, h⟩ := run_keeps (P := fun Q d => Recorded cfg Q d ∧ Covered cfg Q d)
    ⟨init_recorded cfg, init_covered cfg⟩
    (fun a Q d Q' d' ht hbalanced h => ⟨ht.recorded hbalanced h.1, ht.covered hbalanced h.1 h.2⟩)
    hrun
  exact ⟨Q, h⟩

theorem Recorded.retired_or_served (h : Recorded cfg Q d) (hn : n < d.arrivals.length) :
    (d.log.count (.retired n) = 1 ∧ .retired n ∈ d.log) ∨
      (d.log.count (.retired n) = 0 ∧ ∃ w ∈ queued Q, (d.items w).request = n) := by
  have honce := h.once n
  rw [if_pos hn] at honce
  rcases Nat.eq_zero_or_pos (d.log.count (.retired n)) with hzero | hpos
  · refine .inr ⟨hzero, ?_⟩
    have hmem : n ∈ requests Q d := count_pos_iff.mp (by omega)
    exact mem_map.mp hmem
  · exact .inl ⟨by omega, count_pos_iff.mp hpos⟩

/-- In every state of a run, the sub-messages of a direct put of some bytes follow each
other from its first byte on, both where they are sent from and where they are received,
and the request is retired, once, when all its bytes have completed. -/
theorem subMessages_cover {labels : List Label}
    (hrun : run (step cfg) (init cfg) labels = some s) (hr : s.data.arrivals[n]? = some r)
    (hput : r.payloadDescriptor.isDPut = true) (hlength : r.length ≠ 0) :
    (subMessages s.data.log n).flatMap (fun m => r.bytes m.1) =
        range (total (subMessages s.data.log n)) ∧
      total (subMessages s.data.log n) ≤ r.length ∧
      (∀ m ∈ subMessages s.data.log n,
        m.1.putOffset = r.payloadDescriptor.putOffset + BitVec.ofNat 37 (r.offset m.1) ∧
        (cfg.paceRgets = true → m.1.messageLength.toNat ≤ m.2)) ∧
      s.data.log.count (.retired n) =
        (if completedBytes s.data.log n = r.length then 1 else 0) ∧
      (.retired n ∈ s.data.log → total (subMessages s.data.log n) = r.length) := by
  obtain ⟨Q, hrecorded, hcovered⟩ := run_covered hrun
  have htiles := hcovered.tiles n r hr hput
  have hle : total (subMessages s.data.log n) ≤ r.length ∧ s.data.log.count (.retired n) =
      (if completedBytes s.data.log n = r.length then 1 else 0) := by
    rcases hrecorded.retired_or_served (List.getElem?_eq_some_iff.mp hr).1 with
      ⟨hone, hretired⟩ | ⟨hzero, w, hw, rfl⟩
    · obtain ⟨hinjected, hcompleted⟩ := hcovered.done n r hr hput hretired
      rw [if_pos hcompleted]
      exact ⟨Nat.le_of_eq hinjected, hone⟩
    · have hprogress := hcovered.serving w hw r hr hput
      have hpos := hprogress.unfinished hlength
      have hinjected := hprogress.injected
      have hcompleted := hprogress.completed
      rw [if_neg (by omega)]
      exact ⟨by omega, hzero⟩
  have hfits : 0 + total (subMessages s.data.log n) < 2 ^ 64 := by
    rw [Nat.zero_add]
    exact Nat.lt_of_le_of_lt hle.1 (isLt _)
  refine ⟨?_, hle.1, fun m hm => htiles.putOffset_eq hfits hm, hle.2, ?_⟩
  · rw [htiles.flatMap_bytes hfits, range_eq_range']
  · exact fun hretired => (hcovered.done n r hr hput hretired).1

def sampleLabels : List Label :=
  [.request (sampleRequest 0 0 40), .work true true, .work true true, .work true true,
    .receive 0 32, .receive 1 8, .work true true, .work true true, .work true true, .work true true]

theorem subMessages_cover_retired : ∃ s r, run (step sampleConfig) (init sampleConfig)
      sampleLabels = some s ∧ s.data.arrivals[0]? = some r ∧
    total (subMessages s.data.log 0) = 40 ∧
    (subMessages s.data.log 0).flatMap (fun m => r.bytes m.1) =
      range (total (subMessages s.data.log 0)) ∧
    s.data.log.count (.retired 0) =
      (if completedBytes s.data.log 0 = r.length then 1 else 0) := by
  have hvalues : (run (step sampleConfig) (init sampleConfig) sampleLabels).map (fun s =>
      (s.data.arrivals[0]?, total (subMessages s.data.log 0))) =
        some (some (sampleRequest 0 0 40), 40) := by decide
  obtain ⟨s, hrun, hs⟩ := map_eq_some_iff.mp hvalues
  obtain ⟨harrived, htotal⟩ := Prod.mk.inj hs
  obtain ⟨hbytes, -, -, hretired, -⟩ :=
    subMessages_cover hrun harrived (by decide) (by decide)
  exact ⟨s, _, hrun, harrived, htotal, hbytes, hretired⟩

/-- Without pacing a sub-message exceeds the sub-message size, and a direct put without
bytes is not retired by a whole call of `doRemoteGetPacingWork`. -/
theorem subMessages_unpaced_and_empty : (∃ s, run (step { sampleConfig with paceRgets := false })
        (init { sampleConfig with paceRgets := false })
        [.request (sampleRequest 0 0 40), .work true true, .work true true] = some s ∧
      (subMessages s.data.log 0).map (fun m => (m.1.messageLength.toNat, m.2)) = [(40, 32)]) ∧
    ∃ s, run (step sampleConfig) (init sampleConfig)
        [.request (sampleRequest 0 0 0), .work true true, .work true true] = some s ∧
      s.control = .idle ∧ s.data.arrivals.map Request.length = [0] ∧
      completedBytes s.data.log 0 = 0 ∧ s.data.log.count (.retired 0) = 0 := by
  constructor
  · exact exists_of_map_run
      (fun s => (subMessages s.data.log 0).map fun m => (m.1.messageLength.toNat, m.2)) [(40, 32)]
      (by decide) fun _ _ hs => hs
  · refine exists_of_map_run (fun s => (s.control, s.data.arrivals.map Request.length,
      completedBytes s.data.log 0, s.data.log.count (.retired 0))) (.idle, [0], 0, 0) (by decide)
      fun s _ hs => ?_
    simpa only [Prod.mk.injEq] using hs

end BgqDriver.RgetPacing
