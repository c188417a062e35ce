import Mathlib.Algebra.GroupWithZero.Nat
import BgqDriver.DbTransactionsReplay
import Mathlib.Data.List.Infix

/-!
What the transactions hand on, compared with a ledger that keeps for every id the changes
since its last end. The map of the transactions agrees with the ledger as long as the
comparison of the ids tells the id of a record from those of the other open transactions.
-/

namespace BgqDriver.DbTransactions

open EventRuns List Option Transaction Function Prod Int

variable {σ : Type}

inductive Event (σ : Type)
  | change (tid : Tid) (change : Change σ)
  | commit (tid : Tid)
  | rollback (tid : Tid)

def Event.tid : Event σ → Tid
  | .change tid _ => tid
  | .commit tid => tid
  | .rollback tid => tid

def Record.tid : Record σ → Tid
  | .normal tid _ _ => tid
  | .commit tid => tid
  | .rollback tid => tid
  | .compensation tid => tid
  | .other tid => tid

/-- What a record means for its transaction -/
def Record.events : Record σ → List (Event σ)
  | .normal tid change commits =>
    (change.map (Event.change tid)).toList ++ if commits then [.commit tid] else []
  | .commit tid => [.commit tid]
  | .rollback tid => [.rollback tid]
  | .compensation _ => []
  | .other _ => []

structure Ledger (σ : Type) where
  /-- The changes recorded for an id since its last end -/
  recorded : Tid → List (Change σ)
  /-- The transactions in order of commit -/
  committed : List (Tid × List (Change σ))

open Ledger

def Ledger.note (l : Ledger σ) : Event σ → Ledger σ
  | .change tid change =>
    { l with recorded := update l.recorded tid (l.recorded tid ++ [change]) }
  | .commit tid =>
    { recorded := update l.recorded tid []
      committed := l.committed ++ [(tid, l.recorded tid)] }
  | .rollback tid => { l with recorded := update l.recorded tid [] }

/-- The ledger of a log -/
def ledger (events : List (Event σ)) : Ledger σ := events.foldl note ⟨fun _ => [], []⟩

theorem ledger_concat (events : List (Event σ)) (event : Event σ) :
    ledger (events ++ [event]) = (ledger events).note event := by
  simp only [ledger, foldl_append, foldl_cons, foldl_nil]

theorem recorded_note_change (l : Ledger σ) (tid : Tid) (change : Change σ) :
    (l.note (.change tid change)).recorded =
      update l.recorded tid (l.recorded tid ++ [change]) := rfl

/-- What has to be handed on: the merged changes of every committed transaction -/
def Ledger.merged (l : Ledger σ) : List (Change σ) :=
  (l.committed.map snd).flatMap mergeAll

/-- No transaction gets more merged changes than the limit. -/
def WithinLimit (maxSize : Nat) (events : List (Event σ)) : Prop :=
  ∀ p ∈ events.inits, ∀ event ∈ events,
    (mergeAll ((ledger p).recorded event.tid)).length ≤ maxSize

instance (maxSize : Nat) (events : List (Event σ)) :
    Decidable (WithinLimit maxSize events) :=
  inferInstanceAs (Decidable (∀ p ∈ events.inits, ∀ event ∈ events, _))

theorem WithinLimit.left {maxSize : Nat} {events rest : List (Event σ)}
    (h : WithinLimit maxSize (events ++ rest)) :
    WithinLimit maxSize events := by
  intro p hp event hevent
  refine h p ?_ event (mem_append_left rest hevent)
  rw [mem_inits] at hp ⊢
  exact hp.trans (prefix_append events rest)

variable {a b : Tid} {changes : List (Change σ)} {event : Event σ}

section Compare

variable {memcmp : Tid → Tid → Int}

theorem firstDifference_self (as : List (Fin 256)) : firstDifference as as = 0 := by
  induction as with
  | nil => rfl
  | cons a as ih => simp only [firstDifference, if_true, ih]

theorem firstDifference_swap (as bs : List (Fin 256)) :
    firstDifference bs as = -firstDifference as bs := by
  induction as, bs using firstDifference.induct with
  | case1 a as bs ih => simp only [firstDifference, if_true, ih]
  | case2 a as b bs hne =>
    simp only [firstDifference, if_neg hne, if_neg (Ne.symm hne)]
    omega
  | case3 as bs hcases =>
    rcases as with _ | ⟨a, as⟩
    · cases bs <;> rfl
    · rcases bs with _ | ⟨b, bs⟩
      · rfl
      · exact absurd rfl (hcases a as b bs rfl)

theorem eq_of_firstDifference_eq_zero {as bs : List (Fin 256)} (hlength : as.length = bs.length)
    (h : firstDifference as bs = 0) : as = bs := by
  induction as generalizing bs with
  | nil => exact (length_eq_zero_iff.mp hlength.symm).symm
  | cons a as ih =>
    rcases bs with _ | ⟨b, bs⟩
    · simp at hlength
    · rw [firstDifference] at h
      split at h
      next hab => rw [hab, ih (by simpa using hlength) h]
      next hab => exact absurd (Fin.ext (by omega)) hab

def Tells (memcmp : Tid → Tid → Int) (a b : Tid) : Prop :=
  (memcmp a b < 0 → memcmp a b = -1) ∧ (memcmp b a < 0 → memcmp b a = -1)

instance (memcmp : Tid → Tid → Int) (a b : Tid) : Decidable (Tells memcmp a b) :=
  inferInstanceAs (Decidable (_ ∧ _))

theorem memcmp_self (hmem : IsMemcmp memcmp) (a : Tid) : memcmp a a = 0 := by
  rw [← sign_eq_zero_iff_zero, hmem a a, firstDifference_self, Int.sign_zero]

theorem memcmp_neg_of_ne (hmem : IsMemcmp memcmp) (hne : a ≠ b) :
    memcmp a b < 0 ∨ memcmp b a < 0 := by
  have hdifferent : firstDifference a.toList b.toList ≠ 0 := by
    intro hzero
    exact hne (Vector.toList_inj.mp (eq_of_firstDifference_eq_zero (by simp) hzero))
  have hswap := firstDifference_swap a.toList b.toList
  rcases Int.lt_or_gt_of_ne hdifferent with hlt | hgt
  · left
    rw [← sign_eq_neg_one_iff_neg, hmem, sign_eq_neg_one_iff_neg]
    exact hlt
  · right
    rw [← sign_eq_neg_one_iff_neg, hmem, sign_eq_neg_one_iff_neg]
    omega

theorem equivalent_eq (hmem : IsMemcmp memcmp) (htells : Tells memcmp a b) :
    equivalent memcmp a b = decide (a = b) := by
  by_cases hab : a = b
  · subst hab
    simp [equivalent, tidLt, memcmp_self hmem a]
  · have hless : memcmp a b = -1 ∨ memcmp b a = -1 :=
      (memcmp_neg_of_ne hmem hab).imp htells.1 htells.2
    rcases hless with h | h <;> simp [equivalent, tidLt, h, hab]

/-- The comparison finds the entry of an id, and no other one. -/
def Told (memcmp : Tid → Tid → Int) (tid : Tid) (tmap : TransactionMap σ) : Prop :=
  ∀ entry ∈ tmap, equivalent memcmp tid entry.1 = decide (tid = entry.1)

variable {tid : Tid} {tmap : TransactionMap σ}

section

variable (htold : Told memcmp tid tmap)
include htold

theorem mem_of_find {t : Transaction σ} (h : find memcmp tmap tid = some t) : (tid, t) ∈ tmap := by
  obtain ⟨entry, hentry, rfl⟩ := map_eq_some_iff.mp h
  have hmem := mem_of_find?_eq_some hentry
  have hsame := find?_some hentry
  simp only [htold entry hmem, decide_eq_true_eq] at hsame
  rwa [hsame]

theorem notMem_of_find (h : find memcmp tmap tid = none) : tid ∉ tmap.map fst := by
  rintro hkey
  obtain ⟨entry, hentry, rfl⟩ := mem_map.mp hkey
  have hno := find?_eq_none.mp (map_eq_none_iff.mp h) entry hentry
  simp [htold entry hentry] at hno

section

variable (hnodup : (tmap.map fst).Nodup)
include hnodup

theorem mem_upsert {f : Transaction σ → Transaction σ} {entry : Tid × Transaction σ} :
    entry ∈ upsert memcmp tmap tid f ↔
      (entry ∈ tmap ∧ entry.1 ≠ tid) ∨
        entry = (tid, f ((find memcmp tmap tid).getD empty)) := by
  induction tmap with
  | nil => simp [upsert, find]
  | cons first rest ih =>
    obtain ⟨hfirst, hrest⟩ := nodup_cons.mp hnodup
    have hsame := htold first (by simp)
    by_cases hkey : tid = first.1
    · have hothers : ∀ e ∈ rest, e.1 ≠ tid := by
        intro e he heq
        exact hfirst (mem_map.mpr ⟨e, he, heq.trans hkey⟩)
      rw [decide_eq_true hkey] at hsame
      have hfind : find memcmp (first :: rest) tid = some first.2 := by
        simp only [find, find?_cons, hsame, map_some]
      rw [upsert, if_pos hsame, hfind, getD_some, mem_cons, mem_cons, ← hkey]
      constructor
      · rintro (h | h)
        · exact .inr h
        · exact .inl ⟨.inr h, hothers entry h⟩
      · rintro (⟨rfl | h, hne⟩ | h)
        · exact absurd hkey.symm hne
        · exact .inr h
        · exact .inl h
    · have hfind : find memcmp (first :: rest) tid = find memcmp rest tid := by
        simp [find, hsame, hkey]
      have ih := ih (fun e he => htold e (by simp [he])) hrest
      rw [upsert, hsame, hfind]
      simp only [hkey, decide_false, Bool.false_eq_true, if_false, mem_cons, ih]
      constructor
      · rintro (rfl | ⟨h, hne⟩ | h)
        · exact .inl ⟨.inl rfl, Ne.symm hkey⟩
        · exact .inl ⟨.inr h, hne⟩
        · exact .inr h
      · rintro (⟨rfl | h, hne⟩ | h)
        · exact .inl rfl
        · exact .inr (.inl ⟨h, hne⟩)
        · exact .inr (.inr h)

theorem nodup_upsert
    (f : Transaction σ → Transaction σ) : ((upsert memcmp tmap tid f).map fst).Nodup := by
  induction tmap with
  | nil => simp [upsert]
  | cons first rest ih =>
    obtain ⟨hfirst, hrest⟩ := nodup_cons.mp hnodup
    have htail : Told memcmp tid rest := fun e he => htold e (by simp [he])
    rw [upsert, htold first (by simp)]
    split
    next => exact hnodup
    next hkey =>
      refine nodup_cons.mpr ⟨?_, ih htail hrest⟩
      intro hmem
      obtain ⟨e, he, heq⟩ := mem_map.mp hmem
      rcases (mem_upsert htail hrest).mp he with ⟨he, -⟩ | rfl
      · exact hfirst (mem_map.mpr ⟨e, he, heq⟩)
      · exact hkey (decide_eq_true heq)

theorem erase_eq_filter :
    erase memcmp tmap tid = tmap.filter fun entry => decide (entry.1 ≠ tid) := by
  induction tmap with
  | nil => rfl
  | cons first rest ih =>
    obtain ⟨hfirst, hrest⟩ := nodup_cons.mp hnodup
    have hsame := htold first (by simp)
    by_cases hkey : tid = first.1
    · have hothers : ∀ e ∈ rest, decide (e.1 ≠ tid) = true := by
        intro e he
        rw [decide_eq_true_eq]
        intro heq
        exact hfirst (mem_map.mpr ⟨e, he, heq.trans hkey⟩)
      rw [erase, eraseP_cons_of_pos (by exact hsame.trans (decide_eq_true hkey)),
        filter_cons_of_neg (by simp [hkey]), filter_eq_self.mpr hothers]
    · rw [erase, eraseP_cons_of_neg (by simp [hsame, hkey]),
        filter_cons_of_pos (by simp [Ne.symm hkey])]
      exact congrArg _ (ih (fun e he => htold e (by simp [he])) hrest)

end

end

end Compare

def State.handle (memcmp : Tid → Tid → Int) (maxSize : Nat) (s : State σ) :
    Event σ → State σ
  | .change tid change => s.change memcmp maxSize tid change
  | .commit tid => s.commit memcmp tid
  | .rollback tid => s.rollback memcmp tid

theorem step_eq (memcmp : Tid → Tid → Int) (maxSize : Nat) (s : State σ)
    (record : Record σ) : step memcmp maxSize s record =
      some (record.events.foldl (State.handle memcmp maxSize) s) := by
  cases record with
  | normal tid change commits =>
    cases change with
    | none | some change => cases commits <;> rfl
  | commit tid | rollback tid | compensation tid | other tid => rfl

section Ledger

variable (maxSize : Nat)

def store (changes : List (Change σ)) : Transaction σ :=
  if (mergeAll changes).length ≤ maxSize then ⟨false, mergeAll changes⟩ else ⟨true, []⟩

def Exceeds (changes : List (Change σ)) (change : Change σ) : Prop :=
  (mergeAll changes).length ≤ maxSize ∧
    maxSize < (mergeAll (changes ++ [change])).length

instance (changes : List (Change σ)) (change : Change σ) :
    Decidable (Exceeds maxSize changes change) :=
  inferInstanceAs (Decidable (_ ∧ _))

def Ledger.handed (l : Ledger σ) : Event σ → List (Change σ)
  | .change _ _ => []
  | .commit tid => (store maxSize (l.recorded tid)).commit
  | .rollback _ => []

def Ledger.noticed (l : Ledger σ) : Event σ → List Notice
  | .change tid change =>
    if Exceeds maxSize (l.recorded tid) change then [.maxXactCondition] else []
  | .commit tid => (store maxSize (l.recorded tid)).endNotice.toList
  | .rollback tid => (store maxSize (l.recorded tid)).endNotice.toList

theorem store_nil : store maxSize ([] : List (Change σ)) = empty := by
  simp [store, mergeAll, empty]

theorem length_mergeChange {merged : List (Change σ)} {change : Change σ}
    (h : mergeChange changes change = some merged) : merged.length = changes.length := by
  obtain ⟨earlier, cur, cur', later, rfl, rfl, -⟩ := mergeChange_eq_some h
  simp

theorem store_change (changes : List (Change σ)) (change : Change σ) :
    (store maxSize changes).change maxSize change =
      (store maxSize (changes ++ [change]),
        if Exceeds maxSize changes change then some .maxXactCondition else none) := by
  simp only [store, Exceeds, mergeAll_concat]
  by_cases hfits : (mergeAll changes).length ≤ maxSize
  · rw [if_pos hfits]
    cases hmerged : mergeChange (mergeAll changes) change with
    | some merged =>
      have hlength := length_mergeChange hmerged
      simp [Transaction.change, hmerged, hlength, hfits]
    | none =>
      by_cases hfull : (mergeAll changes).length = maxSize
      · simp [Transaction.change, hmerged, hfull]
      · have hroom : (mergeAll changes ++ [change]).length ≤ maxSize := by
          rw [length_append, length_singleton]
          omega
        rw [getD_none, if_pos hroom, if_neg fun h => Nat.not_lt.mpr hroom h.2]
        simp [Transaction.change, hmerged, hfull]
  · have hlong : ¬((mergeChange (mergeAll changes) change).getD
        (mergeAll changes ++ [change])).length ≤ maxSize := by
      cases hmerged : mergeChange (mergeAll changes) change with
      | some merged =>
        rw [getD_some, length_mergeChange hmerged]
        exact hfits
      | none =>
        rw [getD_none, length_append]
        omega
    simp [Transaction.change, hfits, hlong]

end Ledger

/-- The map has the open transactions of the ledger. -/
structure Matches (maxSize : Nat) (events : List (Event σ))
    (tmap : TransactionMap σ) : Prop where
  nodup : (tmap.map fst).Nodup
  stored : ∀ entry ∈ tmap,
    entry.2 = store maxSize ((ledger events).recorded entry.1)
  missing : ∀ tid, tid ∉ tmap.map fst → (ledger events).recorded tid = []

theorem matches_nil (maxSize : Nat) :
    Matches maxSize [] ([] : TransactionMap σ) where
  nodup := by simp
  stored := by simp
  missing := by
    intro tid _
    rfl

section Handle

variable {memcmp : Tid → Tid → Int} {maxSize : Nat} {events : List (Event σ)} {s : State σ}
  {tid : Tid}

section

variable (hs : Matches maxSize events s.tmap) (htold : Told memcmp tid s.tmap)
include hs htold

theorem Matches.getD_find : (find memcmp s.tmap tid).getD empty =
      store maxSize ((ledger events).recorded tid) := by
  cases hfind : find memcmp s.tmap tid with
  | none => rw [hs.missing tid (notMem_of_find htold hfind), store_nil, getD_none]
  | some t => exact hs.stored _ (mem_of_find htold hfind)

theorem Matches.change (change : Change σ) : Matches maxSize (events ++ [.change tid change])
      (s.change memcmp maxSize tid change).tmap where
  nodup := nodup_upsert htold hs.nodup _
  stored := by
    intro entry hentry
    rw [ledger_concat, recorded_note_change]
    rcases (mem_upsert htold hs.nodup).mp hentry with ⟨hold, hne⟩ | rfl
    · rw [hs.stored entry hold, update_of_ne hne]
    · rw [hs.getD_find htold, store_change, update_self]
  missing := by
    intro other hother
    have hne : other ≠ tid := by
      rintro rfl
      exact hother (mem_map.mpr ⟨_, (mem_upsert htold hs.nodup).mpr (.inr rfl), rfl⟩)
    rw [ledger_concat, recorded_note_change, update_of_ne hne]
    apply hs.missing
    intro hkey
    obtain ⟨entry, hentry, rfl⟩ := mem_map.mp hkey
    exact hother (mem_map.mpr
      ⟨entry, (mem_upsert htold hs.nodup).mpr (.inl ⟨hentry, hne⟩), rfl⟩)

theorem Matches.erase (hevent : ((ledger events).note event).recorded =
      update (ledger events).recorded tid []) :
    Matches maxSize (events ++ [event]) (erase memcmp s.tmap tid) where
  nodup := hs.nodup.sublist (eraseP_sublist.map fst)
  stored := by
    intro entry hentry
    rw [erase_eq_filter htold hs.nodup, mem_filter, decide_eq_true_eq] at hentry
    rw [hs.stored entry hentry.1, ledger_concat, hevent, update_of_ne hentry.2]
  missing := by
    intro other hother
    rw [ledger_concat, hevent]
    by_cases hne : other = tid
    · rw [hne, update_self]
    · rw [update_of_ne hne]
      apply hs.missing
      intro hkey
      obtain ⟨entry, hentry, rfl⟩ := mem_map.mp hkey
      apply hother
      rw [erase_eq_filter htold hs.nodup]
      exact mem_map.mpr ⟨entry, mem_filter.mpr ⟨hentry, by simpa using hne⟩, rfl⟩

end

theorem erase_of_find_eq_none {tmap : TransactionMap σ} (h : find memcmp tmap tid = none) :
    erase memcmp tmap tid = tmap := by
  apply eraseP_of_forall_not
  intro entry hentry
  exact find?_eq_none.mp (map_eq_none_iff.mp h) entry hentry

theorem commit_eq (memcmp : Tid → Tid → Int) (s : State σ) (tid : Tid) : s.commit memcmp tid =
      { tmap := erase memcmp s.tmap tid
        dbChanges := s.dbChanges ++ ((find memcmp s.tmap tid).getD empty).commit
        notices := s.notices ++
          ((find memcmp s.tmap tid).getD empty).endNotice.toList } := by
  cases hfind : find memcmp s.tmap tid with
  | none =>
    simp [State.commit, hfind, erase_of_find_eq_none hfind, empty, Transaction.commit, endNotice]
  | some t => simp [State.commit, hfind]

theorem rollback_eq (memcmp : Tid → Tid → Int) (s : State σ) (tid : Tid) : s.rollback memcmp tid =
      { tmap := erase memcmp s.tmap tid
        dbChanges := s.dbChanges
        notices := s.notices ++
          ((find memcmp s.tmap tid).getD empty).endNotice.toList } := by
  cases hfind : find memcmp s.tmap tid with
  | none =>
    simp [State.rollback, hfind, erase_of_find_eq_none hfind, empty, endNotice]
  | some t => simp [State.rollback, hfind]

section

variable (hs : Matches maxSize events s.tmap) (htold : Told memcmp event.tid s.tmap)
include hs htold

theorem Matches.handle : Matches maxSize (events ++ [event])
      (s.handle memcmp maxSize event).tmap := by
  cases event with
  | change tid change => exact hs.change htold change
  | commit tid =>
    rw [State.handle, commit_eq]
    exact hs.erase htold rfl
  | rollback tid =>
    rw [State.handle, rollback_eq]
    exact hs.erase htold rfl

theorem Matches.handle_dbChanges : (s.handle memcmp maxSize event).dbChanges =
      s.dbChanges ++ (ledger events).handed maxSize event := by
  cases event with
  | change tid change => simp [State.handle, State.change, handed]
  | commit tid =>
    rw [State.handle, commit_eq]
    exact congrArg (fun t => s.dbChanges ++ t.commit) (hs.getD_find htold)
  | rollback tid => simp [State.handle, rollback_eq, handed]

theorem Matches.handle_notices : (s.handle memcmp maxSize event).notices =
      s.notices ++ (ledger events).noticed maxSize event := by
  cases event with
  | change tid change =>
    have hfind := hs.getD_find htold
    rw [Event.tid] at hfind
    simp only [State.handle, State.change, hfind, store_change, noticed]
    split <;> rfl
  | commit tid =>
    rw [State.handle, commit_eq]
    exact congrArg (fun t => s.notices ++ t.endNotice.toList) (hs.getD_find htold)
  | rollback tid =>
    rw [State.handle, rollback_eq]
    exact congrArg (fun t => s.notices ++ t.endNotice.toList) (hs.getD_find htold)

end

theorem Told.handle (hmem : IsMemcmp memcmp) (hnodup : (s.tmap.map fst).Nodup)
    (htold : Told memcmp event.tid s.tmap) :
    Told memcmp event.tid (s.handle memcmp maxSize event).tmap := by
  have herase : Told memcmp event.tid (DbTransactions.erase memcmp s.tmap event.tid) :=
    fun entry hentry => htold entry (mem_of_mem_eraseP hentry)
  cases event with
  | change tid change =>
    intro entry hentry
    rcases (mem_upsert htold hnodup).mp hentry with ⟨hold, -⟩ | rfl
    · exact htold entry hold
    · exact equivalent_eq hmem ⟨by simp [Event.tid, memcmp_self hmem],
        by simp [Event.tid, memcmp_self hmem]⟩
  | commit tid =>
    rw [State.handle, commit_eq]
    exact herase
  | rollback tid =>
    rw [State.handle, rollback_eq]
    exact herase

end Handle

/-- The comparison tells the id of the record from the other open ones: where `memcmp` is
negative for two of them, it is `-1`. -/
def Comparable (memcmp : Tid → Tid → Int) (s : State σ) (record : Record σ) : Prop :=
  ∀ entry ∈ s.tmap, Tells memcmp record.tid entry.1

instance (memcmp : Tid → Tid → Int) (s : State σ) (record : Record σ) :
    Decidable (Comparable memcmp s record) :=
  inferInstanceAs (Decidable (∀ entry ∈ s.tmap, _))

theorem tid_of_mem_events {record : Record σ} (h : event ∈ record.events) :
    event.tid = record.tid := by
  cases record with
  | normal tid change commits =>
    rcases mem_append.mp h with h | h
    · obtain ⟨c, -, rfl⟩ := map_eq_some_iff.mp (mem_toList.mp h)
      rfl
    · cases commits
      · cases h
      · obtain rfl := mem_singleton.mp h
        rfl
  | commit tid | rollback tid => obtain rfl := mem_singleton.mp h; rfl
  | compensation tid | other tid => cases h

theorem commit_store {maxSize : Nat} (h : (mergeAll changes).length ≤ maxSize) :
    (store maxSize changes).commit = mergeAll changes := by
  simp [store, h, Transaction.commit]

theorem merged_ledger_concat {maxSize : Nat} {events : List (Event σ)}
    (hlimit : WithinLimit maxSize (events ++ [event])) :
    (ledger (events ++ [event])).merged =
      (ledger events).merged ++ (ledger events).handed maxSize event := by
  rw [ledger_concat]
  cases event with
  | change tid change | rollback tid => simp [note, Ledger.merged, handed]
  | commit tid =>
    have hfits : (mergeAll ((ledger events).recorded tid)).length ≤ maxSize :=
      hlimit events ((mem_inits _ _).mpr (prefix_append _ _)) (.commit tid) (by simp)
    simp [note, Ledger.merged, handed, commit_store hfits]

structure Follows (maxSize : Nat) (events : List (Event σ)) (s : State σ) : Prop where
  matching : Matches maxSize events s.tmap
  handedOn : s.dbChanges = (ledger events).merged

section Runs

variable {memcmp : Tid → Tid → Int} {maxSize : Nat} {events : List (Event σ)} {s : State σ}

theorem Follows.foldl_handle (hmem : IsMemcmp memcmp) (hs : Follows maxSize events s)
    {tid : Tid} (htold : Told memcmp tid s.tmap) {more : List (Event σ)}
    (htid : ∀ e ∈ more, e.tid = tid) (hlimit : WithinLimit maxSize (events ++ more)) :
    Follows maxSize (events ++ more)
      (more.foldl (State.handle memcmp maxSize) s) := by
  induction more generalizing events s with
  | nil => simpa using hs
  | cons event more ih =>
    obtain rfl := htid event (by simp)
    rw [append_cons] at hlimit ⊢
    refine ih ⟨hs.matching.handle htold, ?_⟩ (htold.handle hmem hs.matching.nodup)
      (fun e he => htid e (by simp [he])) hlimit
    rw [hs.matching.handle_dbChanges htold, hs.handedOn, merged_ledger_concat hlimit.left]

theorem follows_run (hmem : IsMemcmp memcmp) (hs : Follows maxSize events s)
    {log : List (Record σ)}
    (hlimit : WithinLimit maxSize (events ++ log.flatMap Record.events))
    (hmeets : RunMeets (step memcmp maxSize) (Comparable memcmp) s log) :
    ∃ t, run (step memcmp maxSize) s log = some t ∧
      Follows maxSize (events ++ log.flatMap Record.events) t := by
  induction log generalizing events s with
  | nil => exact ⟨s, rfl, by simpa using hs⟩
  | cons record log ih =>
    have htold : Told memcmp record.tid s.tmap :=
      fun entry hentry => equivalent_eq hmem (hmeets.1 entry hentry)
    rw [flatMap_cons, ← append_assoc] at hlimit ⊢
    have hnext := hs.foldl_handle hmem htold (fun e he => tid_of_mem_events he) hlimit.left
    obtain ⟨t, ht, hfollows⟩ := ih hnext hlimit (hmeets.2 _ (step_eq _ _ _ _))
    exact ⟨t, by rw [run_cons, step_eq, bind_some, ht], hfollows⟩

end Runs

/-- What has been handed on after a log are the merged changes of the committed transactions,
in order of commit. To every item they say what the unmerged changes say: the same final
status, and a chain of sequence ids that is unbroken if the unmerged one is. -/
theorem committed_handed_on (memcmp : Tid → Tid → Int) (hmem : IsMemcmp memcmp)
    (maxSize : Nat) (log : List (Record σ))
    (hlimit : WithinLimit maxSize (log.flatMap Record.events))
    (hmeets : RunMeets (step memcmp maxSize) (Comparable memcmp) State.init log) :
    ∃ s, run (step memcmp maxSize) State.init log = some s ∧
      s.dbChanges = (ledger (log.flatMap Record.events)).committed.flatMap
        (fun transaction => mergeAll transaction.2) ∧
      ∀ item start final,
        (replay anyLink item start
            ((ledger (log.flatMap Record.events)).committed.flatMap snd) = some final →
          replay anyLink item start s.dbChanges = some final) ∧
        (replay unbroken item start
            ((ledger (log.flatMap Record.events)).committed.flatMap snd) = some final →
          replay unbroken item start s.dbChanges = some final) := by
  obtain ⟨s, hrun, hs⟩ := follows_run hmem ⟨matches_nil maxSize, rfl⟩
    (by simpa using hlimit) hmeets
  rw [nil_append] at hs
  refine ⟨s, hrun, ?_, fun item start final => ⟨?_, ?_⟩⟩
  · rw [hs.handedOn, Ledger.merged, flatMap_map]
  · intro h
    rw [hs.handedOn]
    exact replay_flatMap_mergeAll (by rwa [← flatMap_def])
  · intro h
    rw [hs.handedOn]
    exact replay_flatMap_mergeAll (by rwa [← flatMap_def])

local instance neZeroByte : NeZero 256 := ⟨by decide⟩

/-- Two transactions interleave: a block of the first one is changed twice, the second one is
rolled back. -/
def twoTransactions : List (Record Bool) :=
  [.normal (.replicate 6 1) (some (.added (.block "A") false 1)) false,
    .normal (.replicate 6 2) (some (.added (.job 7) false 2)) false,
    .normal (.replicate 6 1) (some (.stateChanged (.entity (.block "A")) true 3 false 1)) false,
    .rollback (.replicate 6 2),
    .commit (.replicate 6 1)]

theorem committed_handed_on_twoTransactions :
    ∃ s, run (step (fun a b => (firstDifference a.toList b.toList).sign) 100) State.init
        twoTransactions = some s ∧
      s.dbChanges = (ledger (twoTransactions.flatMap Record.events)).committed.flatMap
        (fun transaction => mergeAll transaction.2) := by
  obtain ⟨s, hrun, hchanges, -⟩ := committed_handed_on
    (fun a b => (firstDifference a.toList b.toList).sign)
    (fun a b => sign_sign) 100 twoTransactions (by decide) (by decide)
  exact ⟨s, hrun, hchanges⟩

/-- With a `memcmp` that returns the difference of the bytes, the ids of two open transactions
are taken for the same, and the commit of one hands on the change of the other. -/
theorem not_committed_handed_on : ∃ memcmp, IsMemcmp memcmp ∧ ∃ log : List (Record Bool),
      WithinLimit 100 (log.flatMap Record.events) ∧
      ∃ s, run (step memcmp 100) State.init log = some s ∧
        s.dbChanges ≠ (ledger (log.flatMap Record.events)).committed.flatMap
          (fun transaction => mergeAll transaction.2) := by
  exact ⟨fun a b => firstDifference a.toList b.toList, fun _ _ => rfl,
    [.normal (.replicate 6 1) (some (.added (.block "A") false 1)) false,
      .commit (.replicate 6 3)], by decide, _, rfl, by decide⟩

end BgqDriver.DbTransactions
