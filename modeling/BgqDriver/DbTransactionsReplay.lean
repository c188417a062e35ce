import BgqDriver.DbTransactions

/-!
What the changes of a log say of one item, and that merging keeps it. A replay starts with
what is known of the item, and fails at a change that does not go on from what is known.
How strictly a change has to name the sequence id that it goes on from is a parameter: the
merging does not depend on it.
-/

namespace BgqDriver.DbTransactions

open Option Change List

variable {σ : Type}

abbrev Known (σ : Type) := Option (σ × Nat)

def Change.apply (linked : Nat → Nat → Bool) (item : Item) : Change σ → Known σ → Option (Known σ)
  | .added entity status seqId, known =>
    if item = .entity entity then
      match known with
      | none => some (some (status, seqId))
      | some _ => none
    else some known
  | .stateChanged item' status seqId _ prevSeqId, known =>
    if item = item' then
      match known with
      | none => none
      | some (_, cur) => if linked cur prevSeqId then some (some (status, seqId)) else none
    else some known
  | .deleted entity prevSeqId, known =>
    if item = .entity entity then
      match known with
      | none => none
      | some (_, cur) => if linked cur prevSeqId then some none else none
    else some known
  | .ras _, known => some known

/-- What is known of the item after the changes, if each goes on from the one before -/
def replay (linked : Nat → Nat → Bool) (item : Item) : Known σ → List (Change σ) → Option (Known σ)
  | known, [] => some known
  | known, change :: rest => (change.apply linked item known).bind (replay linked item · rest)

/-- A change names the sequence id it goes on from. -/
def unbroken (cur prev : Nat) : Bool := cur == prev

/-- A change may name any sequence id. -/
def anyLink (_cur _prev : Nat) : Bool := true

/-- The changes merged one after the other -/
def mergeAll (changes : List (Change σ)) : List (Change σ) :=
  changes.foldl (fun merged change => (mergeChange merged change).getD (merged ++ [change])) []

theorem mergeAll_concat (changes : List (Change σ)) (change : Change σ) :
    mergeAll (changes ++ [change]) =
      (mergeChange (mergeAll changes) change).getD (mergeAll changes ++ [change]) := by
  simp only [mergeAll, foldl_append, foldl_cons, foldl_nil]

variable {change cur cur' : Change σ} {changes merged : List (Change σ)}
  {final known start : Known σ}

section Replay

variable {linked : Nat → Nat → Bool} {item : Item}

theorem replay_append (known : Known σ) (changes rest : List (Change σ)) :
    replay linked item known (changes ++ rest) =
      (replay linked item known changes).bind (replay linked item · rest) := by
  induction changes generalizing known with
  | nil => rfl
  | cons change changes ih =>
    simp only [cons_append, replay, bind_assoc]
    congr 1
    funext next
    exact ih next

theorem mergeReversed_eq_some (h : mergeReversed change changes = some merged) :
    ∃ later cur cur' earlier, changes = later ++ cur :: earlier ∧
      merged = later ++ cur' :: earlier ∧ cur.merge change = some cur' ∧
      ∀ c ∈ later, c.merge change = none := by
  induction changes generalizing merged with
  | nil => simp [mergeReversed] at h
  | cons cur rest ih =>
    rw [mergeReversed] at h
    split at h
    next cur' hcur =>
      cases h
      exact ⟨[], cur, cur', rest, rfl, rfl, hcur, by simp⟩
    next hcur =>
      obtain ⟨rest', hrest, rfl⟩ := map_eq_some_iff.mp h
      obtain ⟨later, into, into', earlier, rfl, rfl, hinto, hlater⟩ := ih hrest
      refine ⟨cur :: later, into, into', earlier, rfl, rfl, hinto, ?_⟩
      simpa only [forall_mem_cons] using And.intro hcur hlater

theorem mergeChange_eq_some (h : mergeChange changes change = some merged) :
    ∃ earlier cur cur' later, changes = earlier ++ cur :: later ∧
      merged = earlier ++ cur' :: later ∧ cur.merge change = some cur' ∧
      ∀ c ∈ later, c.merge change = none := by
  obtain ⟨reversed, hreversed, rfl⟩ := map_eq_some_iff.mp h
  obtain ⟨later, cur, cur', earlier, hchanges, rfl, hcur, hlater⟩ :=
    mergeReversed_eq_some hreversed
  refine ⟨earlier.reverse, cur, cur', later.reverse, ?_, by simp, hcur, by simpa using hlater⟩
  rw [← reverse_inj, hchanges]
  simp

theorem merge_eq_some (h : cur.merge change = some cur') :
    ∃ target status seqId prevStatus prevSeqId,
      change = .stateChanged target status seqId prevStatus prevSeqId ∧
      ((∃ entity st sq, target = .entity entity ∧ cur = .added entity st sq ∧
          cur' = .added entity status seqId) ∨
        ∃ st sq pst psq, cur = .stateChanged target st sq pst psq ∧
          cur' = .stateChanged target status seqId pst psq) := by
  cases cur with
  | added entity st sq =>
    cases change with
    | stateChanged target status seqId prevStatus prevSeqId =>
      simp only [Change.merge, ite_none_right_eq_some, some.injEq] at h
      exact ⟨target, status, seqId, prevStatus, prevSeqId, rfl,
        .inl ⟨entity, st, sq, h.1, rfl, h.2.symm⟩⟩
    | added | deleted | ras => simp [Change.merge] at h
  | stateChanged item st sq pst psq =>
    cases change with
    | stateChanged target status seqId prevStatus prevSeqId =>
      simp only [Change.merge, ite_none_right_eq_some, some.injEq] at h
      obtain ⟨rfl, rfl⟩ := h
      exact ⟨item, status, seqId, prevStatus, prevSeqId, rfl,
        .inr ⟨st, sq, pst, psq, rfl, rfl⟩⟩
    | added | deleted | ras => simp [Change.merge] at h
  | deleted | ras => simp [Change.merge] at h

section NotTaken

variable {status prevStatus : σ} {seqId prevSeqId : Nat}

theorem apply_of_merge_eq_none (linked : Nat → Nat → Bool) {c : Change σ}
    (hc : c.merge (.stateChanged item status seqId prevStatus prevSeqId) = none) :
    (∀ known : Known σ, c.apply linked item known = some known) ∨
      ∀ known next : Known σ, c.apply linked item known = some next → next = none := by
  cases c with
  | added entity st sq =>
    left
    intro known
    simp only [Change.merge, ite_eq_right_iff, reduceCtorEq, imp_false] at hc
    simp only [apply, if_neg hc]
  | stateChanged target st sq pst psq =>
    left
    intro known
    simp only [Change.merge, ite_eq_right_iff, reduceCtorEq, imp_false] at hc
    simp only [apply, if_neg (Ne.symm hc)]
  | deleted entity psq =>
    by_cases hitem : item = .entity entity
    · right
      intro known next hnext
      simp only [apply, if_pos hitem] at hnext
      split at hnext
      next => cases hnext
      next => exact (some.inj (ite_none_right_eq_some.mp hnext).2).symm
    · left
      intro known
      simp only [apply, if_neg hitem]
  | ras id => exact .inl fun known => rfl

variable {later : List (Change σ)}

section

variable
  (hlater : ∀ c ∈ later, c.merge (.stateChanged item status seqId prevStatus prevSeqId) = none)
include hlater

theorem replay_absent (h : replay linked item none later = some known) : known = none := by
  induction later with
  | nil => exact (some.inj h).symm
  | cons c later ih =>
    obtain ⟨next, hnext, hrest⟩ := bind_eq_some_iff.mp h
    have habsent : next = none := by
      rcases apply_of_merge_eq_none linked (hlater c (by simp)) with hkeeps | hdeletes
      · exact (some.inj ((hkeeps none).symm.trans hnext)).symm
      · exact hdeletes none next hnext
    subst habsent
    exact ih (fun c hc => hlater c (by simp [hc])) hrest

theorem replay_present {final : σ × Nat}
    (h : replay linked item known later = some (some final)) (other : Known σ) :
    replay linked item other later = some other := by
  induction later generalizing known with
  | nil => rfl
  | cons c later ih =>
    obtain ⟨next, hnext, hrest⟩ := bind_eq_some_iff.mp h
    have htail : ∀ c ∈ later, c.merge (.stateChanged item status seqId prevStatus prevSeqId) =
        none := fun c hc => hlater c (by simp [hc])
    rcases apply_of_merge_eq_none linked (hlater c (by simp)) with hkeeps | hdeletes
    · rw [replay, hkeeps other, bind_some]
      exact ih htail hrest
    · obtain rfl := hdeletes known next hnext
      exact absurd (replay_absent htail hrest) (by simp)

end

end NotTaken

theorem apply_merge_of_ne {target : Item} {status prevStatus : σ} {seqId prevSeqId : Nat}
    (hcur : cur.merge (.stateChanged target status seqId prevStatus prevSeqId) = some cur')
    (hne : item ≠ target) (known : Known σ) :
    cur'.apply linked item known = cur.apply linked item known := by
  obtain ⟨_, _, _, _, _, heq, hcases⟩ := merge_eq_some hcur
  obtain ⟨rfl, rfl, rfl, rfl, rfl⟩ := Change.stateChanged.inj heq
  rcases hcases with ⟨entity, st, sq, rfl, rfl, rfl⟩ | ⟨st, sq, pst, psq, rfl, rfl⟩
  all_goals simp only [apply, if_neg hne]

theorem apply_merge_self {status prevStatus : σ} {seqId prevSeqId : Nat}
    (hcur : cur.merge (.stateChanged item status seqId prevStatus prevSeqId) = some cur')
    {next : Known σ} (hnext : cur.apply linked item known = some next) :
    cur'.apply linked item known = some (some (status, seqId)) := by
  obtain ⟨_, _, _, _, _, heq, hcases⟩ := merge_eq_some hcur
  obtain ⟨rfl, rfl, rfl, rfl, rfl⟩ := Change.stateChanged.inj heq
  rcases hcases with ⟨entity, st, sq, rfl, rfl, rfl⟩ | ⟨st, sq, pst, psq, rfl, rfl⟩
  · cases known with
    | none => simp [apply]
    | some present => simp [apply] at hnext
  · rcases known with _ | ⟨present, id⟩
    · simp [apply] at hnext
    · simp only [apply, if_true, ite_none_right_eq_some] at hnext ⊢
      exact ⟨hnext.1, trivial⟩

theorem replay_mergeChange (hmerged : mergeChange changes change = some merged)
    (h : replay linked item start (changes ++ [change]) = some final) :
    replay linked item start merged = some final := by
  obtain ⟨earlier, cur, cur', later, rfl, rfl, hcur, hlater⟩ := mergeChange_eq_some hmerged
  obtain ⟨target, status, seqId, prevStatus, prevSeqId, rfl, -⟩ := merge_eq_some hcur
  rw [replay_append, replay_append, bind_assoc] at h
  rw [replay_append]
  obtain ⟨known, hearlier, h⟩ := bind_eq_some_iff.mp h
  rw [hearlier, bind_some]
  obtain ⟨reached, hreached, hlast⟩ := bind_eq_some_iff.mp h
  simp only [replay, bind_fun_some] at hlast
  by_cases hitem : item = target
  · subst hitem
    obtain ⟨next, hnext, hrest⟩ := bind_eq_some_iff.mp hreached
    -- the item exists when it is changed, so that nothing after `cur` deleted it
    rcases reached with _ | ⟨present, id⟩
    · simp [apply] at hlast
    simp only [apply, if_true, ite_none_right_eq_some] at hlast
    obtain ⟨-, hfinal⟩ := hlast
    rw [replay, apply_merge_self hcur hnext, bind_some, replay_present hlater hrest, hfinal]
  · simp only [apply, if_neg hitem] at hlast
    cases hlast
    rw [replay, apply_merge_of_ne hcur hitem]
    exact hreached

theorem replay_mergeAll (h : replay linked item start changes = some final) :
    replay linked item start (mergeAll changes) = some final := by
  induction changes using reverseRecOn generalizing final with
  | nil => exact h
  | append_singleton changes change ih =>
    rw [replay_append] at h
    obtain ⟨reached, hreached, hlast⟩ := bind_eq_some_iff.mp h
    have hstep : replay linked item start (mergeAll changes ++ [change]) = some final := by
      rw [replay_append, ih hreached, bind_some, hlast]
    rw [mergeAll_concat]
    cases hmerged : mergeChange (mergeAll changes) change with
    | none => exact hstep
    | some merged => exact replay_mergeChange hmerged hstep

theorem replay_flatMap_mergeAll {transactions : List (List (Change σ))}
    (h : replay linked item start transactions.flatten = some final) :
    replay linked item start (transactions.flatMap mergeAll) = some final := by
  induction transactions generalizing start with
  | nil => exact h
  | cons changes transactions ih =>
    rw [flatten_cons, replay_append] at h
    obtain ⟨reached, hreached, hrest⟩ := bind_eq_some_iff.mp h
    rw [flatMap_cons, replay_append, replay_mergeAll hreached, bind_some]
    exact ih hrest

end Replay

end BgqDriver.DbTransactions
