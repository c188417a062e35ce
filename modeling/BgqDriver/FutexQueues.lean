import Mathlib.Data.Fintype.EquivFin
import BgqDriver.Futex

/-!
The wait queues of the futex tables over whole runs of the node.

`Queued` says that the pointers of tables and threads represent a queue of threads
for every entry. It is stated for the middle of a call too, where an entry can be
in use with nobody waiting on it yet, or no longer, and where threads have been
taken off their queue and are still blocked.
-/

namespace BgqDriver.FutexQueues

open Function List Option Set Prod
open LinkedChains
open Futex State

def waiters (s : State) (q : TableId × Slot) : List Tid :=
  nodes s.next numKThreads (s.head q)

def onAddress (s : State) (x : TableId × Addr) : List Tid :=
  match lookup s x.1 x.2 with
  | none => []
  | some i => waiters s (x.1, i)

variable {k fuel : Nat} {T : TableId} {a : Addr} {l : List Tid}

section Families

variable {ι α : Type*} [DecidableEq ι] {A : ι → List α} {x y : ι}

def dropFront (A : ι → List α) (x : ι) (k : Nat) : ι → List α := update A x ((A x).drop k)

def moveRest (A : ι → List α) (x y : ι) : ι → List α := update (update A x []) y (A y ++ A x)

/-- A family of queues after the first `k` of one of them have left and the others
have moved to the end of a second queue, if there is one. -/
def afterWake (A : ι → List α) (x : ι) (k : Nat) : Option ι → ι → List α
  | none => dropFront A x k
  | some y => moveRest (dropFront A x k) x y

theorem moveRest_nil (h : A x = []) : moveRest A x y = A := by
  have hx : update A x [] = A := by rw [← h, update_eq_self]
  rw [moveRest, hx, h, append_nil, update_eq_self]

theorem dropFront_zero : dropFront A x 0 = A := update_eq_self x A

theorem dropFront_nil (h : A x = []) : dropFront A x k = A := by
  rw [dropFront, h, drop_nil, ← h, update_eq_self]

theorem afterWake_nil {second : Option ι} (h : A x = []) : afterWake A x k second = A := by
  cases second with
  | none => exact dropFront_nil h
  | some y => rw [afterWake, dropFront_nil h, moveRest_nil h]

theorem afterWake_cons {second : Option ι} {a : α} {l : List α} (h : A x = a :: l) :
    afterWake (update A x l) x k second = afterWake A x (k + 1) second := by
  have hdrop : dropFront (update A x l) x k = dropFront A x (k + 1) := by
    rw [dropFront, dropFront, update_self, update_idem, h, drop_succ_cons]
  cases second with
  | none => exact hdrop
  | some y => rw [afterWake, afterWake, hdrop]

end Families

def ownTable (node : Node) (s : State) (t : Tid) : TableId :=
  tableOf (node.pAppProc t) (s.kthreads t).futexIsShared

/-- The queues are `Q`, the threads `W` are blocked off every queue, and only the
entries of `idle` may be in use with an empty queue. -/
structure Queued (node : Node) (s : State) (Q : TableId × Slot → List Tid)
    (idle : Set (TableId × Slot)) (W : List Tid) : Prop where
  chain : ∀ q, Chain s.next (s.head q) (Q q)
  free : ∀ q, s.vaddr q = 0#64 → Q q = []
  used : ∀ q, Q q = [] → s.vaddr q = 0#64 ∨ q ∈ idle
  distinct : ∀ T i j, s.vaddr (T, i) ≠ 0#64 → s.vaddr (T, i) = s.vaddr (T, j) → i = j
  recorded : ∀ q, ∀ t ∈ Q q, (s.kthreads t).futexVAddr = s.vaddr q ∧ ownTable node s t = q.1
  blocked : ∀ t, (s.kthreads t).blocked = true ↔ t ∈ W ∨ ∃ q, t ∈ Q q
  off : ∀ t ∈ W, ∀ q, t ∉ Q q
  timed : ∀ t, (s.kthreads t).futexTimeout ≠ 0#64 → ∃ q, t ∈ Q q
  nodup : W.Nodup

/-- Between calls no entry is idle, and the threads blocked off the queues are
those still to be unblocked. -/
def Inv (node : Node) (s : State) : Prop := ∃ Q, Queued node s Q ∅ s.unblocking

variable {node : Node} {s : State} {Q : TableId × Slot → List Tid} {idle : Set (TableId × Slot)}
  {W : List Tid} {q q' : TableId × Slot} {t : Tid}

namespace Queued

theorem inv (h : Queued node s Q ∅ W) (hW : s.unblocking = W) : Inv node s := ⟨Q, hW ▸ h⟩

section

variable (h : Queued node s Q idle W)
include h

theorem mono {idle' : Set (TableId × Slot)} (hsub : idle ⊆ idle') : Queued node s Q idle' W :=
  { h with used := fun q hq => (h.used q hq).imp_right fun hmem => hsub hmem }

theorem vaddr_ne_zero (ht : t ∈ Q q) : s.vaddr q ≠ 0#64 := by
  intro hzero
  rw [h.free q hzero] at ht
  exact not_mem_nil ht

theorem unique (ht : t ∈ Q q) (ht' : t ∈ Q q') : q = q' := by
  obtain ⟨haddr, htable⟩ := h.recorded q t ht
  obtain ⟨haddr', htable'⟩ := h.recorded q' t ht'
  have hT : q.1 = q'.1 := htable.symm.trans htable'
  refine Prod.ext hT (h.distinct q.1 q.2 q'.2 (h.vaddr_ne_zero ht) ?_)
  rw [show (q.1, q'.2) = q' from Prod.ext hT rfl]
  exact haddr.symm.trans haddr'

theorem length_lt (hfuel : numKThreads < fuel) : (Q q).length < fuel := by
  have hle := (h.chain q).length_le
  rw [Fintype.card_fin] at hle
  omega

theorem not_queued (ht : (s.kthreads t).blocked = false) : ¬ (t ∈ W ∨ ∃ q, t ∈ Q q) := by
  rw [← h.blocked, ht]
  exact Bool.false_ne_true

theorem notMem_of_running (ht : (s.kthreads t).blocked = false) (q : TableId × Slot) : t ∉ Q q :=
  fun hmem => h.not_queued ht (.inr ⟨q, hmem⟩)

theorem running_notMem_off (ht : (s.kthreads t).blocked = false) : t ∉ W :=
  fun hmem => h.not_queued ht (.inl hmem)

theorem waiters_eq (q : TableId × Slot) : waiters s q = Q q := by
  have hle := (h.chain q).length_le
  rw [Fintype.card_fin] at hle
  exact (h.chain q).nodes_eq hle

end

/-- While some thread runs, a table has an unused entry: there are as many entries
as threads, and the entries in use have different waiters. -/
theorem exists_free (h : Queued node s Q ∅ W) (ht : (s.kthreads t).blocked = false)
    (T : TableId) : ∃ i, s.vaddr (T, i) = 0#64 := by
  by_contra hfull
  have hwaiter : ∀ i, ∃ u, u ∈ Q (T, i) := by
    intro i
    apply exists_mem_of_ne_nil
    intro hnil
    rcases h.used (T, i) hnil with hzero | hmem
    · exact hfull ⟨i, hzero⟩
    · exact hmem
  choose f hf using hwaiter
  have hinj : Injective f := by
    intro i j hij
    have hj : f i ∈ Q (T, j) := hij ▸ hf j
    exact congrArg snd (h.unique (hf i) hj)
  have hbij : Bijective f := (Fintype.bijective_iff_injective_and_card f).mpr ⟨hinj, rfl⟩
  obtain ⟨i, hi⟩ := hbij.surjective t
  exact h.notMem_of_running ht (T, i) (hi ▸ hf i)

end Queued

variable {i : Slot}

theorem vaddr_of_lookup (h : lookup s T a = some i) : s.vaddr (T, i) = a := by
  simpa using find?_some h

theorem vaddr_ne_of_lookup (h : lookup s T a = none) (i : Slot) : s.vaddr (T, i) ≠ a := by
  simpa using find?_eq_none.mp h i (mem_finRange i)

theorem exists_lookup (h : s.vaddr (T, i) = a) : ∃ j, lookup s T a = some j := by
  cases hlookup : lookup s T a with
  | none => exact absurd h (vaddr_ne_of_lookup hlookup i)
  | some j => exact ⟨j, rfl⟩

theorem find_not_allocate (T : TableId) (a : Addr) :
    futexFindTableEntry s T a false = (s, lookup s T a) := by
  unfold futexFindTableEntry
  cases lookup s T a <;> rfl

/-- The queues `Q` of the entries are the queues `A` of the addresses they hold. -/
structure Shows (s : State) (Q : TableId × Slot → List Tid) (A : TableId × Addr → List Tid) :
    Prop where
  entry : ∀ q, A (q.1, s.vaddr q) = Q q
  absent : ∀ T a, (∀ i, s.vaddr (T, i) ≠ a) → A (T, a) = []
  null : ∀ T, A (T, 0#64) = []

namespace Queued

theorem shows_onAddress (h : Queued node s Q idle W) : Shows s Q (onAddress s) := by
  have hfound : ∀ {T a j}, lookup s T a = some j → onAddress s (T, a) = Q (T, j) := by
    intro T a j hj
    simp only [onAddress, hj]
    exact h.waiters_eq (T, j)
  constructor
  case entry =>
    intro q
    obtain ⟨j, hj⟩ := exists_lookup (s := s) (T := q.1) (i := q.2) rfl
    have hvaddr : s.vaddr (q.1, j) = s.vaddr q := vaddr_of_lookup hj
    rw [hfound hj]
    by_cases hzero : s.vaddr q = 0#64
    · rw [h.free q hzero, h.free _ (hvaddr.trans hzero)]
    · rw [← h.distinct q.1 q.2 j hzero hvaddr.symm]
  case absent =>
    intro T a hnone
    cases hlookup : lookup s T a with
    | none => simp only [onAddress, hlookup]
    | some i => exact absurd (vaddr_of_lookup hlookup) (hnone i)
  case null =>
    intro T
    cases hlookup : lookup s T 0#64 with
    | none => simp only [onAddress, hlookup]
    | some i => rw [hfound hlookup, h.free _ (vaddr_of_lookup hlookup)]

end Queued

namespace Shows

variable {s' : State} {A B : TableId × Addr → List Tid}

theorem unique (hA : Shows s Q A) (hB : Shows s Q B) : A = B := by
  funext ⟨T, a⟩
  by_cases hentry : ∃ i, s.vaddr (T, i) = a
  · obtain ⟨i, rfl⟩ := hentry
    exact (hA.entry (T, i)).trans (hB.entry (T, i)).symm
  · have hnone := not_exists.mp hentry
    rw [hA.absent T a hnone, hB.absent T a hnone]

theorem released (hA : Shows s Q A)
    (hvaddr : ∀ r, s'.vaddr r = s.vaddr r ∨ (s'.vaddr r = 0#64 ∧ Q r = [])) : Shows s' Q A := by
  refine ⟨?_, ?_, hA.null⟩
  · intro r
    rcases hvaddr r with hsame | ⟨hzero, hnil⟩
    · rw [hsame, hA.entry]
    · rw [hzero, hnil, hA.null]
  · intro T a hnone
    by_cases hentry : ∃ i, s.vaddr (T, i) = a
    · obtain ⟨i, rfl⟩ := hentry
      exact (hA.entry (T, i)).trans ((hvaddr (T, i)).resolve_left (hnone i)).2
    · exact hA.absent T a (not_exists.mp hentry)

protected theorem update (hA : Shows s Q A)
    (hdistinct : ∀ T i j, s.vaddr (T, i) ≠ 0#64 → s.vaddr (T, i) = s.vaddr (T, j) → i = j)
    (hq : s.vaddr q ≠ 0#64) (l : List Tid) :
    Shows s (update Q q l) (update A (q.1, s.vaddr q) l) := by
  constructor
  case entry =>
    intro r
    rcases eq_or_ne r q with rfl | hrq
    · rw [update_self, update_self]
    · rw [update_of_ne hrq, update_of_ne, hA.entry]
      rintro heq
      obtain ⟨hT, hvaddr⟩ := mk.inj heq
      refine hrq (Prod.ext hT (hdistinct q.1 q.2 r.2 hq ?_).symm)
      rw [show (q.1, r.2) = r from Prod.ext hT.symm rfl]
      exact hvaddr.symm
  case absent =>
    intro T a hnone
    rw [update_of_ne, hA.absent T a hnone]
    rintro heq
    obtain ⟨rfl, rfl⟩ := mk.inj heq
    exact hnone q.2 rfl
  case null =>
    intro T
    rw [update_of_ne, hA.null]
    exact fun heq => hq (mk.inj heq).2.symm

theorem afterWake {second : Option (TableId × Slot)} (h : Queued node s Q idle W) (hA : Shows s Q A)
    (hsecond : ∀ q', second = some q' → (Q q).length ≤ k ∨ s.vaddr q' ≠ 0#64) :
    Shows s (afterWake Q q k second)
      (afterWake A (q.1, s.vaddr q) k (second.map fun q' => (q'.1, s.vaddr q'))) := by
  by_cases hnil : Q q = []
  · rw [afterWake_nil hnil, afterWake_nil ((hA.entry q).trans hnil)]
    exact hA
  have hq : s.vaddr q ≠ 0#64 := fun hzero => hnil (h.free q hzero)
  have hdrop : Shows s (dropFront Q q k) (dropFront A (q.1, s.vaddr q) k) := by
    rw [dropFront, dropFront, hA.entry]
    exact hA.update h.distinct hq _
  cases second with
  | none => exact hdrop
  | some q' =>
    simp only [map_some, FutexQueues.afterWake]
    by_cases hrest : dropFront Q q k q = []
    · rw [moveRest_nil hrest, moveRest_nil ((hdrop.entry q).trans hrest)]
      exact hdrop
    have hq' : s.vaddr q' ≠ 0#64 := by
      refine (hsecond q' rfl).resolve_left fun hle => hrest ?_
      rw [dropFront, update_self, drop_eq_nil_of_le hle]
    rw [moveRest, moveRest, hdrop.entry q, hdrop.entry q']
    exact (hdrop.update h.distinct hq []).update h.distinct hq' _

end Shows

namespace Queued

/-- An entry without waiters is released, or taken for an address that no entry has. -/
theorem setEntry {s' : State} {idle' : Set (TableId × Slot)} (h : Queued node s Q idle W)
    (hQ : Q q = []) (hchain : ∀ r, Chain s'.next (s'.head r) (Q r))
    (hvaddr : s'.vaddr = update s.vaddr q a) (hthreads : s'.kthreads = s.kthreads)
    (hnew : a = 0#64 ∨ ∀ i, s.vaddr (q.1, i) ≠ a) (hused : a = 0#64 ∨ q ∈ idle')
    (hidle : ∀ r ∈ idle, r ≠ q → r ∈ idle') : Queued node s' Q idle' W := by
  have hother : ∀ r ≠ q, s'.vaddr r = s.vaddr r := fun r hr => by rw [hvaddr, update_of_ne hr]
  refine ⟨hchain, ?_, ?_, ?_, ?_, ?_, h.off, ?_, h.nodup⟩
  case refine_1 =>
    intro r hr
    rcases eq_or_ne r q with rfl | hrq
    · exact hQ
    · exact h.free r (hother r hrq ▸ hr)
  case refine_2 =>
    intro r hr
    rcases eq_or_ne r q with rfl | hrq
    · simpa [hvaddr] using hused
    · exact hother r hrq ▸ (h.used r hr).imp_right fun hmem => hidle r hmem hrq
  case refine_3 =>
    intro T i j hi hij
    rw [hvaddr] at hi hij
    grind [h.distinct T i j]
  case refine_4 =>
    intro r u hu
    have hrq : r ≠ q := by
      rintro rfl
      simp [hQ] at hu
    rw [ownTable, hthreads, hother r hrq]
    exact h.recorded r u hu
  all_goals
    rw [hthreads]
  · exact h.blocked
  · exact h.timed

/-- A running thread is always given an entry. It may have nobody waiting on it yet. -/
theorem find (h : Queued node s Q ∅ W) (ht : (s.kthreads t).blocked = false) (T : TableId)
    (a : Addr) :
    ∃ s' i, futexFindTableEntry s T a true = (s', some i) ∧ Queued node s' Q {(T, i)} W ∧
      s'.vaddr (T, i) = a ∧
      ((∀ r, s.vaddr r ≠ 0#64 → s'.vaddr r = s.vaddr r) ∧ onAddress s' = onAddress s) ∧
      s'.kthreads = s.kthreads ∧ s'.unblocking = s.unblocking := by
  unfold futexFindTableEntry
  cases hlookup : lookup s T a with
  | some i =>
    have haddr := vaddr_of_lookup hlookup
    exact ⟨s, i, rfl, h.mono (empty_subset _), haddr, ⟨fun _ _ => rfl, rfl⟩, rfl, rfl⟩
  | none =>
    obtain ⟨j, hj⟩ := h.exists_free ht T
    obtain ⟨i, hi⟩ := exists_lookup hj
    have hfree : s.vaddr (T, i) = 0#64 := vaddr_of_lookup hi
    have hQ : Q (T, i) = [] := h.free _ hfree
    have hnew := vaddr_ne_of_lookup hlookup
    have hqueued : Queued node ((s.setVAddr (T, i) a).setHead (T, i) none) Q {(T, i)} W := by
      refine h.setEntry hQ ?_ (by simp) rfl (.inr hnew) (.inr rfl) nofun
      intro r
      rcases eq_or_ne r (T, i) with rfl | hr
      · simp [hQ]
      · simpa [hr] using h.chain r
    have hkept : ∀ r, s.vaddr r ≠ 0#64 →
        ((s.setVAddr (T, i) a).setHead (T, i) none).vaddr r = s.vaddr r := by
      intro r hr
      have hri : r ≠ (T, i) := fun hri => hr (hri ▸ hfree)
      simp [hri]
    have hshows : Shows ((s.setVAddr (T, i) a).setHead (T, i) none) Q (onAddress s) := by
      have hold := h.shows_onAddress
      refine ⟨?_, ?_, hold.null⟩
      · intro r
        rcases eq_or_ne r (T, i) with rfl | hri
        · simpa [hQ] using hold.absent T a hnew
        · simpa [hri] using hold.entry r
      · intro T' c hnone
        by_cases hc : c = 0#64
        · rw [hc, hold.null]
        · refine hold.absent T' c fun j hj => hnone j ?_
          rw [hkept _ (hj ▸ hc), hj]
    exact ⟨(s.setVAddr (T, i) a).setHead (T, i) none, i, by simp [hi], hqueued, by simp,
      ⟨hkept, hqueued.shows_onAddress.unique hshows⟩, rfl, rfl⟩

section

variable (h : Queued node s Q idle W)
include h

theorem tailOf_eq (hfuel : numKThreads < fuel) (q : TableId × Slot) :
    tailOf fuel s q = some (Q q).getLast? := by
  unfold tailOf
  have hchain := h.chain q
  have hlength : (Q q).length < fuel := h.length_lt hfuel
  rcases eq_nil_or_concat' (Q q) with hnil | ⟨l, b, hconcat⟩
  · rw [hnil] at hchain ⊢
    rw [chain_nil_iff.mp hchain]
    rfl
  · rw [hconcat] at hchain hlength ⊢
    cases hhead : s.head q with
    | none =>
      rw [hhead] at hchain
      cases l <;> simp at hchain
    | some a =>
      rw [hhead] at hchain
      simp only [length_append, length_singleton] at hlength
      simp only [hchain.lastFrom_eq (by omega : l.length < fuel), map_some,
        getLast?_concat]

end

theorem enqueue (h : Queued node s Q {q} W) (ht : (s.kthreads t).blocked = false)
    {isShared : Bool} (haddr : s.vaddr q ≠ 0#64)
    (htable : tableOf (node.pAppProc t) isShared = q.1) (value : Word) (timeout : BitVec 64) :
    Queued node
      (schedBlock ((setTail s q (Q q).getLast? (some t)).setThread t
        (((setTail s q (Q q).getLast? (some t)).kthreads t).waiting (s.vaddr q) value timeout
          isShared)) t)
      (update Q q (Q q ++ [t])) ∅ W := by
  have hnot := h.notMem_of_running ht
  have hmem : ∀ r u, u ≠ t → (u ∈ update Q q (Q q ++ [t]) r ↔ u ∈ Q r) := by
    intro r u hut
    rcases eq_or_ne r q with rfl | hr
    · simp [hut]
    · simp [hr]
  constructor
  case chain =>
    intro r
    rcases eq_nil_or_concat' (Q q) with hnil | ⟨l, b, hconcat⟩
    · simp only [hnil, getLast?_nil, setTail, schedBlock, KThread.waiting,
        next_setThread, next_setHead, head_setThread, head_setHead,
        kthreads_setThread, update_self, update_idem, nil_append]
      rcases eq_or_ne r q with rfl | hr
      · simp
      · rw [update_of_ne hr, update_of_ne hr]
        exact (h.chain r).congr fun c hc => update_of_ne (ne_of_mem_of_not_mem hc (hnot r)) _ _
    · simp only [hconcat, getLast?_concat, setTail, schedBlock, KThread.waiting, next_setThread,
        next_setNext, head_setThread, head_setNext, kthreads_setThread, update_self, update_idem]
      rcases eq_or_ne r q with rfl | hr
      · rw [update_self]
        exact (hconcat ▸ h.chain r).concat (hconcat ▸ hnot r)
      · rw [update_of_ne hr]
        refine (h.chain r).congr fun c hc => ?_
        have hcb : c ≠ b := by
          rintro rfl
          exact hr (h.unique hc (by simp [hconcat]))
        rw [update_of_ne (ne_of_mem_of_not_mem hc (hnot r)), update_of_ne hcb]
  case free =>
    intro r hr
    simp only [schedBlock, vaddr_setThread, vaddr_setTail] at hr
    have hne : r ≠ q := fun hrq => haddr (hrq ▸ hr)
    rw [update_of_ne hne]
    exact h.free r hr
  case used =>
    intro r hr
    simp only [schedBlock, vaddr_setThread, vaddr_setTail]
    rcases eq_or_ne r q with rfl | hne
    · simp at hr
    · rw [update_of_ne hne] at hr
      exact .inl ((h.used r hr).resolve_right hne)
  case distinct =>
    simp only [schedBlock, vaddr_setThread, vaddr_setTail]
    exact h.distinct
  case recorded =>
    intro r u hu
    simp only [schedBlock, vaddr_setThread, vaddr_setTail, ownTable]
    rcases eq_or_ne u t with rfl | hut
    · have hrq : r = q := by
        by_contra hne
        rw [update_of_ne hne] at hu
        exact hnot r hu
      subst hrq
      simpa [KThread.waiting] using htable
    · simp only [kthreads_setThread, update_of_ne hut, kthreads_setTail]
      exact h.recorded r u ((hmem r u hut).mp hu)
  case blocked =>
    intro u
    rcases eq_or_ne u t with rfl | hut
    · simp only [schedBlock, kthreads_setThread, update_self, true_iff]
      exact .inr ⟨q, by simp⟩
    · simp only [schedBlock, kthreads_setThread, update_of_ne hut, kthreads_setTail, hmem _ u hut]
      exact h.blocked u
  case off =>
    intro u hu r
    rw [hmem r u (ne_of_mem_of_not_mem hu (h.running_notMem_off ht))]
    exact h.off u hu r
  case timed =>
    intro u hu
    rcases eq_or_ne u t with rfl | hut
    · exact ⟨q, by simp⟩
    · simp only [schedBlock, kthreads_setThread, update_of_ne hut, kthreads_setTail] at hu
      simpa only [hmem _ u hut] using h.timed u hu
  case nodup => exact h.nodup

theorem distinct_of_kept {s' : State} (h : Queued node s Q idle W)
    (hkept : ∀ r, s'.vaddr r ≠ 0#64 → s'.vaddr r = s.vaddr r) (T : TableId) (i j : Slot)
    (hi : s'.vaddr (T, i) ≠ 0#64) (hij : s'.vaddr (T, i) = s'.vaddr (T, j)) : i = j := by
  refine h.distinct T i j (hkept _ hi ▸ hi) ?_
  rw [← hkept _ hi, hij, hkept _ (hij ▸ hi)]

theorem dequeue_eq (h : Queued node s Q idle W) (hfuel : numKThreads < fuel) (ht : t ∈ Q q) :
    ∃ s', dequeue fuel s q t = some s' ∧
      (∀ r, Chain s'.next (s'.head r) (update Q q ((Q q).erase t) r)) ∧
      s'.vaddr = (if (Q q).erase t = [] then update s.vaddr q 0#64 else s.vaddr) ∧
      (∀ u, s'.kthreads u = { s.kthreads u with futexQueueNext := s'.next u }) ∧
      s'.unblocking = s.unblocking := by
  have hchain := h.chain q
  have hlength : (Q q).length < fuel := h.length_lt hfuel
  obtain ⟨l, m, hsplit⟩ := append_of_mem ht
  have hnodup := hchain.nodup
  rcases eq_nil_or_concat' l with rfl | ⟨l, b, rfl⟩
  · have hQ : Q q = t :: m := hsplit
    rw [hQ] at hchain
    have hrest : ∀ r, Chain s.next (update s.head q (s.next t) r) (update Q q m r) := by
      intro r
      rcases eq_or_ne r q with rfl | hr
      · simpa using hchain.2
      · simpa [hr] using h.chain r
    unfold dequeue
    rw [if_pos hchain.1, hQ, erase_cons_head]
    cases m with
    | nil =>
      refine ⟨(s.setHead q (s.next t)).setVAddr q 0#64, ?_, ?_, by simp, fun u => rfl, rfl⟩
      · simp [chain_nil_iff.mp hchain.2]
      · simpa using hrest
    | cons c m =>
      refine ⟨s.setHead q (s.next t), ?_, by simpa using hrest, by simp, fun u => rfl, rfl⟩
      simp [hchain.2.1]
  · have hQ : Q q = l ++ b :: t :: m := by simpa using hsplit
    rw [hQ] at hchain hlength hnodup
    have herase : (Q q).erase t = l ++ b :: m := by
      have htl : t ∉ l := fun hmem =>
        disjoint_of_nodup_append hnodup hmem (by simp)
      have hbt : b ≠ t := by
        rintro rfl
        simpa using (nodup_append.mp hnodup).2.1
      rw [hQ, erase_append_right _ htl, erase_cons_tail (by simpa using hbt),
        erase_cons_head]
    have hhead : s.head q ≠ some t := by
      intro hhead
      rw [hhead] at hchain
      cases l with
      | nil | cons c l =>
        obtain rfl := some.inj hchain.1
        simp at hnodup
    unfold dequeue
    simp only [length_append, length_cons] at hlength
    rw [if_neg hhead, hchain.predecessor_eq (by omega : l.length < fuel), herase]
    refine ⟨s.setNext b (s.next t), rfl, ?_, by simp, s.kthreads_setNext b _, rfl⟩
    intro r
    rw [next_setNext, head_setNext]
    rcases eq_or_ne r q with rfl | hr
    · rw [update_self]
      exact hchain.unlink
    · rw [update_of_ne hr]
      refine (h.chain r).congr fun c hc => update_of_ne ?_ _ _
      rintro rfl
      exact hr (h.unique hc (by simp [hQ]))

section

variable (h : Queued node s Q idle W) (ht : t ∈ Q q) (hl : ∀ u, u ∈ l ↔ u ≠ t ∧ u ∈ Q q)
include h ht hl

theorem mem_leave (r : TableId × Slot) (u : Tid) : u ∈ update Q q l r ↔ u ≠ t ∧ u ∈ Q r := by
  rcases eq_or_ne r q with rfl | hr
  · rw [update_self, hl]
  · rw [update_of_ne hr, iff_and_self]
    rintro hu rfl
    exact hr (h.unique hu ht)

/-- The thread `t` leaves the queue of `q`, which is `l` afterwards. -/
theorem leave {s' : State} {idle' : Set (TableId × Slot)} {W' : List Tid}
    (hchain : ∀ r, Chain s'.next (s'.head r) (update Q q l r))
    (hvaddr : ∀ r, s'.vaddr r = s.vaddr r ∨ r = q ∧ l = [] ∧ s'.vaddr r = 0#64)
    (hused : l = [] → s'.vaddr q = 0#64 ∨ q ∈ idle') (hidle : idle ⊆ idle')
    (hothers : ∀ u ≠ t, s'.kthreads u = { s.kthreads u with futexQueueNext := s'.next u })
    (htimeout : (s'.kthreads t).futexTimeout = 0#64)
    (hblocked : (s'.kthreads t).blocked = true ↔ t ∈ W') (hW : ∀ u ≠ t, u ∈ W' ↔ u ∈ W)
    (hnodup : W'.Nodup) : Queued node s' (update Q q l) idle' W' := by
  have hmem := h.mem_leave ht hl
  constructor
  case chain => exact hchain
  case free =>
    intro r hr
    rcases hvaddr r with hsame | ⟨rfl, hnil, -⟩
    · rw [hsame] at hr
      have hne : r ≠ q := fun hrq => h.vaddr_ne_zero ht (hrq ▸ hr)
      rw [update_of_ne hne]
      exact h.free r hr
    · rw [update_self, hnil]
  case used =>
    intro r hr
    rcases eq_or_ne r q with rfl | hne
    · exact hused (by rwa [update_self] at hr)
    · rw [update_of_ne hne] at hr
      rw [(hvaddr r).resolve_right fun hgone => hne hgone.1]
      exact (h.used r hr).imp_right fun hmem => hidle hmem
  case distinct =>
    exact h.distinct_of_kept fun r hr => (hvaddr r).resolve_right fun hgone => hr hgone.2.2
  case recorded =>
    intro r u hu
    obtain ⟨hut, hur⟩ := (hmem r u).mp hu
    have hsame : s'.vaddr r = s.vaddr r := (hvaddr r).resolve_right (by
      rintro ⟨rfl, hnil, -⟩
      simp [hnil] at hu)
    rw [ownTable, hothers u hut, hsame]
    exact h.recorded r u hur
  case blocked =>
    intro u
    simp only [hmem]
    rcases eq_or_ne u t with rfl | hut
    · simpa using hblocked
    · simpa [hothers u hut, hW u hut, hut] using h.blocked u
  case off =>
    intro u hu r hur
    obtain ⟨hut, hur⟩ := (hmem r u).mp hur
    exact h.off u ((hW u hut).mp hu) r hur
  case timed =>
    intro u hu
    rcases eq_or_ne u t with rfl | hut
    · exact absurd htimeout hu
    · rw [hothers u hut] at hu
      obtain ⟨r, hr⟩ := h.timed u hu
      exact ⟨r, (hmem r u).mpr ⟨hut, hr⟩⟩
  case nodup => exact hnodup

end

theorem abandon (h : Queued node s Q ∅ W) (hfuel : numKThreads < fuel) {p : Proc}
    (htable : tableOf p (s.kthreads t).futexIsShared = ownTable node s t) (ht : t ∈ Q q)
    (errno : Errno) : ∃ s', abandon errno fuel s p t = some s' ∧
      Queued node s' (update Q q ((Q q).erase t)) ∅ W ∧ s'.unblocking = s.unblocking := by
  obtain ⟨haddr, hown⟩ := h.recorded q t ht
  have hlookup : lookup s q.1 (s.vaddr q) = some q.2 := by
    obtain ⟨j, hj⟩ := exists_lookup (s := s) (T := q.1) (i := q.2) rfl
    have hjq := vaddr_of_lookup hj
    rw [hj, h.distinct q.1 q.2 j (h.vaddr_ne_zero ht) hjq.symm]
  obtain ⟨s', hdequeue, hchain, hvaddr, hthreads, hunblocking⟩ := h.dequeue_eq hfuel ht
  have hl : ∀ u, u ∈ (Q q).erase t ↔ u ≠ t ∧ u ∈ Q q := fun u => (h.chain q).nodup.mem_erase_iff
  refine ⟨schedUnblock (s'.setThread t ((s'.kthreads t).failed errno)) t, ?_, ?_, hunblocking⟩
  · simp only [Futex.abandon, find_not_allocate, htable, hown, haddr, hlookup, hdequeue]
    rfl
  · refine h.leave ht hl ?_ ?_ ?_ subset_rfl ?_ ?_ ?_ (fun _ _ => Iff.rfl) h.nodup
    · intro r
      simp only [schedUnblock, KThread.failed, KThread.cleared, next_setThread, head_setThread,
        kthreads_setThread, update_self, update_idem]
      exact (hchain r).congr fun c hc => update_of_ne ((h.mem_leave ht hl r c).mp hc).1 _ _
    · intro r
      simp only [schedUnblock, vaddr_setThread, hvaddr]
      split
      next hnil =>
        rcases eq_or_ne r q with rfl | hr
        · exact .inr ⟨rfl, hnil, update_self ..⟩
        · exact .inl (update_of_ne hr _ _)
      · exact .inl rfl
    · intro hnil
      simp [schedUnblock, hvaddr, hnil]
    · intro u hut
      simp [schedUnblock, hut, hthreads u]
    · simp [schedUnblock, KThread.failed, KThread.cleared]
    · simpa [schedUnblock] using fun hW => h.off t hW q ht

theorem awaken (h : Queued node s Q idle W) (hQ : Q q = t :: l) :
    Queued node (awaken s q t) (update Q q l) (insert q idle) (W ++ [t]) := by
  have ht : t ∈ Q q := by simp [hQ]
  have hchain := h.chain q
  rw [hQ] at hchain
  have hl : ∀ u, u ∈ l ↔ u ≠ t ∧ u ∈ Q q := by
    have hnodup := hchain.nodup
    grind
  refine h.leave ht hl ?_ (fun r => .inl (congrFun (vaddr_awaken s q t) r))
    (fun _ => .inr (mem_insert q idle)) (subset_insert q idle) ?_ ?_ ?_ ?_ ?_
  · intro r
    simp only [Futex.awaken, KThread.cleared, next_setThread, next_setHead,
      head_setThread, head_setHead]
    have hrest : Chain s.next (update s.head q (s.next t) r) (update Q q l r) := by
      rcases eq_or_ne r q with rfl | hr
      · simpa using hchain.2
      · simpa [hr] using h.chain r
    exact hrest.congr fun c hc => update_of_ne ((h.mem_leave ht hl r c).mp hc).1 _ _
  · intro u hut
    simp [Futex.awaken, hut, State.next]
  · simp [Futex.awaken, KThread.cleared]
  · simpa [Futex.awaken, KThread.cleared] using (h.blocked t).mpr (.inr ⟨q, ht⟩)
  · exact fun u hut => by simp [hut]
  · exact nodup_append_comm.mp (nodup_cons.mpr ⟨fun hW => h.off t hW q ht, h.nodup⟩)

end Queued

theorem readdress_eq {ptr : Option Tid} (p : Proc) (a : Addr) (hchain : Chain s.next ptr l)
    (hfuel : l.length < fuel) :
    ∃ s', readdress p a fuel s ptr = some s' ∧ s'.next = s.next ∧ s'.table = s.table ∧
      s'.unblocking = s.unblocking ∧
      (∀ u, (s'.kthreads u).futexVAddr = if u ∈ l then a else (s.kthreads u).futexVAddr) ∧
      ∀ u, (s'.kthreads u).futexIsShared = (s.kthreads u).futexIsShared ∧
        (s'.kthreads u).futexTimeout = (s.kthreads u).futexTimeout ∧
        (s'.kthreads u).blocked = (s.kthreads u).blocked := by
  induction l generalizing s ptr fuel with
  | nil =>
    obtain rfl := chain_nil_iff.mp hchain
    obtain ⟨fuel, rfl⟩ := Nat.exists_eq_succ_of_ne_zero (by omega : fuel ≠ 0)
    exact ⟨s, rfl, rfl, rfl, rfl, fun u => rfl, fun u => ⟨rfl, rfl, rfl⟩⟩
  | cons t l ih =>
    obtain ⟨rfl, hrest⟩ := hchain
    obtain ⟨fuel, rfl⟩ := Nat.exists_eq_succ_of_ne_zero (by omega : fuel ≠ 0)
    have hnext : (s.setThread t ((s.kthreads t).movedTo a (s.memory p a))).next = s.next := by
      rw [next_setThread]
      exact update_eq_self t s.next
    have hrest' : Chain (s.setThread t ((s.kthreads t).movedTo a (s.memory p a))).next
        (s.next t) l := by
      rw [hnext]
      exact hrest
    obtain ⟨s', hs', hnext', htable, hunblocking, haddr, hsame⟩ := ih hrest' (by simpa using hfuel)
    refine ⟨s', hs', hnext'.trans hnext, htable, hunblocking, ?_, ?_⟩
    · intro u
      rw [haddr]
      rcases eq_or_ne u t with rfl | hut
      · simp [KThread.movedTo]
      · simp [hut]
    · intro u
      obtain ⟨hshared, htimeout, hblocked⟩ := hsame u
      rw [hshared, htimeout, hblocked]
      rcases eq_or_ne u t with rfl | hut
      · simp [KThread.movedTo]
      · simp [hut]

namespace Queued

section

variable (h : Queued node s Q idle W)
include h

theorem chain_requeue (hQ : Q q = t :: l) (hne : q' ≠ q)
    (r : TableId × Slot) : Chain (setTail (s.setHead q none) q' (Q q').getLast? (some t)).next
      ((setTail (s.setHead q none) q' (Q q').getLast? (some t)).head r)
      (update (update Q q []) q' (Q q' ++ t :: l) r) := by
  have hchain := h.chain q
  rw [hQ] at hchain
  rcases eq_nil_or_concat' (Q q') with hnil | ⟨m, b, hconcat⟩
  · simp only [hnil, getLast?_nil, setTail, next_setHead, head_setHead, nil_append]
    rcases eq_or_ne r q' with rfl | hr
    · rw [update_self, update_self]
      exact ⟨rfl, hchain.2⟩
    · rw [update_of_ne hr, update_of_ne hr]
      rcases eq_or_ne r q with rfl | hr
      · simp
      · rw [update_of_ne hr, update_of_ne hr]
        exact h.chain r
  · simp only [hconcat, getLast?_concat, setTail, next_setNext, next_setHead,
      head_setNext, head_setHead]
    have hb : b ∈ Q q' := by simp [hconcat]
    rcases eq_or_ne r q' with rfl | hr
    · rw [update_self, update_of_ne hne, append_assoc, singleton_append]
      refine Chain.join (hconcat ▸ h.chain r) ⟨rfl, hchain.2⟩ ?_
      rw [← hQ]
      exact fun hmem => hne (h.unique hb hmem)
    · rw [update_of_ne hr]
      rcases eq_or_ne r q with rfl | hrq
      · simp
      · rw [update_of_ne hrq, update_of_ne hrq]
        refine (h.chain r).congr fun c hc => update_of_ne ?_ _ _
        rintro rfl
        exact hr (h.unique hc hb)

/-- A requeue to another entry ends, also to one that is not in use. -/
theorem requeue_eq (hfuel : numKThreads < fuel) (hQ : Q q = t :: l)
    (hne : q' ≠ q) (p : Proc) : ∃ s', requeue fuel s p q q' t = some s' ∧
      (∀ r, Chain s'.next (s'.head r) (update (update Q q []) q' (Q q' ++ t :: l) r)) ∧
      s'.vaddr = s.vaddr ∧ s'.unblocking = s.unblocking ∧
      (∀ u, (s'.kthreads u).futexVAddr =
        if u ∈ t :: l then s.vaddr q' else (s.kthreads u).futexVAddr) ∧
      ∀ u, (s'.kthreads u).futexIsShared = (s.kthreads u).futexIsShared ∧
        (s'.kthreads u).futexTimeout = (s.kthreads u).futexTimeout ∧
        (s'.kthreads u).blocked = (s.kthreads u).blocked := by
  have hchain := h.chain_requeue hQ hne
  have hmoved := hchain q'
  rw [update_self] at hmoved
  have hlength : (t :: l).length < fuel := hQ ▸ h.length_lt hfuel
  have hfrom : Chain (setTail (s.setHead q none) q' (Q q').getLast? (some t)).next (some t)
      (t :: l) := ⟨rfl, hmoved.of_append⟩
  obtain ⟨s', hs', hnext, htable, hunblocking, hvaddr, hsame⟩ :=
    readdress_eq p (s.vaddr q') hfrom hlength
  simp only [kthreads_setTail, kthreads_setHead] at hvaddr hsame
  refine ⟨s', ?_, ?_, ?_, ?_, hvaddr, hsame⟩
  · simp only [Futex.requeue, h.tailOf_eq hfuel]
    simpa using hs'
  · have hhead : s'.head = (setTail (s.setHead q none) q' (Q q').getLast? (some t)).head := by
      funext r
      exact congrArg (fun table => (table r).waiterNext) htable
    rw [hnext, hhead]
    exact hchain
  · rw [← vaddr_setHead s q none, ← vaddr_setTail (s.setHead q none) q' (Q q').getLast? (some t)]
    funext r
    exact congrArg (fun table => (table r).futexVAddr) htable
  · rw [hunblocking]
    cases (Q q').getLast? <;> rfl

theorem requeue (hfuel : numKThreads < fuel) (hQ : Q q = t :: l)
    (hne : q' ≠ q) (hT : q'.1 = q.1) (haddr : s.vaddr q' ≠ 0#64) (p : Proc) :
    ∃ s', requeue fuel s p q q' t = some s' ∧
      Queued node s' (update (update Q q []) q' (Q q' ++ t :: l)) (insert q idle) W ∧
      s'.vaddr = s.vaddr ∧ s'.unblocking = s.unblocking := by
  have hmem : ∀ r u, u ∈ update (update Q q []) q' (Q q' ++ t :: l) r ↔
      (r ≠ q ∧ u ∈ Q r) ∨ (r = q' ∧ u ∈ Q q) := by
    intro r u
    rcases eq_or_ne r q' with rfl | hr
    · simp [hne, hQ]
    · rcases eq_or_ne r q with rfl | hrq
      · simp [hr]
      · simp [hr, hrq]
  have hsome : ∀ u, (∃ r, u ∈ update (update Q q []) q' (Q q' ++ t :: l) r) ↔ ∃ r, u ∈ Q r := by
    intro u
    simp only [hmem]
    constructor
    · rintro ⟨r, ⟨-, hu⟩ | ⟨-, hu⟩⟩
      · exact ⟨r, hu⟩
      · exact ⟨q, hu⟩
    · rintro ⟨r, hu⟩
      rcases eq_or_ne r q with rfl | hr
      · exact ⟨q', .inr ⟨rfl, hu⟩⟩
      · exact ⟨r, .inl ⟨hr, hu⟩⟩
  obtain ⟨s', hs', hchain, hvaddr', hunblocking, hvaddr, hsame⟩ := h.requeue_eq hfuel hQ hne p
  refine ⟨s', hs', ?_, hvaddr', hunblocking⟩
  constructor
  case chain => exact hchain
  case free =>
    intro r hr
    rw [hvaddr'] at hr
    have hr' : r ≠ q' := fun hrq => haddr (hrq ▸ hr)
    rw [update_of_ne hr']
    rcases eq_or_ne r q with rfl | hrq
    · rw [update_self]
    · rw [update_of_ne hrq]
      exact h.free r hr
  case used =>
    intro r hr
    rw [hvaddr']
    have hr' : r ≠ q' := by
      rintro rfl
      simp at hr
    rw [update_of_ne hr'] at hr
    rcases eq_or_ne r q with rfl | hrq
    · exact .inr (mem_insert r idle)
    · rw [update_of_ne hrq] at hr
      exact (h.used r hr).imp_right (mem_insert_of_mem q)
  case distinct =>
    rw [hvaddr']
    exact h.distinct
  case recorded =>
    intro r u hu
    rw [hvaddr, hvaddr', ownTable, (hsame u).1, ← hQ]
    rcases (hmem r u).mp hu with ⟨hrq, hur⟩ | ⟨rfl, huq⟩
    · rw [if_neg fun huq => hrq (h.unique hur huq)]
      exact h.recorded r u hur
    · rw [if_pos huq]
      exact ⟨rfl, (h.recorded q u huq).2.trans hT.symm⟩
  case blocked =>
    intro u
    rw [(hsame u).2.2, hsome]
    exact h.blocked u
  case off =>
    intro u hu r hmem'
    obtain ⟨r', hr'⟩ := (hsome u).mp ⟨r, hmem'⟩
    exact h.off u hu r' hr'
  case timed =>
    intro u hu
    rw [hsome]
    exact h.timed u ((hsame u).2.1 ▸ hu)
  case nodup => exact h.nodup

theorem head_eq_none_iff : s.head q = none ↔ Q q = [] := by
  have hchain := h.chain q
  cases hQ : Q q with
  | nil => simpa [hQ] using hchain
  | cons t l =>
    rw [hQ] at hchain
    simp [hchain.1]

theorem releaseIfEmpty (q : TableId × Slot) :
    Queued node (releaseIfEmpty s q) Q (idle \ {q}) W := by
  unfold Futex.releaseIfEmpty
  split
  next hhead =>
    exact h.setEntry (h.head_eq_none_iff.mp hhead) (by simpa using h.chain) (by simp) rfl (.inl rfl)
      (.inl rfl) fun r hr hrq => ⟨hr, hrq⟩
  next hhead =>
    refine { h with used := fun r hr => (h.used r hr).imp_right fun hmem => ⟨hmem, ?_⟩ }
    rintro rfl
    exact hhead (h.head_eq_none_iff.mpr hr)

end

theorem wakeLoop {n : Nat} (awoken : List Tid) {maxToWake : Int}
    {secondary : Option (TableId × Slot)} (p : Proc) (hfuel : numKThreads < fuel)
    (h : Queued node s Q idle (W ++ awoken)) (hn : (Q q).length < n)
    (hsecondary : ∀ q', secondary = some q' →
      (awoken.length + (Q q).length : Int) ≤ maxToWake ∨
        (q' ≠ q ∧ q'.1 = q.1 ∧ s.vaddr q' ≠ 0#64)) :
    ∃ s' awoken', wakeLoop fuel p q maxToWake secondary n s awoken = some (s', awoken') ∧
      awoken' = awoken ++ (Q q).take (maxToWake - awoken.length).toNat ∧
      Queued node s' (afterWake Q q (maxToWake - awoken.length).toNat secondary) (insert q idle)
        (W ++ awoken') ∧
      s'.vaddr = s.vaddr ∧ s'.unblocking = s.unblocking := by
  induction n generalizing s Q idle awoken with
  | zero => omega
  | succ n ih =>
    rw [Futex.wakeLoop]
    cases hQ : Q q with
    | nil =>
      rw [h.head_eq_none_iff.mpr hQ, afterWake_nil hQ]
      exact ⟨s, awoken, rfl, by simp, h.mono (subset_insert q idle), rfl, rfl⟩
    | cons t l =>
      have hchain := h.chain q
      rw [hQ] at hchain hn hsecondary
      simp only [length_cons] at hn
      rw [hchain.1]
      simp only
      split
      next hmax =>
        have hawoken := h.awaken hQ
        rw [append_assoc] at hawoken
        have hQ' : update Q q l q = l := update_self ..
        obtain ⟨s', awoken', hrun, htake, hs', hvaddr, hunblocking⟩ :=
          ih _ hawoken (by rw [hQ']; omega) (by
            intro q' hq'
            rw [hQ', vaddr_awaken]
            refine (hsecondary q' hq').imp ?_ id
            simp only [length_cons, length_append, length_nil]
            omega)
        have hk : (maxToWake - awoken.length).toNat =
            (maxToWake - (awoken ++ [t]).length).toNat + 1 := by
          simp only [length_append, length_singleton]
          omega
        rw [insert_eq_of_mem (mem_insert q idle), afterWake_cons hQ, ← hk] at hs'
        refine ⟨s', awoken', hrun, ?_, hs', hvaddr.trans (vaddr_awaken s q t), hunblocking⟩
        rw [htake, hQ', hk, take_succ_cons, append_assoc, singleton_append]
      next hmax =>
        have hk : (maxToWake - awoken.length).toNat = 0 := by omega
        rw [hk, take_zero, append_nil]
        cases secondary with
        | none =>
          rw [afterWake, dropFront_zero]
          exact ⟨s, awoken, rfl, rfl, h.mono (subset_insert q idle), rfl, rfl⟩
        | some q' =>
          have hother := (hsecondary q' rfl).resolve_left (by
            simp only [length_cons]
            omega)
          obtain ⟨hne, hT, haddr⟩ := hother
          obtain ⟨s1, hs1, hq1, hvaddr1, hunblocking1⟩ := h.requeue hfuel hQ hne hT haddr p
          rw [← hQ, ← moveRest] at hq1
          have hempty : moveRest Q q q' q = [] := by
            rw [moveRest, update_of_ne hne.symm, update_self]
          obtain ⟨s', awoken', hrun, htake, hs', hvaddr, hunblocking⟩ :=
            ih _ hq1 (by rw [hempty]; exact Nat.lt_of_lt_of_le (Nat.succ_pos l.length) (by omega))
              (by
                rintro q'' ⟨⟩
                exact .inr ⟨hne, hT, hvaddr1 ▸ haddr⟩)
          rw [insert_eq_of_mem (mem_insert q idle), afterWake_nil hempty] at hs'
          refine ⟨s', awoken', ?_, ?_, ?_, hvaddr.trans hvaddr1,
            hunblocking.trans hunblocking1⟩
          · simpa [hs1] using hrun
          · simpa [hempty] using htake
          · rwa [afterWake, dropFront_zero]

theorem vaddr_releaseIfEmpty (h : Queued node s Q idle W) (q r : TableId × Slot) :
    (Futex.releaseIfEmpty s q).vaddr r = s.vaddr r ∨
      ((Futex.releaseIfEmpty s q).vaddr r = 0#64 ∧ Q r = []) := by
  unfold Futex.releaseIfEmpty
  split
  next hhead =>
    rw [vaddr_setVAddr]
    rcases eq_or_ne r q with rfl | hrq
    · exact .inr ⟨update_self .., h.head_eq_none_iff.mp hhead⟩
    · exact .inl (update_of_ne hrq ..)
  · exact .inl rfl

theorem wakeQueue (hfuel : numKThreads < fuel) (p : Proc) (q : TableId × Slot) (maxToWake : Int)
    (secondary : Option (TableId × Slot)) (h : Queued node s Q {q | secondary = some q} W)
    (hsecondary : ∀ q', secondary = some q' →
      ((Q q).length : Int) ≤ maxToWake ∨ (q' ≠ q ∧ q'.1 = q.1 ∧ s.vaddr q' ≠ 0#64)) :
    ∃ s', futexWakeQueue fuel s p (some q) maxToWake secondary =
        some (s', (Q q).take maxToWake.toNat) ∧
      Queued node s' (afterWake Q q maxToWake.toNat secondary) ∅
        (W ++ (Q q).take maxToWake.toNat) ∧
      (∀ r, s'.vaddr r = s.vaddr r ∨
        (s'.vaddr r = 0#64 ∧ afterWake Q q maxToWake.toNat secondary r = [])) ∧
      s'.unblocking = s.unblocking := by
  obtain ⟨s1, awoken, hrun, htake, h1, hvaddr, hunblocking⟩ :=
    wakeLoop [] p hfuel (by simpa using h) (h.length_lt (q := q) hfuel)
      (by simpa using fun q' hq' => hsecondary q' hq')
  simp only [length_nil, Int.natCast_zero, Int.sub_zero, nil_append] at htake h1
  subst htake
  have hreleased := h1.releaseIfEmpty q
  have hvaddr1 := h1.vaddr_releaseIfEmpty q
  rw [hvaddr] at hvaddr1
  have hunblocking1 : (Futex.releaseIfEmpty s1 q).unblocking = s.unblocking := by
    rw [← hunblocking, Futex.releaseIfEmpty]
    split <;> rfl
  simp only [futexWakeQueue, hrun]
  cases secondary with
  | none =>
    refine ⟨_, rfl, hreleased.mono ?_, hvaddr1, hunblocking1⟩
    rintro r ⟨hr | hr, hrq⟩
    · exact hrq hr
    · cases hr
  | some q' =>
    refine ⟨_, rfl, (hreleased.releaseIfEmpty q').mono ?_, ?_, ?_⟩
    · rintro r ⟨⟨hr | hr, hrq⟩, hrq'⟩
      · exact hrq hr
      · exact hrq' (some.inj hr).symm
    · intro r
      rcases hreleased.vaddr_releaseIfEmpty q' r with hsame | hgone
      · rw [hsame]
        exact hvaddr1 r
      · exact .inr hgone
    · rw [← hunblocking1, Futex.releaseIfEmpty]
      split <;> rfl

theorem store (h : Queued node s Q idle W) (p : Proc) (a : Addr) (v : Word) :
    Queued node (store s p a v) Q idle W :=
  ⟨h.chain, h.free, h.used, h.distinct, h.recorded, h.blocked, h.off, h.timed, h.nodup⟩

end Queued

theorem Queued.unblock (h : Queued node s Q idle W) (ht : t ∈ W) :
    Queued node (schedUnblock { s with unblocking := W.erase t } t) Q idle (W.erase t) := by
  have hnext : (schedUnblock { s with unblocking := W.erase t } t).next = s.next := by
    rw [schedUnblock, next_setThread]
    exact update_eq_self t s.next
  have hsame : ∀ u, (schedUnblock { s with unblocking := W.erase t } t).kthreads u =
      { s.kthreads u with blocked := if u = t then false else (s.kthreads u).blocked } := by
    intro u
    rcases eq_or_ne u t with rfl | hut
    · simp [schedUnblock]
    · simp [schedUnblock, hut]
  constructor
  case chain =>
    rw [hnext]
    exact h.chain
  case free => exact h.free
  case used => exact h.used
  case distinct => exact h.distinct
  case recorded =>
    intro q u hu
    simp only [ownTable, hsame]
    exact h.recorded q u hu
  case blocked =>
    intro u
    rw [hsame]
    rcases eq_or_ne u t with rfl | hut
    · simpa [h.nodup.not_mem_erase] using h.off u ht
    · simpa [hut, mem_erase_of_ne hut] using h.blocked u
  case off => exact fun u hu q => h.off u (mem_of_mem_erase hu) q
  case timed =>
    intro u hu
    rw [hsame] at hu
    exact h.timed u hu
  case nodup => exact h.nodup.erase t

end BgqDriver.FutexQueues
