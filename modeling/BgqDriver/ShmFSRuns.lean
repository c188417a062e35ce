import Mathlib.Data.Set.BooleanAlgebra
import Mathlib.Order.CompletePartialOrder
import BgqDriver.ShmFSExtents

/-!
Runs of calls on shared-memory files: the files stay apart as long as no call asks for
empty storage, for a size that wraps, or for a truncation over the next file.
-/

namespace BgqDriver.ShmFSRuns

open Function Option Set
open ExtentTables ShmFS EventRuns ShmFSExtents

variable {Fd : Type*} {r : Region} {s s' : State Fd} {k x : Slot} {e : Extent}
  {fuel : Nat} {fd : Fd} {reply : Reply Fd}

/-- The storage of the existing files lies in the region, no two overlap, and no two
start at the same address. -/
structure Sound (r : Region) (pool : Pool) : Prop where
  inside : ∀ x e, extents pool x = some e → r.vStart ≤ e.base ∧ e.limit ≤ r.vStart + r.size
  disjoint : ∀ x y e f, extents pool x = some e → extents pool y = some f → x ≠ y →
    Disjoint (Ico e.base e.limit) (Ico f.base f.limit)
  distinct : ∀ x y e f, extents pool x = some e → extents pool y = some f → x ≠ y →
    e.base ≠ f.base

/-- A condition on the file of a descriptor, if it is open. -/
def OnFile (fuel : Nat) (s : State Fd) (fd : Fd) (P : Slot → Descriptor → Prop) : Prop :=
  ∀ k d, s.findByDescriptor fuel fd = some (some (k, d)) → P k d

instance (fuel : Nat) (s : State Fd) (fd : Fd) (P : Slot → Descriptor → Prop)
    [∀ k d, Decidable (P k d)] : Decidable (OnFile fuel s fd P) :=
  match h : s.findByDescriptor fuel fd with
  | some (some (k, d)) => decidable_of_iff (P k d) (by simp [OnFile, h])
  | some none => isTrue (by simp [OnFile, h])
  | none => isTrue (by simp [OnFile, h])

/-- The calls that keep the files apart. A write asks for some storage and not for more
than 64 bits can count; so does a mapping, and a file for atomics fits behind all others
where it is put. A file with storage is not truncated to nothing, nor to more than there
is up to the next file. -/
def Careful (fuel : Nat) (r : Region) (s : State Fd) : Call Fd → Prop
  | .write fd buffer => OnFile fuel s fd fun k d => Roomy r (s.writeSpace k d buffer.length)
  | .mmap fd length => OnFile fuel s fd fun k _ => (s.pool k).allocatedAddr = 0 →
      length + (r.vStart + r.size) + 4096 ≤ 2 ^ 64 ∧
        ((s.pool k).needAtomic = true → s.atomicAddr r.toShmMgr + length ≤ r.vStart + r.size)
  | .ftruncate64 fd offset => OnFile fuel s fd fun k _ => (s.pool k).allocatedAddr ≠ 0 →
      0 < toU64 offset ∧
        (s.pool k).allocatedAddr + toU64 offset ≤ ceiling r.toShmMgr s.pool (s.pool k)
  | _ => True

instance (fuel : Nat) (r : Region) (s : State Fd) : ∀ c, Decidable (Careful fuel r s c)
  | .write _ _ => inferInstanceAs (Decidable (OnFile _ _ _ _))
  | .mmap _ _ => inferInstanceAs (Decidable (OnFile _ _ _ _))
  | .ftruncate64 _ _ => inferInstanceAs (Decidable (OnFile _ _ _ _))
  | .openFile .. | .close _ | .ioctl _ | .lseek .. | .link .. | .read .. | .unlink _ =>
    isTrue trivial

theorem withDescriptor_cases {body : Slot → Descriptor → Option (State Fd × Reply Fd)}
    (h : s.withDescriptor fuel fd body = some (s', reply)) : (s' = s ∧ reply = .failure .EBADF) ∨
      ∃ k d, s.findByDescriptor fuel fd = some (some (k, d)) ∧ body k d = some (s', reply) := by
  obtain ⟨found, hfound, h⟩ := bind_eq_some_iff.mp h
  rcases found with _ | ⟨k, d⟩
  · cases h
    exact .inl ⟨rfl, rfl⟩
  · exact .inr ⟨k, d, hfound, h⟩

variable {entry : ShmMgrEntry} {pool : Pool} {c : Call Fd} {offset : Int}
  {length : Nat} {path : Path}

section Entries

def Call.allocates : Call Fd → Bool
  | .ftruncate64 .. | .mmap .. | .write .. => true
  | _ => false

/-- What the other calls do to an entry in use: they may give it up, and change its
counts and flags. -/
structure Touched (old new : ShmMgrEntry) : Prop where
  owner : new.owner = true → old.owner = true
  pinned : new.pinned = old.pinned
  addr : new.allocatedAddr = old.allocatedAddr
  size : new.allocatedSize = old.allocatedSize

structure Fresh (old new : ShmMgrEntry) : Prop where
  owner : old.owner = false
  pinned : new.pinned = false
  addr : new.allocatedAddr = 0
  size : new.allocatedSize = 0

structure Tended (s s' : State Fd) : Prop where
  entry : ∀ x, Touched (s.pool x) (s'.pool x) ∨ Fresh (s.pool x) (s'.pool x)
  memory : s'.memory = s.memory

theorem Touched.refl (e : ShmMgrEntry) : Touched e e := ⟨id, rfl, rfl, rfl⟩

theorem Tended.refl (s : State Fd) : Tended s s := ⟨fun _ => .inl (Touched.refl _), rfl⟩

theorem Tended.trans {t : State Fd} (h : Tended s t) (h' : Tended t s')
    (hkeep : ∀ x, (t.pool x).owner = false → (s.pool x).owner = false) : Tended s s' := by
  refine ⟨?_, h'.memory.trans h.memory⟩
  intro x
  rcases h.entry x with hst | hst
  · rcases h'.entry x with hts | hts
    · exact .inl ⟨hst.owner ∘ hts.owner, hts.pinned.trans hst.pinned, hts.addr.trans hst.addr,
        hts.size.trans hst.size⟩
    · exact .inr ⟨hkeep x hts.owner, hts.pinned, hts.addr, hts.size⟩
  · right
    rcases h'.entry x with hts | hts
    · exact ⟨hst.owner, hts.pinned.trans hst.pinned, hts.addr.trans hst.addr,
        hts.size.trans hst.size⟩
    · exact ⟨hst.owner, hts.pinned, hts.addr, hts.size⟩

theorem tended_setEntry (hentry : Touched (s.pool k) entry ∨ Fresh (s.pool k) entry) :
    Tended s (s.setEntry k entry) := by
  refine ⟨?_, rfl⟩
  exact (forall_update_iff s.pool fun x e => Touched (s.pool x) e ∨ Fresh (s.pool x) e).mpr
    ⟨hentry, fun x _ => .inl (Touched.refl _)⟩

theorem tended_remove (s : State Fd) (k : Slot) : Tended s (s.remove k) := by
  refine ⟨?_, rfl⟩
  intro x
  left
  rw [State.remove]
  simp only
  split_ifs
  · exact ⟨Bool.noConfusion, rfl, rfl, rfl⟩
  · exact Touched.refl _

theorem not_owner_of_setEntry (hentry : entry.owner = (s.pool k).owner ∨
    entry.owner = true) : ∀ x, ((s.setEntry k entry).pool x).owner = false →
      (s.pool x).owner = false := by
  intro x hx
  rcases eq_or_ne x k with rfl | hxk
  · rw [State.setEntry_pool_self] at hx
    rcases hentry with h | h
    · exact h.symm.trans hx
    · rw [h] at hx
      cases hx
  · rwa [State.setEntry_pool_of_ne _ hxk] at hx

theorem freeSlot_owner (h : freeSlot pool = some k) : (pool k).owner = false := by
  simpa using List.find?_some h

theorem Tended.extents_sub (h : Tended s s') :
    ∀ x e, extents s'.pool x = some e → extents s.pool x = some e := by
  intro x e hx
  obtain ⟨howner, hne, hbase, hsize⟩ := extents_eq_some.mp hx
  rcases h.entry x with htouched | hfresh
  · rw [extents_eq_some, ← htouched.addr, ← htouched.size]
    exact ⟨htouched.owner howner, hne, hbase, hsize⟩
  · exact absurd hfresh.addr hne

theorem link_tended {linkPath : Path} (h : s.link fuel path linkPath = some (s', reply)) :
    Tended s s' := by
  rw [State.link] at h
  split at h
  · cases h
    exact Tended.refl _
  · obtain ⟨source, -, h⟩ := bind_eq_some_iff.mp h
    split at h
    · cases h
      exact Tended.refl _
    · split at h
      · cases h
        exact Tended.refl _
      next k hk =>
        cases h
        have hnew : Tended s (s.setEntry k { ShmMgrEntry.zero with
            owner := true, isHardLink := true, hardLinkPtr := source,
            fileName := storedName linkPath }) :=
          tended_setEntry (.inr ⟨freeSlot_owner hk, rfl, rfl, rfl⟩)
        exact hnew.trans (tended_setEntry (.inl ⟨id, rfl, rfl, rfl⟩))
          (not_owner_of_setEntry (.inr rfl))

theorem unlink_tended (h : s.unlink fuel path = some (s', reply)) : Tended s s' := by
  rw [State.unlink] at h
  split at h
  · cases h
    exact Tended.refl _
  next x _ =>
    obtain ⟨k, -, h⟩ := map_eq_some_iff.mp h
    cases h
    generalize (if (s.pool x).isHardLink = true then (s.pool k).linkCount - 1#32
      else (s.pool k).linkCount) = count
    have hcount : Tended s (s.setEntry k { s.pool k with linkCount := count }) :=
      tended_setEntry (.inl ⟨id, rfl, rfl, rfl⟩)
    split
    · exact hcount.trans (tended_remove _ k) (not_owner_of_setEntry (.inl rfl))
    · exact hcount.trans (tended_setEntry (.inl ⟨id, rfl, rfl, rfl⟩))
        (not_owner_of_setEntry (.inl rfl))

theorem ioctl_tended (h : s.ioctl fuel fd = some (s', reply)) : Tended s s' := by
  obtain ⟨⟨s1, reply1⟩, hfound, heq⟩ := map_eq_some_iff.mp h
  cases heq
  rcases withDescriptor_cases hfound with ⟨rfl, -⟩ | ⟨k, d, -, hset⟩
  · exact Tended.refl _
  · cases hset
    exact tended_setEntry (.inl ⟨id, rfl, rfl, rfl⟩)

end Entries

section Calls

variable (hs : r.Separates s.pool)
include hs

theorem ftruncate64_separates (hcareful : Careful fuel r s (.ftruncate64 fd offset))
    (h : s.ftruncate64 fuel fd offset = some (s', reply)) : r.Separates s'.pool := by
  rcases withDescriptor_cases h with ⟨rfl, -⟩ | ⟨k, d, hfd, h⟩
  · exact hs
  · cases h
    have hset : (s.setEntry k { s.pool k with allocatedSize := toU64 offset }) =
      s.setSpace k (s.pool k).allocatedAddr (toU64 offset) := rfl
    rw [hset]
    cases howner : (s.pool k).owner with
    | false =>
      rw [Region.Separates, extents_setSpace_of_not_owner howner]
      exact hs
    | true =>
      rcases eq_or_ne (s.pool k).allocatedAddr 0 with hzero | hne
      · apply hs.mono
        intro x e hx
        rw [State.setSpace, State.setEntry, extents_update] at hx
        rcases eq_or_ne x k with rfl | hxk
        · rw [update_self, extents_eq_some] at hx
          exact absurd hzero hx.2.1
        · rwa [update_of_ne hxk] at hx
      · obtain ⟨hpos, hfits⟩ := hcareful k d hfd hne
        exact (setSpace_moves hs howner hne hpos hfits).separates hs

theorem atomicAddr_spec (hsize : l2AtomicSize ≤ r.size) : r.vStart ≤ s.atomicAddr r.toShmMgr ∧
    ∀ j f, extents s.pool j = some f → f.limit ≤ s.atomicAddr r.toShmMgr := by
  have hle := r.le
  have hstart : sub64 r.vEnd l2AtomicSize = r.vStart + r.size - l2AtomicSize := by
    rw [r.vEnd_eq]
    exact sub64_eq (by omega) (by omega)
  rw [State.atomicAddr, hstart]
  cases hprevious : previousAddress s.pool r.vEnd with
  | none =>
    refine ⟨by simp only; omega, ?_⟩
    intro j f hj
    have hbase := previousAddress_none hprevious j f hj
    have hlimit := hs.upper j f hj
    have hlt := hs.lt_limit hj
    rw [r.vEnd_eq] at hbase
    omega
  | some p =>
    obtain ⟨howner, hne, -, hlast⟩ := previousAddress_some hprevious
    have hext := extents_of_owner howner hne
    have hupper := hs.upper p _ hext
    simp only [Extent.limit] at hupper
    simp only
    rw [add64_eq (by omega)]
    refine ⟨by omega, ?_⟩
    intro j f hj
    have hlimit := hs.upper j f hj
    have hlt := hs.lt_limit hj
    have hbase := hlast j f hj (by rw [r.vEnd_eq]; omega)
    have hends : f.limit ≤ (s.pool p).allocatedAddr + (s.pool p).allocatedSize := by
      rcases Nat.lt_or_eq_of_le hbase with hbelow | hsame
      · exact Nat.le_trans (hs.limit_le hj hext hbelow) (Nat.le_add_right _ _)
      · obtain rfl := hs.eq_of_base_eq hj hext hsame
        rw [hext] at hj
        cases hj
        exact Nat.le_refl _
    omega

def atomicEntry (s : State Fd) (mgr : ShmMgr) (k : Slot) : ShmMgrEntry :=
  { s.pool k with allocatedAddr := s.atomicAddr mgr, allocatedSize := 0, pinned := true }

theorem extendInPlace_atomic (hsize : l2AtomicSize ≤ r.size) (hpos : 0 < length)
    (hne : s.atomicAddr r.toShmMgr ≠ 0)
    (hfits : s.atomicAddr r.toShmMgr + length ≤ r.vStart + r.size) :
    (s.setEntry k (atomicEntry s r.toShmMgr k)).extendInPlace r.toShmMgr k length =
      some ((s.setEntry k (atomicEntry s r.toShmMgr k)).setSpace k (s.atomicAddr r.toShmMgr)
        length) := by
  have hle := r.le
  have hentry : (s.setEntry k (atomicEntry s r.toShmMgr k)).pool k = atomicEntry s r.toShmMgr k :=
    update_self ..
  have hnext : nextAddress (s.setEntry k (atomicEntry s r.toShmMgr k)).pool
      (atomicEntry s r.toShmMgr k) = none := by
    by_contra hsome
    obtain ⟨next, hnext⟩ := ne_none_iff_exists'.mp hsome
    obtain ⟨howner, hnne, hlt, -⟩ := nextAddress_some hnext
    rcases eq_or_ne next k with rfl | hnk
    · rw [hentry] at hlt
      exact absurd hlt (Nat.lt_irrefl _)
    · have hsame : (s.setEntry k (atomicEntry s r.toShmMgr k)).pool next = s.pool next :=
        update_of_ne hnk ..
      rw [hsame] at howner hnne hlt
      have hext := extents_of_owner howner hnne
      have hlimit := (atomicAddr_spec hs hsize).2 next _ hext
      simp only [Extent.limit] at hlimit
      simp only [atomicEntry] at hlt
      omega
  have haddr : (atomicEntry s r.toShmMgr k).allocatedAddr = s.atomicAddr r.toShmMgr := rfl
  have hzero : (atomicEntry s r.toShmMgr k).allocatedSize = 0 := rfl
  rw [State.extendInPlace]
  simp only [hentry, hnext, haddr, hzero]
  rw [if_neg (by omega), if_pos hne, if_pos]
  rw [r.vEnd_eq, add64_eq (by omega)]
  omega

theorem mmap_atomic_separates {calls : Nat} {ok : Bool} (hsize : l2AtomicSize ≤ r.size)
    (hpos : 0 < length) (hzero : (s.pool k).allocatedAddr = 0)
    (hfits : s.atomicAddr r.toShmMgr + length ≤ r.vStart + r.size)
    (h : State.defineMemorySpace fuel r.toShmMgr k length calls
      (s.setEntry k (atomicEntry s r.toShmMgr k)) = some (s', ok)) : r.Separates s'.pool := by
  obtain ⟨hlower, hbehind⟩ := atomicAddr_spec hs hsize
  have hne : s.atomicAddr r.toShmMgr ≠ 0 := by
    rcases r.pos with hstart | hnone
    all_goals omega
  cases calls with
  | zero => cases h
  | succ calls =>
    rw [State.defineMemorySpace, extendInPlace_atomic hs hsize hpos hne hfits] at h
    cases h
    have hentry : (s.setEntry k (atomicEntry s r.toShmMgr k)).pool k =
        atomicEntry s r.toShmMgr k := update_self ..
    have hpool : ((s.setEntry k (atomicEntry s r.toShmMgr k)).setSpace k
        (s.atomicAddr r.toShmMgr) length).pool = update s.pool k { atomicEntry s r.toShmMgr k with
          allocatedSize := length } := by
      rw [State.setSpace, hentry]
      exact update_idem ..
    rw [Region.Separates, hpool, extents_update]
    cases howner : (s.pool k).owner with
    | true =>
      have hext : extents (fun _ => { atomicEntry s r.toShmMgr k with
          allocatedSize := length }) k = some ⟨s.atomicAddr r.toShmMgr, length⟩ :=
        if_pos ⟨howner, hne⟩
      rw [hext]
      exact hs.set hpos hlower hfits fun j f hj _ => .inl (hbehind j f hj)
    | false =>
      have hext : extents (fun _ => { atomicEntry s r.toShmMgr k with
          allocatedSize := length }) k = none := if_neg (by simp [atomicEntry, howner])
      rw [hext, ← extents_eq_none hzero, update_eq_self]
      exact hs

theorem mmap_separates (hpos : 0 < length) (hcareful : Careful fuel r s (.mmap fd length))
    (h : s.mmap fuel r.toShmMgr fd length = some (s', reply)) : r.Separates s'.pool := by
  rcases withDescriptor_cases h with ⟨rfl, -⟩ | ⟨k, d, hfd, h⟩
  · exact hs
  · simp only at h
    split_ifs at h with haddr hsmall hatomic
    · cases h
      exact hs
    · cases h
      exact hs
    · have hzero := not_not.mp haddr
      obtain ⟨⟨t, ok⟩, hdefine, h⟩ := map_eq_some_iff.mp h
      cases h
      have hsize : l2AtomicSize ≤ r.size :=
        Nat.le_of_not_lt fun hlt => hsmall ⟨hatomic, hlt⟩
      exact mmap_atomic_separates hs hsize hpos hzero ((hcareful k d hfd hzero).2 hatomic) hdefine
    · have hzero := not_not.mp haddr
      obtain ⟨⟨t, ok⟩, hdefine, h⟩ := map_eq_some_iff.mp h
      cases h
      have hentry : r.Separates (s.setEntry k { s.pool k with pinned := true }).pool := by
        rw [Region.Separates, State.setEntry, extents_update]
        have hsame : extents (fun _ => { s.pool k with pinned := true }) k = extents s.pool k := rfl
        rw [hsame, update_eq_self]
        exact hs
      exact defineMemorySpace_separates hentry ⟨hpos, (hcareful k d hfd hzero).1⟩ hdefine

end Calls

theorem separates_initial (r : Region) (memory : Nat → Byte) :
    r.Separates (initial Fd memory).pool := by
  have hnone : ∀ x e, extents (initial Fd memory).pool x ≠ some e := by
    intro x e he
    exact (extents_eq_some.mp he).2.1 rfl
  exact ⟨fun x e he => absurd he (hnone x e), fun x e he => absurd he (hnone x e),
    fun x e he => absurd he (hnone x e), fun x _ e _ he => absurd he (hnone x e)⟩

variable [DecidableEq Fd]

theorem Tended.setFd (h : Tended s s') (fd : Fd) (d : Option Descriptor) :
    Tended s (s'.setFd fd d) :=
  ⟨h.entry, h.memory⟩

theorem close_tended (h : s.close fuel fd = some (s', reply)) : Tended s s' := by
  rcases withDescriptor_cases h with ⟨rfl, -⟩ | ⟨k, d, -, h⟩
  · exact Tended.refl _
  · cases h
    have hcount : Tended s (s.setEntry k { s.pool k with
        linkCount := (s.pool k).linkCount - 1#32 }) :=
      tended_setEntry (.inl ⟨id, rfl, rfl, rfl⟩)
    split
    · exact (hcount.setFd fd none).trans (tended_remove _ k) (not_owner_of_setEntry (.inl rfl))
    · exact hcount.setFd fd none

theorem openFile_tended {creat excl : Bool} {fd : Option Fd}
    (h : s.openFile fuel path creat excl fd = some (s', reply)) : Tended s s' := by
  rw [State.openFile] at h
  split at h
  · obtain ⟨k, -, h⟩ := map_eq_some_iff.mp h
    have hcount : Tended s (s.setEntry k { s.pool k with
        linkCount := (s.pool k).linkCount + 1#32 }) :=
      tended_setEntry (.inl ⟨id, rfl, rfl, rfl⟩)
    split_ifs at h
    · cases h
      exact Tended.refl _
    · cases fd with
      | none =>
        cases h
        exact hcount
      | some fd =>
        cases h
        exact hcount.setFd fd _
  · split_ifs at h
    · cases h
      exact Tended.refl _
    · split at h
      · cases h
        exact Tended.refl _
      next k hk =>
        cases fd with
        | none =>
          cases h
          exact tended_setEntry (.inr ⟨freeSlot_owner hk, rfl, rfl, rfl⟩)
        | some fd =>
          cases h
          exact (tended_setEntry (.inr ⟨freeSlot_owner hk, rfl, rfl, rfl⟩)).setFd fd _

theorem lseek_tended {whence : Whence} (h : s.lseek fuel fd offset whence = some (s', reply)) :
    Tended s s' := by
  rcases withDescriptor_cases h with ⟨rfl, -⟩ | ⟨k, d, -, h⟩
  · exact Tended.refl _
  · simp only at h
    split at h
    all_goals
      cases h
      exact ⟨(Tended.refl s).entry, rfl⟩

theorem read_tended (h : s.read fuel fd length = some (s', reply)) : Tended s s' := by
  rcases withDescriptor_cases h with ⟨rfl, -⟩ | ⟨k, d, -, h⟩
  · exact Tended.refl _
  · simp only at h
    split_ifs at h
    all_goals
      cases h
      exact ⟨(Tended.refl s).entry, rfl⟩

theorem call_tended {mgr : ShmMgr} (hc : Call.allocates c = false)
    (h : call fuel mgr s c = some (s', reply)) : Tended s s' := by
  cases c with
  | openFile path creat excl fd =>
    rw [call] at h
    split_ifs at h
    exact openFile_tended h
  | close fd => exact close_tended h
  | ioctl fd => exact ioctl_tended h
  | lseek fd offset whence => exact lseek_tended h
  | link path linkPath => exact link_tended h
  | read fd length => exact read_tended h
  | unlink path => exact unlink_tended h
  | ftruncate64 fd offset | mmap fd length | write fd buffer => cases hc

theorem write_separates {buffer : List Byte} (hs : r.Separates s.pool)
    (hcareful : Careful fuel r s (.write fd buffer))
    (h : s.write fuel r.toShmMgr fd buffer = some (s', reply)) : r.Separates s'.pool := by
  rcases withDescriptor_cases h with ⟨rfl, -⟩ | ⟨k, d, hfd, h⟩
  · exact hs
  · obtain ⟨⟨t, ok⟩, hdefine, h⟩ := map_eq_some_iff.mp h
    have ht := defineMemorySpace_separates hs (hcareful k d hfd) hdefine
    simp only at h
    split_ifs at h
    all_goals
      cases h
      exact ht

theorem step_separates (hs : r.Separates s.pool) (hcareful : Careful fuel r s c)
    (h : step fuel r.toShmMgr s c = some s') : r.Separates s'.pool := by
  obtain ⟨⟨t, reply⟩, hcall, rfl⟩ := map_eq_some_iff.mp h
  cases hc : Call.allocates c with
  | false => exact hs.mono (call_tended hc hcall).extents_sub
  | true =>
    cases c with
    | ftruncate64 fd offset => exact ftruncate64_separates hs hcareful hcall
    | mmap fd length =>
      rw [call] at hcall
      split_ifs at hcall with hzero
      · cases hcall
        exact hs
      · exact mmap_separates hs (Nat.pos_of_ne_zero hzero) hcareful hcall
    | write fd buffer => exact write_separates hs hcareful hcall
    | _ => cases hc

theorem sound_of_separates (hs : r.Separates pool) : Sound r pool := by
  constructor
  · intro x e he
    exact ⟨hs.lower x e he, hs.upper x e he⟩
  · intro x y e f he hf hne
    rw [disjoint_left]
    intro a ha ha'
    rw [mem_Ico] at ha ha'
    rcases hs.disjoint x y e f he hf hne with hle | hle
    all_goals omega
  · intro x y e f he hf hne hbase
    exact hne (hs.eq_of_base_eq he hf hbase)

/-- After every run of careful calls the storage of the files is in the region and apart. -/
theorem files_sound (r : Region) (fuel : Nat) (memory : Nat → Byte) (cs : List (Call Fd))
    (s : State Fd)
    (hcareful : RunMeets (step fuel r.toShmMgr) (Careful fuel r) (initial Fd memory) cs)
    (hrun : run (step fuel r.toShmMgr) (initial Fd memory) cs = some s) : Sound r s.pool := by
  have hs := invariant_of_runMeets (P := fun s : State Fd => r.Separates s.pool)
    (fun s c t hs hc ht => step_separates hs hc ht) (separates_initial r memory) hcareful hrun
  exact sound_of_separates hs

def oneMegabyte : Region := ⟨⟨2 ^ 20, 2 ^ 20⟩, by decide, by decide⟩

scoped instance neZeroTwo : NeZero 2 := ⟨by decide⟩

def twoFiles : List (Call (Fin 2)) :=
  [.openFile [1#8] true false (some 0), .write 0 [7#8], .openFile [2#8] true false (some 1),
    .write 1 [8#8]]

theorem files_sound_two : ∃ s, run (step 4 oneMegabyte.toShmMgr) (initial (Fin 2) fun _ => 0#8)
    (twoFiles ++ [.ftruncate64 0 4096, .write 0 [9#8]]) = some s ∧ Sound oneMegabyte s.pool := by
  have hrun : (run (step 4 oneMegabyte.toShmMgr) (initial (Fin 2) fun _ => 0#8)
      (twoFiles ++ [.ftruncate64 0 4096, .write 0 [9#8]])).isSome = true := by
    decide +kernel
  obtain ⟨s, hs⟩ := isSome_iff_exists.mp hrun
  exact ⟨s, hs, files_sound oneMegabyte 4 _ _ s (by decide +kernel) hs⟩

/-- A truncation to more than a page lets the first file reach into the second one. -/
theorem not_forall_files_sound : ¬ ∀ (r : Region) (fuel : Nat) (memory : Nat → Byte)
    (cs : List (Call (Fin 2))) (s : State (Fin 2)),
    run (step fuel r.toShmMgr) (initial (Fin 2) memory) cs = some s → Sound r s.pool := by
  intro hall
  have hextents : (run (step 4 oneMegabyte.toShmMgr) (initial (Fin 2) fun _ => 0#8)
      (twoFiles ++ [.ftruncate64 0 8192])).map (fun s => (extents s.pool 0, extents s.pool 1)) =
        some (some ⟨2 ^ 20, 8192⟩, some ⟨2 ^ 20 + 4096, 1⟩) := by
    decide +kernel
  obtain ⟨s, hrun, hs⟩ := map_eq_some_iff.mp hextents
  obtain ⟨hfirst, hsecond⟩ := Prod.mk.inj hs
  have hsound := hall oneMegabyte 4 _ _ s hrun
  have hdisjoint := hsound.disjoint 0 1 _ _ hfirst hsecond (by simp [Fin.ext_iff, shmMaxOpens])
  rw [disjoint_left] at hdisjoint
  exact hdisjoint (a := 2 ^ 20 + 4096) (by simp [Extent.limit]) (by simp [Extent.limit])

end BgqDriver.ShmFSRuns
