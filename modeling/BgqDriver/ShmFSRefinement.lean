import BgqDriver.ShmFSContents
import BgqDriver.ShmFSRuns

/-!
When the table, the descriptors and the memory of the shared-memory files stand for files
that are arrays of bytes, and which changes keep that.
-/

namespace BgqDriver.ShmFSRefinement

open Function Option Finset Nat
open ShmFS PosixFiles
open ShmFSExtents ShmFSRuns ShmFSContents State

variable {Fd : Type*} {r : Region} {pool pool' : Pool} {s s' t : State Fd} {k x y : Slot}
  {entry : ShmMgrEntry} {fuel n addr size : Nat} {fd : Fd} {d : Descriptor} {path : Path}
  {idOf : Slot → Nat} {g g' : Files Path Fd Byte}
  {body : Slot → Descriptor → Option (State Fd × Reply Fd)}

section Refinement

/-- A file of the table that has a name. A slot that was taken for a file and then found no
descriptor is none. -/
def Live (pool : Pool) (x : Slot) : Prop := (pool x).owner = true ∧ (pool x).fileName ≠ []

def Named (pool : Pool) (x : Slot) (path : Path) : Prop :=
  (pool x).owner = true ∧ (pool x).fileName = path ∧ (pool x).markForDelete = false

structure Directory (pool : Pool) (g : Files Path Fd Byte) (idOf : Slot → Nat) : Prop where
  lt : ∀ x, Live pool x → idOf x < g.next
  inj : ∀ x y, Live pool x → Live pool y → idOf x = idOf y → x = y
  names : ∀ path, path ≠ [] → ∀ id, g.names path = some id ↔ ∃ x, Named pool x path ∧ idOf x = id

structure Handles (s : State Fd) (g : Files Path Fd Byte) (idOf : Slot → Nat) : Prop where
  opened : ∀ fd, g.opened fd = (s.fds fd).map fun d => (idOf d.slot, d.offset)
  live : ∀ fd d, s.fds fd = some d → Live s.pool d.slot
  counted : ∀ k (users : Finset Fd), (∀ fd ∈ users, ∃ d, s.fds fd = some d ∧ d.slot = k) →
    users.card ≤ (s.pool k).linkCount.toNat

structure Contents (r : Region) (s : State Fd) (g : Files Path Fd Byte) (idOf : Slot → Nat) :
    Prop where
  separates : r.Separates s.pool
  notLink : ∀ x, (s.pool x).isHardLink = false
  holds : ∀ x, Live s.pool x → Holds s x (g.files (idOf x))

structure Refines (r : Region) (s : State Fd) (g : Files Path Fd Byte) (idOf : Slot → Nat) :
    Prop where
  directory : Directory s.pool g idOf
  handles : Handles s g idOf
  contents : Contents r s g idOf

theorem Named.live (h : Named pool x path) (hpath : path ≠ []) : Live pool x :=
  ⟨h.1, h.2.1 ▸ hpath⟩

theorem Directory.unique (h : Directory pool g idOf) (hpath : path ≠ [])
    (hx : Named pool x path) (hy : Named pool y path) : x = y := by
  have hidx := (h.names path hpath _).mpr ⟨x, hx, rfl⟩
  have hidy := (h.names path hpath _).mpr ⟨y, hy, rfl⟩
  rw [hidx] at hidy
  exact h.inj x y (hx.live hpath) (hy.live hpath) (some.inj hidy)

theorem findByName_some (h : findByName pool path = some x) : Named pool x path := by
  have hx := List.find?_some h
  simp only [Bool.and_eq_true, decide_eq_true_eq, Bool.not_eq_true'] at hx
  exact ⟨hx.1.1, hx.1.2, hx.2⟩

theorem findByName_none (h : findByName pool path = none) (x : Slot) : ¬ Named pool x path := by
  rintro ⟨howner, hname, hmark⟩
  rw [findByName, List.find?_eq_none] at h
  exact h x (mem_slots x) (by simp [howner, hname, hmark])

section

variable (h : Directory pool g idOf)
include h

theorem Directory.names_some (hpath : path ≠ [])
    (hfound : findByName pool path = some x) : g.names path = some (idOf x) :=
  (h.names path hpath _).mpr ⟨x, findByName_some hfound, rfl⟩

theorem Directory.names_none (hpath : path ≠ [])
    (hfound : findByName pool path = none) : g.names path = none := by
  cases hid : g.names path with
  | none => rfl
  | some id =>
    obtain ⟨x, hx, -⟩ := (h.names path hpath id).mp hid
    exact absurd hx (findByName_none hfound x)

theorem Directory.of_named (hlive : ∀ x, Live pool' x → Live pool x)
    (hnamed : ∀ x path, path ≠ [] → (Named pool' x path ↔ Named pool x path))
    (hnext : g'.next = g.next) (hnames : g'.names = g.names) : Directory pool' g' idOf := by
  constructor
  · intro x hx
    rw [hnext]
    exact h.lt x (hlive x hx)
  · intro x y hx hy
    exact h.inj x y (hlive x hx) (hlive y hy)
  · intro path hpath id
    rw [hnames, h.names path hpath]
    apply exists_congr
    intro x
    rw [hnamed x path hpath]

end

theorem resolve_eq (hlink : (pool x).isHardLink = false) (hfuel : 0 < fuel) :
    resolve pool fuel x = some x := by
  obtain ⟨n, rfl⟩ := Nat.exists_eq_add_of_lt hfuel
  rw [resolve, if_neg (by simp [hlink])]

theorem withDescriptor_none (hfd : s.fds fd = none) :
    s.withDescriptor fuel fd body = some (s, .failure .EBADF) := by
  rw [withDescriptor, findByDescriptor, hfd]
  rfl

section

variable (hlink : ∀ x, (s.pool x).isHardLink = false) (hfuel : 0 < fuel) (hfd : s.fds fd = some d)
include hlink hfuel hfd

theorem findByDescriptor_some : s.findByDescriptor fuel fd = some (some (d.slot, d)) := by
  rw [findByDescriptor, hfd]
  simp only [resolve_eq (hlink d.slot) hfuel, map_some]

theorem withDescriptor_some : s.withDescriptor fuel fd body = body d.slot d := by
  rw [withDescriptor, findByDescriptor_some hlink hfuel hfd]
  rfl

end

/-- Two entries that differ in their storage only. -/
structure SameFile (old new : ShmMgrEntry) : Prop where
  owner : new.owner = old.owner
  fileName : new.fileName = old.fileName
  isHardLink : new.isHardLink = old.isHardLink
  markForDelete : new.markForDelete = old.markForDelete
  linkCount : new.linkCount = old.linkCount

theorem SameFile.refl (e : ShmMgrEntry) : SameFile e e := ⟨rfl, rfl, rfl, rfl, rfl⟩

theorem sameFile_setEntry (h : SameFile (s.pool k) entry) :
    ∀ x, SameFile (s.pool x) ((s.setEntry k entry).pool x) :=
  (forall_update_iff s.pool fun x e => SameFile (s.pool x) e).mpr
    ⟨h, fun _ _ => SameFile.refl _⟩

theorem Moves.sameFile (h : Moves r s s' k addr size) (x : Slot) :
    SameFile (s.pool x) (s'.pool x) := by
  rw [h.pool]
  refine sameFile_setEntry ?_ x
  exact ⟨rfl, rfl, rfl, rfl, rfl⟩

theorem Compacts.sameFile (h : Compacts r s s') (x : Slot) : SameFile (s.pool x) (s'.pool x) := by
  rw [(Compacts.entry h x).1]
  exact ⟨rfl, rfl, rfl, rfl, rfl⟩

theorem SameFile.live (h : SameFile (pool x) (pool' x)) : Live pool' x ↔ Live pool x := by
  rw [Live, Live, h.owner, h.fileName]

theorem SameFile.named (h : SameFile (pool x) (pool' x)) :
    Named pool' x path ↔ Named pool x path := by
  rw [Named, Named, h.owner, h.fileName, h.markForDelete]

theorem Directory.of_sameFile (h : Directory pool g idOf)
    (hsame : ∀ x, SameFile (pool x) (pool' x)) (hnext : g'.next = g.next)
    (hnames : g'.names = g.names) : Directory pool' g' idOf :=
  h.of_named (fun x => (hsame x).live.mp) (fun x _ _ => (hsame x).named) hnext hnames

theorem Handles.of_users (h : Handles s g idOf) (hfds : s'.fds = s.fds)
    (hopened : g'.opened = g.opened) (huse : ∀ fd d, s.fds fd = some d → Live s'.pool d.slot ∧
      (s.pool d.slot).linkCount.toNat ≤ (s'.pool d.slot).linkCount.toNat) :
    Handles s' g' idOf := by
  constructor
  · intro fd
    rw [hopened, hfds]
    exact h.opened fd
  · intro fd d hfd
    rw [hfds] at hfd
    exact (huse fd d hfd).1
  · intro k users husers
    rw [hfds] at husers
    rcases users.eq_empty_or_nonempty with rfl | ⟨fd, hmem⟩
    · exact Nat.zero_le _
    · obtain ⟨d, hfd, rfl⟩ := husers fd hmem
      exact Nat.le_trans (h.counted _ users husers) (huse fd d hfd).2

theorem Handles.of_sameFile (h : Handles s g idOf)
    (hsame : ∀ x, SameFile (s.pool x) (s'.pool x)) (hfds : s'.fds = s.fds)
    (hopened : g'.opened = g.opened) : Handles s' g' idOf := by
  refine Handles.of_users h hfds hopened ?_
  intro fd d hfd
  rw [(hsame d.slot).linkCount]
  exact ⟨(hsame d.slot).live.mpr (h.live fd d hfd), Nat.le_refl _⟩

theorem Refines.of_sameFile (h : Refines r s g idOf)
    (hsame : ∀ x, SameFile (s.pool x) (s'.pool x)) (hfds : s'.fds = s.fds)
    (hseparates : r.Separates s'.pool)
    (hholds : ∀ x, Live s.pool x → Holds s' x (g'.files (idOf x))) (hnext : g'.next = g.next)
    (hnames : g'.names = g.names) (hopened : g'.opened = g.opened) : Refines r s' g' idOf := by
  refine ⟨Directory.of_sameFile h.directory hsame hnext hnames,
    Handles.of_sameFile h.handles hsame hfds hopened, hseparates, ?_,
    fun x hx => hholds x ((hsame x).live.mp hx)⟩
  intro x
  rw [(hsame x).isHardLink]
  exact h.contents.notLink x

end Refinement

section Entries

theorem live_setEntry_of_ne (hx : x ≠ k) : Live (s.setEntry k entry).pool x ↔ Live s.pool x := by
  rw [Live, Live, setEntry_pool_of_ne _ hx]

theorem named_setEntry_of_ne (hx : x ≠ k) :
    Named (s.setEntry k entry).pool x path ↔ Named s.pool x path := by
  rw [Named, Named, setEntry_pool_of_ne _ hx]

theorem Live.setEntry (h : Live s.pool x) (howner : entry.owner = (s.pool k).owner)
    (hname : entry.fileName = (s.pool k).fileName) : Live (s.setEntry k entry).pool x := by
  rcases eq_or_ne x k with rfl | hxk
  · rw [Live, setEntry_pool_self, howner, hname]
    exact h
  · exact (live_setEntry_of_ne hxk).mpr h

theorem live_of_setEntry (htouched : Touched (s.pool k) entry)
    (hname : entry.fileName = (s.pool k).fileName) (hx : Live (s.setEntry k entry).pool x) :
    Live s.pool x := by
  rcases eq_or_ne x k with rfl | hxk
  · rw [Live, setEntry_pool_self, hname] at hx
    exact ⟨htouched.owner hx.1, hx.2⟩
  · exact (live_setEntry_of_ne hxk).mp hx

theorem Directory.setEntry (h : Directory s.pool g idOf) (htouched : Touched (s.pool k) entry)
    (hname : entry.fileName = (s.pool k).fileName)
    (hmark : entry.markForDelete = (s.pool k).markForDelete)
    (howner : (s.pool k).markForDelete = false → entry.owner = (s.pool k).owner) :
    Directory (s.setEntry k entry).pool g idOf := by
  refine Directory.of_named h (fun x => live_of_setEntry htouched hname) ?_ rfl rfl
  intro x path _
  rcases eq_or_ne x k with rfl | hxk
  · rw [Named, Named, setEntry_pool_self, hname, hmark]
    constructor
    · rintro ⟨h1, h2, h3⟩
      exact ⟨htouched.owner h1, h2, h3⟩
    · rintro ⟨h1, h2, h3⟩
      exact ⟨(howner h3).trans h1, h2, h3⟩
  · exact named_setEntry_of_ne hxk

theorem Contents.of_setEntry {idOf' : Slot → Nat} (h : Contents r s g idOf)
    (hentry : Touched (s.pool k) entry ∨ Fresh (s.pool k) entry)
    (hlink : entry.isHardLink = false)
    (hself : Live (s.setEntry k entry).pool k → Holds (s.setEntry k entry) k (g'.files (idOf' k)))
    (hother : ∀ x ≠ k, Live s.pool x → g'.files (idOf' x) = g.files (idOf x)) :
    Contents r (s.setEntry k entry) g' idOf' := by
  refine ⟨h.separates.mono (tended_setEntry hentry).extents_sub, ?_, ?_⟩
  · exact (forall_update_iff s.pool fun _ e => e.isHardLink = false).mpr
      ⟨hlink, fun x _ => h.notLink x⟩
  · intro x hx
    rcases eq_or_ne x k with rfl | hxk
    · exact hself hx
    · have hlive := (live_setEntry_of_ne hxk).mp hx
      rw [hother x hxk hlive]
      refine (h.holds x hlive).of_entry ?_ ?_ rfl
      all_goals rw [setEntry_pool_of_ne _ hxk]

theorem Contents.setEntry (h : Contents r s g idOf) (htouched : Touched (s.pool k) entry)
    (hname : entry.fileName = (s.pool k).fileName) (hlink : entry.isHardLink = false)
    (hfiles : g'.files = g.files) : Contents r (s.setEntry k entry) g' idOf := by
  refine Contents.of_setEntry h (.inl htouched) hlink ?_ fun x _ _ => by rw [hfiles]
  intro hk
  rw [hfiles]
  refine (h.holds k (live_of_setEntry htouched hname hk)).of_entry ?_ ?_ rfl
  · rw [setEntry_pool_self, htouched.addr]
  · rw [setEntry_pool_self, htouched.size]

theorem remove_eq (hlink : ∀ x, (s.pool x).isHardLink = false) :
    s.remove k = s.setEntry k { s.pool k with owner := false } := by
  rw [remove, setEntry]
  congr 1
  funext x
  rcases eq_or_ne x k with rfl | hxk
  · rw [if_pos (.inl rfl), update_self]
  · rw [if_neg (by simp [hxk, hlink x]), update_of_ne hxk]

end Entries

section Counts

variable {c : BitVec 32}

theorem toNat_sub_one (h : 1 ≤ c.toNat) : (c - 1#32).toNat = c.toNat - 1 := by
  bv_omega

theorem toNat_add_one (h : c ≠ BitVec.allOnes 32) : (c + 1#32).toNat = c.toNat + 1 := by
  have hne : c.toNat ≠ (BitVec.allOnes 32).toNat := fun heq => h (BitVec.eq_of_toNat_eq heq)
  rw [BitVec.toNat_allOnes] at hne
  rw [BitVec.toNat_add]
  simp only [BitVec.toNat_ofNat]
  omega

theorem Handles.setEntry (h : Handles s g idOf) (hopened : g'.opened = g.opened)
    (huse : ∀ fd d, s.fds fd = some d → d.slot = k → entry.owner = (s.pool k).owner ∧
      entry.fileName = (s.pool k).fileName ∧
      (s.pool k).linkCount.toNat ≤ entry.linkCount.toNat) :
    Handles (s.setEntry k entry) g' idOf := by
  refine Handles.of_users h rfl hopened ?_
  intro fd d hfd
  rcases eq_or_ne d.slot k with rfl | hk
  · obtain ⟨howner, hname, hcount⟩ := huse fd d hfd rfl
    rw [setEntry_pool_self]
    exact ⟨(h.live fd d hfd).setEntry howner hname, hcount⟩
  · rw [live_setEntry_of_ne hk, setEntry_pool_of_ne _ hk]
    exact ⟨h.live fd d hfd, Nat.le_refl _⟩

def OtherUsers (s : State Fd) (fd : Fd) (k : Slot) (users : Finset Fd) : Prop :=
  fd ∉ users ∧ ∀ fd' ∈ users, ∃ d, s.fds fd' = some d ∧ d.slot = k

end Counts

theorem Directory.unlink (h : Directory s.pool g idOf) (hpath : path ≠ [])
    (hk : Named s.pool k path) (htouched : Touched (s.pool k) entry)
    (hname : entry.fileName = (s.pool k).fileName)
    (hgone : ¬ (entry.owner = true ∧ entry.markForDelete = false)) :
    Directory (s.setEntry k entry).pool (g.unlink path) idOf := by
  have hlive : ∀ x, Live (s.setEntry k entry).pool x → Live s.pool x :=
    fun x => live_of_setEntry htouched hname
  refine ⟨fun x hx => h.lt x (hlive x hx),
    fun x y hx hy => h.inj x y (hlive x hx) (hlive y hy), ?_⟩
  intro other hother id
  have hnotself : ∀ p, ¬ Named (s.setEntry k entry).pool k p := by
    rintro p ⟨howner, -, hmark⟩
    rw [setEntry_pool_self] at howner hmark
    exact hgone ⟨howner, hmark⟩
  rw [Files.unlink]
  rcases eq_or_ne other path with rfl | hne
  · simp only [update_self, reduceCtorEq, false_iff, not_exists, not_and]
    intro x hx
    rcases eq_or_ne x k with rfl | hxk
    · exact absurd hx (hnotself other)
    · exact absurd (h.unique hother ((named_setEntry_of_ne hxk).mp hx) hk) hxk
  · simp only [update_of_ne hne]
    rw [h.names other hother]
    apply exists_congr
    intro x
    rcases eq_or_ne x k with rfl | hxk
    · refine and_congr_left fun _ => iff_of_false ?_ (hnotself other)
      exact fun hx => hne (hx.2.1.symm.trans hk.2.1)
    · rw [named_setEntry_of_ne hxk]

theorem Directory.create (h : Directory s.pool g idOf) (hpath : path ≠ [])
    (hfound : findByName s.pool path = none) (hk : (s.pool k).owner = false)
    (howner : entry.owner = true) (hname : entry.fileName = path)
    (hmark : entry.markForDelete = false) :
    Directory (s.setEntry k entry).pool (g.create path) (update idOf k g.next) := by
  have hold : ∀ x, Live s.pool x → x ≠ k := by
    rintro x hx rfl
    rw [hx.1] at hk
    cases hk
  have hlive : ∀ x, Live (s.setEntry k entry).pool x → x ≠ k → Live s.pool x :=
    fun x hx hxk => (live_setEntry_of_ne hxk).mp hx
  have hself : ∀ p, Named (s.setEntry k entry).pool k p ↔ p = path := by
    intro p
    rw [Named, setEntry_pool_self, howner, hname, hmark]
    simp only [true_and, and_true]
    exact eq_comm
  constructor
  · intro x hx
    rcases eq_or_ne x k with rfl | hxk
    · rw [update_self]
      exact lt_succ_self _
    · rw [update_of_ne hxk]
      exact lt_succ_of_lt (h.lt x (hlive x hx hxk))
  · intro x y hx hy heq
    rcases eq_or_ne x k with rfl | hxk
    · rcases eq_or_ne y x with rfl | hyx
      · rfl
      · rw [update_self, update_of_ne hyx] at heq
        have hlt := h.lt y (hlive y hy hyx)
        omega
    · rcases eq_or_ne y k with rfl | hyk
      · rw [update_self, update_of_ne hxk] at heq
        have hlt := h.lt x (hlive x hx hxk)
        omega
      · rw [update_of_ne hxk, update_of_ne hyk] at heq
        exact h.inj x y (hlive x hx hxk) (hlive y hy hyk) heq
  · intro other hother id
    rw [Files.create]
    rcases eq_or_ne other path with rfl | hne
    · simp only [update_self, some.injEq]
      constructor
      · rintro rfl
        exact ⟨k, (hself other).mpr rfl, update_self ..⟩
      · rintro ⟨x, hx, rfl⟩
        rcases eq_or_ne x k with rfl | hxk
        · rw [update_self]
        · exact absurd ((named_setEntry_of_ne hxk).mp hx) (findByName_none hfound x)
    · simp only [update_of_ne hne]
      rw [h.names other hother]
      apply exists_congr
      intro x
      rcases eq_or_ne x k with rfl | hxk
      · refine iff_of_false ?_ ?_
        · exact fun hx => hold x (hx.1.live hother) rfl
        · exact fun hx => hne ((hself other).mp hx.1)
      · rw [named_setEntry_of_ne hxk, update_of_ne hxk]

theorem Contents.create (h : Contents r s g idOf) (hdirectory : Directory s.pool g idOf)
    (hfresh : Fresh (s.pool k) entry) (hlink : entry.isHardLink = false) :
    Contents r (s.setEntry k entry) (g.create path) (update idOf k g.next) := by
  refine Contents.of_setEntry h (.inr hfresh) hlink ?_ ?_
  · intro _
    simp only [Files.create, update_self]
    refine ⟨?_, fun _ => rfl, fun i hi => absurd hi (Nat.not_lt_zero i)⟩
    rw [setEntry_pool_self]
    exact hfresh.size
  · intro x hxk hx
    simp only [Files.create, update_of_ne hxk, update_of_ne (Nat.ne_of_lt (hdirectory.lt x hx))]

theorem Handles.slot_ne (h : Handles s g idOf) (hk : (s.pool k).owner = false)
    (hfd : s.fds fd = some d) : d.slot ≠ k := by
  rintro rfl
  rw [(h.live fd d hfd).1] at hk
  cases hk

theorem Refines.nameless (h : Refines r s g idOf) (hk : (s.pool k).owner = false) :
    Refines r (s.setEntry k { ShmMgrEntry.zero with owner := true }) g idOf := by
  have hnot : ¬ Live (s.setEntry k { ShmMgrEntry.zero with owner := true }).pool k := by
    rw [Live, setEntry_pool_self]
    exact fun hx => hx.2 rfl
  refine ⟨Directory.of_named h.directory ?_ ?_ rfl rfl, Handles.setEntry h.handles rfl ?_,
    Contents.of_setEntry h.contents (.inr ⟨hk, rfl, rfl, rfl⟩) rfl (fun hlive => absurd hlive hnot)
      fun x _ _ => rfl⟩
  · intro x hx
    rcases eq_or_ne x k with rfl | hxk
    · exact absurd hx hnot
    · exact (live_setEntry_of_ne hxk).mp hx
  · intro x path hpath
    rcases eq_or_ne x k with rfl | hxk
    · refine iff_of_false (fun hx => hnot (hx.live hpath)) ?_
      rintro ⟨howner, -⟩
      rw [howner] at hk
      cases hk
    · exact named_setEntry_of_ne hxk
  · exact fun fd d hfd hslot => absurd hslot (Handles.slot_ne h.handles hk hfd)

theorem Refines.setFile {f : File Byte} (h : Refines r s g idOf) (hk : Live s.pool k)
    (hsame : ∀ x, SameFile (s.pool x) (s'.pool x)) (hfds : s'.fds = s.fds)
    (hseparates : r.Separates s'.pool) (hself : Holds s' k f)
    (hother : ∀ x, x ≠ k → Live s.pool x → Holds s' x (g.files (idOf x))) :
    Refines r s' (g.setFile (idOf k) f) idOf := by
  refine Refines.of_sameFile h hsame hfds hseparates ?_ rfl rfl rfl
  intro x hlive
  rw [Files.setFile]
  rcases eq_or_ne x k with rfl | hxk
  · simp only [update_self]
    exact hself
  · simp only [update_of_ne fun heq => hxk (h.directory.inj x k hlive hk heq)]
    exact hother x hxk hlive

theorem Refines.compacts (h : Refines r s g idOf) (hc : Compacts r s t) : Refines r t g idOf :=
  Refines.of_sameFile h (Compacts.sameFile hc) (Compacts.fds hc)
    (hc.separates h.contents.separates)
    (fun x hx => Compacts.holds hc hx.1 (h.contents.holds x hx)) rfl rfl rfl

variable [DecidableEq Fd]

section Descriptors

theorem Handles.counted_self {users : Finset Fd} (h : Handles s g idOf) (hfd : s.fds fd = some d)
    (husers : OtherUsers s fd d.slot users) :
    users.card + 1 ≤ (s.pool d.slot).linkCount.toNat := by
  rw [← card_insert_of_notMem husers.1]
  exact h.counted d.slot _ (forall_mem_insert _ _ _ |>.mpr ⟨⟨d, hfd, rfl⟩, husers.2⟩)

theorem Handles.remove (h : Handles s g idOf) (hopened : g'.opened = g.opened)
    (hcount : (s.pool k).linkCount = 0#32) :
    Handles (s.setEntry k { s.pool k with owner := false }) g' idOf := by
  refine Handles.setEntry h hopened ?_
  rintro fd d hfd rfl
  have hle := Handles.counted_self h hfd ⟨notMem_empty fd, by simp⟩
  rw [hcount] at hle
  exact absurd hle (not_succ_le_zero _)

/-- One descriptor changes. It is counted together with the other users of its file. -/
theorem Handles.setFd {new : Option Descriptor}
    (hself : g.opened fd = new.map fun d => (idOf d.slot, d.offset))
    (hother : ∀ fd' ≠ fd, g.opened fd' = (s.fds fd').map fun d => (idOf d.slot, d.offset))
    (hnew : ∀ d ∈ new, Live s.pool d.slot ∧
      ∀ users, OtherUsers s fd d.slot users → users.card + 1 ≤ (s.pool d.slot).linkCount.toNat)
    (hlive : ∀ fd' d, s.fds fd' = some d → fd' ≠ fd → Live s.pool d.slot)
    (hcounted : ∀ k users, OtherUsers s fd k users → users.card ≤ (s.pool k).linkCount.toNat) :
    Handles (s.setFd fd new) g idOf := by
  constructor
  · refine (forall_update_iff s.fds fun fd' d? => g.opened fd' =
      d?.map fun d => (idOf d.slot, d.offset)).mpr ⟨hself, hother⟩
  · exact (forall_update_iff s.fds fun fd' d? => ∀ d, d? = some d → Live s.pool d.slot).mpr
      ⟨fun d hd => (hnew d hd).1, fun fd' hne d hd => hlive fd' d hd hne⟩
  · intro k users husers
    have hothers : OtherUsers s fd k (users.erase fd) := by
      refine ⟨notMem_erase fd users, ?_⟩
      intro fd' hmem
      obtain ⟨hne, hmem⟩ := Finset.mem_erase.mp hmem
      obtain ⟨d, hd, hslot⟩ := husers fd' hmem
      simp only [State.setFd, update_of_ne hne] at hd
      exact ⟨d, hd, hslot⟩
    rcases Decidable.em (fd ∈ users) with hmem | hmem
    · obtain ⟨d, hd, rfl⟩ := husers fd hmem
      simp only [State.setFd, update_self] at hd
      rw [← card_erase_add_one hmem]
      exact (hnew d hd).2 _ hothers
    · rw [erase_eq_of_notMem hmem] at hothers
      exact hcounted k users hothers

theorem Handles.close (h : Handles s g idOf) (hfd : s.fds fd = some d) :
    Handles ((s.setEntry d.slot { s.pool d.slot with
      linkCount := (s.pool d.slot).linkCount - 1#32 }).setFd fd none) (g.close fd) idOf := by
  refine Handles.setFd (update_self ..) ?_ (by simp) ?_ ?_
  · intro fd' hne
    rw [Files.close]
    simp only [update_of_ne hne]
    exact h.opened fd'
  · exact fun fd' d' hfd' _ => (h.live fd' d' hfd').setEntry rfl rfl
  · intro k users husers
    rcases eq_or_ne k d.slot with rfl | hk
    · have hcard := Handles.counted_self h hfd husers
      rw [setEntry_pool_self, toNat_sub_one (by omega)]
      omega
    · rw [setEntry_pool_of_ne _ hk]
      exact h.counted k users husers.2

theorem Handles.attach (h : Handles s g idOf) (hlive : Live s.pool k)
    (hcount : (s.pool k).linkCount ≠ BitVec.allOnes 32) : Handles ((s.setEntry k { s.pool k with
      linkCount := (s.pool k).linkCount + 1#32 }).setFd fd (some ⟨k, 0⟩))
      (g.attach fd (idOf k)) idOf := by
  refine Handles.setFd (update_self ..) ?_ ?_ ?_ ?_
  · intro fd' hne
    rw [Files.attach]
    simp only [update_of_ne hne]
    exact h.opened fd'
  · rintro d ⟨⟩
    refine ⟨hlive.setEntry rfl rfl, ?_⟩
    intro users husers
    rw [setEntry_pool_self, toNat_add_one hcount]
    exact succ_le_succ (h.counted k users husers.2)
  · exact fun fd' d' hfd' _ => (h.live fd' d' hfd').setEntry rfl rfl
  · intro x users husers
    have hcard := h.counted x users husers.2
    rcases eq_or_ne x k with rfl | hxk
    · rw [setEntry_pool_self, toNat_add_one hcount]
      exact le_succ_of_le hcard
    · rwa [setEntry_pool_of_ne _ hxk]

theorem Handles.seek (h : Handles s g idOf) (hfd : s.fds fd = some d) (n : Nat) :
    Handles (s.setFd fd (some { d with offset := n })) (g.seek fd n) idOf := by
  have hopened := h.opened fd
  rw [hfd, map_some] at hopened
  rw [Files.seek, hopened]
  refine Handles.setFd (update_self ..) ?_ ?_ (fun fd' d' hfd' _ => h.live fd' d' hfd')
    fun k users husers => h.counted k users husers.2
  · intro fd' hne
    simp only [update_of_ne hne]
    exact h.opened fd'
  · rintro d' ⟨⟩
    exact ⟨h.live fd d hfd, fun users => Handles.counted_self h (d := d) hfd⟩

/-- A descriptor has no part in the directory and the contents. -/
theorem refines_setFd {new : Option Descriptor} (hdirectory : Directory s.pool g idOf)
    (hcontents : Contents r s g idOf) (hhandles : Handles (s.setFd fd new) g' idOf)
    (hg : g'.next = g.next ∧ g'.names = g.names ∧ g'.files = g.files) :
    Refines r (s.setFd fd new) g' idOf := by
  refine ⟨Directory.of_sameFile hdirectory (fun x => SameFile.refl _) hg.1 hg.2.1, hhandles,
    hcontents.separates, hcontents.notLink, ?_⟩
  intro x hx
  rw [hg.2.2]
  exact (hcontents.holds x hx).of_entry rfl rfl rfl

theorem Refines.seek (h : Refines r s g idOf) (hfd : s.fds fd = some d) (n : Nat) :
    Refines r (s.setFd fd (some { d with offset := n })) (g.seek fd n) idOf :=
  refines_setFd h.directory h.contents (Handles.seek h.handles hfd n) (by
    rw [Files.seek]
    split <;> exact ⟨rfl, rfl, rfl⟩)

end Descriptors

section Files

theorem Refines.remove (h : Refines r s g idOf) (hmark : (s.pool k).markForDelete = true)
    (hcount : (s.pool k).linkCount = 0#32) : Refines r (s.remove k) g idOf := by
  have htouched : Touched (s.pool k) { s.pool k with owner := false } :=
    ⟨Bool.noConfusion, rfl, rfl, rfl⟩
  rw [remove_eq h.contents.notLink]
  refine ⟨?_, Handles.remove h.handles rfl hcount,
    Contents.setEntry h.contents htouched rfl (h.contents.notLink k) rfl⟩
  refine Directory.setEntry h.directory htouched rfl rfl ?_
  rw [hmark]
  exact Bool.noConfusion

theorem Handles.create (h : Handles s g idOf) (hk : (s.pool k).owner = false)
    (howner : entry.owner = true) (hname : entry.fileName ≠ []) (hcount : entry.linkCount = 1#32) :
    Handles ((s.setEntry k entry).setFd fd (some ⟨k, 0⟩)) ((g.create path).attach fd g.next)
      (update idOf k g.next) := by
  refine Handles.setFd (by simp [Files.attach]) ?_ ?_ ?_ ?_
  · intro fd' hne
    simp only [Files.attach, Files.create, update_of_ne hne]
    rw [h.opened fd', State.setEntry]
    cases hfd' : s.fds fd' with
    | none => rfl
    | some d' => simp only [map_some, update_of_ne (Handles.slot_ne h hk hfd')]
  · rintro d ⟨⟩
    rw [Live, setEntry_pool_self, hcount]
    refine ⟨⟨howner, hname⟩, ?_⟩
    intro users husers
    -- Nobody else is on the new file.
    have hnone : users = ∅ := by
      rw [eq_empty_iff_forall_notMem]
      intro fd' hmem
      obtain ⟨d', hd', hslot⟩ := husers.2 fd' hmem
      exact Handles.slot_ne h hk hd' hslot
    rw [hnone]
    exact Nat.le_refl _
  · intro fd' d' hfd' _
    exact (live_setEntry_of_ne (Handles.slot_ne h hk hfd')).mpr (h.live fd' d' hfd')
  · intro x users husers
    rcases users.eq_empty_or_nonempty with rfl | ⟨fd', hmem⟩
    · exact Nat.zero_le _
    · obtain ⟨d', hd', rfl⟩ := husers.2 fd' hmem
      rw [setEntry_pool_of_ne _ (Handles.slot_ne h hk hd')]
      exact h.counted _ users husers.2

end Files

end BgqDriver.ShmFSRefinement
