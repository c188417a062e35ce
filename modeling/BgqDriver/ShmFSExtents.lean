import BgqDriver.EventRuns
import BgqDriver.ShmFS

/-!
Where the files of a manager lie.
-/

namespace BgqDriver.ShmFSExtents

open Function Option Relation
open ByteMemory ExtentTables ShmFS State

section Words

variable {a b p : Nat}

theorem add64_eq (h : a + b < 2 ^ 64) : add64 a b = a + b := Nat.mod_eq_of_lt h

theorem sub64_eq (hle : b ≤ a) (hlt : a < 2 ^ 64) : sub64 a b = a - b := by
  rw [sub64]
  omega

theorem le_roundUpMempage (h : p + 4095 < 2 ^ 64) :
    p ≤ roundUpMempage p ∧ roundUpMempage p ≤ p + 4095 := by
  rw [roundUpMempage, add64_eq h]
  omega

end Words

def extents (pool : Pool) (x : Slot) : Option Extent :=
  if (pool x).owner = true ∧ (pool x).allocatedAddr ≠ 0 then
    some ⟨(pool x).allocatedAddr, (pool x).allocatedSize⟩
  else none

/-- A manager whose region does not reach the end of the address space. -/
structure Region extends ShmMgr where
  pos : 0 < vStart ∨ size = 0
  le : vStart + size + 4096 ≤ 2 ^ 64

/-- The files lie in the region and do not overlap. -/
abbrev Region.Separates (r : Region) (pool : Pool) : Prop :=
  Apart r.vStart (r.vStart + r.size) (extents pool)

variable {Fd : Type*} {r : Region} {pool : Pool} {s s' : State Fd} {k x : Slot} {e : Extent}
  {ptr : ShmMgrEntry} {space addr size fuel : Nat}

theorem Region.vEnd_eq (r : Region) : r.vEnd = r.vStart + r.size := by
  have hle := r.le
  exact add64_eq (by omega)

theorem extents_eq_some : extents pool x = some e ↔ (pool x).owner = true ∧
    (pool x).allocatedAddr ≠ 0 ∧ e.base = (pool x).allocatedAddr ∧
      e.size = (pool x).allocatedSize := by
  rw [extents]
  split
  next h =>
    rw [some.injEq, Extent.ext_iff]
    simp only [h, ne_eq, not_false_eq_true, true_and]
    exact and_congr eq_comm eq_comm
  next h =>
    constructor
    · intro hnone
      cases hnone
    · intro hsome
      exact absurd ⟨hsome.1, hsome.2.1⟩ h

theorem extents_of_owner (howner : (pool k).owner = true) (hne : (pool k).allocatedAddr ≠ 0) :
    extents pool k = some ⟨(pool k).allocatedAddr, (pool k).allocatedSize⟩ :=
  if_pos ⟨howner, hne⟩

theorem extents_update (pool : Pool) (k : Slot) (entry : ShmMgrEntry) :
    extents (update pool k entry) = update (extents pool) k (extents (fun _ => entry) k) := by
  funext x
  rcases eq_or_ne x k with rfl | hne
  · simp only [extents, update_self]
  · simp only [extents, update_of_ne hne]

variable {address v : Nat} {mgr : ShmMgr}

section Search

theorem nextAddress_some {next : Slot} (hnext : nextAddress pool ptr = some next) :
    (pool next).owner = true ∧ (pool next).allocatedAddr ≠ 0 ∧
      ptr.allocatedAddr < (pool next).allocatedAddr ∧
      ∀ j f, extents pool j = some f → ptr.allocatedAddr < f.base →
        (pool next).allocatedAddr ≤ f.base := by
  rw [nextAddress] at hnext
  let above : Slot → Prop := fun x => (pool x).owner = true ∧ (pool x).allocatedAddr ≠ 0 ∧
    ptr.allocatedAddr < (pool x).allocatedAddr
  obtain ⟨⟨howner, hne, hlt⟩, hkey⟩ := scan_key (p := above) (by
    intro x b hx
    simp only [Bool.and_eq_true, decide_eq_true_eq] at hx
    exact ⟨hx.1.1.1, hx.1.2, hx.1.1.2⟩) (by simp) _ next hnext
  refine ⟨howner, hne, hlt, ?_⟩
  intro j f hj hbase
  obtain ⟨hjowner, hjne, hjbase, -⟩ := extents_eq_some.mp hj
  rw [hkey, hjbase]
  refine (scan_best (p := above) (r := (· ≤ ·)) ?_ ?_ _ _).2 j (mem_slots j)
    ⟨hjowner, hjne, hjbase ▸ hbase⟩
  · intro x b hx
    simp only [Bool.and_eq_true, decide_eq_true_eq] at hx
    exact hx.2
  · rintro x b hx ⟨hxowner, hxne, hxlt⟩
    simp only [hxowner, hxne, hxlt, Bool.true_and, ne_eq, not_false_eq_true, decide_true,
      decide_eq_false_iff_not] at hx
    exact Nat.le_of_not_le hx

theorem nextAddress_none (h : r.Separates pool) (hnext : nextAddress pool ptr = none) :
    ∀ j f, extents pool j = some f → f.base ≤ ptr.allocatedAddr := by
  intro j f hj
  by_contra hlt
  obtain ⟨howner, hne, hbase, -⟩ := extents_eq_some.mp hj
  have htop : (pool j).allocatedAddr ≤ 2 ^ 64 - 1 := by
    have hupper := h.upper j f hj
    have hpos := h.lt_limit hj
    have hle := r.le
    omega
  rw [hbase, Nat.not_le] at hlt
  rw [nextAddress] at hnext
  have hleft := scan_eq_none hnext j (mem_slots j)
  simp only [howner, hne, hlt, htop, Bool.true_and, ne_eq, not_false_eq_true, decide_true] at hleft
  cases hleft

theorem previousAddress_some (hprevious : previousAddress pool address = some k) :
    (pool k).owner = true ∧ (pool k).allocatedAddr ≠ 0 ∧ (pool k).allocatedAddr < address ∧
      ∀ j f, extents pool j = some f → f.base < address → f.base ≤ (pool k).allocatedAddr := by
  rw [previousAddress] at hprevious
  let below : Slot → Prop := fun x => (pool x).owner = true ∧ (pool x).allocatedAddr ≠ 0 ∧
    (pool x).allocatedAddr < address
  obtain ⟨⟨howner, hne, hlt⟩, hkey⟩ := scan_key (p := below) (by
    intro x b hx
    simp only [Bool.and_eq_true, decide_eq_true_eq] at hx
    exact ⟨hx.1.1.1, hx.1.1.2, hx.1.2⟩) (by simp) _ k hprevious
  refine ⟨howner, hne, hlt, ?_⟩
  intro j f hj hbase
  obtain ⟨hjowner, hjne, hjbase, -⟩ := extents_eq_some.mp hj
  rw [hkey, hjbase]
  have hbelow : below j := ⟨hjowner, hjne, hjbase ▸ hbase⟩
  apply (scan_best (p := below) (r := fun a b : Nat => b ≤ a) ?_ ?_ _ _).2 j (mem_slots j)
    hbelow
  · intro x b hx
    simp only [Bool.and_eq_true, decide_eq_true_eq] at hx
    exact Nat.le_of_lt hx.2
  · rintro x b hx ⟨hxowner, hxne, hxlt⟩
    simp only [hxowner, hxne, hxlt, Bool.true_and, ne_eq, not_false_eq_true, decide_true,
      decide_eq_false_iff_not] at hx
    exact Nat.le_of_not_lt hx

theorem previousAddress_none (hprevious : previousAddress pool address = none) :
    ∀ j f, extents pool j = some f → address ≤ f.base := by
  intro j f hj
  by_contra hlt
  obtain ⟨howner, hne, hbase, -⟩ := extents_eq_some.mp hj
  have hpos := Nat.pos_of_ne_zero hne
  rw [hbase, Nat.not_le] at hlt
  rw [previousAddress] at hprevious
  have hleft := scan_eq_none hprevious j (mem_slots j)
  simp only [howner, hne, hlt, hpos, Bool.true_and, ne_eq, not_false_eq_true, decide_true] at hleft
  cases hleft

theorem ceiling_le_base (h : r.Separates pool) (ptr : ShmMgrEntry) :
    ∀ j f, extents pool j = some f → ptr.allocatedAddr < f.base →
      ceiling r.toShmMgr pool ptr ≤ f.base := by
  intro j f hj hlt
  rw [ceiling]
  cases hnext : nextAddress pool ptr with
  | some next => exact (nextAddress_some hnext).2.2.2 j f hj hlt
  | none =>
    have hle := nextAddress_none h hnext j f hj
    omega

theorem ceiling_le_end (h : r.Separates pool) (ptr : ShmMgrEntry) :
    ceiling r.toShmMgr pool ptr ≤ r.vStart + r.size := by
  rw [ceiling]
  cases hnext : nextAddress pool ptr with
  | some next =>
    obtain ⟨howner, hne, -⟩ := nextAddress_some hnext
    have hn := extents_of_owner howner hne
    exact Nat.le_trans (Nat.le_of_lt (h.lt_limit hn)) (h.upper next _ hn)
  | none => exact Nat.le_of_eq r.vEnd_eq

end Search

/-- The file in slot `k` has been given the storage at `addr`: it does not overlap any
other file's, memory outside of it is untouched, and what the file held has been kept. -/
structure Moves (r : Region) (s s' : State Fd) (k : Slot) (addr size : Nat) : Prop where
  pool : s'.pool = (s.setSpace k addr size).pool
  fds : s'.fds = s.fds
  pos : 0 < size
  lower : r.vStart ≤ addr
  upper : addr + size ≤ r.vStart + r.size
  clear : Clear (extents s.pool) k addr (addr + size)
  frame : ∀ x, x < addr ∨ addr + size ≤ x → s'.memory x = s.memory x
  kept : ∀ e, extents s.pool k = some e → ∀ i, i < e.size → i < size →
    s'.memory (addr + i) = s.memory (e.base + i)

theorem extents_setSpace_of_not_owner (howner : (s.pool k).owner = false) (addr size : Nat) :
    extents (s.setSpace k addr size).pool = extents s.pool := by
  have hnone : ∀ entry : ShmMgrEntry, entry.owner = false → extents (fun _ => entry) k = none := by
    intro entry hentry
    exact if_neg (by simp [hentry])
  rw [setSpace, setEntry, extents_update, hnone, update_eq_self_iff]
  · exact (hnone (s.pool k) howner).symm
  · exact howner

namespace Moves

section

variable (h : Moves r s s' k addr size)
include h

theorem addr_ne_zero : addr ≠ 0 := by
  have hpos := h.pos
  have hupper := h.upper
  have hlower := h.lower
  rcases r.pos with hstart | hsize
  all_goals omega

theorem extents_eq (howner : (s.pool k).owner = true) :
    extents s'.pool = update (extents s.pool) k (some ⟨addr, size⟩) := by
  rw [h.pool, setSpace, setEntry, extents_update, extents, if_pos ⟨howner, h.addr_ne_zero⟩]

theorem separates (hs : r.Separates s.pool) : r.Separates s'.pool := by
  cases howner : (s.pool k).owner with
  | true =>
    rw [Region.Separates, h.extents_eq howner]
    exact hs.set h.pos h.lower h.upper h.clear
  | false =>
    rw [Region.Separates, h.pool, extents_setSpace_of_not_owner howner]
    exact hs

end

end Moves

/-- A file that is not pinned has been moved up, and not past any other one. -/
structure Slides (r : Region) (s s' : State Fd) (k : Slot) (addr : Nat) : Prop
    extends Moves r s s' k addr (s.pool k).allocatedSize where
  owner : (s.pool k).owner = true
  ne_zero : (s.pool k).allocatedAddr ≠ 0
  pinned : (s.pool k).pinned = false
  le : (s.pool k).allocatedAddr ≤ addr
  path : Clear (extents s.pool) k (s.pool k).allocatedAddr (addr + (s.pool k).allocatedSize)

def Compacts (r : Region) : State Fd → State Fd → Prop :=
  ReflTransGen fun s s' => ∃ k addr, Slides r s s' k addr

theorem Compacts.separates (h : Compacts r s s') (hs : r.Separates s.pool) :
    r.Separates s'.pool := by
  induction h with
  | refl => exact hs
  | tail _ hstep ih =>
    obtain ⟨k, addr, hslides⟩ := hstep
    exact hslides.toMoves.separates ih

section Compaction

/-- The part of the region from `maxva` on is left as it is, and no file reaches into it
from below. -/
structure Swept (r : Region) (pool : Pool) (maxva : Nat) : Prop where
  separates : r.Separates pool
  le : maxva ≤ r.vStart + r.size
  split : ∀ j f, extents pool j = some f → maxva ≤ f.base ∨ f.limit ≤ maxva

variable {maxva : Nat}

section

variable (h : Swept r s.pool maxva)
include h

section

variable (hk : previousAddress s.pool maxva = some k)
include hk

theorem Swept.limit_le : r.vStart ≤ (s.pool k).allocatedAddr ∧ 0 < (s.pool k).allocatedSize ∧
      (s.pool k).allocatedAddr + (s.pool k).allocatedSize ≤ maxva ∧
      sub64 maxva (s.pool k).allocatedSize = maxva - (s.pool k).allocatedSize := by
  obtain ⟨howner, hne, hlt, -⟩ := previousAddress_some hk
  have hext := extents_of_owner howner hne
  have hle := h.le
  have hend := r.le
  rcases h.split k _ hext with hbase | hlimit
  · exact absurd hbase (Nat.not_le.mpr hlt)
  · simp only [Extent.limit] at hlimit
    exact ⟨h.separates.lower k _ hext, h.separates.pos k _ hext, hlimit,
      sub64_eq (by omega) (by omega)⟩

theorem Swept.clear : Clear (extents s.pool) k (s.pool k).allocatedAddr maxva := by
  obtain ⟨howner, hne, -, hlast⟩ := previousAddress_some hk
  exact h.separates.clear_slide (extents_of_owner howner hne) hlast

theorem Swept.slides (hpinned : (s.pool k).pinned = false) :
    Slides r s (s.slide k (maxva - (s.pool k).allocatedSize)) k
      (maxva - (s.pool k).allocatedSize) := by
  obtain ⟨howner, hne, -⟩ := previousAddress_some hk
  obtain ⟨hlower, hpos, hlimit, -⟩ := h.limit_le hk
  have hle := h.le
  have hclear := h.clear hk
  refine ⟨⟨rfl, rfl, hpos, by omega, by omega, ?_, ?_, ?_⟩, howner, hne, hpinned, by omega, ?_⟩
  · intro j f hj hjk
    rcases hclear j f hj hjk with hbelow | habove
    · exact .inl (Nat.le_trans hbelow (by omega))
    · exact .inr (by omega)
  · intro x hx
    exact moveUp_outside hx
  · intro e he i _ hi
    rw [extents_of_owner howner hne] at he
    cases he
    exact moveUp_inside (.inl (by omega)) hi
  · rw [Nat.sub_add_cancel (by omega)]
    exact hclear

theorem Swept.slide (hpinned : (s.pool k).pinned = false) :
    Swept r (s.slide k (maxva - (s.pool k).allocatedSize)).pool
      (maxva - (s.pool k).allocatedSize) := by
  obtain ⟨howner, -⟩ := previousAddress_some hk
  have hlimit := (h.limit_le hk).2.2.1
  have hmoves := (h.slides hk hpinned).toMoves
  have hle := h.le
  refine ⟨hmoves.separates h.separates, by omega, ?_⟩
  intro j f hj
  rw [hmoves.extents_eq howner] at hj
  rcases eq_or_ne j k with rfl | hjk
  · rw [update_self] at hj
    cases hj
    exact .inl (Nat.le_refl _)
  · rw [update_of_ne hjk] at hj
    rcases h.clear hk j f hj hjk with hbelow | habove
    · exact .inr (Nat.le_trans hbelow (by omega))
    · exact .inl (by omega)

theorem Swept.stay (heq : (s.pool k).allocatedAddr = maxva - (s.pool k).allocatedSize) :
    Swept r s.pool (s.pool k).allocatedAddr := by
  obtain ⟨howner, hne, hlt, -⟩ := previousAddress_some hk
  have hle := h.le
  have hext := extents_of_owner howner hne
  refine ⟨h.separates, by omega, ?_⟩
  intro j f hj
  rcases eq_or_ne j k with rfl | hjk
  · rw [hext] at hj
    cases hj
    exact .inl (Nat.le_refl _)
  · rcases h.clear hk j f hj hjk with hbelow | habove
    · exact .inr hbelow
    · exact .inl (by omega)

end

theorem compactLoop_compacts {moved : Nat} {b : Bool}
    (hloop : compactLoop fuel s maxva moved = some (s', b)) : Compacts r s s' := by
  fun_induction compactLoop fuel s maxva moved with
  | case1 => cases hloop
  | case2 | case3 =>
    cases hloop
    exact ReflTransGen.refl
  | case4 _ _ _ _ k hk _ hpinned target _ ih =>
    rw [show target = _ from (h.limit_le hk).2.2.2] at ih hloop
    replace hpinned := Bool.eq_false_of_not_eq_true hpinned
    exact ReflTransGen.head ⟨k, _, h.slides hk hpinned⟩ (ih (h.slide hk hpinned) hloop)
  | case5 _ _ _ _ k hk _ _ target hmove ih =>
    rw [show target = _ from (h.limit_le hk).2.2.2] at hmove
    exact ih (h.stay hk (not_not.mp hmove)) hloop

end

theorem swept_end (h : r.Separates s.pool) : Swept r s.pool r.vEnd := by
  rw [r.vEnd_eq]
  exact ⟨h, Nat.le_refl _, fun j f hj => .inr (h.upper j f hj)⟩

theorem compactMemorySpace_compacts {b : Bool} (h : r.Separates s.pool)
    (hcompact : s.compactMemorySpace fuel r.toShmMgr = some (s', b)) : Compacts r s s' :=
  compactLoop_compacts (swept_end h) hcompact

end Compaction

section Compacts

theorem Compacts.entry (h : Compacts r s s') (x : Slot) :
    s'.pool x = { s.pool x with allocatedAddr := (s'.pool x).allocatedAddr } ∧
      ((s'.pool x).allocatedAddr = 0 ↔ (s.pool x).allocatedAddr = 0) ∧
      ((s.pool x).pinned = true → s'.pool x = s.pool x) := by
  induction h with
  | refl => exact ⟨rfl, Iff.rfl, fun _ => rfl⟩
  | tail _ hstep ih =>
    rename_i u v _
    obtain ⟨k, addr, hmoves, -, hne, hpinned, -, -⟩ := hstep
    obtain ⟨heq, hzero, hsame⟩ := ih
    rcases eq_or_ne x k with rfl | hxk
    · have hnew : v.pool x = { u.pool x with allocatedAddr := addr } := by
        rw [hmoves.pool, setSpace_pool_self]
      have hold := congrArg ShmMgrEntry.pinned heq
      refine ⟨?_, ?_, ?_⟩
      · rw [hnew]
        conv_lhs => rw [heq]
      · rw [hnew]
        exact iff_of_false hmoves.addr_ne_zero (fun h => hne (hzero.mpr h))
      · intro hpin
        rw [hold, hpin] at hpinned
        cases hpinned
    · have hnew : v.pool x = u.pool x := by
        rw [hmoves.pool, setSpace_pool_of_ne _ hxk]
      rw [hnew]
      exact ⟨heq, hzero, hsame⟩

theorem Compacts.fds (h : Compacts r s s') : s'.fds = s.fds := by
  induction h with
  | refl => rfl
  | tail _ hstep ih =>
    obtain ⟨k, addr, hslides⟩ := hstep
    rw [hslides.fds, ih]

end Compacts

section Placement

/-- A size that can be asked for without a sum that wraps. -/
structure Roomy (r : Region) (space : Nat) : Prop where
  pos : 0 < space
  le : space + (r.vStart + r.size) + 4096 ≤ 2 ^ 64

instance (r : Region) (space : Nat) : Decidable (Roomy r space) :=
  decidable_of_iff (0 < space ∧ space + (r.vStart + r.size) + 4096 ≤ 2 ^ 64)
    ⟨fun h => ⟨h.1, h.2⟩, fun h => ⟨h.pos, h.le⟩⟩

theorem extendInPlace_cases (h : s.extendInPlace mgr k space = some s') :
    ((s.pool k).allocatedAddr ≠ 0 ∧ space ≤ (s.pool k).allocatedSize ∧
      s' = s.setSpace k (s.pool k).allocatedAddr space) ∨
    ((s.pool k).allocatedAddr ≠ 0 ∧ (s.pool k).allocatedSize < space ∧
      add64 space (s.pool k).allocatedAddr ≤ ceiling mgr s.pool (s.pool k) ∧
      s'.pool = (s.setSpace k (s.pool k).allocatedAddr space).pool ∧ s'.fds = s.fds ∧
      (s'.memory = fill s.memory (add64 (s.pool k).allocatedAddr (s.pool k).allocatedSize)
          (space - (s.pool k).allocatedSize) 0#8 ∨
        nextAddress s.pool (s.pool k) = none ∧ s'.memory = s.memory)) ∨
    ((s.pool k).allocatedAddr = 0 ∧
      add64 space (roundUpMempage mgr.vStart) ≤ ceiling mgr s.pool (s.pool k) ∧
      s'.pool = (s.setSpace k (roundUpMempage mgr.vStart) space).pool ∧ s'.fds = s.fds ∧
      (s'.memory = fill s.memory (roundUpMempage mgr.vStart) space 0#8 ∨
        nextAddress s.pool (s.pool k) = none ∧ s'.memory = s.memory)) := by
  rw [extendInPlace] at h
  cases hnext : nextAddress s.pool (s.pool k)
  all_goals
    simp only [ceiling, hnext] at h ⊢
    split_ifs at h with hshrink haddr hfits hfits
    all_goals cases h
    · exact .inl ⟨hshrink.1, hshrink.2, rfl⟩
    · exact .inr (.inl ⟨haddr, Nat.lt_of_not_le fun hle => hshrink ⟨haddr, hle⟩, hfits, rfl, rfl,
        by simp [setSpace, setEntry]⟩)
    · refine .inr (.inr ⟨not_not.mp haddr, hfits, rfl, rfl, ?_⟩)
      simp [relocate, if_neg haddr, setSpace, setEntry]

theorem extents_eq_none (hzero : (s.pool k).allocatedAddr = 0) : extents s.pool k = none :=
  if_neg fun h => h.2 hzero

section

variable (hs : r.Separates s.pool)
include hs

section

variable (howner : (s.pool k).owner = true)
include howner

theorem setSpace_moves (hne : (s.pool k).allocatedAddr ≠ 0) (hpos : 0 < size)
    (hfits : (s.pool k).allocatedAddr + size ≤ ceiling r.toShmMgr s.pool (s.pool k)) :
    Moves r s (s.setSpace k (s.pool k).allocatedAddr size) k (s.pool k).allocatedAddr size := by
  have hext := extents_of_owner howner hne
  have hend := ceiling_le_end hs (s.pool k)
  refine ⟨rfl, rfl, hpos, hs.lower k _ hext, by omega, ?_, fun _ _ => rfl, ?_⟩
  · intro j f hj hjk
    rcases hs.clear_grow hext (ceiling_le_base hs (s.pool k)) j f hj hjk with hbefore | hafter
    · exact .inl hbefore
    · exact .inr (Nat.le_trans hfits hafter)
  · intro e he i _ _
    rw [hext] at he
    cases he
    rfl

theorem limit_le_ceiling
    (hne : (s.pool k).allocatedAddr ≠ 0) : (s.pool k).allocatedAddr + (s.pool k).allocatedSize ≤
      ceiling r.toShmMgr s.pool (s.pool k) := by
  have hext := extents_of_owner howner hne
  rw [ceiling]
  cases hnext : nextAddress s.pool (s.pool k) with
  | some next =>
    obtain ⟨hnowner, hnne, hlt, -⟩ := nextAddress_some hnext
    exact hs.limit_le hext (extents_of_owner hnowner hnne) hlt
  | none =>
    rw [r.vEnd_eq]
    exact hs.upper k _ hext

theorem extendInPlace_moves
    (hspace : Roomy r space) (h : s.extendInPlace r.toShmMgr k space = some s') :
    ∃ addr, Moves r s s' k addr space := by
  have hpos := hspace.pos
  have hle := hspace.le
  have hend := ceiling_le_end hs (s.pool k)
  have hnext := ceiling_le_base hs (s.pool k)
  rcases extendInPlace_cases h with ⟨hne, hshrink, rfl⟩ | ⟨hne, hgrow, hfits, hpool, hfds, hmem⟩ |
    ⟨hzero, hfits, hpool, hfds, hmem⟩
  · have hlimit := limit_le_ceiling hs howner hne
    exact ⟨_, setSpace_moves hs howner hne hpos (by omega)⟩
  · have hext := extents_of_owner howner hne
    have hupper := hs.upper k _ hext
    have hlower := hs.lower k _ hext
    simp only [Extent.limit] at hupper hlower
    rw [add64_eq (by omega)] at hfits
    rw [add64_eq (by omega)] at hmem
    have hclear : Clear (extents s.pool) k (s.pool k).allocatedAddr
        (ceiling r.toShmMgr s.pool (s.pool k)) := hs.clear_grow hext hnext
    have hoff : ∀ x, x < (s.pool k).allocatedAddr + (s.pool k).allocatedSize ∨
        (s.pool k).allocatedAddr + space ≤ x → s'.memory x = s.memory x := by
      intro x hx
      rcases hmem with hmem | ⟨-, hmem⟩
      · rw [hmem, fill_outside (by omega)]
      · rw [hmem]
    refine ⟨_, hpool, hfds, hpos, hlower, by omega, ?_, ?_, ?_⟩
    · intro j f hj hjk
      rcases hclear j f hj hjk with hbefore | hafter
      · exact .inl hbefore
      · exact .inr (by omega)
    · intro x hx
      exact hoff x (by omega)
    · intro e he i hi _
      rw [hext] at he
      cases he
      exact hoff _ (by simp only at hi; omega)
  · have hup := le_roundUpMempage (p := r.vStart) (by omega)
    rw [add64_eq (by omega)] at hfits
    refine ⟨_, hpool, hfds, hpos, hup.1, by omega, ?_, ?_, ?_⟩
    · intro j f hj _
      have hbase := (extents_eq_some.mp hj).2
      have hceiling := hnext j f hj (by omega)
      exact .inr (by omega)
    · intro x hx
      rcases hmem with hmem | ⟨-, hmem⟩
      · rw [hmem, fill_outside hx]
      · rw [hmem]
    · intro e he
      rw [extents_eq_none hzero] at he
      cases he

end

theorem newSpace_spec (hspace : Roomy r space)
    (h : s.newSpace r.toShmMgr space = some v) : r.vStart ≤ v ∧ v + space ≤ r.vStart + r.size ∧
      ∀ j f, extents s.pool j = some f → f.limit ≤ v ∨ v + space ≤ f.base := by
  have hle := hspace.le
  rw [newSpace] at h
  cases hroom : findRoom r.toShmMgr s.pool space with
  | some w =>
    simp only [hroom, some.injEq] at h
    obtain rfl := h
    rw [findRoom] at hroom
    obtain ⟨x, -, hx⟩ := List.exists_of_findSome?_eq_some hroom
    simp only at hx
    split_ifs at hx with hnone hfits
    cases hx
    obtain ⟨howner, hne⟩ := not_or.mp hnone
    have hext := extents_of_owner (by simpa using howner) hne
    have hupper := hs.upper x _ hext
    have hlower := hs.lower x _ hext
    have hend := ceiling_le_end hs (s.pool x)
    simp only [Extent.limit] at hupper hlower
    rw [add64_eq (by omega : (s.pool x).allocatedAddr + (s.pool x).allocatedSize < 2 ^ 64)] at *
    have hup := le_roundUpMempage
      (p := (s.pool x).allocatedAddr + (s.pool x).allocatedSize) (by omega)
    rw [add64_eq (by omega)] at hfits
    refine ⟨by omega, by omega, ?_⟩
    intro j f hj
    rcases hs.clear_above hext (ceiling_le_base hs (s.pool x)) j f hj with hbefore | hafter
    · simp only [Extent.limit] at hbefore ⊢
      exact .inl (by omega)
    · exact .inr (by omega)
  | none =>
    simp only [hroom] at h
    split_ifs at h with hfound
    cases h
    have hup := le_roundUpMempage (p := r.vStart) (by omega)
    have hfits := hfound.2
    rw [r.vEnd_eq, add64_eq (by omega)] at hfits
    refine ⟨hup.1, by omega, ?_⟩
    intro j f hj
    obtain ⟨howner, hne, -⟩ := extents_eq_some.mp hj
    have hnone := hfound.1
    rw [ownerFound, List.any_eq_false] at hnone
    exact absurd (by simp [howner, hne]) (hnone j (mem_slots j))

theorem relocate_moves (hspace : Roomy r space)
    (hgrow : (s.pool k).allocatedAddr ≠ 0 → (s.pool k).allocatedSize ≤ space)
    (h : s.newSpace r.toShmMgr space = some v) : Moves r s (s.relocate k v space) k v space := by
  obtain ⟨hlower, hupper, hclear⟩ := newSpace_spec hs hspace h
  refine ⟨rfl, rfl, hspace.pos, hlower, hupper, fun j f hj _ => hclear j f hj, ?_, ?_⟩
  · intro x hx
    simp only [relocate]
    split_ifs with hne
    · have hsize := hgrow hne
      rw [moveUp_outside (by omega), fill_outside hx]
    · exact fill_outside hx
  · intro e he i hi _
    obtain ⟨-, hne, hbase, hsize⟩ := extents_eq_some.mp he
    have hapart := hclear k e he
    rw [Extent.limit] at hapart
    simp only [relocate, if_pos hne]
    rw [moveUp_inside (by omega) (by omega), fill_outside (by omega), hbase]

end

end Placement

section Define

variable {ok : Bool} {calls : Nat}

/-- What `defineMemorySpace` does: it compacts, and then changes nothing more, or changes
the file where it is, or moves it. -/
theorem defineMemorySpace_cases (hs : r.Separates s.pool)
    (h : defineMemorySpace fuel r.toShmMgr k space calls s = some (s', ok)) :
    ∃ t, Compacts r s t ∧ ((ok = false ∧ s' = t) ∨
      (ok = true ∧ t.extendInPlace r.toShmMgr k space = some s' ∧
        (t = s ∨ s.extendInPlace r.toShmMgr k space = none)) ∨
      (ok = true ∧ ((t.pool k).allocatedAddr ≠ 0 → (t.pool k).allocatedSize ≤ space) ∧
        ∃ v, t.newSpace r.toShmMgr space = some v ∧ s' = t.relocate k v space)) := by
  induction calls generalizing s with
  | zero => cases h
  | succ calls ih =>
    rw [defineMemorySpace] at h
    cases hplace : s.extendInPlace r.toShmMgr k space with
    | some u =>
      simp only [hplace] at h
      cases h
      exact ⟨s, ReflTransGen.refl, .inr (.inl ⟨rfl, hplace, .inl rfl⟩)⟩
    | none =>
      simp only [hplace] at h
      obtain ⟨t, hroom, h⟩ := bind_eq_some_iff.mp h
      have ht : Compacts r s t := by
        rw [makeRoom] at hroom
        split_ifs at hroom
        · obtain ⟨⟨u, b⟩, hcompact, rfl⟩ := map_eq_some_iff.mp hroom
          exact compactMemorySpace_compacts hs hcompact
        · cases hroom
          exact ReflTransGen.refl
      cases hspace : t.newSpace r.toShmMgr space with
      | some v =>
        simp only [hspace] at h
        cases h
        refine ⟨t, ht, .inr (.inr ⟨rfl, ?_, v, hspace, rfl⟩)⟩
        intro hne
        obtain ⟨heq, hzero, -⟩ := ht.entry k
        rw [heq]
        by_contra hlarge
        -- A file with enough space would have been shrunk where it is.
        have hshrink : (s.pool k).allocatedAddr ≠ 0 ∧ space ≤ (s.pool k).allocatedSize :=
          ⟨fun hold => hne (hzero.mpr hold), Nat.le_of_lt (Nat.lt_of_not_le hlarge)⟩
        rw [extendInPlace, if_pos hshrink] at hplace
        cases hplace
      | none =>
        simp only [hspace] at h
        obtain ⟨⟨u, moved⟩, hcompact, h⟩ := bind_eq_some_iff.mp h
        have htu := compactMemorySpace_compacts (ht.separates hs) hcompact
        have hsu : Compacts r s u := ht.trans htu
        simp only at h
        split_ifs at h
        · obtain ⟨w, huw, hcases⟩ := ih (hsu.separates hs) h
          refine ⟨w, hsu.trans huw, ?_⟩
          rcases hcases with hfail | ⟨hok, hagain, -⟩ | hmoved
          · exact .inl hfail
          · exact .inr (.inl ⟨hok, hagain, .inr rfl⟩)
          · exact .inr (.inr hmoved)
        · cases h
          exact ⟨_, hsu, .inl ⟨rfl, rfl⟩⟩

theorem defineMemorySpace_moves (hs : r.Separates s.pool) (howner : (s.pool k).owner = true)
    (hspace : Roomy r space)
    (h : defineMemorySpace fuel r.toShmMgr k space calls s = some (s', ok)) :
    ∃ t, Compacts r s t ∧ ((ok = false ∧ s' = t) ∨
      (ok = true ∧ ∃ addr, Moves r t s' k addr space)) := by
  obtain ⟨t, ht, hcases⟩ := defineMemorySpace_cases hs h
  refine ⟨t, ht, ?_⟩
  have hst := ht.separates hs
  have howner' : (t.pool k).owner = true := by
    rw [(ht.entry k).1]
    exact howner
  rcases hcases with hfail | ⟨hok, hplace, -⟩ | ⟨hok, hgrow, v, hv, rfl⟩
  · exact .inl hfail
  · exact .inr ⟨hok, extendInPlace_moves hst howner' hspace hplace⟩
  · exact .inr ⟨hok, v, relocate_moves hst hspace hgrow hv⟩

theorem extendInPlace_pool (h : s.extendInPlace mgr k space = some s') :
    ∃ addr, s'.pool = (s.setSpace k addr space).pool := by
  rcases extendInPlace_cases h with ⟨-, -, rfl⟩ | ⟨-, -, -, hpool, -⟩ | ⟨-, -, hpool, -⟩
  · exact ⟨_, rfl⟩
  · exact ⟨_, hpool⟩
  · exact ⟨_, hpool⟩

theorem defineMemorySpace_separates (hs : r.Separates s.pool) (hspace : Roomy r space)
    (h : defineMemorySpace fuel r.toShmMgr k space calls s = some (s', ok)) :
    r.Separates s'.pool := by
  cases howner : (s.pool k).owner with
  | true =>
    obtain ⟨t, ht, ⟨-, rfl⟩ | ⟨-, addr, hmoves⟩⟩ := defineMemorySpace_moves hs howner hspace h
    · exact ht.separates hs
    · exact hmoves.separates (ht.separates hs)
  | false =>
    obtain ⟨t, ht, hcases⟩ := defineMemorySpace_cases hs h
    have howner' : (t.pool k).owner = false := by
      rw [(ht.entry k).1]
      exact howner
    rcases hcases with ⟨-, rfl⟩ | ⟨-, hplace, -⟩ | ⟨-, -, v, -, rfl⟩
    · exact ht.separates hs
    · obtain ⟨addr, hpool⟩ := extendInPlace_pool hplace
      rw [Region.Separates, hpool, extents_setSpace_of_not_owner howner']
      exact ht.separates hs
    · rw [Region.Separates, relocate]
      simp only
      rw [extents_setSpace_of_not_owner howner']
      exact ht.separates hs

end Define

end BgqDriver.ShmFSExtents
