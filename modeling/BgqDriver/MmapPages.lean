import Mathlib.Data.Set.BooleanAlgebra
import Mathlib.Order.CompletePartialOrder
import BgqDriver.MmapRuns

/-!
The allocator as a set of allocated pages.
-/

namespace BgqDriver.MmapPages

open EventRuns BitVec Set Option Nat
open CoalescingBlocks Mmap
open CoalescingBlocks.Cursor MmapSimulation MmapRoutines
open MmapCalls MmapFree MmapRuns

def numPages (bytes : BitVec 64) : Nat := (bytes.toNat + 4095) / 4096

def pageRun (q n : Nat) : Set Nat := Ico q (q + n)

/-- The pages in use -/
def pages (m : MmapMgr) : Set Nat := { p | Covers (chunkBlocks m.chunks) false (4096 * p) }

def regionPages (r : Region) : Set Nat := Ico (r.start / 4096) (r.limit / 4096)

def named (addr : Addr) (len : BitVec 64) : Set Nat := pageRun (addr.toNat / 4096) (numPages len)

open Classical in
noncomputable def sides (A : Set Nat) (q n : Nat) : Nat :=
  (if q - 1 ∈ A then 1 else 0) + (if q + n ∈ A then 1 else 0)

/-- The calls of the refinement: no request wraps, a fixed one is one that `sc_mmap` lets
through, and what is freed is whole pages that are all allocated. -/
def Proper (m : MmapMgr) : Call → Prop
  | .malloc _ bytes => 4096 * numPages bytes < 2 ^ 64
  | .mallocAddr bytes addr =>
    LetThrough (.mallocAddr bytes addr) ∧ addr.toNat + 4096 * numPages bytes ≤ 2 ^ 64
  | .free addr len => len ≠ 0#64 ∧ 4096 ∣ addr.toNat ∧ named addr len ⊆ pages m

/-- What a call does to the set `A` of allocated pages, with `left` descriptors in the
pool. -/
def PageStep (r : Region) (left : Nat) (A A' : Set Nat) : Call → Addr → Prop
  | .malloc _ bytes, mem =>
    (mem = 0#64 → A' = A) ∧
      (mem ≠ 0#64 → ∃ q, mem.toNat = 4096 * q ∧
        IsLeast { q | pageRun q (numPages bytes) ⊆ regionPages r \ A } q ∧
        A' = A ∪ pageRun q (numPages bytes))
  | .mallocAddr bytes addr, mem =>
    (mem = 0#64 → A' = A) ∧
      (mem ≠ 0#64 → mem = addr ∧
        (r.start ≤ addr.toNat ∧ addr.toNat + bytes.toNat < r.limit → A' = A ∪ named addr bytes) ∧
        (¬ (r.start ≤ addr.toNat ∧ addr.toNat + bytes.toNat < r.limit) → A' = A))
  | .free addr len, _ =>
    (sides A (addr.toNat / 4096) (numPages len) ≤ left → A' = A \ named addr len) ∧
      (left < sides A (addr.toNat / 4096) (numPages len) → A' = A)

variable {r : Region} {m m' : MmapMgr} {L L' : List (Block ChunkId)} {pool pool' : List ChunkId}
  {bytes len : BitVec 64} {addr : Addr} {p q n : Nat}

theorem mem_pages (h : Holds r m L pool) : p ∈ pages m ↔ Covers L false (4096 * p) := by
  rw [pages, chunkBlocks_eq h]
  rfl

theorem mem_pageRun : p ∈ pageRun q n ↔ 4096 * q ≤ 4096 * p ∧ 4096 * p < 4096 * q + 4096 * n := by
  rw [pageRun, mem_Ico]
  omega

theorem mem_regionPages : p ∈ regionPages r ↔ r.start ≤ 4096 * p ∧ 4096 * p < r.limit := by
  have hstart := r.dvd_start
  have hsize := r.dvd_size
  rw [regionPages, mem_Ico, Region.limit]
  omega

theorem toNat_mmapRoundUp_of_lt (h : 4096 * numPages bytes < 2 ^ 64) :
    (mmapRoundUp bytes).toNat = 4096 * numPages bytes := by
  rw [numPages] at *
  rw [toNat_mmapRoundUp]
  omega

theorem numPages_pos (h : bytes ≠ 0#64) : 0 < numPages bytes := by
  have hpos : 0 < bytes.toNat := Nat.pos_of_ne_zero fun hzero => h (eq_of_toNat_eq hzero)
  rw [numPages]
  omega

theorem covers_true (h : Holds r m L pool) (hp : p ∈ regionPages r \ pages m) :
    Covers L true (4096 * p) := by
  obtain ⟨hregion, hnot⟩ := hp
  rw [mem_regionPages] at hregion
  rw [mem_pages h] at hnot
  obtain ⟨v, hv⟩ := h.tiles.exists_covers hregion.1 hregion.2
  cases v with
  | false => exact absurd hv hnot
  | true => exact hv

theorem pages_union (h : Holds r m L pool) (h' : Holds r m' L' pool')
    (hset : RangeSet L L' (4096 * q) (4096 * n) false) : pages m' = pages m ∪ pageRun q n := by
  ext p
  rw [mem_union, mem_pages h', mem_pages h, mem_pageRun, hset]
  tauto

theorem pages_eq (h : Holds r m L pool) (h' : Holds r m' L pool') : pages m' = pages m := by
  ext p
  rw [mem_pages h', mem_pages h]

variable {b : Block ChunkId} {A A' : Set Nat} {live : List (Set Nat)}

theorem run_le_limit (h : Holds r m L pool) (hb : b ∈ L)
    (hrun : ∀ p ∈ pageRun q n, Covers L b.free (4096 * p)) (hbase : b.base ≤ 4096 * q)
    (hlt : 4096 * q < b.limit) : 4096 * q + 4096 * n ≤ b.limit := by
  by_contra hover
  have hfits := fits_of_tiles h.tiles b hb
  have hdvd : 4096 ∣ b.limit := Nat.dvd_add hfits.dvd_base hfits.dvd_size
  obtain ⟨p, hp⟩ := hdvd
  have hcovers := hrun p (mem_pageRun.mpr (by omega))
  have hbounds := hcovers.bounds h.tiles
  obtain ⟨c, rfl, rfl, -⟩ := exists_cursor hb pool
  have hother := covers_limit h.tiles h.alternates (by omega)
  rw [hp] at hother
  have hsame := h.tiles.covers_unique hcovers hother
  cases hfree : c.here.free <;> simp [hfree] at hsame

theorem isLeast_of_firstFit {c : Cursor ChunkId} (h : Holds r m L pool) (hn : 0 < n)
    (hfit : FirstFit L (4096 * n) c) (hq : c.here.base = 4096 * q) :
    IsLeast { q | pageRun q n ⊆ regionPages r \ pages m } q := by
  obtain ⟨rfl, hfree, hsize, hbefore⟩ := hfit
  constructor
  · intro p hp
    rw [mem_pageRun] at hp
    have hcovers : Covers c.blocks true (4096 * p) :=
      ⟨c.here, here_mem c, hfree, by omega, by rw [Block.limit]; omega⟩
    have hbounds := hcovers.bounds h.tiles
    refine ⟨mem_regionPages.mpr hbounds, ?_⟩
    intro hpages
    exact absurd (h.tiles.covers_unique hcovers ((mem_pages h).mp hpages)) (by simp)
  · intro q' hq'
    by_contra hlt
    have hfirst : q' ∈ pageRun q' n := mem_pageRun.mpr (by omega)
    obtain ⟨b, hb, hbfree, hbase, hlimit⟩ := covers_true h (hq' hfirst)
    have hend := run_le_limit h hb (fun p hp => hbfree ▸ covers_true h (hq' hp)) hbase hlimit
    rw [Block.limit] at hlimit hend
    rw [Cursor.blocks, List.mem_append, List.mem_cons, List.mem_reverse] at hb
    rcases hb with hb | rfl | hb
    · have hsmall := hbefore b hb hbfree
      omega
    · omega
    · have hafter := ((tiles_blocks.mp h.tiles).2.2.2.mem hb).1
      rw [Block.limit] at hafter
      omega

def Refines (r : Region) (seg : DynSegment) (m : MmapMgr) (left : Nat) (c : Call) : Prop :=
  ∃ m' mem L' pool', m.call seg c = some (m', mem) ∧ Holds r m' L' pool' ∧
    PageStep r left (pages m) (pages m') c mem

def WholeFree (m : MmapMgr) (bytes : BitVec 64) (addr : Addr) : Prop :=
  ∃ b ∈ chunkBlocks m.chunks, b.free = true ∧ b.base = addr.toNat ∧ b.size = 4096 * numPages bytes

/-- What a call does to the counters and the high mark. A free is counted also when it
frees nothing. -/
def Accounts (r : Region) (m m' : MmapMgr) : Call → Addr → Prop
  | .malloc _ bytes, mem =>
    Spends (some (m', mem)) m (if mem = 0#64 then 0#64 else mmapRoundUp bytes) ∧
      Notes (some (m', mem)) m (mmapRoundUp bytes)
  | .mallocAddr bytes addr, mem =>
    (∃ spent, Spends (some (m', mem)) m spent ∧
      ((pages m' = pages m ∧ spent = 0#64) ∨
        (mem = addr ∧ Disjoint (pages m) (named addr bytes) ∧
          pages m' = pages m ∪ named addr bytes ∧
          (spent = mmapRoundUp bytes ∨ WholeFree m bytes addr)))) ∧
      if m.inRegion bytes addr then Notes (some (m', mem)) m (mmapRoundUp bytes) else m' = m
  | .free _ len, _ =>
    m'.memAvail = m.memAvail + mmapRoundUp len ∧ m'.memBusy = m.memBusy - mmapRoundUp len ∧
      m'.highMark.toNat = highEnd r.start (chunkBlocks m'.chunks)

def Effect (r : Region) (seg : DynSegment) (m : MmapMgr) (left : Nat) (c : Call) : Prop :=
  ∃ m' mem L' pool', m.call seg c = some (m', mem) ∧ Holds r m' L' pool' ∧
    PageStep r left (pages m) (pages m') c mem ∧ Accounts r m m' c mem

variable (seg : DynSegment)

theorem malloc_effect (g : Guard) (h : Holds r m L pool) (left : Nat)
    (hproper : 4096 * numPages bytes < 2 ^ 64) : Effect r seg m left (.malloc g bytes) := by
  have hround := toNat_mmapRoundUp_of_lt hproper
  have hne : bytes ≠ 0#64 → mmapRoundUp bytes ≠ 0#64 := by
    intro hbytes hzero
    have hpos := numPages_pos hbytes
    rw [hzero] at hround
    simp only [toNat_ofNat] at hround
    omega
  obtain ⟨m', mem, L', pool', hsome, h', spent, hspends, hnotes, -, hmem⟩ := malloc_returns g h hne
  rw [hsome] at hspends hnotes
  refine ⟨m', mem, L', pool', hsome, h', ?_⟩
  rcases hmem with ⟨rfl, rfl, rfl⟩ | ⟨hpos, c, hfit, rfl, hset, rfl⟩
  · exact ⟨⟨fun _ => pages_eq h h', fun hzero => absurd rfl hzero⟩, by rwa [if_pos rfl], hnotes⟩
  · rw [hround] at hfit hset hpos
    have hc : c.here ∈ L := hfit.blocks ▸ here_mem c
    have hfits := fits_of_tiles h.tiles _ hc
    have hlimit := hfits.limit_le
    have hstart := (h.tiles.mem hc).1
    have hrpos := r.pos_start
    obtain ⟨q, hq⟩ := hfits.dvd_base
    have htoNat : (BitVec.ofNat 64 c.here.base).toNat = c.here.base := by
      rw [Block.limit] at hlimit
      rw [toNat_ofNat, mod_eq_of_lt (by omega)]
    have hmem : BitVec.ofNat 64 c.here.base ≠ 0#64 := by
      intro hzero
      rw [hzero] at htoNat
      simp only [toNat_ofNat] at htoNat
      omega
    refine ⟨⟨fun hzero => absurd hzero hmem, fun _ => ⟨q, htoNat.trans hq, ?_, ?_⟩⟩, ?_, hnotes⟩
    · exact isLeast_of_firstFit h (by omega) hfit hq
    · rw [hq] at hset
      exact pages_union h h' hset
    · rwa [if_neg hmem]

theorem inRegion_iff (bytes : BitVec 64) (addr : Addr) (h : Holds r m L pool) :
    m.inRegion bytes addr = true ↔
      r.start ≤ addr.toNat ∧ (addr.toNat + bytes.toNat) % 2 ^ 64 < r.limit := by
  have hlt := r.lt
  rw [MmapMgr.inRegion, Bool.and_eq_true, decide_eq_true_eq, decide_eq_true_eq, le_def,
    lt_def, h.memStart, h.memSize, toNat_add, toNat_add, toNat_ofNat,
    toNat_ofNat, mod_eq_of_lt (by omega : r.start < 2 ^ 64),
    mod_eq_of_lt (by omega : r.size < 2 ^ 64), mod_eq_of_lt hlt]
  rfl

theorem pages_subset_of_busy (h : Holds r m L pool) (hb : b ∈ L) (hbusy : b.free = false)
    (hbase : b.base ≤ 4096 * q) (hlimit : 4096 * q + 4096 * n ≤ b.limit) :
    pageRun q n ⊆ pages m := by
  intro p hp
  rw [mem_pageRun] at hp
  exact (mem_pages h).mpr ⟨b, hb, hbusy, by omega, by omega⟩

theorem not_mem_pages_of_covers (h : Holds r m L pool) (hfree : Covers L true (4096 * p)) :
    p ∉ pages m := by
  intro hp
  exact absurd (h.tiles.covers_unique hfree ((mem_pages h).mp hp)) (by simp)

theorem mallocAddr_out (hout : m.inRegion bytes addr = false) :
    ∀ x ∈ m.mallocAddr seg bytes addr, x.1 = m := by
  intro x hx
  rw [MmapMgr.mallocAddr, hout] at hx
  simp only [Bool.false_eq_true, if_false] at hx
  split at hx <;> cases hx <;> rfl

theorem mallocAddr_effect (h : Holds r m L pool) (left : Nat) (hbytes : bytes ≠ 0#64)
    (hdvd : 4096 ∣ addr.toNat) (hwrap : addr.toNat + 4096 * numPages bytes ≤ 2 ^ 64) :
    Effect r seg m left (.mallocAddr bytes addr) := by
  have hpos := numPages_pos hbytes
  have hrpos := r.pos_start
  have hrlt : r.limit < 2 ^ 64 := r.lt
  have hle : bytes.toNat ≤ 4096 * numPages bytes := by
    rw [numPages]
    omega
  have hround : m.inRegion bytes addr = true →
      (mmapRoundUp bytes).toNat = 4096 * numPages bytes := by
    intro hin
    have hstart := ((inRegion_iff bytes addr h).mp hin).1
    exact toNat_mmapRoundUp_of_lt (by omega)
  have hwithin : ∀ b ∈ L, m.inRegion bytes addr = true → Within b (mmapRoundUp bytes) addr →
      addr.toNat + 4096 * numPages bytes ≤ b.limit := by
    rintro b hb hin ⟨-, hlt⟩
    rw [toNat_sub, toNat_add, hround hin] at hlt
    simp only [toNat_ofNat] at hlt
    omega
  obtain ⟨q, hq⟩ := hdvd
  have hq' : addr.toNat / 4096 = q := by omega
  have hsafe : m.inRegion bytes addr = true → ∀ b ∈ L, b.free = true →
      Within b (mmapRoundUp bytes) addr →
        Releasable 4096 b (mmapRoundUp bytes).toNat addr.toNat := by
    intro hin b hb _ hrange
    have hfits := fits_of_tiles h.tiles b hb
    rw [hround hin]
    refine ⟨hrange.1, hwithin b hb hin hrange, by omega, Nat.dvd_mul_right _ _, ?_⟩
    exact Nat.dvd_sub (hq ▸ Nat.dvd_mul_right _ _) hfits.dvd_base
  obtain ⟨m', mem, L', pool', hsome, h', spent, hspends, hnotes, hmem, -⟩ :=
    mallocAddr_returns seg h hsafe
  have hnotes' : if m.inRegion bytes addr then Notes (some (m', mem)) m (mmapRoundUp bytes)
      else m' = m := by
    rw [hsome] at hnotes
    cases hin : m.inRegion bytes addr with
    | true => exact hnotes hin
    | false => exact mallocAddr_out seg hin (m', mem) hsome
  rw [hsome] at hspends
  refine ⟨m', mem, L', pool', hsome, h', ?_⟩
  rcases hmem with ⟨rfl, rfl, rfl | ⟨rfl, hout⟩⟩ | ⟨rfl, hin, ⟨b, hb, hdone⟩, d, hd, hrange, hspent⟩
  · exact ⟨⟨fun _ => pages_eq h h', fun hzero => absurd rfl hzero⟩,
      ⟨_, hspends, .inl ⟨pages_eq h h', rfl⟩⟩, hnotes'⟩
  · refine ⟨⟨fun _ => pages_eq h h', fun _ => ⟨rfl, ?_, fun _ => pages_eq h h'⟩⟩,
      ⟨_, hspends, .inl ⟨pages_eq h h', rfl⟩⟩, hnotes'⟩
    rintro ⟨hstart, hlimit⟩
    have hin := (inRegion_iff bytes mem h).mpr
      ⟨hstart, by rwa [mod_eq_of_lt (by omega)]⟩
    rw [hout] at hin
    cases hin
  · obtain ⟨hstart, hend⟩ := (inRegion_iff bytes mem h).mp hin
    have hblimit := (h.tiles.mem hb).2.1
    have hne : mem ≠ 0#64 := by
      rintro rfl
      simp only [toNat_ofNat] at hstart
      omega
    have hlimit : mem.toNat + 4096 * numPages bytes ≤ b.limit := by
      rcases hdone with ⟨-, -, hrange⟩ | ⟨hrel, -⟩
      · exact hwithin b hb hin hrange
      · rw [hround hin] at hrel
        exact hrel.le_limit
    rw [mod_eq_of_lt (by omega)] at hend
    have hnamed : named mem bytes = pageRun q (numPages bytes) := by rw [named, hq']
    have hunion : pages m' = pages m ∪ named mem bytes := by
      rw [hnamed]
      rcases hdone with ⟨rfl, hbusy, hrange⟩ | ⟨-, hset⟩
      · rw [pages_eq h h', union_eq_self_of_subset_right]
        exact pages_subset_of_busy h hb hbusy (hq ▸ hrange.1) (hq ▸ hlimit)
      · rw [hround hin, hq] at hset
        exact pages_union h h' hset
    refine ⟨⟨fun hzero => absurd hzero hne, fun _ => ⟨rfl, fun _ => hunion, ?_⟩⟩,
      ⟨spent, hspends, ?_⟩, hnotes'⟩
    · exact fun hnot => absurd ⟨hstart, hend⟩ hnot
    · have hdlimit := hwithin d hd hin hrange
      have hdbase := hrange.1
      cases hfree : d.free with
      | false =>
        have hsub := pages_subset_of_busy h hd hfree (hq ▸ hdbase) (hq ▸ hdlimit)
        refine .inl ⟨?_, ?_⟩
        · rw [hunion, hnamed, union_eq_self_of_subset_right hsub]
        · rcases hspent with hspent | ⟨-, -, hspent⟩
          · simpa [hfree] using hspent
          · exact hspent
      | true =>
        refine .inr ⟨rfl, ?_, hunion, ?_⟩
        · rw [hnamed, disjoint_right]
          intro p hp
          rw [mem_pageRun] at hp
          exact not_mem_pages_of_covers h ⟨d, hd, hfree, by omega, by omega⟩
        · rcases hspent with hspent | ⟨hbase, hsize, -⟩
          · exact .inl (by simpa [hfree] using hspent)
          · exact .inr ⟨d, chunkBlocks_eq h ▸ hd, hfree, hbase, hsize.trans (hround hin)⟩

theorem dvd_of_and_pageMask (h : addr &&& pageMask = 0#64) : 4096 ∣ addr.toNat := by
  have hmod := congrArg BitVec.toNat h
  exact dvd_of_mod_eq_zero ((and_two_pow_sub_one_eq_mod addr.toNat 12).symm.trans hmod)

theorem letThrough_mallocAddr (h : LetThrough (.mallocAddr bytes addr)) :
    bytes ≠ 0#64 ∧ 4096 ∣ addr.toNat := by
  rcases h with ⟨g, addr', len, flags, ofs, h⟩ | ⟨start, len, h⟩ |
    ⟨g, addr', oldLen, newLen, first, second, h, hc⟩
  · rw [scMmap] at h
    split_ifs at h with hmask _ hlen <;> cases h
    exact ⟨hlen, dvd_of_and_pageMask (by simpa using (not_or.mp hmask).1)⟩
  · rw [scMunmap] at h
    split_ifs at h
    cases h
  · rw [scMremap] at h
    split_ifs at h
    all_goals
      cases h
      simp at hc

section Free

variable {c : Cursor ChunkId}

section

variable (h : Holds r m c.blocks pool) (hbusy : c.here.free = false)
include h hbusy

theorem mem_pages_before
    (hq : 0 < q) (hbase : c.here.base ≤ 4096 * q) (hlt : 4096 * q < c.here.limit) :
    q - 1 ∈ pages m ↔ c.here.base < 4096 * q := by
  have hfits := fits_of_tiles h.tiles _ (here_mem c)
  have hdvd := hfits.dvd_base
  constructor
  · intro hmem
    by_contra hnot
    have heq : 4096 * (q - 1) = c.here.base - 4096 := by omega
    rcases Nat.lt_or_ge r.start c.here.base with hstart | hstart
    · have hother := covers_base_sub h.tiles h.alternates (by omega) hstart
      rw [hbusy, ← heq] at hother
      exact not_mem_pages_of_covers h hother hmem
    · have hbounds := ((mem_pages h).mp hmem).bounds h.tiles
      omega
  · intro hbefore
    exact (mem_pages h).mpr ⟨c.here, here_mem c, hbusy, by omega, by omega⟩

theorem mem_pages_after (hbase : c.here.base ≤ 4096 * p) (hlimit : 4096 * p ≤ c.here.limit) :
    p ∈ pages m ↔ 4096 * p < c.here.limit := by
  constructor
  · intro hmem
    by_contra hnot
    have heq : c.here.limit = 4096 * p := by omega
    have hbounds := ((mem_pages h).mp hmem).bounds h.tiles
    have hother := covers_limit h.tiles h.alternates (by omega)
    rw [hbusy, heq] at hother
    exact not_mem_pages_of_covers h hother hmem
  · intro hlt
    exact (mem_pages h).mpr ⟨c.here, here_mem c, hbusy, hbase, hlt⟩

theorem sides_eq (hn : 0 < n)
    (hbase : c.here.base ≤ 4096 * q) (hlimit : 4096 * q + 4096 * n ≤ c.here.limit) :
    sides (pages m) q n = c.releaseNeeds (4096 * n) (4096 * q) := by
  have hstart := (h.tiles.mem (here_mem c)).1
  have hpos := r.pos_start
  have hbefore := mem_pages_before h hbusy (by omega : 0 < q) hbase (by omega)
  have hafter := mem_pages_after h hbusy (by omega : c.here.base ≤ 4096 * (q + n)) (by omega)
  rw [Nat.mul_add] at hafter
  rw [sides, releaseNeeds]
  simp only [hbefore, hafter]
  rcases Nat.lt_or_ge (4096 * n) c.here.size with hlt | hge
  · rw [if_pos hlt]
  · rw [Block.limit] at hlimit ⊢
    rw [if_neg (by omega : ¬ c.here.base < 4096 * q), if_neg (by omega), if_neg (by omega)]

end

theorem free_effect (h : Holds r m L pool) (hlen : len ≠ 0#64) (hdvd : 4096 ∣ addr.toNat)
    (hsub : named addr len ⊆ pages m) : Effect r seg m pool.length (.free addr len) := by
  have hpos := numPages_pos hlen
  obtain ⟨q, hq⟩ := hdvd
  have hq' : addr.toNat / 4096 = q := by omega
  rw [named, hq'] at hsub
  have hfirst : q ∈ pageRun q (numPages len) := mem_pageRun.mpr (by omega)
  obtain ⟨b, hb, hbusy, hbase, hlt⟩ := (mem_pages h).mp (hsub hfirst)
  have hlimit := run_le_limit h hb (fun p hp => hbusy ▸ (mem_pages h).mp (hsub hp)) hbase hlt
  have hfits := fits_of_tiles h.tiles b hb
  have hfit := hfits.limit_le
  have hround : (mmapRoundUp len).toNat = 4096 * numPages len :=
    toNat_mmapRoundUp_of_lt (by omega)
  obtain ⟨c, rfl, rfl, rfl⟩ := exists_cursor hb pool
  have hrel : Releasable 4096 c.here (mmapRoundUp len).toNat addr.toNat := by
    rw [hround, hq]
    exact ⟨hbase, hlimit, by omega, Nat.dvd_mul_right _ _,
      Nat.dvd_sub (Nat.dvd_mul_right _ _) hfits.dvd_base⟩
  have hcarve : Carvable c.here (mmapRoundUp len).toNat addr.toNat :=
    ⟨hrel, fun hfree => by simp [hbusy] at hfree⟩
  obtain ⟨m', hsome, h', havail, hmemBusy, hmark⟩ :=
    free_release h hlen (by rw [hround, numPages]; omega) hcarve
  rw [← chunkBlocks_eq h'] at hmark
  have hcovers := (sets_release h.tiles h.alternates fun _ => hrel).1.covers
  have hsides := sides_eq h hbusy hpos hbase hlimit
  rw [hround, hq] at h' hcovers
  have hpages : ∀ p, p ∈ pages m' ↔
      ¬ (sides (pages m) q (numPages len) ≤ c.spare.length ∧ p ∈ pageRun q (numPages len)) ∧
        p ∈ pages m := by
    intro p
    have hreleased : c.Released (4096 * numPages len) (4096 * q) (4096 * p) ↔
        sides (pages m) q (numPages len) ≤ c.spare.length ∧ p ∈ pageRun q (numPages len) := by
      rw [Released, hsides, mem_pageRun]
      refine and_congr_right fun _ => ?_
      split
      · rfl
      next hwhole =>
        rw [Block.limit] at *
        omega
    rw [mem_pages h', hcovers, hreleased, mem_pages h]
    simp
  refine ⟨m', 0#64, _, _, by rw [MmapMgr.call, hsome]; rfl, h', ⟨?_, ?_⟩, havail, hmemBusy, hmark⟩
  · intro hle
    ext p
    rw [hq'] at hle
    rw [hpages, named, hq', mem_sdiff]
    tauto
  · intro hlt
    ext p
    rw [hq'] at hlt
    rw [hpages]
    have hnot := Nat.not_le.mpr hlt
    tauto

end Free

theorem call_effect {c : Call} (h : Holds r m L pool) (hproper : Proper m c) :
    Effect r seg m pool.length c := by
  cases c with
  | malloc g bytes => exact malloc_effect seg g h pool.length hproper
  | mallocAddr bytes addr =>
    obtain ⟨hbytes, hdvd⟩ := letThrough_mallocAddr hproper.1
    exact mallocAddr_effect seg h pool.length hbytes hdvd hproper.2
  | free addr len => exact free_effect seg h hproper.1 hproper.2.1 hproper.2.2

theorem call_refines {c : Call} (h : Holds r m L pool) (hproper : Proper m c) :
    Refines r seg m pool.length c := by
  obtain ⟨m', mem, L', pool', hcall, h', hstep, -⟩ := call_effect seg h hproper
  exact ⟨m', mem, L', pool', hcall, h', hstep⟩

theorem toNat_chunksLeft (h : Holds r m L pool) : m.chunks.chunksLeft.toNat = pool.length := by
  have hlength := length_le_of_represents h.represents
  simp only [List.length_append, mmapMaxAllocs] at hlength
  rw [h.represents.left, toNat_ofNat, mod_eq_of_lt (by omega)]

section Live

/-- The mappings obtained without a fixed address, each without the pages that a free
has named since. -/
def liveAfter (live : List (Set Nat)) : Call → Addr → List (Set Nat)
  | .malloc _ bytes, mem =>
    if mem = 0#64 then live else pageRun (mem.toNat / 4096) (numPages bytes) :: live
  | .mallocAddr _ _, _ => live
  | .free addr len, _ => live.map (· \ named addr len)

/-- A call, with the allocations that are live -/
def liveStep (s : MmapMgr × List (Set Nat)) (c : Call) : Option (MmapMgr × List (Set Nat)) :=
  (s.1.call seg c).map fun (m, mem) => (m, liveAfter s.2 c mem)

/-- The live mappings are allocated and apart from each other. -/
structure Apart (live : List (Set Nat)) (A : Set Nat) : Prop where
  disjoint : live.Pairwise Disjoint
  subset : ∀ P ∈ live, P ⊆ A

theorem Apart.mono (h : Apart live A) (hA : A ⊆ A') : Apart live A' :=
  ⟨h.disjoint, fun P hP => (h.subset P hP).trans hA⟩

theorem apart_liveAfter {left : Nat} {c : Call} {mem : Addr} (h : Apart live A)
    (hstep : PageStep r left A A' c mem) : Apart (liveAfter live c mem) A' := by
  cases c with
  | malloc g bytes =>
    rw [liveAfter]
    split
    next hzero =>
      rw [hstep.1 hzero]
      exact h
    next hmem =>
      obtain ⟨q, hq, hleast, rfl⟩ := hstep.2 hmem
      rw [hq, Nat.mul_div_cancel_left q (by omega)]
      have hnew : ∀ P ∈ live, Disjoint (pageRun q (numPages bytes)) P := fun P hP =>
        disjoint_left.mpr fun p hp hpP => (hleast.1 hp).2 (h.subset P hP hpP)
      refine ⟨List.pairwise_cons.mpr ⟨hnew, h.disjoint⟩, ?_⟩
      intro P hP
      rcases List.mem_cons.mp hP with rfl | hP
      · exact subset_union_right
      · exact (h.subset P hP).trans subset_union_left
  | mallocAddr bytes addr =>
    refine h.mono ?_
    rcases eq_or_ne mem 0#64 with hzero | hne
    · rw [hstep.1 hzero]
    · obtain ⟨-, hin, hout⟩ := hstep.2 hne
      rcases Classical.em (r.start ≤ addr.toNat ∧ addr.toNat + bytes.toNat < r.limit) with
        hregion | hregion
      · rw [hin hregion]
        exact subset_union_left
      · rw [hout hregion]
  | free addr len =>
    have hA : A \ named addr len ⊆ A' := by
      rcases Nat.lt_or_ge left (sides A (addr.toNat / 4096) (numPages len)) with hlt | hge
      · rw [hstep.2 hlt]
        exact sdiff_subset
      · rw [hstep.1 hge]
    constructor
    · rw [liveAfter, List.pairwise_map]
      exact h.disjoint.imp fun hdisj => hdisj.mono sdiff_subset sdiff_subset
    · intro P hP
      obtain ⟨P0, hP0, rfl⟩ := List.mem_map.mp hP
      exact (sdiff_subset_sdiff_left (h.subset P0 hP0)).trans hA

end Live

theorem pages_init (r : Region) : pages r.init = ∅ := by
  obtain ⟨i, pool, -, h⟩ := init_holds r
  ext p
  rw [mem_pages h]
  simp [Covers]

/-- In every run of proper calls the manager is a set of allocated pages: each further
call can be performed and is a step on that set, and the live mappings never overlap. -/
theorem calls_refine_pages (r : Region) (seg : DynSegment) (cs : List Call)
    (hproper : RunMeets (liveStep seg) (fun s c => Proper s.1 c) (r.init, []) cs) :
    pages r.init = ∅ ∧ ∃ m live, run (liveStep seg) (r.init, []) cs = some (m, live) ∧
      live.Pairwise Disjoint ∧ (∀ P ∈ live, P ⊆ pages m) ∧
      ∀ c, Proper m c → ∃ m' mem, m.call seg c = some (m', mem) ∧
        PageStep r m.chunks.chunksLeft.toNat (pages m) (pages m') c mem := by
  obtain ⟨i, pool, -, hinit⟩ := init_holds r
  obtain ⟨⟨m, live⟩, hrun, L', pool', h, hlive⟩ := exists_run_of_runMeets
    (P := fun s : MmapMgr × List (Set Nat) =>
      ∃ L pool, Holds r s.1 L pool ∧ Apart s.2 (pages s.1))
    (by
      rintro ⟨m, live⟩ c ⟨L, pool, h, hlive⟩ hc
      obtain ⟨m', mem, L', pool', hcall, h', hstep⟩ := call_refines seg h hc
      exact ⟨(m', liveAfter live c mem), by rw [liveStep, hcall]; rfl, L', pool', h',
        apart_liveAfter hlive hstep⟩)
    ⟨_, pool, hinit, List.Pairwise.nil, by simp⟩ hproper
  refine ⟨pages_init r, m, live, hrun, hlive.disjoint, hlive.subset, ?_⟩
  intro c hc
  obtain ⟨m', mem, L'', pool'', hcall, -, hstep⟩ := call_refines seg h hc
  rw [toNat_chunksLeft h]
  exact ⟨m', mem, hcall, hstep⟩

theorem proper_free_page : ∀ x ∈ oneMegabyte.init.call noSegment (.malloc noGuard 8192#64),
    Proper x.1 (.free 0x100000#64 4096#64) := by
  have hblocks : ∀ x ∈ oneMegabyte.init.call noSegment (.malloc noGuard 8192#64),
      ∃ b ∈ chunkBlocks x.1.chunks, b.free = false ∧ b.base = 2 ^ 20 ∧ b.size = 8192 := by
    decide +kernel
  intro x hx
  obtain ⟨b, hb, hbusy, hbase, hsize⟩ := hblocks x hx
  refine ⟨by decide, by decide, ?_⟩
  intro p hp
  rw [named, mem_pageRun] at hp
  simp only [numPages, toNat_ofNat] at hp
  exact ⟨b, hb, hbusy, by omega, by rw [Block.limit]; omega⟩

theorem calls_refine_pages_hole :
    RunMeets (liveStep noSegment) (fun s c => Proper s.1 c) (oneMegabyte.init, [])
      [.malloc noGuard 8192#64, .free 0x100000#64 4096#64] ∧
    ∃ m live, run (liveStep noSegment) (oneMegabyte.init, [])
      [.malloc noGuard 8192#64, .free 0x100000#64 4096#64] = some (m, live) ∧
      live.Pairwise Disjoint ∧ ∀ P ∈ live, P ⊆ pages m := by
  have hproper : RunMeets (liveStep noSegment) (fun s c => Proper s.1 c) (oneMegabyte.init, [])
      [.malloc noGuard 8192#64, .free 0x100000#64 4096#64] := by
    refine ⟨show 4096 * numPages 8192#64 < 2 ^ 64 by decide, ?_⟩
    intro t ht
    simp only [liveStep, map_eq_some_iff] at ht
    obtain ⟨x, hcall, rfl⟩ := ht
    exact ⟨proper_free_page x hcall, fun _ _ => trivial⟩
  obtain ⟨-, m, live, hrun, hdisjoint, hsubset, -⟩ :=
    calls_refine_pages oneMegabyte noSegment _ hproper
  exact ⟨hproper, m, live, hrun, hdisjoint, hsubset⟩

section Exhausted

def eightMegabytes : Region :=
  ⟨2 ^ 20, 2 ^ 23, oneMegabyte.pos_start, by decide, oneMegabyte.dvd_start, by decide, by decide⟩

def hole (k : Nat) : Call := .free (BitVec.ofNat 64 (2 ^ 20 + 8192 * k + 4096)) 4096#64

def holes (k : Nat) : List Call :=
  .malloc noGuard (BitVec.ofNat 64 (2 ^ 23)) :: (List.range k).map hole

structure AfterHoles (k : Nat) (m : MmapMgr) (c : Cursor ChunkId) : Prop where
  holds : Holds eightMegabytes m c.blocks c.spare
  busy : c.here.free = false
  base : c.here.base = 2 ^ 20 + 8192 * k
  limit : c.here.limit = 2 ^ 20 + 2 ^ 23
  spare : c.spare.length + 2 * k = 1095

variable {k : Nat} {c : Cursor ChunkId}

theorem toNat_hole (hk : k ≤ 547) :
    (BitVec.ofNat 64 (2 ^ 20 + 8192 * k + 4096)).toNat = 4096 * (257 + 2 * k) := by
  rw [toNat_ofNat, mod_eq_of_lt (by omega)]
  omega

theorem proper_hole (h : AfterHoles k m c) (hk : k ≤ 547) : Proper m (hole k) := by
  have hbase := h.base
  have hlimit := h.limit
  refine ⟨by decide, ⟨_, toNat_hole hk⟩, ?_⟩
  rw [named, toNat_hole hk, Nat.mul_div_cancel_left _ (by omega)]
  exact pages_subset_of_busy h.holds (here_mem c) h.busy (by omega)
    (by simp only [numPages, toNat_ofNat]; omega)

theorem exists_afterHoles_zero : ∃ m mem c,
    eightMegabytes.init.call noSegment (.malloc noGuard (BitVec.ofNat 64 (2 ^ 23))) =
      some (m, mem) ∧ AfterHoles 0 m c := by
  obtain ⟨i, pool, -, hinit⟩ := init_holds eightMegabytes
  obtain ⟨m, mem, L, pool', hcall, h, -⟩ := call_refines noSegment hinit
    (c := .malloc noGuard (BitVec.ofNat 64 (2 ^ 23)))
    (show 4096 * numPages (BitVec.ofNat 64 (2 ^ 23)) < 2 ^ 64 by decide)
  have hblocks : (eightMegabytes.init.call noSegment
      (.malloc noGuard (BitVec.ofNat 64 (2 ^ 23)))).map (fun x => (chunkBlocks x.1.chunks).map
        fun b => (b.base, b.size, b.free)) = some [(2 ^ 20, 2 ^ 23, false)] := by
    decide +kernel
  have hleft : (eightMegabytes.init.call noSegment
      (.malloc noGuard (BitVec.ofNat 64 (2 ^ 23)))).map (fun x => x.1.chunks.chunksLeft.toNat) =
        some 1095 := by
    decide +kernel
  rw [hcall, map_some, some.injEq] at hblocks hleft
  rw [chunkBlocks_eq h] at hblocks
  rw [toNat_chunksLeft h] at hleft
  obtain ⟨b, rfl, hb⟩ := List.map_eq_singleton_iff.mp hblocks
  simp only [Prod.mk.injEq] at hb
  refine ⟨m, mem, ⟨[], b, [], pool'⟩, hcall, h, hb.2.2, hb.1, ?_, hleft⟩
  rw [Block.limit, hb.1, hb.2.1]

theorem exists_afterHoles_succ (h : AfterHoles k m c) (hk : k < 547) :
    ∃ m' c', m.call noSegment (hole k) = some (m', 0#64) ∧ AfterHoles (k + 1) m' c' := by
  obtain ⟨t, t', spare, hspare⟩ : ∃ t t' spare, c.spare = t :: t' :: spare := by
    have hlength := h.spare
    match hs : c.spare with
    | [] => simp [hs] at hlength; omega
    | [t] => simp [hs] at hlength; omega
    | t :: t' :: spare => exact ⟨t, t', spare, rfl⟩
  have hbase := h.base
  have hlimit := h.limit
  have hround : (mmapRoundUp 4096#64).toNat = 4096 := by decide
  have hrel : Releasable 4096 c.here (mmapRoundUp 4096#64).toNat
      (BitVec.ofNat 64 (2 ^ 20 + 8192 * k + 4096)).toNat := by
    rw [hround, toNat_hole (by omega)]
    exact ⟨by omega, by omega, by omega, by omega, by omega⟩
  obtain ⟨m', hfree, h', -⟩ := free_release h.holds (by decide) (by decide)
    ⟨hrel, fun hfree => by simp [h.busy] at hfree⟩
  rw [hround, toNat_hole (by omega), release_inside hspare h.busy (by omega) (by omega)] at h'
  have hsize : c.here.size = 2 ^ 23 - 8192 * k := by
    rw [Block.limit] at hlimit
    omega
  have hlength := h.spare
  rw [hspare, List.length_cons, List.length_cons] at hlength
  rw [blocks_next] at h'
  refine ⟨m', ⟨_ :: _ :: c.before, _, c.after, spare⟩,
    congrArg (Option.map (·, 0#64)) hfree, ⟨h', rfl, ?_, ?_, ?_⟩⟩
  · simp only
    omega
  · simp only [Block.limit]
    omega
  · simp only
    omega

theorem holes_reach (hk : k ≤ 547) : ∃ m live c,
    run (liveStep noSegment) (eightMegabytes.init, []) (holes k) = some (m, live) ∧
      RunMeets (liveStep noSegment) (fun s c => Proper s.1 c) (eightMegabytes.init, []) (holes k) ∧
      AfterHoles k m c := by
  induction k with
  | zero =>
    obtain ⟨m, mem, c, hcall, h⟩ := exists_afterHoles_zero
    refine ⟨m, liveAfter [] (.malloc noGuard (BitVec.ofNat 64 (2 ^ 23))) mem, c, ?_, ?_, h⟩
    · simp only [holes, List.range_zero, List.map_nil, run_cons, liveStep, hcall,
        map_some, bind_some, run_nil]
    · exact ⟨show 4096 * numPages (BitVec.ofNat 64 (2 ^ 23)) < 2 ^ 64 by decide,
        fun _ _ => trivial⟩
  | succ k ih =>
    obtain ⟨m, live, c, hrun, hmeets, h⟩ := ih (by omega)
    obtain ⟨m', c', hcall, h'⟩ := exists_afterHoles_succ h (by omega)
    have hholes : holes (k + 1) = holes k ++ [hole k] := by
      rw [holes, List.range_succ, List.map_append]
      rfl
    refine ⟨m', liveAfter live (hole k) 0#64, c', ?_, ?_, h'⟩
    · rw [hholes, run_concat, hrun, bind_some, liveStep, hcall]
      rfl
    · rw [hholes]
      refine runMeets_concat hmeets ?_
      intro t ht
      obtain rfl := some.inj (hrun.symm.trans ht)
      exact proper_hole h (by omega)

/-- One descriptor is left and the free needs two, so it frees nothing. -/
theorem not_forall_free_exact : ¬ ∀ (r : Region) (seg : DynSegment) (cs : List Call) m live,
    RunMeets (liveStep seg) (fun s c => Proper s.1 c) (r.init, []) cs →
    run (liveStep seg) (r.init, []) cs = some (m, live) →
    ∀ addr len, Proper m (.free addr len) → ∀ m', m.free addr len = some m' →
      pages m' = pages m \ named addr len ∨
        (m.chunks.chunksLeft = 0#64 ∧ pages m' = pages m) := by
  intro hall
  obtain ⟨m, live, c, hrun, hmeets, h⟩ := holes_reach (le_refl 547)
  have hproper := proper_hole h (le_refl 547)
  have hleft := toNat_chunksLeft h.holds
  have hspare := h.spare
  have hbase := h.base
  have hlimit := h.limit
  have hsides : sides (pages m) (257 + 2 * 547) 1 = 2 := by
    rw [sides_eq h.holds h.busy (by omega) (by omega) (by omega), releaseNeeds,
      if_pos (by rw [Block.limit] at hlimit; omega), if_pos (by omega), if_pos (by omega)]
  obtain ⟨m', mem, -, -, hcall, -, hstep⟩ := call_refines noSegment h.holds hproper
  obtain ⟨m'', hfree, hm''⟩ := map_eq_some_iff.mp hcall
  obtain rfl := congrArg Prod.fst hm''
  have hsame : pages m'' = pages m := by
    refine hstep.2 ?_
    exact lt_of_lt_of_eq (by omega) hsides.symm
  rcases hall _ _ _ m live hmeets hrun _ _ hproper m'' hfree with hgone | ⟨hzero, -⟩
  · have hmem : 257 + 2 * 547 ∈ named (BitVec.ofNat 64 (2 ^ 20 + 8192 * 547 + 4096)) 4096#64 := by
      rw [named, toNat_hole (le_refl 547), mem_pageRun]
      simp only [numPages, toNat_ofNat]
      omega
    have hin := hproper.2.2 hmem
    rw [← hsame, hgone] at hin
    exact hin.2 hmem
  · rw [hzero, toNat_ofNat] at hleft
    omega

end Exhausted

end BgqDriver.MmapPages
