import Mathlib.Data.Set.Card
import Mathlib.Order.Interval.Finset.Nat
import BgqDriver.MmapPages

/-!
What the calls grant, and what the manager records of its memory: the counters, the
high mark and the pool of chunk descriptors.
-/

namespace BgqDriver.MmapAccounts

open EventRuns Option List Set Nat
open LinkedChains CoalescingBlocks Mmap
open CoalescingBlocks.Cursor MmapSimulation MmapRoutines
open MmapCalls MmapFree MmapRuns MmapPages MmapMgr

variable {r : Region} {m m' : MmapMgr} {L L' : List (Block ChunkId)} {pool pool' : List ChunkId}
  {bytes len rbytes : BitVec 64} {addr mem : Addr} {p q n : Nat} (seg : DynSegment)

theorem pages_bounds (h : Holds r m L pool) (hp : p ∈ pages m) :
    r.start ≤ 4096 * p ∧ 4096 * p + 4096 ≤ r.limit := by
  have hbounds := ((mem_pages h).mp hp).bounds h.tiles
  have hstart := r.dvd_start
  have hsize := r.dvd_size
  rw [Region.limit] at *
  omega

section Granted

/-- The `len` bytes from `mem` on do not wrap, are in the region and are in use. -/
def Granted (r : Region) (m : MmapMgr) (mem : Addr) (len : BitVec 64) : Prop :=
  mem.toNat + len.toNat < 2 ^ 64 ∧ r.start ≤ mem.toNat ∧ mem.toNat + len.toNat ≤ r.limit ∧
    ∀ x, mem.toNat ≤ x → x < mem.toNat + len.toNat → Covers (chunkBlocks m.chunks) false x

theorem granted_of_subset (h : Holds r m L pool) (hlen : len ≠ 0#64) (hq : mem.toNat = 4096 * q)
    (hsub : pageRun q (numPages len) ⊆ pages m) : Granted r m mem len := by
  have hpos := numPages_pos hlen
  have hfirst := pages_bounds h (hsub (mem_pageRun.mpr (by omega) : q ∈ _))
  have hlast := pages_bounds h (hsub (mem_pageRun.mpr (by omega) : q + (numPages len - 1) ∈ _))
  have hle : len.toNat ≤ 4096 * numPages len := by
    rw [numPages]
    omega
  have hlt : r.limit < 2 ^ 64 := r.lt
  refine ⟨by omega, by omega, by omega, ?_⟩
  intro x hx hx'
  have hp : x / 4096 ∈ pages m := hsub (mem_pageRun.mpr (by omega))
  obtain ⟨b, hb, hbusy, hbase, hlimit⟩ := (mem_pages h).mp hp
  have hfits := fits_of_tiles h.tiles b hb
  have hdvd : 4096 ∣ b.limit := Nat.dvd_add hfits.dvd_base hfits.dvd_size
  exact ⟨b, chunkBlocks_eq h ▸ hb, hbusy, by omega, by omega⟩

theorem mallocAddr_mem : ∀ x ∈ m.mallocAddr seg bytes addr, x.2 = 0#64 ∨ x.2 = addr := by
  have hinside : ∀ (m : MmapMgr) ch newChunk rbytes,
      (m.mallocInside ch newChunk rbytes addr).2 = 0#64 ∨
        (m.mallocInside ch newChunk rbytes addr).2 = addr := by
    intro m ch newChunk rbytes
    rw [mallocInside]
    split
    · split
      · exact .inl rfl
      · exact .inr rfl
    · exact .inr rfl
  intro x hx
  rw [MmapMgr.mallocAddr] at hx
  split at hx
  · rw [withFreeChunk] at hx
    split at hx
    · cases hx
      exact .inl rfl
    · obtain ⟨⟨m1, mem⟩, hmem, rfl⟩ := map_eq_some_iff.mp hx
      obtain ⟨found, -, hfound⟩ := bind_eq_some_iff.mp hmem
      cases found with
      | some ch =>
        cases hfound
        exact .inr rfl
      | none =>
        obtain ⟨found, -, hfound⟩ := map_eq_some_iff.mp hfound
        cases found with
        | none =>
          cases hfound
          exact .inl rfl
        | some ch => exact hfound ▸ hinside _ ch _ _
  · split at hx
    · cases hx
      exact .inr rfl
    · cases hx
      exact .inl rfl

/-- The memory that a successful allocation grants is whole and in the region exactly
when its length does not wrap. -/
theorem mmap_granted_iff (r : Region) (seg : DynSegment) (cs : List Call) (m : MmapMgr)
    (hcareful : RunMeets (step seg) Careful r.init cs)
    (hrun : run (step seg) r.init cs = some m) (g : Guard) (addr : Addr)
    (len : BitVec 64) (flags : MapFlags) (ofs : BitVec 64) (c : Call)
    (hmmap : scMmap g addr len flags ofs = .ok (some c)) (m' : MmapMgr) (mem : Addr)
    (hcall : m.call seg c = some (m', mem)) (hmem : mem ≠ 0#64)
    (hin : flags.fixed = true → m.inRegion len addr = true) : Granted r m' mem len ↔
      if flags.fixed then addr.toNat + len.toNat < 2 ^ 64 else 4096 * numPages len < 2 ^ 64 := by
  obtain ⟨p, pool, -, hinit⟩ := init_holds r
  obtain ⟨m1, hrun1, L, pool', h⟩ := exists_run_of_runMeets
    (P := fun m => ∃ L pool, Holds r m L pool)
    (fun m c ⟨L, pool, h⟩ hc => step_holds seg h hc) ⟨_, pool, hinit⟩ hcareful
  obtain rfl := some.inj (hrun1.symm.trans hrun)
  rw [scMmap] at hmmap
  split_ifs at hmmap with hmask _ hlen _ hfixed <;> cases hmmap
  · rw [if_pos hfixed]
    obtain ⟨q, hq⟩ := dvd_of_and_pageMask (by simpa using (not_or.mp hmask).1)
    constructor
    · intro hgranted
      rcases mallocAddr_mem seg (m', mem) hcall with hzero | haddr
      · exact absurd hzero hmem
      · exact haddr ▸ hgranted.1
    · intro hwrap
      obtain ⟨hstart, hend⟩ := (inRegion_iff len addr h).mp (hin hfixed)
      rw [mod_eq_of_lt hwrap] at hend
      have hdvd : 4096 ∣ r.limit :=
        Nat.dvd_add ((by decide : 4096 ∣ 2 ^ 20).trans r.dvd_start)
          ((by decide : 4096 ∣ 2 ^ 20).trans r.dvd_size)
      obtain ⟨m2, mem2, L', pool2, hsome, h', hstep, -⟩ := mallocAddr_effect seg h 0 hlen
        (Dvd.intro q hq.symm) (by rw [numPages]; omega)
      cases hcall.symm.trans hsome
      obtain ⟨rfl, hunion, -⟩ := hstep.2 hmem
      refine granted_of_subset h' hlen hq ?_
      rw [hunion ⟨hstart, hend⟩, named, hq, Nat.mul_div_cancel_left q (by omega)]
      exact subset_union_right
  · rw [if_neg hfixed]
    constructor
    · rintro ⟨hwrap, hstart, -, -⟩
      have hpos := r.pos_start
      have hdvd := r.dvd_start
      rw [numPages]
      omega
    · intro hwrap
      obtain ⟨m2, mem2, L', pool2, hsome, h', hstep, -⟩ := malloc_effect seg g h 0 hwrap
      cases hcall.symm.trans hsome
      obtain ⟨q, hq, -, hunion⟩ := hstep.2 hmem
      exact granted_of_subset h' hlen hq (hunion ▸ subset_union_right)

theorem mmap_granted_iff_onePage : ∃ m' mem,
    oneMegabyte.init.call noSegment (.malloc noGuard 4096#64) = some (m', mem) ∧
      Granted oneMegabyte m' mem 4096#64 := by
  have hmem : (oneMegabyte.init.call noSegment (.malloc noGuard 4096#64)).map Prod.snd =
      some 0x100000#64 := by
    decide +kernel
  obtain ⟨⟨m', mem⟩, hcall, rfl⟩ := map_eq_some_iff.mp hmem
  exact ⟨m', _, hcall, (mmap_granted_iff oneMegabyte noSegment [] oneMegabyte.init trivial rfl
    noGuard 0#64 4096#64 ⟨false, false, false, false⟩ 0#64 _ rfl m' _ hcall (by decide)
    (by simp)).mpr (by decide)⟩

/-- A length one below the whole address space rounds to nothing and is granted. -/
theorem not_forall_mmap_granted : ¬ ∀ (r : Region) (seg : DynSegment) (cs : List Call) m,
    RunMeets (step seg) Careful r.init cs → run (step seg) r.init cs = some m →
    ∀ g addr len flags ofs c, scMmap g addr len flags ofs = .ok (some c) →
    ∀ m' mem, m.call seg c = some (m', mem) → mem ≠ 0#64 →
    (flags.fixed = true → m.inRegion len addr = true) → Granted r m' mem len := by
  intro hall
  have hmem : (oneMegabyte.init.call noSegment
      (.malloc noGuard 0xFFFFFFFFFFFFFFFF#64)).map Prod.snd = some 0x100000#64 := by
    decide +kernel
  obtain ⟨⟨m', mem⟩, hcall, rfl⟩ := map_eq_some_iff.mp hmem
  obtain ⟨hwrap, -⟩ := hall oneMegabyte noSegment [] oneMegabyte.init trivial rfl noGuard 0#64
    0xFFFFFFFFFFFFFFFF#64 ⟨false, false, false, false⟩ 0#64 _ rfl m' _ hcall (by decide) (by simp)
  exact absurd hwrap (by decide)

end Granted

variable {c : Call}

section Counters

def total (v : Bool) (L : List (Block ChunkId)) : Nat :=
  ((L.filter (·.free == v)).map Block.size).sum

/-- The counters are the sizes of the chunks in use and of the free ones. -/
def Counted (m : MmapMgr) : Prop :=
  m.memBusy.toNat = total false (chunkBlocks m.chunks) ∧
    m.memAvail.toNat = total true (chunkBlocks m.chunks) ∧
    m.memAvail.toNat + m.memBusy.toNat = m.memSize.toNat

/-- The calls that the counters follow: no fixed request is the whole of a free chunk, and
no free runs out of descriptors. -/
def Counts (m : MmapMgr) : Call → Prop
  | .malloc _ _ => True
  | .mallocAddr bytes addr => m.inRegion bytes addr = true → ¬ WholeFree m bytes addr
  | .free addr len =>
    sides (pages m) (addr.toNat / 4096) (numPages len) ≤ m.chunks.chunksLeft.toNat

theorem total_cons (v : Bool) (b : Block ChunkId) (L : List (Block ChunkId)) :
    total v (b :: L) = (if b.free = v then b.size else 0) + total v L := by
  rw [total, filter_cons]
  cases b.free <;> cases v <;> simp [total]

theorem total_add {u s e : Nat} (h : Tiles u s L e) : s + (total false L + total true L) = e := by
  induction L generalizing s with
  | nil => exact h
  | cons b L ih =>
    obtain ⟨rfl, -, -, hrest⟩ := h
    have hsum := ih hrest
    rw [Block.limit] at hsum
    rw [total_cons, total_cons]
    cases b.free <;> simp <;> omega

theorem finite_pageRun (q n : Nat) : (pageRun q n).Finite := finite_Ico q (q + n)

theorem ncard_pageRun (q n : Nat) : (pageRun q n).ncard = n := by
  rw [pageRun, ← Finset.coe_Ico, ncard_coe_finset, card_Ico]
  omega

theorem finite_pages (h : Holds r m L pool) : (pages m).Finite := by
  refine (finite_Ico (r.start / 4096) (r.limit / 4096)).subset ?_
  intro p hp
  have hbounds := pages_bounds h hp
  exact mem_Ico.mpr (by omega)

theorem total_false {s e : Nat} (h : Tiles 4096 s L e) (hs : 4096 ∣ s) :
    total false L = 4096 * { p | Covers L false (4096 * p) }.ncard := by
  induction L generalizing s with
  | nil => simp [total, Covers]
  | cons b L ih =>
    obtain ⟨rfl, hpos, ⟨n, hn⟩, hrest⟩ := h
    obtain ⟨q, hq⟩ := hs
    have hset : { p | Covers (b :: L) false (4096 * p) } =
        { p | b.free = false ∧ p ∈ pageRun q n } ∪ { p | Covers L false (4096 * p) } := by
      ext p
      have hmem : p ∈ pageRun q n ↔ b.base ≤ 4096 * p ∧ 4096 * p < b.limit := by
        rw [mem_pageRun, Block.limit, hq, hn]
      simp only [Covers, mem_cons, exists_eq_or_imp, mem_ofPred_eq, mem_union, hmem]
    have hdisj : Disjoint { p | b.free = false ∧ p ∈ pageRun q n }
        { p | Covers L false (4096 * p) } := by
      refine disjoint_left.mpr ?_
      rintro p ⟨-, hp⟩ hcovers
      have hbounds := Covers.bounds hrest hcovers
      rw [mem_pageRun] at hp
      rw [Block.limit] at hbounds
      omega
    have hfinite : { p | Covers L false (4096 * p) }.Finite := by
      refine (finite_Iio e).subset ?_
      intro p hp
      have hbounds := Covers.bounds hrest hp
      exact mem_Iio.mpr (by omega)
    rw [total_cons, ih hrest (by rw [Block.limit]; omega), hset, ncard_union_eq hdisj
      ((finite_pageRun q n).subset fun p hp => hp.2) hfinite, Nat.mul_add]
    congr 1
    cases b.free with
    | true => simp
    | false => simp [ncard_pageRun, hn]

def Balanced (r : Region) (m : MmapMgr) : Prop :=
  m.memBusy = BitVec.ofNat 64 (4096 * (pages m).ncard) ∧
    m.memAvail = BitVec.ofNat 64 r.size - m.memBusy

theorem counted_of_balanced (h : Holds r m L pool) (hbalanced : Balanced r m) : Counted m := by
  obtain ⟨hbusy, havail⟩ := hbalanced
  have hlt := r.lt
  have hsum := total_add h.tiles
  have hfalse := total_false h.tiles ((by decide : 4096 ∣ 2 ^ 20).trans r.dvd_start)
  have hpages : pages m = { p | Covers L false (4096 * p) } := by
    ext p
    exact mem_pages h
  rw [Region.limit] at hsum
  rw [hpages, ← hfalse] at hbusy
  have hbusy' : m.memBusy.toNat = total false L := by
    rw [hbusy, BitVec.toNat_ofNat, mod_eq_of_lt (by omega)]
  have havail' : m.memAvail.toNat = total true L := by
    rw [havail, BitVec.toNat_sub, BitVec.toNat_ofNat, hbusy']
    omega
  rw [Counted, chunkBlocks_eq h, hbusy', havail', h.memSize, BitVec.toNat_ofNat]
  exact ⟨rfl, rfl, by omega⟩

theorem init_counters (r : Region) : r.init.memBusy = 0#64 ∧ r.init.memAvail = r.init.memSize := by
  rw [Region.init, init]
  split
  · exact ⟨rfl, rfl⟩
  · simp only
    split
    · exact ⟨rfl, rfl⟩
    · rw [initRegion]
      obtain ⟨-, hsize, havail, hbusy⟩ := freeMemory_region _ _ _ _
      exact ⟨hbusy, havail.trans hsize.symm⟩

theorem balanced_init (r : Region) : Balanced r r.init := by
  obtain ⟨i, pool, -, h⟩ := init_holds r
  obtain ⟨hbusy, havail⟩ := init_counters r
  constructor
  · rw [pages_init, ncard_empty]
    exact hbusy
  · rw [hbusy, havail, h.memSize, BitVec.sub_zero]

theorem Balanced.spend (hbalanced : Balanced r m)
    (hspends : Spends (some (m', mem)) m (BitVec.ofNat 64 (4096 * n)))
    (hcard : (pages m').ncard = (pages m).ncard + n) : Balanced r m' := by
  obtain ⟨havail', hbusy'⟩ := hspends _ rfl
  obtain ⟨hbusy, havail⟩ := hbalanced
  constructor
  · rw [hbusy', hbusy, hcard, Nat.mul_add, BitVec.ofNat_add]
  · rw [havail', hbusy', havail]
    bv_omega

theorem Balanced.refund (hbalanced : Balanced r m)
    (havail' : m'.memAvail = m.memAvail + BitVec.ofNat 64 (4096 * n))
    (hbusy' : m'.memBusy = m.memBusy - BitVec.ofNat 64 (4096 * n))
    (hcard : (pages m').ncard + n = (pages m).ncard) : Balanced r m' := by
  obtain ⟨hbusy, havail⟩ := hbalanced
  constructor
  · rw [hbusy', hbusy, ← hcard, Nat.mul_add, BitVec.ofNat_add, BitVec.add_sub_cancel]
  · rw [havail', hbusy', havail]
    bv_omega

theorem ncard_union (h : Holds r m L pool) (hdisj : Disjoint (pages m) (pageRun q n)) :
    (pages m ∪ pageRun q n).ncard = (pages m).ncard + n := by
  rw [ncard_union_eq hdisj (finite_pages h) (finite_pageRun q n), ncard_pageRun]

theorem mmapRoundUp_eq (h : 4096 * numPages bytes < 2 ^ 64) :
    mmapRoundUp bytes = BitVec.ofNat 64 (4096 * numPages bytes) := by
  rw [← toNat_mmapRoundUp_of_lt h, BitVec.ofNat_toNat, BitVec.setWidth_eq]

theorem call_balanced (h : Holds r m L pool) (hbalanced : Balanced r m) (hproper : Proper m c)
    (hcounts : Counts m c) :
    ∃ m' mem L' pool', m.call seg c = some (m', mem) ∧ Holds r m' L' pool' ∧ Balanced r m' := by
  obtain ⟨m', mem, L', pool', hcall, h', hstep, haccounts⟩ := call_effect seg h hproper
  refine ⟨m', mem, L', pool', hcall, h', ?_⟩
  have hsame : Spends (some (m', mem)) m 0#64 → pages m' = pages m → Balanced r m' :=
    fun hspends hpages => hbalanced.spend (n := 0) hspends (by rw [hpages, Nat.add_zero])
  cases c with
  | malloc g bytes =>
    obtain ⟨hspends, -⟩ := haccounts
    rcases eq_or_ne mem 0#64 with hzero | hne
    · rw [if_pos hzero] at hspends
      exact hsame hspends (hstep.1 hzero)
    · obtain ⟨q, -, hleast, hunion⟩ := hstep.2 hne
      rw [if_neg hne, mmapRoundUp_eq hproper] at hspends
      refine hbalanced.spend hspends ?_
      rw [hunion, ncard_union h]
      exact disjoint_right.mpr fun p hp => (hleast.1 hp).2
  | mallocAddr bytes addr =>
    obtain ⟨⟨spent, hspends, hspent⟩, hmark⟩ := haccounts
    cases hin : m.inRegion bytes addr with
    | false =>
      rw [hin] at hmark
      exact hmark ▸ hbalanced
    | true =>
      rcases hspent with ⟨hpages, rfl⟩ | ⟨-, hdisj, hunion, rfl | hwhole⟩
      · exact hsame hspends hpages
      · have hstart := ((inRegion_iff bytes addr h).mp hin).1
        have hpos := r.pos_start
        have hwrap := hproper.2
        rw [mmapRoundUp_eq (by omega)] at hspends
        exact hbalanced.spend hspends (by rw [hunion]; exact ncard_union h hdisj)
      · exact absurd hwhole (hcounts hin)
  | free addr len =>
    obtain ⟨havail, hbusy, -⟩ := haccounts
    obtain ⟨hlen, ⟨q, hq⟩, hsub⟩ := hproper
    have hpos := numPages_pos hlen
    rw [named, hq, Nat.mul_div_cancel_left q (by omega)] at hsub
    have hlast := pages_bounds h (hsub (mem_pageRun.mpr (by omega) : q + (numPages len - 1) ∈ _))
    have hlt : r.limit < 2 ^ 64 := r.lt
    rw [mmapRoundUp_eq (by omega)] at havail hbusy
    refine hbalanced.refund havail hbusy ?_
    rw [Counts, toNat_chunksLeft h] at hcounts
    rw [hstep.1 hcounts, named, hq, Nat.mul_div_cancel_left q (by omega),
      ← ncard_sdiff_add_ncard_of_subset hsub (finite_pages h), ncard_pageRun]

/-- In every run of proper calls that the counters follow, the counters are the sizes of
the busy and of the free chunks after each call. -/
theorem counters_exact (r : Region) (seg : DynSegment) (cs : List Call)
    (hmeets : RunMeets (step seg) (fun m c => Proper m c ∧ Counts m c) r.init cs) :
    ∃ m, run (step seg) r.init cs = some m ∧ Counted m := by
  obtain ⟨i, pool, -, hinit⟩ := init_holds r
  obtain ⟨m, hrun, L', pool', h, hbalanced⟩ := exists_run_of_runMeets
    (P := fun m => ∃ L pool, Holds r m L pool ∧ Balanced r m)
    (by
      rintro m c ⟨L, pool, h, hbalanced⟩ ⟨hproper, hcounts⟩
      obtain ⟨m', mem, L', pool', hcall, h', hbalanced'⟩ :=
        call_balanced seg h hbalanced hproper hcounts
      exact ⟨m', congrArg (Option.map Prod.fst) hcall, L', pool', h', hbalanced'⟩)
    ⟨_, pool, hinit, balanced_init r⟩ hmeets
  exact ⟨m, hrun, counted_of_balanced h hbalanced⟩

theorem counters_exact_hole : ∃ m, run (step noSegment) oneMegabyte.init
    [.malloc noGuard 8192#64, .free 0x100000#64 4096#64] = some m ∧ Counted m := by
  refine counters_exact oneMegabyte noSegment _ ⟨⟨?_, trivial⟩, ?_⟩
  · exact show 4096 * numPages 8192#64 < 2 ^ 64 by decide
  · intro t ht
    obtain ⟨x, hcall, rfl⟩ := map_eq_some_iff.mp ht
    refine ⟨⟨proper_free_page x hcall, ?_⟩, fun _ _ => trivial⟩
    have hleft : ∀ x ∈ oneMegabyte.init.call noSegment (.malloc noGuard 8192#64),
        2 ≤ x.1.chunks.chunksLeft.toNat := by
      decide +kernel
    refine le_trans ?_ (hleft x hcall)
    rw [sides]
    split_ifs <;> omega

def FreesAllocated (m : MmapMgr) : Call → Prop
  | .malloc _ _ => True
  | .mallocAddr _ _ => True
  | .free addr len => Proper m (.free addr len)

/-- The last request is the whole of a free chunk, which is not counted. -/
theorem not_forall_counted : ¬ ∀ (r : Region) (seg : DynSegment) (cs : List Call) m,
    RunMeets (step seg) FreesAllocated r.init cs →
    run (step seg) r.init cs = some m → Counted m := by
  intro hall
  have hbusy : (run (step noSegment) oneMegabyte.init [.malloc noGuard 8192#64,
      .free 0x100000#64 4096#64, .mallocAddr 4096#64 0x100000#64]).map (fun m =>
        (m.memBusy.toNat, total false (chunkBlocks m.chunks))) = some (4096, 8192) := by
    decide +kernel
  obtain ⟨m, hrun, hm⟩ := map_eq_some_iff.mp hbusy
  obtain ⟨hcounted, -⟩ := hall oneMegabyte noSegment _ m
    (by
      refine ⟨trivial, fun t ht => ?_⟩
      obtain ⟨x, hcall, rfl⟩ := map_eq_some_iff.mp ht
      exact ⟨proper_free_page x hcall, fun _ _ => ⟨trivial, fun _ _ => trivial⟩⟩)
    hrun
  rw [Prod.mk.injEq, hcounted] at hm
  omega

end Counters

section HighMark

def Marked (m : MmapMgr) : Prop := ∀ p ∈ pages m, 4096 * p + 4096 ≤ m.highMark.toNat

theorem limit_le_highMark {b : Block ChunkId} (h : Holds r m L pool) (hmarked : Marked m)
    (hb : b ∈ L) (hbusy : b.free = false) : b.limit ≤ m.highMark.toNat := by
  have hfits := fits_of_tiles h.tiles b hb
  have hpos := hfits.pos
  obtain ⟨i, hi⟩ := hfits.dvd_base
  obtain ⟨n, hn⟩ := hfits.dvd_size
  have hlast := hmarked (i + (n - 1)) ((mem_pages h).mpr
    ⟨b, hb, hbusy, by omega, by rw [Block.limit]; omega⟩)
  rw [Block.limit]
  omega

theorem le_highMark_of_notes (hnotes : Notes (some (m', mem)) m rbytes) :
    m.highMark.toNat ≤ m'.highMark.toNat ∧
      (mem ≠ 0#64 → (mem + rbytes).toNat ≤ m'.highMark.toNat) := by
  have hmark := hnotes _ rfl
  rw [hmark]
  split
  next hraise =>
    exact ⟨Nat.le_of_lt (BitVec.lt_def.mp hraise.2), fun _ => Nat.le_refl _⟩
  next hkeep =>
    refine ⟨Nat.le_refl _, fun hne => Nat.not_lt.mp fun hlt => ?_⟩
    exact hkeep ⟨hne, BitVec.lt_def.mpr hlt⟩

theorem Marked.note (h' : Holds r m' L' pool') (hmarked : Marked m)
    (hnotes : Notes (some (m', mem)) m (mmapRoundUp bytes)) (hmem : mem ≠ 0#64)
    (hq : mem.toNat = 4096 * q) (hn : 0 < numPages bytes)
    (hunion : pages m' = pages m ∪ pageRun q (numPages bytes)) : Marked m' := by
  obtain ⟨hkeep, hraise⟩ := le_highMark_of_notes hnotes
  have hmem' : q + (numPages bytes - 1) ∈ pages m' := by
    rw [hunion]
    exact .inr (mem_pageRun.mpr (by omega))
  have hlast := (pages_bounds h' hmem').2
  have hlt : r.limit < 2 ^ 64 := r.lt
  have hend : (mem + mmapRoundUp bytes).toNat = 4096 * q + 4096 * numPages bytes := by
    rw [BitVec.toNat_add, toNat_mmapRoundUp_of_lt (by omega), hq, mod_eq_of_lt (by omega)]
  have hraise := hraise hmem
  intro p hp
  rw [hunion, mem_union, mem_pageRun] at hp
  rcases hp with hp | hp
  · exact Nat.le_trans (hmarked p hp) hkeep
  · omega

theorem marked_of_highEnd (h : Holds r m L pool) (hmark : m.highMark.toNat = highEnd r.start L) :
    Marked m := by
  intro p hp
  obtain ⟨b, hb, hbusy, -, hlimit⟩ := (mem_pages h).mp hp
  have hfits := fits_of_tiles h.tiles b hb
  have hdvd : 4096 ∣ b.limit := Nat.dvd_add hfits.dvd_base hfits.dvd_size
  have hlt : b.limit - 1 < highEnd r.start L :=
    lt_highEnd.mpr (.inr ⟨b, hb, hbusy, by omega⟩)
  omega

theorem call_marked (h : Holds r m L pool) (hmarked : Marked m) (hproper : Proper m c) :
    ∃ m' mem L' pool', m.call seg c = some (m', mem) ∧ Holds r m' L' pool' ∧ Marked m' := by
  obtain ⟨m', mem, L', pool', hcall, h', hstep, haccounts⟩ := call_effect seg h hproper
  refine ⟨m', mem, L', pool', hcall, h', ?_⟩
  have hsame : ∀ {rbytes}, Notes (some (m', mem)) m rbytes → pages m' = pages m → Marked m' :=
    fun hnotes hpages p hp => Nat.le_trans (hmarked p (hpages ▸ hp)) (le_highMark_of_notes hnotes).1
  cases c with
  | malloc g bytes =>
    obtain ⟨-, hnotes⟩ := haccounts
    rcases eq_or_ne mem 0#64 with hzero | hne
    · exact hsame hnotes (hstep.1 hzero)
    · obtain ⟨q, hq, hleast, hunion⟩ := hstep.2 hne
      rcases Nat.eq_zero_or_pos (numPages bytes) with hnone | hpos
      · refine hsame hnotes ?_
        rw [hunion, hnone, pageRun, Nat.add_zero, Ico_self, union_empty]
      · exact hmarked.note h' hnotes hne hq hpos hunion
  | mallocAddr bytes addr =>
    obtain ⟨⟨spent, -, hspent⟩, hmark⟩ := haccounts
    obtain ⟨hbytes, ⟨q, hq⟩⟩ := letThrough_mallocAddr hproper.1
    cases hin : m.inRegion bytes addr with
    | false =>
      rw [hin] at hmark
      exact hmark ▸ hmarked
    | true =>
      rw [hin] at hmark
      rcases hspent with ⟨hpages, -⟩ | ⟨rfl, -, hunion, -⟩
      · exact hsame hmark hpages
      · have hstart := ((inRegion_iff bytes mem h).mp hin).1
        have hpos := r.pos_start
        rw [named, hq, Nat.mul_div_cancel_left q (by omega)] at hunion
        refine hmarked.note h' hmark ?_ hq (numPages_pos hbytes) hunion
        rintro rfl
        simp only [BitVec.toNat_ofNat] at hstart
        omega
  | free addr len =>
    obtain ⟨-, -, hmark⟩ := haccounts
    exact marked_of_highEnd h' (chunkBlocks_eq h' ▸ hmark)

/-- In every run of proper calls no busy chunk ends above the high mark, and a free sets
the mark to the end of the highest busy chunk. -/
theorem highMark_follows (r : Region) (seg : DynSegment) (cs : List Call)
    (hmeets : RunMeets (step seg) Proper r.init cs) :
    ∃ m, run (step seg) r.init cs = some m ∧
      (∀ b ∈ chunkBlocks m.chunks, b.free = false → b.limit ≤ m.highMark.toNat) ∧
      ∀ addr len, Proper m (.free addr len) → ∃ m', m.free addr len = some m' ∧
        m'.highMark.toNat = highEnd r.start (chunkBlocks m'.chunks) := by
  obtain ⟨i, pool, -, hinit⟩ := init_holds r
  obtain ⟨m, hrun, L', pool', h, hmarked⟩ := exists_run_of_runMeets
    (P := fun m => ∃ L pool, Holds r m L pool ∧ Marked m)
    (by
      rintro m c ⟨L, pool, h, hmarked⟩ hproper
      obtain ⟨m', mem, L', pool', hcall, h', hmarked'⟩ := call_marked seg h hmarked hproper
      exact ⟨m', congrArg (Option.map Prod.fst) hcall, L', pool', h', hmarked'⟩)
    ⟨_, pool, hinit, by intro p hp; rw [pages_init] at hp; exact absurd hp (notMem_empty p)⟩
    hmeets
  refine ⟨m, hrun, ?_, ?_⟩
  · intro b hb hbusy
    exact limit_le_highMark h hmarked (chunkBlocks_eq h ▸ hb) hbusy
  · intro addr len hproper
    obtain ⟨m', mem, -, -, hcall, -, -, -, -, hmark⟩ := call_effect seg h hproper
    obtain ⟨m'', hfree, hm''⟩ := map_eq_some_iff.mp hcall
    obtain rfl := congrArg Prod.fst hm''
    exact ⟨m'', hfree, hmark⟩

theorem highMark_follows_hole : ∃ m, run (step noSegment) oneMegabyte.init
    [.malloc noGuard 8192#64, .free 0x100000#64 4096#64] = some m ∧
      ∀ b ∈ chunkBlocks m.chunks, b.free = false → b.limit ≤ m.highMark.toNat := by
  refine (highMark_follows oneMegabyte noSegment _ ?_).imp fun m hm => ⟨hm.1, hm.2.1⟩
  refine ⟨show 4096 * numPages 8192#64 < 2 ^ 64 by decide, fun t ht => ?_⟩
  obtain ⟨x, hcall, rfl⟩ := map_eq_some_iff.mp ht
  exact ⟨proper_free_page x hcall, fun _ _ => trivial⟩

/-- The length of the request wraps: the chunk is busy to its end, and the mark is below
the start of the request. -/
theorem not_forall_highMark : ¬ ∀ (r : Region) (seg : DynSegment) (cs : List Call) m,
    RunMeets (step seg) FreesAllocated r.init cs →
    run (step seg) r.init cs = some m →
    ∀ b ∈ chunkBlocks m.chunks, b.free = false → b.limit ≤ m.highMark.toNat := by
  intro hall
  have hmark : (run (step noSegment) oneMegabyte.init
      [.mallocAddr 0xFFFFFFFFFFFFE000#64 0x104000#64]).map (fun m =>
        decide (∀ b ∈ chunkBlocks m.chunks, b.free = false → b.limit ≤ m.highMark.toNat)) =
      some false := by
    decide +kernel
  obtain ⟨m, hrun, hm⟩ := map_eq_some_iff.mp hmark
  refine of_decide_eq_false hm (hall oneMegabyte noSegment _ m ?_ hrun)
  exact ⟨trivial, fun _ _ => trivial⟩

end HighMark

section Descriptors

/-- Each descriptor is on one of the two lists, and the pool has the length recorded. -/
def Conserved (m : MmapMgr) : Prop :=
  ∃ ids pool, m.chunks.byAddr.Lists ids ∧ Chain m.chunks.next m.chunks.freeChunkAnchor pool ∧
    (ids ++ pool).Perm (finRange mmapMaxAllocs) ∧ m.chunks.chunksLeft.toNat = pool.length

/-- A fixed allocation behind the start of a free chunk, with one descriptor in the pool -/
def Loses (m : MmapMgr) : Call → Prop
  | .malloc _ _ => False
  | .mallocAddr bytes addr =>
    m.inRegion bytes addr = true ∧ m.chunks.chunksLeft.toNat = 1 ∧
      ∃ b ∈ chunkBlocks m.chunks, b.free = true ∧ b.base < addr.toNat ∧
        Within b (mmapRoundUp bytes) addr
  | .free _ _ => False

theorem conserved_iff (h : Holds r m L pool) :
    Conserved m ↔ L.length + pool.length = mmapMaxAllocs := by
  constructor
  · rintro ⟨ids, pool', hlists, hchain, hperm, -⟩
    obtain rfl := hlists.chain.unique h.represents.lists.chain
    obtain rfl := hchain.unique h.represents.spare
    simpa using hperm.length_eq
  · intro hlength
    refine ⟨L.map Block.id, pool, h.represents.lists, h.represents.spare, ?_, toNat_chunksLeft h⟩
    refine (subperm_of_subset h.represents.nodup fun i _ => mem_finRange i).perm_of_length_le ?_
    simp [hlength]

theorem step_descriptors (h : Holds r m L pool) (hcareful : Careful m c) :
    ∃ m' L' pool', m.step seg c = some m' ∧ Holds r m' L' pool' ∧
      (L'.length + pool'.length = L.length + pool.length ↔ ¬ Loses m c) := by
  cases c with
  | malloc g bytes =>
    obtain ⟨m', mem, L', pool', hsome, h', spent, -, -, huses, -⟩ := malloc_returns g h hcareful
    refine ⟨m', L', pool', congrArg (Option.map Prod.fst) hsome, h', ?_⟩
    simpa [Loses] using huses.length_eq
  | mallocAddr bytes addr =>
    rw [Careful, chunkBlocks_eq h] at hcareful
    obtain ⟨m', mem, L', pool', hsome, h', spent, -, -, -, lost, huses, hlost⟩ :=
      mallocAddr_returns seg h hcareful
    refine ⟨m', L', pool', congrArg (Option.map Prod.fst) hsome, h', ?_⟩
    have hlength := huses.length_eq
    simp only [length_append, length_map] at hlength
    have hone : pool.length = 1 ↔ pool ≠ [] ∧ pool.tail = [] := by
      rcases pool with _ | ⟨i, _ | ⟨j, pool⟩⟩ <;> simp
    have hloses : Loses m (.mallocAddr bytes addr) ↔ lost ≠ [] := by
      rw [Loses, chunkBlocks_eq h, toNat_chunksLeft h, hone, hlost, Strands, and_assoc]
    rw [hloses, not_not, ← length_eq_zero_iff]
    omega
  | free addr len =>
    rw [Careful, chunkBlocks_eq h] at hcareful
    obtain ⟨m', L', pool', hsome, h', huses⟩ := free_holds h hcareful
    refine ⟨m', L', pool', by rw [step, call, hsome]; rfl, h', ?_⟩
    simpa [Loses] using huses.length_eq

/-- In every run of careful calls none of which loses a descriptor the descriptors are
conserved, and a further careful call conserves them exactly when it does not lose one. -/
theorem descriptors_conserved (r : Region) (seg : DynSegment) (cs : List Call)
    (hmeets : RunMeets (step seg) (fun m c => Careful m c ∧ ¬ Loses m c) r.init cs) :
    ∃ m, run (step seg) r.init cs = some m ∧ Conserved m ∧
      ∀ c, Careful m c → ∃ m', m.step seg c = some m' ∧ (Conserved m' ↔ ¬ Loses m c) := by
  obtain ⟨i, pool, hlength, hinit⟩ := init_holds r
  obtain ⟨m, hrun, L, pool', h, hall⟩ := exists_run_of_runMeets
    (P := fun m => ∃ L pool, Holds r m L pool ∧ L.length + pool.length = mmapMaxAllocs)
    (by
      rintro m c ⟨L, pool, h, hall⟩ ⟨hcareful, hkeeps⟩
      obtain ⟨m', L', pool', hstep, h', hlength⟩ := step_descriptors seg h hcareful
      exact ⟨m', hstep, L', pool', h', (hlength.mpr hkeeps).trans hall⟩)
    ⟨_, pool, hinit, by rw [← hlength, length_singleton, Nat.add_comm]⟩ hmeets
  refine ⟨m, hrun, (conserved_iff h).mpr hall, ?_⟩
  intro c hcareful
  obtain ⟨m', L', pool'', hstep, h', hlength⟩ := step_descriptors seg h hcareful
  rw [hall, ← conserved_iff h'] at hlength
  exact ⟨m', hstep, hlength⟩

/-- The second request is for more than the region has. -/
theorem descriptors_conserved_malloc : ∃ m, run (step noSegment) oneMegabyte.init
    ([4096#64, 0x200000#64, 8192#64].map (.malloc noGuard)) = some m ∧ Conserved m := by
  have hround : ∀ bytes ∈ [4096#64, 0x200000#64, 8192#64], mmapRoundUp bytes ≠ 0#64 := by
    simp [mmapRoundUp, pageMask]
  refine (descriptors_conserved oneMegabyte noSegment _ ?_).imp fun m hm => ⟨hm.1, hm.2.1⟩
  exact runMeets_of_forall
    (forall_mem_map.mpr fun bytes hbytes m => ⟨fun _ => hround bytes hbytes, not_false⟩) _

theorem run_step_of_liveStep {s : MmapMgr × List (Set Nat)} {cs : List Call} {live : List (Set Nat)}
    (h : run (liveStep seg) s cs = some (m, live)) : run (step seg) s.1 cs = some m := by
  induction cs generalizing s with
  | nil =>
    cases h
    rfl
  | cons c cs ih =>
    rw [run_cons] at h ⊢
    obtain ⟨t, hstep, hrest⟩ := bind_eq_some_iff.mp h
    obtain ⟨x, hcall, rfl⟩ := map_eq_some_iff.mp hstep
    rw [step, hcall]
    exact ih hrest

def pageAddr : Addr := BitVec.ofNat 64 (4096 * 1350)

theorem exists_lastDescriptor {c : Cursor ChunkId} (h : AfterHoles 547 m c) :
    ∃ m' L' i, m.step noSegment (.free pageAddr 4096#64) = some m' ∧
      Holds eightMegabytes m' L' [i] ∧
      ∃ b ∈ L', b.free = true ∧ b.base ≤ 4096 * 1349 ∧ 4096 * 1351 ≤ b.limit := by
  have hbase : c.here.base = 4096 * 1350 := h.base
  have hlimit := h.limit
  have hsize : 4096 < c.here.size := by
    rw [Block.limit] at hlimit
    omega
  obtain ⟨t, ht⟩ : ∃ t, c.spare = [t] := List.length_eq_one_iff.mp (by have := h.spare; omega)
  have hround : (mmapRoundUp 4096#64).toNat = 4096 := by decide
  have haddr : pageAddr.toNat = c.here.base := by rw [hbase]; decide
  have hrel : Releasable 4096 c.here 4096 c.here.base :=
    ⟨Nat.le_refl _, by omega, by omega, by omega, by omega⟩
  have hcarve : Carvable c.here (mmapRoundUp 4096#64).toNat pageAddr.toNat := by
    rw [hround, haddr]
    exact ⟨hrel, fun hfree => by simp [h.busy] at hfree⟩
  obtain ⟨m', hfree, h', -⟩ := free_release h.holds (by decide) (by decide) hcarve
  have hcovers := (sets_release h.holds.tiles h.holds.alternates fun _ => hrel).1.covers
  rw [hround, haddr] at h'
  have hprev := covers_base_sub h.holds.tiles h.holds.alternates (by omega)
    (by rw [hbase]; decide : eightMegabytes.start < c.here.base)
  rw [h.busy, Bool.not_false, hbase] at hprev
  have hrun : ∀ p ∈ pageRun 1349 2, Covers (c.release 4096 c.here.base).blocks true (4096 * p) := by
    intro p hp
    rw [mem_pageRun] at hp
    rw [hcovers, Released, releaseNeeds, if_pos hsize, if_pos hsize, ht]
    rcases Nat.lt_or_ge p 1350 with hlt | hge
    · obtain rfl : p = 1349 := by omega
      exact .inr ⟨by omega, hprev⟩
    · refine .inl ⟨⟨?_, by omega⟩, rfl⟩
      rw [if_neg (Nat.lt_irrefl _), length_singleton]
      split <;> omega
  obtain ⟨b, hb, hbfree, hbbase, hblimit⟩ := hrun 1349 (mem_pageRun.mpr (by omega))
  have hend := run_le_limit h' hb (hbfree ▸ hrun) hbbase hblimit
  have hspare : (c.release 4096 c.here.base).spare.length = 1 := by
    cases hbefore : c.before with
    | nil =>
      have htiles := (tiles_blocks.mp h.holds.tiles).1
      rw [hbefore, hbase, reverse_nil, Tiles] at htiles
      exact absurd htiles (by decide)
    | cons p before =>
      have hdiffer := (alternates_blocks.mp h.holds.alternates).1
      rw [hbefore, Alternates, isChain_cons_cons] at hdiffer
      exact length_spare_release ht hbefore (by simpa [Differ, h.busy] using hdiffer.1) h.busy hsize
  obtain ⟨i, hi⟩ := List.length_eq_one_iff.mp hspare
  refine ⟨m', _, i, ?_, hi ▸ h', b, hb, hbfree, hbbase, by omega⟩
  rw [step, call, hfree]
  rfl

/-- After the holes one descriptor is left. The next free makes a free chunk of two pages,
and a fixed request for the second page fails and loses the descriptor. -/
theorem not_forall_conserved : ¬ ∀ (r : Region) (seg : DynSegment) (cs : List Call) m,
    run (step seg) r.init cs = some m → Conserved m := by
  intro hall
  obtain ⟨m, live, c, hrun, -, h⟩ := holes_reach (le_refl 547)
  have hrun := run_step_of_liveStep noSegment hrun
  obtain ⟨m1, L1, i, hstep1, h1, b, hb, hbfree, hbbase, hblimit⟩ := exists_lastDescriptor h
  have hround : (mmapRoundUp 4096#64).toNat = 4096 := by decide
  have haddr : pageAddr.toNat = 4096 * 1350 := by decide
  have hend : (pageAddr + mmapRoundUp 4096#64 - 1#64).toNat = 4096 * 1351 - 1 := by decide
  have hcareful : Careful m1 (.mallocAddr 4096#64 pageAddr) := by
    rintro - d hd - ⟨hdbase, hdlimit⟩
    rw [chunkBlocks_eq h1] at hd
    have hfits := fits_of_tiles h1.tiles d hd
    have hdvd' := hfits.dvd_base
    exact ⟨by omega, by omega, by omega, by omega, by omega⟩
  have hloses : Loses m1 (.mallocAddr 4096#64 pageAddr) := by
    refine ⟨(inRegion_iff _ _ h1).mpr (by decide), toNat_chunksLeft h1, b, chunkBlocks_eq h1 ▸ hb,
      hbfree, by omega, by omega, by omega⟩
  obtain ⟨m2, L2, pool2, hstep2, h2, hlength⟩ := step_descriptors noSegment h1 hcareful
  have hrun1 : run (step noSegment) eightMegabytes.init
      (holes 547 ++ [.free pageAddr 4096#64]) = some m1 := by
    rw [run_concat, hrun]
    exact hstep1
  have hrun2 : run (step noSegment) eightMegabytes.init
      ((holes 547 ++ [.free pageAddr 4096#64]) ++ [.mallocAddr 4096#64 pageAddr]) = some m2 := by
    rw [run_concat, hrun1]
    exact hstep2
  have hall1 := (conserved_iff h1).mp (hall _ _ _ m1 hrun1)
  have hall2 := (conserved_iff h2).mp (hall _ _ _ m2 hrun2)
  exact hlength.mp (hall2.trans hall1.symm) hloses

end Descriptors

end BgqDriver.MmapAccounts
