import BgqDriver.MmapRoutines

/-!
What the calls of the allocator do to the blocks of the region.
-/

namespace BgqDriver.MmapCalls

open CoalescingBlocks Mmap Option List
open CoalescingBlocks.Cursor MmapSimulation MmapRoutines MmapMgr

/-- The chunks of the manager are these blocks, which tile the region in alternating
states, and its pool is these descriptors. -/
structure Holds (r : Region) (m : MmapMgr) (L : List (Block ChunkId)) (pool : List ChunkId) :
    Prop where
  represents : Represents m.chunks L pool
  tiles : Tiles 4096 r.start L r.limit
  alternates : Alternates L
  memStart : m.memStart = BitVec.ofNat 64 r.start
  memSize : m.memSize = BitVec.ofNat 64 r.size

/-- The addresses of the range are in this state now, and nothing else has changed. -/
def RangeSet (L L' : List (Block ChunkId)) (a n : Nat) (v : Bool) : Prop :=
  ∀ w x, Covers L' w x ↔
    ((a ≤ x ∧ x < a + n) ∧ w = v) ∨ (¬ (a ≤ x ∧ x < a + n) ∧ Covers L w x)

structure FirstFit (L : List (Block ChunkId)) (n : Nat) (c : Cursor ChunkId) : Prop where
  blocks : c.blocks = L
  free : c.here.free = true
  le_size : n ≤ c.here.size
  before : ∀ d ∈ c.before, d.free = true → d.size < n

def Uses (L : List (Block ChunkId)) (pool ids : List ChunkId) : Prop :=
  (L.map Block.id ++ pool).Perm ids

def Spends (o : Option (MmapMgr × Addr)) (m : MmapMgr) (n : BitVec 64) : Prop :=
  ∀ x ∈ o, x.1.memAvail = m.memAvail - n ∧ x.1.memBusy = m.memBusy + n

def Notes (o : Option (MmapMgr × Addr)) (m : MmapMgr) (rbytes : BitVec 64) : Prop :=
  ∀ x ∈ o, x.1.highMark =
    if x.2 ≠ 0#64 ∧ m.highMark < x.2 + rbytes then x.2 + rbytes else m.highMark

def Returns (r : Region) (o : Option (MmapMgr × Addr))
    (Q : Addr → List (Block ChunkId) → List ChunkId → Prop) : Prop :=
  ∃ m' mem L' pool', o = some (m', mem) ∧ Holds r m' L' pool' ∧ Q mem L' pool'

variable {r : Region} {m : MmapMgr} {k : Chunks} {L : List (Block ChunkId)}
  {pool : List ChunkId} {n : ChunkId} {addr : Addr} {rbytes : BitVec 64}

theorem length_le_of_represents (h : Represents k L pool) :
    (L.map Block.id ++ pool).length ≤ mmapMaxAllocs := by
  simpa using h.nodup.length_le_card

theorem search_cases (h : Represents k L pool) (has : ChunkId → Bool) :
    (k.search has = some none ∧ ∀ b ∈ L, has b.id = false) ∨
      ∃ c : Cursor ChunkId, c.blocks = L ∧ c.spare = pool ∧
        k.search has = some (some c.here.id) ∧ has c.here.id = true ∧
        ∀ d ∈ c.before, has d.id = false := by
  have hfuel : (L.map Block.id).length < walkFuel := by
    have hlength := length_le_of_represents h
    simp only [length_append, mmapMaxAllocs, walkFuel] at hlength ⊢
    omega
  have hsearch : k.search has = some ((L.find? (has ∘ Block.id)).map Block.id) := by
    rw [Chunks.search, h.lists.chain.firstFrom_eq has hfuel, find?_map]
  cases hfind : L.find? (has ∘ Block.id) with
  | none =>
    rw [hfind] at hsearch
    exact .inl ⟨hsearch, fun b hb => by simpa using find?_eq_none.mp hfind b hb⟩
  | some b =>
    obtain ⟨hb, l, l', rfl, hl⟩ := List.find?_eq_some_iff_append.mp hfind
    rw [hfind] at hsearch
    refine .inr ⟨⟨l.reverse, b, l', pool⟩, by simp [Cursor.blocks], rfl, hsearch, hb, ?_⟩
    intro d hd
    simpa using hl d (mem_reverse.mp hd)

theorem uses_refuse (n : ChunkId) (L : List (Block ChunkId)) (pool : List ChunkId) :
    Uses L (n :: pool) (n :: (L.map Block.id ++ pool)) := perm_middle

theorem spends_zero {m' : MmapMgr} {mem : Addr} (havail : m'.memAvail = m.memAvail)
    (hbusy : m'.memBusy = m.memBusy) : Spends (some (m', mem)) m 0#64 := by
  rintro x ⟨⟩
  simp [havail, hbusy]

theorem notes_zero : Notes (some (m, 0#64)) m rbytes := by
  rintro x ⟨⟩
  simp

theorem size_carve {ch : ChunkId} (h : rbytes ≤ k.size ch) :
    (k.carve ch n rbytes).size ch = rbytes := by
  rw [Chunks.carve]
  split
  · simp [Chunks.setAddr, Chunks.setSize, Chunks.enQByAddrAfter]
  next hnot =>
    exact BitVec.le_antisymm (BitVec.not_lt.mp hnot) h

theorem refuse_holds (h : Holds r m L pool) (hn : n ∉ L.map Block.id ++ pool) :
    Holds r (m.refuse n).1 L (n :: pool) :=
  ⟨represents_push h.represents hn, h.tiles, h.alternates, h.memStart, h.memSize⟩

variable {c : Cursor ChunkId}

theorem allocate_holds {c0 : Cursor ChunkId} {v : Bool} (h : Holds r m c0.blocks pool)
    (hat : At k (c.mark v)) (hrefits : Refits 4096 r.start r.limit c0 c)
    (hbefore : Alternates c.before) (hafter : Alternates (c.here :: c.after))
    (hfree : c.here.free = true) (hn : n ∉ c.descriptors) (hpos : 0 < rbytes.toNat)
    (hlen : rbytes.toNat ≤ c.here.size) (hdvd : 4096 ∣ rbytes.toNat) :
    ∃ L' pool', Holds r (allocate { m with chunks := k } c.here.id n rbytes).1 L' pool' ∧
      (allocate { m with chunks := k } c.here.id n rbytes).2 =
        BitVec.ofNat 64 c.here.base ∧
      RangeSet c0.blocks L' c.here.base rbytes.toNat false ∧
      Uses L' pool' (n :: c0.descriptors) ∧
      ∀ mem, Spends (some ((allocate { m with chunks := k } c.here.id n rbytes).1, mem)) m
        rbytes := by
  obtain ⟨hat', hmem⟩ := allocate_at (m := { m with chunks := k }) hat hrefits.tiles hafter
    hbefore hfree hn hpos hlen hdvd
  have hsets := (hrefits.cons_spare n).sets_take hbefore hafter (cons_ne_nil _ _) hpos hlen
    hdvd
  have hsize : rbytes ≤ k.size c.here.id := by
    have hfits := fits_of_tiles (tiles_mark hrefits.tiles v) _ (here_mem (c.mark v))
    exact hlen.trans (toNat_size hat (here_mem _) hfits).ge
  refine ⟨_, _, ⟨hat', hsets.tiles, hsets.alternates, h.memStart, h.memSize⟩, hmem, hsets.covers,
    hsets.perm.trans perm_middle, ?_⟩
  rintro mem x ⟨⟩
  simp only [allocate, size_carve hsize, and_self]

theorem mgrMalloc_returns (g : Guard) (h : Holds r m L pool) (hn : n ∉ L.map Block.id ++ pool)
    (hpos : 0 < rbytes.toNat) (hdvd : 4096 ∣ rbytes.toNat) :
    Returns r (m.mgrMalloc g rbytes n) fun mem L' pool' =>
      ∃ spent, Spends (m.mgrMalloc g rbytes n) m spent ∧
        Uses L' pool' (n :: (L.map Block.id ++ pool)) ∧ ((mem = 0#64 ∧ L' = L ∧ spent = 0#64) ∨
          ∃ c, FirstFit L rbytes.toNat c ∧ mem = BitVec.ofNat 64 c.here.base ∧
            RangeSet L L' c.here.base rbytes.toNat false ∧ spent = rbytes) := by
  have hfits := fits_of_tiles h.tiles
  rw [mgrMalloc]
  rcases search_cases h.represents (m.chunks.isRoomy rbytes) with
    ⟨hnone, -⟩ | ⟨c, rfl, rfl, hsome, hc, hbefore⟩
  · rw [hnone]
    exact ⟨_, _, L, n :: pool, rfl, refuse_holds h hn, _, spends_zero rfl rfl, uses_refuse n L pool,
      .inl ⟨rfl, rfl, rfl⟩⟩
  · simp only [hsome, map_some]
    cases g.conflicts (m.chunks.addr c.here.id) rbytes with
    | true =>
      exact ⟨_, _, _, _, rfl, refuse_holds h hn, _, spends_zero rfl rfl, uses_refuse n _ _,
        .inl ⟨rfl, rfl, rfl⟩⟩
    | false =>
      obtain ⟨hback, hafter⟩ := alternates_blocks.mp h.alternates
      rw [isRoomy_iff h.represents (here_mem c) (hfits _ (here_mem c))] at hc
      have hat : At m.chunks (c.mark true) := (mark_eq_self hc.1).symm ▸ h.represents
      obtain ⟨L', pool', hholds, hmem, hset, huses, hspends⟩ := allocate_holds h hat
        (Refits.refl h.tiles) (alternates_tail hback) hafter hc.1 hn hpos hc.2 hdvd
      refine ⟨_, _, L', pool', rfl, hholds, rbytes, hspends _, huses,
        .inr ⟨c, ⟨rfl, hc.1, hc.2, ?_⟩, hmem, hset, rfl⟩⟩
      intro d hd hfree
      have hmem : d ∈ c.blocks := by simp [Cursor.blocks, hd]
      by_contra hle
      have hroomy := (isRoomy_iff h.represents hmem (hfits d hmem) (n := rbytes)).mpr
        ⟨hfree, by omega⟩
      simp [hbefore d hd] at hroomy

theorem claim_holds (h : Holds r m c.blocks c.spare) (hn : n ∉ c.descriptors) :
    ∃ L' pool', Holds r (m.claim c.here.id n) L' pool' ∧
      RangeSet c.blocks L' c.here.base c.here.size false ∧ Uses L' pool' (n :: c.descriptors) := by
  obtain ⟨hback, hafter⟩ := alternates_blocks.mp h.alternates
  have hcleared := clear_at h.represents (fits_of_tiles h.tiles _ (here_mem c))
  have hids : (c.mark false).blocks.map Block.id = c.blocks.map Block.id := by
    simp [Cursor.blocks, Cursor.mark]
  have hpushed : At _ (Cursor.mark { c with spare := n :: c.spare } false) :=
    represents_push hcleared (hids.symm ▸ hn)
  have hcombine := combineNeighbors_at hpushed (tiles_mark h.tiles false)
  have hsets := ((Refits.refl h.tiles).cons_spare n).sets_mark (v := false)
    (alternates_tail hback) (alternates_tail hafter) fun x => Iff.rfl
  exact ⟨_, _, ⟨hcombine.1, hsets.tiles, hsets.alternates, h.memStart, h.memSize⟩, hsets.covers,
    hsets.perm.trans perm_middle⟩

/-- The range is inside the block as the code compares them, with `rlimit` wrapping. -/
def Within (b : Block ChunkId) (rbytes : BitVec 64) (addr : Addr) : Prop :=
  b.base ≤ addr.toNat ∧ (addr + rbytes - 1#64).toNat < b.limit

/-- A fixed allocation has to leave free memory in front of it, and the pool has no
descriptor for it. -/
def Strands (L : List (Block ChunkId)) (rest : List ChunkId) (rbytes : BitVec 64) (addr : Addr) :
    Prop :=
  rest = [] ∧ ∃ b ∈ L, b.free = true ∧ b.base < addr.toNat ∧ Within b rbytes addr

def FixedDone (L L' : List (Block ChunkId)) (rbytes : BitVec 64) (addr : Addr) : Prop :=
  ∃ b ∈ L, (L' = L ∧ b.free = false ∧ Within b rbytes addr) ∨
    (Releasable 4096 b rbytes.toNat addr.toNat ∧ RangeSet L L' addr.toNat rbytes.toNat false)

/-- What a fixed allocation accounts for. One that is the whole of a free block is not
accounted for. -/
def FixedSpent (L : List (Block ChunkId)) (rbytes : BitVec 64) (addr : Addr)
    (spent : BitVec 64) : Prop :=
  ∃ b ∈ L, Within b rbytes addr ∧
    ((spent = if b.free then rbytes else 0#64) ∨
      (b.base = addr.toNat ∧ b.size = rbytes.toNat ∧ spent = 0#64))

theorem fixedFront_rel (addr : Addr) (h : At k c) (hfits : Fits c.here)
    (hlt : addr.toNat < c.here.limit) : Option.Rel (fun k' c' => ∃ v, At k' (Cursor.mark c' v))
      (if k.cbase c.here.id < addr then k.fixedFront c.here.id addr else some k)
      (if c.here.base < addr.toNat then c.splitFront addr.toNat else some c) := by
  have hcond : k.cbase c.here.id < addr ↔ c.here.base < addr.toNat := by
    rw [BitVec.lt_def, toNat_cbase h (here_mem c) hfits]
  rcases Nat.lt_or_ge c.here.base addr.toNat with hbase | hbase
  · rw [if_pos hbase, if_pos (hcond.mpr hbase)]
    have hrel := fixedFront_at h hfits hbase hlt
    generalize k.fixedFront c.here.id addr = front, c.splitFront addr.toNat = cut at hrel ⊢
    cases hrel with
    | none => exact Rel.none
    | some hat => exact Rel.some ⟨false, hat⟩
  · have hnot : ¬ c.here.base < addr.toNat := by omega
    rw [if_neg hnot, if_neg (hcond.not.mpr hnot)]
    exact Rel.some ⟨c.here.free, h⟩

theorem mallocInside_holds (h : Holds r m c.blocks c.spare) (hn : n ∉ c.descriptors)
    (hwithin : Within c.here rbytes addr)
    (hsafe : c.here.free = true → Releasable 4096 c.here rbytes.toNat addr.toNat) :
    ∃ L' pool' spent, Holds r (m.mallocInside c.here.id n rbytes addr).1 L' pool' ∧
      Spends (some (m.mallocInside c.here.id n rbytes addr)) m spent ∧
      (((m.mallocInside c.here.id n rbytes addr).2 = 0#64 ∧ L' = c.blocks ∧ spent = 0#64) ∨
        ((m.mallocInside c.here.id n rbytes addr).2 = addr ∧
          FixedDone c.blocks L' rbytes addr ∧ spent = if c.here.free then rbytes else 0#64)) ∧
      ∃ lost, Uses L' (lost ++ pool') (n :: c.descriptors) ∧
        (lost ≠ [] ↔ c.spare = [] ∧ c.here.free = true ∧ c.here.base < addr.toNat) := by
  have hfits := fits_of_tiles h.tiles _ (here_mem c)
  rw [mallocInside, isFree_eq h.represents (here_mem c) hfits]
  cases hfree : c.here.free with
  | false =>
    exact ⟨_, _, _, refuse_holds h hn, spends_zero rfl rfl,
      .inr ⟨rfl, ⟨c.here, here_mem c, .inl ⟨rfl, hfree, hwithin⟩⟩, rfl⟩, [],
      uses_refuse n _ _, by simp⟩
  | true =>
    have hrel := hsafe hfree
    obtain ⟨hle, hlimit, hpos, hdvd, hdvd'⟩ := hrel
    have hfront := fixedFront_rel addr h.represents hfits (by omega)
    rcases refits_front h.tiles h.alternates hle (by omega) hdvd' with
      ⟨hnone, hspare, hlt⟩ |
        ⟨c1, hsome, hrefits, hbefore, hafter, hbase1, hlimit1, hid, hfree1, hlength⟩
    · rw [hnone] at hfront
      generalize (if m.chunks.cbase c.here.id < addr then m.chunks.fixedFront c.here.id addr
        else some m.chunks) = front at hfront ⊢
      cases hfront
      exact ⟨_, _, _, h, spends_zero rfl rfl, .inl ⟨rfl, rfl, rfl⟩, [n], uses_refuse n _ _,
        by simp [hspare, hlt]⟩
    · rw [hsome] at hfront
      generalize (if m.chunks.cbase c.here.id < addr then m.chunks.fixedFront c.here.id addr
        else some m.chunks) = front at hfront ⊢
      cases hfront with | some hfront => ?_
      obtain ⟨v, hat⟩ := hfront
      have hlen : rbytes.toNat ≤ c1.here.size := by
        rw [← hlimit1, Block.limit, hbase1] at hlimit
        omega
      obtain ⟨L', pool', hholds, -, hset, huses, hspends⟩ := allocate_holds h hat hrefits hbefore
        hafter (hfree1.trans hfree) (hrefits.perm.mem_iff.not.mpr hn) hpos hlen hdvd
      rw [hid] at hholds hspends
      rw [hbase1] at hset
      refine ⟨L', pool', rbytes, hholds, hspends _,
        .inr ⟨rfl, ⟨c.here, here_mem c, .inr ⟨hsafe hfree, hset⟩⟩, rfl⟩, [], huses,
        iff_of_false (fun hne => hne rfl) ?_⟩
      rintro ⟨hspare, -, hlt⟩
      rw [hspare, if_pos hlt] at hlength
      exact absurd hlength (Nat.succ_ne_zero _)

theorem mgrMallocAddr_returns (h : Holds r m L pool) (hn : n ∉ L.map Block.id ++ pool)
    (hdvd : 4096 ∣ rbytes.toNat) (hsafe : ∀ b ∈ L, b.free = true → Within b rbytes addr →
      Releasable 4096 b rbytes.toNat addr.toNat) :
    Returns r (m.mgrMallocAddr rbytes n addr) fun mem L' pool' =>
      ∃ spent, Spends (m.mgrMallocAddr rbytes n addr) m spent ∧
        ((mem = 0#64 ∧ L' = L ∧ spent = 0#64) ∨
          (mem = addr ∧ FixedDone L L' rbytes addr ∧ FixedSpent L rbytes addr spent)) ∧
        ∃ lost, Uses L' (lost ++ pool') (n :: (L.map Block.id ++ pool)) ∧
          (lost ≠ [] ↔ Strands L pool rbytes addr) := by
  have hfits := fits_of_tiles h.tiles
  -- A stranded request is in one free block, and so is every block that contains it.
  have hstrands : ∀ {b d}, b ∈ L → d ∈ L → b.free = true → Within b rbytes addr →
      d.base ≤ addr.toNat → (addr + rbytes - 1#64).toNat < d.limit → b = d := by
    intro b d hb hd hfree hwithin hbase hlimit
    have hrel := hsafe b hb hfree hwithin
    have hpos := hrel.pos
    have hle := hrel.le_limit
    have hfit := (hfits b hb).limit_le
    have hrlimit : (addr + rbytes - 1#64).toNat = addr.toNat + rbytes.toNat - 1 := by
      bv_omega
    exact h.tiles.eq_of_mem hb hd ⟨hwithin.1, by omega⟩ ⟨hbase, by omega⟩
  rw [mgrMallocAddr]
  rcases search_cases h.represents (m.chunks.isRange addr (addr + rbytes - 1#64)) with
    ⟨hnone, -⟩ | ⟨c, rfl, rfl, hsome, hc, -⟩
  · simp only [hnone, bind_some]
    rcases search_cases h.represents (m.chunks.hasRange addr (addr + rbytes - 1#64)) with
      ⟨hnone, hmiss⟩ | ⟨c, rfl, rfl, hsome, hc, -⟩
    · rw [hnone]
      refine ⟨_, _, L, n :: pool, rfl, refuse_holds h hn, _, spends_zero rfl rfl,
        .inl ⟨rfl, rfl, rfl⟩, [], uses_refuse n L pool, iff_of_false (fun hne => hne rfl) ?_⟩
      rintro ⟨-, b, hb, -, -, hwithin⟩
      have hhit := (hasRange_iff h.represents hb (hfits b hb)).mpr hwithin
      rw [hmiss b hb] at hhit
      cases hhit
    · rw [hasRange_iff h.represents (here_mem c) (hfits _ (here_mem c))] at hc
      rw [hsome]
      obtain ⟨L', pool', spent, hholds, hspends, hQ, lost, huses, hlost⟩ :=
        mallocInside_holds h hn hc fun hfree => hsafe _ (here_mem c) hfree hc
      refine ⟨_, _, L', pool', rfl, hholds, spent, hspends, hQ.imp_right fun hdone =>
        ⟨hdone.1, hdone.2.1, c.here, here_mem c, hc, .inl hdone.2.2⟩, lost, huses, hlost.trans ?_⟩
      refine and_congr_right fun _ => ⟨fun hhere => ⟨c.here, here_mem c, hhere.1, hhere.2, hc⟩, ?_⟩
      rintro ⟨b, hb, hfree, hlt, hwithin⟩
      obtain rfl := hstrands hb (here_mem c) hfree hwithin hc.1 hc.2
      exact ⟨hfree, hlt⟩
  · obtain ⟨hbase, hlimit⟩ := (isRange_iff h.represents (here_mem c) (hfits _ (here_mem c))).mp hc
    obtain ⟨L', pool', hholds, hset, huses⟩ := claim_holds h hn
    have hfit := hfits _ (here_mem c)
    have hsize : c.here.size = rbytes.toNat := by
      have hle := hfit.limit_le
      rw [Block.limit] at hlimit hle
      rw [BitVec.toNat_sub, BitVec.toNat_add] at hlimit
      simp only [BitVec.toNat_ofNat] at hlimit
      omega
    rw [hsize, hbase] at hset
    simp only [hsome, bind_some]
    refine ⟨_, _, L', pool', rfl, hholds, _, spends_zero rfl rfl,
      .inr ⟨rfl, ⟨c.here, here_mem c, .inr ⟨?_, hset⟩⟩,
        c.here, here_mem c, ⟨hbase.le, by omega⟩, .inr ⟨hbase, hsize, rfl⟩⟩,
      [], huses, iff_of_false (fun hne => hne rfl) ?_⟩
    · refine ⟨Nat.le_of_eq hbase, ?_, hsize ▸ hfit.pos, hdvd, ?_⟩
      · rw [Block.limit, hbase, hsize]
      · rw [hbase, Nat.sub_self]
        exact Nat.dvd_zero _
    · rintro ⟨-, b, hb, hfree, hlt, hwithin⟩
      obtain rfl := hstrands hb (here_mem c) hfree hwithin hbase.le (by omega)
      omega

theorem withFreeChunk_returns {alloc : MmapMgr → ChunkId → Option (MmapMgr × Addr)}
    {Q : Addr → List (Block ChunkId) → List ChunkId → BitVec 64 → Prop} (h : Holds r m L pool)
    (hnone : pool = [] → Q 0#64 L pool 0#64)
    (hmark : ∀ m' n, ∀ x ∈ alloc m' n, x.1.highMark = m'.highMark)
    (halloc : ∀ k n rest, pool = n :: rest → Holds r { m with chunks := k } L rest →
      n ∉ L.map Block.id ++ rest → Returns r (alloc { m with chunks := k } n) fun mem L' pool' =>
        ∃ spent, Spends (alloc { m with chunks := k } n) m spent ∧ Q mem L' pool' spent) :
    Returns r (m.withFreeChunk rbytes alloc) fun mem L' pool' =>
      ∃ spent, Spends (m.withFreeChunk rbytes alloc) m spent ∧
        Notes (m.withFreeChunk rbytes alloc) m rbytes ∧ Q mem L' pool' spent := by
  rw [withFreeChunk]
  cases pool with
  | nil =>
    rw [popFreeChunk_nil h.represents]
    exact ⟨m, 0#64, L, [], rfl, h, 0#64, spends_zero rfl rfl, notes_zero, hnone rfl⟩
  | cons n rest =>
    obtain ⟨k, hpop, hrep, hn⟩ := popFreeChunk_cons h.represents
    obtain ⟨m', mem, L', pool', hsome, hholds, spent, hspends, hQ⟩ :=
      halloc k n rest rfl ⟨hrep, h.tiles, h.alternates, h.memStart, h.memSize⟩ hn
    have hsame := hmark _ n _ hsome
    rw [hsome] at hspends
    obtain ⟨havail, hbusy⟩ := hspends (m', mem) rfl
    simp only at hsame havail hbusy
    simp only [hpop, hsome, map_some]
    refine ⟨_, mem, L', pool', rfl, ?_, spent, ?_, ?_, hQ⟩
    · rw [noteHighMark]
      split
      · exact ⟨hholds.represents, hholds.tiles, hholds.alternates, hholds.memStart,
          hholds.memSize⟩
      · exact hholds
    · rintro x ⟨⟩
      rw [noteHighMark]
      split <;> exact ⟨havail, hbusy⟩
    · rintro x ⟨⟩
      simp only [noteHighMark, hsame]
      split
      · rfl
      · exact hsame

theorem mgrMalloc_highMark (g : Guard) : ∀ x ∈ m.mgrMalloc g rbytes n,
    x.1.highMark = m.highMark := by
  intro x hx
  obtain ⟨_ | ch, -, rfl⟩ := map_eq_some_iff.mp hx
  · rfl
  · simp only
    split <;> rfl

theorem mgrMallocAddr_highMark :
    ∀ x ∈ m.mgrMallocAddr rbytes n addr, x.1.highMark = m.highMark := by
  intro x hx
  obtain ⟨_ | ch, -, hfound⟩ := Option.bind_eq_some_iff.mp hx
  · obtain ⟨_ | ch, -, rfl⟩ := map_eq_some_iff.mp hfound
    · rfl
    · simp only [mallocInside]
      split
      · split <;> rfl
      · rfl
  · cases hfound
    rfl

variable {bytes : BitVec 64}

theorem malloc_returns (g : Guard) (h : Holds r m L pool)
    (hbytes : bytes ≠ 0#64 → mmapRoundUp bytes ≠ 0#64) :
    Returns r (m.malloc g bytes) fun mem L' pool' =>
      ∃ spent, Spends (m.malloc g bytes) m spent ∧ Notes (m.malloc g bytes) m (mmapRoundUp bytes) ∧
        Uses L' pool' (L.map Block.id ++ pool) ∧ ((mem = 0#64 ∧ L' = L ∧ spent = 0#64) ∨
          (0 < (mmapRoundUp bytes).toNat ∧
            ∃ c, FirstFit L (mmapRoundUp bytes).toNat c ∧ mem = BitVec.ofNat 64 c.here.base ∧
              RangeSet L L' c.here.base (mmapRoundUp bytes).toNat false ∧
              spent = mmapRoundUp bytes)) := by
  rw [malloc]
  split
  next hpos =>
    have hne : mmapRoundUp bytes ≠ 0#64 := hbytes (by rintro rfl; simp at hpos)
    have hround : 0 < (mmapRoundUp bytes).toNat :=
      Nat.pos_of_ne_zero fun hzero => hne (BitVec.eq_of_toNat_eq hzero)
    apply withFreeChunk_returns h
    · exact fun _ => ⟨Perm.refl _, .inl ⟨rfl, rfl, rfl⟩⟩
    · exact fun m' n => mgrMalloc_highMark g
    · rintro k n rest rfl hk hn
      obtain ⟨m', mem, L', pool', hsome, hholds, spent, hspends, huses, hQ⟩ :=
        mgrMalloc_returns g hk hn hround (dvd_mmapRoundUp bytes)
      exact ⟨m', mem, L', pool', hsome, hholds, spent, hspends,
        huses.trans (uses_refuse n L rest).symm, hQ.imp_right fun hc => ⟨hround, hc⟩⟩
  · exact ⟨m, 0#64, L, pool, rfl, h, _, spends_zero rfl rfl, notes_zero, Perm.refl _,
      .inl ⟨rfl, rfl, rfl⟩⟩

theorem mallocAddr_returns (seg : DynSegment) (h : Holds r m L pool)
    (hsafe : m.inRegion bytes addr = true → ∀ b ∈ L, b.free = true →
      Within b (mmapRoundUp bytes) addr →
        Releasable 4096 b (mmapRoundUp bytes).toNat addr.toNat) :
    Returns r (m.mallocAddr seg bytes addr) fun mem L' pool' =>
      ∃ spent, Spends (m.mallocAddr seg bytes addr) m spent ∧
        (m.inRegion bytes addr = true → Notes (m.mallocAddr seg bytes addr) m (mmapRoundUp bytes)) ∧
        ((L' = L ∧ spent = 0#64 ∧ (mem = 0#64 ∨ mem = addr ∧ m.inRegion bytes addr = false)) ∨
          (mem = addr ∧ m.inRegion bytes addr = true ∧
            FixedDone L L' (mmapRoundUp bytes) addr ∧
            FixedSpent L (mmapRoundUp bytes) addr spent)) ∧
        ∃ lost, Uses L' (lost ++ pool') (L.map Block.id ++ pool) ∧
          (lost ≠ [] ↔ m.inRegion bytes addr = true ∧ pool ≠ [] ∧
            Strands L pool.tail (mmapRoundUp bytes) addr) := by
  rw [mallocAddr]
  rcases Bool.eq_false_or_eq_true (m.inRegion bytes addr) with hin | hout
  · simp only [hin, if_true, true_implies, true_and, Bool.true_eq_false, and_false, or_false]
    apply withFreeChunk_returns h
    · intro hnil
      exact ⟨.inl ⟨rfl, rfl, rfl⟩, [], Perm.refl _, by simp [hnil]⟩
    · exact fun m' n => mgrMallocAddr_highMark
    · rintro k n rest rfl hk hn
      obtain ⟨m', mem, L', pool', hsome, hholds, spent, hspends, hQ, lost, huses, hlost⟩ :=
        mgrMallocAddr_returns hk hn (dvd_mmapRoundUp bytes) (hsafe hin)
      refine ⟨m', mem, L', pool', hsome, hholds, spent, hspends, hQ.imp_left ?_, lost,
        huses.trans (uses_refuse n L rest).symm, by simpa using hlost⟩
      exact fun ⟨hmem, hL, hspent⟩ => ⟨hL, hspent, hmem⟩
  · simp only [hout, Bool.false_eq_true, if_false, false_implies, true_and, false_and, and_false,
      or_false, and_true]
    split
    · exact ⟨m, addr, L, pool, rfl, h, _, spends_zero rfl rfl, ⟨rfl, rfl, .inr rfl⟩, [],
        Perm.refl _, by simp⟩
    · exact ⟨m, 0#64, L, pool, rfl, h, _, spends_zero rfl rfl, ⟨rfl, rfl, .inl rfl⟩, [],
        Perm.refl _, by simp⟩

end BgqDriver.MmapCalls
