import BgqDriver.MmapSimulation

/-!
What the routines of the allocator do to the blocks of the region.
-/

namespace BgqDriver.MmapRoutines

open Function Option BitVec
open CoalescingBlocks Mmap
open CoalescingBlocks.Cursor MmapSimulation Chunks

variable {r : Region} {k : Chunks} {c : Cursor ChunkId} {rbytes : BitVec 64} {addr : Addr}

theorem here_mem (c : Cursor ChunkId) : c.here ∈ c.blocks := by simp [Cursor.blocks]

theorem setAddr_at (h : At k c) (b : Block ChunkId) (hid : b.id = c.here.id)
    (hsize : b.size = c.here.size) :
    At (k.setAddr c.here.id (word b)) { c with here := b } := by
  have hids : (blocks { c with here := b }).map Block.id = c.blocks.map Block.id := by
    simp [Cursor.blocks, hid]
  have hmem : ∀ x ∈ blocks { c with here := b }, x = b ∨ x ∈ c.blocks ∧ x.id ≠ c.here.id := by
    intro x hx
    have hx' : x = b ∨ x ∈ c.before.reverse ++ c.after := by
      simp only [Cursor.blocks, List.mem_append, List.mem_cons] at hx ⊢
      tauto
    exact hx'.imp_right fun hlm => ⟨mem_of_mem_append hlm, h.id_ne hlm⟩
  refine ⟨hids ▸ h.lists, ?_, ?_, h.spare, hids ▸ h.nodup, h.left⟩
  · intro x hx
    rcases hmem x hx with rfl | ⟨hx, hne⟩
    · rw [hid]
      exact update_self _ _ _
    · exact (update_of_ne hne _ _).trans (h.addr x hx)
  · intro x hx
    rcases hmem x hx with rfl | ⟨hx, -⟩
    · rw [hid, hsize]
      exact h.size c.here (here_mem c)
    · exact h.size x hx

theorem attempt_none (k : Chunks) (p : Prop) [Decidable p] :
    (if p then k.attempt none else (k, false)).1 = k := by
  split <;> rfl

theorem attempt_cases {p p' : Prop} [Decidable p] [Decidable p'] {o : Option Chunks}
    {o' : Option (Cursor ChunkId)} (h : At k c) (hcond : p ↔ p') (hrel : p' → Option.Rel At o o') :
    ((if p' then o' else some c) = none ∧ (if p then k.attempt o else (k, false)) = (k, true)) ∨
      ∃ k1 c1, (if p' then o' else some c) = some c1 ∧
        (if p then k.attempt o else (k, false)) = (k1, false) ∧ At k1 c1 := by
  by_cases hp : p'
  · rw [if_pos hp, if_pos (hcond.mpr hp)]
    cases hrel hp with
    | none => exact .inl ⟨rfl, rfl⟩
    | some h => exact .inr ⟨_, _, rfl, rfl, h⟩
  · rw [if_neg hp, if_neg (hcond.not.mpr hp)]
    exact .inr ⟨k, c, rfl, rfl, h⟩

/-- A range that `freeMemory` can carve out of a chunk. -/
structure Carvable (b : Block ChunkId) (len addr : Nat) : Prop extends
    Releasable 4096 b len addr where
  free_base : b.free = true → addr = b.base

instance (b : Block ChunkId) (len addr : Nat) : Decidable (Carvable b len addr) :=
  decidable_of_iff (Releasable 4096 b len addr ∧ (b.free = true → addr = b.base))
    ⟨fun h => ⟨h.1, h.2⟩, fun h => ⟨h.toReleasable, h.free_base⟩⟩

theorem front_iff (h : At k c) (hfits : Fits c.here)
    (hfree : c.here.free = true → addr.toNat = c.here.base) :
    k.addr c.here.id < addr ↔ c.here.base < addr.toNat := by
  rw [lt_def, toNat_addr h (here_mem c) hfits]
  cases hf : c.here.free with
  | false => simp
  | true =>
    have := hfree hf
    omega

theorem back_iff (h : At k c) (hfits : Fits c.here) (hbase : c.here.base = addr.toNat)
    (hlimit : addr.toNat + rbytes.toNat ≤ c.here.limit)
    (hfree : c.here.free = true → rbytes.toNat < c.here.size) :
    addr + rbytes < k.addr c.here.id + k.size c.here.id ↔
      addr.toNat + rbytes.toNat < c.here.limit := by
  have hfit := hfits.limit_le
  have hle := c.here.free.toNat_le
  rw [Block.limit] at hlimit hfit
  rw [lt_def, toNat_add, toNat_add, toNat_addr h (here_mem c) hfits,
    toNat_size h (here_mem c) hfits, Block.limit, Nat.mod_eq_of_lt (by omega),
    Nat.mod_eq_of_lt (by omega)]
  cases hf : c.here.free with
  | false => simp
  | true =>
    have := hfree hf
    omega

/-- The cursor before its neighbours are combined: the block is the range to be freed,
or `freeError` is set. -/
theorem freeCarve_at (h : At k c) (htiles : Tiles 4096 r.start c.blocks r.limit)
    (halt : Alternates c.blocks)
    (hpart : rbytes.toNat < c.here.size → Carvable c.here rbytes.toNat addr.toNat) :
    ∃ c' failed, (k.freeCarve c.here.id rbytes addr).2 = failed ∧
      At (k.freeCarve c.here.id rbytes addr).1 c' ∧ Tiles 4096 r.start c'.blocks r.limit ∧
      c'.here.id = c.here.id ∧
      c.release rbytes.toNat addr.toNat =
        if failed then c'.combine else (c'.mark true).combine := by
  have hfits := fits_of_tiles htiles
  have hsize := toNat_size h (here_mem c) (hfits _ (here_mem c))
  have hcond : rbytes < k.size c.here.id ↔ rbytes.toNat < c.here.size := by
    rw [lt_def, hsize]
  rw [freeCarve, release]
  rcases Nat.lt_or_ge rbytes.toNat c.here.size with hlt | hge
  · obtain ⟨⟨hbase, hlimit, hpos, hulen, huaddr⟩, hfree⟩ := hpart hlt
    simp only [if_pos hlt, if_pos (hcond.mpr hlt)]
    have hbusy : c.here.base < addr.toNat → c.here.free = false := by
      intro hlt
      by_contra hf
      have := hfree (by simpa using hf)
      omega
    rcases attempt_cases h (front_iff h (hfits _ (here_mem c)) hfree) (fun hlt =>
      freeFront_at h (hfits _ (here_mem c)).limit_lt (hbusy hlt) hlt (by omega)) with
      ⟨hnone, hfront⟩ | ⟨k1, c1, hsome, hfront, h1⟩
    · -- The pool is empty, so an attempt at the other end fails as well.
      have hspare : c.spare = [] := by
        rcases refits_front htiles halt hbase (by omega) huaddr with
          ⟨-, hspare, -⟩ | ⟨c1, hsome, -⟩
        · exact hspare
        · simp [hnone] at hsome
      have hend : k.freeEnd c.here.id rbytes = none := by
        rw [At, hspare] at h
        rw [freeEnd, popFreeChunk_nil h, map_none]
      simp only [hnone, hfront, hend, attempt_none, Bool.true_or]
      exact ⟨c, true, rfl, h, htiles, rfl, rfl⟩
    · rcases refits_front htiles halt hbase (by omega) huaddr with
        ⟨hnone, -⟩ | ⟨c1', hsome', hrefits, hbefore, hafter, hbase1, hlimit1, hid, hfree1, -⟩
      · simp [hnone] at hsome
      obtain rfl : c1 = c1' := some.inj (hsome.symm.trans hsome')
      have hfits1 := fits_of_tiles hrefits.tiles
      have hsize1 : c1.here.free = true → rbytes.toNat < c1.here.size := by
        intro hf
        have hsame := hfree (hfree1 ▸ hf)
        rw [Block.limit, Block.limit] at hlimit1
        omega
      simp only [hsome, hfront, Bool.false_or]
      have hrel : addr.toNat + rbytes.toNat < c1.here.limit →
          Option.Rel At (k1.freeEnd c1.here.id rbytes) (c1.splitBack rbytes.toNat) := fun hlt =>
        freeEnd_at h1 (hfits1 _ (here_mem c1)).limit_lt (by rw [Block.limit] at hlt; omega)
      rcases attempt_cases h1
        (back_iff h1 (hfits1 _ (here_mem c1)) hbase1 (hlimit1 ▸ hlimit) hsize1)
        hrel with ⟨hnone, hback⟩ | ⟨k2, c2, hsome2, hback, h2⟩
      · rw [hid] at hback
        simp only [hnone, hback]
        exact ⟨c1, true, rfl, h1, hrefits.tiles, hid, rfl⟩
      · have hlen1 : rbytes.toNat ≤ c1.here.size := by
          rw [← hlimit1, Block.limit] at hlimit
          omega
        rw [hid] at hback
        simp only [hback, hsome2]
        rw [← hbase1] at hsome2
        rcases refits_back hrefits.tiles hbefore hafter hpos hlen1 hulen with
          ⟨hnone, -⟩ | ⟨c2', hsome2', hrefits2, -, -, -, -, hid2, -⟩
        · simp [hnone] at hsome2
        obtain rfl : c2 = c2' := some.inj (hsome2.symm.trans hsome2')
        exact ⟨c2, false, rfl, h2, hrefits2.tiles, hid2.trans hid, rfl⟩
  · have hnot : ¬ rbytes.toNat < c.here.size := by omega
    simp only [if_neg hnot, if_neg (hcond.not.mpr hnot)]
    exact ⟨c, false, rfl, h, htiles, rfl, rfl⟩

variable {m : MmapMgr} {v : Bool}

theorem freeMemory_at (h : At m.chunks c) (htiles : Tiles 4096 r.start c.blocks r.limit)
    (halt : Alternates c.blocks) (hlen : 4096 ∣ rbytes.toNat)
    (hpart : rbytes.toNat < c.here.size → Carvable c.here rbytes.toNat addr.toNat) :
    At (m.freeMemory c.here.id rbytes addr).1.chunks (c.release rbytes.toNat addr.toNat) ∧
      (m.freeMemory c.here.id rbytes addr).2 = (c.release rbytes.toNat addr.toNat).here.id := by
  obtain ⟨c', failed, hfailed, h', htiles', hid, hrelease⟩ := freeCarve_at h htiles halt hpart
  rw [hrelease, MmapMgr.freeMemory, mmapRoundUp_of_dvd hlen]
  generalize m.chunks.freeCarve c.here.id rbytes addr = carved at hfailed h'
  rcases carved with ⟨k', error⟩
  obtain rfl : error = failed := hfailed
  rw [← hid]
  cases error with
  | true => exact combineNeighbors_at h' htiles'
  | false =>
    have hfits := fits_of_tiles htiles' _ (here_mem c')
    have hmarked := setAddr_at h' { c'.here with free := true } rfl rfl
    rw [← word_or hfits, ← h'.addr _ (here_mem c')] at hmarked
    exact combineNeighbors_at hmarked (tiles_mark htiles' true)

theorem freeMemory_region (m : MmapMgr) (ch : ChunkId) (len : BitVec 64) (addr : Addr) :
    (m.freeMemory ch len addr).1.memStart = m.memStart ∧
      (m.freeMemory ch len addr).1.memSize = m.memSize ∧
      (m.freeMemory ch len addr).1.memAvail = m.memAvail ∧
      (m.freeMemory ch len addr).1.memBusy = m.memBusy := by
  simp only [MmapMgr.freeMemory]
  split <;> exact ⟨rfl, rfl, rfl, rfl⟩

section Allocate

variable {n : ChunkId}

theorem clear_at (h : At k c) (hfits : Fits c.here) :
    At (k.setAddr c.here.id (k.cbase c.here.id)) (c.mark false) := by
  have hword : word { c.here with free := false } = k.cbase c.here.id := by
    rw [cbase, h.addr _ (here_mem c), word_and_not hfits]
    rfl
  rw [← hword]
  exact setAddr_at h { c.here with free := false } rfl rfl

theorem carve_at (h : At k (c.mark v)) (hfits : Fits c.here) (hfree : c.here.free = true)
    (hn : n ∉ c.blocks.map Block.id ++ c.spare) (hpos : 0 < rbytes.toNat)
    (hlen : rbytes.toNat ≤ c.here.size) (hdvd : 4096 ∣ rbytes.toNat) :
    ∃ c1, (if c.here.base + rbytes.toNat < c.here.limit then
        splitBack { c with spare := n :: c.spare } rbytes.toNat
        else some { c with spare := n :: c.spare }) = some c1 ∧
      At (k.carve c.here.id n rbytes) (c1.mark false) ∧ c1.here.id = c.here.id ∧
      c1.here.base = c.here.base := by
  have hids : (c.mark v).blocks.map Block.id = c.blocks.map Block.id := by
    simp [Cursor.blocks, Cursor.mark]
  rw [← hids] at hn
  have hfitsv : Fits (c.mark v).here :=
    ⟨hfits.dvd_base, hfits.dvd_size, hfits.pos, hfits.limit_le⟩
  have hsizev : (k.size c.here.id).toNat = c.here.size :=
    toNat_size (b := (c.mark v).here) h (here_mem (c.mark v)) hfitsv
  have hcond : rbytes < k.size c.here.id ↔ rbytes.toNat < c.here.size := by
    rw [lt_def, hsizev]
  have hlimit := hfits.limit_le
  rw [Block.limit] at hlimit
  rcases Nat.lt_or_ge rbytes.toNat c.here.size with hlt | hge
  · have hlt' : c.here.base + rbytes.toNat < c.here.limit := by
      rw [Block.limit]
      omega
    have haddr : k.addr c.here.id = word (c.mark v).here := h.addr _ (here_mem (c.mark v))
    have hsize : k.size c.here.id = BitVec.ofNat 64 c.here.size :=
      h.size (c.mark v).here (here_mem (c.mark v))
    have hback : word (c.mark v).here + rbytes ||| mmapChunkAddrFree =
        BitVec.ofNat 64 (c.here.base + rbytes.toNat + true.toNat) := by
      have hrest : Fits ⟨n, c.here.base + rbytes.toNat, c.here.size - rbytes.toNat, v⟩ :=
        ⟨Nat.dvd_add hfits.dvd_base hdvd, Nat.dvd_sub hfits.dvd_size hdvd, by simp only; omega,
          by simp only [Block.limit]; omega⟩
      refine Eq.trans ?_ (word_or hrest)
      congr 1
      simp only [word, Cursor.mark]
      bv_omega
    have hcut : BitVec.ofNat 64 c.here.size - rbytes =
        BitVec.ofNat 64 (c.here.size - rbytes.toNat) := by
      bv_omega
    have hsplit := represents_splitBack (v := true) h hn rbytes.toNat rfl
    have hrest : At _ ⟨c.before, { (c.mark v).here with size := rbytes.toNat },
      ⟨n, c.here.base + rbytes.toNat, c.here.size - rbytes.toNat, true⟩ :: c.after, c.spare⟩ :=
      hsplit
    have hclear := clear_at hrest ⟨hfits.dvd_base, hdvd, hpos, by
      simp only [Block.limit, Cursor.mark]
      omega⟩
    rw [if_pos hlt', splitBack_of_spare _ rfl, carve, if_pos (hcond.mpr hlt)]
    refine ⟨_, rfl, ?_, rfl, rfl⟩
    simp only [setAddr, setSize, update_self, haddr, hsize, hback, hcut, update_idem]
    simpa [setAddr, Cursor.mark, hfree] using hclear
  · have hnot : ¬ c.here.base + rbytes.toNat < c.here.limit := by
      rw [Block.limit]
      omega
    rw [if_neg hnot, carve, if_neg (hcond.not.mpr (by omega))]
    have hpushed : At (k.pushFreeChunk n) (Cursor.mark { c with spare := n :: c.spare } v) :=
      represents_push h hn
    exact ⟨_, rfl, clear_at hpushed hfitsv, rfl, rfl⟩

theorem allocate_at (h : At m.chunks (c.mark v)) (htiles : Tiles 4096 r.start c.blocks r.limit)
    (halt : Alternates (c.here :: c.after)) (hbefore : Alternates c.before)
    (hfree : c.here.free = true) (hn : n ∉ c.blocks.map Block.id ++ c.spare)
    (hpos : 0 < rbytes.toNat) (hlen : rbytes.toNat ≤ c.here.size) (hdvd : 4096 ∣ rbytes.toNat) :
    At (m.allocate c.here.id n rbytes).1.chunks
        (take { c with spare := n :: c.spare } rbytes.toNat) ∧
      (m.allocate c.here.id n rbytes).2 = BitVec.ofNat 64 c.here.base := by
  obtain ⟨c1, hsome, h1, hid, hbase⟩ :=
    carve_at h (fits_of_tiles htiles _ (here_mem c)) hfree hn hpos hlen hdvd
  have hblocks : blocks { c with spare := n :: c.spare } = c.blocks := rfl
  rcases refits_back (c := { c with spare := n :: c.spare }) (hblocks ▸ htiles) hbefore halt hpos
      hlen hdvd with ⟨-, hnil, -⟩ | ⟨c1', hsome', hrefits, -⟩
  · cases hnil
  obtain rfl : c1 = c1' := some.inj (hsome.symm.trans hsome')
  rw [take, hsome', MmapMgr.allocate]
  have hcombine := (combineNeighbors_at h1 (tiles_mark hrefits.tiles false)).1
  have hmarked : (c1.mark false).here.id = c.here.id := hid
  rw [hmarked] at hcombine
  refine ⟨hcombine, ?_⟩
  have haddr := h1.addr _ (here_mem (c1.mark false))
  simp only [Cursor.mark, hid] at haddr
  rw [haddr, word, hbase]
  rfl

end Allocate

end BgqDriver.MmapRoutines
