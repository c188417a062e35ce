import BgqDriver.EventRuns
import BgqDriver.MmapFree

/-!
Runs of allocator calls keep the by-address list well formed as long as no call asks
for a length that rounds to nothing, for a range that wraps, or for the free of a part
of a chunk that is not whole pages of busy memory.
-/

namespace BgqDriver.MmapRuns

open EventRuns List BitVec Function
open LinkedChains CoalescingBlocks Mmap
open MmapSimulation MmapRoutines MmapCalls MmapFree

/-- A chunk as the code reads it. -/
def block (k : Chunks) (ch : ChunkId) : Block ChunkId :=
  ⟨ch, (k.cbase ch).toNat, (k.size ch).toNat, k.isFree ch⟩

def chunkBlocks (k : Chunks) : List (Block ChunkId) :=
  (nodes k.byAddr.next mmapMaxAllocs k.byAddr.anchor).map (block k)

/-- The chunks tile the region in whole pages, in address order, and no two neighbours are both free
or both busy. -/
structure WellFormed (m : MmapMgr) (ids : List ChunkId) : Prop where
  linked : m.chunks.byAddr.Lists ids
  increasing : (ids.map m.chunks.cbase).Pairwise (· < ·)
  aligned : ∀ ch ∈ ids, 4096 ∣ (m.chunks.cbase ch).toNat ∧ 0 < (m.chunks.size ch).toNat ∧
    4096 ∣ (m.chunks.size ch).toNat
  tiles : Tiles 4096 m.memStart.toNat (ids.map (block m.chunks))
    (m.memStart.toNat + m.memSize.toNat)
  alternates : Alternates (ids.map (block m.chunks))

/-- The calls that keep the list well formed. A length must not round to zero. A fixed
request inside a free chunk as the code compares them must really be inside it. When a
chunk contains the range of a free and is larger, the range must be whole pages inside
it, and at its start when the chunk is free already. -/
def Careful (m : MmapMgr) : Call → Prop
  | .malloc _ bytes => bytes ≠ 0#64 → mmapRoundUp bytes ≠ 0#64
  | .mallocAddr bytes addr => m.inRegion bytes addr = true →
      ∀ b ∈ chunkBlocks m.chunks, b.free = true → Within b (mmapRoundUp bytes) addr →
        Releasable 4096 b (mmapRoundUp bytes).toNat addr.toNat
  | .free addr len =>
    ∀ b ∈ chunkBlocks m.chunks, b.base ≤ addr.toNat → (addr + len - 1#64).toNat < b.limit →
      (mmapRoundUp len).toNat < b.size → Carvable b (mmapRoundUp len).toNat addr.toNat

instance (b : Block ChunkId) (rbytes : BitVec 64) (addr : Addr) :
    Decidable (Within b rbytes addr) :=
  inferInstanceAs (Decidable (_ ∧ _))

instance (m : MmapMgr) : ∀ c, Decidable (Careful m c)
  | .malloc _ _ => inferInstanceAs (Decidable (_ → _))
  | .mallocAddr _ _ => inferInstanceAs (Decidable (_ → ∀ b ∈ _, _ → _ → _))
  | .free _ _ => inferInstanceAs (Decidable (∀ b ∈ _, _ → _ → _ → _))

variable {r : Region} {m : MmapMgr} {L : List (Block ChunkId)} {pool : List ChunkId}

theorem map_block (h : Holds r m L pool) : (L.map Block.id).map (block m.chunks) = L := by
  have hblock : ∀ b ∈ L, (block m.chunks ∘ Block.id) b = b := by
    intro b hb
    have hfits := fits_of_tiles h.tiles b hb
    simp only [comp, block, toNat_cbase h.represents hb hfits,
      toNat_size h.represents hb hfits, isFree_eq h.represents hb hfits]
  rw [map_map, map_congr_left hblock, map_id'']
  exact fun _ => rfl

theorem chunkBlocks_eq (h : Holds r m L pool) : chunkBlocks m.chunks = L := by
  have hlength := length_le_of_represents h.represents
  rw [length_append] at hlength
  rw [chunkBlocks, h.represents.lists.chain.nodes_eq (by omega), map_block h]

theorem wellFormed_of_holds (h : Holds r m L pool) : WellFormed m (L.map Block.id) := by
  have hfits := fits_of_tiles h.tiles
  have hlt := r.lt
  constructor
  · exact h.represents.lists
  · rw [map_map, pairwise_map]
    refine h.tiles.pairwise_base.imp_of_mem ?_
    intro b d hb hd hbd
    rw [comp, comp, lt_def, toNat_cbase h.represents hb (hfits b hb),
      toNat_cbase h.represents hd (hfits d hd)]
    exact hbd
  · intro ch hch
    obtain ⟨b, hb, rfl⟩ := mem_map.mp hch
    rw [toNat_cbase h.represents hb (hfits b hb), toNat_size h.represents hb (hfits b hb)]
    exact ⟨(hfits b hb).dvd_base, (hfits b hb).pos, (hfits b hb).dvd_size⟩
  · rw [map_block h, h.memStart, h.memSize, toNat_ofNat, toNat_ofNat,
      Nat.mod_eq_of_lt (by omega), Nat.mod_eq_of_lt (by omega)]
    exact h.tiles
  · rw [map_block h]
    exact h.alternates

theorem step_holds (seg : DynSegment) {c : Call} (h : Holds r m L pool) (hcareful : Careful m c) :
    ∃ m', m.step seg c = some m' ∧ ∃ L' pool', Holds r m' L' pool' := by
  cases c with
  | malloc g bytes =>
    obtain ⟨m', mem, L', pool', hsome, hholds, -⟩ := malloc_returns g h hcareful
    exact ⟨m', congrArg (Option.map Prod.fst) hsome, L', pool', hholds⟩
  | mallocAddr bytes addr =>
    rw [Careful, chunkBlocks_eq h] at hcareful
    obtain ⟨m', mem, L', pool', hsome, hholds, -⟩ := mallocAddr_returns seg h hcareful
    exact ⟨m', congrArg (Option.map Prod.fst) hsome, L', pool', hholds⟩
  | free addr len =>
    rw [Careful, chunkBlocks_eq h] at hcareful
    obtain ⟨m', L', pool', hsome, hholds, -⟩ := free_holds h hcareful
    refine ⟨m', ?_, L', pool', hholds⟩
    rw [MmapMgr.step, MmapMgr.call, hsome]
    rfl

/-- Every run of careful calls can be performed to its end, and the by-address list is
well formed there. -/
theorem chunks_wellFormed (r : Region) (seg : DynSegment) (cs : List Call)
    (hcareful : RunMeets (MmapMgr.step seg) Careful r.init cs) :
    ∃ m, run (MmapMgr.step seg) r.init cs = some m ∧ m.memStart = BitVec.ofNat 64 r.start ∧
      m.memSize = BitVec.ofNat 64 r.size ∧ ∃ ids, WellFormed m ids := by
  obtain ⟨p, pool, -, hinit⟩ := init_holds r
  obtain ⟨m, hrun, L', pool', h⟩ := exists_run_of_runMeets
    (P := fun m => ∃ L pool, Holds r m L pool)
    (fun m c ⟨L, pool, h⟩ hc => step_holds seg h hc) ⟨_, pool, hinit⟩ hcareful
  exact ⟨m, hrun, h.memStart, h.memSize, L'.map Block.id, wellFormed_of_holds h⟩

def oneMegabyte : Region :=
  ⟨2 ^ 20, 2 ^ 20, by decide, by decide, by decide, by decide, by decide⟩

/-- A process without dynamic segment and without guard. -/
def noSegment : DynSegment := ⟨0#64, 0#64, 0#64⟩

def noGuard : Guard := ⟨false, 0#64, 0#64, 0#64⟩

theorem chunks_wellFormed_hole : ∃ m, run (MmapMgr.step noSegment) oneMegabyte.init
    [.malloc noGuard 5000#64, .mallocAddr 4096#64 0x104000#64, .free 0x100000#64 4096#64] =
      some m ∧ m.memStart = BitVec.ofNat 64 (2 ^ 20) ∧ m.memSize = BitVec.ofNat 64 (2 ^ 20) ∧
      ∃ ids, WellFormed m ids :=
  chunks_wellFormed oneMegabyte noSegment _ (by decide +kernel)

/-- The length rounds to zero, and the front of the free chunk becomes an empty chunk. -/
theorem not_forall_letThrough_wellFormed : ¬ ∀ (r : Region) (seg : DynSegment) (cs : List Call),
    (∀ c ∈ cs, LetThrough c) → ∀ m, run (MmapMgr.step seg) r.init cs = some m →
      ∃ ids, WellFormed m ids := by
  intro h
  have hthrough : ∀ c ∈ [Call.malloc noGuard 0xFFFFFFFFFFFFFFFF#64], LetThrough c := by
    intro c hc
    obtain rfl := mem_singleton.mp hc
    exact Or.inl ⟨noGuard, 0#64, 0xFFFFFFFFFFFFFFFF#64, ⟨false, false, false, false⟩, 0#64, rfl⟩
  have hempty : (run (MmapMgr.step noSegment) oneMegabyte.init
      [.malloc noGuard 0xFFFFFFFFFFFFFFFF#64]).bind
        (fun m => m.chunks.byAddr.anchor.map m.chunks.size) = some 0#64 := by
    decide +kernel
  obtain ⟨m, hrun, hanchor⟩ := Option.bind_eq_some_iff.mp hempty
  obtain ⟨ch, hch, hsize⟩ := Option.map_eq_some_iff.mp hanchor
  obtain ⟨ids, hwf⟩ := h oneMegabyte noSegment _ hthrough m hrun
  have hmem : ch ∈ ids := mem_of_mem_head? (hwf.linked.anchor_eq ▸ hch)
  have hpos := (hwf.aligned ch hmem).2.1
  rw [hsize] at hpos
  exact absurd hpos (by decide)

end BgqDriver.MmapRuns
