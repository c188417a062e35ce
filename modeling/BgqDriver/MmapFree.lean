import BgqDriver.MmapCalls

/-!
The loop of `MMap_Free`, and the blocks that `MMap_Init` starts with.
-/

namespace BgqDriver.MmapFree

open CoalescingBlocks Mmap List
open CoalescingBlocks.Cursor MmapSimulation MmapRoutines
open MmapCalls MmapMgr Chunks

variable {r : Region} {m : MmapMgr} {c : Cursor ChunkId} {pool : List ChunkId}
  {rbase rlimit mark : Addr} {rbytes : BitVec 64} {n : Nat}

def raised (k : Nat) (b : Block ChunkId) : Nat := if b.free then k else max k b.limit

def highEnd (k : Nat) (L : List (Block ChunkId)) : Nat := L.foldl raised k

variable {k x : Nat} {b : Block ChunkId} {l : List (Block ChunkId)}

theorem lt_highEnd {L : List (Block ChunkId)} :
    x < highEnd k L ↔ x < k ∨ ∃ b ∈ L, b.free = false ∧ x < b.limit := by
  induction L generalizing k with
  | nil => simp [highEnd]
  | cons b L ih =>
    rw [highEnd, foldl_cons, ← highEnd, ih, raised]
    cases hfree : b.free <;> simp [hfree, or_assoc]

theorem toNat_raise {L : List (Block ChunkId)} (mark : Addr) (h : Represents m.chunks L pool)
    (hb : b ∈ L) (hfits : Fits b) :
    (m.raise b.id mark).toNat = max mark.toNat (b.limit + b.free.toNat) := by
  have haddr := toNat_addr h hb hfits
  have hsize := toNat_size h hb hfits
  have hlimit := hfits.limit_le
  have hbit := Bool.toNat_le b.free
  have hsum : (m.chunks.addr b.id + m.chunks.size b.id).toNat = b.limit + b.free.toNat := by
    rw [Block.limit] at *
    rw [BitVec.toNat_add, haddr, hsize]
    omega
  simp only [raise, BitVec.lt_def]
  split
  all_goals
    rw [hsum] at *
    omega

theorem toNat_mark (mark : Addr) (h : At m.chunks c) (hfits : Fits c.here) :
    (if m.chunks.isFree c.here.id then mark else m.raise c.here.id mark).toNat =
      raised mark.toNat c.here := by
  rw [isFree_eq h (here_mem c) hfits, raised]
  cases hfree : c.here.free with
  | true => rfl
  | false => simp [toNat_raise mark h (here_mem c) hfits, hfree]

theorem freeLoop_miss (n : Nat) (rbytes : BitVec 64) (mark : Addr) (h : At m.chunks c)
    (hfits : Fits c.here) (hmiss : m.chunks.hasRange rbase rlimit c.here.id = false) :
    ∃ mark', freeLoop rbase rlimit rbytes (n + 1) m (some c.here.id) mark =
        freeLoop rbase rlimit rbytes n m (c.after.head?.map Block.id) mark' ∧
      mark'.toNat = raised mark.toNat c.here := by
  rw [freeLoop]
  simp only [hmiss, Bool.false_eq_true, if_false, next_here h]
  exact ⟨_, rfl, toNat_mark mark h hfits⟩

def raisedPrev (k : Nat) : List (Block ChunkId) → Nat
  | [] => k
  | p :: _ => max k (p.limit + p.free.toNat)

theorem freeLoop_hit (n : Nat) (mark : Addr) (h : Holds r m c.blocks c.spare)
    (hhit : m.chunks.hasRange rbase rlimit c.here.id = true) (hdvd : 4096 ∣ rbytes.toNat)
    (hpart : rbytes.toNat < c.here.size → Carvable c.here rbytes.toNat rbase.toNat) :
    ∃ m' mark', freeLoop rbase rlimit rbytes (n + 1) m (some c.here.id) mark =
        freeLoop rbase rlimit rbytes n m'
          ((c.release rbytes.toNat rbase.toNat).after.head?.map Block.id) mark' ∧
      Holds r m' (c.release rbytes.toNat rbase.toNat).blocks
        (c.release rbytes.toNat rbase.toNat).spare ∧
      m'.memAvail = m.memAvail + rbytes ∧ m'.memBusy = m.memBusy - rbytes ∧
      mark'.toNat = raised (raisedPrev mark.toNat (c.release rbytes.toNat rbase.toNat).before)
        (c.release rbytes.toNat rbase.toNat).here := by
  have hsets := (sets_release h.tiles h.alternates fun hlt => (hpart hlt).toReleasable).1
  obtain ⟨hat, hid⟩ := freeMemory_at (m := { m with
    memAvail := m.memAvail + rbytes, memBusy := m.memBusy - rbytes }) h.represents h.tiles
    h.alternates hdvd hpart
  obtain ⟨hstart, hsize, havail, hbusy⟩ := freeMemory_region { m with
    memAvail := m.memAvail + rbytes, memBusy := m.memBusy - rbytes } c.here.id rbytes rbase
  have hfits := fits_of_tiles hsets.tiles
  rw [freeLoop]
  simp only [hhit, if_true, freeHit, hid, next_here hat]
  refine ⟨_, _, rfl, ⟨hat, hsets.tiles, hsets.alternates, hstart.trans h.memStart,
    hsize.trans h.memSize⟩, havail, hbusy, ?_⟩
  rw [toNat_mark _ hat (hfits _ (here_mem _)), prev_here hat]
  congr 1
  cases hbefore : (c.release rbytes.toNat rbase.toNat).before with
  | nil => rfl
  | cons p before =>
    have hp : p ∈ (c.release rbytes.toNat rbase.toNat).blocks := by
      simp [Cursor.blocks, hbefore]
    exact toNat_raise mark hat hp (hfits p hp)

theorem freeLoop_skip (n : Nat) (rbytes : BitVec 64) (mark : Addr)
    {done rest : List (Block ChunkId)} (h : Represents m.chunks (done ++ (l ++ rest)) pool)
    (hfits : ∀ d ∈ l, Fits d) (hmiss : ∀ d ∈ l, m.chunks.hasRange rbase rlimit d.id = false) :
    ∃ mark', freeLoop rbase rlimit rbytes (n + l.length) m
        ((l ++ rest).head?.map Block.id) mark =
      freeLoop rbase rlimit rbytes n m (rest.head?.map Block.id) mark' ∧
      mark'.toNat = highEnd mark.toNat l := by
  induction l generalizing done mark with
  | nil => exact ⟨mark, rfl, rfl⟩
  | cons d l ih =>
    have hat : At m.chunks ⟨done.reverse, d, l ++ rest, pool⟩ := by
      simpa only [At, Cursor.blocks, reverse_reverse, cons_append] using h
    obtain ⟨mark1, hstep, hmark1⟩ := freeLoop_miss (n + l.length) rbytes mark hat
      (hfits d (by simp)) (hmiss d (by simp))
    have hnext : Represents m.chunks ((done ++ [d]) ++ (l ++ rest)) pool := by
      simpa only [append_assoc, cons_append, nil_append] using h
    obtain ⟨mark2, hloop, hmark2⟩ := ih mark1 hnext (fun e he => hfits e (by simp [he]))
      fun e he => hmiss e (by simp [he])
    exact ⟨mark2, hstep.trans hloop, hmark2.trans (by rw [hmark1]; rfl)⟩

theorem freeLoop_rest (rbytes : BitVec 64) (mark : Addr) (h : Holds r m c.blocks c.spare)
    (hmiss : ∀ d ∈ c.after, m.chunks.hasRange rbase rlimit d.id = false) (hn : c.after.length < n) :
    ∃ mark', freeLoop rbase rlimit rbytes n m (c.after.head?.map Block.id) mark =
      some (m, mark') ∧ mark'.toNat = highEnd mark.toNat c.after := by
  obtain ⟨i, rfl⟩ : ∃ i, n = i + 1 + c.after.length := ⟨n - c.after.length - 1, by omega⟩
  have h' : Represents m.chunks ((c.before.reverse ++ [c.here]) ++ (c.after ++ [])) c.spare := by
    simpa [Cursor.blocks] using h.represents
  obtain ⟨mark', hloop, hmark⟩ := freeLoop_skip (i + 1) rbytes mark h'
    (fun d hd => fits_of_tiles h.tiles d (by simp [Cursor.blocks, hd])) hmiss
  rw [append_nil] at hloop
  exact ⟨mark', hloop, hmark⟩

section

variable (h : Holds r m c.blocks c.spare)
include h

theorem hasRange_eq_true_iff (hb : b ∈ c.blocks) :
    m.chunks.hasRange rbase rlimit b.id = true ↔ b.base ≤ rbase.toNat ∧ rlimit.toNat < b.limit :=
  hasRange_iff h.represents hb (fits_of_tiles h.tiles b hb)

theorem hasRange_after (hpast : rbase.toNat < c.here.limit) :
    ∀ d ∈ c.after, m.chunks.hasRange rbase rlimit d.id = false := by
  intro d hd
  have hmem : d ∈ c.blocks := by simp [Cursor.blocks, hd]
  have hbase := ((tiles_blocks.mp h.tiles).2.2.2.mem hd).1
  by_contra hhit
  have hle := ((hasRange_eq_true_iff h hmem).mp (by simpa using hhit)).1
  omega

theorem length_after_lt : c.after.length < mmapMaxAllocs := by
  have hlength := length_le_of_represents h.represents
  simp only [Cursor.blocks, length_append, length_map, length_cons] at hlength
  omega

end

theorem freeLoop_holds (mark : Addr) {before after : List (Block ChunkId)}
    (h : Holds r m (before.reverse ++ after) pool) (hdvd : 4096 ∣ rbytes.toNat)
    (hpart : ∀ b ∈ after, b.base ≤ rbase.toNat → rlimit.toNat < b.limit →
      rbytes.toNat < b.size → Carvable b rbytes.toNat rbase.toNat)
    (hn : after.length + mmapMaxAllocs < n) :
    ∃ m' mark' L' pool', freeLoop rbase rlimit rbytes n m (after.head?.map Block.id) mark =
      some (m', mark') ∧ Holds r m' L' pool' ∧
      Uses L' pool' ((before.reverse ++ after).map Block.id ++ pool) := by
  induction n generalizing m before after pool mark with
  | zero => omega
  | succ n ih =>
    cases after with
    | nil => exact ⟨m, mark, _, pool, rfl, h, Perm.refl _⟩
    | cons b after =>
      rw [length_cons] at hn
      have hb : b ∈ blocks ⟨before, b, after, pool⟩ := here_mem ⟨before, b, after, pool⟩
      cases hhit : m.chunks.hasRange rbase rlimit b.id with
      | false =>
        have hnext : Holds r m ((b :: before).reverse ++ after) pool := by
          simpa using h
        obtain ⟨mark1, hstep, -⟩ := freeLoop_miss (c := ⟨before, b, after, pool⟩) n rbytes
          mark h.represents (fits_of_tiles h.tiles b hb) hhit
        obtain ⟨m', mark', L', pool', hloop, hholds, huses⟩ := ih mark1 hnext
          (fun d hd => hpart d (by simp [hd])) (by omega)
        exact ⟨m', mark', L', pool', hstep.trans hloop, hholds, by simpa using huses⟩
      | true =>
        obtain ⟨hbase, hlimit⟩ :=
          (hasRange_eq_true_iff (c := ⟨before, b, after, pool⟩) h hb).mp hhit
        have hpart' := hpart b (by simp) hbase hlimit
        obtain ⟨hsets, hpast⟩ := sets_release (c := ⟨before, b, after, pool⟩) h.tiles
          h.alternates fun hlt => (hpart' hlt).toReleasable
        have hperm := hsets.perm
        have hsuffix := release_after_suffix (c := ⟨before, b, after, pool⟩)
          rbytes.toNat rbase.toNat
        obtain ⟨m1, mark1, hstep, h1, -⟩ := freeLoop_hit (c := ⟨before, b, after, pool⟩) n
          mark h hhit hdvd hpart'
        generalize release ⟨before, b, after, pool⟩ rbytes.toNat rbase.toNat = c' at *
        rcases Nat.lt_or_ge rbytes.toNat b.size with hlt | hge
        · -- Nothing behind a partial release contains the range.
          have hlt' : rbase.toNat < b.limit := by
            have hrel := hpart' hlt
            have := hrel.pos
            have := hrel.le_limit
            omega
          have hlength := length_after_lt h1
          obtain ⟨mark', hrest, -⟩ := freeLoop_rest rbytes mark1 h1
            (hasRange_after h1 (hpast hlt')) (n := n) (by omega)
          exact ⟨m1, mark', _, _, hstep.trans hrest, h1, hperm⟩
        · have hafter := hsuffix (by simp only; omega)
          have hnext : Holds r m1 ((c'.here :: c'.before).reverse ++ c'.after) c'.spare := by
            simpa [Cursor.blocks] using h1
          have hle := hafter.length_le
          obtain ⟨m', mark', L', pool', hloop, hholds, huses⟩ := ih mark1 hnext
            (fun d hd => hpart d (mem_cons_of_mem _ (hafter.mem hd)))
            (by simp only at hle; omega)
          refine ⟨m', mark', L', pool', hstep.trans hloop, hholds, huses.trans ?_⟩
          simpa [descriptors, Cursor.blocks] using hperm

section Free

variable {L : List (Block ChunkId)} {addr : Addr} {len : BitVec 64}

theorem anchor_eq (h : Holds r m L pool) : m.chunks.byAddr.anchor = L.head?.map Block.id := by
  rw [h.represents.lists.anchor_eq, head?_map]

theorem free_holds (h : Holds r m L pool)
    (hpart : ∀ b ∈ L, b.base ≤ addr.toNat → (addr + len - 1#64).toNat < b.limit →
      (mmapRoundUp len).toNat < b.size → Carvable b (mmapRoundUp len).toNat addr.toNat) :
    ∃ m' L' pool', m.free addr len = some m' ∧ Holds r m' L' pool' ∧
      Uses L' pool' (L.map Block.id ++ pool) := by
  have hfuel : L.length + mmapMaxAllocs < walkFuel := by
    have hlength := length_le_of_represents h.represents
    simp only [length_append, length_map, mmapMaxAllocs, walkFuel] at hlength ⊢
    omega
  have h' : Holds r m (reverse [] ++ L) pool := h
  obtain ⟨m', mark', L', pool', hloop, hholds, huses⟩ :=
    freeLoop_holds m.memStart h' (dvd_mmapRoundUp len) hpart hfuel
  rw [free, anchor_eq h, hloop]
  exact ⟨_, L', pool', rfl, ⟨hholds.represents, hholds.tiles, hholds.alternates, hholds.memStart,
    hholds.memSize⟩, huses⟩

theorem lt_raisedPrev : x < raisedPrev k l ↔ x < k ∨ ∃ p ∈ l.head?, x < p.limit + p.free.toNat := by
  cases l <;> simp [raisedPrev]

/-- The mark after the freed chunk, raised over the chunks behind it, is the end of the
highest busy chunk: busy memory before the freed range is still below it, and a free chunk
before the freed one ends where a busy one starts. -/
theorem highEnd_release {len addr : Nat} (h : Holds r m c.blocks c.spare)
    (hrel : Releasable 4096 c.here len addr) :
    highEnd (raised (raisedPrev (highEnd r.start c.before.reverse) (c.release len addr).before)
      (c.release len addr).here) (c.release len addr).after =
        highEnd r.start (c.release len addr).blocks := by
  obtain ⟨hsets, -⟩ := sets_release h.tiles h.alternates fun _ => hrel
  have hbase := hrel.base_le
  have hbefore := (tiles_blocks.mp h.tiles).1
  have hkept : ∀ b ∈ c.before, b.free = false → ∃ d ∈ (c.release len addr).blocks,
      d.free = false ∧ b.limit ≤ d.limit := by
    intro b hb hbusy
    obtain ⟨-, hlimit, hpos, -⟩ := hbefore.mem (mem_reverse.mpr hb)
    rw [Block.limit] at hlimit
    have hold : Covers c.blocks false (b.limit - 1) :=
      ⟨b, by simp [Cursor.blocks, hb], hbusy, by rw [Block.limit]; omega,
        by rw [Block.limit]; omega⟩
    have hout : ¬ c.Released len addr (b.limit - 1) := by
      rintro ⟨-, hin⟩
      rw [Block.limit] at hin
      split at hin <;> omega
    obtain ⟨d, hd, hdbusy, -, hlt⟩ := (hsets.covers false _).mpr (.inr ⟨hout, hold⟩)
    exact ⟨d, hd, hdbusy, by omega⟩
  have htiles := tiles_blocks.mp hsets.tiles
  have hpred := (alternates_blocks.mp hsets.alternates).1
  generalize c.release len addr = c' at *
  apply eq_of_forall_lt_iff
  intro x
  have hhere : x < raised (raisedPrev (highEnd r.start c.before.reverse) c'.before) c'.here ↔
      x < raisedPrev (highEnd r.start c.before.reverse) c'.before ∨
        (c'.here.free = false ∧ x < c'.here.limit) := by
    rw [raised]
    cases c'.here.free <;> simp
  rw [lt_highEnd, hhere, lt_raisedPrev, lt_highEnd, lt_highEnd]
  constructor
  · rintro ((((hx | ⟨b, hb, hbusy, hx⟩) | ⟨p, hp, hx⟩) | ⟨hbusy, hx⟩) | ⟨b, hb, hbusy, hx⟩)
    · exact .inl hx
    · obtain ⟨d, hd, hdbusy, hle⟩ := hkept b (mem_reverse.mp hb) hbusy
      exact .inr ⟨d, hd, hdbusy, by omega⟩
    · have hmem := mem_of_mem_head? hp
      obtain ⟨-, hlimit, -⟩ := htiles.1.mem (mem_reverse.mpr hmem)
      cases hfree : p.free with
      | false => exact .inr ⟨p, by simp [Cursor.blocks, hmem], hfree, by simpa [hfree] using hx⟩
      | true =>
        obtain ⟨l, hl⟩ := head?_eq_some_iff.mp hp
        rw [hl, Alternates, isChain_cons_cons] at hpred
        have hbusy : c'.here.free = false := by simpa [Differ, hfree] using hpred.1
        rw [hfree, Bool.toNat_true] at hx
        exact .inr ⟨c'.here, here_mem c', hbusy, by rw [Block.limit]; omega⟩
    · exact .inr ⟨c'.here, here_mem c', hbusy, hx⟩
    · exact .inr ⟨b, by simp [Cursor.blocks, hb], hbusy, hx⟩
  · rintro (hx | ⟨b, hb, hbusy, hx⟩)
    · exact .inl (.inl (.inl (.inl hx)))
    · rw [Cursor.blocks, mem_append, mem_cons, mem_reverse] at hb
      rcases hb with hb | rfl | hb
      · obtain ⟨-, hlimit, -⟩ := htiles.1.mem (mem_reverse.mpr hb)
        cases hbefore' : c'.before with
        | nil => simp [hbefore'] at hb
        | cons p l =>
          have hend := htiles.1
          rw [hbefore', reverse_cons, tiles_append] at hend
          obtain ⟨e, -, -, -, -, hend⟩ := hend
          rw [Tiles] at hend
          exact .inl (.inl (.inr ⟨p, rfl, by omega⟩))
      · exact .inl (.inr ⟨hbusy, hx⟩)
      · exact .inr ⟨b, hb, hbusy, hx⟩

theorem free_release (h : Holds r m c.blocks c.spare) (hlen : len ≠ 0#64)
    (hround : len.toNat ≤ (mmapRoundUp len).toNat)
    (hcarve : Carvable c.here (mmapRoundUp len).toNat addr.toNat) :
    ∃ m', m.free addr len = some m' ∧
      Holds r m' (c.release (mmapRoundUp len).toNat addr.toNat).blocks
        (c.release (mmapRoundUp len).toNat addr.toNat).spare ∧
      m'.memAvail = m.memAvail + mmapRoundUp len ∧ m'.memBusy = m.memBusy - mmapRoundUp len ∧
      m'.highMark.toNat =
        highEnd r.start (c.release (mmapRoundUp len).toNat addr.toNat).blocks := by
  obtain ⟨hbase, hlimit, hpos, -, -⟩ := hcarve.toReleasable
  have hfit := (fits_of_tiles h.tiles _ (here_mem c)).limit_le
  have hlen' : 0 < len.toNat := Nat.pos_of_ne_zero fun hzero => hlen (BitVec.eq_of_toNat_eq hzero)
  have hrlimit : (addr + len - 1#64).toNat = addr.toNat + len.toNat - 1 := by
    bv_omega
  have hhit : m.chunks.hasRange addr (addr + len - 1#64) c.here.id = true := by
    rw [hasRange_eq_true_iff h (here_mem c), hrlimit]
    omega
  have hmiss : ∀ d ∈ c.before.reverse,
      m.chunks.hasRange addr (addr + len - 1#64) d.id = false := by
    intro d hd
    have hmem : d ∈ c.blocks := by
      simp only [Cursor.blocks, mem_append]
      exact .inl hd
    have hbefore := ((tiles_blocks.mp h.tiles).1.mem hd).2.1
    by_contra hhit
    have hlt := ((hasRange_eq_true_iff h hmem).mp (by simpa using hhit)).2
    omega
  have hlength := length_le_of_represents h.represents
  simp only [Cursor.blocks, length_append, length_map, length_cons, length_reverse] at hlength
  obtain ⟨i, hi⟩ : ∃ i, walkFuel = mmapMaxAllocs + i + 1 + c.before.reverse.length :=
    ⟨walkFuel - mmapMaxAllocs - 1 - c.before.length, by
      simp only [walkFuel, mmapMaxAllocs, length_reverse] at hlength ⊢
      omega⟩
  have h' : Represents m.chunks ([] ++ (c.before.reverse ++ c.here :: c.after)) c.spare :=
    h.represents
  obtain ⟨mark1, hskip, hmark1⟩ := freeLoop_skip (mmapMaxAllocs + i + 1) (mmapRoundUp len)
    m.memStart h' (fun d hd => fits_of_tiles h.tiles d (mem_append_left _ hd)) hmiss
  obtain ⟨m', mark2, hstep, hholds, havail, hbusy, hmark2⟩ := freeLoop_hit (mmapMaxAllocs + i)
    mark1 h hhit (dvd_mmapRoundUp len) fun _ => hcarve
  have hpast := (sets_release h.tiles h.alternates fun _ => hcarve.toReleasable).2 (by omega)
  obtain ⟨mark3, hrest, hmark3⟩ := freeLoop_rest (n := mmapMaxAllocs + i) (mmapRoundUp len) mark2
    hholds (hasRange_after hholds hpast)
    (Nat.lt_of_lt_of_le (length_after_lt hholds) (Nat.le_add_right _ _))
  have hstart : m.memStart.toNat = r.start := by
    have hlt := r.lt
    rw [h.memStart, BitVec.toNat_ofNat, Nat.mod_eq_of_lt (by omega)]
  rw [free, anchor_eq h, hi]
  have hloop := hskip.trans (hstep.trans hrest)
  simp only [Cursor.blocks, hloop, Option.map_some]
  refine ⟨_, rfl, ⟨hholds.represents, hholds.tiles, hholds.alternates, hholds.memStart,
    hholds.memSize⟩, havail, hbusy, ?_⟩
  have hend := highEnd_release h hcarve.toReleasable
  rw [← hstart, ← hmark1, ← hmark2, hstart] at hend
  exact hmark3.trans hend

end Free

section Init

theorem foldl_push_represents {k : Chunks} {l : List ChunkId} (h : Represents k [] pool)
    (hl : (l.reverse ++ pool).Nodup) :
    Represents (l.foldl pushFreeChunk k) [] (l.reverse ++ pool) := by
  induction l generalizing k pool with
  | nil => exact h
  | cons i l ih =>
    rw [reverse_cons, append_assoc, singleton_append] at hl ⊢
    refine ih (represents_push h ?_) hl
    exact (nodup_cons.mp (nodup_middle.mp hl)).1 ∘ mem_append_right _

theorem foldl_push_byAddr (k : Chunks) (l : List ChunkId) :
    (l.foldl pushFreeChunk k).byAddr = k.byAddr := by
  induction l generalizing k with
  | nil => rfl
  | cons i l ih => exact ih _

theorem mmapRoundDn_of_dvd {a : Addr} (h : 4096 ∣ a.toNat) : mmapRoundDn a = a := by
  apply BitVec.eq_of_toNat_eq
  refine (toNat_and_not_ones a 12).trans ?_
  omega

theorem initRegion_holds {k : Chunks} {p : ChunkId} (hpool : Represents k [] pool)
    (hlinks : k.byAddr = MmapMgr.zero.chunks.byAddr) (hp : p ∉ pool)
    (hstart : m.memStart = BitVec.ofNat 64 r.start) (hsize : m.memSize = BitVec.ofNat 64 r.size) :
    Holds r (m.initRegion p k) [⟨p, r.start, r.size, true⟩] pool := by
  have hdvd' := r.dvd_size
  have hpos := r.pos_size
  have hlt := r.lt
  have htoNat : (BitVec.ofNat 64 r.size).toNat = r.size := by
    rw [BitVec.toNat_ofNat, Nat.mod_eq_of_lt (by omega)]
  have htiles : Tiles 4096 r.start (blocks ⟨[], ⟨p, r.start, r.size, false⟩, [], pool⟩) r.limit :=
    ⟨rfl, hpos, by simp only; omega, rfl⟩
  generalize hK : ({ ((k.setAddr p m.memStart).setSize p m.memSize) with
    byAddr := { k.byAddr with anchor := some p } } : Chunks) = K
  have hat : At K ⟨[], ⟨p, r.start, r.size, false⟩, [], pool⟩ := by
    subst hK
    refine ⟨⟨rfl, ?_, ?_⟩, ?_, ?_, hpool.spare, ?_, hpool.left⟩
    · simp only [hlinks]
      rfl
    · simp only [hlinks]
      rfl
    · intro b hb
      obtain rfl := mem_singleton.mp hb
      simp [setAddr, setSize, hstart, word]
    · intro b hb
      obtain rfl := mem_singleton.mp hb
      simp [setAddr, setSize, hsize]
    · exact nodup_cons.mpr ⟨hp, hpool.nodup⟩
  have hfields : K.size p = m.memSize ∧ K.addr p = m.memStart := by
    subst hK
    simp [setAddr, setSize]
  have hwhole : ¬ m.memSize.toNat < r.size := by
    rw [hsize, htoNat]
    exact Nat.lt_irrefl _
  have hfreed : At (freeMemory { m with chunks := K } p m.memSize m.memStart).1.chunks
      (release ⟨[], ⟨p, r.start, r.size, false⟩, [], pool⟩ m.memSize.toNat m.memStart.toNat) :=
    (freeMemory_at (m := { m with chunks := K }) hat htiles (isChain_singleton _)
      (by rw [hsize, htoNat]; omega) fun hlt => absurd hlt hwhole).1
  obtain ⟨hstart', hsize', -⟩ := freeMemory_region { m with chunks := K } p m.memSize m.memStart
  have hinit (m' : MmapMgr)
      (hm' : m' = (freeMemory { m with chunks := K } p (K.size p) (K.addr p)).1) :
      (m.initRegion p k).chunks = m'.chunks ∧ (m.initRegion p k).memStart = m'.memStart ∧
        (m.initRegion p k).memSize = m'.memSize := by
    subst hm' hK
    exact ⟨rfl, rfl, rfl⟩
  rw [hfields.1, hfields.2] at hinit
  obtain ⟨hchunks, hstart'', hsize''⟩ := hinit _ rfl
  rw [release, if_neg hwhole, At, ← hchunks] at hfreed
  exact ⟨hfreed, htiles, isChain_singleton _, hstart''.trans (hstart'.trans hstart),
    hsize''.trans (hsize'.trans hsize)⟩

theorem init_holds (r : Region) : ∃ p pool, pool.length + 1 = mmapMaxAllocs ∧
      Holds r r.init [⟨p, r.start, r.size, true⟩] pool := by
  have hstart := r.dvd_start
  have hsize := r.dvd_size
  have hpos := r.pos_size
  have hlt := r.lt
  have hbytes : BitVec.ofNat 64 r.size ≠ 0#64 := by
    intro hzero
    have hzero := congrArg BitVec.toNat hzero
    rw [BitVec.toNat_ofNat, Nat.mod_eq_of_lt (by omega)] at hzero
    exact absurd hzero hpos.ne'
  have hmemStart : mmapRoundUp (BitVec.ofNat 64 r.start) = BitVec.ofNat 64 r.start :=
    mmapRoundUp_of_dvd (by rw [BitVec.toNat_ofNat]; omega)
  have hmemSize : mmapRoundDn (BitVec.ofNat 64 r.size) = BitVec.ofNat 64 r.size :=
    mmapRoundDn_of_dvd (by rw [BitVec.toNat_ofNat]; omega)
  have hpool : Represents ((finRange mmapMaxAllocs).foldl pushFreeChunk
      MmapMgr.zero.chunks) [] ((finRange mmapMaxAllocs).reverse ++ []) := by
    refine foldl_push_represents ⟨rfl, ?_, ?_, rfl, nodup_nil, rfl⟩ ?_
    · simp
    · simp
    · rw [append_nil, nodup_reverse]
      exact nodup_finRange mmapMaxAllocs
  have hlinks := foldl_push_byAddr MmapMgr.zero.chunks (finRange mmapMaxAllocs)
  have hlength : (finRange mmapMaxAllocs).reverse.length = mmapMaxAllocs := by simp
  rw [append_nil] at hpool
  simp only [Region.init, init, if_neg hbytes, hmemStart, hmemSize]
  generalize (finRange mmapMaxAllocs).foldl pushFreeChunk MmapMgr.zero.chunks = k
    at hpool hlinks ⊢
  generalize (finRange mmapMaxAllocs).reverse = l at hpool hlength
  cases l with
  | nil => cases hlength
  | cons p pool =>
    obtain ⟨k', hpop, hrest, hp⟩ := popFreeChunk_cons hpool
    have hlinks' : k'.byAddr = k.byAddr := by
      simp only [popFreeChunk, hpool.spare.1, Option.some.injEq, Prod.mk.injEq] at hpop
      rw [← hpop.2]
    rw [hpop]
    exact ⟨p, pool, hlength, initRegion_holds hrest (hlinks'.trans hlinks) hp rfl rfl⟩

end Init

end BgqDriver.MmapFree
