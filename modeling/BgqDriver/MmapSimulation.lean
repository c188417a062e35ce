import BgqDriver.CoalescingBlocks
import BgqDriver.Mmap

/-!
The chunk lists of a manager as blocks that tile the region. Each routine of the
allocator is the cursor operation of the same effect on the blocks.
-/

namespace BgqDriver.MmapSimulation

open Function List
open BitVec hiding not_or
open LinkedChains CoalescingBlocks Mmap
open CoalescingBlocks.Cursor Chunks

def word (b : Block ChunkId) : Addr := BitVec.ofNat 64 (b.base + b.free.toNat)

structure Represents (k : Chunks) (L : List (Block ChunkId)) (pool : List ChunkId) : Prop where
  lists : k.byAddr.Lists (L.map Block.id)
  addr : ∀ b ∈ L, k.addr b.id = word b
  size : ∀ b ∈ L, k.size b.id = BitVec.ofNat 64 b.size
  spare : Chain k.next k.freeChunkAnchor pool
  nodup : (L.map Block.id ++ pool).Nodup
  left : k.chunksLeft = BitVec.ofNat 64 pool.length

structure Fits (b : Block ChunkId) : Prop where
  dvd_base : 4096 ∣ b.base
  dvd_size : 4096 ∣ b.size
  pos : 0 < b.size
  limit_le : b.limit + 4096 ≤ 2 ^ 64

theorem Fits.limit_lt {b : Block ChunkId} (h : Fits b) : b.limit < 2 ^ 64 := by
  have hle := h.limit_le
  omega

theorem toNat_and_not_ones (x : Addr) (i : Nat) :
    (x &&& ~~~BitVec.ofNat 64 (2 ^ i - 1)).toNat = x.toNat / 2 ^ i * 2 ^ i := by
  have hshift : x &&& ~~~BitVec.ofNat 64 (2 ^ i - 1) = (x >>> i) <<< i := by
    apply eq_of_getLsbD_eq
    intro j hj
    have hones : (BitVec.ofNat 64 (2 ^ i - 1)).getLsbD j = decide (j < i) := by
      rw [getLsbD_ofNat, Nat.testBit_two_pow_sub_one]
      simp [hj]
    rw [getLsbD_and, getLsbD_not, hones]
    rcases Nat.lt_or_ge j i with hji | hij
    · simp [hji]
    · simp [hj, Nat.not_lt.mpr hij, Nat.add_sub_of_le hij]
  have hle : x.toNat / 2 ^ i * 2 ^ i ≤ x.toNat := Nat.div_mul_le_self _ _
  rw [hshift, toNat_shiftLeft, toNat_ushiftRight, Nat.shiftLeft_eq,
    Nat.shiftRight_eq_div_pow, Nat.mod_eq_of_lt (by omega)]

theorem toNat_mmapRoundUp (a : Addr) :
    (mmapRoundUp a).toNat = (a.toNat + 4095) % 2 ^ 64 / 4096 * 4096 := by
  exact (toNat_and_not_ones (a + pageMask) 12).trans (by simp [pageMask])

theorem mmapRoundUp_of_dvd {a : Addr} (h : 4096 ∣ a.toNat) : mmapRoundUp a = a := by
  apply eq_of_toNat_eq
  rw [toNat_mmapRoundUp]
  omega

theorem dvd_mmapRoundUp (a : Addr) : 4096 ∣ (mmapRoundUp a).toNat := by
  rw [toNat_mmapRoundUp]
  exact Nat.dvd_mul_left _ _

variable {base limit : Addr} {x : Block ChunkId} {v : Bool}

section Fields

variable {k : Chunks} {L : List (Block ChunkId)} {pool : List ChunkId} {b : Block ChunkId}

theorem toNat_word (hb : Fits b) : (word b).toNat = b.base + b.free.toNat := by
  have hlimit := hb.limit_le
  have hfree := b.free.toNat_le
  rw [Block.limit] at hlimit
  rw [word, toNat_ofNat, Nat.mod_eq_of_lt (by omega)]

theorem toNat_addr (h : Represents k L pool) (hb : b ∈ L) (hfits : Fits b) :
    (k.addr b.id).toNat = b.base + b.free.toNat := by
  rw [h.addr b hb, toNat_word hfits]

theorem toNat_size (h : Represents k L pool) (hb : b ∈ L) (hfits : Fits b) :
    (k.size b.id).toNat = b.size := by
  have hlimit := hfits.limit_le
  rw [Block.limit] at hlimit
  rw [h.size b hb, toNat_ofNat, Nat.mod_eq_of_lt (by omega)]

theorem word_and_not (hfits : Fits b) :
    word b &&& ~~~mmapChunkAddrFree = BitVec.ofNat 64 b.base := by
  have hword := toNat_word hfits
  have hdvd := hfits.dvd_base
  have hlimit := hfits.limit_le
  have hfree := b.free.toNat_le
  apply eq_of_toNat_eq
  refine (toNat_and_not_ones (word b) 1).trans ?_
  rw [toNat_ofNat]
  omega

theorem word_or (hfits : Fits b) : word b ||| mmapChunkAddrFree = word { b with free := true } := by
  have hclear : word b ||| mmapChunkAddrFree =
      (word b &&& ~~~mmapChunkAddrFree) ||| mmapChunkAddrFree := by
    apply eq_of_getLsbD_eq
    intro j hj
    simp only [getLsbD_or, getLsbD_and, getLsbD_not]
    cases (word b).getLsbD j <;> cases mmapChunkAddrFree.getLsbD j <;> simp [hj]
  have hapart : (word b &&& ~~~mmapChunkAddrFree) &&& mmapChunkAddrFree = 0#64 := by
    rw [BitVec.and_assoc, BitVec.and_comm (~~~mmapChunkAddrFree)]
    simp
  rw [hclear, ← add_eq_or_of_and_eq_zero _ _ hapart, word_and_not hfits, word, ofNat_add]
  rfl

section

variable (h : Represents k L pool) (hb : b ∈ L) (hfits : Fits b)
include h hb hfits

theorem toNat_cbase : (k.cbase b.id).toNat = b.base := by
  have hlimit := hfits.limit_le
  rw [Block.limit] at hlimit
  rw [cbase, h.addr b hb, word_and_not hfits, toNat_ofNat,
    Nat.mod_eq_of_lt (by omega)]

theorem isFree_eq : k.isFree b.id = b.free := by
  have hword := toNat_addr h hb hfits
  have hdvd := hfits.dvd_base
  have hbit : (k.addr b.id &&& mmapChunkAddrFree).toNat = b.free.toNat := by
    rw [toNat_and, hword]
    simp only [mmapChunkAddrFree, toNat_ofNat, Nat.one_mod, Nat.and_one_is_mod]
    have hfree := b.free.toNat_le
    omega
  rw [isFree]
  cases hfree : b.free with
  | false => simpa [hfree, ← toNat_inj] using hbit
  | true =>
    rw [hfree] at hbit
    simp only [bne_iff_ne, ne_eq, ← toNat_inj, hbit]
    decide

theorem toNat_climit : (k.climit b.id).toNat = b.limit - 1 := by
  have hbase := toNat_cbase h hb hfits
  have hsize := toNat_size h hb hfits
  have hlimit := hfits.limit_le
  have hpos := hfits.pos
  rw [Block.limit] at hlimit ⊢
  rw [climit]
  bv_omega

theorem isRoomy_iff {n : BitVec 64} :
    k.isRoomy n b.id = true ↔ b.free = true ∧ n.toNat ≤ b.size := by
  rw [isRoomy, isFree_eq h hb hfits, Bool.and_eq_true, decide_eq_true_eq, le_def,
    toNat_size h hb hfits]

theorem isRange_iff :
    k.isRange base limit b.id = true ↔ b.base = base.toNat ∧ b.limit = limit.toNat + 1 := by
  have hpos := hfits.pos
  rw [isRange, Bool.and_eq_true, beq_iff_eq, beq_iff_eq, ← toNat_inj,
    ← toNat_inj, toNat_cbase h hb hfits, toNat_climit h hb hfits, Block.limit]
  omega

theorem hasRange_iff :
    k.hasRange base limit b.id = true ↔ b.base ≤ base.toNat ∧ limit.toNat < b.limit := by
  have hpos := hfits.pos
  rw [hasRange, Bool.and_eq_true, decide_eq_true_eq, decide_eq_true_eq, le_def,
    le_def, toNat_cbase h hb hfits, toNat_climit h hb hfits, Block.limit]
  omega

end

end Fields

section Lists

variable {k k' : Chunks} {L l m : List (Block ChunkId)} {pool : List ChunkId}
  {b d : Block ChunkId} {t : ChunkId}

theorem represents_push (h : Represents k L pool) (ht : t ∉ L.map Block.id ++ pool) :
    Represents (k.pushFreeChunk t) L (t :: pool) := by
  simp only [mem_append, not_or] at ht
  refine ⟨h.lists, h.addr, h.size, ⟨rfl, ?_⟩, ?_, ?_⟩
  · simp only [pushFreeChunk, update_self]
    exact h.spare.congr fun i hi => update_of_ne (ne_of_mem_of_not_mem hi ht.2) _ _
  · rw [nodup_middle, nodup_cons]
    exact ⟨by simpa using ht, h.nodup⟩
  · simp [pushFreeChunk, h.left, ofNat_add]

theorem popFreeChunk_nil (h : Represents k L []) : k.popFreeChunk = none := by
  rw [popFreeChunk, chain_nil_iff.mp h.spare]

theorem popFreeChunk_cons (h : Represents k L (t :: pool)) :
    ∃ k', k.popFreeChunk = some (t, k') ∧ Represents k' L pool ∧ t ∉ L.map Block.id ++ pool := by
  obtain ⟨hanchor, hchain⟩ := h.spare
  have hnodup := h.nodup
  rw [nodup_middle, nodup_cons] at hnodup
  have ht : t ∉ pool := fun hmem => hnodup.1 (by simp [hmem])
  rw [popFreeChunk, hanchor]
  refine ⟨_, rfl, ⟨h.lists, h.addr, h.size, ?_, hnodup.2, ?_⟩, hnodup.1⟩
  · exact hchain.congr fun i hi => update_of_ne (ne_of_mem_of_not_mem hi ht) _ _
  · simp only [h.left, length_cons, ofNat_add]
    exact BitVec.add_sub_cancel _ _

theorem Represents.id_ne (h : Represents k (l ++ b :: m) pool) (hx : x ∈ l ++ m) : x.id ≠ b.id := by
  intro hxb
  have hnodup := h.lists.nodup
  rw [map_append, map_cons, nodup_middle, ← map_append] at hnodup
  exact (nodup_cons.mp hnodup).1 (hxb ▸ mem_map_of_mem hx)

theorem mem_of_mem_append (hx : x ∈ l ++ m) : x ∈ l ++ b :: m := by
  simp only [mem_append, mem_cons] at hx ⊢
  exact hx.imp_right Or.inr

theorem represents_insert (d b' : Block ChunkId) (h : Represents k (l ++ b :: m) pool)
    (hd : d.id ∉ (l ++ b :: m).map Block.id ++ pool) (hid : b'.id = b.id)
    (hlists : k'.byAddr.Lists (L.map Block.id)) (hperm : L.Perm (d :: b' :: (l ++ m)))
    (haddr : k'.addr = update (update k.addr d.id (word d)) b.id (word b'))
    (hsize : k'.size = update (update k.size d.id (BitVec.ofNat 64 d.size)) b.id
      (BitVec.ofNat 64 b'.size))
    (hnext : k'.next = k.next) (hanchor : k'.freeChunkAnchor = k.freeChunkAnchor)
    (hleft : k'.chunksLeft = k.chunksLeft) : Represents k' L pool := by
  have hdb : d.id ≠ b.id := fun hdb => hd (by simp [hdb])
  have hne : ∀ x ∈ l ++ m, x.id ≠ d.id := fun x hx hxd =>
    hd (mem_append_left _ (hxd ▸ mem_map_of_mem (mem_of_mem_append hx)))
  have hmem : ∀ x ∈ L, x = d ∨ x = b' ∨ x ∈ l ++ m := fun x hx => by
    simpa only [mem_cons] using hperm.mem_iff.mp hx
  have hfield : ∀ (f : ChunkId → BitVec 64) (val : Block ChunkId → BitVec 64),
      (∀ x ∈ l ++ b :: m, f x.id = val x) →
        ∀ x ∈ L, update (update f d.id (val d)) b.id (val b') x.id = val x := by
    intro f val hf x hx
    rcases hmem x hx with rfl | rfl | hlm
    · rw [update_of_ne hdb, update_self]
    · rw [hid, update_self]
    · rw [update_of_ne (h.id_ne hlm), update_of_ne (hne x hlm)]
      exact hf x (mem_of_mem_append hlm)
  refine ⟨hlists, haddr ▸ hfield _ _ h.addr, hsize ▸ hfield _ _ h.size, ?_, ?_,
    hleft.trans h.left⟩
  · rw [hnext, hanchor]
    exact h.spare
  · have hids : ((d :: b' :: (l ++ m)).map Block.id).Perm
        (d.id :: (l ++ b :: m).map Block.id) := by
      rw [map_cons, map_cons, hid, map_append, map_append, map_cons]
      exact Perm.cons _ perm_middle.symm
    refine (((hperm.map Block.id).trans hids).append_right pool).nodup_iff.mpr ?_
    rw [List.cons_append, nodup_cons]
    exact ⟨hd, h.nodup⟩

theorem represents_absorb (h : Represents k (l ++ b :: d :: m) pool) :
    Represents (k.absorb b.id d.id) (l ++ { b with size := b.size + d.size } :: m)
      (d.id :: pool) := by
  have hbne : ∀ x ∈ l ++ m, x.id ≠ b.id := fun x hx => h.id_ne (mem_of_mem_append hx)
  have haddr : ∀ x ∈ l ++ m, k.addr x.id = word x := fun x hx =>
    h.addr x (mem_of_mem_append (mem_of_mem_append hx))
  have hsize : ∀ x ∈ l ++ m, k.size x.id = BitVec.ofNat 64 x.size := fun x hx =>
    h.size x (mem_of_mem_append (mem_of_mem_append hx))
  have hb : k.addr b.id = word b ∧ k.size b.id = BitVec.ofNat 64 b.size :=
    ⟨h.addr b (by simp), h.size b (by simp)⟩
  have hd : k.size d.id = BitVec.ofNat 64 d.size := h.size d (by simp)
  have hsplit : l ++ b :: d :: m = (l ++ [b]) ++ d :: m := by simp
  rw [hsplit] at h
  have hdb : b.id ≠ d.id := h.id_ne (by simp)
  have hdne : ∀ x ∈ l ++ m, x.id ≠ d.id := fun x hx => h.id_ne (by
    simp only [mem_append] at hx ⊢
    tauto)
  have hids : (l ++ { b with size := b.size + d.size } :: m).map Block.id =
      (l ++ [b]).map Block.id ++ m.map Block.id := by simp
  have hlists := h.lists
  have hnodup := h.nodup
  rw [map_append, map_cons] at hlists
  rw [map_append, map_cons, List.append_assoc, List.cons_append, nodup_middle,
    nodup_cons, ← List.append_assoc, ← hids] at hnodup
  have hmem : ∀ x ∈ l ++ { b with size := b.size + d.size } :: m,
      x = { b with size := b.size + d.size } ∨ x ∈ l ++ m := fun x hx => by
    simp only [mem_append, mem_cons] at hx ⊢
    tauto
  have hmerged : Represents ((((k.setSize b.id (k.size b.id + k.size d.id)).setAddr d.id
      0#64).setSize d.id 0#64).deQByAddr d.id)
      (l ++ { b with size := b.size + d.size } :: m) pool := by
    refine ⟨hids ▸ hlists.remove, ?_, ?_, h.spare, hnodup.2, h.left⟩
    · intro x hx
      simp only [deQByAddr, setSize, setAddr]
      rcases hmem x hx with rfl | hlm
      · exact (update_of_ne hdb _ _).trans hb.1
      · rw [update_of_ne (hdne x hlm), haddr x hlm]
    · intro x hx
      simp only [deQByAddr, setSize, setAddr]
      rcases hmem x hx with rfl | hlm
      · rw [update_of_ne hdb, update_self, hb.2, hd, ofNat_add]
      · rw [update_of_ne (hdne x hlm), update_of_ne (hbne x hlm), hsize x hlm]
  exact represents_push hmerged hnodup.1

end Lists

abbrev At (k : Chunks) (c : Cursor ChunkId) : Prop := Represents k c.blocks c.spare

section Combine

variable {k : Chunks} {c : Cursor ChunkId}

theorem prev_here (h : At k c) : k.byAddr.prev c.here.id = c.before.head?.map Block.id := by
  have hlists := h.lists
  rw [Cursor.blocks, map_append, map_cons] at hlists
  rw [hlists.prev_eq]
  simp

theorem next_here (h : At k c) : k.byAddr.next c.here.id = c.after.head?.map Block.id := by
  have hlists := h.lists
  rw [Cursor.blocks, map_append, map_cons] at hlists
  rw [hlists.next_eq]
  simp

theorem combinePrev_at (h : At k c) (hfits : ∀ b ∈ c.blocks, Fits b) :
    At (k.combinePrev c.here.id).1 c.mergeBefore ∧
      (k.combinePrev c.here.id).2 = c.mergeBefore.here.id := by
  have hprev := prev_here h
  rcases c with ⟨before, here, after, spare⟩
  cases before with
  | nil =>
    have hnone : k.byAddr.prev here.id = none := hprev
    simp only [combinePrev, hnone, Cursor.mergeBefore]
    exact ⟨h, trivial⟩
  | cons p before =>
    have hsome : k.byAddr.prev here.id = some p.id := hprev
    have hp : p ∈ Cursor.blocks ⟨p :: before, here, after, spare⟩ := by simp [Cursor.blocks]
    have hhere : here ∈ Cursor.blocks ⟨p :: before, here, after, spare⟩ := by
      simp [Cursor.blocks]
    simp only [combinePrev, hsome, isFree_eq h hhere (hfits _ hhere),
      isFree_eq h hp (hfits _ hp), Cursor.mergeBefore, eq_comm (a := p.free)]
    split
    · refine ⟨?_, rfl⟩
      have hsame : Cursor.blocks ⟨p :: before, here, after, spare⟩ =
          before.reverse ++ p :: here :: after := by simp [Cursor.blocks]
      exact represents_absorb (hsame ▸ h)
    · exact ⟨h, rfl⟩

theorem combineNext_at (h : At k c) (hfits : ∀ b ∈ c.blocks, Fits b) :
    At (k.combineNext c.here.id c.here.free) c.mergeAfter := by
  have hnext := next_here h
  rcases c with ⟨before, here, after, spare⟩
  cases after with
  | nil =>
    have hnone : k.byAddr.next here.id = none := hnext
    simp only [combineNext, hnone, Cursor.mergeAfter]
    exact h
  | cons n after =>
    have hsome : k.byAddr.next here.id = some n.id := hnext
    have hn : n ∈ Cursor.blocks ⟨before, here, n :: after, spare⟩ := by simp [Cursor.blocks]
    simp only [combineNext, hsome, isFree_eq h hn (hfits _ hn), Cursor.mergeAfter,
      eq_comm (a := n.free)]
    split
    · exact represents_absorb h
    · exact h

variable {r : Region}

theorem fits_of_tiles {L : List (Block ChunkId)} (h : Tiles 4096 r.start L r.limit) :
    ∀ b ∈ L, Fits b := by
  intro b hb
  obtain ⟨-, hlimit, hpos, hsize, hbase⟩ := h.mem hb
  have hstart := r.dvd_start
  have hlast := r.dvd_size
  have hlt := r.lt
  rw [Region.limit] at hlimit
  exact ⟨hbase (by omega), hsize, hpos, by omega⟩

theorem combineNeighbors_at (h : At k c) (htiles : Tiles 4096 r.start c.blocks r.limit) :
    At (k.combineNeighbors c.here.id).1 c.combine ∧
      (k.combineNeighbors c.here.id).2 = c.combine.here.id := by
  have hhere : c.here ∈ c.blocks := by simp [Cursor.blocks]
  obtain ⟨hprev, hid⟩ := combinePrev_at h (fits_of_tiles htiles)
  have hnext := combineNext_at hprev (fits_of_tiles (refits_mergeBefore htiles).tiles)
  simp only [combineNeighbors, isFree_eq h hhere (fits_of_tiles htiles _ hhere), hid]
  rw [mergeBefore_free] at hnext
  exact ⟨hnext, (mergeAfter_here_id _).symm⟩

end Combine

section Split

variable {k k' : Chunks} {c : Cursor ChunkId} {addr : Addr} {rbytes : BitVec 64}

section

variable {t : ChunkId} {pool : List ChunkId} (h : Represents k c.blocks pool)
  (ht : t ∉ c.blocks.map Block.id ++ pool)
include h ht

theorem lists_here :
    k.byAddr.Lists (c.before.reverse.map Block.id ++ c.here.id :: c.after.map Block.id) ∧
      t ∉ c.before.reverse.map Block.id ++ c.here.id :: c.after.map Block.id := by
  have hlists := h.lists
  have htl := fun hmem => ht (mem_append_left pool hmem)
  rw [Cursor.blocks, map_append, map_cons] at hlists htl
  exact ⟨hlists, htl⟩

theorem represents_splitFront {a : Nat} (ha : a < c.here.limit) (hlimit : c.here.limit < 2 ^ 64)
    (hk' : k' = enQByAddrBefore
      { k with
        addr := update (update k.addr t (word c.here)) c.here.id (BitVec.ofNat 64 (a + v.toNat))
        size := update (update k.size t (BitVec.ofNat 64 (a - c.here.base))) c.here.id
          (BitVec.ofNat 64 c.here.size - BitVec.ofNat 64 (a - c.here.base)) } t c.here.id) :
    Represents k' (c.before.reverse ++ ⟨t, c.here.base, a - c.here.base, c.here.free⟩ ::
      ⟨c.here.id, a, c.here.size - (a - c.here.base), v⟩ :: c.after) pool := by
  rw [Block.limit] at ha hlimit
  rw [ofNat_sub_ofNat_of_le _ _ (by omega) (by omega)] at hk'
  subst hk'
  refine represents_insert ⟨t, c.here.base, a - c.here.base, c.here.free⟩
    ⟨c.here.id, a, c.here.size - (a - c.here.base), v⟩ h ht rfl ?_ ?_ rfl rfl rfl rfl rfl
  · obtain ⟨hlists, htl⟩ := lists_here h ht
    rw [map_append, map_cons, map_cons]
    exact hlists.insertBefore htl
  · exact perm_middle.trans (Perm.cons _ perm_middle)

theorem represents_splitBack (len : Nat)
    (hk' : k' = enQByAddrAfter
      { k with
        addr := update k.addr t (BitVec.ofNat 64 (c.here.base + len + v.toNat))
        size := update (update k.size t (BitVec.ofNat 64 (c.here.size - len))) c.here.id
          (BitVec.ofNat 64 len) } t c.here.id) :
    Represents k' (c.before.reverse ++ { c.here with size := len } ::
      ⟨t, c.here.base + len, c.here.size - len, v⟩ :: c.after) pool := by
  subst hk'
  have hne : c.here.id ≠ t := fun hne => ht (by simp [Cursor.blocks, hne])
  refine represents_insert ⟨t, c.here.base + len, c.here.size - len, v⟩
    { c.here with size := len } h ht rfl ?_ ?_ ?_ rfl rfl rfl rfl
  · obtain ⟨hlists, htl⟩ := lists_here h ht
    rw [map_append, map_cons, map_cons]
    exact hlists.insertAfter htl
  · refine perm_middle.trans ((Perm.cons _ perm_middle).trans ?_)
    exact Perm.swap _ _ _
  · have haddr : k.addr c.here.id = word { c.here with size := len } :=
      h.addr c.here (by simp [Cursor.blocks])
    rw [← haddr, ← update_of_ne hne (word ⟨t, c.here.base + len, c.here.size - len, v⟩) k.addr,
      update_eq_self]
    rfl

end

theorem rel_pop {R : Chunks → Cursor ChunkId → Prop} {f : ChunkId × Chunks → Chunks}
    {o : Option (Cursor ChunkId)} (h : At k c) (hnil : c.spare = [] → o = none)
    (hcons : ∀ k' t spare, c.spare = t :: spare → Represents k' c.blocks spare →
      t ∉ c.blocks.map Block.id ++ spare → c.here.id ≠ t → k'.addr c.here.id = word c.here →
      k'.size c.here.id = BitVec.ofNat 64 c.here.size → ∃ c', o = some c' ∧ R (f (t, k')) c') :
    Option.Rel R (k.popFreeChunk.map f) o := by
  cases hspare : c.spare with
  | nil =>
    rw [At, hspare] at h
    rw [popFreeChunk_nil h, hnil hspare]
    exact Option.Rel.none
  | cons t spare =>
    rw [At, hspare] at h
    obtain ⟨k', hpop, h', ht⟩ := popFreeChunk_cons h
    have hmem : c.here ∈ c.blocks := by simp [Cursor.blocks]
    obtain ⟨c', ho, hR⟩ := hcons k' t spare hspare h' ht
      (fun hne => ht (mem_append_left _ (hne ▸ mem_map_of_mem hmem))) (h'.addr _ hmem)
      (h'.size _ hmem)
    rw [hpop, ho]
    exact Option.Rel.some hR

theorem freeFront_at (h : At k c) (hlimit : c.here.limit < 2 ^ 64) (hbusy : c.here.free = false)
    (hlo : c.here.base < addr.toNat) (hhi : addr.toNat < c.here.limit) :
    Option.Rel At (k.freeFront c.here.id addr) (c.splitFront addr.toNat) := by
  refine rel_pop h (fun hnil => by rw [splitFront, hnil]) ?_
  intro k' t spare hspare h' ht hne haddr hsize
  refine ⟨_, splitFront_of_spare addr.toNat hspare, ?_⟩
  have hword : word c.here = BitVec.ofNat 64 c.here.base := by simp [word, hbusy]
  have hsplit := represents_splitFront (v := c.here.free) h' ht hhi hlimit rfl
  rw [Block.limit] at hhi hlimit
  have hfront : addr - word c.here = BitVec.ofNat 64 (addr.toNat - c.here.base) := by
    bv_omega
  have hmoved : word c.here + BitVec.ofNat 64 (addr.toNat - c.here.base) =
      BitVec.ofNat 64 (addr.toNat + c.here.free.toNat) := by
    rw [hbusy, hword]
    bv_omega
  simp only [setAddr, setSize, update_self, update_of_ne hne, haddr, hsize, hfront, hmoved]
  simpa [Cursor.blocks, At] using hsplit

/-- A fixed allocation clears the flag of the chunk when it moves its start. -/
theorem fixedFront_at (h : At k c) (hfits : Fits c.here) (hlo : c.here.base < addr.toNat)
    (hhi : addr.toNat < c.here.limit) :
    Option.Rel (fun k' c' => At k' (c'.mark false)) (k.fixedFront c.here.id addr)
      (c.splitFront addr.toNat) := by
  refine rel_pop h (fun hnil => by rw [splitFront, hnil]) ?_
  intro k' t spare hspare h' ht hne haddr hsize
  refine ⟨_, splitFront_of_spare addr.toNat hspare, ?_⟩
  have hsplit := represents_splitFront (v := false) h' ht hhi hfits.limit_lt rfl
  have hlimit := hfits.limit_le
  rw [Block.limit] at hhi hlimit
  have hfront : addr - BitVec.ofNat 64 c.here.base =
      BitVec.ofNat 64 (addr.toNat - c.here.base) := by
    bv_omega
  simp only [cbase, setAddr, setSize, update_self, update_of_ne hne, haddr,
    hsize, word_and_not hfits, hfront]
  simpa [Cursor.blocks, At, Cursor.mark] using hsplit

theorem freeEnd_at (h : At k c) (hlimit : c.here.limit < 2 ^ 64)
    (hlen : rbytes.toNat ≤ c.here.size) :
    Option.Rel At (k.freeEnd c.here.id rbytes) (c.splitBack rbytes.toNat) := by
  refine rel_pop h (fun hnil => by rw [splitBack, hnil]) ?_
  intro k' t spare hspare h' ht hne haddr hsize
  refine ⟨_, splitBack_of_spare rbytes.toNat hspare, ?_⟩
  rw [Block.limit] at hlimit
  have hback : word c.here + rbytes =
      BitVec.ofNat 64 (c.here.base + rbytes.toNat + c.here.free.toNat) := by
    rw [word]
    bv_omega
  have hrest : BitVec.ofNat 64 c.here.size - rbytes =
      BitVec.ofNat 64 (c.here.size - rbytes.toNat) := by
    bv_omega
  have hcut : BitVec.ofNat 64 c.here.size - BitVec.ofNat 64 (c.here.size - rbytes.toNat) =
      BitVec.ofNat 64 rbytes.toNat := by
    bv_omega
  have hsplit := represents_splitBack (v := c.here.free) h' ht rbytes.toNat rfl
  simp only [setAddr, setSize, update_self, update_of_ne hne, haddr, hsize, hback, hrest, hcut]
  simpa [Cursor.blocks, At] using hsplit

end Split

end BgqDriver.MmapSimulation
