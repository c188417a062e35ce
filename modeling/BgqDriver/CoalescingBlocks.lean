import Mathlib.Data.List.Chain
import Mathlib.Algebra.Order.Group.Nat

/-!
Blocks that tile an interval of addresses, each free or in use, where neighbours in
the same state are merged. Every block has a descriptor, and the descriptors not in
use are spare. A cursor is a block with what stands before and after it.
-/

namespace BgqDriver.CoalescingBlocks

open List

variable {ι : Type*}

structure Block (ι : Type*) where
  id : ι
  base : Nat
  size : Nat
  free : Bool
  deriving DecidableEq

open Block

def Block.limit (b : Block ι) : Nat := b.base + b.size

/-- The blocks follow one another over the interval, none empty, in units of `u`. -/
def Tiles (u : Nat) : Nat → List (Block ι) → Nat → Prop
  | s, [], e => s = e
  | s, b :: L, e => b.base = s ∧ 0 < b.size ∧ u ∣ b.size ∧ Tiles u b.limit L e

def Differ (b c : Block ι) : Prop := b.free ≠ c.free

/-- No two neighbours are both free or both in use. -/
def Alternates (L : List (Block ι)) : Prop := L.IsChain Differ

/-- A block in state `v` contains `x`. -/
def Covers (L : List (Block ι)) (v : Bool) (x : Nat) : Prop :=
  ∃ b ∈ L, b.free = v ∧ b.base ≤ x ∧ x < b.limit

variable {u s e m x : Nat} {v : Bool} {L M : List (Block ι)} {b p : Block ι}

theorem tiles_append : Tiles u s (L ++ M) e ↔ ∃ m, Tiles u s L m ∧ Tiles u m M e := by
  induction L generalizing s with
  | nil => simp [Tiles]
  | cons b L ih =>
    simp only [cons_append, Tiles, ih]
    constructor
    · rintro ⟨hb, hpos, hu, m, hL, hM⟩
      exact ⟨m, ⟨hb, hpos, hu, hL⟩, hM⟩
    · rintro ⟨m, ⟨hb, hpos, hu, hL⟩, hM⟩
      exact ⟨hb, hpos, hu, m, hL, hM⟩

theorem Tiles.le (h : Tiles u s L e) : s ≤ e := by
  induction L generalizing s with
  | nil => exact Nat.le_of_eq h
  | cons b L ih =>
    obtain ⟨hb, -, -, hL⟩ := h
    have hle := ih hL
    rw [limit] at hle
    omega

theorem Tiles.mem (h : Tiles u s L e) (hb : b ∈ L) :
    s ≤ b.base ∧ b.limit ≤ e ∧ 0 < b.size ∧ u ∣ b.size ∧ (u ∣ s → u ∣ b.base) := by
  obtain ⟨M, N, rfl⟩ := append_of_mem hb
  obtain ⟨m, hM, rfl, hpos, hu, hN⟩ := tiles_append.mp h
  refine ⟨hM.le, hN.le, hpos, hu, ?_⟩
  intro hs
  clear h hN hb
  induction M generalizing s with
  | nil => exact hM ▸ hs
  | cons c M ih =>
    obtain ⟨rfl, -, hc, hM⟩ := hM
    exact ih hM ((Nat.dvd_add_iff_right hs).mp hc)

theorem Tiles.pairwise_base (h : Tiles u s L e) : L.Pairwise fun b d => b.base < d.base := by
  induction L generalizing s with
  | nil => exact Pairwise.nil
  | cons b L ih =>
    obtain ⟨-, hpos, -, hL⟩ := h
    refine pairwise_cons.mpr ⟨?_, ih hL⟩
    intro d hd
    have hle := (hL.mem hd).1
    rw [limit] at hle
    omega

theorem covers_append : Covers (L ++ M) v x ↔ Covers L v x ∨ Covers M v x := by
  simp [Covers, or_and_right, exists_or]

theorem covers_cons : Covers (b :: L) v x ↔ (b.free = v ∧ b.base ≤ x ∧ x < b.limit) ∨
    Covers L v x := by
  simp [Covers]

section

variable (h : Tiles u s L e)
include h

theorem Covers.bounds (hc : Covers L v x) : s ≤ x ∧ x < e := by
  obtain ⟨b, hb, -, hle, hlt⟩ := hc
  have hmem := h.mem hb
  omega

theorem Tiles.exists_covers (hs : s ≤ x) (he : x < e) : ∃ v, Covers L v x := by
  induction L generalizing s with
  | nil =>
    have hse : s = e := h
    omega
  | cons b L ih =>
    obtain ⟨rfl, -, -, hL⟩ := h
    rcases Nat.lt_or_ge x b.limit with hlt | hge
    · exact ⟨b.free, covers_cons.mpr (.inl ⟨rfl, hs, hlt⟩)⟩
    · obtain ⟨v, hv⟩ := ih hL hge
      exact ⟨v, covers_cons.mpr (.inr hv)⟩

theorem Tiles.eq_of_mem {c : Block ι} (hb : b ∈ L) (hc : c ∈ L)
    (hbx : b.base ≤ x ∧ x < b.limit) (hcx : c.base ≤ x ∧ x < c.limit) : b = c := by
  induction L generalizing s with
  | nil => cases hb
  | cons d L ih =>
    obtain ⟨rfl, -, -, hL⟩ := h
    rcases mem_cons.mp hb with rfl | hb'
    · rcases mem_cons.mp hc with rfl | hc'
      · rfl
      · have := (hL.mem hc').1
        omega
    · rcases mem_cons.mp hc with rfl | hc'
      · have := (hL.mem hb').1
        omega
      · exact ih hL hb' hc'

theorem Tiles.covers_unique {w : Bool} (hv : Covers L v x) (hw : Covers L w x) : v = w := by
  obtain ⟨b, hb, rfl, hbx⟩ := hv
  obtain ⟨c, hc, rfl, hcx⟩ := hw
  rw [h.eq_of_mem hb hc hbx hcx]

end

structure Releasable (u : Nat) (b : Block ι) (len addr : Nat) : Prop where
  base_le : b.base ≤ addr
  le_limit : addr + len ≤ b.limit
  pos : 0 < len
  dvd_len : u ∣ len
  dvd_addr : u ∣ addr - b.base

variable {addr len : Nat}

theorem releasable_iff : Releasable u b len addr ↔
    b.base ≤ addr ∧ addr + len ≤ b.limit ∧ 0 < len ∧ u ∣ len ∧ u ∣ addr - b.base :=
  ⟨fun h => ⟨h.base_le, h.le_limit, h.pos, h.dvd_len, h.dvd_addr⟩,
    fun ⟨hbase, hlimit, hpos, hlen, haddr⟩ => ⟨hbase, hlimit, hpos, hlen, haddr⟩⟩

instance (len addr : Nat) : Decidable (Releasable u b len addr) :=
  decidable_of_iff _ releasable_iff.symm

structure Cursor (ι : Type*) where
  before : List (Block ι)
  here : Block ι
  after : List (Block ι)
  spare : List ι

variable {R : Nat → Prop} {before : List (Block ι)} {c' c1 : Cursor ι} {d : Block ι}
  {spare : List ι} {t : ι}

namespace Cursor

variable {c : Cursor ι}

def blocks (c : Cursor ι) : List (Block ι) := c.before.reverse ++ c.here :: c.after

def descriptors (c : Cursor ι) : List ι := c.blocks.map Block.id ++ c.spare

def mergeBefore (c : Cursor ι) : Cursor ι :=
  match c.before with
  | [] => c
  | p :: before =>
    if p.free = c.here.free then
      { before := before
        here := { p with size := p.size + c.here.size }
        after := c.after
        spare := c.here.id :: c.spare }
    else c

def mergeAfter (c : Cursor ι) : Cursor ι :=
  match c.after with
  | [] => c
  | n :: after =>
    if n.free = c.here.free then
      { before := c.before
        here := { c.here with size := c.here.size + n.size }
        after := after
        spare := n.id :: c.spare }
    else c

def combine (c : Cursor ι) : Cursor ι := c.mergeBefore.mergeAfter

/-- Give the part below an address a block of its own; `none` without a descriptor. -/
def splitFront (c : Cursor ι) (addr : Nat) : Option (Cursor ι) :=
  match c.spare with
  | [] => none
  | t :: spare => some
      { before := ⟨t, c.here.base, addr - c.here.base, c.here.free⟩ :: c.before
        here := { c.here with base := addr, size := c.here.size - (addr - c.here.base) }
        after := c.after
        spare := spare }

/-- Give the part behind a length a block of its own; `none` without a descriptor. -/
def splitBack (c : Cursor ι) (len : Nat) : Option (Cursor ι) :=
  match c.spare with
  | [] => none
  | t :: spare => some
      { before := c.before
        here := { c.here with size := len }
        after := ⟨t, c.here.base + len, c.here.size - len, c.here.free⟩ :: c.after
        spare := spare }

theorem splitFront_of_spare (addr : Nat) (h : c.spare = t :: spare) : c.splitFront addr = some
      { before := ⟨t, c.here.base, addr - c.here.base, c.here.free⟩ :: c.before
        here := { c.here with base := addr, size := c.here.size - (addr - c.here.base) }
        after := c.after
        spare := spare } := by
  rw [splitFront, h]

theorem splitBack_of_spare (len : Nat) (h : c.spare = t :: spare) : c.splitBack len = some
      { before := c.before
        here := { c.here with size := len }
        after := ⟨t, c.here.base + len, c.here.size - len, c.here.free⟩ :: c.after
        spare := spare } := by
  rw [splitBack, h]

def mark (c : Cursor ι) (v : Bool) : Cursor ι := { c with here := { c.here with free := v } }

theorem mark_eq_self (h : c.here.free = v) : c.mark v = c := by
  subst h
  rfl

theorem blocks_mk (before after : List (Block ι)) (here : Block ι) (spare : List ι) :
    blocks ⟨before, here, after, spare⟩ = before.reverse ++ here :: after := rfl

theorem alternates_blocks : Alternates c.blocks ↔
    Alternates (c.here :: c.before) ∧ Alternates (c.here :: c.after) := by
  have hsymm : (fun a b : Block ι => Differ b a) = Differ := by
    funext a b
    exact propext ne_comm
  rw [Alternates, blocks, isChain_split, ← reverse_cons, isChain_reverse, hsymm]
  rfl

theorem alternates_congr (h : Alternates (b :: L)) (hfree : d.free = b.free) :
    Alternates (d :: L) := by
  simpa only [Alternates, isChain_cons, Differ, hfree] using h

theorem tiles_blocks : Tiles u s c.blocks e ↔ Tiles u s c.before.reverse c.here.base ∧
    0 < c.here.size ∧ u ∣ c.here.size ∧ Tiles u c.here.limit c.after e := by
  rw [blocks, tiles_append]
  constructor
  · rintro ⟨m, hb, rfl, h⟩
    exact ⟨hb, h⟩
  · rintro ⟨hb, h⟩
    exact ⟨c.here.base, hb, rfl, h⟩

theorem exists_cursor (hb : b ∈ L) (spare : List ι) :
    ∃ c : Cursor ι, c.blocks = L ∧ c.here = b ∧ c.spare = spare := by
  obtain ⟨l, l', rfl⟩ := append_of_mem hb
  exact ⟨⟨l.reverse, b, l', spare⟩, by simp [blocks], rfl, rfl⟩

theorem covers_limit (h : Tiles u s c.blocks e) (halt : Alternates c.blocks)
    (hlt : c.here.limit < e) : Covers c.blocks (!c.here.free) c.here.limit := by
  obtain ⟨-, -, -, hafter⟩ := tiles_blocks.mp h
  obtain ⟨-, hdiffer⟩ := alternates_blocks.mp halt
  cases hnext : c.after with
  | nil =>
    rw [hnext] at hafter
    exact absurd hafter hlt.ne
  | cons n after =>
    rw [hnext] at hafter hdiffer
    obtain ⟨hbase, hpos, -, -⟩ := hafter
    have hfree : c.here.free ≠ n.free := isChain_cons_cons.mp hdiffer |>.1
    refine ⟨n, by simp [blocks, hnext], ?_, Nat.le_of_eq hbase, ?_⟩
    · cases hc : c.here.free <;> cases hn : n.free <;> simp_all
    · rw [← hbase, limit]
      omega

theorem covers_base_sub (h : Tiles u s c.blocks e) (halt : Alternates c.blocks) (hu : 0 < u)
    (hlt : s < c.here.base) : Covers c.blocks (!c.here.free) (c.here.base - u) := by
  obtain ⟨hbefore, -, -, -⟩ := tiles_blocks.mp h
  obtain ⟨hdiffer, -⟩ := alternates_blocks.mp halt
  cases hprev : c.before with
  | nil =>
    rw [hprev] at hbefore
    exact absurd hbefore hlt.ne
  | cons p before =>
    rw [hprev] at hbefore hdiffer
    rw [reverse_cons] at hbefore
    obtain ⟨m, -, rfl, hpos, hdvd, hlimit⟩ := tiles_append.mp hbefore
    have hlimit : p.limit = c.here.base := hlimit
    have hle := Nat.le_of_dvd hpos hdvd
    have hfree : c.here.free ≠ p.free := isChain_cons_cons.mp hdiffer |>.1
    rw [limit] at hlimit
    refine ⟨p, by simp [blocks, hprev], ?_, by omega, ?_⟩
    · cases hc : c.here.free <;> cases hp : p.free <;> simp_all
    · rw [limit]
      omega

theorem covers_blocks : Covers c.blocks v x ↔ Covers c.before v x ∨
    (c.here.free = v ∧ c.here.base ≤ x ∧ x < c.here.limit) ∨ Covers c.after v x := by
  rw [blocks, covers_append, covers_cons]
  simp [Covers]

/-- Other blocks for the same tiling: every address keeps its state, and no
descriptor is lost. -/
structure Refits (u s e : Nat) (c c' : Cursor ι) : Prop where
  tiles : Tiles u s c'.blocks e
  covers : ∀ v x, Covers c'.blocks v x ↔ Covers c.blocks v x
  perm : c'.descriptors.Perm c.descriptors

theorem Refits.refl (h : Tiles u s c.blocks e) : Refits u s e c c :=
  ⟨h, fun _ _ => Iff.rfl, List.Perm.refl _⟩

theorem Refits.trans {c2 c3 : Cursor ι} (h : Refits u s e c1 c2) (h' : Refits u s e c2 c3) :
    Refits u s e c1 c3 :=
  ⟨h'.tiles, fun v x => (h'.covers v x).trans (h.covers v x), h'.perm.trans h.perm⟩

theorem Refits.cons_spare (h : Refits u s e c c') (n : ι) :
    Refits u s e { c with spare := n :: c.spare } { c' with spare := n :: c'.spare } :=
  ⟨h.tiles, h.covers, perm_middle.trans ((h.perm.cons n).trans perm_middle.symm)⟩

theorem refits_merge {after : List (Block ι)} (spare : List ι)
    (h : Tiles u s (before.reverse ++ b :: d :: after) e) (hfree : b.free = d.free) :
    Refits u s e ⟨before, b, d :: after, spare⟩
      ⟨before, { b with size := b.size + d.size }, after, d.id :: spare⟩ := by
  obtain ⟨m, hbefore, rfl, hb, hub, hd, hd', hud, hafter⟩ := tiles_append.mp h
  constructor
  · rw [blocks_mk, tiles_append]
    refine ⟨b.base, hbefore, rfl, ?_, Nat.dvd_add hub hud, ?_⟩
    · simp only
      omega
    · have hlimit : d.limit = limit { b with size := b.size + d.size } := by
        simp only [limit] at hd ⊢
        omega
      rwa [← hlimit]
  · intro v x
    simp only [covers_blocks, covers_cons]
    have hx : (b.base ≤ x ∧ x < limit { b with size := b.size + d.size }) ↔
        (b.base ≤ x ∧ x < b.limit) ∨ (d.base ≤ x ∧ x < d.limit) := by
      simp only [limit] at hd ⊢
      omega
    grind
  · simp only [descriptors, blocks_mk, map_append, map_cons, append_assoc, cons_append]
    refine Perm.append_left _ (Perm.cons _ ?_)
    exact perm_middle

section

variable (h : Tiles u s c.blocks e)
include h

theorem refits_mergeAfter : Refits u s e c c.mergeAfter := by
  fun_cases mergeAfter c with
  | case1 | case3 => exact Refits.refl h
  | case2 n after hafter hfree =>
    rcases c with ⟨before, here, _, spare⟩
    cases hafter
    exact refits_merge spare h hfree.symm

theorem refits_mergeBefore : Refits u s e c c.mergeBefore := by
  fun_cases mergeBefore c with
  | case1 | case3 => exact Refits.refl h
  | case2 p before hbefore hfree =>
    rcases c with ⟨_, here, after, spare⟩
    cases hbefore
    have hsame : blocks ⟨before, p, here :: after, spare⟩ =
        blocks ⟨p :: before, here, after, spare⟩ := by
      simp [blocks_mk]
    have hmerge := refits_merge spare (hsame ▸ h) hfree
    refine ⟨hmerge.tiles, ?_, ?_⟩
    · rw [← hsame]
      exact hmerge.covers
    · exact hmerge.perm.trans (Perm.of_eq
        (congrArg (fun L => L.map Block.id ++ spare) hsame))

theorem refits_combine : Refits u s e c c.combine :=
  (refits_mergeBefore h).trans (refits_mergeAfter (refits_mergeBefore h).tiles)

theorem limit_le_combine : c.here.limit ≤ c.combine.here.limit := by
  have hbefore : c.here.limit ≤ c.mergeBefore.here.limit := by
    fun_cases mergeBefore c with
    | case1 | case3 => exact Nat.le_refl _
    | case2 p before hbefore =>
      simp only [blocks, hbefore, reverse_cons, append_assoc, cons_append, nil_append] at h
      obtain ⟨m, -, -, -, -, hbase, -⟩ := tiles_append.mp h
      simp only [limit] at hbase ⊢
      omega
  refine hbefore.trans ?_
  rw [combine]
  fun_cases mergeAfter c.mergeBefore with
  | case1 | case3 => exact Nat.le_refl _
  | case2 =>
    simp only [limit]
    omega

end

theorem mergeBefore_after (c : Cursor ι) : c.mergeBefore.after = c.after := by
  fun_cases mergeBefore c <;> rfl

theorem mergeBefore_free (c : Cursor ι) : c.mergeBefore.here.free = c.here.free := by
  fun_cases mergeBefore c with
  | case1 | case3 => rfl
  | case2 _ _ _ hfree => exact hfree

theorem mergeAfter_here_id (c : Cursor ι) : c.mergeAfter.here.id = c.here.id := by
  fun_cases mergeAfter c <;> rfl

theorem combine_after_suffix (c : Cursor ι) : c.combine.after <:+ c.after := by
  rw [combine, ← mergeBefore_after c]
  fun_cases mergeAfter c.mergeBefore with
  | case1 | case3 => exact suffix_rfl
  | case2 n after hafter =>
    rw [hafter]
    exact suffix_cons n after

theorem alternates_combine (hbefore : Alternates c.before) (hafter : Alternates c.after) :
    Alternates c.combine.blocks := by
  have hchain : Alternates (c.mergeBefore.here :: c.mergeBefore.before) := by
    fun_cases mergeBefore c with
    | case1 hnil =>
      rw [hnil]
      exact isChain_singleton _
    | case2 p before hcons =>
      rw [hcons] at hbefore
      exact alternates_congr hbefore rfl
    | case3 p before hcons hfree =>
      refine isChain_cons.mpr ⟨?_, hbefore⟩
      rw [hcons]
      rintro d ⟨⟩
      exact fun h => hfree h.symm
  rw [← mergeBefore_after c] at hafter
  rw [combine, alternates_blocks]
  fun_cases mergeAfter c.mergeBefore with
  | case1 hnil =>
    rw [hnil]
    exact ⟨hchain, isChain_singleton _⟩
  | case2 n after hcons hfree =>
    rw [hcons] at hafter
    exact ⟨alternates_congr hchain rfl, alternates_congr hafter hfree.symm⟩
  | case3 n after hcons hfree =>
    refine ⟨hchain, isChain_cons.mpr ⟨?_, hafter⟩⟩
    rw [hcons]
    rintro d ⟨⟩
    exact fun h => hfree h.symm

theorem Refits.symm (h : Refits u s e c c') (ht : Tiles u s c.blocks e) : Refits u s e c' c :=
  ⟨ht, fun v x => (h.covers v x).symm, h.perm.symm⟩

section

variable (h : Tiles u s c.blocks e)
include h

theorem refits_splitBack (hpos : 0 < len) (hlt : len < c.here.size)
    (hu : u ∣ len) (hsplit : c.splitBack len = some c') : Refits u s e c c' := by
  rcases c with ⟨before, here, after, spare⟩
  cases spare with
  | nil => cases hsplit
  | cons t spare =>
    obtain ⟨⟩ := hsplit
    obtain ⟨hbefore, -, hsize, hafter⟩ := tiles_blocks.mp h
    simp only at hlt
    have htiles : Tiles u s (before.reverse ++ { here with size := len } ::
        ⟨t, here.base + len, here.size - len, here.free⟩ :: after) e := by
      refine tiles_append.mpr ⟨here.base, hbefore, rfl, hpos, hu, rfl, ?_, ?_, ?_⟩
      · simp only
        omega
      · exact Nat.dvd_sub hsize hu
      · have hlimit : here.limit = limit
            ⟨t, here.base + len, here.size - len, here.free⟩ := by
          simp only [limit]
          omega
        rwa [← hlimit]
    have hmerge := refits_merge spare htiles rfl
    simp only [Nat.add_sub_cancel' hlt.le] at hmerge
    exact hmerge.symm htiles

theorem refits_splitFront (hlo : c.here.base < addr)
    (hhi : addr < c.here.limit) (hu : u ∣ addr - c.here.base)
    (hsplit : c.splitFront addr = some c') :
    Refits u s e c c' := by
  rcases c with ⟨before, here, after, spare⟩
  cases spare with
  | nil => cases hsplit
  | cons t spare =>
    obtain ⟨⟩ := hsplit
    obtain ⟨hbefore, -, hsize, hafter⟩ := tiles_blocks.mp h
    simp only [limit] at hlo hhi hu
    have htiles : Tiles u s (before.reverse ++ ⟨t, here.base, addr - here.base, here.free⟩ ::
        { here with base := addr, size := here.size - (addr - here.base) } :: after) e := by
      refine tiles_append.mpr ⟨here.base, hbefore, rfl, ?_, hu, ?_, ?_, ?_, ?_⟩
      · simp only
        omega
      · simp only [limit]
        omega
      · simp only
        omega
      · exact Nat.dvd_sub hsize hu
      · have hlimit : here.limit = limit
            { here with base := addr, size := here.size - (addr - here.base) } := by
          simp only [limit]
          omega
        rwa [← hlimit]
    refine ⟨by simpa [blocks_mk] using htiles, ?_, ?_⟩
    · intro v x
      have hx : (here.base ≤ x ∧ x < here.base + here.size) ↔
          (here.base ≤ x ∧ x < here.base + (addr - here.base)) ∨
            (addr ≤ x ∧ x < addr + (here.size - (addr - here.base))) := by
        omega
      simp only [covers_blocks, covers_cons, limit, hx]
      grind
    · simp only [descriptors, blocks_mk, reverse_cons, map_append, map_cons,
        append_assoc, cons_append, nil_append]
      refine Perm.append_left _ ?_
      exact (Perm.swap here.id t _).trans (Perm.cons _ perm_middle.symm)

theorem covers_mark (v w : Bool) (x : Nat) : Covers (c.mark v).blocks w x ↔
      if c.here.base ≤ x ∧ x < c.here.limit then w = v else Covers c.blocks w x := by
  obtain ⟨hbefore, -, -, hafter⟩ := tiles_blocks.mp h
  have hlimit : (c.mark v).here.limit = c.here.limit := rfl
  rw [covers_blocks, hlimit]
  split
  next hx =>
    have hnotBefore : ¬ Covers c.before w x := by
      intro hcovers
      have hcovers' : Covers c.before.reverse w x := by simpa [Covers] using hcovers
      have hbounds := hcovers'.bounds hbefore
      omega
    have hnotAfter : ¬ Covers c.after w x := by
      intro hcovers
      have hbounds := hcovers.bounds hafter
      omega
    simp only [mark, hnotBefore, hnotAfter, hx]
    grind
  next hx =>
    rw [covers_blocks]
    simp only [mark]
    grind

theorem tiles_mark (v : Bool) : Tiles u s (c.mark v).blocks e :=
  (tiles_blocks (c := c.mark v)).mpr ((tiles_blocks (c := c)).mp h)

end

/-- Free an address range of the block. Without descriptors for the parts that stay
the block keeps its state. -/
def release (c : Cursor ι) (len addr : Nat) : Cursor ι :=
  if len < c.here.size then
    match if c.here.base < addr then c.splitFront addr else some c with
    | none => c.combine
    | some c1 =>
      match if addr + len < c1.here.limit then c1.splitBack len else some c1 with
      | none => c1.combine
      | some c2 => (c2.mark true).combine
  else (c.mark true).combine

def releaseNeeds (c : Cursor ι) (len addr : Nat) : Nat :=
  if len < c.here.size then
    (if c.here.base < addr then 1 else 0) + (if addr + len < c.here.limit then 1 else 0)
  else 0

def Released (c : Cursor ι) (len addr x : Nat) : Prop :=
  c.releaseNeeds len addr ≤ c.spare.length ∧
    if len < c.here.size then addr ≤ x ∧ x < addr + len else c.here.base ≤ x ∧ x < c.here.limit

/-- The state of the addresses `R` has been set to `v`, and nothing else has changed. -/
structure Sets (u s e : Nat) (c c' : Cursor ι) (R : Nat → Prop) (v : Bool) : Prop where
  tiles : Tiles u s c'.blocks e
  alternates : Alternates c'.blocks
  perm : c'.descriptors.Perm c.descriptors
  covers : ∀ w x, Covers c'.blocks w x ↔ (R x ∧ w = v) ∨ (¬ R x ∧ Covers c.blocks w x)

section

variable (h : Refits u s e c c') (hbefore : Alternates c'.before) (hafter : Alternates c'.after)
include h hbefore hafter

theorem Refits.sets_combine (hR : ∀ x, ¬ R x) : Sets u s e c c'.combine R v := by
  have hcombine := h.trans (refits_combine h.tiles)
  refine ⟨hcombine.tiles, alternates_combine hbefore hafter, hcombine.perm, ?_⟩
  intro w x
  simpa [hR x] using hcombine.covers w x

theorem Refits.sets_mark (hR : ∀ x, R x ↔ c'.here.base ≤ x ∧ x < c'.here.limit) :
    Sets u s e c (c'.mark v).combine R v := by
  have hcombine := refits_combine (tiles_mark h.tiles v)
  refine ⟨hcombine.tiles, alternates_combine hbefore hafter, ?_, ?_⟩
  · exact hcombine.perm.trans ((Perm.of_eq (by simp [descriptors, blocks, mark])).trans h.perm)
  · intro w x
    rw [hcombine.covers, covers_mark h.tiles, hR x]
    split
    next hx =>
      simp [hx]
    next hx =>
      simpa [hx] using h.covers w x

end

theorem alternates_tail (h : Alternates (b :: L)) : Alternates L := (isChain_cons.mp h).2

theorem refits_front (h : Tiles u s c.blocks e) (halt : Alternates c.blocks)
    (hbase : c.here.base ≤ addr) (haddr : addr < c.here.limit) (hu : u ∣ addr - c.here.base) :
    ((if c.here.base < addr then c.splitFront addr else some c) = none ∧
        c.spare = [] ∧ c.here.base < addr) ∨
      ∃ c1, (if c.here.base < addr then c.splitFront addr else some c) = some c1 ∧
        Refits u s e c c1 ∧ Alternates c1.before ∧ Alternates (c1.here :: c1.after) ∧
        c1.here.base = addr ∧ c1.here.limit = c.here.limit ∧
        c1.here.id = c.here.id ∧ c1.here.free = c.here.free ∧
        c1.spare.length + (if c.here.base < addr then 1 else 0) = c.spare.length := by
  obtain ⟨hbefore, hafter⟩ := alternates_blocks.mp halt
  split
  next hlt =>
    cases hspare : c.spare with
    | nil => exact .inl ⟨by simp [splitFront, hspare], rfl, hlt⟩
    | cons t spare =>
      have hsplit := splitFront_of_spare addr hspare
      refine .inr ⟨_, hsplit, refits_splitFront h hlt haddr hu hsplit, ?_, ?_, rfl, ?_, rfl, rfl,
        rfl⟩
      · exact alternates_congr hbefore rfl
      · exact alternates_congr hafter rfl
      · simp only [limit] at haddr ⊢
        omega
  next hge =>
    exact .inr ⟨c, rfl, Refits.refl h, alternates_tail hbefore,
      hafter, by omega, rfl, rfl, rfl, rfl⟩

theorem refits_back (h : Tiles u s c.blocks e) (hbefore : Alternates c.before)
    (hafter : Alternates (c.here :: c.after)) (hpos : 0 < len) (hlen : len ≤ c.here.size)
    (hu : u ∣ len) :
    ((if c.here.base + len < c.here.limit then c.splitBack len else some c) = none ∧
        c.spare = [] ∧ c.here.base + len < c.here.limit) ∨
      ∃ c1, (if c.here.base + len < c.here.limit then c.splitBack len else some c) = some c1 ∧
        Refits u s e c c1 ∧ Alternates c1.before ∧ Alternates c1.after ∧
        c1.here.base = c.here.base ∧ c1.here.size = len ∧ c1.here.id = c.here.id ∧
        c1.spare.length + (if c.here.base + len < c.here.limit then 1 else 0) =
          c.spare.length := by
  split
  next hlt =>
    cases hspare : c.spare with
    | nil => exact .inl ⟨by simp [splitBack, hspare], rfl, hlt⟩
    | cons t spare =>
      have hsplit := splitBack_of_spare len hspare
      have hlt' : len < c.here.size := by
        rw [limit] at hlt
        omega
      refine .inr ⟨_, hsplit, refits_splitBack h hpos hlt' hu hsplit, hbefore, ?_, rfl, rfl, rfl,
        rfl⟩
      exact alternates_congr hafter rfl
  next hge =>
    have hsize : c.here.size = len := by
      rw [limit] at hge
      omega
    exact .inr ⟨c, rfl, Refits.refl h, hbefore, alternates_tail hafter, rfl, hsize, rfl, rfl⟩

theorem sets_release (h : Tiles u s c.blocks e) (halt : Alternates c.blocks)
    (hpart : len < c.here.size → Releasable u c.here len addr) :
    Sets u s e c (c.release len addr) (c.Released len addr) true ∧
      (addr < c.here.limit → addr < (c.release len addr).here.limit) := by
  obtain ⟨hbefore, hafter⟩ := alternates_blocks.mp halt
  unfold release
  split
  next hlt =>
    obtain ⟨hbase, hlimit, hpos, hulen, huaddr⟩ := hpart hlt
    rcases refits_front h halt hbase (by omega) huaddr with
      ⟨hnone, hspare, hfront⟩ | ⟨c1, hsome, h1, hbefore1, hafter1, haddr, hlimit1, -, -, hspare1⟩
    · rw [hnone]
      refine ⟨(Refits.refl h).sets_combine (alternates_tail hbefore) (alternates_tail hafter) ?_,
        fun _ => ?_⟩
      · simp [Released, releaseNeeds, hlt, hspare, hfront]
      · exact Nat.lt_of_lt_of_le (by omega) (limit_le_combine h)
    · rw [hsome]
      have hsize1 : len ≤ c1.here.size := by
        rw [← hlimit1, limit, haddr] at hlimit
        omega
      have hneeds : c.releaseNeeds len addr = (if c.here.base < addr then 1 else 0) +
          if addr + len < c1.here.limit then 1 else 0 := by
        rw [releaseNeeds, if_pos hlt, hlimit1]
      simp only [← haddr] at hneeds ⊢
      rcases refits_back h1.tiles hbefore1 hafter1 hpos hsize1 hulen with
        ⟨hnone, hspare, hback⟩ | ⟨c2, hsome, h2, hbefore2, hafter2, haddr2, hsize2, -, hspare2⟩
      · rw [hnone]
        refine ⟨h1.sets_combine hbefore1 (alternates_tail hafter1) ?_, fun _ => ?_⟩
        · rintro x ⟨henough, -⟩
          rw [hneeds, if_pos hback, ← hspare1, hspare, haddr] at henough
          simp only [length_nil] at henough
          omega
        · exact Nat.lt_of_lt_of_le (by omega) (limit_le_combine h1.tiles)
      · rw [hsome]
        refine ⟨(h1.trans h2).sets_mark hbefore2 hafter2 ?_, fun _ => ?_⟩
        · intro x
          have henough : c.releaseNeeds len c1.here.base ≤ c.spare.length := by
            rw [← haddr] at hspare1
            omega
          rw [Released, if_pos hlt, limit, haddr2, hsize2]
          exact and_iff_right henough
        · have hmark : (c2.mark true).here.limit = c1.here.base + len := by
            rw [← haddr2, ← hsize2]
            rfl
          exact Nat.lt_of_lt_of_le (by omega) (limit_le_combine (tiles_mark h2.tiles true))
  next hge =>
    refine ⟨(Refits.refl h).sets_mark (alternates_tail hbefore) (alternates_tail hafter) ?_,
      fun hlt => Nat.lt_of_lt_of_le hlt (limit_le_combine (tiles_mark h true))⟩
    intro x
    simp [Released, releaseNeeds, hge]

theorem release_after_suffix (len addr : Nat) (hge : ¬ len < c.here.size) :
    (c.release len addr).after <:+ c.after := by
  rw [release, if_neg hge]
  exact combine_after_suffix (c.mark true)

theorem blocks_next (before after spare) (b d : Block ι) :
    (⟨before, b, d :: after, spare⟩ : Cursor ι).blocks =
      (⟨b :: before, d, after, spare⟩ : Cursor ι).blocks := by
  simp [blocks]

theorem release_inside {t' : ι} (hspare : c.spare = t :: t' :: spare) (hused : c.here.free = false)
    (hbase : c.here.base < addr) (hlimit : addr + len < c.here.limit) : c.release len addr =
      ⟨⟨t, c.here.base, addr - c.here.base, false⟩ :: c.before, ⟨c.here.id, addr, len, true⟩,
        ⟨t', addr + len, c.here.size - (addr - c.here.base) - len, false⟩ :: c.after, spare⟩ := by
  rw [limit] at hlimit
  have hend : addr + len < addr + (c.here.size - (addr - c.here.base)) := by omega
  rw [release, if_pos (by omega), if_pos hbase, splitFront_of_spare addr hspare]
  simp only [limit, if_pos hend, splitBack, mark, combine, mergeBefore, mergeAfter, hused,
    Bool.false_eq_true, if_false]

/-- The descriptor for the rest of the block is the one that the freed front gives back. -/
theorem length_spare_release (hspare : c.spare = t :: spare) (hbefore : c.before = p :: before)
    (hp : p.free = true) (hused : c.here.free = false) (hlt : len < c.here.size) :
    (c.release len c.here.base).spare.length = spare.length + 1 := by
  have hend : c.here.base + len < c.here.base + c.here.size := by omega
  rw [release, if_pos hlt, if_neg (Nat.lt_irrefl _)]
  simp only [limit, if_pos hend, splitBack, hspare, mark, combine, mergeBefore, mergeAfter,
    hbefore, hp, hused, if_true, Bool.false_eq_true, if_false, length_cons]

def take (c : Cursor ι) (len : Nat) : Cursor ι :=
  match if c.here.base + len < c.here.limit then c.splitBack len else some c with
  | none => c
  | some c1 => (c1.mark false).combine

theorem Refits.sets_take (h : Refits u s e c c1) (hbefore : Alternates c1.before)
    (hafter : Alternates (c1.here :: c1.after)) (hspare : c1.spare ≠ []) (hpos : 0 < len)
    (hlen : len ≤ c1.here.size) (hu : u ∣ len) : Sets u s e c (c1.take len)
      (fun x => c1.here.base ≤ x ∧ x < c1.here.base + len) false := by
  unfold take
  rcases refits_back h.tiles hbefore hafter hpos hlen hu with
    ⟨-, hnil, -⟩ | ⟨c2, hsome, h2, hbefore2, hafter2, hbase2, hsize2, -, -⟩
  · exact absurd hnil hspare
  · rw [hsome]
    refine (h.trans h2).sets_mark hbefore2 hafter2 ?_
    intro x
    rw [limit, hbase2, hsize2]

end Cursor

end BgqDriver.CoalescingBlocks
