import BgqDriver.PosixFiles
import BgqDriver.ShmFSCompaction

/-!
What the shared-memory files hold, and how it is carried along when storage is moved and
when it grows.
-/

namespace BgqDriver.ShmFSContents

open ByteMemory ExtentTables ShmFS
open PosixFiles ShmFSExtents ShmFSCompaction

variable {Fd : Type*} {r : Region} {s s' t : State Fd} {k x : Slot} {f : File Byte}
  {fuel space addr size : Nat}

section Growth

/-- Where an entry starts if it gets storage where it is. -/
def startAddr (mgr : ShmMgr) (ptr : ShmMgrEntry) : Nat :=
  if ptr.allocatedAddr = 0 then roundUpMempage mgr.vStart else ptr.allocatedAddr

/-- If there is no file above and the space fits, then what the file grows over is zero. -/
def Clean (r : Region) (s : State Fd) (k : Slot) (space : Nat) : Prop :=
  nextAddress s.pool (s.pool k) = none →
    startAddr r.toShmMgr (s.pool k) + space ≤ r.vStart + r.size →
      ∀ i < space, (s.pool k).allocatedSize ≤ i →
        s.memory (startAddr r.toShmMgr (s.pool k) + i) = 0#8

instance (r : Region) (s : State Fd) (k : Slot) (space : Nat) : Decidable (Clean r s k space) :=
  inferInstanceAs (Decidable (_ → _ → _))

def Grown (s s' : State Fd) (k : Slot) (space : Nat) : Prop :=
  ∀ i < space, (s.pool k).allocatedSize ≤ i → s'.memory ((s'.pool k).allocatedAddr + i) = 0#8

theorem extendInPlace_grown (hs : r.Separates s.pool) (howner : (s.pool k).owner = true)
    (hspace : Roomy r space) (h : s.extendInPlace r.toShmMgr k space = some s')
    (hclean : nextAddress s.pool (s.pool k) = none → Clean r s k space) : Grown s s' k space := by
  have hle := hspace.le
  have hend := ceiling_le_end hs (s.pool k)
  intro i hi hold
  rcases extendInPlace_cases h with ⟨-, hshrink, -⟩ | ⟨hne, hgrow, hfits, hpool, -, hmem⟩ |
    ⟨hzero, hfits, hpool, -, hmem⟩
  · omega
  · have hupper := hs.upper k _ (extents_of_owner howner hne)
    simp only [Extent.limit] at hupper
    rw [add64_eq (by omega)] at hfits
    rw [add64_eq (by omega)] at hmem
    have hstart : startAddr r.toShmMgr (s.pool k) = (s.pool k).allocatedAddr := if_neg hne
    rw [hpool, State.setSpace_pool_self]
    simp only
    rcases hmem with hmem | ⟨hnone, hmem⟩
    · rw [hmem, fill_inside (by omega) (by omega)]
    · rw [hmem, ← hstart]
      exact hclean hnone hnone (by omega) i hi hold
  · have hup := le_roundUpMempage (p := r.vStart) (by omega)
    rw [add64_eq (by omega)] at hfits
    have hstart : startAddr r.toShmMgr (s.pool k) = roundUpMempage r.vStart := if_pos hzero
    rw [hpool, State.setSpace_pool_self]
    simp only
    rcases hmem with hmem | ⟨hnone, hmem⟩
    · rw [hmem, fill_inside (by omega) (by omega)]
    · rw [hmem, ← hstart]
      exact hclean hnone hnone (by omega) i hi hold

theorem relocate_grown {v : Nat} : Grown s (s.relocate k v space) k space := by
  intro i hi hold
  have hpool : ((s.relocate k v space).pool k).allocatedAddr = v := by
    rw [State.relocate]
    simp
  rw [hpool]
  simp only [State.relocate]
  split_ifs
  · rw [moveUp_outside (by omega), fill_inside (by omega) (by omega)]
  · exact fill_inside (by omega) (by omega)

theorem defineMemorySpace_grown {calls : Nat} {ok : Bool} (hs : r.Separates s.pool)
    (howner : (s.pool k).owner = true) (hspace : Roomy r space) (hclean : Clean r s k space)
    (h : State.defineMemorySpace fuel r.toShmMgr k space calls s = some (s', ok)) :
    ∃ t, Compacts r s t ∧ ((ok = false ∧ s' = t) ∨
      (ok = true ∧ (∃ addr, Moves r t s' k addr space) ∧ Grown t s' k space)) := by
  obtain ⟨t, ht, hcases⟩ := defineMemorySpace_cases hs h
  refine ⟨t, ht, ?_⟩
  have hst := ht.separates hs
  have howner' : (t.pool k).owner = true := by
    rw [(ht.entry k).1]
    exact howner
  rcases hcases with hfail | ⟨hok, hplace, hwhen⟩ | ⟨hok, hgrow, v, hv, rfl⟩
  · exact .inl hfail
  · refine .inr ⟨hok, extendInPlace_moves hst howner' hspace hplace, ?_⟩
    apply extendInPlace_grown hst howner' hspace hplace
    intro hnone
    rcases hwhen with rfl | hbefore
    · exact hclean
    · exact absurd hnone (nextAddress_ne_none_of_compacts ht hs howner hspace hbefore hplace)
  · exact .inr ⟨hok, ⟨v, relocate_moves hst hspace hgrow hv⟩, relocate_grown⟩

end Growth

section Holds

structure Holds (s : State Fd) (k : Slot) (f : File Byte) : Prop where
  size : (s.pool k).allocatedSize = f.size
  none : (s.pool k).allocatedAddr = 0 → f.size = 0
  byte : ∀ i < f.size, s.memory ((s.pool k).allocatedAddr + i) = f.byte i

theorem Holds.of_entry (h : Holds s k f)
    (haddr : (s'.pool k).allocatedAddr = (s.pool k).allocatedAddr)
    (hsize : (s'.pool k).allocatedSize = (s.pool k).allocatedSize)
    (hmemory : s'.memory = s.memory) : Holds s' k f := by
  refine ⟨hsize.trans h.size, fun hzero => h.none (haddr ▸ hzero), ?_⟩
  intro i hi
  rw [haddr, hmemory]
  exact h.byte i hi

theorem Holds.of_frame (h : Holds s k f) (howner : (s.pool k).owner = true)
    (hpool : s'.pool k = s.pool k) {a b : Nat}
    (hframe : ∀ x, x < a ∨ b ≤ x → s'.memory x = s.memory x)
    (hclear : ∀ e, extents s.pool k = some e → e.limit ≤ a ∨ b ≤ e.base) : Holds s' k f := by
  refine ⟨hpool ▸ h.size, hpool ▸ h.none, ?_⟩
  intro i hi
  rw [hpool]
  have hne : (s.pool k).allocatedAddr ≠ 0 := by
    intro hzero
    have hsize := h.none hzero
    omega
  have happart := hclear _ (extents_of_owner howner hne)
  simp only [Extent.limit, h.size] at happart
  rw [hframe _ (by omega), h.byte i hi]

theorem Moves.holds_of_ne (h : Moves r s s' k addr size) (hxk : x ≠ k)
    (howner : (s.pool x).owner = true) (hx : Holds s x f) : Holds s' x f := by
  have hpool : s'.pool x = s.pool x := by
    rw [h.pool, State.setSpace_pool_of_ne _ hxk]
  exact hx.of_frame howner hpool h.frame fun e he => h.clear x e he hxk

theorem Slides.holds (h : Slides r s s' k addr) (howner : (s.pool x).owner = true)
    (hx : Holds s x f) : Holds s' x f := by
  rcases eq_or_ne x k with rfl | hxk
  · have hpool := Slides.pool_self h
    constructor
    · rw [hpool]
      exact hx.size
    · intro hzero
      rw [hpool] at hzero
      exact absurd hzero h.toMoves.addr_ne_zero
    · intro i hi
      rw [hpool]
      have hsize := hx.size
      rw [h.kept _ (extents_of_owner h.owner h.ne_zero) i (by simp only; omega) (by omega)]
      exact hx.byte i hi
  · exact Moves.holds_of_ne h.toMoves hxk howner hx

theorem Compacts.holds (h : Compacts r s s') (howner : (s.pool x).owner = true)
    (hx : Holds s x f) : Holds s' x f := by
  induction h with
  | refl => exact hx
  | tail hbefore hstep ih =>
    obtain ⟨k, addr, hslides⟩ := hstep
    refine Slides.holds hslides ?_ ih
    rw [(Compacts.entry hbefore x).1]
    exact howner

theorem Moves.byte (h : Moves r s s' k addr size) (howner : (s.pool k).owner = true)
    (hgrown : Grown s s' k size) (hk : Holds s k f) :
    ∀ i < size, s'.memory (addr + i) = f.byte i := by
  intro i hi
  have haddr : (s'.pool k).allocatedAddr = addr := by
    rw [h.pool, State.setSpace_pool_self]
  have hsize := hk.size
  rcases Nat.lt_or_ge i f.size with hold | hnew
  · have hne : (s.pool k).allocatedAddr ≠ 0 := by
      intro hzero
      have hnone := hk.none hzero
      omega
    rw [h.kept _ (extents_of_owner howner hne) i (by simp only; omega) hi]
    exact hk.byte i hold
  · rw [f.zero i hnew, ← haddr]
    exact hgrown i hi (by omega)

end Holds

end BgqDriver.ShmFSContents
