import BgqDriver.ShmFSExtents

/-!
Compaction keeps the order of the files, ends, and a second one moves nothing. So
`defineMemorySpace` calls itself at most once, and every call returns.
-/

namespace BgqDriver.ShmFSCompaction

open Function Option Bool Finset
open ExtentTables ShmFS ShmFSExtents

variable {Fd : Type*} {r : Region} {pool : Pool} {s s' t : State Fd} {k x y : Slot}
  {e f : Extent} {ptr : ShmMgrEntry} {space addr fuel maxva moved : Nat} {b : Bool}

section Order

theorem Slides.pool_self (h : Slides r s s' k addr) :
    s'.pool k = { s.pool k with allocatedAddr := addr } := by
  rw [h.pool, State.setSpace_pool_self]

theorem Slides.pool_of_ne (h : Slides r s s' k addr) (hx : x ≠ k) : s'.pool x = s.pool x := by
  rw [h.pool, State.setSpace_pool_of_ne _ hx]

theorem Slides.lt (h : Slides r s s' k addr) (hx : extents s.pool x = some e)
    (hy : extents s.pool y = some f) (hlt : (s.pool x).allocatedAddr < (s.pool y).allocatedAddr) :
    (s'.pool x).allocatedAddr < (s'.pool y).allocatedAddr := by
  have hybase := (extents_eq_some.mp hy).2.2
  rcases eq_or_ne x k with rfl | hxk
  · have hyx : y ≠ x := by
      rintro rfl
      exact absurd hlt (Nat.lt_irrefl _)
    rw [Slides.pool_self h, Slides.pool_of_ne h hyx]
    rcases h.path y f hy hyx with hbefore | hafter
    · rw [Extent.limit] at hbefore
      omega
    · have hpos := h.pos
      simp only
      omega
  · rw [Slides.pool_of_ne h hxk]
    rcases eq_or_ne y k with rfl | hyk
    · rw [Slides.pool_self h]
      exact Nat.lt_of_lt_of_le hlt h.le
    · rwa [Slides.pool_of_ne h hyk]

theorem Compacts.le (h : Compacts r s s') (x : Slot) :
    (s.pool x).allocatedAddr ≤ (s'.pool x).allocatedAddr := by
  induction h with
  | refl => exact Nat.le_refl _
  | tail _ hstep ih =>
    obtain ⟨k, addr, hslides⟩ := hstep
    rcases eq_or_ne x k with rfl | hxk
    · rw [Slides.pool_self hslides]
      exact Nat.le_trans ih hslides.le
    · rwa [Slides.pool_of_ne hslides hxk]

theorem Compacts.extents (h : Compacts r s s') (hx : extents s.pool x = some e) :
    ∃ e', extents s'.pool x = some e' ∧ e'.size = e.size := by
  obtain ⟨howner, hne, -, hsize⟩ := extents_eq_some.mp hx
  obtain ⟨heq, hzero, -⟩ := h.entry x
  have howner' : (s'.pool x).owner = true := by
    rw [heq]
    exact howner
  have hsize' : (s'.pool x).allocatedSize = e.size := by
    rw [heq]
    exact hsize.symm
  exact ⟨_, extents_of_owner howner' fun h => hne (hzero.mp h), hsize'⟩

theorem Compacts.lt (h : Compacts r s s') (hx : ShmFSExtents.extents s.pool x = some e)
    (hy : ShmFSExtents.extents s.pool y = some f)
    (hlt : (s.pool x).allocatedAddr < (s.pool y).allocatedAddr) :
    (s'.pool x).allocatedAddr < (s'.pool y).allocatedAddr := by
  induction h with
  | refl => exact hlt
  | tail hbefore hstep ih =>
    obtain ⟨k, addr, hslides⟩ := hstep
    obtain ⟨e', hx', -⟩ := Compacts.extents hbefore hx
    obtain ⟨f', hy', -⟩ := Compacts.extents hbefore hy
    exact Slides.lt hslides hx' hy' ih

end Order

section Cleared

theorem nextAddress_eq_none (h : ∀ j f, extents pool j = some f → f.base ≤ ptr.allocatedAddr) :
    nextAddress pool ptr = none := by
  by_contra hsome
  obtain ⟨next, hnext⟩ := Option.ne_none_iff_exists'.mp hsome
  obtain ⟨howner, hne, hlt, -⟩ := nextAddress_some hnext
  exact absurd hlt (Nat.not_lt.mpr (h next _ (if_pos ⟨howner, hne⟩)))

section

variable (h : Compacts r s t) (hs : r.Separates s.pool) (howner : (s.pool k).owner = true)
include h hs howner

theorem nextAddress_eq_none_of_compacts (hnext : nextAddress t.pool (t.pool k) = none) :
    nextAddress s.pool (s.pool k) = none := by
  apply nextAddress_eq_none
  intro j f hj
  obtain ⟨f', hj', -⟩ := Compacts.extents h hj
  have hbase := (extents_eq_some.mp hj).2.2.1
  have hbase' := (extents_eq_some.mp hj').2.2.1
  have hle := nextAddress_none (h.separates hs) hnext j f' hj'
  by_contra hlt
  rw [Nat.not_le, hbase] at hlt
  rcases eq_or_ne (s.pool k).allocatedAddr 0 with hzero | hne
  · have hzero' := (h.entry k).2.1.mpr hzero
    have hne' := (extents_eq_some.mp hj').2.1
    omega
  · have hlt' := Compacts.lt h (extents_of_owner howner hne) hj hlt
    omega

theorem nextAddress_ne_none_of_compacts (hspace : Roomy r space)
    (hbefore : s.extendInPlace r.toShmMgr k space = none)
    (hafter : t.extendInPlace r.toShmMgr k space = some s') :
    nextAddress t.pool (t.pool k) ≠ none := by
  intro hnone
  have hnone' := nextAddress_eq_none_of_compacts h hs howner hnone
  obtain ⟨heq, hzero, -⟩ := h.entry k
  have hsize : (t.pool k).allocatedSize = (s.pool k).allocatedSize := by rw [heq]
  have hle := Compacts.le h k
  have hroom := hspace.le
  have hceiling : ceiling r.toShmMgr t.pool (t.pool k) = r.vStart + r.size := by
    rw [ceiling, hnone]
    exact r.vEnd_eq
  rw [State.extendInPlace] at hbefore
  simp only [hnone'] at hbefore
  rcases extendInPlace_cases hafter with ⟨hne, hshrink, -⟩ | ⟨hne, hgrow, hfits, -⟩ |
    ⟨hzero', hfits, -⟩
  · rw [if_pos ⟨fun h => hne (hzero.mpr h), hsize ▸ hshrink⟩] at hbefore
    cases hbefore
  · have howner' : (t.pool k).owner = true := by
      rw [heq]
      exact howner
    have hupper := (h.separates hs).upper k _ (extents_of_owner howner' hne)
    simp only [Extent.limit] at hupper
    rw [hceiling, add64_eq (by omega)] at hfits
    rw [if_neg (by omega), if_pos fun h => hne (hzero.mpr h), r.vEnd_eq,
      add64_eq (by omega), if_pos (by omega)] at hbefore
    cases hbefore
  · rw [hceiling] at hfits
    have haddr := hzero.mp hzero'
    rw [if_neg (fun h => h.1 haddr), if_neg (not_not.mpr haddr), r.vEnd_eq, if_pos hfits] at hbefore
    cases hbefore

end

end Cleared

section Returns

def below (pool : Pool) (maxva : Nat) : Finset Slot :=
  univ.filter fun x => (pool x).owner = true ∧ (pool x).allocatedAddr ≠ 0 ∧
    (pool x).allocatedAddr < maxva

theorem mem_below : x ∈ below pool maxva ↔ (pool x).owner = true ∧ (pool x).allocatedAddr ≠ 0 ∧
    (pool x).allocatedAddr < maxva := by
  rw [below, mem_filter]
  exact and_iff_right (mem_univ x)

theorem card_below_slide (h : Swept r s.pool maxva) (hk : previousAddress s.pool maxva = some k)
    (hpinned : (s.pool k).pinned = false) :
    (below (s.slide k (maxva - (s.pool k).allocatedSize)).pool
      (maxva - (s.pool k).allocatedSize)).card < (below s.pool maxva).card := by
  obtain ⟨howner, hne, hlt, -⟩ := previousAddress_some hk
  have hslides := h.slides hk hpinned
  apply card_lt_card
  rw [ssubset_iff_of_subset]
  · refine ⟨k, mem_below.mpr ⟨howner, hne, hlt⟩, ?_⟩
    rw [mem_below, Slides.pool_self hslides]
    exact fun hmem => absurd hmem.2.2 (Nat.lt_irrefl _)
  · intro x hx
    rw [mem_below] at hx ⊢
    rcases eq_or_ne x k with rfl | hxk
    · exact ⟨howner, hne, hlt⟩
    · rw [Slides.pool_of_ne hslides hxk] at hx
      exact ⟨hx.1, hx.2.1, by omega⟩

theorem card_below_stay (hk : previousAddress s.pool maxva = some k) :
    (below s.pool (s.pool k).allocatedAddr).card < (below s.pool maxva).card := by
  obtain ⟨howner, hne, hlt, -⟩ := previousAddress_some hk
  apply card_lt_card
  rw [ssubset_iff_of_subset]
  · exact ⟨k, mem_below.mpr ⟨howner, hne, hlt⟩,
      fun hmem => absurd (mem_below.mp hmem).2.2 (Nat.lt_irrefl _)⟩
  · intro x hx
    rw [mem_below] at hx ⊢
    exact ⟨hx.1, hx.2.1, Nat.lt_trans hx.2.2 hlt⟩

/-- Each round of the loop leaves one file less below `maxva`. -/
theorem compactLoop_returns (h : Swept r s.pool maxva) (hfuel : (below s.pool maxva).card < fuel) :
    ∃ s' b, State.compactLoop fuel s maxva moved = some (s', b) := by
  induction fuel generalizing s maxva moved with
  | zero => omega
  | succ fuel ih =>
    rw [State.compactLoop]
    cases hk : previousAddress s.pool maxva with
    | none => exact ⟨s, _, rfl⟩
    | some k =>
      simp only [(h.limit_le hk).2.2.2]
      split_ifs with hpinned hmove
      · exact ⟨s, _, rfl⟩
      · have hunpinned : (s.pool k).pinned = false := by simpa using hpinned
        have hcard := card_below_slide h hk hunpinned
        exact ih (h.slide hk hunpinned) (by omega)
      · have hcard := card_below_stay hk
        exact ih (h.stay hk (by simpa using hmove)) (by omega)

theorem compactMemorySpace_returns (hs : r.Separates s.pool) (hfuel : shmMaxOpens < fuel) :
    ∃ s' b, s.compactMemorySpace fuel r.toShmMgr = some (s', b) := by
  apply compactLoop_returns (swept_end hs)
  have hcard := card_le_univ (below s.pool r.vEnd)
  rw [Fintype.card_fin] at hcard
  omega

end Returns

variable {b' : Bool} {fuel' : Nat}

section Twice

theorem compactLoop_frame (h : Swept r s.pool maxva)
    (hloop : State.compactLoop fuel s maxva moved = some (s', b)) :
    (∀ x, maxva ≤ (s.pool x).allocatedAddr → s'.pool x = s.pool x) ∧
      ∀ x, (s.pool x).allocatedAddr < maxva → (s'.pool x).allocatedAddr < maxva := by
  induction fuel generalizing s maxva moved with
  | zero => cases hloop
  | succ fuel ih =>
    rw [State.compactLoop] at hloop
    cases hk : previousAddress s.pool maxva with
    | none =>
      simp only [hk] at hloop
      cases hloop
      exact ⟨fun _ _ => rfl, fun _ h => h⟩
    | some k =>
      simp only [hk, (h.limit_le hk).2.2.2] at hloop
      obtain ⟨-, hpos, hlimit, -⟩ := h.limit_le hk
      obtain ⟨-, -, hlt, -⟩ := previousAddress_some hk
      split_ifs at hloop with hpinned hmove
      · cases hloop
        exact ⟨fun _ _ => rfl, fun _ h => h⟩
      · have hunpinned : (s.pool k).pinned = false := by simpa using hpinned
        have hslides := h.slides hk hunpinned
        obtain ⟨habove, hbelow⟩ := ih (h.slide hk hunpinned) hloop
        constructor
        · intro x hx
          have hxk : x ≠ k := by
            rintro rfl
            omega
          rw [habove x (by rw [Slides.pool_of_ne hslides hxk]; omega),
            Slides.pool_of_ne hslides hxk]
        · intro x hx
          rcases eq_or_ne x k with rfl | hxk
          · rw [habove x (by rw [Slides.pool_self hslides]), Slides.pool_self hslides]
            simp only
            omega
          · rcases Nat.lt_or_ge (s.pool x).allocatedAddr
              (maxva - (s.pool k).allocatedSize) with hfar | hnear
            · have hlt' := hbelow x (by rwa [Slides.pool_of_ne hslides hxk])
              omega
            · rw [habove x (by rwa [Slides.pool_of_ne hslides hxk]),
                Slides.pool_of_ne hslides hxk]
              exact hx
      · obtain ⟨habove, hbelow⟩ := ih (h.stay hk (by simpa using hmove)) hloop
        refine ⟨fun x hx => habove x (by omega), ?_⟩
        intro x hx
        rcases Nat.lt_or_ge (s.pool x).allocatedAddr (s.pool k).allocatedAddr with hfar | hnear
        · exact Nat.lt_trans (hbelow x hfar) hlt
        · rw [habove x hnear]
          exact hx

theorem previousAddress_eq (hs : r.Separates pool) (hk : extents pool k = some e)
    (hlt : e.base < maxva)
    (hlast : ∀ j f, extents pool j = some f → f.base < maxva → f.base ≤ e.base) :
    previousAddress pool maxva = some k := by
  cases hprevious : previousAddress pool maxva with
  | none =>
    have hle := previousAddress_none hprevious k e hk
    omega
  | some j =>
    obtain ⟨howner, hne, hjlt, hjlast⟩ := previousAddress_some hprevious
    have hj := extents_of_owner howner hne
    have heq := Nat.le_antisymm (hlast j _ hj hjlt) (hjlast k e hk hlt)
    rw [hs.eq_of_base_eq hj hk heq]

theorem previousAddress_compactLoop {target : Nat} (h : Swept r s.pool target)
    (hk : extents s.pool k = some e) (hbase : e.base = target) (hlt : target < maxva)
    (hgap : ∀ j f, extents s.pool j = some f → f.base < maxva → f.base ≤ target)
    (hloop : State.compactLoop fuel s target moved = some (s', b)) :
    previousAddress s'.pool maxva = some k ∧ s'.pool k = s.pool k := by
  obtain ⟨habove, hbelow⟩ := compactLoop_frame h hloop
  have haddr := (extents_eq_some.mp hk).2.2.1
  have hsame : s'.pool k = s.pool k := habove k (by omega)
  have hk' : extents s'.pool k = some e := by
    rw [extents, hsame]
    exact hk
  refine ⟨?_, hsame⟩
  apply previousAddress_eq ((compactLoop_compacts h hloop).separates h.separates) hk' (by omega)
  intro j f hj hfar
  have hjbase := (extents_eq_some.mp hj).2.2.1
  rcases Nat.lt_or_ge (s.pool j).allocatedAddr target with hlow | hhigh
  · have hlow' := hbelow j hlow
    omega
  · have hj' : extents s.pool j = some f := by
      rw [extents, ← habove j hhigh]
      exact hj
    rw [hbase]
    exact hgap j f hj' hfar

/-- A second run of the loop moves nothing. -/
theorem compactLoop_again {moved' : Nat} (h : Swept r s.pool maxva)
    (hloop : State.compactLoop fuel s maxva moved = some (s', b))
    (hagain : State.compactLoop fuel' s' maxva moved' = some (t, b')) :
    t = s' ∧ b' = decide (0 < moved') := by
  induction fuel generalizing s maxva moved fuel' with
  | zero => cases hloop
  | succ fuel ih =>
    cases fuel' with
    | zero => cases hagain
    | succ fuel' =>
      rw [State.compactLoop] at hloop hagain
      cases hk : previousAddress s.pool maxva with
      | none =>
        simp only [hk] at hloop
        cases hloop
        simp only [hk] at hagain
        cases hagain
        exact ⟨rfl, rfl⟩
      | some k =>
        simp only [hk, (h.limit_le hk).2.2.2] at hloop
        obtain ⟨-, hpos, hlimit, hsub⟩ := h.limit_le hk
        obtain ⟨howner, hne, hlt, hlast⟩ := previousAddress_some hk
        have hext := extents_of_owner howner hne
        split_ifs at hloop with hpinned hmove
        · cases hloop
          simp only [hk, if_pos hpinned] at hagain
          cases hagain
          exact ⟨rfl, rfl⟩
        · have hunpinned : (s.pool k).pinned = false := by simpa using hpinned
          have hslides := h.slides hk hunpinned
          obtain ⟨hlast', hsame⟩ := previousAddress_compactLoop (h.slide hk hunpinned)
            (e := ⟨maxva - (s.pool k).allocatedSize, (s.pool k).allocatedSize⟩)
            (by rw [hslides.toMoves.extents_eq howner, update_self]) rfl
            (by omega : _ < maxva) (by
              intro j f hj hfar
              rw [hslides.toMoves.extents_eq howner] at hj
              rcases eq_or_ne j k with rfl | hjk
              · rw [update_self] at hj
                cases hj
                exact Nat.le_refl _
              · rw [update_of_ne hjk] at hj
                have hbase := hlast j f hj hfar
                omega) hloop
          rw [Slides.pool_self hslides] at hsame
          simp only [hlast', hsame, hunpinned, hsub, ne_eq, not_true_eq_false,
            false_eq_true, if_false] at hagain
          exact ih (h.slide hk hunpinned) hloop hagain
        · have heq := not_not.mp hmove
          obtain ⟨hlast', hsame⟩ := previousAddress_compactLoop (h.stay hk heq) hext rfl
            hlt hlast hloop
          simp only [hlast', hsame, hpinned, hsub, if_neg hmove, false_eq_true,
            if_false] at hagain
          exact ih (h.stay hk heq) hloop hagain

theorem compactMemorySpace_again (hs : r.Separates s.pool)
    (h : s.compactMemorySpace fuel r.toShmMgr = some (s', b))
    (hagain : s'.compactMemorySpace fuel' r.toShmMgr = some (t, b')) : t = s' ∧ b' = false :=
  compactLoop_again (swept_end hs) h hagain

end Twice

section Define

variable {calls : Nat}

section

variable (hs : r.Separates s.pool) (hfuel : shmMaxOpens < fuel)
include hs hfuel

theorem makeRoom_returns (k : Slot) : ∃ t, s.makeRoom fuel r.toShmMgr k = some t ∧ Compacts r s t ∧
      (t = s ∨ ∃ b, s.compactMemorySpace fuel r.toShmMgr = some (t, b)) := by
  rw [State.makeRoom]
  split_ifs
  · obtain ⟨t, b, ht⟩ := compactMemorySpace_returns hs hfuel
    exact ⟨t, by rw [ht, map_some], compactMemorySpace_compacts hs ht, .inr ⟨b, ht⟩⟩
  · exact ⟨s, rfl, Relation.ReflTransGen.refl, .inl rfl⟩

theorem defineMemorySpace_returns_after
    (hcompact : s.compactMemorySpace fuel r.toShmMgr = some (t, b)) :
    ∃ s' ok, State.defineMemorySpace fuel r.toShmMgr k space (calls + 1) t = some (s', ok) := by
  have ht := (compactMemorySpace_compacts hs hcompact).separates hs
  rw [State.defineMemorySpace]
  cases t.extendInPlace r.toShmMgr k space with
  | some u => exact ⟨u, true, rfl⟩
  | none =>
    obtain ⟨u, hroom, -, hsame⟩ := makeRoom_returns ht hfuel k
    have hut : u = t := by
      rcases hsame with hsame | ⟨b', hagain⟩
      · exact hsame
      · exact (compactMemorySpace_again hs hcompact hagain).1
    simp only [hroom, bind_some, hut]
    cases t.newSpace r.toShmMgr space with
    | some v => exact ⟨_, true, rfl⟩
    | none =>
      obtain ⟨v, b', hagain⟩ := compactMemorySpace_returns ht hfuel
      obtain ⟨rfl, rfl⟩ := compactMemorySpace_again hs hcompact hagain
      simp only [hagain, bind_some, false_eq_true, if_false]
      exact ⟨v, false, rfl⟩

theorem defineMemorySpace_returns (k : Slot) (space calls : Nat) :
    ∃ s' ok, State.defineMemorySpace fuel r.toShmMgr k space (calls + 2) s = some (s', ok) := by
  rw [State.defineMemorySpace]
  cases s.extendInPlace r.toShmMgr k space with
  | some u => exact ⟨u, true, rfl⟩
  | none =>
    obtain ⟨u, hroom, hsu, -⟩ := makeRoom_returns hs hfuel k
    have hu := hsu.separates hs
    simp only [hroom, bind_some]
    cases u.newSpace r.toShmMgr space with
    | some v => exact ⟨_, true, rfl⟩
    | none =>
      obtain ⟨v, moved, hcompact⟩ := compactMemorySpace_returns hu hfuel
      simp only [hcompact, bind_some]
      split_ifs
      · exact defineMemorySpace_returns_after hu hfuel hcompact
      · exact ⟨v, false, rfl⟩

end

end Define

end BgqDriver.ShmFSCompaction
