import BgqDriver.ShmFSRuns

/-!
The address that a mapping has returned stays the address of the file.
-/

namespace BgqDriver.ShmFSPinned

open Function Option
open ShmFS EventRuns ShmFSExtents ShmFSRuns State

variable {Fd : Type*} {mgr : ShmMgr} {s s' : State Fd} {k x : Slot}
  {fuel space calls maxva moved : Nat} {b ok : Bool}

/-- Slots keep their owner and stay pinned, and the pinned ones do not change at all,
except perhaps for the slot `k`. -/
structure Keeps (s s' : State Fd) (k : Option Slot) : Prop where
  owner : ∀ x, (s'.pool x).owner = (s.pool x).owner
  pinned : ∀ x, (s'.pool x).pinned = (s.pool x).pinned
  same : ∀ x, some x ≠ k → (s.pool x).pinned = true → s'.pool x = s.pool x

theorem Keeps.refl (s : State Fd) (k : Option Slot) : Keeps s s k :=
  ⟨fun _ => rfl, fun _ => rfl, fun _ _ _ => rfl⟩

theorem Keeps.trans {t : State Fd} {o : Option Slot} (h : Keeps s t o) (h' : Keeps t s' o) :
    Keeps s s' o := by
  refine ⟨fun x => (h'.owner x).trans (h.owner x), fun x => (h'.pinned x).trans (h.pinned x), ?_⟩
  intro x hx hpinned
  rw [h'.same x hx ((h.pinned x).trans hpinned), h.same x hx hpinned]

theorem Keeps.mono (h : Keeps s s' none) (k : Option Slot) : Keeps s s' k :=
  ⟨h.owner, h.pinned, fun x _ => h.same x (by simp)⟩

theorem Keeps.weaken (h : Keeps s s' (if ok then some k else none)) : Keeps s s' (some k) := by
  cases ok with
  | true => exact h
  | false => exact h.mono _

theorem keeps_setSpace (s : State Fd) (k : Slot) (addr size : Nat) :
    Keeps s (s.setSpace k addr size) (some k) := by
  refine ⟨?_, ?_, fun x hx _ => setSpace_pool_of_ne _ (fun h => hx (congrArg some h)) _ _⟩
  · exact (forall_update_iff s.pool fun x e => e.owner = (s.pool x).owner).mpr ⟨rfl, fun _ _ => rfl⟩
  · exact (forall_update_iff s.pool fun x e => e.pinned = (s.pool x).pinned).mpr
      ⟨rfl, fun _ _ => rfl⟩

theorem Keeps.of_pool {t : State Fd} {o : Option Slot} (h : Keeps s t o)
    (hpool : s'.pool = t.pool) : Keeps s s' o :=
  ⟨hpool ▸ h.owner, hpool ▸ h.pinned, hpool ▸ h.same⟩

theorem slide_keeps (hpinned : (s.pool k).pinned = false) (target : Nat) :
    Keeps s (s.slide k target) none := by
  have hset := keeps_setSpace s k target (s.pool k).allocatedSize
  refine ⟨hset.owner, hset.pinned, ?_⟩
  intro x _ hx
  rcases eq_or_ne x k with rfl | hxk
  · rw [hpinned] at hx
    cases hx
  · exact hset.same x (fun h => hxk (some.inj h)) hx

theorem compactLoop_keeps (h : compactLoop fuel s maxva moved = some (s', b)) :
    Keeps s s' none := by
  fun_induction compactLoop fuel s maxva moved with
  | case1 => cases h
  | case2 | case3 =>
    cases h
    exact Keeps.refl _ none
  | case4 _ _ _ _ _ _ _ hpinned _ _ ih =>
    exact (slide_keeps (by simpa using hpinned) _).trans (ih h)
  | case5 _ _ _ _ _ _ _ _ _ _ ih => exact ih h

theorem defineMemorySpace_keeps
    (h : defineMemorySpace fuel mgr k space calls s = some (s', ok)) :
    Keeps s s' (if ok then some k else none) := by
  induction calls generalizing s with
  | zero => cases h
  | succ calls ih =>
    rw [defineMemorySpace] at h
    cases hplace : s.extendInPlace mgr k space with
    | some u =>
      simp only [hplace] at h
      cases h
      obtain ⟨addr, hpool⟩ := extendInPlace_pool hplace
      exact (keeps_setSpace s k addr space).of_pool hpool
    | none =>
      simp only [hplace] at h
      obtain ⟨t, hroom, h⟩ := bind_eq_some_iff.mp h
      have ht : Keeps s t none := by
        rw [makeRoom] at hroom
        split_ifs at hroom
        · obtain ⟨⟨u, b⟩, hcompact, rfl⟩ := map_eq_some_iff.mp hroom
          exact compactLoop_keeps hcompact
        · cases hroom
          exact Keeps.refl s _
      cases hspace : t.newSpace mgr space with
      | some v =>
        simp only [hspace] at h
        cases h
        exact (ht.mono _).trans ((keeps_setSpace t k v space).of_pool rfl)
      | none =>
        simp only [hspace] at h
        obtain ⟨⟨u, moved⟩, hcompact, h⟩ := bind_eq_some_iff.mp h
        have hu := ht.trans (compactLoop_keeps hcompact)
        split_ifs at h
        · exact (hu.mono _).trans (ih h)
        · cases h
          exact hu

theorem extendInPlace_isSome (hne : (s.pool k).allocatedAddr ≠ 0)
    (hfits : space ≤ (s.pool k).allocatedSize ∨
      add64 space (s.pool k).allocatedAddr ≤ ceiling mgr s.pool (s.pool k)) :
    ∃ u, s.extendInPlace mgr k space = some u := by
  rw [extendInPlace]
  cases hnext : nextAddress s.pool (s.pool k)
  all_goals
    simp only [ceiling, hnext] at hfits ⊢
    split_ifs with hsmall
    · exact ⟨_, rfl⟩
    · exact ⟨_, rfl⟩
    · exact absurd (hfits.resolve_left fun hle => hsmall ⟨hne, hle⟩) ‹_›

theorem defineMemorySpace_in_place (hne : (s.pool k).allocatedAddr ≠ 0)
    (hfits : space ≤ (s.pool k).allocatedSize ∨
      add64 space (s.pool k).allocatedAddr ≤ ceiling mgr s.pool (s.pool k))
    (h : defineMemorySpace fuel mgr k space calls s = some (s', ok)) :
    s'.pool k = { s.pool k with allocatedSize := space } := by
  cases calls with
  | zero => cases h
  | succ calls =>
    obtain ⟨u, hu⟩ := extendInPlace_isSome hne hfits
    rw [defineMemorySpace, hu] at h
    cases h
    rcases extendInPlace_cases hu with ⟨-, -, rfl⟩ | ⟨-, -, -, hpool, -⟩ | ⟨hzero, -⟩
    · exact setSpace_pool_self ..
    · rw [hpool]
      exact setSpace_pool_self ..
    · exact absurd hzero hne

variable {fd : Fd} {reply : Reply Fd}

/-- The calls under which an address that has been given out stays: a file that has
storage is mapped only when it is pinned already, and a pinned file grows only as far as
it can where it is, or the write fails. -/
def Careful [DecidableEq Fd] (fuel : Nat) (mgr : ShmMgr) (s : State Fd) : Call Fd → Prop
  | .mmap fd _ => OnFile fuel s fd fun k _ => (s.pool k).allocatedAddr ≠ 0 →
      (s.pool k).pinned = true
  | .write fd buffer => OnFile fuel s fd fun k d => (s.pool k).pinned = true →
      (s.pool k).allocatedAddr ≠ 0 →
        (s.writeSpace k d buffer.length ≤ (s.pool k).allocatedSize ∨
          add64 (s.writeSpace k d buffer.length) (s.pool k).allocatedAddr ≤
            ceiling mgr s.pool (s.pool k)) ∨
        (s.write fuel mgr fd buffer).map Prod.snd = some (.failure .ENOSPC)
  | _ => True

instance [DecidableEq Fd] (fuel : Nat) (mgr : ShmMgr) (s : State Fd) :
    ∀ c, Decidable (Careful fuel mgr s c)
  | .write _ _ => inferInstanceAs (Decidable (OnFile _ _ _ _))
  | .mmap _ _ => inferInstanceAs (Decidable (OnFile _ _ _ _))
  | .openFile .. | .close _ | .ftruncate64 .. | .ioctl _ | .lseek .. | .link .. | .read ..
  | .unlink _ => isTrue trivial

/-- The addresses that mappings have returned for the files that still exist. Zero is no
address: an entry with address zero has no storage. -/
def given (fuel : Nat) (s : State Fd) (old : Slot → Option Nat) (c : Call Fd) (s' : State Fd)
    (reply : Reply Fd) (k : Slot) : Option Nat :=
  if (s'.pool k).owner = false then none
  else
    match c, reply with
    | .mmap fd _, .value addr =>
      if addr ≠ 0 ∧ ((s.fds fd).bind fun d => resolve s.pool fuel d.slot) = some k then some addr
      else old k
    | _, _ => old k

/-- A call, with the addresses given to mappings -/
def mapStep [DecidableEq Fd] (fuel : Nat) (mgr : ShmMgr) (s : State Fd × (Slot → Option Nat))
    (c : Call Fd) : Option (State Fd × (Slot → Option Nat)) :=
  (call fuel mgr s.1 c).map fun (s', reply) => (s', given fuel s.1 s.2 c s' reply)

def Pinned (pool : Pool) (g : Slot → Option Nat) : Prop :=
  ∀ k addr, g k = some addr → (pool k).owner = true ∧ (pool k).pinned = true ∧
    (pool k).allocatedAddr = addr ∧ addr ≠ 0

variable {g : Slot → Option Nat}

theorem given_cases {c : Call Fd} {addr : Nat} (h : given fuel s g c s' reply k = some addr) :
    (s'.pool k).owner = true ∧ (g k = some addr ∨ ∃ fd length d, c = .mmap fd length ∧
      reply = .value addr ∧ addr ≠ 0 ∧ s.findByDescriptor fuel fd = some (some (k, d))) := by
  unfold given at h
  split at h
  · cases h
  next howner =>
    refine ⟨by simpa using howner, ?_⟩
    split at h
    next fd length value =>
      split_ifs at h with hnew
      · cases h
        obtain ⟨d, hd, hk⟩ := bind_eq_some_iff.mp hnew.2
        refine .inr ⟨fd, length, d, rfl, rfl, hnew.1, ?_⟩
        rw [findByDescriptor, hd]
        simp only [hk, map_some]
      · exact .inl h
    · exact .inl h

/-- It is enough that the files stay whose address was given out before, and that a
mapping pins the file. -/
theorem pinned_given {c : Call Fd} (h : Pinned s.pool g)
    (hstay : ∀ x, (s.pool x).owner = true → (s.pool x).pinned = true →
      (s.pool x).allocatedAddr ≠ 0 → (s'.pool x).owner = true →
        (s'.pool x).pinned = true ∧ (s'.pool x).allocatedAddr = (s.pool x).allocatedAddr)
    (hmap : ∀ fd length k d addr, c = .mmap fd length → reply = .value addr →
      s.findByDescriptor fuel fd = some (some (k, d)) →
        (s'.pool k).pinned = true ∧ (s'.pool k).allocatedAddr = addr) :
    Pinned s'.pool (given fuel s g c s' reply) := by
  intro k addr hk
  obtain ⟨howner, hold | ⟨fd, length, d, hc, hreply, hne, hfd⟩⟩ := given_cases hk
  · obtain ⟨howner', hpinned, haddr, hne⟩ := h k addr hold
    obtain ⟨hpinned', haddr'⟩ := hstay k howner' hpinned (haddr ▸ hne) howner
    exact ⟨howner, hpinned', haddr'.trans haddr, hne⟩
  · obtain ⟨hpinned, haddr⟩ := hmap fd length k d addr hc hreply hfd
    exact ⟨howner, hpinned, haddr, hne⟩

variable [DecidableEq Fd]

theorem mmap_stays {length : Nat} (hcareful : Careful fuel mgr s (.mmap fd length))
    (h : s.mmap fuel mgr fd length = some (s', reply)) :
    (∀ x, (s.pool x).pinned = true → (s.pool x).allocatedAddr ≠ 0 →
      (s'.pool x).pinned = true ∧ (s'.pool x).allocatedAddr = (s.pool x).allocatedAddr) ∧
    ∀ k d addr, reply = .value addr → s.findByDescriptor fuel fd = some (some (k, d)) →
      (s'.pool k).pinned = true ∧ (s'.pool k).allocatedAddr = addr := by
  rcases withDescriptor_cases h with ⟨rfl, rfl⟩ | ⟨k, d, hfd, h⟩
  · exact ⟨fun x hpinned _ => ⟨hpinned, rfl⟩, fun k d addr hreply => by cases hreply⟩
  · have hsame : ∀ k' d', s.findByDescriptor fuel fd = some (some (k', d')) → k' = k := by
      intro k' d' hfd'
      rw [hfd] at hfd'
      cases hfd'
      rfl
    simp only at h
    split_ifs at h with haddr hsmall
    · cases h
      refine ⟨fun x hpinned _ => ⟨hpinned, rfl⟩, ?_⟩
      intro k' d' addr hreply hfd'
      obtain rfl := hsame k' d' hfd'
      cases hreply
      exact ⟨hcareful k' d hfd haddr, rfl⟩
    · cases h
      exact ⟨fun x hpinned _ => ⟨hpinned, rfl⟩, fun k d addr hreply => by cases hreply⟩
    all_goals
      obtain ⟨⟨t, ok⟩, hdefine, h⟩ := map_eq_some_iff.mp h
      cases h
      have hkeeps := (defineMemorySpace_keeps hdefine).weaken
      constructor
      · intro x hpinned hne
        rcases eq_or_ne x k with rfl | hxk
        · exact absurd hne haddr
        · have hbefore := setEntry_pool_of_ne s hxk
          rw [hkeeps.same x (fun h => hxk (some.inj h)) (by rw [hbefore]; exact hpinned),
            hbefore]
          exact ⟨hpinned, rfl⟩
      · intro k' d' addr hreply hfd'
        obtain rfl := hsame k' d' hfd'
        constructor
        · rw [hkeeps.pinned, setEntry_pool_self]
        · simp only at hreply
          split_ifs at hreply
          cases hreply
          rfl

theorem write_stays {buffer : List Byte} (hcareful : Careful fuel mgr s (.write fd buffer))
    (hwrite : s.write fuel mgr fd buffer = some (s', reply)) (x : Slot)
    (hpinned : (s.pool x).pinned = true) (hne : (s.pool x).allocatedAddr ≠ 0) :
    (s'.pool x).pinned = true ∧ (s'.pool x).allocatedAddr = (s.pool x).allocatedAddr := by
  rcases withDescriptor_cases hwrite with ⟨rfl, -⟩ | ⟨k, d, hfd, h⟩
  · exact ⟨hpinned, rfl⟩
  · obtain ⟨⟨t, ok⟩, hdefine, hreply⟩ := map_eq_some_iff.mp h
    have hkeeps := defineMemorySpace_keeps hdefine
    cases ok with
    | false =>
      cases hreply
      rw [hkeeps.same x nofun hpinned]
      exact ⟨hpinned, rfl⟩
    | true =>
      cases hreply
      change (t.pool x).pinned = true ∧ (t.pool x).allocatedAddr = _
      rcases eq_or_ne x k with rfl | hxk
      · have hfits := (hcareful x d hfd hpinned hne).resolve_right (by simp [hwrite])
        rw [defineMemorySpace_in_place hne hfits hdefine]
        exact ⟨hpinned, rfl⟩
      · rw [hkeeps.same x (fun h => hxk (some.inj h)) hpinned]
        exact ⟨hpinned, rfl⟩

theorem mapStep_pinned {st st' : State Fd × (Slot → Option Nat)} {c : Call Fd}
    (h : Pinned st.1.pool st.2) (hcareful : Careful fuel mgr st.1 c)
    (hstep : mapStep fuel mgr st c = some st') : Pinned st'.1.pool st'.2 := by
  obtain ⟨⟨t, reply⟩, hcall, rfl⟩ := map_eq_some_iff.mp hstep
  change Pinned t.pool (given fuel st.1 st.2 c t reply)
  have hother : (∀ fd length, c ≠ .mmap fd length) → ∀ fd length k d addr, c = .mmap fd length →
      reply = .value addr → st.1.findByDescriptor fuel fd = some (some (k, d)) →
        (t.pool k).pinned = true ∧ (t.pool k).allocatedAddr = addr :=
    fun hc fd length _ _ _ hmmap => absurd hmmap (hc fd length)
  cases hc : Call.allocates c with
  | false =>
    have htended := call_tended hc hcall
    refine pinned_given h ?_ (hother ?_)
    · intro x howner hpinned _ _
      rcases htended.entry x with htouched | hfresh
      · exact ⟨htouched.pinned.trans hpinned, htouched.addr⟩
      · rw [hfresh.owner] at howner
        cases howner
    · rintro fd length rfl
      cases hc
  | true =>
    cases c with
    | ftruncate64 fd offset =>
      refine pinned_given h ?_ (hother (by simp))
      intro x _ hpinned _ _
      have hftruncate : st.1.ftruncate64 fuel fd offset = some (t, reply) := hcall
      rcases withDescriptor_cases hftruncate with ⟨rfl, -⟩ | ⟨k, d, -, h⟩
      · exact ⟨hpinned, rfl⟩
      · cases h
        rcases eq_or_ne x k with rfl | hxk
        · rw [setEntry_pool_self]
          exact ⟨hpinned, rfl⟩
        · rw [setEntry_pool_of_ne _ hxk]
          exact ⟨hpinned, rfl⟩
    | mmap fd length =>
      rw [call] at hcall
      split_ifs at hcall
      · cases hcall
        refine pinned_given h (fun x _ hpinned _ _ => ⟨hpinned, rfl⟩) ?_
        intro fd' length' k d addr _ hreply _
        cases hreply
      · obtain ⟨hstay, hmap⟩ := mmap_stays hcareful hcall
        refine pinned_given h (fun x _ hpinned hne _ => hstay x hpinned hne) ?_
        intro fd' length' k d addr hc hreply hfd
        cases hc
        exact hmap k d addr hreply hfd
    | write fd buffer =>
      exact pinned_given h (fun x _ hpinned hne _ => write_stays hcareful hcall x hpinned hne)
        (hother (by simp))
    | _ => cases hc

/-- After every run of careful calls, every file whose address a mapping has returned is
still at that address, unless it has been deleted. -/
theorem mapped_addr_stays (mgr : ShmMgr) (fuel : Nat) (memory : Nat → Byte) (cs : List (Call Fd))
    (s : State Fd) (g : Slot → Option Nat)
    (hcareful : RunMeets (mapStep fuel mgr) (fun st c => Careful fuel mgr st.1 c)
      (initial Fd memory, fun _ => none) cs)
    (hrun : run (mapStep fuel mgr) (initial Fd memory, fun _ => none) cs = some (s, g)) :
    ∀ k addr, g k = some addr → (s.pool k).allocatedAddr = addr := by
  have hpinned := invariant_of_runMeets
    (P := fun st : State Fd × (Slot → Option Nat) => Pinned st.1.pool st.2)
    (fun st c st' h hc hstep => mapStep_pinned h hc hstep)
    (fun k addr h => by cases h) hcareful hrun
  intro k addr hk
  exact (hpinned k addr hk).2.2.1

def twoMappings : List (Call (Fin 2)) :=
  [.openFile [1#8] true false (some 0), .mmap 0 4096, .openFile [2#8] true false (some 1),
    .mmap 1 4096]

theorem mapped_addr_stays_two : ∃ s g,
    run (mapStep 4 oneMegabyte.toShmMgr) (initial (Fin 2) (fun _ => 0#8), fun _ => none)
      (twoMappings ++ [.write 0 [7#8], .ftruncate64 1 1]) = some (s, g) ∧ g 0 = some (2 ^ 20) ∧
      (s.pool 0).allocatedAddr = 2 ^ 20 := by
  have hrun : (run (mapStep 4 oneMegabyte.toShmMgr) (initial (Fin 2) (fun _ => 0#8), fun _ => none)
      (twoMappings ++ [.write 0 [7#8], .ftruncate64 1 1])).map (fun st => st.2 0) =
        some (some (2 ^ 20)) := by
    decide +kernel
  obtain ⟨⟨s, g⟩, hs, hg⟩ := map_eq_some_iff.mp hrun
  exact ⟨s, g, hs, hg, mapped_addr_stays _ 4 _ _ s g (by decide +kernel) hs 0 _ hg⟩

/-- The first file is mapped and pinned, and a write that needs more than its page moves
it behind the second one. -/
theorem not_forall_mapped_addr_stays : ¬ ∀ (r : Region) (fuel : Nat) (memory : Nat → Byte)
    (cs : List (Call (Fin 2))) (s : State (Fin 2)) (g : Slot → Option Nat),
    run (mapStep fuel r.toShmMgr) (initial (Fin 2) memory, fun _ => none) cs = some (s, g) →
      ∀ k addr, g k = some addr → (s.pool k).allocatedAddr = addr := by
  intro hall
  have hmoved : (run (mapStep 4 oneMegabyte.toShmMgr)
      (initial (Fin 2) (fun _ => 0#8), fun _ => none)
      (twoMappings ++ [.write 0 (List.replicate 4097 1#8)])).map
        (fun st => (st.2 0, (st.1.pool 0).allocatedAddr)) =
          some (some (2 ^ 20), 2 ^ 20 + 8192) := by
    decide +kernel
  obtain ⟨⟨s, g⟩, hs, hg⟩ := map_eq_some_iff.mp hmoved
  obtain ⟨hgiven, haddr⟩ := Prod.mk.inj hg
  have hstays := hall oneMegabyte 4 _ _ s g hs 0 _ hgiven
  rw [haddr] at hstays
  cases hstays

end BgqDriver.ShmFSPinned
