import BgqDriver.ShmFSRefinement

/-!
The calls on shared-memory files, one by one and in runs, as calls on arrays of bytes.
They are that in runs of careful calls.
-/

namespace BgqDriver.ShmFSPosix

open Function Option List
open ByteMemory ExtentTables ShmFS EventRuns
open PosixFiles ShmFSExtents ShmFSCompaction ShmFSRuns
open ShmFSContents ShmFSRefinement State Refines

variable {Fd : Type*} {r : Region} {s s' t : State Fd} {k x : Slot} {fuel n : Nat} {fd : Fd}
  {path : Path} {idOf : Slot → Nat} {g : Files Path Fd Byte}
  {buffer : List Byte} {offset : Int} {whence : Whence} {length : Nat}

theorem unlink_eq (hfound : findByName s.pool path = some x)
    (hlink : (s.pool x).isHardLink = false) (hfuel : 0 < fuel) :
    s.unlink fuel path = some (if (s.pool x).linkCount = 0#32 then s.remove x
      else s.setEntry x { s.pool x with markForDelete := true }, .value 0) := by
  have hcount : (if (s.pool x).isHardLink = true then (s.pool x).linkCount - 1#32
      else (s.pool x).linkCount) = (s.pool x).linkCount := if_neg (by simp [hlink])
  have hsame : s.setEntry x (s.pool x) = s := by
    rw [setEntry, update_eq_self]
  rw [State.unlink, hfound]
  simp only [resolve_eq hlink hfuel, map_some, hcount]
  rw [hsame]

theorem Refines.store {addr o : Nat} (h : Refines r t g idOf) (hk : Live t.pool k)
    (hspace : n = max (t.pool k).allocatedSize (o + buffer.length))
    (hbuffer : buffer ≠ [] ∨ o ≤ (t.pool k).allocatedSize)
    (hmoves : Moves r t s k addr n) (hgrown : Grown t s k n) :
    Refines r { s with memory := store s.memory (addr + o) buffer }
      (g.setFile (idOf k) ((g.files (idOf k)).write o buffer)) idOf := by
  have hholds := h.contents.holds k hk
  have hbytes := Moves.byte hmoves hk.1 hgrown hholds
  have hsize := hholds.size
  have hself : s.pool k = { t.pool k with allocatedAddr := addr, allocatedSize := n } := by
    rw [hmoves.pool, setSpace_pool_self]
  rw [hsize] at hbuffer hspace
  have hsame := Moves.sameFile hmoves
  refine setFile h hk hsame hmoves.fds
    (hmoves.separates h.contents.separates) ⟨?_, ?_, ?_⟩ ?_
  · rw [File.size_write hbuffer, ← hspace, hself]
  · intro hzero
    rw [hself] at hzero
    exact absurd hzero hmoves.addr_ne_zero
  · intro i hi
    rw [File.size_write hbuffer, ← hspace] at hi
    rw [File.byte_write, hself]
    simp only
    rcases Nat.lt_or_ge i o with hbefore | hfrom
    · rw [store_outside (by omega), store_outside (by omega), hbytes i hi]
    · rcases Nat.lt_or_ge i (o + buffer.length) with hinside | hbehind
      · obtain ⟨j, rfl⟩ := Nat.exists_eq_add_of_le hfrom
        rw [← Nat.add_assoc, store_inside (by omega), store_inside (by omega)]
      · rw [store_outside (by omega), store_outside (by omega), hbytes i hi]
  · intro x hx hxlive
    have hmoved := Moves.holds_of_ne hmoves hx hxlive.1 (h.contents.holds x hxlive)
    refine hmoved.of_frame ((Moves.sameFile hmoves x).owner.trans hxlive.1) rfl
      (fun _ hout => store_outside hout) ?_
    intro e he
    have hsame : extents t.pool x = some e := by
      rw [extents, hmoves.pool, setSpace_pool_of_ne _ hx] at he
      exact he
    rcases hmoves.clear x e hsame hx with hbelow | habove
    · exact .inl (by omega)
    · exact .inr (by omega)

theorem refines_initial (r : Region) (memory : Nat → Byte) :
    Refines r (initial Fd memory) Files.initial fun _ => 0 := by
  have hlive : ∀ x, ¬ Live (initial Fd memory).pool x := by
    rintro x ⟨howner, -⟩
    cases howner
  refine ⟨⟨fun x hx => absurd hx (hlive x), fun x _ hx => absurd hx (hlive x), ?_⟩,
    ⟨fun fd => rfl, ?_, ?_⟩, separates_initial r memory, fun x => rfl,
    fun x hx => absurd hx (hlive x)⟩
  · intro path hpath id
    refine iff_of_false ?_ ?_
    · intro hnone
      cases hnone
    · rintro ⟨x, hx, -⟩
      exact hlive x (hx.live hpath)
  · intro fd d hfd
    cases hfd
  · intro k users husers
    have hnone : users = ∅ := by
      rw [Finset.eq_empty_iff_forall_notMem]
      intro fd hmem
      obtain ⟨d, hd, -⟩ := husers fd hmem
      cases hd
    rw [hnone]
    exact Nat.zero_le _

variable [DecidableEq Fd]

def observe (g : Files Path Fd Byte) : Call Fd → Reply Fd → Files Path Fd Byte
  | .openFile pathname _ _ _, .descriptor fd => g.openName pathname fd
  | .close fd, .value _ => g.close fd
  | .ftruncate64 fd offset, .value _ => g.truncate fd offset.toNat
  | .lseek fd _ _, .value n => g.seek fd n
  | .read fd _, .bytes bs => g.advance fd bs.length
  | .unlink pathname, .value _ => g.unlink pathname
  | .write fd buffer, .value _ => g.write fd buffer
  | _, _ => g

/-- A call, with what the replies tell of the files -/
def tracedStep (fuel : Nat) (mgr : ShmMgr) (p : State Fd × Files Path Fd Byte) (c : Call Fd) :
    Option (State Fd × Files Path Fd Byte) :=
  (call fuel mgr p.1 c).map fun q => (q.1, observe p.2 c q.2)

/-- The calls, other than links and mappings, that keep what the files hold. An open gets a
free descriptor, its name fits `FileName` with the terminator, and the count of the file does
not wrap. A truncation is not to nothing and not over the next file, and a read does not start
behind the end. A write is of some bytes or within the file, does not ask for more than 64 bits
can count, and what the truncation or the write makes the file grow over without clearing it is
zero already. -/
def Careful (fuel : Nat) (r : Region) (s : State Fd) : Call Fd → Prop
  | .openFile pathname _ _ fd =>
    pathname ≠ [] ∧ pathname.length < 256 ∧ (∀ fd' ∈ fd, s.fds fd' = none) ∧
      ∀ x ∈ findByName s.pool pathname, (s.pool x).linkCount ≠ BitVec.allOnes 32
  | .close _ | .ioctl _ | .lseek .. => True
  | .ftruncate64 fd offset => OnFile fuel s fd fun k _ => 0 ≤ offset ∧ offset < 2 ^ 64 ∧
      if (s.pool k).allocatedAddr = 0 then offset = 0
      else 0 < offset ∧
        (s.pool k).allocatedAddr + offset.toNat ≤ ceiling r.toShmMgr s.pool (s.pool k) ∧
        ∀ i < offset.toNat, (s.pool k).allocatedSize ≤ i →
          s.memory ((s.pool k).allocatedAddr + i) = 0#8
  | .read fd _ => OnFile fuel s fd fun k d =>
    (s.pool k).allocatedAddr ≠ 0 → d.offset ≤ (s.pool k).allocatedSize
  | .unlink pathname => pathname ≠ []
  | .write fd buffer => OnFile fuel s fd fun k d =>
    let space := max (s.pool k).allocatedSize (d.offset + buffer.length)
    (buffer ≠ [] ∨ d.offset ≤ (s.pool k).allocatedSize) ∧ Roomy r space ∧ Clean r s k space
  | .link .. | .mmap .. => False

instance (fuel : Nat) (r : Region) (s : State Fd) : ∀ c, Decidable (Careful fuel r s c)
  | .openFile .. => inferInstanceAs (Decidable (_ ∧ _ ∧ _))
  | .ftruncate64 .. => inferInstanceAs (Decidable (OnFile _ _ _ _))
  | .read .. => inferInstanceAs (Decidable (OnFile _ _ _ _))
  | .write .. => inferInstanceAs (Decidable (OnFile _ _ _ _))
  | .unlink _ => inferInstanceAs (Decidable (_ ≠ _))
  | .close _ | .ioctl _ | .lseek .. => isTrue trivial
  | .link .. | .mmap .. => isFalse id

section Calls

section

variable (h : Refines r s g idOf) (hfuel : 0 < fuel) (fd : Fd)
include h hfuel

theorem close_refines : ∃ s' reply, s.close fuel fd = some (s', reply) ∧
      Refines r s' (observe g (.close fd) reply) idOf := by
  rw [State.close]
  cases hfd : s.fds fd with
  | none =>
    rw [withDescriptor_none hfd]
    exact ⟨_, _, rfl, h⟩
  | some d =>
    rw [withDescriptor_some h.contents.notLink hfuel hfd]
    refine ⟨_, _, rfl, ?_⟩
    have htouched : Touched (s.pool d.slot) { s.pool d.slot with
      linkCount := (s.pool d.slot).linkCount - 1#32 } := ⟨id, rfl, rfl, rfl⟩
    have hclosed := refines_setFd (Directory.setEntry h.directory htouched rfl rfl fun _ => rfl)
      (Contents.setEntry h.contents htouched rfl (h.contents.notLink d.slot) rfl)
      (Handles.close h.handles hfd) ⟨rfl, rfl, rfl⟩
    split
    next hlast =>
      refine Refines.remove hclosed hlast.1 ?_
      rw [setFd, setEntry_pool_self]
      exact hlast.2
    · exact hclosed

theorem ioctl_refines : ∃ s' reply, s.ioctl fuel fd = some (s', reply) ∧
      Refines r s' (observe g (.ioctl fd) reply) idOf := by
  rw [State.ioctl]
  cases hfd : s.fds fd with
  | none =>
    rw [withDescriptor_none hfd]
    exact ⟨_, _, rfl, h⟩
  | some d =>
    rw [withDescriptor_some h.contents.notLink hfuel hfd]
    refine ⟨_, _, rfl, ?_⟩
    have htouched : Touched (s.pool d.slot) { s.pool d.slot with needAtomic := true } :=
      ⟨id, rfl, rfl, rfl⟩
    exact ⟨Directory.setEntry h.directory htouched rfl rfl fun _ => rfl,
      Handles.setEntry h.handles rfl fun _ _ _ _ => ⟨rfl, rfl, Nat.le_refl _⟩,
      Contents.setEntry h.contents htouched rfl (h.contents.notLink d.slot) rfl⟩

theorem lseek_refines (offset : Int)
    (whence : Whence) : ∃ s' reply, s.lseek fuel fd offset whence = some (s', reply) ∧
      Refines r s' (observe g (.lseek fd offset whence) reply) idOf := by
  rw [State.lseek]
  cases hfd : s.fds fd with
  | none =>
    rw [withDescriptor_none hfd]
    exact ⟨_, _, rfl, h⟩
  | some d =>
    rw [withDescriptor_some h.contents.notLink hfuel hfd]
    simp only
    split
    · exact ⟨_, _, rfl, h⟩
    · exact ⟨_, _, rfl, seek h hfd _⟩

end

section

variable (h : Refines r s g idOf) (hfuel : 0 < fuel)
include h hfuel

theorem unlink_refines (hpath : path ≠ []) : ∃ s' reply, s.unlink fuel path = some (s', reply) ∧
      Refines r s' (observe g (.unlink path) reply) idOf := by
  cases hfound : findByName s.pool path with
  | none =>
    rw [State.unlink, hfound]
    exact ⟨_, _, rfl, h⟩
  | some x =>
    have hnamed := findByName_some hfound
    have hlink := h.contents.notLink x
    refine ⟨_, _, unlink_eq hfound hlink hfuel, ?_⟩
    split
    next hzero =>
      have htouched : Touched (s.pool x) { s.pool x with owner := false } :=
        ⟨Bool.noConfusion, rfl, rfl, rfl⟩
      rw [remove_eq h.contents.notLink]
      exact ⟨Directory.unlink h.directory hpath hnamed htouched rfl fun h => Bool.noConfusion h.1,
        Handles.remove h.handles rfl hzero, Contents.setEntry h.contents htouched rfl hlink rfl⟩
    · have htouched : Touched (s.pool x) { s.pool x with markForDelete := true } :=
        ⟨id, rfl, rfl, rfl⟩
      exact ⟨Directory.unlink h.directory hpath hnamed htouched rfl fun h => Bool.noConfusion h.2,
        Handles.setEntry h.handles rfl fun _ _ _ _ => ⟨rfl, rfl, Nat.le_refl _⟩,
        Contents.setEntry h.contents htouched rfl hlink rfl⟩

theorem read_refines (hcareful : Careful fuel r s (.read fd length)) :
    ∃ s' reply, s.read fuel fd length = some (s', reply) ∧
      Refines r s' (observe g (.read fd length) reply) idOf ∧
      ∀ id o, g.opened fd = some (id, o) → reply = .bytes ((g.files id).read o length) := by
  rw [State.read]
  have hopened := h.handles.opened fd
  cases hfd : s.fds fd with
  | none =>
    rw [hfd, map_none] at hopened
    rw [withDescriptor_none hfd]
    refine ⟨_, _, rfl, h, ?_⟩
    intro id o hid
    rw [hopened] at hid
    cases hid
  | some d =>
    rw [hfd, map_some] at hopened
    have hlive := h.handles.live fd d hfd
    have hholds := h.contents.holds d.slot hlive
    have hsize := hholds.size
    have hstart := hcareful d.slot d (findByDescriptor_some h.contents.notLink hfuel hfd)
    rw [withDescriptor_some h.contents.notLink hfuel hfd]
    simp only
    split
    next hzero =>
      refine ⟨_, _, rfl, ?_, ?_⟩
      · have hstay := seek h hfd d.offset
        simp only [observe, Files.advance, hopened, length_nil, Nat.add_zero]
        have hself : s.setFd fd (some { d with offset := d.offset }) = s := by
          rw [setFd, ← hfd, update_eq_self]
        rwa [hself] at hstay
      · intro id o hid
        rw [hopened] at hid
        cases hid
        have hnone := hholds.none hzero
        rw [File.read, hnone, Nat.zero_sub, Nat.min_zero]
        rfl
    next hne =>
      have hupper := h.contents.separates.upper _ _ (extents_of_owner hlive.1 hne)
      have hle := r.le
      simp only [Extent.limit] at hupper
      rw [sub64_eq (by omega) (by omega), add64_eq (by omega), add64_eq (by omega)]
      refine ⟨_, _, rfl, ?_, ?_⟩
      · simp only [observe, Files.advance, hopened, length_load]
        exact seek h hfd _
      · intro id o hid
        rw [hopened] at hid
        cases hid
        rw [File.read, ← hsize, Reply.bytes.injEq, load, load]
        apply map_congr_left
        intro i hi
        rw [mem_range] at hi
        rw [Nat.add_assoc]
        exact hholds.byte _ (by omega)

theorem ftruncate64_refines (hcareful : Careful fuel r s (.ftruncate64 fd offset)) :
    ∃ s' reply, s.ftruncate64 fuel fd offset = some (s', reply) ∧
      Refines r s' (observe g (.ftruncate64 fd offset) reply) idOf := by
  have hopened := h.handles.opened fd
  cases hfd : s.fds fd with
  | none =>
    rw [State.ftruncate64, withDescriptor_none hfd]
    exact ⟨_, _, rfl, h⟩
  | some d =>
    have hfound := findByDescriptor_some h.contents.notLink hfuel hfd
    obtain ⟨hpos, hlt, hcase⟩ := hcareful d.slot d hfound
    have hlive := h.handles.live fd d hfd
    have hholds := h.contents.holds d.slot hlive
    have hsize := hholds.size
    rw [hfd, map_some] at hopened
    have hto : toU64 offset = offset.toNat := by
      rw [toU64, Int.emod_eq_of_lt hpos hlt]
    have hcall : s.ftruncate64 fuel fd offset =
        some (s.setSpace d.slot (s.pool d.slot).allocatedAddr offset.toNat, .value 0) := by
      rw [State.ftruncate64, withDescriptor_some h.contents.notLink hfuel hfd, hto]
      rfl
    have hseparates := ftruncate64_separates h.contents.separates (by
      intro k d' hk hne
      rw [hfound] at hk
      cases hk
      rw [if_neg hne] at hcase
      rw [hto]
      exact ⟨by omega, hcase.2.1⟩) hcall
    refine ⟨_, _, hcall, ?_⟩
    simp only [observe, Files.truncate, hopened]
    refine setFile h hlive (sameFile_setEntry ⟨rfl, rfl, rfl, rfl, rfl⟩) rfl hseparates
      ⟨?_, ?_, ?_⟩ ?_
    · rw [setSpace_pool_self, File.truncate]
    · intro hzero
      rw [setSpace_pool_self] at hzero
      rw [if_pos hzero] at hcase
      rw [File.truncate, hcase]
      rfl
    · intro i hi
      rw [setSpace_pool_self]
      simp only [File.truncate] at hi ⊢
      rw [if_pos hi]
      have hne : (s.pool d.slot).allocatedAddr ≠ 0 := by
        intro hzero
        rw [if_pos hzero] at hcase
        omega
      rw [if_neg hne] at hcase
      rcases Nat.lt_or_ge i (s.pool d.slot).allocatedSize with hold | hnew
      · exact hholds.byte i (by omega)
      · rw [(g.files (idOf d.slot)).zero i (by omega)]
        exact hcase.2.2 i hi hnew
    · intro x hx hxlive
      refine (h.contents.holds x hxlive).of_entry ?_ ?_ rfl
      all_goals rw [setSpace_pool_of_ne _ hx]

end

theorem write_refines (h : Refines r s g idOf) (hfuel : shmMaxOpens < fuel)
    (hcareful : Careful fuel r s (.write fd buffer)) :
    ∃ s' reply, s.write fuel r.toShmMgr fd buffer = some (s', reply) ∧
      Refines r s' (observe g (.write fd buffer) reply) idOf := by
  have hfuel' : 0 < fuel := by omega
  have hopened := h.handles.opened fd
  rw [State.write]
  cases hfd : s.fds fd with
  | none =>
    rw [withDescriptor_none hfd]
    exact ⟨_, _, rfl, h⟩
  | some d =>
    obtain ⟨hbuffer, hroomy, hclean⟩ := hcareful d.slot d
      (findByDescriptor_some h.contents.notLink hfuel' hfd)
    have hlive := h.handles.live fd d hfd
    have hlt := hroomy.le
    rw [hfd, map_some] at hopened
    have hspace : s.writeSpace d.slot d buffer.length =
        max (s.pool d.slot).allocatedSize (d.offset + buffer.length) := by
      rw [writeSpace, add64_eq (by omega)]
    obtain ⟨calls, rfl⟩ : ∃ calls, fuel = calls + 2 := by
      have hne : shmMaxOpens ≠ 0 := NeZero.ne _
      exact ⟨fuel - 2, by omega⟩
    obtain ⟨u, ok, hdefine⟩ := defineMemorySpace_returns h.contents.separates hfuel d.slot
      (max (s.pool d.slot).allocatedSize (d.offset + buffer.length)) calls
    rw [withDescriptor_some h.contents.notLink hfuel' hfd, hspace, hdefine, map_some]
    obtain ⟨t, hst, ⟨rfl, rfl⟩ | ⟨rfl, ⟨addr, hmoves⟩, hgrown⟩⟩ :=
      defineMemorySpace_grown h.contents.separates hlive.1 hroomy hclean hdefine
    · exact ⟨_, _, rfl, compacts h hst⟩
    · refine ⟨_, _, rfl, ?_⟩
      have ht := compacts h hst
      have hentry := (hst.entry d.slot).1
      have hsize : (t.pool d.slot).allocatedSize = (s.pool d.slot).allocatedSize := by
        rw [hentry]
      have haddr : (u.pool d.slot).allocatedAddr = addr := by
        rw [hmoves.pool, setSpace_pool_self]
      have hstored := Refines.store ht ((Compacts.sameFile hst d.slot).live.mpr hlive)
        (by rw [hsize]) (by rwa [hsize]) hmoves hgrown
      have hupper := hmoves.upper
      simp only [observe, Files.write, hopened, haddr]
      rw [add64_eq (by omega), add64_eq (by omega)]
      have hfdu : u.fds fd = some d := by
        rw [hmoves.fds, hst.fds]
        exact hfd
      exact seek hstored (d := d) hfdu _

theorem openFile_refines {creat excl : Bool} {fd : Option Fd} (h : Refines r s g idOf)
    (hfuel : 0 < fuel) (hcareful : Careful fuel r s (.openFile path creat excl fd)) :
    ∃ s' reply idOf', s.openFile fuel path creat excl fd = some (s', reply) ∧
      Refines r s' (observe g (.openFile path creat excl fd) reply) idOf' := by
  obtain ⟨hpath, hlength, hfree, hcount⟩ := hcareful
  have hname : storedName path = path := take_of_length_le (Nat.le_of_lt hlength)
  rw [State.openFile, hname]
  cases hfound : findByName s.pool path with
  | some x =>
    have hnamed := findByName_some hfound
    have hlink := h.contents.notLink x
    have htouched : Touched (s.pool x) { s.pool x with
      linkCount := (s.pool x).linkCount + 1#32 } := ⟨id, rfl, rfl, rfl⟩
    have hcontents := Contents.setEntry h.contents htouched rfl hlink rfl
    have hdirectory := Directory.setEntry h.directory htouched rfl rfl fun _ => rfl
    have hwrap := hcount x hfound
    simp only [resolve_eq hlink hfuel, map_some]
    split
    · exact ⟨_, _, idOf, rfl, h⟩
    · cases fd with
      | none =>
        refine ⟨_, _, idOf, rfl, hdirectory, Handles.setEntry h.handles rfl ?_, hcontents⟩
        intro fd d _ _
        refine ⟨rfl, rfl, ?_⟩
        rw [toNat_add_one hwrap]
        exact Nat.le_succ _
      | some fd =>
        refine ⟨_, _, idOf, rfl, ?_⟩
        simp only [observe, Files.openName, h.directory.names_some hpath hfound]
        exact refines_setFd hdirectory hcontents
          (Handles.attach h.handles (hnamed.live hpath) hwrap) ⟨rfl, rfl, rfl⟩
  | none =>
    simp only
    split
    · exact ⟨_, _, idOf, rfl, h⟩
    · cases hslot : freeSlot s.pool with
      | none => exact ⟨_, _, idOf, rfl, h⟩
      | some k =>
        have hk := freeSlot_owner hslot
        cases fd with
        | none => exact ⟨_, _, idOf, rfl, nameless h hk⟩
        | some fd =>
          refine ⟨_, _, update idOf k g.next, rfl, ?_⟩
          simp only [observe, Files.openName, h.directory.names_none hpath hfound]
          exact refines_setFd (Directory.create h.directory hpath hfound hk rfl rfl rfl)
            (Contents.create h.contents h.directory ⟨hk, rfl, rfl, rfl⟩ rfl)
            (Handles.create h.handles hk rfl hpath rfl) ⟨rfl, rfl, rfl⟩

end Calls

/-- A read returns the bytes that were written. -/
def ReadRight (fuel : Nat) (mgr : ShmMgr) (p : State Fd × Files Path Fd Byte) (fd : Fd)
    (length : Nat) : Prop :=
  ∀ id o, p.2.opened fd = some (id, o) →
    ∃ t, call fuel mgr p.1 (.read fd length) = some (t, .bytes ((p.2.files id).read o length))

section Runs

theorem tracedStep_refines {p : State Fd × Files Path Fd Byte} {c : Call Fd}
    (hfuel : shmMaxOpens < fuel) (h : ∃ idOf, Refines r p.1 p.2 idOf)
    (hcareful : Careful fuel r p.1 c) :
    ∃ q, tracedStep fuel r.toShmMgr p c = some q ∧ ∃ idOf, Refines r q.1 q.2 idOf := by
  obtain ⟨s, g⟩ := p
  obtain ⟨idOf, h⟩ := h
  have hpos : 0 < fuel := Nat.zero_lt_of_lt hfuel
  have hkeep : (∃ s' reply, call fuel r.toShmMgr s c = some (s', reply) ∧
      Refines r s' (observe g c reply) idOf) →
      ∃ s' reply idOf', call fuel r.toShmMgr s c = some (s', reply) ∧
        Refines r s' (observe g c reply) idOf' := by
    rintro ⟨s', reply, hcall, hrefines⟩
    exact ⟨s', reply, idOf, hcall, hrefines⟩
  have hcall : ∃ s' reply idOf', call fuel r.toShmMgr s c = some (s', reply) ∧
      Refines r s' (observe g c reply) idOf' := by
    cases c with
    | openFile path creat excl fd =>
      obtain ⟨s', reply, idOf', hopen, hrefines⟩ := openFile_refines h hpos hcareful
      refine ⟨s', reply, idOf', ?_, hrefines⟩
      rw [call, if_pos, hopen]
      cases fd with
      | none => rfl
      | some fd =>
        have hfree := hcareful.2.2.1 fd rfl
        simp only at hfree
        simp [hfree]
    | close fd => exact hkeep (close_refines h hpos fd)
    | ftruncate64 fd offset => exact hkeep (ftruncate64_refines h hpos hcareful)
    | ioctl fd => exact hkeep (ioctl_refines h hpos fd)
    | lseek fd offset whence => exact hkeep (lseek_refines h hpos fd offset whence)
    | read fd length =>
      obtain ⟨s', reply, hcall, hrefines, -⟩ := read_refines h hpos hcareful
      exact ⟨s', reply, idOf, hcall, hrefines⟩
    | unlink path => exact hkeep (unlink_refines h hpos hcareful)
    | write fd buffer => exact hkeep (write_refines h hfuel hcareful)
    | link path linkPath | mmap fd length => cases hcareful
  obtain ⟨s', reply, idOf', hcall, hrefines⟩ := hcall
  refine ⟨(s', observe g c reply), ?_, idOf', hrefines⟩
  rw [tracedStep, hcall, map_some]

end Runs

/-- Two files; the first one is written over its page, so that it has to move. -/
def movedFile : List (Call (Fin 2)) :=
  [.openFile [1#8] true false (some 0), .write 0 [5#8, 6#8], .openFile [2#8] true false (some 1),
    .write 1 [7#8], .write 0 (replicate 4096 8#8), .unlink [2#8], .lseek 0 1 .SEEK_SET]

/-- The calls of which nothing but the contents of files is expected. -/
def plain : Call Fd → Bool
  | .ioctl _ | .link .. | .mmap .. => false
  | _ => true

/-- A file of two bytes is truncated to one; the descriptor stays behind the end. -/
def shortFile : List (Call (Fin 2)) :=
  [.openFile [1#8] true false (some 0), .write 0 [5#8, 6#8], .ftruncate64 0 1]

end BgqDriver.ShmFSPosix
