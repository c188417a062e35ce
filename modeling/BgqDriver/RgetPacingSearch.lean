import BgqDriver.RgetPacingQueues

/-!
The searches of the agent through its lists: the place of a new work item behind the
items that it must follow, and the next active item that can be injected. Each search
ends, and its result is stated on the list of queues.
-/

namespace BgqDriver.RgetPacing

open Function List Option Nat
open CircularLists
open LinkedChains

variable {k k' : Links} {loose free ensure : List Nat} {Q L M : List Queue} {w x : Nat}
  {ps : List Nat}

theorem length_actives_le : (actives Q).length ≤ (queued Q).length := by
  induction Q with
  | nil => exact Nat.le_refl 0
  | cons y Q ih => simpa using le_add_left_of_le ih

theorem Represents.length_queued_le (h : Represents k loose Q free ensure) :
    (queued Q).length ≤ k.allocated := by
  have hlength := h.perm.length_eq
  simp only [length_append, length_range'] at hlength
  omega

/-- The queues found by following the links -/
def Links.queues (k : Links) : List Queue :=
  (walk k.nextPtr dummy (k.allocated + 1) ((k.nextPtr dummy).getD dummy)).map fun x =>
    (x, walk k.nextPeerPtr x (k.allocated + 1) ((k.nextPeerPtr x).getD x))

variable {fuel : Nat} {rest : List Nat} {a mainItem : Nat} {next : Nat → Option Nat}
  {P : WorkItem → Bool} {m : Matches}

theorem walk_ring {prev : Nat → Option Nat} {l : List Nat} (h : Ring next prev a l)
    (hfuel : l.length < fuel) : walk next a fuel ((next a).getD a) = l := by
  obtain ⟨x, hx⟩ : ∃ x, (l ++ [a]).head? = some x := by cases l <;> simp
  have hnext : next a = some x := (h.linked (l := []) rfl hx).1
  rw [hnext]
  exact walk_eq h.path.tail hx (nodup_cons.mp h.nodup).1 hfuel

theorem length_peers_lt {y : Queue} (hy : y ∈ Q) : y.2.length < (queued Q).length := by
  obtain ⟨L, M, rfl⟩ := append_of_mem hy
  simp only [queued_append, queued_cons, length_append, length_cons]
  omega

theorem Represents.queues_eq (h : Represents k loose Q free ensure) : k.queues = Q := by
  have hlength := h.length_queued_le
  unfold Links.queues
  rw [walk_ring h.ring (lt_succ_of_le (Nat.le_trans length_actives_le hlength)), actives,
    List.map_map]
  conv => rhs; rw [← List.map_id Q]
  refine map_congr_left fun y hy => ?_
  have hpeers : y.2.length < k.allocated + 1 :=
    lt_succ_of_lt (Nat.lt_of_lt_of_le (length_peers_lt hy) hlength)
  exact Prod.ext rfl (walk_ring (h.peers y hy) hpeers)

theorem chain_block (a n : Nat)
    (hnext : ∀ w, a ≤ w → w ≤ a + n → next w = if w = a + n then none else some (w + 1)) :
    Chain next (some a) (List.range' a (n + 1)) := by
  induction n generalizing a with
  | zero =>
    refine ⟨rfl, ?_⟩
    rw [hnext a (Nat.le_refl a) (Nat.le_refl a)]
    exact if_pos rfl
  | succ n ih =>
    refine ⟨rfl, ?_⟩
    rw [hnext a (Nat.le_refl a) (Nat.le_add_right ..), if_neg (by omega)]
    refine ih (a + 1) fun w hlow hhigh => ?_
    rw [hnext w (by omega) (by omega)]
    congr 1
    exact propext ⟨fun h => by omega, fun h => by omega⟩

theorem Represents.grow (h : Represents k [] Q [] ensure) :
    Represents k.grow [] Q (List.range' (k.allocated + 1) numWorkItemsInHeapBlock) ensure := by
  have hold : ∀ a ∈ dummy :: (queued Q ++ ensure), ¬ (k.allocated + 1 ≤ a ∧
      a ≤ k.allocated + numWorkItemsInHeapBlock) := by
    intro a ha
    rcases mem_cons.mp ha with rfl | ha
    · simp [dummy]
    · have hrange := h.perm.mem_iff.mp (by simpa using ha)
      rw [mem_range'_1] at hrange
      omega
  have hnext : ∀ a ∈ dummy :: (queued Q ++ ensure), k.grow.nextPtr a = k.nextPtr a := fun a ha =>
    if_neg (hold a ha)
  have hprev : ∀ a ∈ dummy :: (queued Q ++ ensure), k.grow.prevPtr a = k.prevPtr a := fun a ha =>
    if_neg (hold a ha)
  refine ⟨h.ring.congr ?_ ?_, h.peers, h.cursor, ?_, ?_, ?_⟩
  · exact fun a ha => hnext a (mem_nodes_of_active ha)
  · exact fun a ha => hprev a (mem_nodes_of_active ha)
  · refine chain_block (k.allocated + 1) 15 fun w hlow hhigh => ?_
    have hlast : k.allocated + numWorkItemsInHeapBlock = k.allocated + 1 + 15 := rfl
    simp only [Links.grow, hlast, hlow, hhigh, and_self, if_true]
  · exact DoublyLinked.Segment.congr h.ensureList rfl rfl (fun a ha => hnext a (by simp [ha]))
      fun a ha => hprev a (by simp [ha])
  · have hperm := h.perm
    simp only [nil_append] at hperm ⊢
    have hrange : List.range' 1 k.allocated ++
        List.range' (k.allocated + 1) numWorkItemsInHeapBlock = List.range' 1 k.grow.allocated := by
      rw [Nat.add_comm k.allocated 1, range'_append_1]
      rfl
    rw [← hrange]
    refine Perm.trans ?_ (hperm.append_right _)
    rw [append_assoc]
    exact Perm.append_left _ perm_append_comm

theorem Represents.allocate (h : Represents k [] Q free ensure) :
    ∃ w k' free', k.allocate = some (w, k') ∧ Represents k' [w] Q free' ensure ∧
      k'.nextPtr w = none := by
  obtain ⟨k0, w, free', hk0, h0⟩ : ∃ k0 w free',
      (if k.freeWorkItemList = none then k.grow else k) = k0 ∧
        Represents k0 [] Q (w :: free') ensure := by
    cases free with
    | nil =>
      have hnone : k.freeWorkItemList = none := h.freeList
      exact ⟨_, _, _, if_pos hnone, h.grow⟩
    | cons w free =>
      have hsome : k.freeWorkItemList = some w := h.freeList.1
      exact ⟨_, _, _, if_neg (by simp [hsome]), h⟩
  have hloose : Represents { k0 with freeWorkItemList := k0.nextPtr w } [w] Q free' ensure := by
    refine ⟨h0.ring, h0.peers, h0.cursor, h0.freeList.2, h0.ensureList, ?_⟩
    refine Perm.trans ?_ h0.perm
    simp only [nil_append, cons_append]
    exact perm_middle.symm
  refine ⟨w, { k0 with freeWorkItemList := k0.nextPtr w }.clear w, free', ?_,
    hloose.congr ?_ ?_ ?_ ?_ rfl rfl rfl rfl, ?_⟩
  · have hfree : k0.freeWorkItemList = some w := h0.freeList.1
    simp only [Links.allocate, hk0, hfree, bind_eq_bind, bind_some]
  · exact fun a ha => update_of_ne (by simpa using ha) _ _
  · exact fun a ha => update_of_ne (by simpa using ha) _ _
  · exact fun a ha => update_of_ne (by simpa using ha) _ _
  · exact fun a ha => update_of_ne (by simpa using ha) _ _
  · exact update_self ..

def firstQueue (items : Nat → WorkItem) (P : WorkItem → Bool) (Q : List Queue) : Option Nat :=
  (Q.find? fun y => (y.1 :: y.2).any fun a => P (items a)).map Prod.fst

theorem firstQueue_cons (items : Nat → WorkItem) (P : WorkItem → Bool) (y : Queue) :
    firstQueue items P (y :: M) =
      if (y.1 :: y.2).any fun a => P (items a) then some y.1 else firstQueue items P M := by
  rw [firstQueue, find?_cons]
  cases (y.1 :: y.2).any fun a => P (items a) <;> rfl

theorem exists_of_firstQueue {items : Nat → WorkItem} (h : firstQueue items P Q = some x) :
    ∃ L ps M, Q = L ++ (x, ps) :: M ∧ (x :: ps).any fun a => P (items a) := by
  obtain ⟨y, hy, rfl⟩ := map_eq_some_iff.mp h
  obtain ⟨hany, L, M, hQ, -⟩ := List.find?_eq_some_iff_append.mp hy
  exact ⟨L, y.2, M, hQ, hany⟩

theorem not_any_of_firstQueue {items : Nat → WorkItem} (h : firstQueue items P Q = none)
    (ha : a ∈ queued Q) : P (items a) = false := by
  obtain ⟨y, hy, ha⟩ := mem_flatMap.mp ha
  have hnone := find?_eq_none.mp (map_eq_none_iff.mp h) y hy
  exact Bool.eq_false_iff.mpr fun htrue => hnone (List.any_eq_true.mpr ⟨a, ha, htrue⟩)

section Scan

variable (items : Nat → WorkItem) (id : WorkItemID) (peerID : BitVec 64)

def onPeer (peerID : BitVec 64) (i : WorkItem) : Bool := samePeer i.peerID peerID

def onID (id : WorkItemID) (i : WorkItem) : Bool := i.id == id

theorem scanPeers_eq {peer : Nat}
    (h : Path k.nextPeerPtr k.prevPeerPtr (peer :: (rest ++ [mainItem]))) (hmain : mainItem ∉ rest)
    (hfuel : rest.length < fuel) (hm : m.onPeer = none) :
    ∃ m', scanPeers items k id peerID mainItem fuel peer m = some m' ∧
      m'.onPeer = (if (peer :: rest).any fun a => onPeer peerID (items a) then some mainItem
        else none) ∧
      (m'.onPeer = none → m'.onID =
        if (peer :: rest).any fun a => onID id (items a) then m.onID.or (some mainItem)
        else m.onID) := by
  induction rest generalizing peer fuel m with
  | nil =>
    obtain ⟨fuel, rfl⟩ := exists_eq_succ_of_ne_zero (Nat.ne_of_gt hfuel)
    have hnext : k.nextPeerPtr peer = some mainItem := (List.isChain_pair.mp h).1
    refine ⟨m.note mainItem (items peer) id peerID, ?_, ?_, ?_⟩
    · simp [scanPeers, hnext]
    · simp [Matches.note, onPeer, hm]
    · simp [Matches.note, onID]
  | cons a rest ih =>
    obtain ⟨fuel, rfl⟩ := exists_eq_succ_of_ne_zero (Nat.ne_of_gt (zero_lt_of_lt hfuel))
    obtain ⟨hlinked, hrest⟩ := isChain_cons_cons.mp h
    have hne : a ≠ mainItem := fun heq => hmain (by simp [heq])
    by_cases hpeer : samePeer (items peer).peerID peerID
    · refine ⟨m.note mainItem (items peer) id peerID, ?_, ?_, ?_⟩
      · simp [scanPeers, hlinked.1, Matches.note, hpeer]
      · simp [Matches.note, onPeer, hpeer]
      · simp [Matches.note, hpeer]
    · have hnone : (m.note mainItem (items peer) id peerID).onPeer = none := by
        simp [Matches.note, hpeer, hm]
      obtain ⟨m', hscan, honPeer, honID⟩ := ih hrest (fun hmem => hmain (by simp [hmem]))
        (by simpa using hfuel) hnone
      refine ⟨m', ?_, ?_, ?_⟩
      · simp [scanPeers, hlinked.1, hnone, hne, hscan]
      · simpa [onPeer, hpeer] using honPeer
      · intro hnone'
        rw [honID hnone', any_cons (a := peer)]
        by_cases hid : (items peer).id = id
        all_goals simp [Matches.note, onID, hid]

theorem scanMain_eq (hpath : Path k.nextPtr k.prevPtr (actives M ++ [dummy]))
    (hhead : (actives M ++ [dummy]).head? = some mainItem) (hdummy : dummy ∉ actives M)
    (hpeers : ∀ y ∈ M, Ring k.nextPeerPtr k.prevPeerPtr y.1 y.2 ∧ y.2.length < k.allocated + 1)
    (hfuel : M.length < fuel) (hm : m.onPeer = none) :
    ∃ m', scanMain items k id peerID fuel mainItem m = some m' ∧
      m'.onPeer = firstQueue items (onPeer peerID) M ∧
      (m'.onPeer = none → m'.onID = m.onID.or (firstQueue items (onID id) M)) := by
  induction M generalizing mainItem fuel m with
  | nil =>
    obtain ⟨fuel, rfl⟩ := exists_eq_succ_of_ne_zero (Nat.ne_of_gt hfuel)
    obtain rfl : dummy = mainItem := by simpa using hhead
    exact ⟨m, by simp [scanMain], by simpa [firstQueue] using hm, by simp [firstQueue]⟩
  | cons y M ih =>
    obtain ⟨fuel, rfl⟩ := exists_eq_succ_of_ne_zero (Nat.ne_of_gt (zero_lt_of_lt hfuel))
    obtain rfl : y.1 = mainItem := by simpa using hhead
    have hne : y.1 ≠ dummy := fun heq => hdummy (by simp [heq])
    obtain ⟨hring, hlength⟩ := hpeers y (by simp)
    obtain ⟨m1, hscan, honPeer, honID⟩ := scanPeers_eq items id peerID hring.path
      (nodup_cons.mp hring.nodup).1 hlength hm
    obtain ⟨o, ho⟩ : ∃ o, (actives M ++ [dummy]).head? = some o := by
      cases actives M <;> simp
    have hpath' : Path k.nextPtr k.prevPtr ([y.1] ++ (actives M ++ [dummy])) := hpath
    obtain ⟨-, hrest, hlinked⟩ := path_append.mp hpath'
    have hnext : k.nextPtr y.1 = some o := (hlinked y.1 rfl o ho).1
    have hstep : scanMain items k id peerID (fuel + 1) y.1 m =
        scanMain items k id peerID fuel o m1 := by
      simp [scanMain, hm, hne, hscan, hnext]
    rw [firstQueue_cons, firstQueue_cons, hstep]
    by_cases hany : (y.1 :: y.2).any fun a => onPeer peerID (items a)
    · rw [if_pos hany] at honPeer
      obtain ⟨fuel, rfl⟩ := exists_eq_succ_of_ne_zero (n := fuel) (by
        simp only [length_cons] at hfuel
        omega)
      rw [if_pos hany]
      exact ⟨m1, by simp [scanMain, honPeer], honPeer, by simp [honPeer]⟩
    · rw [if_neg hany] at honPeer
      obtain ⟨m', hscan', honPeer', honID'⟩ := ih hrest ho
        (fun hmem => hdummy (by simp [hmem])) (fun z hz => hpeers z (by simp [hz]))
        (by simpa using hfuel) honPeer
      rw [if_neg hany]
      refine ⟨m', hscan', honPeer', ?_⟩
      intro hnone
      rw [honID' hnone, honID honPeer]
      split
      · rw [Option.or_assoc, some_or]
      · rfl

/-- Where a new work item goes: behind the first queue with its peer identifier, or else
behind the first one with its identity. -/
def followed (items : Nat → WorkItem) (id : WorkItemID) (peerID : BitVec 64) (Q : List Queue) :
    Option Nat :=
  (firstQueue items (onPeer peerID) Q).or (firstQueue items (onID id) Q)

theorem Represents.scan (h : Represents k loose Q free ensure) :
    ∃ mainItem m, k.nextPtr dummy = some mainItem ∧
      scanMain items k id peerID (k.allocated + 1) mainItem ⟨none, none⟩ = some m ∧
      m.onPeer.or m.onID = followed items id peerID Q := by
  have hring : Ring k.nextPtr k.prevPtr dummy ([] ++ actives Q) := h.ring
  obtain ⟨mainItem, hhead⟩ : ∃ o, (actives Q ++ [dummy]).head? = some o := by
    cases actives Q <;> simp
  have hnext : k.nextPtr dummy = some mainItem := (hring.linked rfl hhead).1
  have hqueued := h.length_queued_le
  have hlength : Q.length < k.allocated + 1 := by
    have hactives := length_actives_le (Q := Q)
    rw [actives, length_map] at hactives
    omega
  have hpeers : ∀ y ∈ Q, Ring k.nextPeerPtr k.prevPeerPtr y.1 y.2 ∧
      y.2.length < k.allocated + 1 := by
    intro y hy
    refine ⟨h.peers y hy, ?_⟩
    obtain ⟨L, M, rfl⟩ := append_of_mem hy
    simp only [queued_append, queued_cons, length_append, length_cons] at hqueued
    omega
  obtain ⟨m, hscan, honPeer, honID⟩ := scanMain_eq items id peerID (m := ⟨none, none⟩) hring.right
    hhead (nodup_cons.mp h.ring.nodup).1 hpeers hlength rfl
  refine ⟨mainItem, m, hnext, hscan, ?_⟩
  rw [followed, ← honPeer]
  cases hm : m.onPeer with
  | none => rw [none_or, none_or, honID hm, none_or]
  | some x => rfl

theorem addWorkItem_eq (h : Represents k [] Q free ensure) :
    ∃ w k' free', addWorkItem items k id peerID = some (w, k') ∧ w ∉ dummy :: queued Q ∧
      match followed items id peerID Q with
      | none => (k'.nextPtr w).isSome ∧
          ∃ L M, Q = L ++ M ∧ Represents k' [] (L ++ (w, []) :: M) free' ensure
      | some x => (k'.nextPtr w).isSome = false ∧
          ∃ L ps M, Q = L ++ (x, ps) :: M ∧
            Represents k' [] (L ++ (x, ps ++ [w]) :: M) free' ensure := by
  obtain ⟨w, k1, free', hallocate, h1, hnull⟩ := h.allocate
  obtain ⟨mainItem, m, hmain, hscan, hmatch⟩ := h1.scan items id peerID
  have hnodup := h1.nodup
  have hw : w ∉ dummy :: queued Q := by grind
  cases hx : followed items id peerID Q with
  | none =>
    obtain ⟨L, M, rfl, hcursor⟩ := h1.exists_cursor
    obtain ⟨p, o, -, ho, -, hprev, -, -⟩ := h1.linked
    obtain rfl : k1.nextWorkItemToProcess = o := some.inj (hcursor.symm.trans ho)
    refine ⟨w, k1.insertActive w p, free', ?_, hw, ?_, L, M, rfl, h1.insertActive hcursor hprev⟩
    · simp [addWorkItem, hallocate, hmain, hscan, hmatch, hx, hprev]
    · have hrep := h1.insertActive hcursor hprev
      obtain ⟨-, n, -, -, -, hnext, -, -⟩ := hrep.around
      exact isSome_iff_exists.mpr ⟨n, hnext⟩
  | some x =>
    obtain ⟨L, ps, M, rfl⟩ : ∃ L ps M, Q = L ++ (x, ps) :: M := by
      rcases or_eq_some_iff.mp hx with hfirst | ⟨-, hfirst⟩
      all_goals
        obtain ⟨L, ps, M, hQ, -⟩ := exists_of_firstQueue hfirst
        exact ⟨L, ps, M, hQ⟩
    have hring := h1.peers (x, ps) (by simp)
    have hprev := (Ring.linked (m := []) (by simpa using hring) (getLast?_cons ..) rfl).2
    refine ⟨w, _, free', ?_, hw, ?_, L, ps, M, rfl, h1.insertPeer hprev⟩
    · simp [addWorkItem, hallocate, hmain, hscan, hmatch, hx, hprev]
    · simp [Links.insertPeer, hnull]

end Scan

theorem Represents.rotate (h : Represents k loose Q free ensure) (hw : w ∈ dummy :: actives Q) :
    ∃ rest, Ring k.nextPtr k.prevPtr w rest ∧ (w :: rest).Perm (dummy :: actives Q) ∧
      rest.length ≤ k.allocated := by
  have hlength : (actives Q).length ≤ k.allocated :=
    Nat.le_trans length_actives_le h.length_queued_le
  rcases mem_cons.mp hw with rfl | hw
  · exact ⟨actives Q, h.ring, List.Perm.refl _, hlength⟩
  · obtain ⟨l, m, hlm⟩ := append_of_mem hw
    have hring := h.ring
    rw [hlm] at hring hlength ⊢
    refine ⟨m ++ dummy :: l, hring.rotate, ?_, ?_⟩
    · rw [← cons_append, ← cons_append]
      exact perm_append_comm
    · simp only [length_append, length_cons] at hlength ⊢
      omega

theorem findDPut_eq (d : Data)
    (hpath : Path k.nextPtr k.prevPtr (w :: (rest ++ [k.nextWorkItemToProcess])))
    (hrest : k.nextWorkItemToProcess ∉ rest) (hfuel : rest.length < fuel) :
    ∃ r, findDPut d k fuel w = some r ∧ ∀ x, r = some x → x ∈ w :: rest ∧ d.eligible x = true := by
  induction rest generalizing w fuel with
  | nil =>
    obtain ⟨fuel, rfl⟩ := exists_eq_succ_of_ne_zero (Nat.ne_of_gt hfuel)
    have hnext : k.nextPtr w = some k.nextWorkItemToProcess := (List.isChain_pair.mp hpath).1
    by_cases hw : d.eligible w
    · exact ⟨some w, by simp [findDPut, hw], by simp [hw]⟩
    · exact ⟨none, by simp [findDPut, hw, hnext], by simp⟩
  | cons a rest ih =>
    obtain ⟨fuel, rfl⟩ := exists_eq_succ_of_ne_zero (Nat.ne_of_gt (zero_lt_of_lt hfuel))
    obtain ⟨hlinked, hpath'⟩ := isChain_cons_cons.mp hpath
    by_cases hw : d.eligible w
    · exact ⟨some w, by simp [findDPut, hw], by simp [hw]⟩
    · have ha : a ≠ k.nextWorkItemToProcess := fun ha => hrest (by simp [ha])
      obtain ⟨r, hfind, hr⟩ := ih hpath' (fun hmem => hrest (by simp [hmem]))
        (by simpa using hfuel)
      refine ⟨r, by simp [findDPut, hw, hlinked.1, ha, hfind], fun x hx => ?_⟩
      exact ⟨mem_cons_of_mem w (hr x hx).1, (hr x hx).2⟩

theorem Represents.findDPut (h : Represents k loose Q free ensure) (d : Data) :
    ∃ r, findDPut d k (k.allocated + 1) k.nextWorkItemToProcess = some r ∧
      ∀ x, r = some x → x ∈ actives Q ∧ d.eligible x = true := by
  obtain ⟨rest, hring, hperm, hlength⟩ := h.rotate h.cursor
  obtain ⟨r, hfind, hr⟩ := findDPut_eq d hring.path (nodup_cons.mp hring.nodup).1
    (lt_succ_of_le hlength)
  refine ⟨r, hfind, fun x hx => ⟨?_, (hr x hx).2⟩⟩
  obtain ⟨hmem, heligible⟩ := hr x hx
  have hdummy : x ≠ dummy := by
    rintro rfl
    simp [Data.eligible] at heligible
  exact (mem_cons.mp (hperm.mem_iff.mp hmem)).resolve_left hdummy

theorem findNonDPut_eq (d : Data) {stop : Nat}
    (hpath : Path k.nextPtr k.prevPtr (w :: (rest ++ [stop]))) (hfuel : rest.length < fuel)
    (hsome : ∃ x ∈ w :: rest, x ≠ dummy ∧ isDPutWorkItem d x = false) :
    ∃ x ∈ w :: rest, findNonDPut d k fuel w = some x ∧ x ≠ dummy ∧ isDPutWorkItem d x = false := by
  induction rest generalizing w fuel with
  | nil =>
    obtain ⟨fuel, rfl⟩ := exists_eq_succ_of_ne_zero (Nat.ne_of_gt hfuel)
    obtain ⟨x, hx, hdummy, hput⟩ := hsome
    obtain rfl := mem_singleton.mp hx
    exact ⟨x, by simp, by simp [findNonDPut, hdummy, hput], hdummy, hput⟩
  | cons a rest ih =>
    obtain ⟨fuel, rfl⟩ := exists_eq_succ_of_ne_zero (Nat.ne_of_gt (zero_lt_of_lt hfuel))
    obtain ⟨hlinked, hpath'⟩ := isChain_cons_cons.mp hpath
    by_cases hw : w = dummy ∨ isDPutWorkItem d w = true
    · obtain ⟨x, hx, hdummy, hput⟩ := hsome
      have hxw : x ≠ w := by
        rintro rfl
        simp [hdummy, hput] at hw
      have hx' : x ∈ a :: rest := (mem_cons.mp hx).resolve_left hxw
      obtain ⟨y, hy, hfind, hdummy', hput'⟩ := ih hpath' (by simpa using hfuel)
        ⟨x, hx', hdummy, hput⟩
      exact ⟨y, mem_cons_of_mem w hy, by simp [findNonDPut, hw, hlinked.1, hfind], hdummy',
        hput'⟩
    · rw [not_or, Bool.not_eq_true] at hw
      exact ⟨w, by simp, by simp [findNonDPut, hw.1, hw.2], hw.1, hw.2⟩

theorem Represents.findNonDPut (h : Represents k loose Q free ensure) (d : Data)
    (hw : w ∈ dummy :: actives Q) (hsome : ∃ x ∈ actives Q, isDPutWorkItem d x = false) :
    ∃ x ∈ actives Q, findNonDPut d k (k.allocated + 1) w = some x ∧
      isDPutWorkItem d x = false := by
  obtain ⟨rest, hring, hperm, hlength⟩ := h.rotate hw
  obtain ⟨x, hx, hput⟩ := hsome
  have hdummy : x ≠ dummy := fun heq => (nodup_cons.mp h.ring.nodup).1 (heq ▸ hx)
  obtain ⟨y, hy, hfind, hdummy', hput'⟩ := findNonDPut_eq d hring.path (lt_succ_of_le hlength)
    ⟨x, hperm.mem_iff.mpr (mem_cons_of_mem _ hx), hdummy, hput⟩
  exact ⟨y, (mem_cons.mp (hperm.mem_iff.mp hy)).resolve_left hdummy', hfind, hput'⟩

end BgqDriver.RgetPacing
