import BgqDriver.CircularLists
import BgqDriver.DoublyLinked
import BgqDriver.RgetPacing

/-!
The lists of work items as lists. The agent's links represent a list of queues, each an
active item with the items that wait behind it, a free list, and a list of items whose
descriptor is still in the injection fifo. The operations on the links are followed on
these lists.
-/

namespace BgqDriver.RgetPacing

open Function List Option
open CircularLists
open LinkedChains

abbrev Queue := Nat × List Nat

def Queue.members (x : Queue) : List Nat := x.1 :: x.2

def actives (Q : List Queue) : List Nat := Q.map Prod.fst

def queued (Q : List Queue) : List Nat := Q.flatMap Queue.members

def Links.ensureLinks (k : Links) : DoublyLinked.Links Nat :=
  ⟨k.ensureWorkItemList, k.nextPtr, k.prevPtr⟩

/-- The links are those of the queues and lists, which hold every item but the `loose` ones once. -/
structure Represents (k : Links) (loose : List Nat) (Q : List Queue) (free ensure : List Nat) :
    Prop where
  ring : Ring k.nextPtr k.prevPtr dummy (actives Q)
  peers : ∀ x ∈ Q, Ring k.nextPeerPtr k.prevPeerPtr x.1 x.2
  cursor : k.nextWorkItemToProcess ∈ dummy :: actives Q
  freeList : Chain k.nextPtr k.freeWorkItemList free
  ensureList : k.ensureLinks.Lists ensure
  perm : (loose ++ (queued Q ++ (free ++ ensure))).Perm (range' 1 k.allocated)

variable {k k' : Links} {loose free ensure : List Nat} {Q L M : List Queue} {w x : Nat}
  {ps : List Nat}

@[simp]
theorem actives_append : actives (L ++ M) = actives L ++ actives M := map_append

variable {y : Queue} {a p n : Nat}

@[simp]
theorem actives_cons : actives (y :: M) = y.1 :: actives M := rfl

@[simp]
theorem actives_nil : actives [] = [] := rfl

@[simp]
theorem queued_append : queued (L ++ M) = queued L ++ queued M := flatMap_append

@[simp]
theorem queued_cons : queued (y :: M) = y.1 :: (y.2 ++ queued M) := rfl

@[simp]
theorem queued_nil : queued [] = [] := rfl

theorem queued_start_perm : (queued (L ++ (w, []) :: M)).Perm (w :: queued (L ++ M)) := by
  simp only [queued_append, queued_cons, nil_append]
  exact perm_middle

theorem queued_follow_perm :
    (queued (L ++ (x, ps ++ [w]) :: M)).Perm (w :: queued (L ++ (x, ps) :: M)) := by
  have hmiddle : ((queued L ++ x :: ps) ++ w :: queued M).Perm
      (w :: ((queued L ++ x :: ps) ++ queued M)) := perm_middle
  simpa using hmiddle

theorem mem_queued_of_mem (hy : y ∈ Q) (ha : a ∈ y.1 :: y.2) : a ∈ queued Q :=
  mem_flatMap.mpr ⟨y, hy, ha⟩

theorem mem_queued_of_active (h : x ∈ actives Q) : x ∈ queued Q := by
  obtain ⟨y, hy, rfl⟩ := mem_map.mp h
  exact mem_queued_of_mem hy (by simp)

theorem mem_nodes_of_active {rest : List Nat} (h : x ∈ dummy :: actives Q) :
    x ∈ dummy :: (queued Q ++ rest) := by
  rcases mem_cons.mp h with rfl | h
  · simp
  · simp [mem_queued_of_active h]

theorem Represents.nodup (h : Represents k loose Q free ensure) :
    (dummy :: (loose ++ (queued Q ++ (free ++ ensure)))).Nodup := by
  refine nodup_cons.mpr ⟨?_, ?_⟩
  · intro hmem
    have hrange := (h.perm.mem_iff).mp hmem
    rw [mem_range'_1] at hrange
    exact absurd hrange.1 (by decide)
  · exact h.perm.nodup_iff.mpr nodup_range'

theorem Represents.congr (h : Represents k loose Q free ensure)
    (hnext : ∀ a ∉ loose, k'.nextPtr a = k.nextPtr a)
    (hprev : ∀ a ∉ loose, k'.prevPtr a = k.prevPtr a)
    (hnextPeer : ∀ a ∉ loose, k'.nextPeerPtr a = k.nextPeerPtr a)
    (hprevPeer : ∀ a ∉ loose, k'.prevPeerPtr a = k.prevPeerPtr a)
    (hcursor : k'.nextWorkItemToProcess = k.nextWorkItemToProcess)
    (hfree : k'.freeWorkItemList = k.freeWorkItemList)
    (hensure : k'.ensureWorkItemList = k.ensureWorkItemList)
    (hallocated : k'.allocated = k.allocated) : Represents k' loose Q free ensure := by
  have hnodup := h.nodup
  have hloose : ∀ a ∈ dummy :: (queued Q ++ (free ++ ensure)), a ∉ loose := by grind
  have hactive : ∀ a ∈ dummy :: actives Q, a ∉ loose := fun a ha =>
    hloose a (mem_nodes_of_active ha)
  refine ⟨h.ring.congr ?_ ?_, ?_, ?_, ?_, ?_, ?_⟩
  · exact fun a ha => hnext a (hactive a ha)
  · exact fun a ha => hprev a (hactive a ha)
  · intro y hy
    have hmem : ∀ a ∈ y.1 :: y.2, a ∉ loose := fun a ha =>
      hloose a (by simp [mem_queued_of_mem hy ha])
    exact (h.peers y hy).congr (fun a ha => hnextPeer a (hmem a ha))
      (fun a ha => hprevPeer a (hmem a ha))
  · rw [hcursor]
    exact h.cursor
  · rw [hfree]
    exact h.freeList.congr fun a ha => hnext a (hloose a (by simp [ha]))
  · refine DoublyLinked.Segment.congr h.ensureList rfl ?_ ?_ ?_
    · exact hensure
    · exact fun a ha => hnext a (hloose a (by simp [ha]))
    · exact fun a ha => hprev a (hloose a (by simp [ha]))
  · rw [hallocated]
    exact h.perm

theorem Represents.pushFree (h : Represents k [w] Q free ensure) :
    Represents (k.pushFree w) [] Q (w :: free) ensure := by
  have hnodup := h.nodup
  have hother : ∀ a ∈ dummy :: (queued Q ++ (free ++ ensure)), a ≠ w := by grind
  have hnext : ∀ a ∈ dummy :: (queued Q ++ (free ++ ensure)),
      (k.pushFree w).nextPtr a = k.nextPtr a := fun a ha => update_of_ne (hother a ha) _ _
  refine ⟨h.ring.congr ?_ fun _ _ => rfl, h.peers, h.cursor, ⟨rfl, ?_⟩, ?_, ?_⟩
  · exact fun a ha => hnext a (mem_nodes_of_active ha)
  · have hself : (k.pushFree w).nextPtr w = k.freeWorkItemList := update_self ..
    rw [hself]
    exact h.freeList.congr fun a ha => hnext a (by simp [ha])
  · exact DoublyLinked.Segment.congr h.ensureList rfl rfl (fun a ha => hnext a (by simp [ha]))
      fun _ _ => rfl
  · refine Perm.trans ?_ h.perm
    exact perm_middle

theorem Represents.pushEnsure (h : Represents k [w] Q free ensure) :
    Represents (k.pushEnsure w) [] Q free (w :: ensure) := by
  have hnodup := h.nodup
  have hother : ∀ a ∈ dummy :: (queued Q ++ (free ++ ensure)), a ≠ w := by grind
  have hhead : k.ensureWorkItemList = ensure.head? := DoublyLinked.Segment.pointer_eq h.ensureList
  have hnext : ∀ a ∈ dummy :: (queued Q ++ (free ++ ensure)),
      (k.pushEnsure w).nextPtr a = k.nextPtr a := fun a ha => update_of_ne (hother a ha) _ _
  have hprev : ∀ a ∈ dummy :: (queued Q ++ (free ++ ensure)), some a ≠ ensure.head? →
      (k.pushEnsure w).prevPtr a = k.prevPtr a := by
    intro a ha hne
    refine (update_of_ne (hother a ha) _ _).trans ?_
    rw [hhead]
    cases ensure with
    | nil => rfl
    | cons e ensure => exact update_of_ne (fun hae => hne (by simp [hae])) _ _
  refine ⟨h.ring.congr ?_ ?_, h.peers, h.cursor, ?_, ?_, ?_⟩
  · exact fun a ha => hnext a (mem_nodes_of_active ha)
  · intro a ha
    refine hprev a (mem_nodes_of_active ha) ?_
    have hqueued : a ∈ dummy :: (queued Q ++ []) := mem_nodes_of_active ha
    cases ensure with
    | nil => simp
    | cons e ensure => grind
  · exact h.freeList.congr fun a ha => hnext a (by simp [ha])
  · refine ⟨rfl, update_self .., ?_⟩
    have hself : (k.pushEnsure w).nextPtr w = k.ensureWorkItemList := update_self ..
    have hensure : DoublyLinked.Segment k.ensureLinks none k.ensureWorkItemList ensure none :=
      h.ensureList
    change DoublyLinked.Segment _ (some w) ((k.pushEnsure w).nextPtr w) ensure none
    rw [hself]
    cases ensure with
    | nil => exact hensure
    | cons e ensure =>
      obtain ⟨hp, -, hrest⟩ := hensure
      have hew : e ≠ w := hother e (by simp)
      refine ⟨hp, ?_, hrest.congr rfl ?_ ?_ ?_⟩
      · refine (update_of_ne hew _ _).trans ?_
        rw [hp]
        exact update_self ..
      · exact hnext e (by simp)
      · exact fun a ha => hnext a (by simp [ha])
      · intro a ha
        exact hprev a (by simp [ha]) (by grind)
  · refine Perm.trans ?_ h.perm
    simp only [nil_append, singleton_append]
    rw [← append_assoc, ← append_assoc]
    exact perm_middle

theorem Represents.popEnsure {l m : List Nat} (h : Represents k [] Q free (l ++ w :: m)) :
    Represents (k.popEnsure w) [w] Q free (l ++ m) := by
  have hnodup := h.nodup
  have hprevEq : k.prevPtr w = l.getLast? := h.ensureList.prev_eq
  have hnextEq : k.nextPtr w = m.head? := h.ensureList.next_eq
  have hanchor : k.ensureWorkItemList = (l ++ w :: m).head? := h.ensureList.anchor_eq
  have hnext : ∀ a, some a ≠ l.getLast? → (k.popEnsure w).nextPtr a = k.nextPtr a := by
    intro a ha
    simp only [Links.popEnsure, hprevEq]
    cases hl : l.getLast? with
    | none => rfl
    | some p => exact update_of_ne (fun hap => ha (by simp [hap, hl])) _ _
  have hprev : ∀ a, some a ≠ m.head? → (k.popEnsure w).prevPtr a = k.prevPtr a := by
    intro a ha
    simp only [Links.popEnsure, hnextEq]
    cases hm : m.head? with
    | none => rfl
    | some n => exact update_of_ne (fun han => ha (by simp [han, hm])) _ _
  have hout : ∀ a ∈ dummy :: (queued Q ++ free), a ∉ l ++ w :: m := by grind
  have hlast : ∀ a ∈ dummy :: (queued Q ++ free), some a ≠ l.getLast? := fun a ha hal =>
    hout a ha (by simp [mem_of_getLast? hal.symm])
  have hfirst : ∀ a ∈ dummy :: (queued Q ++ free), some a ≠ m.head? := fun a ha ham =>
    hout a ha (by simp [mem_of_mem_head? ham.symm])
  refine ⟨h.ring.congr ?_ ?_, h.peers, h.cursor, ?_, ?_, ?_⟩
  · exact fun a ha => hnext a (hlast a (mem_nodes_of_active ha))
  · exact fun a ha => hprev a (hfirst a (mem_nodes_of_active ha))
  · exact h.freeList.congr fun a ha => hnext a (hlast a (by simp [ha]))
  · have hremoved := h.ensureList.remove
    have hw : ∀ a ∈ l ++ m, a ≠ w := by grind
    refine DoublyLinked.Segment.congr hremoved rfl ?_ ?_ ?_
    · change (if k.ensureWorkItemList = some w then k.nextPtr w else k.ensureWorkItemList) =
        if k.ensureWorkItemList = some w then (k.prevPtr w).or (k.nextPtr w)
        else k.ensureWorkItemList
      split
      next hhead =>
        cases l with
        | nil => rw [hprevEq, getLast?_nil, none_or]
        | cons b l =>
          rw [hanchor] at hhead
          exact absurd (by simpa using hhead) (hw b (by simp))
      · rfl
    · intro a ha
      simp only [Links.popEnsure, Links.ensureLinks, DoublyLinked.Links.remove]
      cases k.prevPtr w with
      | none | some p => exact (update_of_ne (hw a ha) _ _).symm
    · intro a ha
      simp only [Links.popEnsure, Links.ensureLinks, DoublyLinked.Links.remove]
      cases k.nextPtr w with
      | none | some n => exact (update_of_ne (hw a ha) _ _).symm
  · refine Perm.trans ?_ h.perm
    rw [nil_append, singleton_append, ← append_assoc, ← append_assoc,
      ← append_assoc, ← append_assoc]
    exact perm_middle.symm

theorem Represents.exists_cursor (h : Represents k loose Q free ensure) :
    ∃ L M, Q = L ++ M ∧ (actives M ++ [dummy]).head? = some k.nextWorkItemToProcess := by
  rcases mem_cons.mp h.cursor with hcursor | hcursor
  · exact ⟨Q, [], by simp, by simp [hcursor]⟩
  · obtain ⟨y, hy, hfst⟩ := mem_map.mp hcursor
    obtain ⟨L, M, rfl⟩ := append_of_mem hy
    exact ⟨L, y :: M, rfl, by simp [hfst]⟩

theorem Represents.linked (h : Represents k loose (L ++ M) free ensure) :
    ∃ p o, (dummy :: actives L).getLast? = some p ∧ (actives M ++ [dummy]).head? = some o ∧
      k.nextPtr p = some o ∧ k.prevPtr o = some p ∧ p ∈ dummy :: actives L ∧
        o ∈ actives M ++ [dummy] := by
  obtain ⟨p, hp⟩ : ∃ p, (dummy :: actives L).getLast? = some p := by
    exact ⟨_, rfl⟩
  obtain ⟨o, ho⟩ : ∃ o, (actives M ++ [dummy]).head? = some o := by
    cases actives M <;> simp
  have hring := h.ring
  rw [actives_append] at hring
  obtain ⟨hnext, hprev⟩ := hring.linked hp ho
  exact ⟨p, o, hp, ho, hnext, hprev, mem_of_getLast? hp, mem_of_mem_head? ho⟩

theorem Represents.insertActive (h : Represents k [w] (L ++ M) free ensure)
    (hcursor : (actives M ++ [dummy]).head? = some k.nextWorkItemToProcess)
    (hp : k.prevPtr k.nextWorkItemToProcess = some p) :
    Represents (k.insertActive w p) [] (L ++ (w, []) :: M) free ensure := by
  have hnodup := h.nodup
  obtain ⟨p', o, hlast, ho, -, hprev, hpmem, homem⟩ := h.linked
  obtain rfl : k.nextWorkItemToProcess = o := some.inj (hcursor.symm.trans ho)
  obtain rfl : p' = p := some.inj (hprev.symm.trans hp)
  have hring := h.ring
  rw [actives_append] at hring
  have hw : ∀ a ∈ dummy :: (queued (L ++ M) ++ (free ++ ensure)), a ≠ w := by grind
  have hpnode : p' ∈ dummy :: (queued (L ++ M) ++ []) := mem_nodes_of_active (by
    rw [actives_append]
    exact mem_cons.mpr ((mem_cons.mp hpmem).imp_right (mem_append_left _)))
  have honode : k.nextWorkItemToProcess ∈ dummy :: (queued (L ++ M) ++ []) :=
    mem_nodes_of_active h.cursor
  have hrest : ∀ a ∈ free ++ ensure, a ≠ w ∧ a ≠ p' ∧ a ≠ k.nextWorkItemToProcess := by grind
  constructor
  · rw [actives_append, actives_cons]
    refine hring.insert hlast ho ?_
    intro hmem
    rw [← actives_append] at hmem
    exact hw w (mem_nodes_of_active hmem) rfl
  · intro y hy
    by_cases hnew : y = (w, [])
    · subst hnew
      have hlinked : Linked (k.insertActive w p').nextPeerPtr (k.insertActive w p').prevPeerPtr
          w w := ⟨update_self .., update_self ..⟩
      exact ⟨isChain_pair.mpr hlinked, nodup_singleton w⟩
    · have hold : y ∈ L ++ M := by grind
      have hne : ∀ a ∈ y.1 :: y.2, a ≠ w := fun a ha =>
        hw a (by
          have := mem_queued_of_mem hold ha
          grind)
      exact (h.peers y hold).congr (fun a ha => update_of_ne (hne a ha) _ _)
        (fun a ha => update_of_ne (hne a ha) _ _)
  · have hmem := h.cursor
    rw [actives_append, actives_cons]
    change k.nextWorkItemToProcess ∈ _
    grind
  · refine h.freeList.congr fun a ha => ?_
    obtain ⟨haw, hap, -⟩ := hrest a (by simp [ha])
    exact (update_of_ne hap _ _).trans (update_of_ne haw _ _)
  · refine DoublyLinked.Segment.congr h.ensureList rfl rfl ?_ ?_
    · intro a ha
      obtain ⟨haw, hap, -⟩ := hrest a (by simp [ha])
      exact (update_of_ne hap _ _).trans (update_of_ne haw _ _)
    · intro a ha
      obtain ⟨haw, -, hao⟩ := hrest a (by simp [ha])
      exact (update_of_ne hao _ _).trans (update_of_ne haw _ _)
  · exact (queued_start_perm.append_right (free ++ ensure)).trans h.perm

variable {b c : Nat}

theorem Represents.apart (h : Represents k loose (L ++ (x, ps) :: M) free ensure) (hy : y ∈ L ++ M)
    (ha : a ∈ y.1 :: y.2) (hb : b ∈ x :: ps) : a ≠ b := by
  have hnodup := (nodup_append.mp (nodup_append.mp h.nodup.of_cons).2.1).1
  have hmem : a ∈ queued L ∨ a ∈ queued M :=
    (mem_append.mp hy).imp (mem_queued_of_mem · ha) (mem_queued_of_mem · ha)
  have hperm : (queued (L ++ (x, ps) :: M)).Perm (x :: ps ++ (queued L ++ queued M)) := by
    rw [queued_append, queued_cons, ← cons_append]
    exact perm_append_comm_assoc ..
  have happart := (nodup_append.mp (hperm.nodup_iff.mp hnodup)).2.2
  exact (happart b hb a (mem_append.mpr hmem)).symm

theorem Represents.loose_ne (h : Represents k [w] Q free ensure) (ha : a ∈ queued Q) : a ≠ w := by
  have hnodup := h.nodup
  grind

theorem Represents.insertPeer (h : Represents k [w] (L ++ (x, ps) :: M) free ensure)
    (hp : k.prevPeerPtr x = some p) :
    Represents (k.insertPeer w x p) [] (L ++ (x, ps ++ [w]) :: M) free ensure := by
  have hpeers := h.peers (x, ps) (by simp)
  obtain ⟨p', hlast⟩ : ∃ p', (x :: ps).getLast? = some p' := by
    exact ⟨_, rfl⟩
  have hlinked := Ring.linked (m := []) (by simpa using hpeers) hlast rfl
  obtain rfl : p' = p := some.inj (hlinked.2.symm.trans hp)
  have hpmem : p' ∈ x :: ps := mem_of_getLast? hlast
  refine ⟨?_, ?_, ?_, h.freeList, h.ensureList, ?_⟩
  · have hring := h.ring
    rw [actives_append, actives_cons] at hring ⊢
    exact hring
  · intro y hy
    by_cases hnew : y = (x, ps ++ [w])
    · subst hnew
      have hw : w ∉ x :: ps := fun hmem =>
        h.loose_ne (mem_queued_of_mem (y := (x, ps)) (by simp) hmem) rfl
      exact Ring.insert (m := []) (n := w) (by simpa using hpeers) hlast rfl (by simpa using hw)
    · have hold : y ∈ L ++ M := by grind
      have hmem : y ∈ L ++ (x, ps) :: M := by grind
      have hne : ∀ a ∈ y.1 :: y.2, a ≠ w := fun a ha => h.loose_ne (mem_queued_of_mem hmem ha)
      refine (h.peers y hmem).congr ?_ ?_
      · intro a ha
        exact (update_of_ne (h.apart hold ha hpmem) _ _).trans (update_of_ne (hne a ha) _ _)
      · intro a ha
        exact (update_of_ne (h.apart hold ha (by simp)) _ _).trans (update_of_ne (hne a ha) _ _)
  · have hmem := h.cursor
    rw [actives_append, actives_cons] at hmem ⊢
    exact hmem
  · exact (queued_follow_perm.append_right (free ++ ensure)).trans h.perm

def promoted : List Nat → List Queue
  | [] => []
  | p :: ps => [(p, ps)]

@[simp]
theorem queued_promoted : queued (promoted ps) = ps := by
  cases ps <;> simp [promoted]

theorem Represents.rest_ne (h : Represents k loose Q free ensure) (ha : a ∈ free ++ ensure)
    (hb : b ∈ dummy :: actives Q) : a ≠ b := by
  have hnodup := h.nodup
  have hnode : b ∈ dummy :: (queued Q ++ []) := mem_nodes_of_active hb
  grind

theorem Represents.around (h : Represents k loose (L ++ (w, ps) :: M) free ensure) :
    ∃ p n, (dummy :: actives L).getLast? = some p ∧ (actives M ++ [dummy]).head? = some n ∧
      k.prevPtr w = some p ∧ k.nextPtr w = some n ∧ p ∈ dummy :: actives L ∧
        n ∈ dummy :: actives M := by
  obtain ⟨p, o, hp, ho, -, hprev, hpmem, -⟩ := h.linked
  obtain rfl : w = o := by simpa using ho
  have h' : Represents k loose ((L ++ [(w, ps)]) ++ M) free ensure := by simpa using h
  obtain ⟨w', n, hw, hn, hnext, -, -, hnmem⟩ := h'.linked
  obtain rfl : w = w' := by
    rw [actives_append, actives_cons, actives_nil, ← cons_append, getLast?_concat] at hw
    exact some.inj hw
  exact ⟨p, n, hp, hn, hprev, hnext, hpmem, by grind⟩

theorem Represents.between (h : Represents k loose (L ++ (w, ps) :: M) free ensure)
    (hn : k.nextPtr w = some n) (hp : k.prevPtr w = some p) :
    (dummy :: actives L).getLast? = some p ∧ (actives M ++ [dummy]).head? = some n ∧
      ∀ a ∈ free ++ ensure, a ≠ p ∧ a ≠ n := by
  obtain ⟨p', n', hlast, hhead, hp', hn', hpmem, hnmem⟩ := h.around
  obtain rfl : p' = p := some.inj (hp'.symm.trans hp)
  obtain rfl : n' = n := some.inj (hn'.symm.trans hn)
  refine ⟨hlast, hhead, fun a ha => ⟨h.rest_ne ha ?_, h.rest_ne ha ?_⟩⟩ <;>
    rw [actives_append, actives_cons] <;> grind

theorem Represents.unlink (h : Represents k [] (L ++ (w, []) :: M) free ensure)
    (hn : k.nextPtr w = some n) (hp : k.prevPtr w = some p) (hc : c ∈ dummy :: actives (L ++ M)) :
    Represents { k.unlink n p with nextWorkItemToProcess := c } [w] (L ++ M) free ensure := by
  obtain ⟨hlast, hhead, hne⟩ := h.between hn hp
  refine ⟨?_, ?_, hc, ?_, ?_, ?_⟩
  · have hring := h.ring
    rw [actives_append, actives_cons] at hring
    rw [actives_append]
    exact hring.remove hlast hhead
  · intro y hy
    exact h.peers y (by grind)
  · exact h.freeList.congr fun a ha => update_of_ne (hne a (by simp [ha])).1 _ _
  · exact DoublyLinked.Segment.congr h.ensureList rfl rfl
      (fun a ha => update_of_ne (hne a (by simp [ha])).1 _ _)
      (fun a ha => update_of_ne (hne a (by simp [ha])).2 _ _)
  · exact (queued_start_perm.symm.append_right (free ++ ensure)).trans h.perm

theorem Represents.promote {r z : Nat} (h : Represents k [] (L ++ (w, r :: ps) :: M) free ensure)
    (hn : k.nextPtr w = some n) (hp : k.prevPtr w = some p) (hz : k.prevPeerPtr w = some z)
    (hc : c ∈ dummy :: actives (L ++ (r, ps) :: M)) :
    Represents { k.promote r z n p with nextWorkItemToProcess := c } [w] (L ++ (r, ps) :: M) free
      ensure := by
  obtain ⟨hlast, hhead, hne⟩ := h.between hn hp
  have hnodup := h.nodup
  have hpeers : Ring k.nextPeerPtr k.prevPeerPtr w (r :: ps) := h.peers (w, r :: ps) (by simp)
  obtain ⟨z', hzlast⟩ : ∃ z', (r :: ps).getLast? = some z' := by
    exact ⟨_, rfl⟩
  have hzlinked := Ring.linked (m := []) (by simpa using hpeers)
    (by rw [getLast?_cons_cons]; exact hzlast) rfl
  obtain rfl : z' = z := some.inj (hzlinked.2.symm.trans hz)
  have hr : r ∈ queued (L ++ (w, r :: ps) :: M) := mem_queued_of_mem (y := (w, r :: ps)) (by simp)
    (by simp)
  have hrne : ∀ a ∈ free ++ ensure, a ≠ r := by grind
  refine ⟨?_, ?_, hc, ?_, ?_, ?_⟩
  · have hring := h.ring
    rw [actives_append, actives_cons] at hring ⊢
    refine hring.replace hlast hhead ?_
    intro hmem
    have hactive : r = w ∨ r ∈ actives (L ++ M) := by
      rw [actives_append]
      grind
    rcases hactive with hrw | hactive
    · exact (nodup_cons.mp hpeers.nodup).1 (by simp [hrw])
    · obtain ⟨y, hy, hfst⟩ := mem_map.mp hactive
      exact h.apart hy (by simp) (by simp) hfst
  · intro y hy
    by_cases hnew : y = (r, ps)
    · subst hnew
      exact hpeers.removeFirst hzlast
    · have hold : y ∈ L ++ M := by grind
      have hzmem : z' ∈ w :: r :: ps := mem_cons_of_mem w (mem_of_getLast? hzlast)
      refine (h.peers y (by grind)).congr ?_ ?_
      · exact fun a ha => update_of_ne (h.apart hold ha hzmem) _ _
      · exact fun a ha => update_of_ne (h.apart hold ha (by simp)) _ _
  · refine h.freeList.congr fun a ha => ?_
    exact (update_of_ne (hne a (by simp [ha])).1 _ _).trans
      (update_of_ne (hrne a (by simp [ha])) _ _)
  · refine DoublyLinked.Segment.congr h.ensureList rfl rfl ?_ ?_
    · intro a ha
      exact (update_of_ne (hne a (by simp [ha])).1 _ _).trans
        (update_of_ne (hrne a (by simp [ha])) _ _)
    · intro a ha
      exact (update_of_ne (hne a (by simp [ha])).2 _ _).trans
        (update_of_ne (hrne a (by simp [ha])) _ _)
  · refine Perm.trans ?_ h.perm
    simp only [queued_append, queued_cons, nil_append, append_assoc, cons_append]
    exact perm_middle.symm

/-- What a removed item adds to the totals: its first peer is active now. -/
def Data.promote (d : Data) : List Nat → Data
  | [] => d
  | p :: _ => d.activate p

@[simp]
theorem activate_items (d : Data) : (d.activate x).items = d.items := by
  unfold Data.activate
  split <;> rfl

theorem Represents.putAway (h : Represents k [w] Q free ensure) (wait : Bool) :
    ∃ free' ensure', Represents (k.putAway w wait) [] Q free' ensure' := by
  cases wait with
  | true => exact ⟨free, w :: ensure, h.pushEnsure⟩
  | false => exact ⟨w :: free, ensure, h.pushFree⟩

theorem moveAlong_eq (hn : k.nextPtr p = some n) : k.moveAlong w p = some { k with
    nextWorkItemToProcess :=
      if k.nextWorkItemToProcess = w then n else k.nextWorkItemToProcess } := by
  unfold Links.moveAlong
  split
  · rw [hn]
    rfl
  · rfl

theorem removeWorkItem_eq (h : Represents k [] (L ++ (w, ps) :: M) free ensure) (d : Data)
    (descComplete : Bool) : ∃ k' free' ensure', removeWorkItem d k w descComplete =
        some ((d.promote ps).record (.retired (d.items w).request), k') ∧
      Represents k' [] (L ++ (promoted ps ++ M)) free' ensure' := by
  obtain ⟨p, n, hlast, hhead, hp, hn, hpmem, hnmem⟩ := h.around
  have hring := h.peers (w, ps) (by simp)
  have hcursor := h.cursor
  rw [actives_append, actives_cons] at hcursor
  cases ps with
  | nil =>
    have hself : k.nextPeerPtr w = some w := (isChain_pair.mp hring.path).1
    have hc : (if k.nextWorkItemToProcess = w then n else k.nextWorkItemToProcess) ∈
        dummy :: actives (L ++ M) := by
      rw [actives_append]
      grind
    have hmove := moveAlong_eq (k := k.unlink n p) (w := w) (update_self ..)
    obtain ⟨free', ensure', hrep⟩ :=
      (h.unlink hn hp hc).putAway ((d.items w).ensureComplete && !descComplete)
    refine ⟨_, free', ensure', ?_, hrep⟩
    simp only [removeWorkItem, hn, hp, hself, ne_eq, not_true_eq_false, if_false, hmove,
      bind_eq_bind, bind_some]
    rfl
  | cons r ps =>
    have hfirst : k.nextPeerPtr w = some r := (isChain_cons_cons.mp hring.path).1.1
    have hrw : r ≠ w := fun hrw => (nodup_cons.mp hring.nodup).1 (by simp [hrw])
    obtain ⟨z, hz⟩ : ∃ z, k.prevPeerPtr w = some z := by
      have hlinked := Ring.linked (m := []) (by simpa using hring) (getLast?_cons ..) rfl
      exact ⟨_, hlinked.2⟩
    have hc : (if k.nextWorkItemToProcess = w then r else k.nextWorkItemToProcess) ∈
        dummy :: actives (L ++ (r, ps) :: M) := by
      rw [actives_append, actives_cons]
      grind
    have hmove := moveAlong_eq (k := k.promote r z n p) (w := w) (update_self ..)
    obtain ⟨free', ensure', hrep⟩ :=
      (h.promote hn hp hz hc).putAway ((d.items w).ensureComplete && !descComplete)
    refine ⟨_, free', ensure', ?_, hrep⟩
    simp only [removeWorkItem, hn, hp, hfirst, ne_eq, hrw, not_false_eq_true, if_true, hz, hmove,
      bind_eq_bind, bind_some, activate_items]
    rfl

end BgqDriver.RgetPacing
