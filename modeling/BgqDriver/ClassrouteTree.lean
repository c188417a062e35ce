import BgqDriver.ClassrouteLinks
import BgqDriver.DimensionOrderRouting

/-!
The class route of a rectangle. Every node computes only its own link masks;
together the masks of all nodes are one spanning tree of the rectangle, rooted at
the node of the rectangle closest to the world root.
-/

namespace BgqDriver.ClassrouteTree

open ClassrouteLinks Function List
open DimensionOrderRouting

/-- The dimensions in the order in which `buildNodeClassroute` visits them:
circular from `dim0`, through the optional table `dims`. -/
def dimOrder (dims : Option (Dim → Dim)) (dim0 : Dim) : List Dim :=
  (finRange 5).map fun dim =>
    let d := dim0 + dim
    match dims with
    | some table => table d
    | none => d

def addInputs (worldroot me : Coord) (comm : Rect) (d : Dim) (cr : ClassRoute) : ClassRoute :=
  let cr := if me d ≤ worldroot d ∧ me d > comm.ll d then
    { cr with input := cr.input ||| crLink d .neg } else cr
  if me d ≥ worldroot d ∧ me d < comm.ur d then
    { cr with input := cr.input ||| crLink d .pos } else cr

/-- The loop of `MUSPI_BuildNodeClassroute` over the dimensions still to visit. -/
def buildLoop (worldroot me : Coord) (comm : Rect) : List Dim → ClassRoute → ClassRoute
  | [], cr => cr
  | d :: rest, cr =>
    let cr := addInputs worldroot me comm d cr
    if me d < worldroot d then
      if me d < comm.ur d then
        -- the `break` of the source: nothing is visited after the output link
        { cr with output := cr.output ||| crLink d .pos }
      else buildLoop worldroot me comm rest cr
    else if me d > worldroot d then
      if me d > comm.ll d then
        { cr with output := cr.output ||| crLink d .neg }
      else buildLoop worldroot me comm rest cr
    else buildLoop worldroot me comm rest cr

/-- `MUSPI_BuildNodeClassroute`. The source also takes the world rectangle, which
it never reads. -/
def buildNodeClassroute (worldroot me : Coord) (comm : Rect) (dims : Option (Dim → Dim))
    (dim0 : Dim) : ClassRoute :=
  buildLoop worldroot me comm (dimOrder dims dim0) ⟨0#16, 0#16⟩

def links : List (Dim × Sign) :=
  (finRange 5).flatMap fun n => [(n, .pos), (n, .neg)]

/-- The node at the far end of the output link, or the node itself without one. -/
def followOutput (cr : Coord → ClassRoute) (v : Coord) : Coord :=
  match links.find? fun l => HasLink (cr v).output l.1 l.2 with
  | some l => neighbour v l.1 l.2
  | none => v

/-- The class routes `cr` of `nodes` are one tree with all links inside `nodes`:
both ends of a link agree on it, only the root has no output, all others have
exactly one, and outputs lead to the root in as many hops as the coordinates
differ by in total. -/
structure SpanningTree (nodes : Set Coord) (cr : Coord → ClassRoute) (root : Coord) : Prop where
  root_mem : root ∈ nodes
  agree : ∀ v ∈ nodes, ∀ u ∈ nodes, ∀ d s, IsNeighbour v d s u →
    (HasLink (cr v).output d s ↔ HasLink (cr u).input d s.flip)
  output_eq_zero_iff : ∀ v ∈ nodes, (cr v).output = 0#16 ↔ v = root
  output_single : ∀ v ∈ nodes, v ≠ root → ∃ d s, (cr v).output = crLink d s
  hops : ∀ v ∈ nodes, ∀ k, (followOutput cr)^[k] v = root ↔ distance root v ≤ k
  link_inside : ∀ v ∈ nodes, ∀ d s,
    HasLink (cr v).output d s ∨ HasLink (cr v).input d s → ∃ u ∈ nodes, IsNeighbour v d s u

theorem mem_dimOrder {dims : Option (Dim → Dim)}
    (hdims : ∀ table, dims = some table → Bijective table) (dim0 d : Dim) :
    d ∈ dimOrder dims dim0 := by
  rw [dimOrder, mem_map]
  cases dims with
  | none => exact ⟨d - dim0, mem_finRange _, by simp⟩
  | some table =>
    obtain ⟨e, rfl⟩ := (hdims table rfl).surjective d
    exact ⟨e - dim0, mem_finRange _, by simp⟩

theorem mem_links (d : Dim) (s : Sign) : (d, s) ∈ links := by
  revert d s
  decide

variable {d : Dim} {cr : ClassRoute} {order : List Dim}

section Masks

variable {worldroot me : Coord} {comm : Rect}

def outputSign (target v : Coord) (d : Dim) : Sign :=
  if v d < target d then .pos else .neg

def LeadsAway (comm : Rect) (target v : Coord) (d : Dim) : Sign → Prop
  | .neg => v d ≤ target d ∧ comm.ll d < v d
  | .pos => target d ≤ v d ∧ v d < comm.ur d

theorem clamp_cases (worldroot : Coord) (hme : me ∈ comm.nodes) (d : Dim) :
    (me d < comm.clamp worldroot d ↔ me d < worldroot d ∧ me d < comm.ur d) ∧
    (comm.clamp worldroot d < me d ↔ worldroot d < me d ∧ comm.ll d < me d) := by
  have := Rect.mem_nodes_iff.mp hme d
  simp only [Rect.clamp]
  omega

theorem addInputs_output (worldroot me : Coord) (comm : Rect) (d : Dim) (cr : ClassRoute) :
    (addInputs worldroot me comm d cr).output = cr.output := by
  unfold addInputs
  split_ifs <;> rfl

section

variable (hme : me ∈ comm.nodes)
include hme

theorem hasLink_addInputs (d d' : Dim) (s : Sign) (cr : ClassRoute) :
    HasLink (addInputs worldroot me comm d cr).input d' s ↔
      HasLink cr.input d' s ∨ (d' = d ∧ LeadsAway comm (comm.clamp worldroot) me d s) := by
  have := Rect.mem_nodes_iff.mp hme d
  unfold addInputs
  cases s with
  | pos =>
    have hiff : LeadsAway comm (comm.clamp worldroot) me d .pos ↔
        me d ≥ worldroot d ∧ me d < comm.ur d := by
      simp only [LeadsAway, Rect.clamp]
      omega
    split_ifs <;> simp_all
  | neg =>
    have hiff : LeadsAway comm (comm.clamp worldroot) me d .neg ↔
        me d ≤ worldroot d ∧ me d > comm.ll d := by
      simp only [LeadsAway, Rect.clamp]
      omega
    split_ifs <;> simp_all

theorem buildLoop_cons_of_eq (hd : me d = comm.clamp worldroot d) :
    buildLoop worldroot me comm (d :: order) cr =
      buildLoop worldroot me comm order (addInputs worldroot me comm d cr) := by
  obtain ⟨hlt, hgt⟩ := clamp_cases worldroot hme d
  simp only [buildLoop]
  split_ifs <;> first | rfl | omega

theorem buildLoop_cons_of_ne (hd : me d ≠ comm.clamp worldroot d) :
    buildLoop worldroot me comm (d :: order) cr =
      { input := (addInputs worldroot me comm d cr).input
        output := cr.output ||| crLink d (outputSign (comm.clamp worldroot) me d) } := by
  obtain ⟨hlt, hgt⟩ := clamp_cases worldroot hme d
  simp only [buildLoop, outputSign, addInputs_output]
  rcases Nat.lt_or_gt_of_ne hd with h | h
  · obtain ⟨h1, h2⟩ := hlt.mp h
    simp only [h, h1, h2, if_true]
  · obtain ⟨h1, h2⟩ := hgt.mp h
    have h3 : ¬ me d < worldroot d := by omega
    have h4 : ¬ me d < comm.clamp worldroot d := by omega
    simp only [gt_iff_lt, h1, h2, h3, h4, if_true, if_false]

theorem buildLoop_output (order : List Dim) (cr : ClassRoute) :
    (buildLoop worldroot me comm order cr).output =
      match firstOff order (comm.clamp worldroot) me with
      | some d => cr.output ||| crLink d (outputSign (comm.clamp worldroot) me d)
      | none => cr.output := by
  induction order generalizing cr with
  | nil => rfl
  | cons d order ih =>
    by_cases hd : me d = comm.clamp worldroot d
    · have hskip : firstOff (d :: order) (comm.clamp worldroot) me =
          firstOff order (comm.clamp worldroot) me := by
        simp [firstOff, hd]
      rw [buildLoop_cons_of_eq hme hd, ih, hskip, addInputs_output]
    · have hstop : firstOff (d :: order) (comm.clamp worldroot) me = some d := by
        simp [firstOff, hd]
      rw [buildLoop_cons_of_ne hme hd, hstop]

theorem hasLink_buildLoop_input (order : List Dim) (cr : ClassRoute)
    (d : Dim) (s : Sign) : HasLink (buildLoop worldroot me comm order cr).input d s ↔
      HasLink cr.input d s ∨ (Corrects order (comm.clamp worldroot) me d ∧
        LeadsAway comm (comm.clamp worldroot) me d s) := by
  induction order generalizing cr with
  | nil => simp [buildLoop]
  | cons e order ih =>
    rw [corrects_cons]
    by_cases he : me e = comm.clamp worldroot e
    · rw [buildLoop_cons_of_eq hme he, ih, hasLink_addInputs hme]
      constructor
      · rintro ((h | ⟨rfl, h⟩) | ⟨h, h'⟩)
        · exact .inl h
        · exact .inr ⟨.inl rfl, h⟩
        · exact .inr ⟨.inr ⟨he, h⟩, h'⟩
      · rintro (h | ⟨rfl | ⟨-, h⟩, h'⟩)
        · exact .inl (.inl h)
        · exact .inl (.inr ⟨rfl, h'⟩)
        · exact .inr ⟨h, h'⟩
    · rw [buildLoop_cons_of_ne hme he, hasLink_addInputs hme]
      constructor
      · rintro (h | ⟨rfl, h⟩)
        · exact .inl h
        · exact .inr ⟨.inl rfl, h⟩
      · rintro (h | ⟨rfl | ⟨h, -⟩, h'⟩)
        · exact .inl h
        · exact .inr ⟨rfl, h'⟩
        · exact absurd h he

end

end Masks

section Tree

variable {worldroot : Coord} {comm : Rect} {dims : Option (Dim → Dim)} {dim0 : Dim}
  {v u : Coord}

theorem isNeighbour_approach_iff {target : Coord} {e : Dim} (he : v e ≠ target e)
    (d : Dim) (s : Sign) :
    IsNeighbour v d s (approach target v e) ↔ d = e ∧ s = outputSign target v e := by
  constructor
  · intro h
    have hd : d = e := by
      by_contra hne
      have hsame : approach target v e d = v d := update_of_ne hne _ _
      cases s with
      | pos =>
        have := congrFun (show approach target v e = _ from h) d
        rw [hsame, update_self] at this
        omega
      | neg =>
        have := congrFun (show v = _ from h) d
        rw [hsame, update_self] at this
        omega
    subst hd
    refine ⟨rfl, ?_⟩
    have hself : approach target v d d = if v d < target d then v d + 1 else v d - 1 :=
      update_self _ _ _
    cases s with
    | pos =>
      have := congrFun (show approach target v d = _ from h) d
      rw [hself, update_self] at this
      unfold outputSign
      split at this
      next hlt =>
        rw [if_pos hlt]
      · omega
    | neg =>
      have := congrFun (show v = _ from h) d
      rw [update_self, hself] at this
      unfold outputSign
      split at this
      · omega
      next hlt =>
        rw [if_neg hlt]
  · rintro ⟨rfl, rfl⟩
    have happroach : approach target v d = neighbour v d (outputSign target v d) := by
      unfold approach outputSign
      split <;> rfl
    rw [happroach]
    refine isNeighbour_neighbour fun hneg => ?_
    unfold outputSign at hneg
    split at hneg
    · cases hneg
    · omega

theorem buildNodeClassroute_output (hv : v ∈ comm.nodes) :
    (buildNodeClassroute worldroot v comm dims dim0).output =
      match firstOff (dimOrder dims dim0) (comm.clamp worldroot) v with
      | some d => crLink d (outputSign (comm.clamp worldroot) v d)
      | none => 0#16 := by
  rw [buildNodeClassroute, buildLoop_output hv]
  cases firstOff (dimOrder dims dim0) (comm.clamp worldroot) v <;> simp

theorem find_links_crLink (d : Dim) (s : Sign) :
    links.find? (fun l => HasLink (crLink d s) l.1 l.2) = some (d, s) := by
  revert d s
  decide

theorem followOutput_eq_hop (hv : v ∈ comm.nodes) :
    followOutput (fun v => buildNodeClassroute worldroot v comm dims dim0) v =
      hop (dimOrder dims dim0) (comm.clamp worldroot) v := by
  rw [followOutput, buildNodeClassroute_output hv]
  cases h : firstOff (dimOrder dims dim0) (comm.clamp worldroot) v with
  | none =>
    have hnone : links.find? (fun l => decide (HasLink 0#16 l.1 l.2)) = none := by
      simp [find?_eq_none]
    simp only [hnone, hop, h]
  | some d =>
    simp only [find_links_crLink, hop_of_firstOff h]
    exact (((isNeighbour_approach_iff (firstOff_ne h) _ _).mpr ⟨rfl, rfl⟩).eq_neighbour).symm

theorem iterate_followOutput (hv : v ∈ comm.nodes) (k : Nat) :
    (followOutput fun v => buildNodeClassroute worldroot v comm dims dim0)^[k] v =
      (hop (dimOrder dims dim0) (comm.clamp worldroot))^[k] v := by
  induction k with
  | zero => rfl
  | succ k ih =>
    rw [iterate_succ_apply', ih, iterate_succ_apply']
    exact followOutput_eq_hop (iterate_hop_mem_Icc hv (Rect.clamp_mem ⟨v, hv⟩ worldroot) k)

section

variable (hdims : ∀ table, dims = some table → Bijective table) (hv : v ∈ comm.nodes)
include hdims hv

theorem hasLink_output_iff (d : Dim) (s : Sign) :
    HasLink (buildNodeClassroute worldroot v comm dims dim0).output d s ↔
      v ≠ comm.clamp worldroot ∧
        IsNeighbour v d s (hop (dimOrder dims dim0) (comm.clamp worldroot) v) := by
  rw [buildNodeClassroute_output hv]
  cases h : firstOff (dimOrder dims dim0) (comm.clamp worldroot) v with
  | none =>
    have hv' := (firstOff_eq_none_iff (mem_dimOrder hdims dim0)).mp h
    simp [hv']
  | some e =>
    have hne : v ≠ comm.clamp worldroot := fun heq => firstOff_ne h (congrFun heq e)
    rw [hop_of_firstOff h, isNeighbour_approach_iff (firstOff_ne h)]
    simp [hne]

theorem hasLink_input_iff (d : Dim) (s : Sign) :
    HasLink (buildNodeClassroute worldroot v comm dims dim0).input d s ↔
      ∃ w ∈ comm.nodes, w ≠ comm.clamp worldroot ∧
        hop (dimOrder dims dim0) (comm.clamp worldroot) w = v ∧ IsNeighbour v d s w := by
  have hbounds := Rect.mem_nodes_iff.mp hv
  rw [buildNodeClassroute, hasLink_buildLoop_input hv]
  simp only [not_hasLink_zero, false_or]
  constructor
  · rintro ⟨hcorrects, haway⟩
    have hpos : s = .neg → 0 < v d := by
      rintro rfl
      exact Nat.zero_lt_of_lt haway.2
    have hnb := isNeighbour_neighbour hpos
    obtain ⟨x, hx, hxd, hback⟩ : ∃ x, neighbour v d s = Function.update v d x ∧
        x ≠ comm.clamp worldroot d ∧
        (if x < comm.clamp worldroot d then x + 1 else x - 1) = v d := by
      cases s with
      | pos =>
        simp only [LeadsAway] at haway
        refine ⟨v d + 1, rfl, by omega, ?_⟩
        rw [if_neg (by omega)]
        omega
      | neg =>
        simp only [LeadsAway] at haway
        refine ⟨v d - 1, rfl, by omega, ?_⟩
        rw [if_pos (by omega)]
        omega
    have hfirst : firstOff (dimOrder dims dim0) (comm.clamp worldroot) (neighbour v d s) =
        some d := by
      rw [firstOff_eq_some_iff, hx, corrects_update_iff]
      exact ⟨hcorrects, by simpa using hxd⟩
    refine ⟨neighbour v d s, ?_, ?_, ?_, hnb⟩
    · rw [Rect.mem_nodes_iff]
      intro e
      have := hbounds e
      by_cases he : e = d
      · subst he
        cases s with
        | pos | neg =>
          simp only [LeadsAway] at haway
          simp only [neighbour, update_self]
          omega
      · rw [hx, update_of_ne he]
        exact this
    · exact fun heq => firstOff_ne hfirst (congrFun heq d)
    · rw [hop_of_firstOff hfirst, hx, approach]
      simp [hback]
  · rintro ⟨w, hw, hwne, hhop, hnb⟩
    obtain ⟨e, he⟩ := exists_firstOff (mem_dimOrder hdims dim0) hwne
    rw [hop_of_firstOff he] at hhop
    have hback := hnb.flip
    rw [← hhop, isNeighbour_approach_iff (firstOff_ne he)] at hback
    obtain ⟨rfl, hsign⟩ := hback
    constructor
    · rw [← hhop, approach, corrects_update_iff]
      exact (firstOff_eq_some_iff.mp he).1
    · have hne := firstOff_ne he
      have hvd : v d = if w d < comm.clamp worldroot d then w d + 1 else w d - 1 := by
        rw [← hhop, approach, update_self]
      have hwd := Rect.mem_nodes_iff.mp hw d
      unfold outputSign at hsign
      split at hsign
      next hlt =>
        obtain rfl : s = .neg := by rw [← Sign.flip_flip s, hsign]; rfl
        rw [if_pos hlt] at hvd
        simp only [LeadsAway]
        omega
      next hlt =>
        obtain rfl : s = .pos := by rw [← Sign.flip_flip s, hsign]; rfl
        rw [if_neg hlt] at hvd
        simp only [LeadsAway]
        omega

theorem hasLink_output_iff_input (hu : u ∈ comm.nodes) {s : Sign} (hnb : IsNeighbour v d s u) :
    HasLink (buildNodeClassroute worldroot v comm dims dim0).output d s ↔
      HasLink (buildNodeClassroute worldroot u comm dims dim0).input d s.flip := by
  rw [hasLink_output_iff hdims hv, hasLink_input_iff hdims hu]
  constructor
  · rintro ⟨hne, hhop⟩
    refine ⟨v, hv, hne, ?_, hnb.flip⟩
    rw [hhop.eq_neighbour, hnb.eq_neighbour]
  · rintro ⟨w, -, hne, hhop, hnb'⟩
    obtain rfl : w = v := hnb'.eq_neighbour.trans hnb.flip.eq_neighbour.symm
    exact ⟨hne, by rwa [hhop]⟩

theorem buildNodeClassroute_output_eq_zero_iff :
    (buildNodeClassroute worldroot v comm dims dim0).output = 0#16 ↔
      v = comm.clamp worldroot := by
  rw [buildNodeClassroute_output hv, ← firstOff_eq_none_iff (mem_dimOrder hdims dim0)]
  cases firstOff (dimOrder dims dim0) (comm.clamp worldroot) v <;> simp [crLink_ne_zero]

end

end Tree

/-- The class routes all nodes of a rectangle compute on their own are one
spanning tree of it, for every root coordinate, every permutation of the
dimensions and every primary dimension. -/
theorem buildNodeClassroute_spanningTree (worldroot : Coord) {comm : Rect}
    (hcomm : comm.nodes.Nonempty) {dims : Option (Dim → Dim)}
    (hdims : ∀ table, dims = some table → Bijective table) (dim0 : Dim) :
    SpanningTree comm.nodes (fun v => buildNodeClassroute worldroot v comm dims dim0)
      (comm.clamp worldroot) := by
  have horder := mem_dimOrder hdims dim0
  have hroot := Rect.clamp_mem hcomm worldroot
  refine ⟨hroot, ?_, ?_, ?_, ?_, ?_⟩
  · exact fun v hv u hu d s hnb => hasLink_output_iff_input hdims hv hu hnb
  · exact fun v hv => buildNodeClassroute_output_eq_zero_iff hdims hv
  · intro v hv hne
    obtain ⟨d, hd⟩ := exists_firstOff horder hne
    exact ⟨d, _, by rw [buildNodeClassroute_output hv, hd]⟩
  · intro v hv k
    rw [iterate_followOutput hv, iterate_hop_eq_target_iff horder]
  · rintro v hv d s (hout | hin)
    · rw [hasLink_output_iff hdims hv] at hout
      exact ⟨_, hop_mem_Icc hv hroot, hout.2⟩
    · rw [hasLink_input_iff hdims hv] at hin
      obtain ⟨w, hw, -, -, hnb⟩ := hin
      exact ⟨w, hw, hnb⟩

/-- A 2 x 3 rectangle whose root lies outside it, with the dimensions reversed. -/
theorem buildNodeClassroute_spanningTree_two_by_three :
    SpanningTree (Rect.nodes ⟨![1, 1, 0, 0, 0], ![2, 3, 0, 0, 0]⟩)
      (fun v => buildNodeClassroute ![0, 2, 0, 0, 0] v ⟨![1, 1, 0, 0, 0], ![2, 3, 0, 0, 0]⟩
        (some Fin.rev) 3) (Rect.clamp ⟨![1, 1, 0, 0, 0], ![2, 3, 0, 0, 0]⟩ ![0, 2, 0, 0, 0]) :=
  buildNodeClassroute_spanningTree _ ⟨![1, 1, 0, 0, 0], by decide⟩
    (by rintro table ⟨⟩; exact Fin.rev_bijective) 3

end BgqDriver.ClassrouteTree
