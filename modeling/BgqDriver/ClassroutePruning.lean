import BgqDriver.ClassrouteTree

/-!
Class routes of sparse rectangles. A node prunes the links below which no node
contributes by walking down the unpruned tree and building the class routes of
the nodes it meets; the verdicts of all nodes agree.
-/

namespace BgqDriver.ClassroutePruning

open ClassrouteLinks Function List
open DimensionOrderRouting
open ClassrouteTree

/-- `__MUSPI_eq_coords`. -/
def eqCoords (c0 c1 : Coord) : Bool := (finRange 5).all fun d => c0 d == c1 d

/-- The variable `local` of `__MUSPI_find_local_contrib`: `me` is not excluded. -/
def isLocal (exclude : List Coord) (me : Coord) : Bool := !exclude.any fun c => eqCoords c me

/-- The loop over the links of `__MUSPI_find_local_contrib`: `l` is the mask before
pruning, `contrib` the recursive call on the neighbour along a link. -/
def pruneLinks (l : BitVec 16) (contrib : Dim → Sign → Nat) :
    List (Dim × Sign) → BitVec 16 × Nat → BitVec 16 × Nat
  | [], acc => acc
  | (n, s) :: rest, (input, t) =>
    if HasLink l n s then
      let f := contrib n s
      pruneLinks l contrib rest (if f = 0 then input &&& ~~~ crLink n s else input, t + f)
    else pruneLinks l contrib rest (input, t)

/-- How far the tree can still branch out below `me`. Every input link leads to a
node with a smaller value, also outside the rectangle. -/
def spread (worldroot : Coord) (comm : Rect) (me : Coord) : Nat :=
  ∑ d, ((if me d ≤ worldroot d then me d - comm.ll d else 0) +
    if worldroot d ≤ me d then comm.ur d - me d else 0)

/-- The guard under which the source adds the input link in direction `s`. -/
def InputGuard (worldroot me : Coord) (comm : Rect) (d : Dim) : Sign → Prop
  | .neg => me d ≤ worldroot d ∧ comm.ll d < me d
  | .pos => worldroot d ≤ me d ∧ me d < comm.ur d

variable {cr : ClassRoute} {d : Dim} {me u : Coord} {s : Sign} {order : List Dim}
  {a mask : BitVec 16} {fuel : Nat}

-- Both facts about the input mask are kept by every link that is added, whatever its order.
theorem buildLoop_input {worldroot : Coord} {comm : Rect} {P : BitVec 16 → Prop}
    (hadd : ∀ mask d s, P mask → InputGuard worldroot me comm d s → P (mask ||| crLink d s))
    (h : P cr.input) : P (buildLoop worldroot me comm order cr).input := by
  induction order generalizing cr with
  | nil => exact h
  | cons e order ih =>
    have hhead : P (addInputs worldroot me comm e cr).input := by
      unfold addInputs
      split_ifs with h1 h2 h2
      · exact hadd _ e .pos (hadd _ e .neg h h1) h2
      · exact hadd _ e .neg h h1
      · exact hadd _ e .pos h h2
      · exact h
    simp only [buildLoop]
    split_ifs
    · exact hhead
    · exact ih hhead
    · exact hhead
    · exact ih hhead
    · exact ih hhead

theorem spread_update_lt {worldroot : Coord} {comm : Rect} {x : Nat}
    (hx : (if x ≤ worldroot d then x - comm.ll d else 0) +
        (if worldroot d ≤ x then comm.ur d - x else 0) <
      (if me d ≤ worldroot d then me d - comm.ll d else 0) +
        if worldroot d ≤ me d then comm.ur d - me d else 0) :
    spread worldroot comm (Function.update me d x) < spread worldroot comm me := by
  refine Finset.sum_lt_sum (fun e _ => ?_) ⟨d, Finset.mem_univ d, ?_⟩
  · by_cases he : e = d
    · subst he
      simpa using hx.le
    · simp [he]
  · simpa using hx

theorem spread_neighbour_lt {worldroot : Coord} {comm : Rect} {dims : Option (Dim → Dim)}
    {dim0 : Dim} (h : HasLink (buildNodeClassroute worldroot me comm dims dim0).input d s) :
    spread worldroot comm (neighbour me d s) < spread worldroot comm me := by
  have hguard : InputGuard worldroot me comm d s := by
    refine buildLoop_input (P := fun mask => HasLink mask d s → _)
      (fun mask e t hmask ht hlink => ?_)
      (fun hzero => absurd hzero (not_hasLink_zero d s)) h
    rcases (hasLink_or ..).mp hlink with hold | hnew
    · exact hmask hold
    · obtain ⟨rfl, rfl⟩ := (hasLink_crLink ..).mp hnew
      exact ht
  cases s with
  | pos | neg =>
    obtain ⟨h1, h2⟩ := hguard
    refine spread_update_lt ?_
    split_ifs <;> omega

/-- `__MUSPI_find_local_contrib`: the class route it stores at level 0 and the
number it returns. Below level 0 the source passes no class route to store to, so
the class route of the early return is never seen. -/
def findLocalContrib (worldroot : Coord) (comm : Rect) (exclude : List Coord)
    (dims : Option (Dim → Dim)) (dim0 : Dim) (me : Coord) (level : Nat) : ClassRoute × Nat :=
  if level ≠ 0 ∧ isLocal exclude me then (⟨0#16, 0#16⟩, 1)
  else
    let cr1 := buildNodeClassroute worldroot me comm dims dim0
    let contrib := fun n s =>
      if h : HasLink (buildNodeClassroute worldroot me comm dims dim0).input n s then
        (findLocalContrib worldroot comm exclude dims dim0 (neighbour me n s) (level + 1)).2
      else 0
    let pruned := pruneLinks cr1.input contrib links (cr1.input, 0)
    let input := if level = 0 ∧ isLocal exclude me then pruned.1 ||| inputLinkLocal else pruned.1
    let output := if input = 0#16 ∧ ¬ isLocal exclude me then 0#16 else cr1.output
    (⟨input, output⟩, pruned.2)
termination_by spread worldroot comm me
decreasing_by exact spread_neighbour_lt h

/-- `MUSPI_BuildNodeClassrouteSparse`. -/
def buildNodeClassrouteSparse (worldroot me : Coord) (comm : Rect) (exclude : List Coord)
    (dims : Option (Dim → Dim)) (dim0 : Dim) : ClassRoute :=
  (findLocalContrib worldroot comm exclude dims dim0 me 0).1

def subtree (cr : Coord → ClassRoute) (nodes : Set Coord) (v : Coord) : Set Coord :=
  { u ∈ nodes | ∃ k, (followOutput cr)^[k] u = v }

/-- What reaches `v` when every node combines its local contribution with what
comes in on its input links, down to a depth of `fuel` nodes. -/
def arrivals (cr : Coord → ClassRoute) : Nat → Coord → List Coord
  | 0, _ => []
  | fuel + 1, v =>
    (if HasLocal (cr v).input then [v] else []) ++
      links.flatMap fun l =>
        if HasLink (cr v).input l.1 l.2 then arrivals cr fuel (neighbour v l.1 l.2) else []

/-- `pruned` is the tree `full` on `nodes` without the branches that hold only
excluded nodes. -/
structure PrunedTree (comm : Rect) (full pruned : Coord → ClassRoute) (root : Coord)
    (exclude : List Coord) : Prop where
  input_iff : ∀ v ∈ comm.nodes, ∀ d s, HasLink (pruned v).input d s ↔
    HasLink (full v).input d s ∧ ∃ u ∈ subtree full comm.nodes (neighbour v d s), u ∉ exclude
  output_eq : ∀ v ∈ comm.nodes, v ≠ root → (∃ u ∈ subtree full comm.nodes v, u ∉ exclude) →
    (pruned v).output = (full v).output ∧ (pruned v).output ≠ 0#16
  output_eq_zero : ∀ v ∈ comm.nodes, (v = root ∨ ∀ u ∈ subtree full comm.nodes v, u ∈ exclude) →
    (pruned v).output = 0#16
  local_iff : ∀ v ∈ comm.nodes, HasLocal (pruned v).input ↔ v ∉ exclude
  agree : ∀ v ∈ comm.nodes, ∀ u ∈ comm.nodes, ∀ d s, IsNeighbour v d s u →
    (HasLink (pruned v).output d s ↔ HasLink (pruned u).input d s.flip)
  arrives_once : ∀ fuel, ∑ d, (comm.ur d - comm.ll d) < fuel → ∀ u,
    (arrivals pruned fuel root).count u = if u ∈ comm.nodes ∧ u ∉ exclude then 1 else 0

theorem eqCoords_iff {c0 c1 : Coord} : eqCoords c0 c1 = true ↔ c0 = c1 := by
  simp [eqCoords, funext_iff]

theorem isLocal_iff {exclude : List Coord} : isLocal exclude me = true ↔ me ∉ exclude := by
  simp only [isLocal, Bool.not_eq_true', any_eq_false, eqCoords_iff]
  exact ⟨fun h hmem => h me hmem rfl, fun h c hc heq => h (heq ▸ hc)⟩

section PruneLinks

variable {l : BitVec 16} {contrib : Dim → Sign → Nat}

theorem hasLink_pruneLinks (todo : List (Dim × Sign)) (input : BitVec 16) (t : Nat)
    (d : Dim) (s : Sign) : HasLink (pruneLinks l contrib todo (input, t)).1 d s ↔
      HasLink input d s ∧ ∀ link ∈ todo, link = (d, s) → HasLink l d s → contrib d s ≠ 0 := by
  induction todo generalizing input t with
  | nil => simp [pruneLinks]
  | cons link todo ih =>
    obtain ⟨n, σ⟩ := link
    rw [forall_mem_cons, ← and_assoc, pruneLinks]
    split_ifs with hl
    · rw [ih]
      refine and_congr_left' ?_
      split_ifs with hf
      · rw [hasLink_and_not_crLink]
        refine and_congr_right fun _ => ⟨?_, ?_⟩
        · rintro hne ⟨⟩
          exact absurd ⟨rfl, rfl⟩ hne
        · rintro hkept ⟨rfl, rfl⟩
          exact hkept rfl hl hf
      · refine (and_iff_left ?_).symm
        rintro ⟨⟩ _
        exact hf
    · rw [ih]
      refine and_congr_left' (and_iff_left ?_).symm
      rintro ⟨⟩ hl'
      exact absurd hl' hl

theorem pruneLinks_count_ne_zero (todo : List (Dim × Sign)) (input : BitVec 16) (t : Nat) :
    (pruneLinks l contrib todo (input, t)).2 ≠ 0 ↔
      t ≠ 0 ∨ ∃ link ∈ todo, HasLink l link.1 link.2 ∧ contrib link.1 link.2 ≠ 0 := by
  induction todo generalizing input t with
  | nil => simp [pruneLinks]
  | cons link todo ih =>
    obtain ⟨n, σ⟩ := link
    by_cases hl : HasLink l n σ
    · rw [pruneLinks, if_pos hl, ih]
      have hadd : t + contrib n σ ≠ 0 ↔ t ≠ 0 ∨ contrib n σ ≠ 0 := by omega
      simp only [mem_cons, exists_eq_or_imp, hl, true_and, hadd, or_assoc]
    · rw [pruneLinks, if_neg hl, ih]
      simp [hl]

end PruneLinks

section TorusBits

/-- Only torus link bits are set (`CR_COLL_CLASS_LINK_MASK`). -/
def TorusBits (mask : BitVec 16) : Prop := mask &&& 0xFFC#16 = mask

theorem torusBits_or {b : BitVec 16} (ha : TorusBits a) (hb : TorusBits b) :
    TorusBits (a ||| b) := by
  unfold TorusBits at *
  rw [BitVec.and_comm, BitVec.and_or_distrib_left, BitVec.and_comm _ a, BitVec.and_comm _ b, ha, hb]

theorem torusBits_and (ha : TorusBits a) (b : BitVec 16) : TorusBits (a &&& b) := by
  unfold TorusBits at *
  rw [BitVec.and_assoc, BitVec.and_comm b, ← BitVec.and_assoc, ha]

theorem torusBits_crLink (d : Dim) (s : Sign) : TorusBits (crLink d s) := by
  revert d s
  unfold TorusBits
  decide

theorem eq_zero_iff_not_hasLink (hmask : TorusBits mask) :
    mask = 0#16 ↔ ∀ d s, ¬ HasLink mask d s := by
  constructor
  · rintro rfl d s
    exact not_hasLink_zero d s
  · intro h
    have hall : mask &&& 0xFFC#16 = 0#16 := by
      have hsum : (0xFFC#16 : BitVec 16) =
          links.foldr (fun l acc => crLink l.1 l.2 ||| acc) 0#16 := by decide
      have hfold : ∀ todo : List (Dim × Sign),
          mask &&& todo.foldr (fun l acc => crLink l.1 l.2 ||| acc) 0#16 = 0#16 := by
        intro todo
        induction todo with
        | nil => simp
        | cons l todo ih =>
          have hl : mask &&& crLink l.1 l.2 = 0#16 := not_not.mp (h l.1 l.2)
          rw [foldr_cons, BitVec.and_or_distrib_left, hl, ih]
          simp
      exact hfold links
    rwa [hmask] at hall

theorem torusBits_pruneLinks {l input : BitVec 16} {contrib : Dim → Sign → Nat} {t : Nat}
    (h : TorusBits input) (todo : List (Dim × Sign)) :
    TorusBits (pruneLinks l contrib todo (input, t)).1 := by
  induction todo generalizing input t with
  | nil => exact h
  | cons link todo ih =>
    rw [pruneLinks]
    split_ifs
    · refine ih ?_
      split_ifs
      · exact torusBits_and h _
      · exact h
    · exact ih h

theorem not_hasLocal_of_torusBits (h : TorusBits mask) : ¬ HasLocal mask := by
  have hbit : (0xFFC#16 &&& inputLinkLocal : BitVec 16) = 0#16 := by decide
  rw [HasLocal, ← h, BitVec.and_assoc, hbit]
  simp

end TorusBits

section Pruning

variable {worldroot : Coord} {comm : Rect} {exclude : List Coord} {dims : Option (Dim → Dim)}
  {dim0 : Dim} {v : Coord}

def Contributes (worldroot : Coord) (comm : Rect) (exclude : List Coord)
    (dims : Option (Dim → Dim)) (dim0 : Dim) (v : Coord) : Prop :=
  ∃ u ∈ comm.nodes, OnRoute (dimOrder dims dim0) (comm.clamp worldroot) u v ∧ u ∉ exclude

theorem mem_subtree_iff :
    u ∈ subtree (fun v => buildNodeClassroute worldroot v comm dims dim0) comm.nodes v ↔
      u ∈ comm.nodes ∧ OnRoute (dimOrder dims dim0) (comm.clamp worldroot) u v := by
  refine and_congr_right fun hu => exists_congr fun k => ?_
  rw [iterate_followOutput hu]

theorem contributes_iff_subtree : Contributes worldroot comm exclude dims dim0 v ↔
      ∃ u ∈ subtree (fun v => buildNodeClassroute worldroot v comm dims dim0) comm.nodes v,
        u ∉ exclude := by
  simp only [Contributes, mem_subtree_iff, and_assoc]

section

variable (hdims : ∀ table, dims = some table → Bijective table) (hv : v ∈ comm.nodes)
include hdims hv

theorem hop_neighbour (h : HasLink (buildNodeClassroute worldroot v comm dims dim0).input d s) :
    neighbour v d s ∈ comm.nodes ∧ neighbour v d s ≠ comm.clamp worldroot ∧
      hop (dimOrder dims dim0) (comm.clamp worldroot) (neighbour v d s) = v ∧
      distance (comm.clamp worldroot) v + 1 =
        distance (comm.clamp worldroot) (neighbour v d s) := by
  obtain ⟨w, hw, hne, hhop, hnb⟩ := (hasLink_input_iff hdims hv d s).mp h
  obtain rfl := hnb.eq_neighbour
  have hstep := distance_hop (mem_dimOrder hdims dim0) hne
  rw [hhop] at hstep
  exact ⟨hw, hne, hhop, hstep⟩

theorem onRoute_iff_link (hu : u ∈ comm.nodes) :
    OnRoute (dimOrder dims dim0) (comm.clamp worldroot) u v ↔
      u = v ∨ ∃ d s, HasLink (buildNodeClassroute worldroot v comm dims dim0).input d s ∧
        OnRoute (dimOrder dims dim0) (comm.clamp worldroot) u (neighbour v d s) := by
  have hroot := Rect.clamp_mem ⟨v, hv⟩ worldroot
  rw [onRoute_iff_child]
  refine or_congr_right ⟨?_, ?_⟩
  · rintro ⟨w, hne, hhop, k, hk⟩
    have hw : w ∈ comm.nodes := hk ▸ iterate_hop_mem_Icc hu hroot k
    obtain ⟨e, he⟩ := exists_firstOff (mem_dimOrder hdims dim0) hne
    have hlink : IsNeighbour w e (outputSign (comm.clamp worldroot) w e) v := by
      rw [← hhop, hop_of_firstOff he]
      exact (isNeighbour_approach_iff (firstOff_ne he) _ _).mpr ⟨rfl, rfl⟩
    exact ⟨e, _, (hasLink_input_iff hdims hv _ _).mpr ⟨w, hw, hne, hhop, hlink.flip⟩, k,
      hk.trans hlink.flip.eq_neighbour⟩
  · rintro ⟨d, s, hlink, hroute⟩
    obtain ⟨-, hne, hhop, -⟩ := hop_neighbour hdims hv hlink
    exact ⟨_, hne, hhop, hroute⟩

theorem contributes_iff : Contributes worldroot comm exclude dims dim0 v ↔
      v ∉ exclude ∨ ∃ d s, HasLink (buildNodeClassroute worldroot v comm dims dim0).input d s ∧
        Contributes worldroot comm exclude dims dim0 (neighbour v d s) := by
  constructor
  · rintro ⟨u, hu, hroute, hex⟩
    rcases (onRoute_iff_link hdims hv hu).mp hroute with rfl | ⟨d, s, hlink, hroute⟩
    · exact .inl hex
    · exact .inr ⟨d, s, hlink, u, hu, hroute, hex⟩
  · rintro (hex | ⟨d, s, hlink, u, hu, hroute, hex⟩)
    · exact ⟨v, hv, ⟨0, rfl⟩, hex⟩
    · exact ⟨u, hu, (onRoute_iff_link hdims hv hu).mpr (.inr ⟨d, s, hlink, hroute⟩), hex⟩

/-- The recursive count decides whether the subtree below a node contributes: a
node and its neighbour come to the same verdict. The induction is on how far the
tree can still branch out. -/
theorem findLocalContrib_count_ne_zero {level : Nat} (hlevel : level ≠ 0) :
    (findLocalContrib worldroot comm exclude dims dim0 v level).2 ≠ 0 ↔
      Contributes worldroot comm exclude dims dim0 v := by
  induction hspread : spread worldroot comm v using Nat.strongRecOn generalizing v level with
  | _ n ih =>
    rw [findLocalContrib, contributes_iff hdims hv]
    by_cases hlocal : isLocal exclude v = true
    · simp [hlevel, hlocal, isLocal_iff.mp hlocal]
    · have hex : v ∈ exclude := by
        by_contra h
        exact hlocal (isLocal_iff.mpr h)
      rw [if_neg (fun h => hlocal h.2)]
      simp only [pruneLinks_count_ne_zero, ne_eq, not_true_eq_false, false_or, hex]
      constructor
      · rintro ⟨⟨d, s⟩, -, hlink, hcount⟩
        rw [dif_pos hlink] at hcount
        have hlt := spread_neighbour_lt hlink
        exact ⟨d, s, hlink, (ih _ (hspread ▸ hlt) (hop_neighbour hdims hv hlink).1
          (Nat.succ_ne_zero level) rfl).mp hcount⟩
      · rintro ⟨d, s, hlink, hcontrib⟩
        refine ⟨(d, s), mem_links d s, hlink, ?_⟩
        rw [dif_pos hlink]
        have hlt := spread_neighbour_lt hlink
        exact (ih _ (hspread ▸ hlt) (hop_neighbour hdims hv hlink).1
          (Nat.succ_ne_zero level) rfl).mpr hcontrib

end

theorem buildNodeClassrouteSparse_spec (worldroot : Coord) (exclude : List Coord) (dim0 : Dim)
    (hdims : ∀ table, dims = some table → Bijective table) (hv : v ∈ comm.nodes) :
    (∀ d s, HasLink (buildNodeClassrouteSparse worldroot v comm exclude dims dim0).input d s ↔
      HasLink (buildNodeClassroute worldroot v comm dims dim0).input d s ∧
        Contributes worldroot comm exclude dims dim0 (neighbour v d s)) ∧
    (HasLocal (buildNodeClassrouteSparse worldroot v comm exclude dims dim0).input ↔
      v ∉ exclude) ∧
    (Contributes worldroot comm exclude dims dim0 v →
      (buildNodeClassrouteSparse worldroot v comm exclude dims dim0).output =
        (buildNodeClassroute worldroot v comm dims dim0).output) ∧
    (¬ Contributes worldroot comm exclude dims dim0 v →
      (buildNodeClassrouteSparse worldroot v comm exclude dims dim0).output = 0#16) := by
  set cr1 := buildNodeClassroute worldroot v comm dims dim0 with hcr1
  set contrib : Dim → Sign → Nat := fun n s =>
    if HasLink cr1.input n s then
      (findLocalContrib worldroot comm exclude dims dim0 (neighbour v n s) 1).2
    else 0 with hcontrib
  set pruned := pruneLinks cr1.input contrib links (cr1.input, 0) with hpruned
  have hunfold : buildNodeClassrouteSparse worldroot v comm exclude dims dim0 =
      let input := if isLocal exclude v then pruned.1 ||| inputLinkLocal else pruned.1
      ⟨input, if input = 0#16 ∧ ¬ isLocal exclude v then 0#16 else cr1.output⟩ := by
    rw [buildNodeClassrouteSparse, findLocalContrib]
    simp [hpruned, hcontrib, hcr1]
  have htorus : TorusBits cr1.input := buildLoop_input
    (fun _ d s hmask _ => torusBits_or hmask (torusBits_crLink d s)) (by unfold TorusBits; decide)
  have hkept : ∀ d s, HasLink pruned.1 d s ↔ HasLink cr1.input d s ∧
      Contributes worldroot comm exclude dims dim0 (neighbour v d s) := by
    intro d s
    rw [hpruned, hasLink_pruneLinks]
    refine and_congr_right fun hlink => ?_
    rw [← findLocalContrib_count_ne_zero hdims (hop_neighbour hdims hv hlink).1 one_ne_zero]
    simp only [hlink, true_imp_iff, hcontrib, if_true]
    exact ⟨fun h => h _ (mem_links d s) rfl, fun h _ _ _ => h⟩
  have hempty : pruned.1 = 0#16 ↔ ¬ ∃ d s, HasLink cr1.input d s ∧
      Contributes worldroot comm exclude dims dim0 (neighbour v d s) := by
    rw [eq_zero_iff_not_hasLink (torusBits_pruneLinks htorus links)]
    simp only [← hpruned, hkept]
    push Not
    rfl
  rw [hunfold, contributes_iff hdims hv, ← hcr1]
  by_cases hlocal : isLocal exclude v = true
  · have hex := isLocal_iff.mp hlocal
    simp [hlocal, hex, hkept]
  · have hex : ¬ v ∉ exclude := fun h => hlocal (isLocal_iff.mpr h)
    have hnolocal : ¬ HasLocal pruned.1 :=
      not_hasLocal_of_torusBits (torusBits_pruneLinks htorus links)
    simp only [hlocal, hex, false_or]
    refine ⟨fun d s => by simp [hkept], by simp [hnolocal], fun h => ?_, fun h => ?_⟩
    · exact if_neg fun hzero => hempty.mp hzero.1 h
    · exact if_pos ⟨hempty.mpr h, Bool.false_ne_true⟩

theorem sum_links_eq_one (l0 : Dim × Sign) :
    (links.map fun l => if l = l0 then 1 else 0).sum = 1 := by
  revert l0
  decide

theorem sum_links_of_unique {P : Dim × Sign → Prop} [DecidablePred P] [Decidable (∃ l, P l)]
    (hunique : ∀ l1 l2, P l1 → P l2 → l1 = l2) :
    (links.map fun l => if P l then 1 else 0).sum = if ∃ l, P l then 1 else 0 := by
  split_ifs with h
  · obtain ⟨l0, h0⟩ := h
    have hiff : ∀ l, P l ↔ l = l0 := fun l => ⟨fun hl => hunique l l0 hl h0, fun heq => heq ▸ h0⟩
    simp only [hiff]
    convert sum_links_eq_one l0
  · push Not at h
    simp [h]

theorem distance_clamp_le (worldroot : Coord) (hv : v ∈ comm.nodes) :
    distance (comm.clamp worldroot) v ≤ ∑ d, (comm.ur d - comm.ll d) := by
  have hroot := Rect.clamp_mem ⟨v, hv⟩ worldroot
  refine Finset.sum_le_sum fun d _ => ?_
  have h1 := Rect.mem_nodes_iff.mp hv d
  have h2 := Rect.mem_nodes_iff.mp hroot d
  omega

def Reaches (worldroot : Coord) (comm : Rect) (exclude : List Coord)
    (dims : Option (Dim → Dim)) (dim0 : Dim) (fuel : Nat) (u v : Coord) : Prop :=
  u ∈ comm.nodes ∧ u ∉ exclude ∧ OnRoute (dimOrder dims dim0) (comm.clamp worldroot) u v ∧
    distance (comm.clamp worldroot) u < distance (comm.clamp worldroot) v + fuel

section

variable (hdims : ∀ table, dims = some table → Bijective table)
include hdims

theorem reaches_succ_iff (hv : v ∈ comm.nodes) (huv : u ≠ v) :
    Reaches worldroot comm exclude dims dim0 (fuel + 1) u v ↔
      ∃ d s, HasLink (buildNodeClassrouteSparse worldroot v comm exclude dims dim0).input d s ∧
        Reaches worldroot comm exclude dims dim0 fuel u (neighbour v d s) := by
  simp only [(buildNodeClassrouteSparse_spec worldroot exclude dim0 hdims hv).1]
  constructor
  · rintro ⟨hu, hex, hroute, hdist⟩
    obtain rfl | ⟨d, s, hlink, hroute⟩ := (onRoute_iff_link hdims hv hu).mp hroute
    · exact absurd rfl huv
    · obtain ⟨-, -, -, hstep⟩ := hop_neighbour hdims hv hlink
      exact ⟨d, s, ⟨hlink, u, hu, hroute, hex⟩, hu, hex, hroute, by omega⟩
  · rintro ⟨d, s, ⟨hlink, -⟩, hu, hex, hroute, hdist⟩
    obtain ⟨-, -, -, hstep⟩ := hop_neighbour hdims hv hlink
    exact ⟨hu, hex, (onRoute_iff_link hdims hv hu).mpr (.inr ⟨d, s, hlink, hroute⟩), by omega⟩

theorem reaches_link_unique (hv : v ∈ comm.nodes) {l1 l2 : Dim × Sign}
    (hlink1 : HasLink (buildNodeClassroute worldroot v comm dims dim0).input l1.1 l1.2)
    (hlink2 : HasLink (buildNodeClassroute worldroot v comm dims dim0).input l2.1 l2.2)
    (h1 : Reaches worldroot comm exclude dims dim0 fuel u (neighbour v l1.1 l1.2))
    (h2 : Reaches worldroot comm exclude dims dim0 fuel u (neighbour v l2.1 l2.2)) : l1 = l2 := by
  have horder := mem_dimOrder hdims dim0
  obtain ⟨w, hw, hne, hhop, hnb⟩ := (hasLink_input_iff hdims hv _ _).mp hlink1
  obtain ⟨w', hw', hne', hhop', hnb'⟩ := (hasLink_input_iff hdims hv _ _).mp hlink2
  obtain ⟨-, -, hroute, -⟩ := h1
  obtain ⟨-, -, hroute', -⟩ := h2
  rw [← hnb.eq_neighbour] at hroute
  rw [← hnb'.eq_neighbour] at hroute'
  obtain rfl := eq_of_onRoute_of_hop_eq horder hne hne' (hhop.trans hhop'.symm) hroute hroute'
  obtain ⟨e, he⟩ := exists_firstOff horder hne
  have hback := hnb.flip
  have hback' := hnb'.flip
  rw [← hhop, hop_of_firstOff he, isNeighbour_approach_iff (firstOff_ne he)] at hback hback'
  refine Prod.ext (hback.1.trans hback'.1.symm) ?_
  rw [← Sign.flip_flip l1.2, hback.2, ← hback'.2, Sign.flip_flip]

end

open Classical in
theorem count_arrivals (hdims : ∀ table, dims = some table → Bijective table)
    (fuel : Nat) (hv : v ∈ comm.nodes) (u : Coord) :
    (arrivals (fun v => buildNodeClassrouteSparse worldroot v comm exclude dims dim0) fuel
      v).count u = if Reaches worldroot comm exclude dims dim0 fuel u v then 1 else 0 := by
  have horder := mem_dimOrder hdims dim0
  induction fuel generalizing v with
  | zero =>
    rw [if_neg]
    · rfl
    · rintro ⟨-, -, hroute, hdist⟩
      have := distance_le_of_onRoute horder hroute
      omega
  | succ fuel ih =>
    obtain ⟨hinput, hlocal, -, -⟩ := buildNodeClassrouteSparse_spec worldroot exclude dim0 hdims hv
    -- what one link brings in, by the induction hypothesis at its far end
    have hterm : ∀ l : Dim × Sign,
        (if HasLink (buildNodeClassrouteSparse worldroot v comm exclude dims dim0).input l.1 l.2
          then arrivals (fun v => buildNodeClassrouteSparse worldroot v comm exclude dims dim0)
            fuel (neighbour v l.1 l.2) else []).count u =
        if HasLink (buildNodeClassrouteSparse worldroot v comm exclude dims dim0).input l.1 l.2 ∧
          Reaches worldroot comm exclude dims dim0 fuel u (neighbour v l.1 l.2)
        then 1 else 0 := by
      intro l
      by_cases hlink : HasLink
          (buildNodeClassrouteSparse worldroot v comm exclude dims dim0).input l.1 l.2
      · simp only [hlink, if_true, true_and]
        exact ih (hop_neighbour hdims hv ((hinput l.1 l.2).mp hlink).1).1
      · simp [hlink]
    rw [arrivals, count_append, count_flatMap]
    simp only [comp_def, hterm, hlocal]
    rw [sum_links_of_unique fun l1 l2 h1 h2 => reaches_link_unique hdims hv ((hinput _ _).mp h1.1).1
      ((hinput _ _).mp h2.1).1 h1.2 h2.2]
    by_cases huv : u = v
    · subst huv
      have hnone : ¬ ∃ l : Dim × Sign,
          HasLink (buildNodeClassrouteSparse worldroot u comm exclude dims dim0).input l.1 l.2 ∧
            Reaches worldroot comm exclude dims dim0 fuel u (neighbour u l.1 l.2) := by
        rintro ⟨l, hlink, -, -, hroute, -⟩
        obtain ⟨-, hne, hhop, -⟩ := hop_neighbour hdims hv ((hinput l.1 l.2).mp hlink).1
        exact not_onRoute_of_hop_eq horder hne hhop hroute
      have hself : Reaches worldroot comm exclude dims dim0 (fuel + 1) u u ↔ u ∉ exclude :=
        ⟨fun h => h.2.1, fun h => ⟨hv, h, ⟨0, rfl⟩, by omega⟩⟩
      simp only [hnone, if_false, hself]
      by_cases hex : u ∈ exclude <;> simp [hex]
    · have hfirst : (if v ∉ exclude then [v] else []).count u = 0 := by
        split_ifs <;> simp [Ne.symm huv]
      simp only [hfirst, zero_add, reaches_succ_iff hdims hv huv, Prod.exists]

end Pruning

/-- Pruning leaves the tree of the contributing nodes: the class routes that all
nodes of a rectangle compute on their own keep a link at both of its ends exactly
when some node behind it contributes, and every contribution reaches the root once. -/
theorem buildNodeClassrouteSparse_prunedTree (worldroot : Coord) (comm : Rect)
    (exclude : List Coord) {dims : Option (Dim → Dim)}
    (hdims : ∀ table, dims = some table → Bijective table) (dim0 : Dim)
    (hcomm : comm.nodes.Nonempty) :
    PrunedTree comm (fun v => buildNodeClassroute worldroot v comm dims dim0)
      (fun v => buildNodeClassrouteSparse worldroot v comm exclude dims dim0)
      (comm.clamp worldroot) exclude := by
  have horder := mem_dimOrder hdims dim0
  have hroot := Rect.clamp_mem hcomm worldroot
  constructor
  · intro v hv d s
    rw [(buildNodeClassrouteSparse_spec worldroot exclude dim0 hdims hv).1, contributes_iff_subtree]
  · intro v hv hne hcontrib
    have hout := (buildNodeClassrouteSparse_spec worldroot exclude dim0 hdims hv).2.2.1
      (contributes_iff_subtree.mpr hcontrib)
    refine ⟨hout, ?_⟩
    rw [hout]
    exact fun hzero => hne ((buildNodeClassroute_output_eq_zero_iff hdims hv).mp hzero)
  · intro v hv hcases
    obtain ⟨-, -, hkeep, hdrop⟩ := buildNodeClassrouteSparse_spec worldroot exclude dim0 hdims hv
    by_cases hcontrib : Contributes worldroot comm exclude dims dim0 v
    · rcases hcases with heq | hall
      · rw [hkeep hcontrib]
        exact (buildNodeClassroute_output_eq_zero_iff hdims hv).mpr heq
      · obtain ⟨u, hu, hex⟩ := contributes_iff_subtree.mp hcontrib
        exact absurd (hall u hu) hex
    · exact hdrop hcontrib
  · exact fun v hv => (buildNodeClassrouteSparse_spec worldroot exclude dim0 hdims hv).2.1
  · intro v hv u hu d s hnb
    obtain ⟨-, -, hkeep, hdrop⟩ := buildNodeClassrouteSparse_spec worldroot exclude dim0 hdims hv
    rw [(buildNodeClassrouteSparse_spec worldroot exclude dim0 hdims hu).1, ← hnb.flip.eq_neighbour,
      ← hasLink_output_iff_input hdims hv hu hnb]
    by_cases hcontrib : Contributes worldroot comm exclude dims dim0 v
    · simp [hkeep hcontrib, hcontrib]
    · simp [hdrop hcontrib, hcontrib]
  · classical
    intro fuel hfuel u
    rw [count_arrivals hdims fuel hroot]
    refine if_congr ?_ rfl rfl
    constructor
    · rintro ⟨hu, hex, -, -⟩
      exact ⟨hu, hex⟩
    · rintro ⟨hu, hex⟩
      have hle := distance_clamp_le worldroot hu
      exact ⟨hu, hex, onRoute_target horder u, by omega⟩

/-- A 2 x 3 rectangle without the far corner and the middle of its first row. -/
theorem buildNodeClassrouteSparse_prunedTree_two_by_three :
    PrunedTree ⟨![1, 1, 0, 0, 0], ![2, 3, 0, 0, 0]⟩
      (fun v => buildNodeClassroute ![0, 2, 0, 0, 0] v ⟨![1, 1, 0, 0, 0], ![2, 3, 0, 0, 0]⟩
        (some Fin.rev) 3)
      (fun v => buildNodeClassrouteSparse ![0, 2, 0, 0, 0] v
        ⟨![1, 1, 0, 0, 0], ![2, 3, 0, 0, 0]⟩ [![2, 3, 0, 0, 0], ![1, 2, 0, 0, 0]]
        (some Fin.rev) 3)
      (Rect.clamp ⟨![1, 1, 0, 0, 0], ![2, 3, 0, 0, 0]⟩ ![0, 2, 0, 0, 0])
      [![2, 3, 0, 0, 0], ![1, 2, 0, 0, 0]] :=
  buildNodeClassrouteSparse_prunedTree _ _ _
    (by rintro table ⟨⟩; exact Fin.rev_bijective) 3 ⟨![1, 1, 0, 0, 0], by decide⟩

end BgqDriver.ClassroutePruning
