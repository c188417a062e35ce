import BgqDriver.RankLocation

/-!
When the three places that look for the node of a rank find the same one. Two of them take
the midplane of a sub-block to be the first one of the block; the third one takes it from
the corner.
-/

namespace BgqDriver.RankAgreement

open List Option Nat Prod Fin
open ClassrouteLinks RankMap RankLocation Job MidplaneConfig

section Locations

variable {T : Topology} {ν : Type*} {job : Job T ν} {m : MidplaneConfig T ν} {v : Coord}

def nodeAt (job : Job T ν) (m : MidplaneConfig T ν) (v : Coord) : Location ν :=
  ⟨m.posInMachine, T.nodeCardnodeJtagFromABCDE fun d =>
    withinMidplane (fun d => v d + job.cornerCoordinates d) d + m.partialMidplaneOrigin d⟩

theorem cornerCoordinates_lt (job : Job T ν) (d : Dim) : job.cornerCoordinates d < 4 := by
  rw [cornerCoordinates]
  cases job.subBlock with
  | none => exact zero_lt_succ 3
  | some sub =>
    have hle := origin_le sub.corner_mem d
    have hlt := T.lt sub.corner d
    have hfour := maxNode_le d
    simp only
    rw [sub32_eq hle (by omega)]
    omega

theorem add_corner_of_none (hjob : job.subBlock = none) :
    (fun d => v d + job.cornerCoordinates d) = v := by
  funext d
  rw [cornerCoordinates, hjob]
  rfl

theorem add_corner_lt {sub : SubBlock job.block} (hjob : job.subBlock = some sub)
    (hv : ∀ d, v d < sub.shape d) (d : Dim) :
    v d + job.cornerCoordinates d < sub.midplane.nodesShape d := by
  have hd := hv d
  have hfits := sub.inside d
  rw [cornerCoordinates, hjob]
  simp only
  omega

section Midplane

variable (hm : (midplanePos v, m) ∈ job.block.midplanes) (hv : ∀ d, v d < 64)
  (hnode : ∀ d, withinMidplane (fun d => v d + job.cornerCoordinates d) d < m.nodesShape d)
include hm hv hnode

theorem findLocation_eq [DecidableEq ν] : job.findLocation v = some (nodeAt job m v) := by
  have hsum : (fun d => add32 (v d) (job.cornerCoordinates d)) =
      fun d => v d + job.cornerCoordinates d := by
    funext d
    have hd := hv d
    have hcorner := cornerCoordinates_lt job d
    exact add32_eq (by omega)
  rw [findLocation, Block.midplaneNodeConfig_eq hm, bind_some,
    Block.findByName_eq hm, bind_some, hsum]
  exact node_eq hnode

/-- The place in the midplane may be reduced before or after the offset of the box. -/
theorem findNodeLocation_eq : job.findNodeLocation v = some (nodeAt job m v) := by
  have hlt := lt_maxNode hnode
  rw [findNodeLocation, locateMidplane_eq hm, map_some, findCorner_eq, offset_eq hm, nodeAt]
  congr 3
  funext d
  have hd := hv d
  have hcorner := cornerCoordinates_lt job d
  have hfour := maxNode_le d
  have hplace := hlt d
  have hsum : add32 (add32 (v d) (m.partialMidplaneOrigin d)) (job.cornerCoordinates d) =
      v d + job.cornerCoordinates d + m.partialMidplaneOrigin d := by
    rw [add32_eq (by omega : v d + m.partialMidplaneOrigin d < 2 ^ 32), add32_eq (by omega)]
    omega
  rw [withinMidplane] at hplace ⊢
  rw [hsum, withinMidplane]
  split
  · rfl
  next hlast =>
    rw [if_neg hlast] at hplace
    rw [add_mod, add_mod_mod, mod_eq_of_lt hplace]

end Midplane

theorem rankCoordinates_spec {mapFilename : List Char} {ranksPerNode np : Nat}
    {map : List MapCoord} (h : job.rankCoordinates mapFilename ranksPerNode np = some map) :
    map.length = np ∧ ∀ v ∈ map, (∀ d, v.node d < job.shape d) ∧ ∀ d, v.node d < 64 := by
  rw [rankCoordinates] at h
  split_ifs at h
  obtain ⟨hlength, hmem⟩ := generateCoordinates_spec h
  refine ⟨hlength, ?_⟩
  intro v hv
  obtain ⟨hlt, hwidth⟩ := hmem v hv
  refine ⟨?_, hwidth⟩
  intro d
  have hd := hlt d
  rwa [snoc_castSucc] at hd

theorem find?_map_snd_eq {κ β : Type*} [DecidableEq κ] {l : List (κ × β)} {k : κ} {b : β}
    (hmem : (k, b) ∈ l) (hunique : ∀ n ∈ l, n.1 = k → n.2 = b) :
    (l.find? fun n => n.1 = k).map snd = some b := by
  have hfind : l.find? (fun n => n.1 = k) = some (k, b) := by
    apply find?_eq_of_unique hmem
    rintro ⟨k', b'⟩ hn rfl
    exact congrArg (mk k') (hunique _ hn rfl)
  rw [hfind, map_some]

variable [DecidableEq ν]

theorem generateMidplane_eq {p : Pos} (h : (p, m) ∈ job.block.midplanes) :
    job.generateMidplane m = some ((coordsBelow m.nodesShape).map fun w =>
      (blockCoordinates p w, ⟨m.posInMachine, T.nodeCardnodeJtagFromABCDE fun d =>
        w d + m.partialMidplaneOrigin d⟩)) := by
  rw [generateMidplane, Block.findByName_eq h, bind_some]
  apply mapM_eq_map
  intro w hw
  rw [node_eq (mem_coordsBelow.mp hw), map_some]

theorem generatedLocation_full (hjob : job.subBlock = none)
    (hm : (midplanePos v, m) ∈ job.block.midplanes)
    (hnode : ∀ d, withinMidplane v d < m.nodesShape d) :
    job.generatedLocation v = some (nodeAt job m v) := by
  have hgenerate : job.generate = some ((job.block.midplanes.map fun m =>
      (coordsBelow m.2.nodesShape).map fun w =>
        (blockCoordinates m.1 w, (⟨m.2.posInMachine, T.nodeCardnodeJtagFromABCDE fun d =>
          w d + m.2.partialMidplaneOrigin d⟩ : Location ν))).flatten) := by
    rw [generate, hjob]
    rw [mapM_eq_map fun m hm => generateMidplane_eq hm, map_some]
  rw [generatedLocation, hgenerate, bind_some, nodeAt, add_corner_of_none hjob]
  apply find?_map_snd_eq
  · rw [mem_flatten]
    refine ⟨_, List.mem_map_of_mem hm, ?_⟩
    rw [List.mem_map]
    refine ⟨withinMidplane v, mem_coordsBelow.mpr hnode, ?_⟩
    rw [(blockCoordinates_eq_iff (coord_lt hnode)).mpr ⟨rfl, rfl⟩]
  · intro n hn hkey
    obtain ⟨l, hl, hn⟩ := mem_flatten.mp hn
    obtain ⟨⟨p, m'⟩, hm', rfl⟩ := List.mem_map.mp hl
    obtain ⟨w, hw, rfl⟩ := List.mem_map.mp hn
    -- The coordinates determine the midplane and the place in it.
    obtain ⟨rfl, rfl⟩ := (blockCoordinates_eq_iff (coord_lt (mem_coordsBelow.mp hw))).mp hkey
    obtain ⟨-, rfl⟩ := mk.inj (eq_of_nodup_map job.block.positions hm _ hm' rfl)
    rfl

theorem generatedLocation_sub {sub : SubBlock job.block} (hjob : job.subBlock = some sub)
    (hv : ∀ d, v d < sub.shape d) : job.generatedLocation v = some (nodeAt job sub.midplane v) := by
  have hplace : ∀ w : Coord, (∀ d, w d < sub.shape d) →
      (fun d => add32 (w d) (job.cornerCoordinates d)) =
          withinMidplane (fun d => w d + job.cornerCoordinates d) ∧
        ∀ d, withinMidplane (fun d => w d + job.cornerCoordinates d) d <
          sub.midplane.nodesShape d := by
    intro w hw
    have hinside := add_corner_lt hjob hw
    have hlt := coord_lt hinside
    rw [withinMidplane_eq hlt]
    refine ⟨?_, hinside⟩
    funext d
    have hd := hlt d
    have hfour := maxNode_le d
    exact add32_eq (by omega)
  have hgenerate : job.generate = some ((coordsBelow sub.shape).map fun w =>
      (w, nodeAt job sub.midplane w)) := by
    rw [generate, hjob]
    simp only
    rw [generateSubBlock, Block.findByName_eq sub.mem, bind_some]
    apply mapM_eq_map
    intro w hw
    obtain ⟨hsum, hnode⟩ := hplace w (mem_coordsBelow.mp hw)
    rw [hsum, node_eq hnode, map_some, nodeAt]
  rw [generatedLocation, hgenerate, bind_some]
  apply find?_map_snd_eq
  · exact List.mem_map.mpr ⟨v, mem_coordsBelow.mpr hv, rfl⟩
  · intro n hn hkey
    obtain ⟨w, -, rfl⟩ := List.mem_map.mp hn
    obtain rfl : w = v := hkey
    rfl

end Locations

section Ranks

variable {T : Topology} {ν : Type*} [DecidableEq ν] {job : Job T ν} {v : Coord}

theorem agree_iff (hshape : ∀ d, v d < job.shape d) (hv : ∀ d, v d < 64) :
    job.Agree v ↔ job.InFirstMidplane := by
  rw [Job.shape] at hshape
  cases hjob : job.subBlock with
  | none =>
    rw [hjob] at hshape
    obtain ⟨m, hm, hnode⟩ := Block.exists_midplane hshape
    have hnode' : ∀ d, withinMidplane (fun d => v d + job.cornerCoordinates d) d <
        m.nodesShape d := by
      rwa [add_corner_of_none hjob]
    refine iff_of_true ⟨nodeAt job m v, findLocation_eq hm hv hnode',
      findNodeLocation_eq hm hv hnode', generatedLocation_full hjob hm hnode⟩ ?_
    intro sub hsub
    rw [hjob] at hsub
    cases hsub
  | some sub =>
    rw [hjob] at hshape
    obtain ⟨first, hfirst⟩ := job.block.exists_first
    have hinside := add_corner_lt hjob hshape
    have hlt := coord_lt hinside
    have hzero : midplanePos v = 0 := midplanePos_eq_zero fun d =>
      Nat.lt_of_le_of_lt (Nat.le_add_right _ _) (hlt d)
    have hnode : ∀ d, withinMidplane (fun d => v d + job.cornerCoordinates d) d <
        first.nodesShape d := by
      rw [withinMidplane_eq hlt]
      rcases job.block.layout with ⟨m, hm, -⟩ | ⟨hfull, -⟩
      · have hsub := sub.mem
        rw [hm] at hsub hfirst
        obtain ⟨-, hsub⟩ := mk.inj (mem_singleton.mp hsub)
        obtain ⟨-, hfirst⟩ := mk.inj (mem_singleton.mp hfirst)
        rw [hfirst, ← hsub]
        exact hinside
      · intro d
        rw [nodesShape, if_pos (hfull _ hfirst)]
        exact hlt d
    have hmidplane : (midplanePos v, first) ∈ job.block.midplanes := hzero ▸ hfirst
    have hfound := findLocation_eq hmidplane hv hnode
    have hgenerated := generatedLocation_sub hjob hshape
    constructor
    · rintro ⟨location, hlocation, -, hlist⟩ sub' hsub'
      rw [hjob, some.injEq] at hsub'
      rw [hfound] at hlocation
      rw [hgenerated, ← hlocation, some.injEq] at hlist
      have hname : sub.midplane.posInMachine = first.posInMachine :=
        congrArg Location.midplane hlist
      have heq := eq_of_nodup_map job.block.names hfirst _ sub.mem hname
      rw [← hsub']
      exact (mk.inj heq).1
    · intro hposition
      have hmem := sub.mem
      rw [hposition sub hjob] at hmem
      have heq := eq_of_nodup_map job.block.positions hfirst _ hmem rfl
      rw [(mk.inj heq).2] at hgenerated
      exact ⟨_, hfound, findNodeLocation_eq hmidplane hv hnode, hgenerated⟩

/-- For every permutation the ranks of a job have coordinates, and the node of a rank is
found to be the same in all three places just for jobs on the whole block or in its first
midplane. -/
theorem ranks_agree_iff (job : Job T ν) (order : List MapDim)
    (horder : order.Perm (finRange 6)) (ranksPerNode np : Nat) :
    ((∀ d, job.shape d ≠ 0 ∧ job.shape d < 256) → ranksPerNode ≠ 0 →
      ((finRange 6).map (snoc job.shape ranksPerNode : MapDim → Nat)).prod < 2 ^ 32 →
        ∃ map, job.rankCoordinates (order.map dimLetter) ranksPerNode np = some map) ∧
    ∀ map, job.rankCoordinates (order.map dimLetter) ranksPerNode np = some map →
      ∀ rank, rank < np → ∃ v, map[rank]? = some v ∧
        (job.Agree v.node ↔ job.InFirstMidplane) := by
  constructor
  · intro hshape hranks hlt
    rw [rankCoordinates, if_pos fun d => (hshape d).2]
    refine generateCoordinates_isSome horder ?_ hlt np
    intro y
    refine lastCases ?_ ?_ y
    · rw [snoc_last]
      exact hranks
    · intro d
      rw [snoc_castSucc]
      exact (hshape d).1
  · intro map hmap rank hrank
    obtain ⟨hlength, hmem⟩ := rankCoordinates_spec hmap
    have hv := getElem?_eq_getElem (hlength ▸ hrank)
    obtain ⟨hlt, hwidth⟩ := hmem _ (mem_of_getElem? hv)
    exact ⟨_, hv, agree_iff hlt hwidth⟩

end Ranks

section Samples

def fullMidplane (T : Topology) {ν : Type*} (name : ν) : MidplaneConfig T ν where
  posInMachine := name
  fullMidplaneUsed := true
  boards := finRange 16
  partialMidplaneOrigin := 0
  partialSize := maxNode
  box := by
    intro v
    simp only [Pi.zero_apply, Nat.zero_le, true_and, Nat.zero_add]
    constructor
    · rintro ⟨b, -, c, rfl⟩ d
      exact T.lt (b, c) d
    · intro hv
      exact ⟨_, mem_finRange _, _, T.right_inv v hv⟩
  pos := maxNode_pos
  full := fun _ => ⟨rfl, rfl⟩

def twoMidplanes (T : Topology) : Block T Bool where
  midplanes := [(0, fullMidplane T false), (![1, 0, 0, 0], fullMidplane T true)]
  shape := ![8, 4, 4, 4, 2]
  positions := by
    change [(0 : Pos), ![1, 0, 0, 0]].Nodup
    decide
  names := by
    change [false, true].Nodup
    decide
  layout := by
    right
    refine ⟨?_, ![2, 1, 1, 1], by decide, ?_, by decide, rfl⟩
    · intro m hm
      rcases mem_cons.mp hm with rfl | hm
      · rfl
      · rw [mem_singleton.mp hm]
        rfl
    · intro p
      simp only [map_cons, map_nil, mem_cons, not_mem_nil, or_false]
      constructor
      · rintro (rfl | rfl)
        all_goals decide
      · intro hp
        have h0 := hp 0
        have h1 := hp 1
        have h2 := hp 2
        have h3 := hp 3
        simp only [Matrix.cons_val] at h0 h1 h2 h3
        rcases Nat.lt_or_ge (p 0) 1 with hlow | hhigh
        · left
          funext d
          fin_cases d <;> simp <;> omega
        · right
          funext d
          fin_cases d <;> simp <;> omega

def plainTopology : Topology where
  abcdeGlobalMap := fun n =>
    let i := 32 * n.1.val + n.2.val
    ![i / 128, i / 32 % 4, i / 8 % 4, i / 2 % 4, i % 2]
  nodeCardnodeJtagFromABCDE := fun v =>
    let i := 128 * v 0 + 32 * v 1 + 8 * v 2 + 2 * v 3 + v 4
    (Fin.ofNat 16 (i / 32), Fin.ofNat 32 i)
  lt := by decide +kernel
  left_inv := by decide +kernel
  right_inv := by
    intro v hv
    have h0 := hv 0
    have h1 := hv 1
    have h2 := hv 2
    have h3 := hv 3
    have h4 := hv 4
    simp only [maxNode, Matrix.cons_val] at h0 h1 h2 h3 h4
    funext d
    fin_cases d <;> simp <;> omega

def secondMidplaneJob : Job plainTopology Bool where
  block := twoMidplanes plainTopology
  subBlock := some
    { position := ![1, 0, 0, 0]
      midplane := fullMidplane plainTopology true
      mem := mem_cons_of_mem _ (mem_singleton.mpr rfl)
      corner := (0, 0)
      corner_mem := mem_finRange _
      shape := ![2, 1, 2, 1, 1]
      pos := by decide
      inside := by decide }

/-- Four nodes with two ranks each -/
theorem ranks_agree_iff_second : ∃ map,
    secondMidplaneJob.rankCoordinates ((finRange 6).reverse.map dimLetter) 2 8 = some map ∧
      ∀ rank < 8, ∃ v, map[rank]? = some v ∧
        (secondMidplaneJob.Agree v.node ↔ secondMidplaneJob.InFirstMidplane) := by
  obtain ⟨hsome, hagree⟩ :=
    ranks_agree_iff secondMidplaneJob (finRange 6).reverse (reverse_perm _) 2 8
  obtain ⟨map, hmap⟩ := hsome (by decide) (by decide) (by decide)
  exact ⟨map, hmap, hagree map hmap⟩

/-- The process table and `locate_rank` look for the job in the first midplane. -/
theorem not_forall_ranks_agree : ¬ ∀ (T : Topology) (job : Job T Bool) (order : List MapDim),
    order.Perm (finRange 6) → ∀ (ranksPerNode np : Nat) (map : List MapCoord),
      job.rankCoordinates (order.map dimLetter) ranksPerNode np = some map →
        ∀ v ∈ map, job.Agree v.node := by
  intro hall
  have hsome : (secondMidplaneJob.rankCoordinates ((finRange 6).map dimLetter) 1 1).isSome =
      true := by
    decide +kernel
  obtain ⟨map, hmap⟩ := isSome_iff_exists.mp hsome
  obtain ⟨hlength, hmem⟩ := rankCoordinates_spec hmap
  obtain ⟨v, hv⟩ := exists_mem_of_length_pos (hlength ▸ Nat.one_pos)
  have hagree := hall plainTopology secondMidplaneJob _ (List.Perm.refl _) 1 1 map hmap v hv
  rw [agree_iff (hmem v hv).1 (hmem v hv).2] at hagree
  exact absurd (congrFun (hagree _ rfl) 0) Nat.one_ne_zero

end Samples

end BgqDriver.RankAgreement
