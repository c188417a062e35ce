import BgqDriver.RankMap

/-!
The nodes on which the ranks of a job run, as runjob finds them in three places: the table
of the processes of a job (`RankMapping`), the command that locates a rank
(`locate_rank`), and the list of nodes that the class routes are generated for
(`class_route::Generate`).
-/

namespace BgqDriver.RankLocation

open Function List Nat Fin
open ClassrouteLinks RankMap

abbrev Board := Fin 16

abbrev Card := Fin 32

/-- `BGQTopology::MAX_A_NODE` to `MAX_E_NODE` -/
def maxNode : Coord := ![4, 4, 4, 4, 2]

/-- The tables of `BGQTopology`: where a compute card is in its midplane, and which card is
at a place. -/
structure Topology where
  abcdeGlobalMap : Board × Card → Coord
  nodeCardnodeJtagFromABCDE : Coord → Board × Card
  lt : ∀ n d, abcdeGlobalMap n d < maxNode d
  left_inv : ∀ n, nodeCardnodeJtagFromABCDE (abcdeGlobalMap n) = n
  right_inv : ∀ v, (∀ d, v d < maxNode d) → abcdeGlobalMap (nodeCardnodeJtagFromABCDE v) = v

structure Location (ν : Type*) where
  midplane : ν
  node : Board × Card
  deriving DecidableEq

abbrev Pos := Fin 4 → Nat

def add32 (a b : Nat) : Nat := (a + b) % 2 ^ 32

def sub32 (a b : Nat) : Nat := (a + (2 ^ 32 - b)) % 2 ^ 32

/-- A midplane, or the part of one that a small block uses: its nodes fill a box. -/
structure MidplaneConfig (T : Topology) (ν : Type*) where
  posInMachine : ν
  fullMidplaneUsed : Bool
  boards : List Board
  partialMidplaneOrigin : Coord
  partialSize : Coord
  box : ∀ v, (∃ b ∈ boards, ∃ c, T.abcdeGlobalMap (b, c) = v) ↔
    ∀ d, partialMidplaneOrigin d ≤ v d ∧ v d < partialMidplaneOrigin d + partialSize d
  pos : ∀ d, 0 < partialSize d
  full : fullMidplaneUsed = true → partialMidplaneOrigin = 0 ∧ partialSize = maxNode

section Midplanes

variable {T : Topology} {ν : Type*} (m : MidplaneConfig T ν)

namespace MidplaneConfig

def nodesShape : Coord := if m.fullMidplaneUsed then maxNode else m.partialSize

def computes : List (Board × Card) :=
  m.boards.flatMap fun b => (finRange 32).map fun c => (b, c)

/-- The array of nodes that the constructor of `Midplane` fills. -/
def nodes : Coord → Option (Location ν) :=
  m.computes.foldl (fun nodes compute =>
    update nodes (fun d => sub32 (T.abcdeGlobalMap compute d) (m.partialMidplaneOrigin d))
      (some ⟨m.posInMachine, compute⟩)) fun _ => none

/-- `Midplane::node`, which throws for coordinates outside of the array. -/
def node (v : Coord) : Option (Location ν) := if ∀ d, v d < m.nodesShape d then m.nodes v else none

end MidplaneConfig

end Midplanes

/-- A block: a part of one midplane, or midplanes that fill a box. -/
structure Block (T : Topology) (ν : Type*) where
  midplanes : List (Pos × MidplaneConfig T ν)
  shape : Coord
  positions : (midplanes.map Prod.fst).Nodup
  names : (midplanes.map fun m => m.2.posInMachine).Nodup
  layout :
    (∃ m, midplanes = [(0, m)] ∧ m.fullMidplaneUsed = false ∧ shape = m.partialSize ∧
      shape 0 * shape 1 * shape 2 * shape 3 * shape 4 < 512) ∨
    ((∀ m ∈ midplanes, m.2.fullMidplaneUsed = true) ∧ ∃ counts : Pos, (∀ d, 0 < counts d) ∧
      (∀ p, p ∈ midplanes.map Prod.fst ↔ ∀ d, p d < counts d) ∧
      (∀ d : Fin 4, shape d.castSucc = counts d * maxNode d.castSucc) ∧ shape 4 = maxNode 4)

/-- A sub-block: a corner in one midplane of the block and a shape that fits behind it
there. -/
structure SubBlock {T : Topology} {ν : Type*} (block : Block T ν) where
  position : Pos
  midplane : MidplaneConfig T ν
  mem : (position, midplane) ∈ block.midplanes
  corner : Board × Card
  corner_mem : corner.1 ∈ midplane.boards
  shape : Coord
  pos : ∀ d, 0 < shape d
  inside : ∀ d, sub32 (T.abcdeGlobalMap corner d) (midplane.partialMidplaneOrigin d) + shape d ≤
    midplane.nodesShape d

structure Job (T : Topology) (ν : Type*) where
  block : Block T ν
  subBlock : Option (SubBlock block)

section Functions

variable {T : Topology} {ν : Type*} [DecidableEq ν]

namespace Block

variable (block : Block T ν)

/-- `midplaneNodeConfig`: the midplane at a place of the block. -/
def midplaneNodeConfig (p : Pos) : Option (MidplaneConfig T ν) :=
  (block.midplanes.find? fun m => m.1 = p).map Prod.snd

def findByName (name : ν) : Option (Pos × MidplaneConfig T ν) :=
  block.midplanes.find? fun m => m.2.posInMachine = name

end Block

namespace Job

variable (job : Job T ν)

def shape : Coord :=
  match job.subBlock with
  | none => job.block.shape
  | some sub => sub.shape

/-- `Corner::getMidplaneCoordinates`, as set when the job was let in. -/
def cornerCoordinates : Coord :=
  match job.subBlock with
  | none => 0
  | some sub => fun d =>
    sub32 (T.abcdeGlobalMap sub.corner d) (sub.midplane.partialMidplaneOrigin d)

def midplanePos (v : Coord) : Pos := fun d => v d.castSucc / maxNode d.castSucc

/-- Coordinates within a midplane: the E axis is not reduced. -/
def withinMidplane (v : Coord) : Coord := fun d => if d = 4 then v d else v d % maxNode d

/-- `RankMapping::findLocation` -/
def findLocation (v : Coord) : Option (Location ν) :=
  (job.block.midplaneNodeConfig (midplanePos v)).bind fun result =>
    (job.block.findByName result.posInMachine).bind fun midplane =>
      midplane.2.node (withinMidplane fun d => add32 (v d) (job.cornerCoordinates d))

section LocateRank

def smallRows : List (ν × Board) :=
  job.block.midplanes.flatMap fun m => m.2.boards.map fun b => (m.2.posInMachine, b)

def small : Bool :=
  let s := job.block.shape
  decide (s 0 * s 1 * s 2 * s 3 * s 4 < 512)

/-- The loops of `querySmallBlock`: the least coordinates of any node. -/
def smallOffset : Coord :=
  job.smallRows.foldl (fun offset row =>
    (finRange 32).foldl (fun offset i d =>
      let coordinate := T.abcdeGlobalMap (row.2, i) d
      if coordinate < offset d then coordinate else offset d) offset) maxNode

def offset : Coord := if job.small then job.smallOffset else 0

/-- `Block::findCorner` -/
def findCorner : Coord :=
  match job.subBlock with
  | none => 0
  | some sub => fun d => sub32 (T.abcdeGlobalMap sub.corner d) (job.offset d)

/-- The name of the midplane: that of the first row for a small block, and what
`executeLargeBlock` finds for another one. -/
def locateMidplane (v : Coord) : Option ν :=
  if job.small then job.smallRows.head?.map Prod.fst
  else (job.block.midplanes.find? fun m => m.1 = midplanePos v).map fun m => m.2.posInMachine

/-- `Block::findNodeLocation` -/
def findNodeLocation (v : Coord) : Option (Location ν) :=
  (job.locateMidplane v).map fun name =>
    ⟨name, T.nodeCardnodeJtagFromABCDE
      (withinMidplane fun d => add32 (add32 (v d) (job.offset d)) (job.findCorner d))⟩

end LocateRank

section Generate

/-- The coordinates that five nested loops run over. -/
def coordsBelow (size : Coord) : List Coord :=
  (range (size 0)).flatMap fun a => (range (size 1)).flatMap fun b =>
    (range (size 2)).flatMap fun c => (range (size 3)).flatMap fun d =>
      (range (size 4)).map fun e => ![a, b, c, d, e]

/-- `Generate::subBlock` -/
def generateSubBlock (sub : SubBlock job.block) : Option (List (Coord × Location ν)) :=
  (job.block.findByName sub.midplane.posInMachine).bind fun midplane =>
    (coordsBelow sub.shape).mapM fun v =>
      (midplane.2.node fun d => add32 (v d) (job.cornerCoordinates d)).map fun node => (v, node)

def blockCoordinates (p : Pos) (v : Coord) : Coord :=
  snoc (fun d : Fin 4 => v d.castSucc + p d * maxNode d.castSucc) (v 4)

/-- `Generate::midplane` -/
def generateMidplane (midplane : MidplaneConfig T ν) : Option (List (Coord × Location ν)) :=
  (job.block.findByName midplane.posInMachine).bind fun config =>
    (coordsBelow config.2.nodesShape).mapM fun v =>
      (midplane.node v).map fun node => (blockCoordinates config.1 v, node)

def generate : Option (List (Coord × Location ν)) :=
  match job.subBlock with
  | some sub => job.generateSubBlock sub
  | none => (job.block.midplanes.mapM fun m => job.generateMidplane m.2).map flatten

def generatedLocation (v : Coord) : Option (Location ν) :=
  job.generate.bind fun nodes => (nodes.find? fun n => n.1 = v).map Prod.snd

end Generate

/-- The coordinates of the ranks of a job; the shape is cast to bytes first. -/
def rankCoordinates (mapFilename : List Char) (ranksPerNode np : Nat) : Option (List MapCoord) :=
  if ∀ d, job.shape d < 256 then
    generateCoordinates mapFilename (snoc job.shape ranksPerNode) np
  else none

def InFirstMidplane : Prop := ∀ sub, job.subBlock = some sub → sub.position = 0

def Agree (v : Coord) : Prop :=
  ∃ location, job.findLocation v = some location ∧ job.findNodeLocation v = some location ∧
    job.generatedLocation v = some location

end Job

end Functions

section Words

variable {a b : Nat}

theorem add32_eq (h : a + b < 2 ^ 32) : add32 a b = a + b := mod_eq_of_lt h

theorem sub32_eq (hle : b ≤ a) (hlt : a < 2 ^ 32) : sub32 a b = a - b := by
  rw [sub32]
  omega

end Words

section Lists

variable {α β κ : Type*}

theorem mapM_eq_map {f : α → Option β} {g : α → β} {l : List α}
    (h : ∀ x ∈ l, f x = some (g x)) : l.mapM f = some (l.map g) := by
  induction l with
  | nil => rfl
  | cons x xs ih =>
    rw [mapM_cons, h x (mem_cons_self ..),
      ih fun y hy => h y (mem_cons_of_mem x hy)]
    rfl

theorem eq_of_nodup_map {key : α → κ} {l : List α} (h : (l.map key).Nodup) {a : α} (ha : a ∈ l) :
    ∀ x ∈ l, key x = key a → x = a :=
  fun _ hx heq => inj_on_of_nodup_map h hx ha heq

variable [DecidableEq κ]

theorem foldl_update_of_ne {key : α → κ} {value : α → β} {l : List α} {init : κ → β} {k : κ}
    (h : ∀ x ∈ l, key x ≠ k) : l.foldl (fun f x => update f (key x) (value x)) init k = init k := by
  induction l generalizing init with
  | nil => rfl
  | cons x xs ih =>
    rw [foldl_cons, ih fun y hy => h y (mem_cons_of_mem x hy),
      update_of_ne (h x (mem_cons_self ..)).symm]

theorem foldl_update_of_mem {key : α → κ} {value : α → β} {l : List α} {init : κ → β} {a : α}
    (ha : a ∈ l) (hinj : ∀ x ∈ l, key x = key a → x = a) :
    l.foldl (fun f x => update f (key x) (value x)) init (key a) = value a := by
  induction l generalizing init with
  | nil => cases ha
  | cons x xs ih =>
    rw [foldl_cons]
    by_cases hrest : a ∈ xs
    · exact ih hrest fun y hy => hinj y (mem_cons_of_mem x hy)
    · obtain rfl : a = x := (mem_cons.mp ha).resolve_right hrest
      rw [foldl_update_of_ne, update_self]
      intro y hy heq
      exact hrest (hinj y (mem_cons_of_mem a hy) heq ▸ hy)

theorem find?_eq_of_unique {key : α → κ} {l : List α} {a : α} (ha : a ∈ l)
    (hinj : ∀ x ∈ l, key x = key a → x = a) : l.find? (fun x => key x = key a) = some a := by
  cases hfound : l.find? (fun x => key x = key a) with
  | none =>
    have hnone := find?_eq_none.mp hfound a ha
    exact absurd (by simp) hnone
  | some x =>
    have hkey := find?_some hfound
    rw [decide_eq_true_eq] at hkey
    rw [hinj x (mem_of_find?_eq_some hfound) hkey]

end Lists

variable {n : Board × Card} {d : Dim}

section Midplanes

variable {T : Topology} {ν : Type*} {m : MidplaneConfig T ν} {v : Coord}

theorem maxNode_le (d : Dim) : maxNode d ≤ 4 := by
  revert d
  decide

theorem MidplaneConfig.nodesShape_eq (m : MidplaneConfig T ν) : m.nodesShape = m.partialSize := by
  rw [nodesShape]
  split
  next hfull =>
    exact (m.full hfull).2.symm
  · rfl

theorem MidplaneConfig.mem_computes : n ∈ m.computes ↔ n.1 ∈ m.boards := by
  simp only [computes, mem_flatMap, mem_map, mem_finRange, true_and]
  constructor
  · rintro ⟨b, hb, c, rfl⟩
    exact hb
  · intro h
    exact ⟨n.1, h, n.2, rfl⟩

section

variable (hv : ∀ d, v d < m.nodesShape d)
include hv

theorem MidplaneConfig.exists_compute :
    ∃ b ∈ m.boards, ∃ c, T.abcdeGlobalMap (b, c) = fun d => v d + m.partialMidplaneOrigin d := by
  rw [m.nodesShape_eq] at hv
  refine (m.box _).mpr fun d => ⟨Nat.le_add_left _ _, ?_⟩
  rw [Nat.add_comm]
  exact Nat.add_lt_add_left (hv d) _

theorem MidplaneConfig.lt_maxNode (d : Dim) : v d + m.partialMidplaneOrigin d < maxNode d := by
  obtain ⟨b, -, c, hbc⟩ := MidplaneConfig.exists_compute hv
  have hlt := T.lt (b, c) d
  rwa [hbc] at hlt

theorem MidplaneConfig.coord_lt (d : Dim) : v d < maxNode d :=
  Nat.lt_of_le_of_lt (Nat.le_add_right _ _) (MidplaneConfig.lt_maxNode hv d)

omit hv in
theorem MidplaneConfig.origin_le (hn : n.1 ∈ m.boards) (d : Dim) :
    m.partialMidplaneOrigin d ≤ T.abcdeGlobalMap n d :=
  ((m.box _).mp ⟨n.1, hn, n.2, rfl⟩ d).1

theorem MidplaneConfig.mem_boards :
    (T.nodeCardnodeJtagFromABCDE fun d => v d + m.partialMidplaneOrigin d).1 ∈ m.boards := by
  obtain ⟨b, hb, c, hbc⟩ := MidplaneConfig.exists_compute hv
  rw [← hbc, T.left_inv]
  exact hb

theorem MidplaneConfig.node_eq :
    m.node v = some ⟨m.posInMachine, T.nodeCardnodeJtagFromABCDE fun d =>
      v d + m.partialMidplaneOrigin d⟩ := by
  have hlt := MidplaneConfig.lt_maxNode hv
  have hright := T.right_inv _ hlt
  have hmem := MidplaneConfig.mem_boards hv
  have hkey : ∀ n ∈ m.computes, (fun d => sub32 (T.abcdeGlobalMap n d)
      (m.partialMidplaneOrigin d)) = v → n = T.nodeCardnodeJtagFromABCDE fun d =>
        v d + m.partialMidplaneOrigin d := by
    intro n hn heq
    rw [← T.left_inv n]
    congr 1
    funext d
    have hle := MidplaneConfig.origin_le (MidplaneConfig.mem_computes.mp hn) d
    have hmax := T.lt n d
    have hfour := maxNode_le d
    have hd := congrFun heq d
    rw [sub32_eq hle (by omega)] at hd
    omega
  have hv' : (fun d => sub32 (T.abcdeGlobalMap
      (T.nodeCardnodeJtagFromABCDE fun d => v d + m.partialMidplaneOrigin d) d)
        (m.partialMidplaneOrigin d)) = v := by
    funext d
    have hd := hlt d
    have hfour := maxNode_le d
    rw [hright, sub32_eq (Nat.le_add_left _ _) (by omega), Nat.add_sub_cancel]
  rw [node, if_pos hv, nodes]
  conv_lhs => rw [← hv']
  apply foldl_update_of_mem (MidplaneConfig.mem_computes.mpr hmem)
  intro n hn heq
  exact hkey n hn (heq.trans hv')

end

end Midplanes

section Blocks

variable {T : Topology} {ν : Type*} {block : Block T ν} {m : MidplaneConfig T ν} {p : Pos}
  {v : Coord}

theorem Block.midplaneNodeConfig_eq (h : (p, m) ∈ block.midplanes) :
    block.midplaneNodeConfig p = some m := by
  have hfind : block.midplanes.find? (fun m => m.1 = p) = some (p, m) :=
    find?_eq_of_unique h (eq_of_nodup_map block.positions h)
  rw [midplaneNodeConfig, hfind, Option.map_some]

theorem Block.findByName_eq [DecidableEq ν] (h : (p, m) ∈ block.midplanes) :
    block.findByName m.posInMachine = some (p, m) :=
  find?_eq_of_unique h (eq_of_nodup_map block.names h)

theorem maxNode_pos (d : Dim) : 0 < maxNode d := by
  revert d
  decide

theorem withinMidplane_last (v : Coord) : Job.withinMidplane v (last 4) = v (last 4) :=
  if_pos rfl

theorem withinMidplane_castSucc (v : Coord) (d : Fin 4) :
    Job.withinMidplane v d.castSucc = v d.castSucc % maxNode d.castSucc :=
  if_neg (castSucc_ne_last d)

theorem withinMidplane_lt (hd : d ≠ 4) : Job.withinMidplane v d < maxNode d := by
  rw [Job.withinMidplane, if_neg hd]
  exact mod_lt _ (maxNode_pos d)

theorem withinMidplane_eq (hv : ∀ d, v d < maxNode d) : Job.withinMidplane v = v := by
  funext d
  rw [Job.withinMidplane]
  split
  · rfl
  · exact mod_eq_of_lt (hv d)

theorem midplanePos_eq_zero (hv : ∀ d, v d < maxNode d) : Job.midplanePos v = 0 := by
  funext d
  exact div_eq_of_lt (hv d.castSucc)

theorem blockCoordinates_eq_iff {w : Coord} (hw : ∀ d, w d < maxNode d) :
    Job.blockCoordinates p w = v ↔ Job.midplanePos v = p ∧ Job.withinMidplane v = w := by
  rw [Job.blockCoordinates]
  constructor
  · rintro rfl
    constructor
    · funext d
      rw [Job.midplanePos, snoc_castSucc, add_mul_div_right _ _ (maxNode_pos _),
        div_eq_of_lt (hw _), Nat.zero_add]
    · funext d
      refine lastCases ?_ ?_ d
      · rw [withinMidplane_last, snoc_last]
        rfl
      · intro d
        rw [withinMidplane_castSucc, snoc_castSucc, add_mul_mod_self_right,
          mod_eq_of_lt (hw _)]
  · rintro ⟨rfl, rfl⟩
    funext d
    refine lastCases ?_ ?_ d
    · rw [snoc_last]
      exact withinMidplane_last v
    · intro d
      rw [snoc_castSucc, withinMidplane_castSucc, Job.midplanePos, mod_add_div']

theorem Block.exists_midplane (hv : ∀ d, v d < block.shape d) :
    ∃ m, (Job.midplanePos v, m) ∈ block.midplanes ∧
      ∀ d, Job.withinMidplane v d < m.nodesShape d := by
  rcases block.layout with ⟨m, hm, -, hshape, -⟩ | ⟨hfull, counts, -, hcounts, hshape, hlast⟩
  · rw [hshape, ← m.nodesShape_eq] at hv
    have hlt := MidplaneConfig.coord_lt hv
    rw [midplanePos_eq_zero hlt, withinMidplane_eq hlt, hm]
    exact ⟨m, mem_singleton.mpr rfl, hv⟩
  · have hpos : Job.midplanePos v ∈ block.midplanes.map Prod.fst := by
      rw [hcounts]
      intro d
      have hd := hv d.castSucc
      rw [hshape d] at hd
      exact Nat.div_lt_of_lt_mul (by rwa [Nat.mul_comm])
    obtain ⟨⟨p, m⟩, hm, hp⟩ := mem_map.mp hpos
    refine ⟨m, hp ▸ hm, ?_⟩
    intro d
    rw [MidplaneConfig.nodesShape, if_pos (hfull _ hm)]
    rcases eq_or_ne d 4 with rfl | hd
    · rw [Job.withinMidplane, if_pos rfl, ← hlast]
      exact hv 4
    · exact withinMidplane_lt hd

theorem Block.exists_first (block : Block T ν) : ∃ m, (0, m) ∈ block.midplanes := by
  rcases block.layout with ⟨m, hm, -⟩ | ⟨-, counts, hpos, hcounts, -⟩
  · exact ⟨m, hm ▸ mem_singleton.mpr rfl⟩
  · have hzero : (0 : Pos) ∈ block.midplanes.map Prod.fst := (hcounts 0).mpr hpos
    obtain ⟨⟨p, m⟩, hm, hp⟩ := mem_map.mp hzero
    exact ⟨m, hp ▸ hm⟩

theorem mem_coordsBelow {size : Coord} : v ∈ Job.coordsBelow size ↔ ∀ d, v d < size d := by
  simp only [Job.coordsBelow, mem_nested (R := fun d => range (size d)), mem_range]

end Blocks

section SmallOffset

variable {α : Type*} {f : α → Coord} {l : List α} {init low : Coord}

/-- The least coordinates that a loop has met. -/
def least (f : α → Coord) (l : List α) (init : Coord) : Coord :=
  l.foldl (fun offset i d => if f i d < offset d then f i d else offset d) init

theorem least_cons (x : α) : least f (x :: l) init =
    least f l fun d => if f x d < init d then f x d else init d := rfl

theorem least_le_init (d : Dim) : least f l init d ≤ init d := by
  induction l generalizing init with
  | nil => exact Nat.le_refl _
  | cons x xs ih =>
    rw [least_cons]
    refine Nat.le_trans ih ?_
    split
    next hlt =>
      exact Nat.le_of_lt hlt
    · exact Nat.le_refl _

theorem least_le {x : α} (hx : x ∈ l) (d : Dim) : least f l init d ≤ f x d := by
  induction l generalizing init with
  | nil => cases hx
  | cons y ys ih =>
    rw [least_cons]
    rcases mem_cons.mp hx with rfl | hx
    · refine Nat.le_trans (least_le_init d) ?_
      split
      · exact Nat.le_refl _
      next hlt =>
        exact Nat.le_of_not_lt hlt
    · exact ih hx

theorem le_least (hinit : low d ≤ init d) (hl : ∀ x ∈ l, low d ≤ f x d) :
    low d ≤ least f l init d := by
  induction l generalizing init with
  | nil => exact hinit
  | cons x xs ih =>
    rw [least_cons]
    refine ih ?_ fun y hy => hl y (mem_cons_of_mem x hy)
    split
    · exact hl x (mem_cons_self ..)
    · exact hinit

end SmallOffset

section Jobs

variable {T : Topology} {ν : Type*} {job : Job T ν} {m : MidplaneConfig T ν} {p : Pos} {v : Coord}

theorem foldl_least (boards : List Board) (init : Coord) : boards.foldl (fun offset b =>
        least (fun c => T.abcdeGlobalMap (b, c)) (finRange 32) offset) init =
      least T.abcdeGlobalMap (boards.flatMap fun b => (finRange 32).map fun c => (b, c))
        init := by
  induction boards generalizing init with
  | nil => rfl
  | cons b bs ih =>
    rw [foldl_cons, ih, flatMap_cons, least, least, least, foldl_append, foldl_map]

theorem MidplaneConfig.origin_lt (m : MidplaneConfig T ν) (d : Dim) :
    m.partialMidplaneOrigin d < maxNode d := by
  have hlt := MidplaneConfig.lt_maxNode (m := m) (v := 0)
    (fun d => m.nodesShape_eq ▸ m.pos d) d
  rwa [Pi.zero_apply, Nat.zero_add] at hlt

theorem least_computes (m : MidplaneConfig T ν) :
    least T.abcdeGlobalMap m.computes maxNode = m.partialMidplaneOrigin := by
  have hzero : ∀ d, (0 : Coord) d < m.nodesShape d := fun d => m.nodesShape_eq ▸ m.pos d
  have hmem := MidplaneConfig.mem_boards hzero
  have hright := T.right_inv _ (MidplaneConfig.lt_maxNode hzero)
  funext d
  apply Nat.le_antisymm
  · calc least T.abcdeGlobalMap m.computes maxNode d
        ≤ T.abcdeGlobalMap (T.nodeCardnodeJtagFromABCDE fun d =>
            (0 : Coord) d + m.partialMidplaneOrigin d) d :=
          least_le (MidplaneConfig.mem_computes.mpr hmem) d
      _ = m.partialMidplaneOrigin d := by
          rw [hright]
          exact Nat.zero_add _
  · apply le_least (Nat.le_of_lt (m.origin_lt d))
    intro n hn
    exact MidplaneConfig.origin_le (MidplaneConfig.mem_computes.mp hn) d

theorem Job.smallOffset_eq (hm : job.block.midplanes = [(p, m)]) :
    job.smallOffset = m.partialMidplaneOrigin := by
  have hrows : job.smallRows = m.boards.map fun b => (m.posInMachine, b) := by
    rw [smallRows, hm, flatMap_singleton]
  rw [smallOffset, hrows, foldl_map, ← least_computes m]
  exact foldl_least m.boards maxNode

theorem Job.small_eq_false {counts : Pos} (hpos : ∀ d, 0 < counts d)
    (hshape : ∀ d : Fin 4, job.block.shape d.castSucc = counts d * maxNode d.castSucc)
    (hlast : job.block.shape 4 = maxNode 4) : job.small = false := by
  have hmax : ∀ d, maxNode d ≤ job.block.shape d := by
    intro d
    refine lastCases (Nat.le_of_eq hlast.symm) ?_ d
    intro d
    rw [hshape d]
    exact Nat.le_mul_of_pos_left _ (hpos d)
  have hle := Nat.mul_le_mul (Nat.mul_le_mul (Nat.mul_le_mul (Nat.mul_le_mul (hmax 0) (hmax 1))
    (hmax 2)) (hmax 3)) (hmax 4)
  rw [small, decide_eq_false_iff_not, Nat.not_lt]
  exact hle

theorem Job.offset_eq (h : (p, m) ∈ job.block.midplanes) :
    job.offset = m.partialMidplaneOrigin := by
  rw [offset]
  rcases job.block.layout with ⟨m', hm, -, -, hlt⟩ | ⟨hfull, counts, hpos, -, hshape, hlast⟩
  · rw [hm] at h
    cases mem_singleton.mp h
    have hsmall : job.small = true := decide_eq_true hlt
    rw [if_pos hsmall, Job.smallOffset_eq hm]
  · rw [Job.small_eq_false hpos hshape hlast, (m.full (hfull _ h)).1]
    rfl

theorem Job.findCorner_eq (job : Job T ν) : job.findCorner = job.cornerCoordinates := by
  rw [findCorner, cornerCoordinates]
  cases job.subBlock with
  | none => rfl
  | some sub => rw [Job.offset_eq sub.mem]

theorem Job.locateMidplane_eq (h : (midplanePos v, m) ∈ job.block.midplanes) :
    job.locateMidplane v = some m.posInMachine := by
  rw [locateMidplane]
  rcases job.block.layout with ⟨m', hm, -, -, hlt⟩ | ⟨hfull, counts, hpos, -, hshape, hlast⟩
  · have hsmall : job.small = true := decide_eq_true hlt
    have hzero : ∀ d, (0 : Coord) d < m'.nodesShape d := fun d => m'.nodesShape_eq ▸ m'.pos d
    have hmem := MidplaneConfig.mem_boards hzero
    rw [hm] at h
    obtain ⟨-, rfl⟩ := Prod.mk.inj (mem_singleton.mp h)
    rw [if_pos hsmall, smallRows, hm, flatMap_singleton]
    cases hboards : m.boards with
    | nil =>
      rw [hboards] at hmem
      cases hmem
    | cons b bs => rfl
  · have hfind : job.block.midplanes.find? (fun m => m.1 = midplanePos v) =
        some (midplanePos v, m) :=
      find?_eq_of_unique h (eq_of_nodup_map job.block.positions h)
    rw [Job.small_eq_false hpos hshape hlast, hfind]
    rfl

end Jobs

end BgqDriver.RankLocation
