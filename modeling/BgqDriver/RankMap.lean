import Mathlib.Data.List.GetD
import BgqDriver.ClassrouteLinks

/-!
The coordinates of the ranks of a job, as `RankMap.h` computes them for a mapping that is
a permutation of `ABCDET`.
-/

namespace BgqDriver.RankMap

open Function List Nat
open ClassrouteLinks

/-- The torus axes and the place within a node; there are `NUMDIMENSION` of them. -/
abbrev MapDim := Fin 6

local instance neZeroSix : NeZero 6 := ⟨by decide⟩

def letterDim : Char → Option MapDim
  | 'A' => some 0
  | 'B' => some 1
  | 'C' => some 2
  | 'D' => some 3
  | 'E' => some 4
  | 'T' => some 5
  | _ => none

def dimLetter (y : MapDim) : Char := ['A', 'B', 'C', 'D', 'E', 'T'].get y

def isspace (c : Char) : Bool := c ∈ [' ', '\t', '\n', '\x0b', '\x0c', '\r']

/-- The first loop of `MUSPI_PreCalculateMapOffsets`: the axes of the letters, the last one
first, if no axis is met twice. A short string ends in a character that is no letter. -/
def lettersLoop : Nat → List Char → List MapDim → Option (List MapDim)
  | 0, _, seen => some seen
  | n + 1, cs, seen =>
    (letterDim (cs.headD '\x00')).bind fun y =>
      if y ∈ seen then none else lettersLoop n cs.tail (y :: seen)

/-- The second loop, from the last letter to the first. -/
def offsetsLoop (dimsize : MapDim → Nat) : List MapDim → Nat → (MapDim → Nat) → (MapDim → Nat)
  | [], _, dimoffset => dimoffset
  | y :: ys, lastmultiplier, dimoffset =>
    offsetsLoop dimsize ys (lastmultiplier * dimsize y % 2 ^ 32)
      (update dimoffset y lastmultiplier)

/-- `MUSPI_PreCalculateMapOffsets`; `none` where the string is not a mapping. -/
def preCalculateMapOffsets (mapFilename : List Char) (dimsize : MapDim → Nat) :
    Option (MapDim → Nat) :=
  if 6 ≤ mapFilename.length ∧ isspace (mapFilename.getD 6 '\x00') = false ∧
      mapFilename.getD 6 '\x00' ≠ '\x00' then none
  else (lettersLoop 6 mapFilename []).map fun dims => offsetsLoop dimsize dims 1 fun _ => 0

/-- `BG_CoordinateMapping_t` with its field widths. -/
structure MapCoord where
  node : Coord
  t : Nat

def width (d : Dim) : Nat := if d = 4 then 1 else 6

def toMapCoord (coord : MapDim → Nat) : MapCoord where
  node := fun d => coord d.castSucc % 2 ^ width d
  t := coord 5 % 2 ^ 6

/-- Whether the coordinates are accepted: their number in the job is below its size. -/
def inJob (dimsize coord : MapDim → Nat) : Bool :=
  decide ((finRange 6).foldl (fun n y => (n * dimsize y + coord y) % 2 ^ 64) 0 <
    (finRange 6).foldl (fun n y => n * dimsize y % 2 ^ 32) 1)

def calculatedCoord (dimoffset dimsize : MapDim → Nat) (x : Nat) : MapDim → Nat :=
  fun y => x / dimoffset y % dimsize y

/-- `MUSPI_GenerateCoordinates` for a calculated map. The division traps for an offset or a
size of zero. -/
def generateCoordinates (mapFilename : List Char) (dimsize : MapDim → Nat) (np : Nat) :
    Option (List MapCoord) :=
  (preCalculateMapOffsets mapFilename dimsize).bind fun dimoffset =>
    if (range np).all fun x =>
        (finRange 6).all (fun y => decide (dimoffset y ≠ 0 ∧ dimsize y ≠ 0)) &&
          inJob dimsize (calculatedCoord dimoffset dimsize x) then
      some ((range np).map fun x => toMapCoord (calculatedCoord dimoffset dimsize x))
    else none

variable {dimsize : MapDim → Nat} {dims seen : List MapDim} {n last np : Nat}
  {dimoffset coord : MapDim → Nat}

section Letters

@[simp]
theorem letterDim_dimLetter (y : MapDim) : letterDim (dimLetter y) = some y := by
  revert y
  decide

theorem lettersLoop_eq (hlength : dims.length = n) (hnodup : (dims.reverse ++ seen).Nodup) :
    lettersLoop n (dims.map dimLetter) seen = some (dims.reverse ++ seen) := by
  induction dims generalizing n seen with
  | nil =>
    obtain rfl : 0 = n := hlength
    rfl
  | cons y ys ih =>
    obtain ⟨n, rfl⟩ : ∃ m, n = m + 1 := ⟨ys.length, hlength.symm⟩
    rw [reverse_cons, append_assoc, singleton_append] at hnodup ⊢
    have hnew : y ∉ seen := by
      have htail := (nodup_append.mp hnodup).2.1
      exact (nodup_cons.mp htail).1
    rw [lettersLoop]
    simp only [map_cons, headD_cons, letterDim_dimLetter, Option.bind_some, if_neg hnew, tail_cons]
    exact ih (succ.inj hlength) hnodup

theorem prod_sizes_pos (hpos : ∀ y ∈ dims, dimsize y ≠ 0) : 0 < (dims.map dimsize).prod := by
  apply prod_pos
  intro a ha
  obtain ⟨y, hy, rfl⟩ := mem_map.mp ha
  exact Nat.pos_of_ne_zero (hpos y hy)

theorem offsetsLoop_of_not_mem {y : MapDim} (hy : y ∉ dims) :
    offsetsLoop dimsize dims last dimoffset y = dimoffset y := by
  induction dims generalizing last dimoffset with
  | nil => rfl
  | cons z zs ih =>
    rw [mem_cons, not_or] at hy
    rw [offsetsLoop, ih hy.2, update_of_ne hy.1]

theorem offsetsLoop_ne_zero (hnodup : dims.Nodup) (hlast : last ≠ 0)
    (hpos : ∀ y ∈ dims, dimsize y ≠ 0) (hlt : last * (dims.map dimsize).prod < 2 ^ 32) :
    ∀ y ∈ dims, offsetsLoop dimsize dims last dimoffset y ≠ 0 := by
  induction dims generalizing last dimoffset with
  | nil =>
    intro y hy
    cases hy
  | cons z zs ih =>
    rw [map_cons, prod_cons, ← Nat.mul_assoc] at hlt
    obtain ⟨hz, hnodup⟩ := nodup_cons.mp hnodup
    have hprod := prod_sizes_pos fun y hy => hpos y (mem_cons_of_mem z hy)
    have hword : last * dimsize z % 2 ^ 32 = last * dimsize z :=
      mod_eq_of_lt (Nat.lt_of_le_of_lt (Nat.le_mul_of_pos_right _ hprod) hlt)
    intro y hy
    rw [offsetsLoop, hword]
    rcases mem_cons.mp hy with rfl | hy
    · rw [offsetsLoop_of_not_mem hz, update_self]
      exact hlast
    · exact ih hnodup (Nat.mul_ne_zero hlast (hpos z (mem_cons_self ..)))
        (fun y hy => hpos y (mem_cons_of_mem z hy)) hlt y hy

end Letters

section Sizes

theorem foldl_size (ys : List MapDim) (hlt : last * (ys.map dimsize).prod < 2 ^ 32)
    (hpos : ∀ y, dimsize y ≠ 0) :
    ys.foldl (fun n y => n * dimsize y % 2 ^ 32) last = last * (ys.map dimsize).prod := by
  induction ys generalizing last with
  | nil =>
    rw [map_nil, prod_nil, Nat.mul_one]
    rfl
  | cons y ys ih =>
    rw [map_cons, prod_cons, ← Nat.mul_assoc] at hlt ⊢
    have hprod : 0 < (ys.map dimsize).prod := prod_sizes_pos fun y _ => hpos y
    rw [foldl_cons, mod_eq_of_lt (Nat.lt_of_le_of_lt (Nat.le_mul_of_pos_right _ hprod) hlt)]
    exact ih hlt

theorem foldl_offset (ys : List MapDim) {k : Nat} (hcoord : ∀ y, coord y < dimsize y)
    (hk : k < last) :
    ys.foldl (fun n y => (n * dimsize y + coord y) % 2 ^ 64) k < last * (ys.map dimsize).prod := by
  induction ys generalizing k last with
  | nil =>
    rw [map_nil, prod_nil, Nat.mul_one]
    exact hk
  | cons y ys ih =>
    rw [map_cons, prod_cons, ← Nat.mul_assoc]
    have hnext : (k * dimsize y + coord y) % 2 ^ 64 < last * dimsize y := by
      calc (k * dimsize y + coord y) % 2 ^ 64 ≤ k * dimsize y + coord y := mod_le _ _
        _ < k * dimsize y + dimsize y := Nat.add_lt_add_left (hcoord y) _
        _ = (k + 1) * dimsize y := (succ_mul _ _).symm
        _ ≤ last * dimsize y := Nat.mul_le_mul_right _ hk
    exact ih hnext

end Sizes

theorem generateCoordinates_isSome {order : List MapDim} (horder : order.Perm (finRange 6))
    (hpos : ∀ y, dimsize y ≠ 0) (hlt : ((finRange 6).map dimsize).prod < 2 ^ 32) (np : Nat) :
    ∃ map, generateCoordinates (order.map dimLetter) dimsize np = some map := by
  have hlength : order.length = 6 := by
    rw [horder.length_eq, length_finRange]
  have hnodup : order.reverse.Nodup := by
    rw [nodup_reverse]
    exact horder.nodup_iff.mpr (nodup_finRange 6)
  have hletters : lettersLoop 6 (order.map dimLetter) [] = some order.reverse := by
    rw [lettersLoop_eq hlength (by rwa [append_nil]), append_nil]
  have hprod : 1 * (order.reverse.map dimsize).prod < 2 ^ 32 := by
    have hperm : (order.reverse.map dimsize).Perm ((finRange 6).map dimsize) :=
      ((reverse_perm order).trans horder).map dimsize
    rwa [Nat.one_mul, hperm.prod_eq]
  have hoffset : ∀ y, offsetsLoop dimsize order.reverse 1 (fun _ => 0) y ≠ 0 := by
    intro y
    apply offsetsLoop_ne_zero hnodup Nat.one_ne_zero (fun y _ => hpos y) hprod
    rw [mem_reverse, horder.mem_iff]
    exact mem_finRange y
  rw [generateCoordinates, preCalculateMapOffsets, if_neg, hletters, Option.map_some,
    Option.bind_some, if_pos]
  · exact ⟨_, rfl⟩
  · rw [all_eq_true]
    intro x _
    rw [Bool.and_eq_true]
    constructor
    · rw [all_eq_true]
      intro y _
      rw [decide_eq_true_eq]
      exact ⟨hoffset y, hpos y⟩
    · rw [← Nat.one_mul (prod _)] at hlt
      rw [inJob, decide_eq_true_eq, foldl_size _ hlt hpos]
      exact foldl_offset _ (fun y => mod_lt _ (Nat.pos_of_ne_zero (hpos y))) Nat.one_pos
  · -- The string ends behind the sixth letter.
    rintro ⟨-, -, hend⟩
    apply hend
    rw [getD_eq_default]
    rw [length_map, hlength]

theorem generateCoordinates_spec {mapFilename : List Char} {map : List MapCoord}
    (h : generateCoordinates mapFilename dimsize np = some map) :
    map.length = np ∧ ∀ v ∈ map, (∀ d : Dim, v.node d < dimsize d.castSucc) ∧
      ∀ d, v.node d < 64 := by
  obtain ⟨dimoffset, -, h⟩ := Option.bind_eq_some_iff.mp h
  split_ifs at h with hall
  cases h
  refine ⟨by rw [length_map, length_range], ?_⟩
  intro v hv
  obtain ⟨x, hx, rfl⟩ := mem_map.mp hv
  have hok := all_eq_true.mp hall x hx
  rw [Bool.and_eq_true, all_eq_true] at hok
  constructor
  · intro d
    have hsize := hok.1 d.castSucc (mem_finRange _)
    rw [decide_eq_true_eq] at hsize
    calc calculatedCoord dimoffset dimsize x d.castSucc % 2 ^ width d
        ≤ calculatedCoord dimoffset dimsize x d.castSucc := mod_le _ _
      _ < dimsize d.castSucc := mod_lt _ (Nat.pos_of_ne_zero hsize.2)
  · intro d
    have hwidth : 2 ^ width d ≤ 64 := by
      revert d
      decide
    exact Nat.lt_of_lt_of_le (mod_lt _ (Nat.two_pow_pos _)) hwidth

end BgqDriver.RankMap
