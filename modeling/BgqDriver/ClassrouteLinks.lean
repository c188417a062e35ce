import Mathlib.Tactic

/-!
Node coordinates, rectangles and the link bits of a class route, as in
`Classroute.h`, `default/Classroute_impl.h` and `hwi/include/bqc/classroute.h`.
-/

namespace BgqDriver.ClassrouteLinks

open Function

/-- The torus axes `CR_AXIS_A` to `CR_AXIS_E`; there are `CR_NUM_DIMS` of them. -/
abbrev Dim := Fin 5

scoped instance neZeroFive : NeZero 5 := ⟨by decide⟩

/-- The directions `CR_SIGN_POS` and `CR_SIGN_NEG`. -/
inductive Sign where
  | pos
  | neg
  deriving DecidableEq, Repr

instance : Fintype Sign where
  elems := {.pos, .neg}
  complete s := by cases s <;> simp

def Sign.flip : Sign → Sign
  | .pos => .neg
  | .neg => .pos

@[simp] theorem Sign.flip_flip (s : Sign) : s.flip.flip = s := by cases s <;> rfl

/-- `CR_COORD_T`. The class route code compares coordinates and moves them by one
inside a rectangle, so the natural numbers include every `uint32_t` run. -/
abbrev Coord := Dim → Nat

/-- `CR_RECT_T`: the lower-left and the upper-right corner, both inclusive. -/
structure Rect where
  ll : Coord
  ur : Coord
  deriving DecidableEq

/-- The nodes between the two corners -/
def Rect.nodes (r : Rect) : Set Coord := Set.Icc r.ll r.ur

variable {v : Coord} {d : Dim} {s : Sign} {r : Rect} {u : Coord}

theorem Rect.mem_nodes_iff : v ∈ r.nodes ↔ ∀ d, r.ll d ≤ v d ∧ v d ≤ r.ur d := by
  exact forall_and.symm

/-- The coordinates that five nested loops run over -/
theorem mem_nested {R : Dim → List Nat} : v ∈ ((R 0).flatMap fun a =>
      (R 1).flatMap fun b => (R 2).flatMap fun c => (R 3).flatMap fun d =>
        (R 4).map fun e => ![a, b, c, d, e]) ↔ ∀ d, v d ∈ R d := by
  simp only [List.mem_flatMap, List.mem_map]
  constructor
  · rintro ⟨a, ha, b, hb, c, hc, d, hd, e, he, rfl⟩ i
    fin_cases i
    · exact ha
    · exact hb
    · exact hc
    · exact hd
    · exact he
  · intro h
    refine ⟨v 0, h 0, v 1, h 1, v 2, h 2, v 3, h 3, v 4, h 4, ?_⟩
    funext i
    fin_cases i <;> rfl

instance (r : Rect) (v : Coord) : Decidable (v ∈ r.nodes) :=
  decidable_of_iff _ Rect.mem_nodes_iff.symm

/-- The node of the rectangle that is nearest to `v` -/
def Rect.clamp (r : Rect) (v : Coord) : Coord := fun d => max (r.ll d) (min (v d) (r.ur d))

theorem Rect.clamp_mem (hr : r.nodes.Nonempty) (v : Coord) : r.clamp v ∈ r.nodes := by
  obtain ⟨w, hw⟩ := hr
  rw [mem_nodes_iff] at hw ⊢
  intro d
  have := hw d
  simp only [clamp]
  omega

def neighbour (v : Coord) (d : Dim) : Sign → Coord
  | .pos => update v d (v d + 1)
  | .neg => update v d (v d - 1)

def IsNeighbour (v : Coord) (d : Dim) : Sign → Coord → Prop
  | .pos, u => u = update v d (v d + 1)
  | .neg, u => v = update u d (u d + 1)

theorem IsNeighbour.flip (h : IsNeighbour v d s u) : IsNeighbour u d s.flip v := by
  cases s <;> exact h

theorem IsNeighbour.eq_neighbour (h : IsNeighbour v d s u) : u = neighbour v d s := by
  cases s with
  | pos => exact h
  | neg =>
    have hv : v = update u d (u d + 1) := h
    subst hv
    simp [neighbour]

theorem isNeighbour_neighbour (h : s = .neg → 0 < v d) : IsNeighbour v d s (neighbour v d s) := by
  cases s with
  | pos => rfl
  | neg =>
    have hpos := h rfl
    have hsucc : v d - 1 + 1 = v d := by omega
    simp [IsNeighbour, neighbour, hsucc]

/-- `cr_links`, the bit masks `BGQ_CLASS_LINK_AP` to `BGQ_CLASS_LINK_EM`. -/
def crLink : Dim → Sign → BitVec 16
  | 0, .pos => 1#16 <<< 10
  | 0, .neg => 1#16 <<< 11
  | 1, .pos => 1#16 <<< 8
  | 1, .neg => 1#16 <<< 9
  | 2, .pos => 1#16 <<< 6
  | 2, .neg => 1#16 <<< 7
  | 3, .pos => 1#16 <<< 4
  | 3, .neg => 1#16 <<< 5
  | 4, .pos => 1#16 <<< 2
  | 4, .neg => 1#16 <<< 3

/-- `BGQ_CLASS_INPUT_LINK_LOCAL`. -/
def inputLinkLocal : BitVec 16 := 1#16 <<< 0

/-- `ClassRoute_t`: the down-tree inputs and the up-tree output of a node. -/
structure ClassRoute where
  input : BitVec 16
  output : BitVec 16
  deriving DecidableEq

/-- The test `mask & CR_LINK(d, s)`. -/
def HasLink (mask : BitVec 16) (d : Dim) (s : Sign) : Prop := mask &&& crLink d s ≠ 0#16

instance (mask : BitVec 16) (d : Dim) (s : Sign) : Decidable (HasLink mask d s) :=
  inferInstanceAs (Decidable (_ ≠ _))

/-- The test `mask & BGQ_CLASS_INPUT_LINK_LOCAL`. -/
def HasLocal (mask : BitVec 16) : Prop := mask &&& inputLinkLocal ≠ 0#16

instance (mask : BitVec 16) : Decidable (HasLocal mask) :=
  inferInstanceAs (Decidable (_ ≠ _))

theorem or_and_ne_zero_iff (a b m : BitVec 16) :
    (a ||| b) &&& m ≠ 0#16 ↔ a &&& m ≠ 0#16 ∨ b &&& m ≠ 0#16 := by
  rw [BitVec.and_comm, BitVec.and_or_distrib_left, BitVec.and_comm m a, BitVec.and_comm m b,
    Ne, BitVec.or_eq_zero_iff]
  tauto

@[simp] theorem not_hasLink_zero (d : Dim) (s : Sign) : ¬ HasLink 0#16 d s := by
  simp [HasLink]

theorem crLink_ne_zero (d : Dim) (s : Sign) : crLink d s ≠ 0#16 := by
  revert d s
  decide

@[simp]
theorem hasLink_crLink (d d' : Dim) (s s' : Sign) :
    HasLink (crLink d s) d' s' ↔ d' = d ∧ s' = s := by
  revert d d' s s'
  decide

@[simp]
theorem not_hasLink_inputLinkLocal (d : Dim) (s : Sign) : ¬ HasLink inputLinkLocal d s := by
  revert d s
  decide

@[simp] theorem hasLocal_inputLinkLocal : HasLocal inputLinkLocal := by decide

@[simp]
theorem hasLink_or (a b : BitVec 16) (d : Dim) (s : Sign) :
    HasLink (a ||| b) d s ↔ HasLink a d s ∨ HasLink b d s :=
  or_and_ne_zero_iff a b _

@[simp]
theorem hasLocal_or (a b : BitVec 16) : HasLocal (a ||| b) ↔ HasLocal a ∨ HasLocal b :=
  or_and_ne_zero_iff a b _

theorem hasLink_and_not_crLink (mask : BitVec 16) (d d' : Dim) (s s' : Sign) :
    HasLink (mask &&& ~~~ crLink d s) d' s' ↔ HasLink mask d' s' ∧ ¬ (d' = d ∧ s' = s) := by
  have hbit : ~~~ crLink d s &&& crLink d' s' =
      if d' = d ∧ s' = s then 0#16 else crLink d' s' := by
    revert d d' s s'
    decide
  rw [HasLink, BitVec.and_assoc, hbit]
  by_cases h : d' = d ∧ s' = s
  · simp [h]
  · rw [if_neg h]
    exact (and_iff_left h).symm

end BgqDriver.ClassrouteLinks
