import BgqDriver.EventRuns
import BgqDriver.ClassrouteLinks

/-!
Class route ids. Every node keeps a table of the ids in use there; a communicator
asks all nodes of its rectangle for the ids they could use, picks the lowest common
one, and then every node of the rectangle sets it.
-/

namespace BgqDriver.ClassrouteIds

open EventRuns List Option Function
open ClassrouteLinks

/-- There are `BGQ_COLL_CLASS_MAX_CLASSROUTES` ids. -/
abbrev Id := Fin 16

/-- The virtual channels `BGQ_CLASS_INPUT_VC_USER`, `_SYSTEM` and `_SUBCOMM`. -/
inductive Vc where
  | user
  | system
  | subcomm
  deriving DecidableEq

def Vc.bits : Vc → BitVec 16
  | .user => 0#16 <<< 12
  | .system => 1#16 <<< 12
  | .subcomm => 2#16 <<< 12

/-- `BGQ_CLASS_INPUT_VC_MASK`. -/
def inputVcMask : BitVec 16 := 3#16 <<< 12

/-- `struct cr_allocation` without its list pointer. -/
structure Alloc where
  rect : Rect
  classid : Id
  classroute : ClassRoute
  deriving DecidableEq

/-- What the last `cr_peer` of a list is: `NULL` or `CR_SYSTEM_ID`. -/
inductive Tail where
  | null
  | system
  deriving DecidableEq

/-- `cr_alloc[id]`, the list it points to. -/
structure Entry where
  allocs : List Alloc
  tail : Tail
  deriving DecidableEq

/-- The pointer `NULL`. -/
def null : Entry := ⟨[], .null⟩

/-- The pointer `CR_SYSTEM_ID`. -/
def systemId : Entry := ⟨[], .system⟩

/-- `struct cr_env`; its flag `isGI` decides nothing. -/
abbrev Env := Id → Entry

/-- `MUSPI_InitClassrouteIds` on an existing environment. -/
def initClassrouteIds (freeIds : List Id) (env : Env) : Env :=
  if freeIds = [] then env
  else
    let env : Env := fun x => if env x = null then systemId else env x
    freeIds.foldl
      (fun env x => if env x = systemId then update env x null else env) env

/-- One dimension of `__MUSPI_rect_compare`: `n` counts the identical ones, `o` the
overlapping ones. -/
def compareDim (rect1 rect2 : Rect) (counts : Nat × Nat) (d : Dim) : Nat × Nat :=
  if rect1.ll d = rect2.ll d ∧ rect1.ur d = rect2.ur d then (counts.1 + 1, counts.2 + 1)
  else if rect1.ur d ≥ rect2.ll d ∧ rect1.ll d ≤ rect2.ur d then (counts.1, counts.2 + 1)
  else counts

/-- `__MUSPI_rect_compare`. -/
def rectCompare (rect1 rect2 : Rect) : Int :=
  let counts := (finRange 5).foldl (compareDim rect1 rect2) (0, 0)
  if counts.1 = 5 then 0 else if counts.2 = 5 then -1 else 1

/-- `CR_MATCH_RECT_FLAG`. -/
def matchRectFlag : BitVec 32 := 0x80000000#32

/-- The loop of `MUSPI_GetClassrouteIds`. -/
def getLoop (vc : Vc) (subcomm : Rect) (env : Env) : List Id → BitVec 32 → BitVec 32
  | [], free => free
  | x :: rest, free =>
    match env x with
    | ⟨[], .null⟩ => getLoop vc subcomm env rest (free ||| 1#32 <<< x.val)
    | ⟨[], .system⟩ => getLoop vc subcomm env rest free
    | ⟨crp :: _, _⟩ =>
      if crp.classroute.input &&& inputVcMask ≠ vc.bits then
        getLoop vc subcomm env rest free
      else if rectCompare crp.rect subcomm = 0 then matchRectFlag ||| 1#32 <<< x.val
      else getLoop vc subcomm env rest free

/-- `MUSPI_GetClassrouteIds`. -/
def getClassrouteIds (vc : Vc) (subcomm : Rect) (env : Env) : BitVec 32 :=
  getLoop vc subcomm env (finRange 16) 0#32

/-- The allocation `MUSPI_SetClassrouteId` fills in. -/
def newAlloc (id : Id) (vc : Vc) (subcomm : Rect) : Alloc where
  rect := subcomm
  classid := id
  classroute := ⟨(0#16 &&& ~~~ inputVcMask) ||| vc.bits, 0#16⟩

/-- `MUSPI_SetClassrouteId`; 1 means that the class route has to be programmed. -/
def setClassrouteId (id : Id) (vc : Vc) (subcomm : Rect) (env : Env) : Env × Nat :=
  let crp := env id
  (update env id ⟨newAlloc id vc subcomm :: crp.allocs, crp.tail⟩,
    if crp = null then 1 else 0)

/-- `MUSPI_ReleaseClassrouteId`; it reads through the pointer it finds, so there has
to be an allocation. -/
def releaseClassrouteId (id : Id) (env : Env) : Option (Env × Nat) :=
  match env id with
  | ⟨[], _⟩ => none
  | ⟨_ :: rest, tail⟩ =>
    let crp : Entry := ⟨rest, tail⟩
    some (update env id crp, if crp = null then 1 else 0)

/-- A node: its table, the communicators it has asked for and not set yet, with the
bitmaps it returned, and the communicators that use an id here. -/
structure Node where
  env : Env
  asked : List (Nat × BitVec 32)
  live : List (Nat × Id)

/-- All nodes, and what each communicator has agreed on: nothing yet, no common id,
or an id. -/
structure Machine where
  nodes : Coord → Node
  choice : Nat → Option (Option Id)

open Machine

def Machine.setNode (s : Machine) (n : Coord) (node : Node) : Machine :=
  { s with nodes := update s.nodes n node }

def axis (r : Rect) (d : Dim) : List Nat := List.range' (r.ll d) (r.ur d + 1 - r.ll d)

def members (r : Rect) : List Coord :=
  (axis r 0).flatMap fun a => (axis r 1).flatMap fun b => (axis r 2).flatMap fun c =>
    (axis r 3).flatMap fun d => (axis r 4).map fun e => ![a, b, c, d, e]

/-- An initialisation or a call on node `n`, or the choice of an id for communicator `c` -/
inductive Event where
  | init (n : Coord) (freeIds : List Id)
  | get (c : Nat) (n : Coord)
  | choose (c : Nat)
  | set (c : Nat) (n : Coord)
  | release (c : Nat) (n : Coord)

section Protocol

variable (comm : Nat → Rect × Vc)

def Asked (s : Machine) (c : Nat) (n : Coord) : Prop := ∃ p ∈ (s.nodes n).asked, p.1 = c

instance (s : Machine) (c : Nat) (n : Coord) : Decidable (Asked s c n) :=
  inferInstanceAs (Decidable (∃ p ∈ (s.nodes n).asked, p.1 = c))

def commonId (s : Machine) (c : Nat) : Option Id :=
  (finRange 16).find? fun i => decide (∀ n ∈ members (comm c).1,
    ∃ p ∈ (s.nodes n).asked, p.1 = c ∧ p.2.getLsbD i.val = true)

/-- What communicator `c` or a node can do next: a communicator asks each member
once, chooses when all have answered, and each member then sets the id and later
releases it. Without a common id it gives up. -/
def step (s : Machine) : Event → Option Machine
  | .init n freeIds =>
    let node := s.nodes n
    some (s.setNode n { node with env := initClassrouteIds freeIds node.env })
  | .get c n =>
    let node := s.nodes n
    if n ∈ (comm c).1.nodes ∧ s.choice c = none ∧ ¬ Asked s c n then
      some (s.setNode n { node with
        asked := (c, getClassrouteIds (comm c).2 (comm c).1 node.env) :: node.asked })
    else none
  | .choose c =>
    if s.choice c = none ∧ ∀ n ∈ members (comm c).1, Asked s c n then
      match commonId comm s c with
      | some i => some { s with choice := update s.choice c (some (some i)) }
      | none => some {
          nodes := fun n => { s.nodes n with
            asked := (s.nodes n).asked.filter fun p => p.1 ≠ c }
          choice := update s.choice c (some none) }
    else none
  | .set c n =>
    let node := s.nodes n
    match s.choice c with
    | some (some i) =>
      if Asked s c n then
        some (s.setNode n {
          env := (setClassrouteId i (comm c).2 (comm c).1 node.env).1
          asked := node.asked.filter fun p => p.1 ≠ c
          live := (c, i) :: node.live })
      else none
    | _ => none
  | .release c n =>
    let node := s.nodes n
    match s.choice c with
    | some (some i) =>
      if (c, i) ∈ node.live then
        (releaseClassrouteId i node.env).map fun r =>
          s.setNode n { node with env := r.1, live := node.live.erase (c, i) }
      else none
    | _ => none

/-- A node answers no other communicator and is not initialised between its answer
to a communicator and the setting of its id. -/
def Undisturbed (s : Machine) : Event → Prop
  | .init n _ => (s.nodes n).asked = []
  | .get _ n => (s.nodes n).asked = []
  | _ => True

instance (s : Machine) : (e : Event) → Decidable (Undisturbed s e)
  | .init n _ => inferInstanceAs (Decidable ((s.nodes n).asked = []))
  | .get _ n => inferInstanceAs (Decidable ((s.nodes n).asked = []))
  | .choose _ => inferInstanceAs (Decidable True)
  | .set _ _ => inferInstanceAs (Decidable True)
  | .release _ _ => inferInstanceAs (Decidable True)

/-- A step that leaves every communicator its turn -/
def turnStep (s : Machine) (e : Event) : Option Machine :=
  if Undisturbed s e then step comm s e else none

/-- Communicators share an id on a node only if they are alike, and those alike have the same id on
all nodes. A node sees the first and the last user of an id, and never gives a reserved one. -/
structure Consistent (s : Machine) : Prop where
  same_use : ∀ n c c' i, (c, i) ∈ (s.nodes n).live → (c', i) ∈ (s.nodes n).live →
    comm c = comm c'
  same_id : ∀ n m c c' i j, (c, i) ∈ (s.nodes n).live → (c', j) ∈ (s.nodes m).live →
    comm c = comm c' → i = j
  given_again : ∀ c i t, step comm s (.choose c) = some t → (comm c).1.nodes.Nonempty →
    (∀ n ∈ (comm c).1.nodes, ∃ c', (c', i) ∈ (s.nodes n).live ∧ comm c' = comm c) →
    t.choice c = some (some i)
  given_only : ∀ c i t n c' j, step comm s (.choose c) = some t → t.choice c = some (some i) →
    (c', j) ∈ (s.nodes n).live → comm c' = comm c → i = j
  first_use : ∀ c i n, s.choice c = some (some i) → Asked s c n →
    ((setClassrouteId i (comm c).2 (comm c).1 (s.nodes n).env).2 = 1 ↔
      ∀ c', (c', i) ∉ (s.nodes n).live)
  last_use : ∀ c i n, (c, i) ∈ (s.nodes n).live →
    ∃ env r, releaseClassrouteId i (s.nodes n).env = some (env, r) ∧
      (r = 1 ↔ ∀ c', (c', i) ∉ (s.nodes n).live.erase (c, i)) ∧ (env i = null ↔ r = 1)
  in_use : ∀ n i, (s.nodes n).env i = null → ∀ c, (c, i) ∉ (s.nodes n).live
  reserved : ∀ n i, (s.nodes n).env i = systemId →
    (∀ vc r, (getClassrouteIds vc r (s.nodes n).env).getLsbD i.val = false) ∧
    (∀ c, s.choice c = some (some i) → ¬ Asked s c n) ∧ ∀ c, (c, i) ∉ (s.nodes n).live

end Protocol

def initial : Machine where
  nodes _ := ⟨fun _ => null, [], []⟩
  choice _ := none

theorem mem_members {r : Rect} {n : Coord} : n ∈ members r ↔ n ∈ r.nodes := by
  have haxis : ∀ d x, x ∈ axis r d ↔ r.ll d ≤ x ∧ x ≤ r.ur d := by
    intro d x
    rw [axis, mem_range'_1]
    omega
  rw [members, mem_nested, Rect.mem_nodes_iff]
  simp only [haxis]

variable {x : Id}

section Tables

variable {vc : Vc} {subcomm : Rect} {env : Env}

theorem compareDim_fst (rect1 rect2 : Rect) (dims : List Dim) (counts : Nat × Nat) :
    (dims.foldl (compareDim rect1 rect2) counts).1 = counts.1 +
      dims.countP fun d => rect1.ll d = rect2.ll d ∧ rect1.ur d = rect2.ur d := by
  induction dims generalizing counts with
  | nil => rfl
  | cons d dims ih =>
    rw [foldl_cons, ih, countP_cons, compareDim]
    split
    next h =>
      simp only [h, decide_true, and_self, if_true]
      omega
    next h =>
      simp only [h, decide_false, Bool.false_eq_true, if_false]
      split <;> rfl

theorem rectCompare_eq_zero_iff (rect1 rect2 : Rect) :
    rectCompare rect1 rect2 = 0 ↔ rect1 = rect2 := by
  have hcount := compareDim_fst rect1 rect2 (finRange 5) (0, 0)
  have hall : ((finRange 5).foldl (compareDim rect1 rect2) (0, 0)).1 = 5 ↔
      rect1 = rect2 := by
    have hlen : (finRange 5).length = 5 := length_finRange
    rw [hcount, Nat.zero_add]
    nth_rewrite 2 [← hlen]
    rw [countP_eq_length]
    constructor
    · intro h
      obtain ⟨ll, ur⟩ := rect1
      obtain ⟨ll', ur'⟩ := rect2
      congr 1
      · funext d
        exact (of_decide_eq_true (h d (mem_finRange d))).1
      · funext d
        exact (of_decide_eq_true (h d (mem_finRange d))).2
    · rintro rfl
      simp
  rw [rectCompare, ← hall]
  split
  next heq =>
    exact iff_of_true rfl heq
  next hne =>
    refine iff_of_false ?_ hne
    split <;> decide

theorem vc_bits_inj {v w : Vc} : v.bits = w.bits ↔ v = w := by
  cases v <;> cases w <;> decide

theorem newAlloc_vc (id : Id) (vc : Vc) (subcomm : Rect) :
    (newAlloc id vc subcomm).classroute.input &&& inputVcMask = vc.bits := by
  simp only [newAlloc]
  cases vc <;> decide

theorem getLsbD_one_shiftLeft (x i : Id) : (1#32 <<< x.val).getLsbD i.val = decide (i = x) := by
  revert x i
  decide

theorem getLsbD_match (x i : Id) :
    (matchRectFlag ||| 1#32 <<< x.val).getLsbD i.val = decide (i = x) := by
  revert x i
  decide

def Matches (vc : Vc) (subcomm : Rect) (env : Env) (x : Id) : Prop :=
  ∃ crp rest, (env x).allocs = crp :: rest ∧
    crp.classroute.input &&& inputVcMask = vc.bits ∧ crp.rect = subcomm

theorem getLoop_cons_of_matches (hx : Matches vc subcomm env x)
    (rest : List Id) (free : BitVec 32) :
    getLoop vc subcomm env (x :: rest) free = matchRectFlag ||| 1#32 <<< x.val := by
  obtain ⟨crp, tl, hallocs, hvc, hrect⟩ := hx
  obtain ⟨tail, hentry⟩ : ∃ tail, env x = ⟨crp :: tl, tail⟩ := ⟨(env x).tail, by rw [← hallocs]⟩
  rw [getLoop, hentry]
  simp only [hvc, ne_eq, not_true_eq_false, if_false, (rectCompare_eq_zero_iff _ _).mpr hrect,
    if_true]

theorem getLoop_cons_of_not_matches (hx : ¬ Matches vc subcomm env x) (rest : List Id)
    (free : BitVec 32) : getLoop vc subcomm env (x :: rest) free =
      getLoop vc subcomm env rest (if env x = null then free ||| 1#32 <<< x.val else free) := by
  rw [getLoop]
  split
  next hentry =>
    rw [hentry]
    rfl
  next hentry =>
    rw [hentry]
    rfl
  next crp tl tail hentry =>
    have hnull : ¬ (⟨crp :: tl, tail⟩ : Entry) = null := by simp [null]
    rw [hentry, if_neg hnull]
    split
    · rfl
    next hvc =>
      split
      next hrect =>
        refine absurd ⟨crp, tl, by rw [hentry], by simpa using hvc, ?_⟩ hx
        exact (rectCompare_eq_zero_iff _ _).mp hrect
      · rfl

theorem getLoop_of_forall_not_matches {xs : List Id} (hxs : ∀ x ∈ xs, ¬ Matches vc subcomm env x)
    (free : BitVec 32) (i : Id) : (getLoop vc subcomm env xs free).getLsbD i.val = true ↔
      free.getLsbD i.val = true ∨ (i ∈ xs ∧ env i = null) := by
  induction xs generalizing free with
  | nil => simp [getLoop]
  | cons x xs ih =>
    rw [getLoop_cons_of_not_matches (hxs x mem_cons_self),
      ih fun y hy => hxs y (mem_cons_of_mem x hy)]
    split
    next hnull =>
      simp only [BitVec.getLsbD_or, getLsbD_one_shiftLeft, Bool.or_eq_true, decide_eq_true_eq,
        mem_cons]
      constructor
      · rintro ((h | rfl) | h)
        · exact .inl h
        · exact .inr ⟨.inl rfl, hnull⟩
        · exact .inr ⟨.inr h.1, h.2⟩
      · rintro (h | ⟨rfl | h, hi⟩)
        · exact .inl (.inl h)
        · exact .inl (.inr rfl)
        · exact .inr ⟨h, hi⟩
    next hnull =>
      refine or_congr_right ⟨fun h => ⟨mem_cons_of_mem x h.1, h.2⟩, ?_⟩
      rintro ⟨hmem, hi⟩
      rcases mem_cons.mp hmem with rfl | hmem
      · exact absurd hi hnull
      · exact ⟨hmem, hi⟩

theorem getClassrouteIds_cases (vc : Vc) (subcomm : Rect) (env : Env) :
    (∃ x, Matches vc subcomm env x ∧
      ∀ i : Id, (getClassrouteIds vc subcomm env).getLsbD i.val = true ↔ i = x) ∨
    ((∀ x, ¬ Matches vc subcomm env x) ∧
      ∀ i : Id, (getClassrouteIds vc subcomm env).getLsbD i.val = true ↔ env i = null) := by
  have hloop : ∀ (xs : List Id) (free : BitVec 32), (∃ x ∈ xs, Matches vc subcomm env x) →
      ∃ x, Matches vc subcomm env x ∧
        getLoop vc subcomm env xs free = matchRectFlag ||| 1#32 <<< x.val := by
    intro xs
    induction xs with
    | nil => simp
    | cons y xs ih =>
      intro free hex
      by_cases hy : Matches vc subcomm env y
      · exact ⟨y, hy, getLoop_cons_of_matches hy xs free⟩
      · obtain ⟨x, hx, hmatch⟩ := hex
        rw [getLoop_cons_of_not_matches hy]
        rcases mem_cons.mp hx with rfl | hx
        · exact absurd hmatch hy
        · exact ih _ ⟨x, hx, hmatch⟩
  by_cases hex : ∃ x, Matches vc subcomm env x
  · obtain ⟨y, hy⟩ := hex
    obtain ⟨x, hx, hget⟩ := hloop (finRange 16) 0#32 ⟨y, mem_finRange y, hy⟩
    refine .inl ⟨x, hx, fun i => ?_⟩
    rw [getClassrouteIds, hget, getLsbD_match, decide_eq_true_eq]
  · push Not at hex
    refine .inr ⟨hex, fun i => ?_⟩
    rw [getClassrouteIds, getLoop_of_forall_not_matches fun x _ => hex x]
    simp

theorem initClassrouteIds_apply (freeIds : List Id) (env : Env) (i : Id) :
    initClassrouteIds freeIds env i = env i ∨
      ((env i).allocs = [] ∧ (initClassrouteIds freeIds env i).allocs = []) := by
  have hfold : ∀ (ids : List Id) (e : Env), (e i).allocs = (env i).allocs →
      (e i = env i ∨ (env i).allocs = []) →
      (ids.foldl (fun e x => if e x = systemId then update e x null else e) e i).allocs =
        (env i).allocs ∧
      (ids.foldl (fun e x => if e x = systemId then update e x null else e) e i =
        env i ∨ (env i).allocs = []) := by
    intro ids
    induction ids with
    | nil => exact fun e h1 h2 => ⟨h1, h2⟩
    | cons x ids ih =>
      intro e h1 h2
      rw [foldl_cons]
      split
      next hsys =>
        rcases eq_or_ne i x with rfl | hne
        · have hempty : (env i).allocs = [] := by rw [← h1, hsys]; rfl
          exact ih _ (by simp [null, hempty]) (.inr hempty)
        · exact ih _ (by simpa [hne] using h1) (by simpa [hne] using h2)
      · exact ih e h1 h2
  unfold initClassrouteIds
  split
  · exact .inl rfl
  · obtain ⟨hallocs, hcases⟩ := hfold freeIds (fun x => if env x = null then systemId else env x)
      (by
        split
        next hnull =>
          rw [hnull]
          rfl
        · rfl)
      (by
        split
        next hnull =>
          exact .inr (by rw [hnull]; rfl)
        · exact .inl rfl)
    rcases hcases with h | h
    · exact .inl h
    · exact .inr ⟨h, hallocs.trans h⟩

end Tables

/-- Entry `i` of a table can be used by communicator `c`: it is not reserved and
holds no other rectangle or virtual channel. -/
def Usable (comm : Nat → Rect × Vc) (env : Env) (c : Nat) (i : Id) : Prop :=
  (env i).tail = .null ∧ ∀ a ∈ (env i).allocs, a = newAlloc i (comm c).2 (comm c).1

/-- One node: its table counts its users, its answer to a communicator stays good
until it is set, and it has answered at most one. -/
structure NodeInv (comm : Nat → Rect × Vc) (node : Node) : Prop where
  count : ∀ i, (node.env i).allocs.length = node.live.countP fun p => p.2 = i
  allocs_eq : ∀ c i, (c, i) ∈ node.live → Usable comm node.env c i
  reserved_empty : ∀ i, (node.env i).tail = .system → (node.env i).allocs = []
  live_nodup : node.live.Nodup
  asked_one : ∀ p ∈ node.asked, ∀ q ∈ node.asked, p = q
  asked_usable : ∀ p ∈ node.asked, ∀ i : Id, p.2.getLsbD i.val = true →
    Usable comm node.env p.1 i
  asked_live : ∀ p ∈ node.asked, ∀ c j, (c, j) ∈ node.live → comm c = comm p.1 →
    ∀ i : Id, p.2.getLsbD i.val = true ↔ i = j

/-- All nodes. A chosen id stands in every answer; while it is not set everywhere,
no other communicator of its rectangle is at the same point, and every id of its
rectangle that is in use is the chosen one. -/
structure Inv (comm : Nat → Rect × Vc) (s : Machine) : Prop where
  node : ∀ n, NodeInv comm (s.nodes n)
  live_choice : ∀ n c i, (c, i) ∈ (s.nodes n).live →
    n ∈ (comm c).1.nodes ∧ s.choice c = some (some i)
  asked_mem : ∀ n, ∀ p ∈ (s.nodes n).asked, n ∈ (comm p.1).1.nodes
  asked_choice : ∀ n, ∀ p ∈ (s.nodes n).asked, ∀ i : Id, s.choice p.1 = some (some i) →
    p.2.getLsbD i.val = true
  asked_not_live : ∀ n c i, Asked s c n → (c, i) ∉ (s.nodes n).live
  exclusive : ∀ c c' i j n n', s.choice c = some (some i) → s.choice c' = some (some j) →
    comm c = comm c' → Asked s c n → Asked s c' n' → c = c'
  chosen_live : ∀ c i n, s.choice c = some (some i) → Asked s c n →
    ∀ m c' j, (c', j) ∈ (s.nodes m).live → comm c' = comm c → j = i
  same_id : ∀ n m c c' i j, (c, i) ∈ (s.nodes n).live → (c', j) ∈ (s.nodes m).live →
    comm c = comm c' → i = j

variable {c : Nat} {i : Id} {p : Nat × BitVec 32}

section Invariant

variable {comm : Nat → Rect × Vc} {s t : Machine} {n : Coord} {node : Node}

theorem inv_initial (comm : Nat → Rect × Vc) : Inv comm initial := by
  refine ⟨fun n => ⟨fun i => rfl, ?_, ?_, nodup_nil, ?_, ?_, ?_⟩, ?_, ?_, ?_, ?_, ?_, ?_, ?_⟩
  all_goals simp [initial, Asked, null]

section

variable (hn : NodeInv comm node)
include hn

theorem NodeInv.allocs_eq_nil_iff (i : Id) :
    (node.env i).allocs = [] ↔ ∀ c, (c, i) ∉ node.live := by
  rw [← length_eq_zero_iff, hn.count, countP_eq_zero]
  constructor
  · exact fun h c hc => h (c, i) hc (by simp)
  · rintro h ⟨c, j⟩ hp heq
    obtain rfl : j = i := by simpa using heq
    exact h c hp

theorem NodeInv.matches_iff : Matches (comm c).2 (comm c).1 node.env i ↔
      ∃ c', (c', i) ∈ node.live ∧ comm c' = comm c := by
  constructor
  · rintro ⟨crp, rest, hallocs, hvc, hrect⟩
    have hne : ¬ ∀ c, (c, i) ∉ node.live := by
      rw [← hn.allocs_eq_nil_iff, hallocs]
      simp
    push Not at hne
    obtain ⟨c', hc'⟩ := hne
    obtain rfl := (hn.allocs_eq c' i hc').2 crp (by simp [hallocs])
    rw [newAlloc_vc, vc_bits_inj] at hvc
    exact ⟨c', hc', Prod.ext hrect hvc⟩
  · rintro ⟨c', hc', heq⟩
    have hne : (node.env i).allocs ≠ [] := fun h => (hn.allocs_eq_nil_iff i).mp h c' hc'
    obtain ⟨crp, rest, hallocs⟩ := exists_cons_of_ne_nil hne
    obtain rfl := (hn.allocs_eq c' i hc').2 crp (by simp [hallocs])
    refine ⟨_, rest, hallocs, ?_, ?_⟩
    · rw [newAlloc_vc, heq]
    · rw [← heq]
      rfl

omit hn in
theorem usable_of_null {env : Env} (h : env i = null) (c : Nat) : Usable comm env c i := by
  rw [Usable, h]
  simp [null]

theorem NodeInv.get (hone : ∀ c c' i j, (c, i) ∈ node.live →
      (c', j) ∈ node.live → comm c = comm c' → i = j)
    (hasked : node.asked = []) (c : Nat) :
    NodeInv comm { node with
      asked := (c, getClassrouteIds (comm c).2 (comm c).1 node.env) :: node.asked } := by
  refine { hn with asked_one := ?_, asked_usable := ?_, asked_live := ?_ }
  · simp [hasked]
  · simp only [hasked, mem_singleton, forall_eq]
    intro i hi
    rcases getClassrouteIds_cases (comm c).2 (comm c).1 node.env with ⟨x, hx, hbits⟩ | ⟨-, hbits⟩
    · obtain rfl := (hbits i).mp hi
      obtain ⟨c', hc', heq⟩ := hn.matches_iff.mp hx
      have := hn.allocs_eq c' i hc'
      rwa [Usable, heq] at this
    · exact usable_of_null ((hbits i).mp hi) c
  · simp only [hasked, mem_singleton, forall_eq]
    intro c' j hj heq i
    have hmatch : Matches (comm c).2 (comm c).1 node.env j := hn.matches_iff.mpr ⟨c', hj, heq⟩
    rcases getClassrouteIds_cases (comm c).2 (comm c).1 node.env with ⟨x, hx, hbits⟩ | ⟨hnone, -⟩
    · rw [hbits]
      obtain ⟨c'', hc'', heq'⟩ := hn.matches_iff.mp hx
      rw [hone c'' c' x j hc'' hj (heq'.trans heq.symm)]
    · exact absurd hmatch (hnone j)

theorem NodeInv.init (hasked : node.asked = []) (freeIds : List Id) :
    NodeInv comm { node with env := initClassrouteIds freeIds node.env } := by
  have happly := initClassrouteIds_apply freeIds node.env
  have hallocs : ∀ i, (initClassrouteIds freeIds node.env i).allocs = (node.env i).allocs := by
    intro i
    rcases happly i with h | ⟨h, h'⟩
    · rw [h]
    · rw [h, h']
  refine { hn with count := ?_, allocs_eq := ?_, reserved_empty := ?_, asked_usable := ?_ }
  · intro i
    simp only [hallocs]
    exact hn.count i
  · intro c i hc
    rcases happly i with h | ⟨h, -⟩
    · simpa [Usable, h] using hn.allocs_eq c i hc
    · exact absurd hc ((hn.allocs_eq_nil_iff i).mp h c)
  · intro i hi
    simp only [hallocs]
    rcases happly i with h | ⟨h, -⟩
    · simp only [h] at hi
      exact hn.reserved_empty i hi
    · exact h
  · simp [hasked]

theorem NodeInv.filter_asked (hp : p ∈ node.asked) :
    (node.asked.filter fun q => q.1 ≠ p.1) = [] := by
  rw [filter_eq_nil_iff]
  intro q hq
  simp [hn.asked_one q hq p hp]

theorem NodeInv.set (hp : p ∈ node.asked) (hbit : p.2.getLsbD i.val = true)
    (hfresh : (p.1, i) ∉ node.live) : NodeInv comm
      { env := (setClassrouteId i (comm p.1).2 (comm p.1).1 node.env).1
        asked := node.asked.filter fun q => q.1 ≠ p.1
        live := (p.1, i) :: node.live } := by
  obtain ⟨htail, hallocs⟩ := hn.asked_usable p hp i hbit
  have hentry : ∀ j, j ≠ i →
      (setClassrouteId i (comm p.1).2 (comm p.1).1 node.env).1 j = node.env j :=
    fun j hj => update_of_ne hj _ _
  have hself : (setClassrouteId i (comm p.1).2 (comm p.1).1 node.env).1 i =
      ⟨newAlloc i (comm p.1).2 (comm p.1).1 :: (node.env i).allocs, (node.env i).tail⟩ :=
    update_self ..
  rw [hn.filter_asked hp]
  refine ⟨?_, ?_, ?_, ?_, by simp, by simp, by simp⟩
  · intro j
    rcases eq_or_ne j i with rfl | hj
    · simp [hself, hn.count]
    · simp [hentry j hj, hn.count, Ne.symm hj]
  · intro c j hc
    rcases eq_or_ne j i with rfl | hj
    · simp only [Usable, hself]
      refine ⟨htail, ?_⟩
      rcases mem_cons.mp hc with heq | hc
      · obtain rfl : c = p.1 := (Prod.mk.inj heq).1
        simpa using hallocs
      · -- the old users and the new one agree on the allocation they share
        have hold := (hn.allocs_eq c j hc).2
        have hne : (node.env j).allocs ≠ [] := fun h => (hn.allocs_eq_nil_iff j).mp h c hc
        obtain ⟨a, ha⟩ := exists_mem_of_ne_nil _ hne
        have hsame := (hallocs a ha).symm.trans (hold a ha)
        simpa [hsame] using hold
    · rcases mem_cons.mp hc with heq | hc
      · exact absurd (Prod.mk.inj heq).2 hj
      · simpa [Usable, hentry j hj] using hn.allocs_eq c j hc
  · intro j hj
    rcases eq_or_ne j i with rfl | hne
    · simp [hself, htail] at hj
    · simp only [hentry j hne] at hj ⊢
      exact hn.reserved_empty j hj
  · exact nodup_cons.mpr ⟨hfresh, hn.live_nodup⟩

theorem NodeInv.release (hc : (c, i) ∈ node.live) :
    ∃ a rest, node.env i = ⟨a :: rest, .null⟩ ∧ releaseClassrouteId i node.env =
        some (update node.env i ⟨rest, .null⟩, if rest = [] then 1 else 0) ∧
      NodeInv comm { node with
        env := update node.env i ⟨rest, .null⟩, live := node.live.erase (c, i) } := by
  obtain ⟨htail, hallocs⟩ := hn.allocs_eq c i hc
  have hne : (node.env i).allocs ≠ [] := fun h => (hn.allocs_eq_nil_iff i).mp h c hc
  obtain ⟨a, rest, hcons⟩ := exists_cons_of_ne_nil hne
  have hentry : node.env i = ⟨a :: rest, .null⟩ := by rw [← hcons, ← htail]
  have hsub : ∀ c' j, (c', j) ∈ node.live.erase (c, i) → (c', j) ∈ node.live :=
    fun _ _ h => mem_of_mem_erase h
  have husable : ∀ c' j, Usable comm node.env c' j →
      Usable comm (update node.env i ⟨rest, .null⟩) c' j := by
    intro c' j h
    rcases eq_or_ne j i with rfl | hj
    · simp only [Usable, hentry] at h
      simp only [Usable, update_self, true_and]
      exact fun b hb => h.2 b (mem_cons_of_mem a hb)
    · simpa [Usable, hj] using h
  refine ⟨a, rest, hentry, ?_, ?_⟩
  · rw [releaseClassrouteId, hentry]
    simp [null]
  · refine ⟨?_, ?_, ?_, hn.live_nodup.erase _, hn.asked_one, ?_, ?_⟩
    · intro j
      have hcount := hn.count j
      rcases eq_or_ne j i with rfl | hj
      · rw [hentry] at hcount
        simp [countP_erase, hc, ← hcount]
      · simpa [countP_erase, hj, Ne.symm hj] using hcount
    · exact fun c' j h => husable c' j (hn.allocs_eq c' j (hsub c' j h))
    · intro j hj
      rcases eq_or_ne j i with rfl | hne'
      · simp at hj
      · simp only [update_of_ne hne'] at hj ⊢
        exact hn.reserved_empty j hj
    · exact fun p hp j hj => husable p.1 j (hn.asked_usable p hp j hj)
    · exact fun p hp c' j h => hn.asked_live p hp c' j (hsub c' j h)

end

section

variable (hs : Inv comm s)
include hs

theorem Inv.mono (hnode : ∀ n, NodeInv comm (t.nodes n))
    (hlive : ∀ n c i, (c, i) ∈ (t.nodes n).live → (c, i) ∈ (s.nodes n).live)
    (hasked : ∀ n, ∀ p ∈ (t.nodes n).asked, p ∈ (s.nodes n).asked ∨
      n ∈ (comm p.1).1.nodes ∧ s.choice p.1 = none)
    (hchoice : ∀ c i, t.choice c = some (some i) ↔ s.choice c = some (some i)) : Inv comm t := by
  have hkept : ∀ n i, ∀ p ∈ (t.nodes n).asked, s.choice p.1 = some (some i) →
      p ∈ (s.nodes n).asked :=
    fun n i p hp hi => (hasked n p hp).resolve_right fun h => by simp [h.2] at hi
  have hask : ∀ c n i, s.choice c = some (some i) → Asked t c n → Asked s c n := by
    rintro c n i hc ⟨p, hp, rfl⟩
    exact ⟨p, hkept n i p hp hc, rfl⟩
  refine ⟨hnode, ?_, ?_, ?_, ?_, ?_, ?_, ?_⟩
  · intro n c i hc
    obtain ⟨hmem, hci⟩ := hs.live_choice n c i (hlive n c i hc)
    exact ⟨hmem, (hchoice c i).mpr hci⟩
  · intro n p hp
    rcases hasked n p hp with hp | hp
    · exact hs.asked_mem n p hp
    · exact hp.1
  · intro n p hp i hi
    rw [hchoice] at hi
    exact hs.asked_choice n p (hkept n i p hp hi) i hi
  · intro n c i h hc
    replace hc := hlive n c i hc
    exact hs.asked_not_live n c i (hask c n i (hs.live_choice n c i hc).2 h) hc
  · intro c c' i j n n' hc hc' heq hn hn'
    rw [hchoice] at hc hc'
    exact hs.exclusive c c' i j n n' hc hc' heq (hask c n i hc hn) (hask c' n' j hc' hn')
  · intro c i n hc hn m c' j hm heq
    rw [hchoice] at hc
    exact hs.chosen_live c i n hc (hask c n i hc hn) m c' j (hlive m c' j hm) heq
  · exact fun n m c c' i j hc hc' => hs.same_id n m c c' i j (hlive n c i hc) (hlive m c' j hc')

/-- A node takes no new users, and answers only communicators that have not chosen. -/
theorem Inv.node_set (hnode : NodeInv comm node) (hlive : node.live ⊆ (s.nodes n).live)
    (hasked : ∀ p ∈ node.asked, p ∈ (s.nodes n).asked ∨
      n ∈ (comm p.1).1.nodes ∧ s.choice p.1 = none) : Inv comm (s.setNode n node) := by
  refine hs.mono ?_ ?_ ?_ fun _ _ => Iff.rfl
  · intro m
    rcases eq_or_ne m n with rfl | hm
    · simpa [setNode] using hnode
    · simpa [setNode, hm] using hs.node m
  · intro m c i h
    rcases eq_or_ne m n with rfl | hm
    · exact hlive (by simpa [setNode] using h)
    · simpa [setNode, hm] using h
  · intro m p hp
    rcases eq_or_ne m n with rfl | hm
    · exact hasked p (by simpa [setNode] using hp)
    · exact .inl (by simpa [setNode, hm] using hp)

theorem Inv.bit_of_commonId (hcommon : commonId comm s c = some i)
    (hp : p ∈ (s.nodes n).asked) (hpc : p.1 = c) : p.2.getLsbD i.val = true := by
  have hfind := find?_some hcommon
  rw [decide_eq_true_eq] at hfind
  obtain ⟨q, hq, -, hbit⟩ := hfind n (mem_members.mpr (hpc ▸ hs.asked_mem n p hp))
  rwa [(hs.node n).asked_one p hp q hq]

theorem Inv.eq_of_commonId (hall : ∀ n ∈ (comm c).1.nodes, Asked s c n)
    (hcommon : commonId comm s c = some i) {m : Coord} {c' : Nat} {j : Id}
    (hm : (c', j) ∈ (s.nodes m).live) (heq : comm c' = comm c) : j = i := by
  obtain ⟨p, hp, rfl⟩ := hall m (heq ▸ (hs.live_choice m c' j hm).1)
  exact (((hs.node m).asked_live p hp c' j hm heq i).mp
    (hs.bit_of_commonId hcommon hp rfl)).symm

theorem Inv.choose_some (hc : s.choice c = none)
    (hall : ∀ n ∈ (comm c).1.nodes, Asked s c n) (hcommon : commonId comm s c = some i) :
    Inv comm { s with choice := update s.choice c (some (some i)) } := by
  have hlive : ∀ n c' j, (c', j) ∈ (s.nodes n).live → c' ≠ c := by
    rintro n c' j h rfl
    have := (hs.live_choice n c' j h).2
    simp [hc] at this
  -- no node of the rectangle has answered anyone else
  have hsole : ∀ n c', Asked s c' n → comm c' = comm c → c' = c := by
    rintro n c' ⟨p, hp, rfl⟩ heq
    obtain ⟨q, hq, rfl⟩ := hall n (heq ▸ hs.asked_mem n p hp)
    rw [(hs.node n).asked_one p hp q hq]
  refine ⟨hs.node, ?_, hs.asked_mem, ?_, hs.asked_not_live, ?_, ?_, hs.same_id⟩
  · intro n c' j h
    obtain ⟨hmem, hchosen⟩ := hs.live_choice n c' j h
    exact ⟨hmem, by simpa [hlive n c' j h] using hchosen⟩
  · intro n p hp j hj
    rcases eq_or_ne p.1 c with hpc | hpc
    · obtain rfl : i = j := by simpa [hpc] using hj
      exact hs.bit_of_commonId hcommon hp hpc
    · exact hs.asked_choice n p hp j (by simpa [hpc] using hj)
  · intro c1 c2 j k n1 n2 h1 h2 heq hn1 hn2
    rcases eq_or_ne c1 c with rfl | hne1
    · exact (hsole n2 c2 hn2 heq.symm).symm
    · rcases eq_or_ne c2 c with rfl | hne2
      · exact hsole n1 c1 hn1 heq
      · exact hs.exclusive c1 c2 j k n1 n2 (by simpa [hne1] using h1) (by simpa [hne2] using h2)
          heq hn1 hn2
  · intro c1 j n1 h1 hn1 m c2 k hm heq
    rcases eq_or_ne c1 c with rfl | hne
    · obtain rfl : i = j := by simpa using h1
      exact hs.eq_of_commonId hall hcommon hm heq
    · exact hs.chosen_live c1 j n1 (by simpa [hne] using h1) hn1 m c2 k hm heq

theorem Inv.choose_none (hc : s.choice c = none) : Inv comm
      { nodes := fun n => { s.nodes n with
          asked := (s.nodes n).asked.filter fun p => p.1 ≠ c }
        choice := update s.choice c (some none) } := by
  have hsub : ∀ n, ((s.nodes n).asked.filter fun p => p.1 ≠ c) ⊆ (s.nodes n).asked :=
    fun _ _ h => mem_of_mem_filter h
  refine hs.mono ?_ (fun _ _ _ h => h) (fun n p hp => .inl (hsub n hp)) ?_
  · intro n
    have hn := hs.node n
    exact { hn with
      asked_one := fun p hp q hq => hn.asked_one p (hsub n hp) q (hsub n hq)
      asked_usable := fun p hp => hn.asked_usable p (hsub n hp)
      asked_live := fun p hp => hn.asked_live p (hsub n hp) }
  · intro c' i
    rcases eq_or_ne c' c with rfl | hne
    · simp [hc]
    · simp [hne]

theorem Inv.set (hc : s.choice c = some (some i)) (hasked : Asked s c n) : Inv comm (s.setNode n
      { env := (setClassrouteId i (comm c).2 (comm c).1 (s.nodes n).env).1
        asked := (s.nodes n).asked.filter fun p => p.1 ≠ c
        live := (c, i) :: (s.nodes n).live }) := by
  obtain ⟨p, hp, rfl⟩ := hasked
  have hnode := (hs.node n).set hp (hs.asked_choice n p hp i hc)
    (hs.asked_not_live n p.1 i ⟨p, hp, rfl⟩)
  rw [(hs.node n).filter_asked hp] at hnode ⊢
  set u := s.setNode n
    { env := (setClassrouteId i (comm p.1).2 (comm p.1).1 (s.nodes n).env).1
      asked := []
      live := (p.1, i) :: (s.nodes n).live } with hu
  have hlive : ∀ m c' j, (c', j) ∈ (u.nodes m).live ↔
      (m = n ∧ c' = p.1 ∧ j = i) ∨ (c', j) ∈ (s.nodes m).live := by
    intro m c' j
    rcases eq_or_ne m n with rfl | hm
    · simp [hu, setNode]
    · simp [hu, setNode, hm]
  have hsub : ∀ m, (u.nodes m).asked ⊆ (s.nodes m).asked := by
    intro m
    rcases eq_or_ne m n with rfl | hm
    · simp [hu, setNode]
    · simp [hu, setNode, hm]
  have hask : ∀ c' m, Asked u c' m → Asked s c' m :=
    fun c' m ⟨q, hq, hqc⟩ => ⟨q, hsub m hq, hqc⟩
  have hchosen := hs.chosen_live p.1 i n hc ⟨p, hp, rfl⟩
  constructor
  · intro m
    rcases eq_or_ne m n with rfl | hm
    · simpa [hu, setNode] using hnode
    · simpa [hu, setNode, hm] using hs.node m
  · intro m c' j h
    rcases (hlive m c' j).mp h with ⟨rfl, rfl, rfl⟩ | h
    · exact ⟨hs.asked_mem m p hp, hc⟩
    · exact hs.live_choice m c' j h
  · exact fun m q hq => hs.asked_mem m q (hsub m hq)
  · exact fun m q hq => hs.asked_choice m q (hsub m hq)
  · intro m c' j hm h
    rcases (hlive m c' j).mp h with ⟨rfl, rfl, rfl⟩ | h
    · obtain ⟨q, hq, -⟩ := hm
      simp [hu, setNode] at hq
    · exact hs.asked_not_live m c' j (hask c' m hm) h
  · intro c1 c2 j k n1 n2 h1 h2 heq hn1 hn2
    exact hs.exclusive c1 c2 j k n1 n2 h1 h2 heq (hask c1 n1 hn1) (hask c2 n2 hn2)
  · intro c1 j n1 h1 hn1 m c2 k hm heq
    rcases (hlive m c2 k).mp hm with ⟨rfl, rfl, rfl⟩ | hm
    · obtain rfl := hs.exclusive c1 p.1 j k n1 m h1 hc heq.symm (hask c1 n1 hn1) ⟨p, hp, rfl⟩
      exact some.inj (some.inj (hc.symm.trans h1))
    · exact hs.chosen_live c1 j n1 h1 (hask c1 n1 hn1) m c2 k hm heq
  · intro n1 n2 c1 c2 j k h1 h2 heq
    rcases (hlive n1 c1 j).mp h1 with ⟨-, rfl, rfl⟩ | hold1
    · rcases (hlive n2 c2 k).mp h2 with ⟨-, -, rfl⟩ | hold2
      · rfl
      · exact (hchosen n2 c2 k hold2 heq.symm).symm
    · rcases (hlive n2 c2 k).mp h2 with ⟨-, rfl, rfl⟩ | hold2
      · exact hchosen n1 c1 j hold1 heq
      · exact hs.same_id n1 n2 c1 c2 j k hold1 hold2 heq

theorem Inv.turnStep {e : Event} (hstep : turnStep comm s e = some t) : Inv comm t := by
  obtain ⟨hund, hstep⟩ := ite_none_right_eq_some.mp hstep
  revert hstep
  fun_cases step comm s e <;> intro hstep
  case case10 n _ i hc hlive _ =>
    obtain ⟨a, rest, -, hrelease, hnode⟩ := (hs.node n).release hlive
    rw [hrelease, map_some] at hstep
    cases hstep
    exact hs.node_set hnode erase_subset fun _ hp => .inl hp
  all_goals cases hstep
  case case1 n freeIds _ =>
    exact hs.node_set ((hs.node n).init hund freeIds) (Subset.refl _) fun _ hp => .inl hp
  case case2 c n _ hasked =>
    have hnode := (hs.node n).get (fun c c' i j => hs.same_id n n c c' i j) hund c
    refine hs.node_set hnode (Subset.refl _) fun p hp => ?_
    rcases mem_cons.mp hp with rfl | hp
    · exact .inr ⟨hasked.1, hasked.2.1⟩
    · exact .inl hp
  case case4 hready _ hcommon =>
    exact hs.choose_some hready.1 (fun n hn => hready.2 n (mem_members.mpr hn)) hcommon
  case case5 hready _ => exact hs.choose_none hready.1
  case case7 hc hasked => exact hs.set hc hasked

end

theorem find?_eq_self (i : Id) : (finRange 16).find? (fun j => decide (j = i)) = some i := by
  revert i
  decide

theorem Inv.consistent (hs : Inv comm s) : Consistent comm s := by
  refine ⟨?_, hs.same_id, ?_, ?_, ?_, ?_, ?_, ?_⟩
  · intro n c c' i hc hc'
    have hn := hs.node n
    have hne : ((s.nodes n).env i).allocs ≠ [] := fun h => (hn.allocs_eq_nil_iff i).mp h c hc
    obtain ⟨a, ha⟩ := exists_mem_of_ne_nil _ hne
    have heq := ((hn.allocs_eq c i hc).2 a ha).symm.trans ((hn.allocs_eq c' i hc').2 a ha)
    have hvc := newAlloc_vc i (comm c).2 (comm c).1
    rw [heq, newAlloc_vc, vc_bits_inj] at hvc
    exact Prod.ext (congrArg Alloc.rect heq) hvc.symm
  · intro c i t hstep ⟨n0, hn0⟩ hlive
    obtain ⟨⟨-, hall⟩, hstep⟩ := ite_none_right_eq_some.mp hstep
    have hbits : ∀ n ∈ (comm c).1.nodes, ∀ p ∈ (s.nodes n).asked, p.1 = c →
        ∀ j : Id, p.2.getLsbD j.val = true ↔ j = i := by
      rintro n hn p hp rfl
      obtain ⟨c', hc', heq⟩ := hlive n hn
      exact (hs.node n).asked_live p hp c' i hc' heq
    have hcommon : commonId comm s c = some i := by
      rw [← find?_eq_self i, commonId]
      congr 1
      funext j
      rw [decide_eq_decide]
      constructor
      · intro h
        obtain ⟨p, hp, hpc, hbit⟩ := h n0 (mem_members.mpr hn0)
        exact (hbits n0 hn0 p hp hpc j).mp hbit
      · intro h n hn
        obtain ⟨p, hp, hpc⟩ := hall n hn
        exact ⟨p, hp, hpc, (hbits n (mem_members.mp hn) p hp hpc j).mpr h⟩
    rw [hcommon] at hstep
    cases hstep
    simp
  · intro c i t n c' j hstep hchoice hlive heq
    obtain ⟨⟨-, hall⟩, hstep⟩ := ite_none_right_eq_some.mp hstep
    split at hstep
    next k hcommon =>
      cases hstep
      obtain rfl : k = i := by simpa using hchoice
      exact (hs.eq_of_commonId (fun n hn => hall n (mem_members.mpr hn)) hcommon hlive heq).symm
    · cases hstep
      simp at hchoice
  · rintro c i n hc ⟨p, hp, rfl⟩
    have hn := hs.node n
    have htail := (hn.asked_usable p hp i (hs.asked_choice n p hp i hc)).1
    rw [← hn.allocs_eq_nil_iff]
    have hnull : (s.nodes n).env i = null ↔ ((s.nodes n).env i).allocs = [] := by
      constructor
      · intro h
        rw [h]
        rfl
      · intro h
        rw [null, ← h, ← htail]
    simp [setClassrouteId, hnull]
  · intro c i n hc
    obtain ⟨a, rest, -, hrelease, hnode⟩ := (hs.node n).release hc
    refine ⟨_, _, hrelease, ?_, ?_⟩
    · rw [← hnode.allocs_eq_nil_iff]
      simp
    · simp [null]
  · intro n i hnull
    exact ((hs.node n).allocs_eq_nil_iff i).mp (by rw [hnull]; rfl)
  · intro n i hsys
    have hn := hs.node n
    have hnotUsable : ∀ c, ¬ Usable comm (s.nodes n).env c i := by
      rintro c ⟨htail, -⟩
      rw [hsys] at htail
      cases htail
    refine ⟨?_, ?_, fun c hc => hnotUsable c (hn.allocs_eq c i hc)⟩
    · intro vc r
      rw [← Bool.not_eq_true]
      intro hbit
      rcases getClassrouteIds_cases vc r (s.nodes n).env with ⟨x, hx, hbits⟩ | ⟨-, hbits⟩
      · obtain rfl := (hbits i).mp hbit
        obtain ⟨crp, rest, hallocs, -⟩ := hx
        rw [hsys] at hallocs
        cases hallocs
      · have hnull := (hbits i).mp hbit
        rw [hsys] at hnull
        cases hnull
    · rintro c hc ⟨p, hp, rfl⟩
      exact hnotUsable p.1 (hn.asked_usable p hp i (hs.asked_choice n p hp i hc))

end Invariant

/-- Over every run in which the communicators take turns on each node, the tables of
all nodes agree. -/
theorem classrouteIds_consistent (comm : Nat → Rect × Vc) (history : List Event) (s : Machine)
    (hrun : run (turnStep comm) initial history = some s) : Consistent comm s :=
  (run_invariant (fun _ s => Inv comm s) (inv_initial comm)
    (fun _ _ _ _ _ hs hstep => hs.turnStep hstep) hrun).consistent

/-- Communicators 0 and 2 have the same rectangle; communicator 1 overlaps it. -/
def sampleComm (c : Nat) : Rect × Vc :=
  if c = 1 then (⟨![1, 0, 0, 0, 0], ![2, 0, 0, 0, 0]⟩, .subcomm)
  else (⟨![0, 0, 0, 0, 0], ![1, 0, 0, 0, 0]⟩, .subcomm)

local instance neZeroSixteen : NeZero 16 := ⟨by decide⟩

def sampleTurns : List Event :=
  [.init ![1, 0, 0, 0, 0] [3, 4, 5], .get 0 ![0, 0, 0, 0, 0], .get 0 ![1, 0, 0, 0, 0], .choose 0,
    .set 0 ![1, 0, 0, 0, 0], .get 1 ![1, 0, 0, 0, 0], .set 0 ![0, 0, 0, 0, 0],
    .get 1 ![2, 0, 0, 0, 0], .choose 1, .set 1 ![2, 0, 0, 0, 0], .set 1 ![1, 0, 0, 0, 0],
    .get 2 ![1, 0, 0, 0, 0], .release 0 ![1, 0, 0, 0, 0], .get 2 ![0, 0, 0, 0, 0], .choose 2,
    .set 2 ![0, 0, 0, 0, 0], .set 2 ![1, 0, 0, 0, 0]]

theorem classrouteIds_consistent_overlapping :
    ∃ s, run (turnStep sampleComm) initial sampleTurns = some s ∧
      s.choice 0 = some (some 3) ∧ s.choice 1 = some (some 4) ∧ s.choice 2 = some (some 3) ∧
      Consistent sampleComm s := by
  refine exists_of_map_run (fun s => (s.choice 0, s.choice 1, s.choice 2))
    (some (some 3), some (some 4), some (some 3)) (by decide +kernel) fun s hrun hs => ?_
  simp only [Prod.mk.injEq] at hs
  exact ⟨hs.1, hs.2.1, hs.2.2, classrouteIds_consistent _ _ _ hrun⟩

def sampleRace : List Event :=
  [.get 0 ![0, 0, 0, 0, 0], .get 0 ![1, 0, 0, 0, 0], .get 1 ![1, 0, 0, 0, 0],
    .get 1 ![2, 0, 0, 0, 0], .choose 0, .choose 1, .set 0 ![1, 0, 0, 0, 0],
    .set 1 ![1, 0, 0, 0, 0]]

theorem not_forall_run_consistent :
    ¬ ∀ (comm : Nat → Rect × Vc) (history : List Event) (s : Machine),
      run (step comm) initial history = some s → Consistent comm s := by
  intro hall
  have hmap : (run (step sampleComm) initial sampleRace).map
      (fun s => (s.nodes ![1, 0, 0, 0, 0]).live) = some [(1, 0), (0, 0)] := by
    decide +kernel
  obtain ⟨s, hrun, hs⟩ := map_eq_some_iff.mp hmap
  have hsame := (hall _ _ _ hrun).same_use ![1, 0, 0, 0, 0] 0 1 0 (by simp [hs]) (by simp [hs])
  exact absurd hsame (by decide)

end BgqDriver.ClassrouteIds
