import BgqDriver.ClassrouteLinks

/-!
The nodes of an `--np` job as `Np::countIncludedNodes` counts them (`Np.cc`), with the
comparison of `Coordinates.cc`. A `std::set` is a search tree that may be rebalanced after
each insertion.
-/

namespace BgqDriver.IncludedNodes

open ClassrouteLinks List

variable {α : Type*}

inductive Tree (α : Type*) where
  | nil
  | node (left : Tree α) (key : α) (right : Tree α)

def Tree.toList : Tree α → List α
  | nil => []
  | node left key right => left.toList ++ key :: right.toList

section Search

variable (comp : α → α → Bool) (k : α)

/-- The key before the place at which the search for `k` ends. -/
def Tree.before : Tree α → Option α → Option α
  | nil, last => last
  | node left key right, last =>
    if comp k key then left.before last else right.before (some key)

def Tree.put : Tree α → Tree α
  | nil => node nil k nil
  | node left key right =>
    if comp k key then node left.put key right else node left key right.put

/-- `insert` of a `std::set`. -/
def Tree.insert (t : Tree α) : Tree α :=
  match t.before comp k none with
  | some j => if comp j k then t.put comp k else t
  | none => t.put comp k

end Search

/-- What a set does to the shape of its tree after an insertion. -/
structure Rebalance (α : Type*) where
  apply : Tree α → Tree α
  toList_apply : ∀ t, (apply t).toList = t.toList

def insertAll (comp : α → α → Bool) (set : Rebalance α) (t : Tree α) (l : List α) : Tree α :=
  l.foldl (fun t k => set.apply (t.insert comp k)) t

section Order

variable {comp : α → α → Bool} {k : α} {t : Tree α}

theorem Tree.put_perm : (t.put comp k).toList ~ k :: t.toList := by
  induction t with
  | nil => rfl
  | node left key right ihleft ihright =>
    rw [put]
    split
    · exact ihleft.append_right _
    · exact ((ihright.cons key).trans (.swap ..)).append_left _ |>.trans perm_middle

variable [PartialOrder α] (hcomp : ∀ x y, comp x y ↔ ¬ y ≤ x)
include hcomp

theorem Tree.before_cases {j : α} {last : Option α} (h : t.before comp k last = some j) :
    last = some j ∨ j ∈ t.toList ∧ j ≤ k := by
  induction t generalizing last with
  | nil => exact .inl h
  | node left key right ihleft ihright =>
    rw [before] at h
    split at h
    · rcases ihleft h with hlast | hj
      · exact .inl hlast
      · exact .inr ⟨mem_append_left _ hj.1, hj.2⟩
    next hkey =>
      rcases ihright h with hlast | hj
      · cases hlast
        exact .inr ⟨mem_append_right _ mem_cons_self, by simpa [hcomp] using hkey⟩
      · exact .inr ⟨mem_append_right _ (mem_cons_of_mem _ hj.1), hj.2⟩

theorem Tree.before_eq_last (h : ∀ j ∈ t.toList, ¬ j ≤ k) (last : Option α) :
    t.before comp k last = last := by
  induction t generalizing last with
  | nil => rfl
  | node left key right ihleft ihright =>
    rw [before, if_pos ((hcomp _ _).mpr (h key (mem_append_right _ mem_cons_self)))]
    exact ihleft (fun j hj => h j (mem_append_left _ hj)) last

theorem Tree.before_of_mem (hsorted : t.toList.Pairwise (· < ·)) (hk : k ∈ t.toList)
    (last : Option α) : t.before comp k last = some k := by
  induction t generalizing last with
  | nil => cases hk
  | node left key right ihleft ihright =>
    obtain ⟨hleft, hright, hacross⟩ := pairwise_append.mp hsorted
    rw [before]
    rcases mem_append.mp hk with hk | hk
    · have hlt := hacross k hk key mem_cons_self
      rw [if_pos ((hcomp _ _).mpr hlt.not_ge)]
      exact ihleft hleft hk last
    rcases mem_cons.mp hk with rfl | hk
    · rw [if_neg (by simp [hcomp])]
      exact before_eq_last hcomp (fun j hj => (rel_of_pairwise_cons hright hj).not_ge) _
    · have hlt := rel_of_pairwise_cons hright hk
      rw [if_neg (by simp [hcomp, hlt.le])]
      exact ihright hright.of_cons hk _

variable {S : Set α} (hchain : IsChain (· ≤ ·) S) (hk : k ∈ S)
include hchain hk

section

variable (ht : ∀ x ∈ t.toList, x ∈ S) (hsorted : t.toList.Pairwise (· < ·))
include ht hsorted

theorem Tree.put_sorted (hnew : k ∉ t.toList) : (t.put comp k).toList.Pairwise (· < ·) := by
  induction t with
  | nil => exact pairwise_singleton ..
  | node left key right ihleft ihright =>
    simp only [toList, mem_append, mem_cons, not_or] at ht hnew
    obtain ⟨hleft, hright, hacross⟩ := pairwise_append.mp hsorted
    have htotal := hchain.total hk (ht key (by simp))
    rw [put]
    split
    next hlt =>
      have hlt : k < key := lt_of_le_not_ge (htotal.resolve_right ((hcomp _ _).mp hlt))
        ((hcomp _ _).mp hlt)
      refine pairwise_append.mpr ⟨ihleft (fun x hx => ht x (.inl hx)) hleft hnew.1, hright, ?_⟩
      intro x hx y hy
      rcases mem_cons.mp (put_perm.mem_iff.mp hx) with rfl | hx
      · rcases mem_cons.mp hy with rfl | hy
        · exact hlt
        · exact hlt.trans (rel_of_pairwise_cons hright hy)
      · exact hacross x hx y hy
    next hge =>
      have hlt : key < k := lt_of_le_of_ne (by simpa [hcomp] using hge) (Ne.symm hnew.2.1)
      have hsorted' := ihright (fun x hx => ht x (.inr (.inr hx))) hright.of_cons hnew.2.2
      refine pairwise_append.mpr ⟨hleft, pairwise_cons.mpr ⟨?_, hsorted'⟩, ?_⟩
      · intro x hx
        rcases mem_cons.mp (put_perm.mem_iff.mp hx) with rfl | hx
        · exact hlt
        · exact rel_of_pairwise_cons hright hx
      · intro x hx y hy
        have hkey := hacross x hx key mem_cons_self
        rcases mem_cons.mp hy with rfl | hy
        · exact hkey
        rcases mem_cons.mp (put_perm.mem_iff.mp hy) with rfl | hy
        · exact hkey.trans hlt
        · exact hacross x hx y (mem_cons_of_mem _ hy)

theorem Tree.insert_spec : (t.insert comp k).toList.Pairwise (· < ·) ∧
      ∀ x, x ∈ (t.insert comp k).toList ↔ x ∈ t.toList ∨ x = k := by
  by_cases hmem : k ∈ t.toList
  · have hinsert : t.insert comp k = t := by
      rw [insert, before_of_mem hcomp hsorted hmem]
      simp [hcomp]
    rw [hinsert]
    exact ⟨hsorted, fun x => (or_iff_left_of_imp (· ▸ hmem)).symm⟩
  · have hinsert : t.insert comp k = t.put comp k := by
      rw [insert]
      split
      next j hj =>
        obtain ⟨hj, hle⟩ := (before_cases hcomp hj).resolve_left nofun
        refine if_pos ((hcomp _ _).mpr fun hge => hmem ?_)
        rwa [le_antisymm hge hle]
      · rfl
    rw [hinsert]
    exact ⟨put_sorted hcomp hchain hk ht hsorted hmem,
      fun x => put_perm.mem_iff.trans (mem_cons.trans or_comm)⟩

end

omit hk in
theorem insertAll_spec (set : Rebalance α) {l : List α} (hl : ∀ x ∈ l, x ∈ S)
    (ht : ∀ x ∈ t.toList, x ∈ S) (hsorted : t.toList.Pairwise (· < ·)) :
    (insertAll comp set t l).toList.Pairwise (· < ·) ∧
      ∀ x, x ∈ (insertAll comp set t l).toList ↔ x ∈ t.toList ∨ x ∈ l := by
  induction l generalizing t with
  | nil => simpa [insertAll] using hsorted
  | cons k l ih =>
    have hk := hl k mem_cons_self
    obtain ⟨hsorted', hmem⟩ := Tree.insert_spec hcomp hchain hk ht hsorted
    have h := ih (t := set.apply (t.insert comp k)) (fun x hx => hl x (mem_cons_of_mem _ hx))
    simp only [set.toList_apply, hmem, or_assoc] at h
    refine (h ?_ hsorted').imp id fun h x => ?_
    · rintro x (hx | rfl)
      exacts [ht x hx, hk]
    · rw [mem_cons]
      exact h x

end Order

/-- `operator<` of two `Coordinates`. -/
def lt (rhs lhs : Coord) : Bool :=
  rhs 0 < lhs 0 || rhs 1 < lhs 1 || rhs 2 < lhs 2 || rhs 3 < lhs 3 || rhs 4 < lhs 4

theorem lt_iff (x y : Coord) : lt x y ↔ ¬ y ≤ x := by
  simp [lt, Pi.le_def, Fin.forall_fin_succ]
  omega

/-- What `countIncludedNodes` reads of a job: `output` is what `MUSPI_GenerateCoordinates`
writes for the ranks below `np`. -/
structure Job where
  envs : List String
  ranksPerNode : Nat
  worldSize : Nat
  output : List Coord
  ranksPerNode_pos : 0 < ranksPerNode
  np_le : output.length ≤ worldSize * ranksPerNode
  unsigned : worldSize * ranksPerNode < 2 ^ 32

def Job.enabled (job : Job) : Bool := job.envs.any (· == "RUNJOB_USE_NEW_NP_INCLUDE_COUNT")

def Job.countIncludedNodes (job : Job) (set : Rebalance Coord) : Nat :=
  if job.enabled then (insertAll lt set .nil job.output).toList.length
  else
    let excludeCount :=
      (job.worldSize * job.ranksPerNode - job.output.length) / job.ranksPerNode
    job.worldSize - excludeCount

/-- The count is that of the distinct coordinates, and the set's order is fit for it. -/
structure Job.Counts (job : Job) : Prop where
  order : job.enabled → IsStrictWeakOrder {x // x ∈ job.output} fun x y => lt x y
  equiv : job.enabled → ∀ x ∈ job.output, ∀ y ∈ job.output, ¬ lt x y → ¬ lt y x → x = y
  count : ∀ set, job.countIncludedNodes set = job.output.toFinset.card

theorem insertAll_length {l : List Coord} (hchain : IsChain (· ≤ ·) {x | x ∈ l})
    (set : Rebalance Coord) : (insertAll lt set .nil l).toList.length = l.toFinset.card := by
  obtain ⟨hsorted, hmem⟩ := insertAll_spec lt_iff hchain set (t := .nil) (fun x => id) nofun .nil
  rw [← toFinset_card_of_nodup (hsorted.imp ne_of_lt)]
  congr 1
  ext x
  rw [mem_toFinset, mem_toFinset, hmem]
  exact or_iff_right (by nofun)

theorem Job.isChain_of_order {job : Job}
    (h : IsStrictWeakOrder {x // x ∈ job.output} fun x y => lt x y) :
    IsChain (· ≤ ·) {x | x ∈ job.output} := by
  intro x hx y hy _
  by_contra hnot
  rw [not_or] at hnot
  exact h.irrefl ⟨x, hx⟩ (h.trans ⟨x, hx⟩ ⟨y, hy⟩ ⟨x, hx⟩
    ((lt_iff x y).mpr hnot.2) ((lt_iff y x).mpr hnot.1))

theorem eq_of_not_lt {x y : Coord} (hxy : ¬ lt x y) (hyx : ¬ lt y x) : x = y := by
  rw [lt_iff, not_not] at hxy hyx
  exact le_antisymm hyx hxy

theorem Job.order_of_isChain {job : Job} (h : IsChain (· ≤ ·) {x | x ∈ job.output}) :
    IsStrictWeakOrder {x // x ∈ job.output} fun x y => lt x y where
  irrefl x := by simp [lt_iff]
  trans x y z hxy hyz := by
    rw [lt_iff] at hxy hyz ⊢
    exact fun hzx => hxy (((h.total y.2 z.2).resolve_right hyz).trans hzx)
  incomp_trans x y z hxy hyz := by
    rw [Subtype.ext (eq_of_not_lt hxy.1 hxy.2)]
    exact hyz

/-- The old count rounds the ranks up to whole nodes. -/
theorem sub_excludeCount {size ranks np : Nat} (hranks : 0 < ranks) (hnp : np ≤ size * ranks) :
    size - (size * ranks - np) / ranks = (np + ranks - 1) / ranks := by
  have hle : (size * ranks - np) / ranks ≤ size :=
    (Nat.div_le_div_right (Nat.sub_le ..)).trans (Nat.mul_div_cancel _ hranks).le
  obtain ⟨w, hw⟩ := Nat.exists_eq_add_of_le hle
  have hdiv := Nat.div_add_mod (size * ranks - np) ranks
  have hmod := Nat.mod_lt (size * ranks - np) hranks
  have hmul : size * ranks = ranks * ((size * ranks - np) / ranks) + w * ranks := by
    conv_lhs => rw [hw, Nat.add_mul, Nat.mul_comm]
  have hnext : (w + 1) * ranks = w * ranks + ranks := Nat.succ_mul ..
  rw [Nat.sub_eq_of_eq_add' hw]
  exact (Nat.div_eq_of_lt_le (by omega) (by omega)).symm

theorem Job.counts_iff (job : Job) : job.Counts ↔
    if job.enabled then IsChain (· ≤ ·) {x | x ∈ job.output}
    else job.output.toFinset.card =
      (job.output.length + job.ranksPerNode - 1) / job.ranksPerNode := by
  split
  next henabled =>
    refine ⟨fun h => isChain_of_order (h.order henabled), fun h =>
      ⟨fun _ => order_of_isChain h, fun _ x _ y _ => eq_of_not_lt, fun set => ?_⟩⟩
    rw [countIncludedNodes, if_pos henabled]
    exact insertAll_length h set
  next hdisabled =>
    have hcount : ∀ set, job.countIncludedNodes set =
        (job.output.length + job.ranksPerNode - 1) / job.ranksPerNode := by
      intro set
      rw [countIncludedNodes, if_neg hdisabled]
      exact sub_excludeCount job.ranksPerNode_pos job.np_le
    constructor
    · exact fun h => (h.count ⟨id, fun _ => rfl⟩).symm.trans (hcount _)
    · exact fun h => ⟨(absurd · hdisabled), (absurd · hdisabled), fun set => by rw [hcount, h]⟩

def rotate : Tree α → Tree α
  | .node (.node (.node a x b) y c) z d => .node (.node a x b) y (.node c z d)
  | t => t

theorem not_forall_counts : ¬ ∀ job : Job, job.Counts := by
  intro h
  have hcount := (h ⟨["RUNJOB_USE_NEW_NP_INCLUDE_COUNT"], 2, 9,
    [![0, 2, 0, 0, 0], ![1, 1, 0, 0, 0], ![2, 0, 0, 0, 0], ![0, 2, 0, 0, 0]],
    by decide, by decide, by decide⟩).count
      ⟨rotate, fun t => by unfold rotate; split <;> simp [Tree.toList]⟩
  revert hcount
  decide

end BgqDriver.IncludedNodes
