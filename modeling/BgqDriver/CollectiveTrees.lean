import BgqDriver.CollectiveNodes

/-!
Reductions over the nodes of a collective tree. Each node's result is the
combination of the contributions below it, by induction over the tree, so the root
holds what one flat reduction of all contributions gives.
-/

namespace BgqDriver.NetworkReduce

open GroupedFolds List Function

/-- A collective tree: a node has up to eleven children, one for each link, and may
contribute itself. -/
inductive CollectiveTree
  | absent
  | node (id : Nat) (contributes : Bool) (child : Fin 11 → CollectiveTree)

variable {child : Fin 11 → CollectiveTree} {ms ns : List Nat} {st : NodeState}

namespace CollectiveTree

def nodes : CollectiveTree → List Nat
  | absent => []
  | node id _ child => id :: (finRange 11).flatMap fun link => (child link).nodes

/-- The ids of the nodes that contribute -/
def contributors : CollectiveTree → List Nat
  | absent => []
  | node id contributes child =>
    ((finRange 11).flatMap fun link => (child link).contributors) ++
      if contributes then [id] else []

/-- What `willParticipate` returns for a link to a tree. -/
def IsLink (other : Int) : CollectiveTree → Prop
  | absent => other < 0
  | node id _ _ => other = id

/-- `willParticipate` describes the tree. A node without children contributes. -/
def Routes (willParticipate : Nat → Nat → Int) : CollectiveTree → Prop
  | absent => True
  | node id contributes child =>
    (∀ link : Fin 11, IsLink (willParticipate id link) (child link)) ∧
      (if contributes then willParticipate id 11 = id else willParticipate id 11 < 0) ∧
      (contributes ∨ ∃ link, child link ≠ absent) ∧
      ∀ link, (child link).Routes willParticipate

theorem contributors_ne_nil {willParticipate : Nat → Nat → Int} :
    ∀ {t : CollectiveTree}, t.Routes willParticipate → t ≠ absent → t.contributors ≠ []
  | absent, _, h => absurd rfl h
  | node id contributes child, ⟨_, _, hsome, hroutes⟩, _ => by
      rw [contributors]
      rcases hsome with hself | ⟨link, hlink⟩
      · rw [hself, if_pos rfl]
        exact append_ne_nil_of_right_ne_nil _ (cons_ne_nil _ _)
      · apply append_ne_nil_of_left_ne_nil
        intro hnil
        exact contributors_ne_nil (hroutes link) hlink
          (flatMap_eq_nil_iff.mp hnil link (mem_finRange link))

end CollectiveTree

open CollectiveTree

namespace Collective

structure Advanced (ns : List Nat) (st st' : NodeState) : Prop where
  participation : ∀ n, st'.nodeParticipation n = st.nodeParticipation n + ns.count n
  total : st'.totalParticipation = st.totalParticipation + ns.length
  isSome : st'.vNodeExceptions.isSome = st.vNodeExceptions.isSome

theorem Advanced.append {st' st'' : NodeState} (h : Advanced ns st st')
    (h' : Advanced ms st' st'') :
    Advanced (ns ++ ms) st st'' where
  participation n := by
    rw [h'.participation, h.participation, count_append, Nat.add_assoc]
  total := by rw [h'.total, h.total, length_append, Nat.add_assoc]
  isSome := h'.isSome.trans h.isSome

structure Ready (c : Collective) (ns : List Nat) (st : NodeState) : Prop where
  nodup : ns.Nodup
  le_max : ∀ n ∈ ns, (n : Int) ≤ c.maxParticipant
  fresh : ∀ n ∈ ns, st.nodeParticipation n = c.participationGeneration
  room : (st.totalParticipation + ns.length : Int) ≤
    (c.participationGeneration + 1) * (c.maxParticipant + 1)
  offset : st.vNodeExceptions.isSome → c.offsetFits

variable {c : Collective}

theorem Ready.left (h : Ready c (ns ++ ms) st) : Ready c ns st where
  nodup := (nodup_append.mp h.nodup).1
  le_max n hn := h.le_max n (mem_append_left _ hn)
  fresh n hn := h.fresh n (mem_append_left _ hn)
  room := by
    have hroom := h.room
    rw [length_append] at hroom
    omega
  offset := h.offset

theorem Ready.right {st' : NodeState} (h : Ready c (ns ++ ms) st) (hadvanced : Advanced ns st st') :
    Ready c ms st' where
  nodup := (nodup_append.mp h.nodup).2.1
  le_max n hn := h.le_max n (mem_append_right _ hn)
  fresh n hn := by
    have hnot : n ∉ ns := fun hn' => (nodup_append.mp h.nodup).2.2 n hn' n hn rfl
    rw [hadvanced.participation, count_eq_zero_of_not_mem hnot,
      h.fresh n (mem_append_right _ hn), Nat.add_zero]
  room := by
    have hroom := h.room
    rw [length_append] at hroom
    rw [hadvanced.total]
    omega
  offset := by
    rw [hadvanced.isSome]
    exact h.offset

variable (op : Operator c.host c.elementWords c.opCode)

def contribution (node : Nat) : op.Value := op.read (c.flags node) (c.element node)

def contributions (t : CollectiveTree) : List op.Value := t.contributors.map (contribution op)

structure Visited (t : CollectiveTree) (id : Nat) (vFlagsResult : BitVec 64) (st : NodeState)
    (out : BitVec 64 × Words × NodeState) : Prop where
  result : combineAll op.combine (contributions op t) = some (op.read vFlagsResult out.2.1)
  exception : out.1 = op.exception (contributions op t)
  advanced : Advanced t.nodes st out.2.2
  check : c.checkNeighbor id out.1 out.2.1 out.2.2

/-- What the loop over some links does, `groups` being the contributions that come
over each of them. -/
structure Linked (ns : List Nat) (groups : List (List op.Value)) (s s' : LinkState) : Prop where
  delivered : ∃ added, s'.localContributions = s.localContributions ++ added ∧
    Forall₂ (fun g w => combineAll op.combine g = some (op.read w.2 w.1)) groups added
  exception : s'.globalException =
    s.globalException ||| (groups.map op.exception).foldr (· ||| ·) 0
  advanced : Advanced ns s.nodes s'.nodes

variable {op}

theorem Linked.refl (s : LinkState) : Linked op [] [] s s :=
  ⟨⟨[], (append_nil _).symm, .nil⟩, (or_noException _).symm, ⟨fun _ => rfl, rfl, rfl⟩⟩

theorem foldr_or_append (xs ys : List (BitVec 64)) :
    (xs ++ ys).foldr (· ||| ·) 0 = xs.foldr (· ||| ·) 0 ||| ys.foldr (· ||| ·) 0 := by
  induction xs with
  | nil => exact (noException_or _).symm
  | cons x xs ih =>
    rw [cons_append, foldr_cons, ih, foldr_cons, BitVec.or_assoc]

theorem Linked.append {groups groups' : List (List op.Value)} {s s' s'' : LinkState}
    (h : Linked op ns groups s s') (h' : Linked op ms groups' s' s'') :
    Linked op (ns ++ ms) (groups ++ groups') s s'' := by
  obtain ⟨added, hadded, hgroups⟩ := h.delivered
  obtain ⟨added', hadded', hgroups'⟩ := h'.delivered
  refine ⟨⟨added ++ added', ?_, rel_append hgroups hgroups'⟩, ?_, h.advanced.append h'.advanced⟩
  · rw [hadded', hadded, append_assoc]
  · rw [h'.exception, h.exception, map_append, foldr_or_append, BitVec.or_assoc]

section LinkSteps

variable
  {visit : Nat → BitVec 64 → Words → NodeState → Option (BitVec 64 × Words × NodeState)}
  {id : Nat}

variable (op visit id) in
/-- One link brings the contributions `xs`, together or none at all. -/
def Brings (link : Nat) (s : LinkState) (ns : List Nat) (xs : List op.Value) : Prop :=
  ∃ s' groups, c.linkStep visit id s link = some s' ∧ Linked op ns groups s s' ∧
    groups.flatten = xs ∧ groups.length ≤ 1

theorem linkStep_absent {link : Nat} (hlink : c.willParticipate id link < 0) (s : LinkState) :
    Brings op visit id link s [] [] := by
  refine ⟨s, [], ?_, .refl s, rfl, Nat.zero_le 1⟩
  rw [linkStep, if_pos hlink]

theorem linkStep_local (hlink : c.willParticipate id 11 = id) (s : LinkState) :
    Brings op visit id 11 s [] [contribution op id] := by
  refine ⟨{ s with localContributions := s.localContributions ++
      [(fun i => if i < c.elementWords then c.element id i else c.uninit i, c.flags id)] }, [[_]],
    ?_, ⟨⟨_, rfl, .cons ?_ .nil⟩, ?_, ⟨fun _ => rfl, rfl, rfl⟩⟩, rfl, le_rfl⟩
  · rw [linkStep, hlink, if_neg (by omega), if_neg (by decide), if_pos rfl]
  · rw [combineAll_singleton]
    exact congrArg some (op.read_congr fun i hi => by simp only [if_pos hi])
  · rw [map_singleton, op.exception_singleton, foldr_cons, foldr_nil,
      or_noException, or_noException]

theorem foldlM_links (hlinks : ∀ link : Fin 11, IsLink (c.willParticipate id link) (child link))
    (hvisit : ∀ {link other contributes grandchild},
      child link = .node other contributes grandchild → ∀ {st}, Ready c (child link).nodes st →
        ∃ out, visit other 0 c.uninit st = some out ∧
          Visited op (child link) other 0 st out) :
    ∀ (links : List (Fin 11)) (s : LinkState),
      Ready c (links.flatMap fun link => (child link).nodes) s.nodes →
        ∃ s' groups, (links.map Fin.val).foldlM (c.linkStep visit id) s = some s' ∧
          Linked op (links.flatMap fun link => (child link).nodes) groups s s' ∧
          groups.flatten = (links.flatMap fun link => contributions op (child link)) ∧
          groups.length ≤ links.length
  | [], s, _ => ⟨s, [], rfl, .refl s, rfl, le_rfl⟩
  | link :: links, s, hready => by
      obtain ⟨s1, groups1, hstep, hlinked1, hflatten1, hlength1⟩ : Brings op visit id link s
          (child link).nodes (contributions op (child link)) := by
        have hlink := hlinks link
        cases hchild : child link with
        | absent =>
          rw [hchild] at hlink
          exact linkStep_absent hlink s
        | node other contributes grandchild =>
          obtain ⟨out, hout, hvisited⟩ := hvisit hchild hready.left
          rw [hchild] at hlink hvisited
          refine ⟨⟨_ ++ [(out.2.1, 0)], s.globalException ||| out.1, out.2.2⟩, _, ?_,
            ⟨⟨_, rfl, .cons hvisited.result .nil⟩, ?_, hvisited.advanced⟩, append_nil _, le_rfl⟩
          · rw [linkStep, hlink, if_neg (by omega), if_pos link.isLt, Int.toNat_natCast, hout]
            simp only [hvisited.check, if_true]
          · rw [hvisited.exception, map_singleton, foldr_cons, foldr_nil, or_noException]
      obtain ⟨s2, groups2, hloop, hlinked2, hflatten2, hlength2⟩ :=
        foldlM_links hlinks hvisit links s1 (hready.right hlinked1.advanced)
      refine ⟨s2, groups1 ++ groups2, ?_, hlinked1.append hlinked2, ?_, ?_⟩
      · rw [map_cons, foldlM_cons, hstep]
        exact hloop
      · rw [flatten_append, hflatten1, hflatten2, flatMap_cons]
      · rw [length_append, length_cons]
        omega

end LinkSteps

theorem map_range_getD {α β : Type} (f : α → β) (xs : List α) (d : α) :
    (range xs.length).map (fun p => f (xs.getD p d)) = xs.map f := by
  apply ext_getElem
  · simp
  · intro i hi _
    have hi : i < xs.length := by simpa using hi
    simp [hi]

theorem scalarReduce_local {groups : List (List op.Value)} {delivered : List (Words × BitVec 64)}
    (hgroups : Forall₂ (fun g w => combineAll op.combine g = some (op.read w.2 w.1))
      groups delivered) (hpos : delivered ≠ []) (hlength : delivered.length < 2 ^ 31)
    (vFlagsResult : BitVec 64) (Tree : Option (List Char)) (Result : Words) :
    ∃ localException Result',
      scalarReduce .c (c.localArgs delivered vFlagsResult) c.opCode Tree c.cells Result =
          (localException, Result') ∧
        op.exception groups.flatten =
          (groups.map op.exception).foldr (· ||| ·) 0 ||| localException ∧
        combineAll op.combine groups.flatten = some (op.read vFlagsResult Result') := by
  have hassoc := op.associative
  let a := c.localArgs delivered vFlagsResult
  have hvalues : ((range a.numParticipants).map fun p =>
      op.read (a.flags p) (a.element p)) = delivered.map fun w => op.read w.2 w.1 := by
    rw [← map_range_getD _ delivered (c.uninit, 0)]
    apply map_congr_left
    intro p _
    exact op.read_congr fun i _ => congrArg _ (Nat.zero_add i)
  obtain ⟨Result', hreduce, hcombine⟩ := op.reduces a rfl rfl
    (fun h => hpos (eq_nil_of_length_eq_zero h)) hlength .c Tree c.cells Result
  rw [hvalues] at hreduce hcombine
  have hread : Forall₂ (fun g x => combineAll op.combine g = some x) groups
      (delivered.map fun w => op.read w.2 w.1) :=
    forall₂_map_right_iff.mpr hgroups
  refine ⟨_, Result', hreduce, op.exception_flatten hread, ?_⟩
  rw [combineAll_flatten _ hread, hcombine]
  rfl

theorem and_or_self (x y : BitVec 64) : x &&& (y ||| x) = x := by
  ext i hi
  simp only [BitVec.getElem_and, BitVec.getElem_or]
  cases x[i] <;> simp

theorem store_eq (hoffset : st.vNodeExceptions.isSome → c.offsetFits) (id : Nat)
    (localException : BitVec 64) (Result : Words) :
    ∃ st', c.store id localException Result st = some st' ∧ Advanced [] st st' ∧
      ∀ below, c.checkNeighbor id (below ||| localException) Result st' := by
  have hresults : ∀ results : Nat → Words, ((range c.elementWords).all fun i =>
      Result i == update results id (fun i =>
        if c.offset ≤ i ∧ i < c.offset + c.elementWords then Result (i - c.offset)
        else results id i) id (c.offset + i)) = true := by
    intro results
    rw [update_self, all_eq_true]
    intro i hi
    rw [if_pos ⟨Nat.le_add_right _ _, Nat.add_lt_add_left (mem_range.mp hi) _⟩,
      Nat.add_sub_cancel_left, beq_self_eq_true]
  obtain ⟨participation, total, exceptions, results⟩ := st
  cases exceptions with
  | none =>
    refine ⟨_, rfl, ⟨fun _ => rfl, rfl, rfl⟩, fun below => ?_⟩
    cases results with
    | none => rfl
    | some results => exact hresults results
  | some exceptions =>
    have hfits : c.offsetFits := hoffset rfl
    refine ⟨_, if_pos hfits, ⟨fun _ => rfl, rfl, rfl⟩, fun below => ?_⟩
    simp only [checkNeighbor, update_self, hfits, and_or_self, beq_self_eq_true,
      Bool.true_and]
    cases results with
    | none => rfl
    | some results => exact hresults results

theorem range_twelve : range 12 = (finRange 11).map Fin.val ++ [11] := by
  decide

theorem multiNodeScalarReduce_visited (op : Operator c.host c.elementWords c.opCode)
    (t : CollectiveTree) :
    ∀ {id contributes child}, t = .node id contributes child → t.Routes c.willParticipate →
      ∀ {depth}, t.nodes.length ≤ depth → ∀ (vFlagsResult : BitVec 64) (Result : Words) {st},
        Ready c t.nodes st →
          ∃ out, c.multiNodeScalarReduce depth id vFlagsResult Result st = some out ∧
            Visited op t id vFlagsResult st out := by
  induction t with
  | absent => exact nofun
  | node id contributes child ih =>
    rintro _ _ _ ⟨⟩ hroutes depth hdepth vFlagsResult Result st hready
    have hnonempty := contributors_ne_nil hroutes (by simp)
    obtain ⟨hlinks, hself, -, hbelow⟩ := hroutes
    obtain ⟨depth, rfl⟩ : ∃ d, depth = d + 1 :=
      Nat.exists_eq_succ_of_ne_zero (by rw [nodes, length_cons] at hdepth; omega)
    have hmem : id ∈ (CollectiveTree.node id contributes child).nodes := mem_cons_self
    have hmax := hready.le_max id hmem
    have hfresh := hready.fresh id hmem
    -- the node takes part
    let st1 : NodeState := { st with
      nodeParticipation := update st.nodeParticipation id (st.nodeParticipation id + 1)
      totalParticipation := st.totalParticipation + 1 }
    have hadvanced : Advanced [id] st st1 := by
      refine ⟨fun n => ?_, rfl, rfl⟩
      by_cases hn : n = id
      · rw [hn, count_singleton_self]
        exact update_self ..
      · rw [count_eq_zero_of_not_mem (by simpa using hn)]
        exact update_of_ne hn ..
    have hready1 := (show Ready c ([id] ++ _) st from hready).right hadvanced
    have hchildren : ∀ {link other contributes grandchild},
        child link = .node other contributes grandchild → ∀ {st}, Ready c (child link).nodes st →
          ∃ out, c.multiNodeScalarReduce depth other 0 c.uninit st = some out ∧
            Visited op (child link) other 0 st out := by
      intro link other contributes' grandchild hchild st hst
      have hmem : (child link).nodes ∈ (finRange 11).map fun link => (child link).nodes :=
        mem_map.mpr ⟨link, mem_finRange link, rfl⟩
      have hle := Nat.succ_le_succ (sublist_flatten_of_mem hmem).length_le
      exact ih link hchild (hbelow link) (Nat.le_of_succ_le_succ (hle.trans hdepth)) 0 c.uninit hst
    obtain ⟨s, groups, hloop, hlinked, hflatten, hlength⟩ :=
      foldlM_links hlinks hchildren (finRange 11) ⟨[], 0, st1⟩ hready1
    -- the node's own contribution
    obtain ⟨s', groups', hlocal, hlinked', hflatten', hlength'⟩ :
        Brings op (c.multiNodeScalarReduce depth) id 11 s []
          ((if contributes then [id] else []).map (contribution op)) := by
      cases contributes with
      | false => exact linkStep_absent hself s
      | true => exact linkStep_local hself s
    have hall := hlinked.append hlinked'
    have hvalues : (groups ++ groups').flatten = contributions op (.node id contributes child) := by
      rw [flatten_append, hflatten, hflatten', contributions, contributors, map_append, map_flatMap]
      rfl
    have hlinks12 : (range 12).foldlM (c.linkStep (c.multiNodeScalarReduce depth) id)
        ⟨[], 0, st1⟩ = some s' := by
      rw [range_twelve, foldlM_append, hloop]
      simp only [Option.bind_eq_bind, Option.bind_some, foldlM_cons, foldlM_nil, hlocal]
      rfl
    obtain ⟨delivered, hdelivered, hgroups⟩ := hall.delivered
    rw [nil_append] at hdelivered
    have hcount : delivered.length = (groups ++ groups').length := hgroups.length_eq.symm
    have hpos : delivered ≠ [] := by
      intro hnil
      rw [hnil, length_nil] at hcount
      have hempty := eq_nil_of_length_eq_zero hcount.symm
      rw [hempty, flatten_nil] at hvalues
      exact hnonempty (map_eq_nil_iff.mp hvalues.symm)
    obtain ⟨localException, Result', hreduce, hexception, hcombine⟩ := scalarReduce_local hgroups
      hpos (by rw [hcount, length_append, length_finRange] at *; omega) vFlagsResult
      (if c.opCode = .add then c.Tree else none) Result
    have hoffset : s'.nodes.vNodeExceptions.isSome → c.offsetFits := by
      rw [hall.advanced.isSome]
      exact hready.offset
    obtain ⟨st', hstore, hstored, hcheck⟩ := store_eq hoffset id localException Result'
    refine ⟨(s'.globalException ||| localException, Result', st'), ?_, ?_, ?_, ?_, hcheck _⟩
    · have hroom := hready1.room
      have hlocals : ¬ s'.localContributions.length = 0 := by
        rw [hdelivered]
        exact fun h => hpos (eq_nil_of_length_eq_zero h)
      rw [multiNodeScalarReduce, if_neg (by omega), if_neg (not_not.mpr ⟨hmax, hfresh⟩)]
      simp only [st1] at hlinks12 hroom
      simp only [if_neg (not_not.mpr (show (↑(st.totalParticipation + 1) : Int) ≤
        (c.participationGeneration + 1) * (c.maxParticipant + 1) by omega)), hlinks12,
        if_neg hlocals]
      rw [← hdelivered] at hreduce
      simp only [hreduce, hstore]
    · rw [← hvalues, hcombine]
    · rw [← hvalues, hexception, hall.exception, noException_or]
    · have hend := (hadvanced.append hall.advanced).append hstored
      rw [append_nil, append_nil] at hend
      exact hend

/-- One reduction of the contributions of all `participants` -/
def flatArgs (c : Collective) (participants : List Nat) (vFlagsResult : BitVec 64) : Args where
  host := c.host
  offset := c.offset
  elementWords := c.elementWords
  numParticipants := participants.length
  vContribution p := c.vContribution (participants.getD p 0)
  vFlagsContribution := c.vFlagsContribution.map fun vFlags p => vFlags (participants.getD p 0)
  vFlagsResult := vFlagsResult

theorem flatArgs_values (op : Operator c.host c.elementWords c.opCode) (participants : List Nat)
    (vFlagsResult : BitVec 64) : let a := c.flatArgs participants vFlagsResult
    ((range a.numParticipants).map fun p => op.read (a.flags p) (a.element p)) =
      participants.map (contribution op) := by
  intro a
  rw [← map_range_getD _ participants 0]
  apply map_congr_left
  intro p _
  have hflags : a.flags p = c.flags (participants.getD p 0) := by
    simp only [Args.flags, Collective.flags, a, flatArgs]
    cases c.vFlagsContribution <;> rfl
  rw [hflags]
  rfl

theorem allNodeScalarReduce_eq (op : Operator c.host c.elementWords c.opCode) {t : CollectiveTree}
    {root : Nat} {contributes : Bool} (ht : t = .node root contributes child)
    (hroutes : t.Routes c.willParticipate)
    (hnodes : t.nodes.Perm (range (c.maxParticipant + 1).toNat))
    {vNodeExceptions : Option (Nat → Nat → BitVec 64)}
    (hoffset : vNodeExceptions.isSome → c.offsetFits) (vNodeResult : Option (Nat → Words))
    (vFlagsResult : BitVec 64) (Result : Words) :
    ∃ r Result' st, c.allNodeScalarReduce root vNodeExceptions vNodeResult vFlagsResult Result =
        some (r, Result', st) ∧ r = op.exception (contributions op t) ∧
      combineAll op.combine (contributions op t) = some (op.read vFlagsResult Result') := by
  let c' : Collective := { c with participationGeneration := 42 }
  let op' : Operator c'.host c'.elementWords c'.opCode := op
  have hmem : ∀ {n}, n ∈ t.nodes ↔ n < (c.maxParticipant + 1).toNat := fun {n} => by
    rw [hnodes.mem_iff, mem_range]
  have hroot : root < (c.maxParticipant + 1).toNat := hmem.mp (by rw [ht]; exact mem_cons_self)
  have hlength : t.nodes.length = (c.maxParticipant + 1).toNat := by
    rw [hnodes.length_eq, length_range]
  have hready : Ready c' t.nodes
      ⟨fun _ => 42, 42 * (c.maxParticipant + 1).toNat, vNodeExceptions, vNodeResult⟩ := by
    refine ⟨hnodes.nodup_iff.mpr nodup_range, fun n hn => ?_, fun _ _ => rfl, ?_, hoffset⟩
    · have := hmem.mp hn
      simp only [c']
      omega
    · rw [hlength]
      simp only [c']
      omega
  obtain ⟨⟨r, Result', st⟩, hrun, hvisited⟩ := multiNodeScalarReduce_visited op' t ht
    hroutes (le_of_eq (by omega : t.nodes.length = c.maxParticipant.toNat + 1)) vFlagsResult
    Result hready
  refine ⟨r, Result', st, ?_, hvisited.exception, hvisited.result⟩
  have hend : st.totalParticipation = (42 + 1) * (c.maxParticipant + 1).toNat ∧
      (range (c.maxParticipant.toNat + 1)).all
        fun i => st.nodeParticipation i == 42 + 1 := by
    refine ⟨?_, all_eq_true.mpr fun i hi => ?_⟩
    · have htotal := hvisited.advanced.total
      simp only at htotal
      omega
    · have hi' : i ∈ t.nodes := hmem.mpr (by have := mem_range.mp hi; omega)
      have hcount := hvisited.advanced.participation i
      rw [count_eq_one_of_mem (hnodes.nodup_iff.mpr nodup_range) hi'] at hcount
      rw [hcount, beq_self_eq_true]
  rw [allNodeScalarReduce, if_neg (by omega), if_neg (by omega)]
  simp only [c'] at hrun
  simp only [hrun]
  rw [if_pos hend]

end Collective

open Collective

def operatorOf (host : Host) (W : Nat) : (opCode : ColOpcode) → opCode ≠ .add →
    Operator host W opCode
  | .and, _ => logicReduction host W (.inl rfl)
  | .or, _ => logicReduction host W (.inr (.inl rfl))
  | .xor, _ => logicReduction host W (.inr (.inr rfl))
  | .u_add, _ => additionReduction host W
  | .u_min, _ => selectionReduction host W (.inl rfl)
  | .u_max, _ => selectionReduction host W (.inr (.inl rfl))
  | .min, _ => selectionReduction host W (.inr (.inr (.inl rfl)))
  | .max, _ => selectionReduction host W (.inr (.inr (.inr rfl)))
  | .add, h => absurd rfl h

theorem exception_u_add {host : Host} {W : Nat} {opCode : ColOpcode} (hop : opCode ≠ .add)
    (hadd : opCode = .u_add) (ns : List Nat) (flags : Nat → BitVec 64) (element : Nat → Words) :
    (operatorOf host W opCode hop).exception (ns.map fun n =>
        (operatorOf host W opCode hop).read (flags n) (element n)) &&& u_addOverflow ≠ 0 ↔
      2 ^ (32 * W) ≤ (ns.map fun n => (view host (flags n) W (element n)).toNat).sum := by
  subst hadd
  have hvalues : (ns.map fun n => (view host (flags n) W (element n)).toNat) =
      (ns.map fun n => view host (flags n) W (element n)).map BitVec.toNat := by
    rw [map_map]
    rfl
  rw [hvalues]
  change sumException (ns.map fun n => view host (flags n) W (element n)) &&& u_addOverflow ≠ 0 ↔ _
  rw [sumException]
  split
  · next h => exact iff_of_true (by decide) h
  · next h => exact iff_of_false (by decide) h

/-- For the logical operations, minimum, maximum and unsigned addition, the reduction
node by node over any collective tree gives the words of one flat reduction of all
contributions, in any order of the contributing nodes; the exceptions are those of the
flat reduction, and for the unsigned addition they hold the overflow flag exactly when
the exact sum does not fit in the words of an element. -/
theorem allNodeScalarReduce_eq_flat (c : Collective) (hop : c.opCode ≠ .add) (t : CollectiveTree)
    (root : Nat) (contributes : Bool) (child : Fin 11 → CollectiveTree)
    (ht : t = .node root contributes child) (hroutes : t.Routes c.willParticipate)
    (hnodes : t.nodes.Perm (range (c.maxParticipant + 1).toNat)) (participants : List Nat)
    (hperm : participants.Perm t.contributors) (hint : participants.length < 2 ^ 31)
    (vNodeExceptions : Option (Nat → Nat → BitVec 64))
    (hoffset : vNodeExceptions.isSome → c.offsetFits) (vNodeResult : Option (Nat → Words))
    (vFlagsResult : BitVec 64) (Result : Words) (build : Build) (cells : AdderCells)
    (flatResult : Words) :
    let flat := scalarReduce build (c.flatArgs participants vFlagsResult) c.opCode none cells
      flatResult
    ∃ r Result' st, c.allNodeScalarReduce root vNodeExceptions vNodeResult vFlagsResult Result =
        some (r, Result', st) ∧ (∀ i < c.elementWords, Result' i = flat.2 i) ∧ r = flat.1 ∧
      (c.opCode = .u_add → (r &&& u_addOverflow ≠ 0 ↔ 2 ^ (32 * c.elementWords) ≤
        (participants.map fun n =>
          (view c.host (c.flags n) c.elementWords (c.element n)).toNat).sum)) := by
  intro flat
  generalize hoperator : operatorOf c.host c.elementWords c.opCode hop = op
  have hassoc := op.associative
  have hcomm := op.commutative
  obtain ⟨r, Result', st, hrun, hexception, hresult⟩ :=
    allNodeScalarReduce_eq op ht hroutes hnodes hoffset vNodeResult vFlagsResult Result
  have hvalues := hperm.map (contribution op)
  rw [contributions, ← op.exception_perm hvalues] at hexception
  rw [contributions, ← combineAll_perm op.combine hvalues] at hresult
  have hpos : (c.flatArgs participants vFlagsResult).numParticipants ≠ 0 := by
    intro h
    have hnil : participants = [] := eq_nil_of_length_eq_zero h
    rw [hnil] at hperm
    exact contributors_ne_nil hroutes (by rw [ht]; simp) hperm.nil_eq.symm
  obtain ⟨flatResult', hflat, hcombine⟩ := op.reduces (c.flatArgs participants vFlagsResult)
    rfl rfl hpos hint build none cells flatResult
  rw [flatArgs_values op participants vFlagsResult] at hflat hcombine
  have hflat : flat = _ := hflat
  refine ⟨r, Result', st, hrun, ?_, by rw [hflat, hexception], fun hadd => ?_⟩
  · rw [hflat]
    exact op.word_eq (Option.some_inj.mp (hresult.symm.trans hcombine))
  · rw [hexception, ← hoperator]
    exact exception_u_add hop hadd participants c.flags c.element

def pairTree : CollectiveTree :=
  .node 0 true fun link => if link = 0 then .node 1 true fun _ => .absent else .absent

def pairCollective : Collective where
  host := ⟨true, 0⟩
  willParticipate node link := if link = 11 then node else if node = 0 ∧ link = 0 then 1 else -1
  maxParticipant := 1
  participationGeneration := 0
  offset := 0
  elementWords := 1
  opCode := .u_add
  Tree := none
  vContribution node _ := if node = 0 then 0xFFFFFFFF else 1
  vFlagsContribution := none
  uninit _ := 0
  cells := ⟨fun _ => 0, fun _ => false, 0⟩
  fits := by decide

theorem pairTree_routes : pairTree.Routes pairCollective.willParticipate := by
  have hnone : ∀ (node : Nat) (link : Fin 11), node ≠ 0 ∨ link ≠ 0 →
      pairCollective.willParticipate node link < 0 := by
    intro node link h
    simp only [pairCollective]
    rw [if_neg (by omega), if_neg (by simp at h ⊢; omega)]
    decide
  refine ⟨fun link => ?_, rfl, .inl rfl, fun link => ?_⟩ <;> by_cases hlink : link = 0
  · subst hlink
    exact rfl
  · simp only [if_neg hlink]
    exact hnone 0 link (.inr hlink)
  · simp only [if_pos hlink]
    exact ⟨fun link => hnone 1 link (.inl (by decide)), rfl, .inl rfl, fun _ => trivial⟩
  · simp only [if_neg hlink]
    trivial

theorem allNodeScalarReduce_pair :
    ∃ r Result st, pairCollective.allNodeScalarReduce 0 none none 0 (fun _ => 0) =
      some (r, Result, st) ∧ r &&& u_addOverflow ≠ 0 := by
  obtain ⟨r, Result, st, hrun, -, -, hoverflow⟩ := allNodeScalarReduce_eq_flat pairCollective
    (by decide) pairTree 0 true _ rfl pairTree_routes (by decide) [1, 0]
    (by decide) (by decide) none nofun
    none 0 (fun _ => 0) .c ⟨fun _ => 0, fun _ => false, 0⟩ (fun _ => 0)
  exact ⟨r, Result, st, hrun, (hoverflow rfl).mpr (by decide)⟩

end BgqDriver.NetworkReduce
