import BgqDriver.InterruptMessages

/-!
One sender and one target: the slot between them, its bit, what has been posted and handled, and
what the two threads are doing with it.
-/

namespace BgqDriver.InterruptMessages

open List

variable {F : Type}

inductive Storing (F : Type)
  | none
  | fcn (m : Message F)
  | param1 (m : Message F)
  | param2 (m : Message F)
  | interrupt (m : Message F)
deriving DecidableEq

inductive Taking (F : Type)
  | none
  | take (stage : TakeStage) (copy : Message F)
  | check (seen : Nat) (stage : CheckStage) (copy : Message F)

structure Pair (F : Type) where
  slot : Message F
  bit : Bool
  posted : List (Message F)
  handled : List (Message F)
  storing : Storing F
  taking : Taking F

def SendStage.storing (m : Message F) : SendStage → Storing F
  | .check | .spin => .none
  | .storeFcn => .fcn m
  | .storeParam1 => .param1 m
  | .storeParam2 => .param2 m
  | .interrupt => .interrupt m

def Thread.storing (th : Thread F) (t : Nat) : Storing F :=
  match th.calls with
  | .send target m stage :: _ => if target = t then stage.storing m else .none
  | _ => .none

variable {base : Base F} {calls : List (Call F)} {stage : TakeStage} {t s source : Nat}
  {T : Taking F}

theorem storing_send {m : Message F} {stage : SendStage} :
    Thread.storing ⟨base, .send t m stage :: calls⟩ t = stage.storing m := if_pos rfl

theorem storing_send_ne {target : Nat} {m : Message F} {stage : SendStage} (h : t ≠ target) :
    Thread.storing ⟨base, .send target m stage :: calls⟩ t = .none := if_neg (Ne.symm h)

def FlihStage.taking : FlihStage F → Taking F
  | .take stage copy => .take stage copy
  | _ => .none

def CheckStage.taking (seen : Nat) (copy : Message F) : CheckStage → Taking F
  | .look => .none
  | stage => .check seen stage copy

def Base.taking (b : Base F) (s : Nat) : Taking F :=
  match b with
  | .idle => .none
  | .flih _ _ i stage => if i = s then stage.taking else .none
  | .checker i seen stage copy => if i = s then stage.taking seen copy else .none

def AvoidStage.taking : AvoidStage F → Taking F
  | .status => .none
  | .test => .take .fcn .empty
  | .take stage copy => .take stage copy

/-- How far the thread is with taking the message of `s` -/
def Thread.taking (th : Thread F) (s : Nat) : Taking F :=
  match th.calls with
  | [] => th.base.taking s
  | .avoid source stage :: _ => if source = s then stage.taking else .none
  | _ => .none

theorem taking_avoid {stage : AvoidStage F} :
    Thread.taking ⟨base, .avoid s stage :: calls⟩ s = stage.taking := if_pos rfl

theorem taking_avoid_ne {stage : AvoidStage F} (h : s ≠ source) :
    Thread.taking ⟨base, .avoid source stage :: calls⟩ s = .none := if_neg (Ne.symm h)

/-- What concerns the messages from `s` to `t` -/
def Node.pair (n : Node F) (s t : Nat) : Pair F where
  slot := n.slots s t
  bit := n.bits s t
  posted := n.posted s t
  handled := n.handled s t
  storing := (n.threads s).storing t
  taking := (n.threads t).taking s

/-- The message that is off the slot and about to be handled -/
def Taking.inHand : Taking F → List (Message F)
  | .take .call copy => if copy.fcn.isSome then [copy] else []
  | .check _ .call copy => [copy]
  | _ => []

/-- The sender has begun to store a message that is not complete yet. -/
def Storing.incomplete : Storing F → Bool
  | .param1 _ | .param2 _ => true
  | _ => false

/-- The message in the slot, once it is complete -/
def Pair.recorded (p : Pair F) : List (Message F) :=
  if p.slot.fcn.isSome ∧ p.storing.incomplete = false then [p.slot] else []

/-- The messages that have been posted are those handled, in the same order, with one that is
being handled and the one in the slot after them. -/
def Pair.Accounted (p : Pair F) : Prop :=
  p.handled ++ p.taking.inHand ++ p.recorded = p.posted

def Pair.Pending (p : Pair F) : Prop := p.slot.fcn.isSome ∧ p.storing = .none

def TakeStage.Agree (copy slot : Message F) : TakeStage → Prop
  | .fcn => True
  | .param1 => copy.fcn = slot.fcn
  | .param2 => copy.fcn = slot.fcn ∧ copy.param1 = slot.param1
  | .clear | .release | .call => copy = slot

def CheckStage.Agree (copy slot : Message F) : CheckStage → Prop
  | .look | .fcn => True
  | .param1 => copy.fcn = slot.fcn
  | .param2 => copy.fcn = slot.fcn ∧ copy.param1 = slot.param1
  | .test | .poll _ | .release | .call => copy = slot

def CheckStage.found : CheckStage → Bool
  | .poll _ | .release => true
  | _ => false

def Storing.Stored (slot : Message F) (bit : Bool) : Storing F → Prop
  | .none => True
  | .fcn m => m.fcn.isSome ∧ slot.fcn = Option.none
  | .param1 m => m.fcn.isSome ∧ bit = false ∧ slot.fcn = m.fcn
  | .param2 m => m.fcn.isSome ∧ bit = false ∧ slot.fcn = m.fcn ∧ slot.param1 = m.param1
  | .interrupt m => m.fcn.isSome ∧ bit = false ∧ slot = m

def Pair.Checked (p : Pair F) (seen : Nat) (stage : CheckStage) (copy : Message F) : Prop :=
  seen ≤ p.posted.length ∧
    (p.posted.length = seen → p.storing.incomplete = false → stage.Agree copy p.slot) ∧
    (stage.found = true → p.slot.fcn.isSome)

structure Pair.Ok (p : Pair F) : Prop where
  bit : p.bit = true → p.Pending
  stored : p.storing.Stored p.slot p.bit
  called : ∀ copy, p.taking = .take .call copy → copy.fcn.isSome
  taken : ∀ stage copy, p.taking = .take stage copy → stage ≠ .call →
    p.Pending ∧ stage.Agree copy p.slot
  cleared : ∀ copy, p.taking = .take .release copy → p.bit = false
  checked : ∀ seen stage copy, p.taking = .check seen stage copy → stage ≠ .call →
    p.Checked seen stage copy
  accounted : p.Accounted

inductive Move : Pair F → Pair F → Prop
  | begin {p : Pair F} (m : Message F) (hnone : p.storing = .none) (hfree : p.slot.fcn = none)
      (hm : m.fcn.isSome) : Move p { p with storing := .fcn m }
  | storeFcn {p : Pair F} (m : Message F) (hstoring : p.storing = .fcn m) :
      Move p { p with slot := { p.slot with fcn := m.fcn }, storing := .param1 m }
  | storeParam1 {p : Pair F} (m : Message F) (hstoring : p.storing = .param1 m) :
      Move p { p with slot := { p.slot with param1 := m.param1 }, storing := .param2 m }
  | storeParam2 {p : Pair F} (m : Message F) (hstoring : p.storing = .param2 m) :
      Move p { p with
        slot := { p.slot with param2 := m.param2 }
        posted := p.posted ++ [m]
        storing := .interrupt m }
  | interrupt {p : Pair F} (m : Message F) (hstoring : p.storing = .interrupt m) :
      Move p { p with bit := true, storing := .none }
  | lose {p : Pair F} : Move p { p with bit := false }
  | start {p : Pair F} (hnone : p.taking = .none) (hpending : p.Pending) :
      Move p { p with taking := .take .fcn .empty }
  | take {p : Pair F} (stage stage' : TakeStage) (copy copy' : Message F) (source : Nat)
      (htaking : p.taking = .take stage copy) (hcall : stage ≠ .call)
      (hnext : takeNext p.slot copy source stage = (stage', copy', .none)) :
      Move p { p with taking := .take stage' copy' }
  | clear {p : Pair F} (copy : Message F) (htaking : p.taking = .take .clear copy) :
      Move p { p with bit := false, taking := .take .release copy }
  | release {p : Pair F} (copy : Message F) (htaking : p.taking = .take .release copy) :
      Move p { p with slot := { p.slot with fcn := none }, taking := .take .call copy }
  | call {p : Pair F} (copy : Message F) (htaking : p.taking = .take .call copy) :
      Move p { p with handled := p.handled ++ [copy], taking := .none }
  | leave {p : Pair F} (hnone : p.taking.inHand = []) : Move p { p with taking := .none }
  | look {p : Pair F} (hnone : p.taking = .none) :
      Move p { p with taking := .check p.posted.length .fcn .empty }
  | check {p : Pair F} (seen : Nat) (stage stage' : CheckStage) (copy copy' : Message F)
      (htaking : p.taking = .check seen stage copy) (hcall : stage ≠ .call ∧ stage' ≠ .call)
      (hagree : stage.Agree copy p.slot → stage'.Agree copy' p.slot)
      (hfound : stage'.found = true → p.slot.fcn.isSome) :
      Move p { p with taking := .check seen stage' copy' }
  | checkRelease {p : Pair F} (seen : Nat) (copy : Message F)
      (htaking : p.taking = .check seen .release copy) (hidle : p.storing = .none)
      (hsame : p.posted.length = seen) (hbit : p.bit = false) :
      Move p { p with slot := { p.slot with fcn := none }, taking := .check seen .call copy }
  | checkCall {p : Pair F} (seen : Nat) (copy : Message F)
      (htaking : p.taking = .check seen .call copy) :
      Move p { p with handled := p.handled ++ [copy], taking := .none }

theorem recorded_of_pending {p : Pair F} (h : p.Pending) : p.recorded = [p.slot] := by
  rw [Pair.recorded, h.2, if_pos ⟨h.1, rfl⟩]

section Moves

variable {p : Pair F} {m copy : Message F}

section

variable (h : p.Ok)
include h

theorem Pair.Ok.stored_of {S : Storing F} (hstoring : p.storing = S) :
    S.Stored p.slot p.bit := hstoring ▸ h.stored

theorem Pair.Ok.not_taken (hstoring : p.storing ≠ .none)
    (htaking : p.taking = .take stage copy) : stage = .call := by
  by_contra hne
  exact hstoring (h.taken stage copy htaking hne).1.2

theorem Pair.Ok.bit_false (hfree : p.slot.fcn = none) : p.bit = false := by
  rw [Bool.eq_false_iff]
  intro hbit
  have hpending := (h.bit hbit).1
  simp [hfree] at hpending

theorem Pair.Ok.begin (hnone : p.storing = .none) (hfree : p.slot.fcn = none)
    (hm : m.fcn.isSome) : { p with storing := .fcn m }.Ok where
  bit := by simp [h.bit_false hfree]
  stored := ⟨hm, hfree⟩
  called := h.called
  taken := by
    intro stage copy htaking hne
    have hpending := (h.taken stage copy htaking hne).1.1
    simp [hfree] at hpending
  cleared := h.cleared
  checked := by
    intro seen stage copy htaking hne
    obtain ⟨hseen, hagree, hfound⟩ := h.checked seen stage copy htaking hne
    exact ⟨hseen, fun hsame _ => hagree hsame (by rw [hnone]; rfl), hfound⟩
  accounted := by
    simpa [Pair.Accounted, Pair.recorded, hfree] using h.accounted

theorem Pair.Ok.storeFcn (hstoring : p.storing = .fcn m) :
    { p with slot := { p.slot with fcn := m.fcn }, storing := .param1 m }.Ok := by
  have hstored : m.fcn.isSome ∧ p.slot.fcn = none := h.stored_of hstoring
  have hbit := h.bit_false hstored.2
  refine ⟨by simp [hbit], ⟨hstored.1, hbit, rfl⟩, h.called, ?_, h.cleared, ?_, ?_⟩
  · intro stage copy htaking hne
    exact absurd (h.not_taken (by simp [hstoring]) htaking) hne
  · intro seen stage copy htaking hne
    exact ⟨(h.checked seen stage copy htaking hne).1, by simp [Storing.incomplete],
      fun _ => hstored.1⟩
  · simpa [Pair.Accounted, Pair.recorded, hstored.2, Storing.incomplete] using h.accounted

theorem Pair.Ok.storeParam1 (hstoring : p.storing = .param1 m) :
    { p with slot := { p.slot with param1 := m.param1 }, storing := .param2 m }.Ok := by
  have hstored : m.fcn.isSome ∧ p.bit = false ∧ p.slot.fcn = m.fcn := h.stored_of hstoring
  refine ⟨by simp [hstored.2.1], ⟨hstored.1, hstored.2.1, hstored.2.2, rfl⟩, h.called, ?_,
    h.cleared, ?_, ?_⟩
  · intro stage copy htaking hne
    exact absurd (h.not_taken (by simp [hstoring]) htaking) hne
  · intro seen stage copy htaking hne
    obtain ⟨hseen, -, hfound⟩ := h.checked seen stage copy htaking hne
    exact ⟨hseen, by simp [Storing.incomplete], hfound⟩
  · simpa [Pair.Accounted, Pair.recorded, hstoring, Storing.incomplete] using h.accounted

theorem Pair.Ok.storeParam2 (hstoring : p.storing = .param2 m) : { p with
      slot := { p.slot with param2 := m.param2 }
      posted := p.posted ++ [m]
      storing := .interrupt m }.Ok := by
  obtain ⟨hm, hbit, hfcn, hparam1⟩ : m.fcn.isSome ∧ p.bit = false ∧ p.slot.fcn = m.fcn ∧
      p.slot.param1 = m.param1 := h.stored_of hstoring
  have hslot : Message.mk p.slot.fcn p.slot.param1 m.param2 = m := by
    rw [hfcn, hparam1]
  refine ⟨by simp [hbit], ⟨hm, hbit, hslot⟩, h.called, ?_, h.cleared, ?_, ?_⟩
  · intro stage copy htaking hne
    exact absurd (h.not_taken (by simp [hstoring]) htaking) hne
  · intro seen stage copy htaking hne
    obtain ⟨hseen, -, hfound⟩ := h.checked seen stage copy htaking hne
    refine ⟨?_, ?_, hfound⟩
    · simpa using Nat.le_succ_of_le hseen
    · intro hsame
      simp only [length_append, length_singleton] at hsame
      omega
  · have haccounted := h.accounted
    simp only [Pair.Accounted, Pair.recorded, hstoring, Storing.incomplete, Bool.true_eq_false,
      and_false, if_false, append_nil] at haccounted
    have hsome : p.slot.fcn.isSome := hfcn ▸ hm
    simp only [Pair.Accounted, Pair.recorded, hslot, Storing.incomplete, hsome, and_self,
      if_true, haccounted]

theorem Pair.Ok.interrupt (hstoring : p.storing = .interrupt m) :
    { p with bit := true, storing := .none }.Ok := by
  obtain ⟨hm, -, hslot⟩ : m.fcn.isSome ∧ p.bit = false ∧ p.slot = m := h.stored_of hstoring
  refine ⟨fun _ => ⟨hslot ▸ hm, rfl⟩, trivial, h.called, ?_, ?_, ?_, ?_⟩
  · intro stage copy htaking hne
    exact absurd (h.not_taken (by simp [hstoring]) htaking) hne
  · intro copy htaking
    have hcall := h.not_taken (by simp [hstoring]) htaking
    simp at hcall
  · intro seen stage copy htaking hne
    obtain ⟨hseen, hagree, hfound⟩ := h.checked seen stage copy htaking hne
    exact ⟨hseen, fun hsame _ => hagree hsame (by rw [hstoring]; rfl), hfound⟩
  · simpa [Pair.Accounted, Pair.recorded, hstoring, Storing.incomplete] using h.accounted

theorem Pair.Ok.lose : { p with bit := false }.Ok := by
  refine ⟨by simp, ?_, h.called, h.taken, fun _ _ => rfl, h.checked, h.accounted⟩
  have hstored := h.stored
  cases hstoring : p.storing <;> rw [hstoring] at hstored
  case none => trivial
  case fcn => exact hstored
  all_goals exact ⟨hstored.1, rfl, hstored.2.2⟩

theorem Pair.Ok.retake (hbefore : p.taking.inHand = []) (hafter : T.inHand = [])
    (hcalled : ∀ copy, T ≠ .take .call copy)
    (htaken : ∀ stage copy, T = .take stage copy → p.Pending ∧ stage.Agree copy p.slot)
    (hcleared : ∀ copy, T = .take .release copy → p.bit = false)
    (hchecked : ∀ seen stage copy, T = .check seen stage copy → p.Checked seen stage copy) :
    { p with taking := T }.Ok := by
  refine ⟨h.bit, h.stored, fun copy hT => absurd hT (hcalled copy), ?_, hcleared, ?_, ?_⟩
  · intro stage copy hT _
    exact htaken stage copy hT
  · intro seen stage copy hT _
    exact hchecked seen stage copy hT
  · have haccounted := h.accounted
    rw [Pair.Accounted, hbefore] at haccounted
    rw [Pair.Accounted, hafter]
    exact haccounted

theorem Pair.Ok.leave (hnone : p.taking.inHand = []) : { p with taking := .none }.Ok :=
  h.retake hnone rfl (by simp) (by simp) (by simp) (by simp)

theorem Pair.Ok.hold (hpending : p.Pending) (hbit : p.bit = false)
    (hbefore : p.taking.inHand = []) (hafter : T.inHand = [p.slot])
    (hcalled : ∀ copy, T = .take .call copy → copy = p.slot)
    (htaken : ∀ stage copy, T = .take stage copy → stage = .call)
    (hchecked : ∀ seen stage copy, T = .check seen stage copy → stage = .call) :
    { p with slot := { p.slot with fcn := none }, taking := T }.Ok := by
  refine ⟨by simp [hbit], ?_, ?_, ?_, fun _ _ => hbit, ?_, ?_⟩
  · simp only [hpending.2]
    trivial
  · intro copy hT
    rw [hcalled copy hT]
    exact hpending.1
  · intro stage copy hT hne
    exact absurd (htaken stage copy hT) hne
  · intro seen stage copy hT hne
    exact absurd (hchecked seen stage copy hT) hne
  · have haccounted := h.accounted
    rw [Pair.Accounted, hbefore, recorded_of_pending hpending, append_nil] at haccounted
    simpa [Pair.Accounted, hafter, Pair.recorded] using haccounted

theorem Pair.Ok.hand (hhand : p.taking.inHand = [copy]) :
    { p with handled := p.handled ++ [copy], taking := .none }.Ok := by
  refine ⟨h.bit, h.stored, by simp, by simp, by simp, by simp, ?_⟩
  have haccounted := h.accounted
  rw [Pair.Accounted, hhand] at haccounted
  simpa [Pair.Accounted, Pair.recorded, Taking.inHand] using haccounted

end

end Moves

theorem inHand_take {copy : Message F} (h : stage ≠ .call) :
    (Taking.take stage copy).inHand = [] := by
  cases stage <;> first | rfl | exact absurd rfl h

theorem inHand_check {seen : Nat} {stage : CheckStage} {copy : Message F} (h : stage ≠ .call) :
    (Taking.check seen stage copy).inHand = [] := by
  cases stage <;> first | rfl | exact absurd rfl h

theorem takeNext_agree {slot copy copy' : Message F} {stage' : TakeStage}
    (hnext : takeNext slot copy source stage = (stage', copy', .none)) (hcall : stage ≠ .call)
    (hagree : stage.Agree copy slot) :
    (stage' ≠ .call ∧ stage' ≠ .release) ∧ stage'.Agree copy' slot := by
  cases stage with
  | fcn =>
    cases hnext
    exact ⟨by simp, rfl⟩
  | param1 =>
    cases hnext
    exact ⟨by simp, hagree, rfl⟩
  | param2 =>
    cases hnext
    refine ⟨by simp, ?_⟩
    change { copy with param2 := slot.param2 } = slot
    rw [hagree.1, hagree.2]
  | clear | release => simp [takeNext] at hnext
  | call => exact absurd rfl hcall

theorem Move.ok {p q : Pair F} (hmove : Move p q) (h : p.Ok) : q.Ok := by
  cases hmove with
  | begin m hnone hfree hm => exact h.begin hnone hfree hm
  | storeFcn m hstoring => exact h.storeFcn hstoring
  | storeParam1 m hstoring => exact h.storeParam1 hstoring
  | storeParam2 m hstoring => exact h.storeParam2 hstoring
  | interrupt m hstoring => exact h.interrupt hstoring
  | lose => exact h.lose
  | start hnone hpending =>
    refine h.retake (by rw [hnone]; rfl) rfl (by simp) ?_ (by simp) (by simp)
    rintro stage copy ⟨⟩
    exact ⟨hpending, trivial⟩
  | take stage stage' copy copy' source htaking hcall hnext =>
    obtain ⟨hpending, hagree⟩ := h.taken stage copy htaking hcall
    obtain ⟨hcall', hagree'⟩ := takeNext_agree hnext hcall hagree
    refine h.retake (by rw [htaking]; exact inHand_take hcall) (inHand_take hcall'.1) ?_ ?_ ?_
      (by simp)
    · rintro _ ⟨⟩
      exact hcall'.1 rfl
    · rintro _ _ ⟨⟩
      exact ⟨hpending, hagree'⟩
    · rintro _ ⟨⟩
      exact absurd rfl hcall'.2
  | clear copy htaking =>
    obtain ⟨hpending, hagree⟩ := h.taken .clear copy htaking (by simp)
    refine h.lose.retake (by rw [htaking]; rfl) rfl (by simp) ?_ (fun _ _ => rfl) (by simp)
    rintro _ _ ⟨⟩
    exact ⟨hpending, hagree⟩
  | release copy htaking =>
    obtain ⟨hpending, hagree⟩ := h.taken .release copy htaking (by simp)
    have hcopy : copy = p.slot := hagree
    subst hcopy
    refine h.hold hpending (h.cleared _ htaking) (by rw [htaking]; rfl) ?_ ?_ ?_ (by simp)
    · rw [Taking.inHand, if_pos hpending.1]
    · rintro _ ⟨⟩
      rfl
    · rintro _ _ ⟨⟩
      rfl
  | call copy htaking =>
    refine h.hand ?_
    rw [htaking, Taking.inHand, if_pos (h.called copy htaking)]
  | leave hnone => exact h.leave hnone
  | look hnone =>
    refine h.retake (by rw [hnone]; rfl) rfl (by simp) (by simp) (by simp) ?_
    rintro _ _ _ ⟨⟩
    exact ⟨Nat.le_refl _, fun _ _ => trivial, by simp [CheckStage.found]⟩
  | check seen stage stage' copy copy' htaking hcall hagree hfound =>
    obtain ⟨hseen, hold, -⟩ := h.checked seen stage copy htaking hcall.1
    refine h.retake (by rw [htaking]; exact inHand_check hcall.1) (inHand_check hcall.2)
      (by simp) (by simp) (by simp) ?_
    rintro _ _ _ ⟨⟩
    exact ⟨hseen, fun hsame hcomplete => hagree (hold hsame hcomplete), hfound⟩
  | checkRelease seen copy htaking hidle hsame hbit =>
    obtain ⟨-, hagree, hfound⟩ := h.checked seen .release copy htaking (by simp)
    have hcopy : copy = p.slot := hagree hsame (by rw [hidle]; rfl)
    subst hcopy
    exact h.hold ⟨hfound rfl, hidle⟩ hbit (by rw [htaking]; rfl) rfl (by simp) (by simp)
      (by rintro _ _ _ ⟨⟩; rfl)
  | checkCall seen copy htaking => exact h.hand (by rw [htaking]; rfl)

end BgqDriver.InterruptMessages
