import BgqDriver.EventRuns

/-!
Model of the database transactions that the real-time server follows in the database log:
`realtime/server/db2/Transactions.cc`, `Transaction.cc`, the record kinds of
`DbChangesMonitor.cc`, and the merging of changes in
`bgsched/realtime/ClientEventListenerImpl.cc` and `ClientEventListenerV2Impl.cc`.

The bytes of a log record are read outside of the model: a record has its kind, its
transaction id and the change that its table makes of it. The statuses are those of a type
that the model does not look into.
-/

namespace BgqDriver.DbTransactions

inductive Entity
  | block (name : String)
  | job (id : Nat)
deriving DecidableEq

inductive Dimension
  | a
  | b
  | c
  | d
deriving DecidableEq

inductive Item
  | entity (e : Entity)
  | midplane (location : String)
  | nodeBoard (location : String)
  | node (location : String)
  | switch (midplane : String) (dimension : Dimension)
  | torusCable (source target : String)
  | ioCable (source target : String)
  | ioDrawer (location : String)
  | ioNode (location : String)
deriving DecidableEq

/-- `AbstractDatabaseChange` and its subclasses. The constructors with a status are families:
one class for every kind of item. -/
inductive Change (σ : Type)
  | added (entity : Entity) (status : σ) (seqId : Nat)
  | stateChanged (item : Item) (status : σ) (seqId : Nat) (prevStatus : σ) (prevSeqId : Nat)
  | deleted (entity : Entity) (prevSeqId : Nat)
  | ras (recordId : Nat)
deriving DecidableEq

variable {σ : Type}

/-- `merge`: the changed object, if the other change could be merged into it. -/
def Change.merge : Change σ → Change σ → Option (Change σ)
  | .added entity _ _, .stateChanged item status seqId _ _ =>
    if item = .entity entity then some (.added entity status seqId) else none
  | .stateChanged item _ _ prevStatus prevSeqId, .stateChanged item' status seqId _ _ =>
    if item = item' then some (.stateChanged item status seqId prevStatus prevSeqId) else none
  | _, _ => none

structure Transaction (σ : Type) where
  maxXactCond : Bool
  dbChanges : List (Change σ)
deriving DecidableEq

inductive Notice
  | maxXactCondition
  | maxXactConditionEnd
deriving DecidableEq

def Transaction.empty : Transaction σ := ⟨false, []⟩

/-- The loop of `_merge`, over the changes from the last one backwards. -/
def mergeReversed (change : Change σ) : List (Change σ) → Option (List (Change σ))
  | [] => none
  | cur :: rest =>
    match cur.merge change with
    | some cur' => some (cur' :: rest)
    | none => (mergeReversed change rest).map (cur :: ·)

/-- `Transaction::_merge` -/
def mergeChange (changes : List (Change σ)) (change : Change σ) : Option (List (Change σ)) :=
  (mergeReversed change changes.reverse).map List.reverse

def Transaction.change (maxSize : Nat) (t : Transaction σ) (change : Change σ) :
    Transaction σ × Option Notice :=
  if t.maxXactCond then (t, none)
  else
    match mergeChange t.dbChanges change with
    | some merged => ({ t with dbChanges := merged }, none)
    | none =>
      if t.dbChanges.length = maxSize then
        (⟨true, []⟩, some .maxXactCondition)
      else ({ t with dbChanges := t.dbChanges ++ [change] }, none)

/-- `Transaction::_end` -/
def Transaction.endNotice (t : Transaction σ) : Option Notice :=
  if t.maxXactCond then some .maxXactConditionEnd else none

/-- What `Transaction::commit` hands on -/
def Transaction.commit (t : Transaction σ) : List (Change σ) :=
  if t.maxXactCond then [] else t.dbChanges

abbrev Tid := Vector (Fin 256) 6

/-- The difference of the first two bytes that are not the same -/
def firstDifference : List (Fin 256) → List (Fin 256) → Int
  | a :: as, b :: bs => if a = b then firstDifference as bs else (a.val : Int) - b.val
  | _, _ => 0

/-- The contract of `memcmp`: the sign of the result is that of the first difference. -/
def IsMemcmp (memcmp : Tid → Tid → Int) : Prop :=
  ∀ a b, (memcmp a b).sign = (firstDifference a.toList b.toList).sign

/-- `tid_t::operator <` -/
def tidLt (memcmp : Tid → Tid → Int) (a b : Tid) : Bool := memcmp a b == -1

def equivalent (memcmp : Tid → Tid → Int) (a b : Tid) : Bool :=
  !tidLt memcmp a b && !tidLt memcmp b a

abbrev TransactionMap (σ : Type) := List (Tid × Transaction σ)

section Map

variable (memcmp : Tid → Tid → Int)

/-- `std::map::find` -/
def find (tmap : TransactionMap σ) (tid : Tid) : Option (Transaction σ) :=
  (List.find? (fun entry => equivalent memcmp tid entry.1) tmap).map Prod.snd

/-- `std::map::operator []` with a change of the transaction that it gives -/
def upsert (tmap : TransactionMap σ) (tid : Tid) (f : Transaction σ → Transaction σ) :
    TransactionMap σ :=
  match tmap with
  | [] => [(tid, f Transaction.empty)]
  | entry :: rest =>
    if equivalent memcmp tid entry.1 then (entry.1, f entry.2) :: rest
    else entry :: upsert rest tid f

def erase (tmap : TransactionMap σ) (tid : Tid) : TransactionMap σ :=
  List.eraseP (fun entry => equivalent memcmp tid entry.1) tmap

end Map

/-- A log record, by its kind -/
inductive Record (σ : Type)
  /-- A normal record, with the change of a known table, and the flag that it commits -/
  | normal (tid : Tid) (change : Option (Change σ)) (commits : Bool)
  | commit (tid : Tid)
  | rollback (tid : Tid)
  | compensation (tid : Tid)
  | other (tid : Tid)
deriving DecidableEq

structure State (σ : Type) where
  tmap : TransactionMap σ
  /-- What has been handed on -/
  dbChanges : List (Change σ)
  notices : List Notice

def State.init : State σ := ⟨[], [], []⟩

section Step

variable (memcmp : Tid → Tid → Int) (maxSize : Nat)

/-- `Transactions::change` -/
def State.change (s : State σ) (tid : Tid) (change : Change σ) : State σ :=
  let t := (find memcmp s.tmap tid).getD Transaction.empty
  { s with
    tmap := upsert memcmp s.tmap tid fun t => (t.change maxSize change).1
    notices := s.notices ++ (t.change maxSize change).2.toList }

/-- `Transactions::commit` -/
def State.commit (s : State σ) (tid : Tid) : State σ :=
  match find memcmp s.tmap tid with
  | none => s
  | some t =>
    { tmap := erase memcmp s.tmap tid
      dbChanges := s.dbChanges ++ t.commit
      notices := s.notices ++ t.endNotice.toList }

/-- `Transactions::rollback` -/
def State.rollback (s : State σ) (tid : Tid) : State σ :=
  match find memcmp s.tmap tid with
  | none => s
  | some t =>
    { s with
      tmap := erase memcmp s.tmap tid
      notices := s.notices ++ t.endNotice.toList }

/-- `_processLogRecord` -/
def step (s : State σ) : Record σ → Option (State σ)
  | .normal tid change commits =>
    let s := change.elim s (s.change memcmp maxSize tid)
    some (if commits then s.commit memcmp tid else s)
  | .commit tid => some (s.commit memcmp tid)
  | .rollback tid => some (s.rollback memcmp tid)
  | .compensation _ => some s
  | .other _ => some s

end Step

end BgqDriver.DbTransactions
