import Sxla.Library.Transition

/-!
# The work-stealing deque

One owner pushes and pops, any number of stealers steal. One step is one
access to the indices, to a slot's state or to a slot's data.

Elements are numbered in the order in which their pushes returned `Ok`. The
deque keeps which of them are in it, the oldest first, what the pops and
steals have taken, and for each slot whether its data has been read since it
was written.
-/

namespace Sxla

open Transition

namespace ChaseLev

/-- `isize::MAX`. -/
def ISIZE_MAX : Int := 0x7fffffffffffffff

inductive SlotState where
  | free
  | full
deriving DecidableEq, Repr

/-- `value` is `none` for memory that was never initialised. -/
structure Cell (α : Type) where
  value : Option α
  state : SlotState
  unread : Bool
deriving DecidableEq, Repr

/-- Where the owner stands, before the access of that name. `last` marks a pop
that has won the exchange for the last element. -/
inductive Owner (α : Type) where
  | idle
  | pushBottom (value : α)
  | pushTop (value : α) (b : Int)
  | pushState (value : α) (b : Int)
  | pushWrite (value : α) (b : Int)
  | pushFull (value : α) (b : Int)
  | pushStore (value : α) (b : Int)
  | popBottom
  | popStore (b : Int)
  | popTop (b : Int)
  | popExchange (b : Int)
  | popRestore (b : Int)
  | popRead (b : Int) (id : Nat) (last : Bool)
  | popFree (b : Int) (id : Nat) (value : Option α) (last : Bool)
  | popLast (b : Int) (id : Nat) (value : Option α)
  | panicked (b : Int)
deriving DecidableEq, Repr

inductive Stealer (α : Type) where
  | idle
  | stealBottom (t : Int)
  | stealExchange (t : Int)
  | stealState (t : Int) (id : Nat)
  | stealRead (t : Int) (id : Nat)
  | stealFree (t : Int) (id : Nat) (value : Option α)
deriving DecidableEq, Repr

structure Deque (α : Type) where
  bottom : Int
  top : Int
  cells : List (Cell α)
  mask : Nat
  owner : Owner α
  stealers : List (Stealer α)
  pushed : List α
  present : List Nat
  /-- What each call that returned `Ok` had taken and returned. -/
  returned : List (Nat × Option α)
  /-- In the order of the exchanges that won them. -/
  stolen : List Nat
  /-- What each pop has taken, and what was in the deque then. -/
  popped : List (Nat × List Nat)
  /-- Won by a steal that returned `Busy`. -/
  stranded : List Nat
deriving DecidableEq, Repr

inductive Action (α : Type) where
  | push (value : α)
  | pop
  | owner
  | steal (w : Nat)
  | stealer (w : Nat)
deriving DecidableEq, Repr

variable {α : Type}

/-- The physical slot of an index. -/
def slotOf (mask : Nat) (index : Int) : Nat := index.toNat &&& mask

namespace Deque

def new (capacity stealers : Nat) : Deque α where
  bottom := 0
  top := 0
  cells := List.replicate capacity ⟨none, .free, false⟩
  mask := capacity - 1
  owner := .idle
  stealers := List.replicate stealers .idle
  pushed := []
  present := []
  returned := []
  stolen := []
  popped := []
  stranded := []

def slot (d : Deque α) (index : Int) : Nat := slotOf d.mask index

def setCell (d : Deque α) (index : Int) (f : Cell α → Cell α) : Deque α :=
  { d with cells := d.cells.modify (d.slot index) f }

/-- The data and the state of a slot. -/
def value? (d : Deque α) (index : Int) : Option α :=
  (d.cells[d.slot index]?).bind (·.value)

def state? (d : Deque α) (index : Int) : Option SlotState :=
  (d.cells[d.slot index]?).map (·.state)

def move (d : Deque α) (owner : Owner α) : Deque α := { d with owner }

/-- The owner has the newest element, at index `b`. -/
def takeLast (d : Deque α) (b : Int) (last : Bool) : Deque α :=
  let id := d.present.getLast?.getD d.pushed.length
  { d with
    owner := .popRead b id last
    present := d.present.dropLast
    popped := d.popped ++ [(id, d.present)] }

/-- The next access of the owner's call. -/
def stepOwner (d : Deque α) : Option (Deque α) :=
  match d.owner with
  | .idle => none
  | .pushBottom value => some (d.move (.pushTop value d.bottom))
  | .pushTop value b =>
    some (d.move (if b - d.top ≥ d.mask ∨ b < 0 then .idle else .pushState value b))
  | .pushState value b =>
    some (d.move (if d.state? b = some .free then .pushWrite value b else .idle))
  | .pushWrite value b =>
    some ((d.setCell b ({ · with value := some value, unread := true })).move (.pushFull value b))
  | .pushFull value b =>
    some ((d.setCell b ({ · with state := .full })).move (.pushStore value b))
  | .pushStore value b =>
    if b + 1 > ISIZE_MAX then some (d.move (.panicked b))
    else
      some { d with
        bottom := b + 1
        owner := .idle
        pushed := d.pushed ++ [value]
        present := d.present ++ [d.pushed.length] }
  | .popBottom => some (d.move (.popStore (d.bottom - 1)))
  | .popStore b => some { d with bottom := b, owner := .popTop b }
  | .popTop b =>
    if d.top ≤ b then
      if b < 0 then some (d.move .idle)
      else if d.top = b then some (d.move (.popExchange b))
      else some (d.takeLast b false)
    else some (d.move (.popRestore b))
  | .popExchange b =>
    if d.top = b then some { d.takeLast b true with top := b + 1 }
    else some (d.move (.popRestore b))
  | .popRestore b => some { d with bottom := b + 1, owner := .idle }
  | .popRead b id last =>
    some ((d.setCell b ({ · with unread := false })).move (.popFree b id (d.value? b) last))
  | .popFree b id value last =>
    let d' := d.setCell b ({ · with state := .free })
    if last then some (d'.move (.popLast b id value))
    else some { d' with owner := .idle, returned := d.returned ++ [(id, value)] }
  | .popLast b id value =>
    some { d with bottom := b + 1, owner := .idle, returned := d.returned ++ [(id, value)] }
  | .panicked _ => none

def moveStealer (d : Deque α) (w : Nat) (stealer : Stealer α) : Deque α :=
  { d with stealers := d.stealers.set w stealer }

/-- The next access of a steal. -/
def stepStealer (d : Deque α) (w : Nat) : Stealer α → Option (Deque α)
  | .idle => none
  | .stealBottom t =>
    some (d.moveStealer w (if t ≥ d.bottom ∨ t < 0 then .idle else .stealExchange t))
  | .stealExchange t =>
    if d.top = t then
      let id := d.present.head?.getD d.pushed.length
      some { d.moveStealer w (.stealState t id) with
        top := t + 1
        present := d.present.tail
        stolen := d.stolen ++ [id] }
    else some (d.moveStealer w .idle)
  | .stealState t id =>
    if d.state? t = some .full then some (d.moveStealer w (.stealRead t id))
    else some { d.moveStealer w .idle with stranded := d.stranded ++ [id] }
  | .stealRead t id =>
    some ((d.setCell t ({ · with unread := false })).moveStealer w (.stealFree t id (d.value? t)))
  | .stealFree t id value =>
    some { (d.setCell t ({ · with state := .free })).moveStealer w .idle with
      returned := d.returned ++ [(id, value)] }

def step (d : Deque α) : Action α → Option (Deque α)
  | .push value => match d.owner with
    | .idle => some (d.move (.pushBottom value))
    | _ => none
  | .pop => match d.owner with
    | .idle => some (d.move .popBottom)
    | _ => none
  | .owner => d.stepOwner
  | .steal w => match d.stealers[w]? with
    | some .idle => some (d.moveStealer w (.stealBottom d.top))
    | _ => none
  | .stealer w => do d.stepStealer w (← d.stealers[w]?)

end Deque

end ChaseLev

end Sxla
