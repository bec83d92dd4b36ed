import Outbox.Failure
import Outbox.Keyed
import Outbox.Nonce.State

namespace Outbox.Nonce

/-- A number held for one transaction. It can only be given back to the state that issued it. -/
structure Reservation where
  identity : Address
  nonce : Nat
  generation : Nat
deriving DecidableEq

/-- Tells that an identity's state was dropped, and what was lost. -/
structure Eviction where
  identity : Address
  next : Nat
  reclaimable : Nat
deriving DecidableEq

/-- Number states of the identities in use; the least recently used one makes room. Of callers that
ask the ledger for an absent identity, the first to be answered makes the state. -/
structure Allocator where
  capacity : Nat
  /-- Most recently used first. -/
  entries : Keyed Address State := []
  /-- How many states were ever created. -/
  generations : Nat := 0
  allocated : Nat := 0
  released : Nat := 0
  evicted : Nat := 0
  /-- Newest first. -/
  evictions : List Eviction := []

namespace Allocator

/-- A capacity of zero holds one identity. -/
def ofCapacity (n : Nat) : Allocator := { capacity := max n 1 }

/-- Writes a state and makes it the most recent one; a new identity may push out the oldest. -/
def store (a : Allocator) (who : Address) (s : State) : Allocator :=
  if a.entries.has who ∨ a.entries.length < a.capacity then
    { a with entries := a.entries.put who s }
  else
    match a.entries.getLast? with
    | none => { a with entries := [(who, s)] }
    | some (victim, lost) =>
      { a with
        entries := (who, s) :: a.entries.dropLast
        evicted := a.evicted + 1
        evictions := ⟨victim, lost.next, lost.reclaimed.length⟩ :: a.evictions }

/-- Issues a number from `s` and keeps what is left of it. -/
def issue [Counter] (a : Allocator) (who : Address) (s : State) : Reservation × Allocator :=
  let (n, s') := s.assign
  (⟨who, n, s.generation⟩, { a.store who s' with allocated := a.allocated + 1 })

/-- The next number of a resident identity. -/
def take? [Counter] (a : Allocator) (who : Address) : Option (Reservation × Allocator) :=
  (a.entries.get? who).map (a.issue who)

/-- Allocation once the ledger has answered `onChain`. A state that another caller installed
meanwhile is used instead of the answer. -/
def install [Counter] (a : Allocator) (who : Address) (onChain : Nat) : Reservation × Allocator :=
  match a.take? who with
  | some r => r
  | none =>
    let a := { a with generations := a.generations + 1 }
    a.issue who (State.start onChain a.generations)

/-- Gives a number back, to the state of `generation` only if one is named. A refusal changes no
number; it still counts as a use of a resident identity. -/
def release (a : Allocator) (who : Address) (n : Nat) (generation : Option Nat) :
    Except Refusal Unit × Allocator :=
  match a.entries.get? who with
  | none => (.error (.untracked n), a)
  | some s =>
    if generation.any (· ≠ s.generation) then
      (.error (.stale n), { a with entries := a.entries.put who s })
    else
      match s.release n with
      | .error e => (.error e, { a with entries := a.entries.put who s })
      | .ok s' =>
        (.ok (), { a with entries := a.entries.put who s', released := a.released + 1 })

/-- A reservation goes back to the state that issued it. -/
def giveBack (a : Allocator) (r : Reservation) : Except Refusal Unit × Allocator :=
  a.release r.identity r.nonce (some r.generation)

def peek (a : Allocator) (who : Address) : Except Refusal Nat :=
  match a.entries.get? who with
  | none => .error .noneAllocated
  | some s => .ok s.peek

/-- A fresh state whose first number is `next`. -/
def reset (a : Allocator) (who : Address) (next : Nat) : Allocator :=
  let a := { a with generations := a.generations + 1 }
  a.store who (State.start next a.generations)

def contains (a : Allocator) (who : Address) : Bool := a.entries.has who

end Allocator

def Refusal.asFailure (who : Address) (r : Refusal) : Failure := .nonce who r.message

/-- What a subscriber reads: the events since its last reading, of which only the newest
`kept` are still there. -/
structure Reading where
  missed : Nat
  events : List Eviction

/-- How many events are kept for a slow subscriber. -/
def kept : Nat := 256

/-- Oldest first. `seen` is how many events the subscriber has had or missed so far. -/
def Allocator.readEvictions (a : Allocator) (seen : Nat) : Reading :=
  let unread := a.evictions.length - seen
  ⟨unread - kept, (a.evictions.take (min unread kept)).reverse⟩

end Outbox.Nonce
