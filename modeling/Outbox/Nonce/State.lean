namespace Outbox.Nonce

/-- What comes after a number. -/
class Counter where
  after : Nat → Nat

namespace Counter

/-- Counts on without end. This one is meant where none is named; `Book.run_endless` and
`Dispatch.run_endless` say how long the one that runs does the same. -/
instance endless : Counter := ⟨fun n => n + 1⟩

/-- How many numbers 64 bits can tell apart. -/
def wordSize : Nat := 0x10000000000000000

/-- The counter that runs: in 64 bits, so that the greatest number is followed by zero. -/
@[reducible] def word : Counter := ⟨fun n => (n + 1) % wordSize⟩

@[simp] theorem after_endless (n : Nat) : after n = n + 1 := rfl

end Counter

/-- The numbers one identity may use next: those given back and all from `next` on, the smallest one
first. -/
structure State where
  /-- The least number never issued, or the least of a run of numbers all given back. -/
  next : Nat
  /-- Numbers given back, ascending, all below `next`. -/
  reclaimed : List Nat
  /-- Which creation of a state this is, over all identities. -/
  generation : Nat
deriving DecidableEq

/-- Why a number cannot be given back, or cannot be told. -/
inductive Refusal where
  | neverIssued (n next : Nat)
  | alreadyReleased (n : Nat)
  | untracked (n : Nat)
  | stale (n : Nat)
  | noneAllocated
deriving DecidableEq

def Refusal.message : Refusal → String
  | neverIssued n next =>
    "nonce " ++ toString n ++ " was never issued (next " ++ toString next ++ ")"
  | alreadyReleased n => "nonce " ++ toString n ++ " already released"
  | untracked n => "cannot release " ++ toString n ++ ": identity not tracked"
  | stale n =>
    "stale release of " ++ toString n ++
      ": state was re-synchronized or reset since allocation"
  | noneAllocated => "identity has no allocated nonce"

namespace State

def start (next generation : Nat) : State := ⟨next, [], generation⟩

/-- The smallest free number. -/
def peek (s : State) : Nat := s.reclaimed.head?.getD s.next

/-- Issues the smallest free number. -/
def assign [Counter] (s : State) : Nat × State :=
  match s.reclaimed with
  | [] => (s.next, { s with next := Counter.after s.next })
  | n :: rest => (n, { s with reclaimed := rest })

def insertAscending (n : Nat) : List Nat → List Nat
  | [] => [n]
  | m :: rest => if n < m then n :: m :: rest else m :: insertAscending n rest

/-- Of released numbers in descending order, those that reach up to `next` become unissued again. -/
def foldTail : Nat → List Nat → Nat × List Nat
  | next, [] => (next, [])
  | next, n :: below => if n + 1 = next then foldTail n below else (next, n :: below)

def fold (s : State) : State :=
  let (next, below) := foldTail s.next s.reclaimed.reverse
  { s with next := next, reclaimed := below.reverse }

/-- Gives `n` back. It must lie below `next` and not be free already. -/
def release (s : State) (n : Nat) : Except Refusal State :=
  if s.next ≤ n then .error (.neverIssued n s.next)
  else if n ∈ s.reclaimed then .error (.alreadyReleased n)
  else .ok { s with reclaimed := insertAscending n s.reclaimed }.fold

end State
end Outbox.Nonce
