import Outbox.Fee.Cache

namespace Outbox.Fee

/-- A cache that many callers read, one at a time in order of arrival. The caller at the head of the
line has the cache to itself, also while its query is out, so that those behind it find its value.
-/
structure Shared (κ : Type) where
  cache : Cache
  /-- First come first; the head is the holder. -/
  line : List κ := []

namespace Shared

variable {κ : Type} [DecidableEq κ]

def join (s : Shared κ) (k : κ) : Shared κ := { s with line := s.line ++ [k] }

def hasTurn (s : Shared κ) (k : κ) : Bool := s.line.head? = some k

/-- Leaving, with or without an answer, hands the cache to the next in line. -/
def leave (s : Shared κ) (k : κ) : Shared κ := { s with line := s.line.filter (· ≠ k) }

/-- The holder completed a refresh. -/
def finish (s : Shared κ) (k : κ) (v : Nat) (now : Int) : Shared κ :=
  { s with cache := s.cache.refresh v now }.leave k

end Shared
end Outbox.Fee
