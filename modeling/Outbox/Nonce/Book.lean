import Outbox.Nonce.Allocator

namespace Outbox.Nonce

/-- Reservations in the hands of callers. Each is settled once: committed, given back, or dropped,
and a dropped one is given back as well. A caller whose identity is absent waits for the ledger. -/
structure Book (κ : Type) where
  allocator : Allocator
  held : Keyed κ Reservation := []
  waiting : Keyed κ Address := []

namespace Book

variable {κ : Type} [DecidableEq κ]

/-- What a dropped reservation returns is not reported to anyone. -/
def dropQuietly (a : Allocator) (r : Reservation) : Allocator := (a.giveBack r).2

/-- Holds `r` as `k`; what `k` held before is dropped. -/
def hold (b : Book κ) (k : κ) (r : Reservation) : Book κ :=
  match b.held.get? k with
  | none => { b with held := b.held.put k r }
  | some old =>
    { b with allocator := dropQuietly b.allocator old, held := b.held.put k r }

/-- Reserves at once if the identity is resident. -/
def reserve? [Counter] (b : Book κ) (k : κ) (who : Address) : Option (Reservation × Book κ) :=
  (b.allocator.take? who).map fun (r, a) => (r, { b with allocator := a }.hold k r)

/-- Reserves with the ledger's answer. -/
def install [Counter] (b : Book κ) (k : κ) (who : Address) (onChain : Nat) :
    Reservation × Book κ :=
  let (r, a) := b.allocator.install who onChain
  (r, { b with allocator := a }.hold k r)

/-- The number was used. -/
def commit? (b : Book κ) (k : κ) : Option (Nat × Book κ) :=
  (b.held.get? k).map fun r => (r.nonce, { b with held := b.held.erase k })

/-- The number was not used. -/
def giveBack? (b : Book κ) (k : κ) : Option (Except Failure Unit × Book κ) :=
  (b.held.get? k).map fun r =>
    let (outcome, a) := b.allocator.giveBack r
    (outcome.mapError (Refusal.asFailure r.identity),
      { b with allocator := a, held := b.held.erase k })

def drop? (b : Book κ) (k : κ) : Option (Book κ) :=
  (b.held.get? k).map fun r =>
    { b with allocator := dropQuietly b.allocator r, held := b.held.erase k }

def park (b : Book κ) (k : κ) (who : Address) : Book κ :=
  { b with waiting := b.waiting.put k who }

/-- A caller that goes away while it waits leaves nothing behind. -/
def unpark (b : Book κ) (k : κ) : Book κ := { b with waiting := b.waiting.erase k }

end Book
end Outbox.Nonce
