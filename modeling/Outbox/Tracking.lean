import Outbox.Confirmer
import Outbox.Nonce.Allocator
import Outbox.Pending

namespace Outbox

open Nonce

/-- What the sending side remembers of transactions that it handed over. -/
structure Tracking where
  pending : Pending := {}
  /-- Numbers of transactions handed over and not yet reported sent or failed. -/
  enqueued : Keyed Hash Reservation := []
  waiters : List Hash := []
  /-- Failures for waiting senders whose transaction was never sent. -/
  rejected : Keyed Hash Failure := []
  sent : Nat := 0
  confirmed : Nat := 0
  failed : Nat := 0

namespace Tracking

def recordEnqueued (t : Tracking) (hash : Hash) (r : Reservation) : Tracking :=
  { t with enqueued := t.enqueued.put hash r }

def forgetEnqueued (t : Tracking) (hash : Hash) : Tracking :=
  { t with enqueued := t.enqueued.erase hash }

def addWaiter (t : Tracking) (hash : Hash) : Tracking :=
  { t with waiters := t.waiters.insert hash }

/-- A sender that stops waiting, for whatever reason, takes its traces with it. -/
def removeWaiter (t : Tracking) (hash : Hash) : Tracking :=
  { t with
    waiters := t.waiters.filter (· ≠ hash)
    pending := t.pending.clearSent hash
    rejected := t.rejected.erase hash }

def isWaiting (t : Tracking) (hash : Hash) : Bool := t.waiters.contains hash

/-- A rejection is told once. -/
def takeRejection (t : Tracking) (hash : Hash) : Option Failure × Tracking :=
  (t.rejected.get? hash, { t with rejected := t.rejected.erase hash })

/-- The end of a transaction. Without a waiter nobody else would clear the sent mark. -/
def settle (t : Tracking) (hash : Hash) : Tracking :=
  let pending := t.pending.clearUnconfirmed hash
  { t with pending := if t.isWaiting hash then pending else pending.clearSent hash }

def onSent (t : Tracking) (hash : Hash) : Tracking :=
  { t with
    enqueued := t.enqueued.erase hash
    pending := t.pending.markSent hash
    sent := t.sent + 1 }

def onConfirmed (t : Tracking) (hash : Hash) : Tracking :=
  { t.settle hash with confirmed := t.confirmed + 1 }

/-- A transaction that fails while it still holds its number never reached the ledger: the number
goes back, and a waiting sender is told the failure together with a failed return. -/
def onFailed (t : Tracking) (a : Allocator) (hash : Hash) (f : Failure) : Tracking × Allocator :=
  let t := { t with failed := t.failed + 1 }
  match t.enqueued.get? hash with
  | none => (t.settle hash, a)
  | some r =>
    let t := { t with enqueued := t.enqueued.erase hash }
    let (outcome, a) := a.giveBack r
    let release :=
      match outcome with
      | .ok () => none
      | .error e => some (e.asFailure r.identity)
    let t :=
      if t.isWaiting hash then
        { t with rejected := t.rejected.put hash (f.withRelease release) }
      else t
    (t.settle hash, a)

def report (t : Tracking) (a : Allocator) : Report → Tracking × Allocator
  | .sent hash => (t.onSent hash, a)
  | .confirmed hash => (t.onConfirmed hash, a)
  | .failed hash f => t.onFailed a hash f

end Tracking
end Outbox
