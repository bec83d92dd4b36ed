import Outbox.Fee.Market
import Outbox.Send.Stage
import Outbox.Tracking

namespace Outbox

open Nonce

structure Terms where
  chainId : Nat
  /-- The price on a chain without base fee. -/
  staticPrice : Nat
  /-- How long a send waits for the end of its transaction. -/
  patience : Span
  /-- Milliseconds between two looks at a handed-over transaction. -/
  pollInterval : Nat

inductive Event where
  | enqueued (hash : Hash) (nonce : Nat)
  | tracked (hash : Hash)
  /-- A check that was put to somebody else than the ledger. -/
  | checked (hash : Hash) (required : Nat)
  | reported (report : Report)
deriving DecidableEq

/-- Where transactions are handed over: to a confirmer, or to somebody who reports by hand. It can
be told to refuse, and to force an identity's next number at every hand-over. -/
structure Tracker where
  reject : Option Failure := none
  reset : Option (Address × Nat) := none
  confirmer : Option Confirmer := none

/-- Sends are known by number. -/
abbrev SendId := Nat

/-- The state that sends share. Everything that reaches or leaves the tracker is kept as an event.
-/
structure Dispatch where
  terms : Terms
  tip : Fee.Shared SendId
  baseFee : Fee.Shared SendId
  allocator : Allocator
  tracker : Tracker := {}
  tracking : Tracking := {}
  started : Bool := false
  sends : Keyed SendId Send := []
  /-- Newest first. -/
  results : List (SendId × Except Fault Send.Outcome) := []
  /-- Newest first. -/
  events : List Event := []
  /-- Transactions that the ledger took from callers directly. -/
  submitted : Nat := 0
  /-- Waits that ended in time, and those that did not. -/
  answered : Nat := 0
  timedOut : Nat := 0

namespace Dispatch

def log (d : Dispatch) (e : Event) : Dispatch := { d with events := e :: d.events }

/-- A report takes effect on what is tracked. -/
def report (d : Dispatch) (r : Report) : Dispatch :=
  let d := d.log (.reported r)
  let (tracking, allocator) := d.tracking.report d.allocator r
  { d with tracking := tracking, allocator := allocator }

def reportAll (d : Dispatch) (rs : List Report) : Dispatch := rs.foldl report d

/-- Gives a number back; the error, if any, is for the caller. -/
def giveBack (d : Dispatch) (r : Reservation) : Option Failure × Dispatch :=
  let (outcome, a) := d.allocator.giveBack r
  let d := { d with allocator := a }
  match outcome with
  | .ok () => (none, d)
  | .error e => (some (e.asFailure r.identity), d)

def setStage (d : Dispatch) (k : SendId) (s : Send) (stage : Send.Stage) : Dispatch :=
  { d with sends := d.sends.put k { s with stage := stage } }

/-- The send is over. -/
def finish (d : Dispatch) (k : SendId) (r : Except Fault Send.Outcome) : Dispatch :=
  { d with sends := d.sends.erase k, results := (k, r) :: d.results }

def fail (d : Dispatch) (k : SendId) (f : Failure) : Dispatch := d.finish k (.error (.failed f))

/-- The effects that a tracker has been told to have before it looks at a job. -/
def meddle (d : Dispatch) : Dispatch :=
  match d.tracker.reset with
  | none => d
  | some (who, next) => { d with allocator := d.allocator.reset who next }

/-- Hands a job to the tracker. -/
def push (d : Dispatch) (job : Job) : Except Failure Dispatch :=
  match d.tracker.reject with
  | some f => .error f
  | none =>
    match d.tracker.confirmer with
    | none => .ok d
    | some c => (c.push job).map fun c =>
        { d with tracker := { d.tracker with confirmer := some c } }

/-- A hash that somebody else submitted is watched from now on. -/
def track (d : Dispatch) (hash : Hash) : Except Failure Unit × Dispatch :=
  let d := (d.log (.tracked hash)).meddle
  match d.push (.track hash) with
  | .error f => (.error f, d)
  | .ok d => (.ok (), d)

end Dispatch
end Outbox
