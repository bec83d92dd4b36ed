import Outbox.Fee.Cap
import Outbox.Fee.Shared
import Outbox.Ledger.Script

namespace Outbox.Fee

open Ledger

inductive Kind where
  | tip
  | baseFee
deriving DecidableEq

def Kind.query : Kind → Query
  | tip => .tip
  | baseFee => .header

/-- The fee in the ledger's answer. A header must carry a base fee. -/
def Kind.ofAnswer (kind : Kind) : Except Failure Answer → Except Failure Nat
  | .error f => .error f
  | .ok (.amount n) => .ok n
  | .ok (.header h) => h.requiredBaseFee
  | .ok _ => .error (.remoteQuery (match kind with
      | tip => "suggest_priority_fee"
      | baseFee => "latest_header") "unexpected answer")

/-- Whose seconds decide about expiry: the ledger's, or a clock that stands still meanwhile. -/
inductive Clock where
  | ledger
  | still
deriving DecidableEq

def Clock.now : Clock → Script → Int
  | ledger, s => s.clock
  | still, _ => 0

/-- A fresh value is served as it is; otherwise the ledger is asked once, and only success is
kept. -/
def get (kind : Kind) (clock : Clock) (c : Cache) (s : Script) :
    Except Failure Nat × Cache × Script :=
  match c.fresh? (clock.now s) with
  | some v => (.ok v, c, s)
  | none =>
    let (a, s) := s.ask kind.query
    match kind.ofAnswer a with
    | .error f => (.error f, c, s)
    | .ok v => (.ok v, c.refresh v (clock.now s), s)

/-- Callers that stand in line together are served one after the other. -/
def getInLine (kind : Kind) (clock : Clock) : Nat → Cache → Script →
    List (Except Failure Nat) × Cache × Script
  | 0, c, s => ([], c, s)
  | callers + 1, c, s =>
    let (r, c, s) := get kind clock c s
    let (rs, c, s) := getInLine kind clock callers c s
    (r :: rs, c, s)

/-- The cap for `tip` over the kept base fee. -/
def capOver (tip : Nat) : Except Failure Nat → Except Failure Nat
  | .error f => .error f
  | .ok baseFee => cap tip baseFee

end Outbox.Fee
