import Outbox.Keyed
import Outbox.Ledger.Query

namespace Outbox.Ledger

/-- The kinds of query that can be told to fail, to take time, or to move the clock. -/
inductive Method where
  | tip
  | header
  | head
  | estimate
  | number
  | submit
  | receipt
  | balance
  | call
deriving DecidableEq

def Query.method : Query → Method
  | tip => .tip
  | header => .header
  | head => .head
  | estimate _ => .estimate
  | number _ => .number
  | submit _ => .submit
  | receipt _ => .receipt
  | balance _ => .balance
  | call _ => .call

/-- A failure that stays, or one for the next few queries. -/
structure Outage where
  failure : Failure
  remaining : Option Nat

/-- A ledger that follows a script. A query is logged when it is put and answered from the state at
the time of the answer. -/
structure Script where
  chainId : Nat := 31337
  tip : Nat := 1000000000
  baseFee : Option Nat := some 1000000000
  block : Nat := 100
  gas : Nat := 21000
  clock : Int := 0
  numbers : Keyed Address Nat := []
  balances : Keyed Address Nat := []
  receipts : Keyed Hash Receipt := []
  /-- The status of the receipt that every submission gets at once. -/
  autoMine : Option Nat := none
  outages : Keyed Method Outage := []
  /-- Milliseconds. -/
  delays : Keyed Method Nat := []
  clockSteps : Keyed Method Int := []
  /-- Submitted hashes, newest first. -/
  taken : List Hash := []
  /-- Queries put, newest first. -/
  log : List Query := []

namespace Script

/-- The query is under way; its answer comes after the delay. -/
def put (s : Script) (q : Query) : Script := { s with log := q :: s.log }

def delay (s : Script) (q : Query) : Nat := (s.delays.get? q.method).getD 0

def tick (s : Script) (m : Method) : Script :=
  { s with clock := s.clock + (s.clockSteps.get? m).getD 0 }

/-- The failure in force for a method; a counted one is used up by one. -/
def outage (s : Script) (m : Method) : Option Failure × Script :=
  match s.outages.get? m with
  | none => (none, s)
  | some ⟨f, none⟩ => (some f, s)
  | some ⟨_, some 0⟩ => (none, s)
  | some ⟨f, some (n + 1)⟩ => (some f, { s with outages := s.outages.put m ⟨f, some n⟩ })

def takeIn (s : Script) (tx : Signed) : Script :=
  let s := { s with taken := tx.hash :: s.taken }
  match s.autoMine with
  | none => s
  | some status => { s with receipts := s.receipts.put tx.hash ⟨some s.block, some status⟩ }

/-- The answer from the present state. A call echoes its data. -/
def read (s : Script) : Query → Answer × Script
  | .tip => (.amount s.tip, s)
  | .header => (.header ⟨s.block, s.baseFee⟩, s)
  | .head => (.amount s.block, s)
  | .estimate _ => (.amount s.gas, s)
  | .number who => (.amount ((s.numbers.get? who).getD 0), s)
  | .submit tx => (.accepted tx.hash, s.takeIn tx)
  | .receipt hash => (.receipt (s.receipts.get? hash), s)
  | .balance who => (.amount ((s.balances.get? who).getD 0), s)
  | .call c => (.data c.data, s)

/-- The end of a query: the clock moves, then it fails or is answered. -/
def answer (s : Script) (q : Query) : Except Failure Answer × Script :=
  match (s.tick q.method).outage q.method with
  | (some f, s) => (.error f, s)
  | (none, s) =>
    let (a, s) := s.read q
    (.ok a, s)

/-- A query without a delay in between. -/
def ask (s : Script) (q : Query) : Except Failure Answer × Script := (s.put q).answer q

/-- The queries since the last reading of the log, oldest first. -/
def takeLog (s : Script) : List Query × Script := (s.log.reverse, { s with log := [] })

end Script

/-- A query whose answer is a number. -/
def Script.askAmount (s : Script) (q : Query) : Except Failure Nat × Script :=
  match s.ask q with
  | (.ok (.amount n), s) => (.ok n, s)
  | (.ok _, s) => (.error (.internal "unexpected answer"), s)
  | (.error f, s) => (.error f, s)

end Outbox.Ledger
