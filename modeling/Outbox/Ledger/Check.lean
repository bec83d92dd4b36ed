import Outbox.Ledger.Script

namespace Outbox.Ledger

/-- How far a check has come. -/
inductive Check where
  | receipt
  | head (included : Nat)
deriving DecidableEq

namespace Check

def query (hash : Hash) : Check → Query
  | receipt => .receipt hash
  | head _ => .head

/-- The next stage, or the verdict. A failed query is a verdict too. -/
def answer (hash : Hash) (required : Nat) :
    Check → Except Failure Answer → Check ⊕ Except Failure Unit
  | _, .error f => .inr (.error f)
  | receipt, .ok (.receipt r) =>
    match Finality.read hash r with
    | .decided f => .inr (.error f)
    | .includedAt b => .inl (head b)
  | head b, .ok (.amount n) => .inr (Finality.depth hash required b n)
  | c, .ok _ => .inl c

end Check

/-- The whole check on a ledger that answers without delay. -/
def Script.check (s : Script) (hash : Hash) (required : Nat) : Except Failure Unit × Script :=
  let (a, s) := s.ask (Check.receipt.query hash)
  match Check.receipt.answer hash required a with
  | .inr verdict => (verdict, s)
  | .inl c =>
    let (a, s) := s.ask (c.query hash)
    match c.answer hash required a with
    | .inr verdict => (verdict, s)
    | .inl _ => (.error (.notFound hash), s)

end Outbox.Ledger
