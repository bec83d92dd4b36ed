import Outbox.Finality
import Outbox.Transaction

namespace Outbox.Ledger

/-- What can be asked of a ledger. -/
inductive Query where
  | tip
  | header
  | head
  | estimate (call : Call)
  | number (who : Address)
  | submit (tx : Signed)
  | receipt (hash : Hash)
  | balance (who : Address)
  | call (call : Call)
deriving DecidableEq

/-- The newest block; without a base fee the chain has no dynamic pricing. -/
structure Header where
  number : Nat
  baseFee : Option Nat
deriving DecidableEq

inductive Answer where
  | amount (n : Nat)
  | header (h : Header)
  | accepted (hash : Hash)
  | receipt (r : Option Receipt)
  | data (bs : Bytes)
deriving DecidableEq

/-- Whether a chain prices with a base fee is read off its newest header. -/
def Header.supportsDynamicFee (h : Header) : Bool := h.baseFee.isSome

/-- The base fee that a header must carry where dynamic pricing is asked for. -/
def Header.requiredBaseFee (h : Header) : Except Failure Nat :=
  match h.baseFee with
  | some fee => .ok fee
  | none => .error (.remoteQuery "latest_header" "header carries no base fee")

end Outbox.Ledger
