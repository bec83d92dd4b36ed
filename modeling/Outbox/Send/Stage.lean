import Outbox.Nonce.Allocator
import Outbox.Signer
import Outbox.Ledger.Query

namespace Outbox.Send

open Ledger

/-- Build only; submit and return; or hand over and wait for the end. -/
inductive Mode where
  | build
  | async
  | sync
deriving DecidableEq

/-- How far a send has come: what it waits for. -/
inductive Stage where
  /-- Does the chain have dynamic fees? -/
  | probe
  | tipTurn
  | tipAnswer
  | baseTurn (tip : Nat)
  | baseAnswer (tip : Nat)
  | estimate (price : Price)
  | number (price : Price) (gas : Nat)
  /-- The reservation goes back unless the ledger takes the transaction. -/
  | submit (tx : Signed) (held : Nonce.Reservation)
  | settle (hash : Hash)
deriving DecidableEq

/-- What a finished send hands to its caller. -/
inductive Outcome where
  | hash (hash : Hash)
  | built (tx : Signed) (held : Nonce.Reservation)
deriving DecidableEq

end Send

structure Send where
  mode : Send.Mode
  signer : Signer
  request : Request
  stage : Send.Stage

namespace Send

open Ledger

/-- The call by which gas is estimated; a flat price is not shown to the ledger. -/
def estimateCall (s : Send) (price : Price) : Call where
  sender := some s.signer.address
  recipient := s.request.recipient
  value := s.request.value
  data := s.request.data
  price := if price.isDynamic then some price else none

/-- What the ledger is asked in this stage. -/
def query? (s : Send) : Option Query :=
  match s.stage with
  | .probe => some .header
  | .tipTurn => none
  | .tipAnswer => some .tip
  | .baseTurn _ => none
  | .baseAnswer _ => some .header
  | .estimate price => some (.estimate (s.estimateCall price))
  | .number _ _ => some (.number s.signer.address)
  | .submit tx _ => some (.submit tx)
  | .settle _ => none

/-- What a caller is told that ran out of time. -/
def operation (s : Send) : String :=
  match s.mode with
  | .async => "async send"
  | _ => "build transaction"

end Send
end Outbox
