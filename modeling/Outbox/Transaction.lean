import Outbox.Address

namespace Outbox

/-- A flat price, or a pair of cap and tip on top of a base fee. -/
inductive Price where
  | legacy (price : Nat)
  | dynamic (maxFee tip : Nat)
deriving DecidableEq

namespace Price

/-- The most that a unit of gas can cost. -/
def most : Price → Nat
  | legacy p => p
  | dynamic maxFee _ => maxFee

def isDynamic : Price → Bool
  | legacy _ => false
  | dynamic _ _ => true

end Price

/-- Without a recipient the data is deployed as contract code. -/
structure Transaction where
  chainId : Nat
  nonce : Nat
  gasLimit : Nat
  price : Price
  recipient : Option Address
  value : Nat
  data : Bytes
deriving DecidableEq

structure Signed where
  hash : Hash
  sender : Address
  raw : Bytes
  tx : Transaction
deriving DecidableEq

/-- What is asked of a ledger for an estimate or a read-only call. -/
structure Call where
  sender : Option Address := none
  recipient : Option Address := none
  value : Nat := 0
  data : Bytes := []
  price : Option Price := none
deriving DecidableEq

/-- The price part of a form; the flat price may be left open. -/
inductive FormPrice where
  | legacy (price : Option Nat)
  | dynamic (maxFee tip : Nat)

/-- A transaction or call as a ledger is told of it; what is absent stays open. -/
structure Form where
  price : FormPrice
  sender : Option Address
  recipient : Option Address
  value : Nat
  data : Bytes
  nonce : Option Nat
  gas : Option Nat
  chainId : Option Nat

def Transaction.form (tx : Transaction) (sender : Address) : Form where
  price :=
    match tx.price with
    | .legacy p => .legacy (some p)
    | .dynamic maxFee tip => .dynamic maxFee tip
  sender := some sender
  recipient := tx.recipient
  value := tx.value
  data := tx.data
  nonce := some tx.nonce
  gas := some tx.gasLimit
  chainId := some tx.chainId

/-- A call without a price is put as a legacy form with an open price. -/
def Call.form (c : Call) : Form where
  price :=
    match c.price with
    | some (.dynamic maxFee tip) => .dynamic maxFee tip
    | some (.legacy p) => .legacy (some p)
    | none => .legacy none
  sender := c.sender
  recipient := c.recipient
  value := c.value
  data := c.data
  nonce := none
  gas := none
  chainId := none

/-- What a caller wants sent; number and price are chosen for it. -/
structure Request where
  recipient : Option Address := none
  value : Nat := 0
  data : Bytes := []
  /-- Zero asks for an estimate. -/
  gasLimit : Nat := 0
deriving DecidableEq

namespace Request

def transfer (payee : Address) (value : Nat) : Request :=
  { recipient := some payee, value := value }

def call (contract : Address) (data : Bytes) : Request :=
  { recipient := some contract, data := data }

def deploy (code : Bytes) : Request := { data := code }

def withValue (r : Request) (value : Nat) : Request := { r with value := value }

def withGasLimit (r : Request) (gasLimit : Nat) : Request := { r with gasLimit := gasLimit }

end Request
end Outbox
