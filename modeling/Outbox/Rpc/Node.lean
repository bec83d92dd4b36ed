import Outbox.Ledger.Query
import Outbox.Rpc.Endpoint
import Outbox.Rpc.Json

namespace Outbox.Rpc

open Ledger

structure Message where
  method : String
  /-- Absent where a method takes none. -/
  params : Option (List Json)

inductive Trouble where
  | unreachable
  /-- The answer is no JSON-RPC, or its result has the wrong form. -/
  | garbled
  | refused (code : String) (message : String) (data : Option Json)
  | noLatestBlock
  /-- A number is larger than 64 bits where no more are kept. -/
  | tooWide

namespace Trouble

/-- The texts that are this library's own; what went wrong on the way is told by others. -/
def message? : Trouble → Option String
  | unreachable => none
  | garbled => none
  | refused code message data =>
    let shown := match data with
      | none => "None"
      | some j => "Some(" ++ j.shown ++ ")"
    some ("(code: " ++ code ++ ", message: " ++ message ++ ", data: " ++ shown ++ ")")
  | noLatestBlock => some "no latest block"
  | tooWide => some "Integer overflow when casting to u64"

end Trouble

/-- Carries a message to the endpoint and its result back. -/
abbrev Link := Message → Except Trouble Json

/-- The link of an endpoint that cannot be reached. -/
def Link.down : Link := fun _ => .error .unreachable

def hexDigits (n : Nat) : String := "0x" ++ String.ofList (Nat.toDigits 16 n)

def quantity (n : Nat) : Json := .text (hexDigits n)

def field (name : String) (j : Json) : List (String × Json) := [(name, j)]

def optional {α : Type} (name : String) (f : α → Json) : Option α → List (String × Json)
  | none => []
  | some a => [(name, f a)]

def address (a : Address) : Json := .text a.text

/-- A form names its kind, and leaves out what is open. -/
def form (f : Form) : Json :=
  let common := optional "from" address f.sender ++ optional "to" address f.recipient ++
    optional "gas" quantity f.gas ++ field "value" (quantity f.value) ++
    field "data" (.text (Hex.text f.data)) ++ optional "nonce" quantity f.nonce ++
    optional "chainId" quantity f.chainId
  match f.price with
  | .legacy price => .object (field "type" (.text "0x00") ++ common ++
      optional "gasPrice" quantity price)
  | .dynamic maxFee tip => .object (field "type" (.text "0x02") ++ common ++
      field "accessList" (.array []) ++ field "maxPriorityFeePerGas" (quantity tip) ++
      field "maxFeePerGas" (quantity maxFee))

def latest : Json := .text "latest"

def chainIdMessage : Message := ⟨"eth_chainId", none⟩

def Message.ofQuery : Query → Message
  | .tip => ⟨"eth_maxPriorityFeePerGas", none⟩
  | .header => ⟨"eth_getBlockByNumber", some [latest, .boolean false]⟩
  | .head => ⟨"eth_blockNumber", none⟩
  | .estimate c => ⟨"eth_estimateGas", some [form c.form]⟩
  | .number who => ⟨"eth_getTransactionCount", some [address who, latest]⟩
  | .submit tx => ⟨"eth_sendRawTransaction", some [.text (Hex.text tx.raw)]⟩
  | .receipt hash => ⟨"eth_getTransactionReceipt", some [.text hash.text]⟩
  | .balance who => ⟨"eth_getBalance", some [address who, latest]⟩
  | .call c => ⟨"eth_call", some [form c.form, latest]⟩

/-- What a failed query is called. -/
def operation : Query → String
  | .tip => "suggest_priority_fee"
  | .header => "latest_header"
  | .head => "block_number"
  | .estimate _ => "estimate_gas"
  | .number _ => "sequence_number"
  | .submit _ => "submit"
  | .receipt _ => "receipt"
  | .balance _ => "balance"
  | .call _ => "call"

/-- Hexadecimal digits with or without a mark, at least one of them, below `bound`. -/
def quantity? (bound : Nat) (j : Json) : Except Trouble Nat :=
  match j with
  | .text s =>
    let digits := match s.toList with
      | '0' :: 'x' :: ds => ds
      | ds => ds
    match digits.foldl (fun n c => do return 16 * (← n) + (← Hex.value? c)) (some 0) with
    | none => .error .garbled
    | some n => if digits ≠ [] ∧ n < bound then .ok n else .error .garbled
  | _ => .error .garbled

def wide? (j : Json) : Except Trouble Nat := quantity? (Nat.pow 2 256) j

def short? (j : Json) : Except Trouble Nat := quantity? (Nat.pow 2 64) j

/-- A wide number of which 64 bits are kept. -/
def narrowed? (j : Json) : Except Trouble Nat := do
  let n ← wide? j
  if n < Nat.pow 2 64 then return n else throw .tooWide

/-- A field that may be missing or null. -/
def maybe {α : Type} (read : Json → Except Trouble α) : Option Json → Except Trouble (Option α)
  | none => .ok none
  | some .null => .ok none
  | some j => (read j).map some

/-- A header without a number counts as the first. -/
def header? (j : Json) : Except Trouble Header :=
  match j with
  | .null => .error .noLatestBlock
  | .object _ => do
    let number ← maybe short? (j.get? "number")
    let baseFee ← maybe wide? (j.get? "baseFeePerGas")
    return ⟨number.getD 0, baseFee⟩
  | _ => .error .garbled

def bytes? (j : Json) : Except Trouble Bytes :=
  match j with
  | .text s =>
    match Hex.ofText? s with
    | some bs => .ok bs
    | none => .error .garbled
  | _ => .error .garbled

def hash? (j : Json) : Except Trouble Hash := do
  let bs ← bytes? j
  if bs.length = 32 then return Hash.ofBytes bs else throw .garbled

/-- A receipt must name its transaction. -/
def receipt? (j : Json) : Except Trouble (Option Receipt) :=
  match j with
  | .null => .ok none
  | .object _ => do
    match j.get? "transactionHash" with
    | none => throw .garbled
    | some h => do
      let _ ← hash? h
      let block ← maybe short? (j.get? "blockNumber")
      let status ← maybe short? (j.get? "status")
      return some ⟨block, status⟩
  | _ => .error .garbled

def answer? (q : Query) (j : Json) : Except Trouble Answer :=
  match q with
  | .tip | .estimate _ | .balance _ => (wide? j).map .amount
  | .head => (short? j).map .amount
  | .number _ => (narrowed? j).map .amount
  | .header => (header? j).map .header
  | .submit _ => (hash? j).map .accepted
  | .receipt _ => (receipt? j).map .receipt
  | .call _ => (bytes? j).map .data

structure Node where
  endpoint : String
  chainId : Nat

inductive Disconnect where
  | badEndpoint (endpoint : String) (defect : BadEndpoint)
  | query (operation : String) (trouble : Trouble)

def Disconnect.asFailure : Disconnect → Failure
  | badEndpoint endpoint defect =>
    .configuration ("invalid endpoint (" ++ endpoint ++ "): " ++ defect.message)
  | query operation trouble => .remoteQuery operation (trouble.message?.getD "")

/-- A connection begins with the chain id; every request later is for that chain. -/
def connect (link : Link) (endpoint : String) : Except Disconnect Node :=
  match Endpoint.defect? endpoint with
  | some defect => .error (.badEndpoint endpoint defect)
  | none =>
    match (link chainIdMessage).bind narrowed? with
    | .error t => .error (.query "chain_id" t)
    | .ok id => .ok ⟨endpoint, id⟩

/-- A refused submission is a failed submission; every other trouble is a failed query. -/
def ask (link : Link) (q : Query) : Except Failure Answer :=
  match (link (Message.ofQuery q)).bind (answer? q) with
  | .ok a => .ok a
  | .error t =>
    let text := t.message?.getD ""
    match q with
    | .submit _ => .error (.submission text none)
    | _ => .error (.remoteQuery (operation q) text)

/-- An endpoint is healthy if it tells its newest block. -/
def isHealthy (link : Link) : Bool := (ask link .head).toOption.isSome

end Outbox.Rpc
