import Outbox.Crypto.Ecdsa
import Outbox.Transaction
import Outbox.Wire.Rlp

namespace Outbox.Envelope

/-- The recipient of a deployment is empty. -/
def recipient : Option Address → Rlp
  | none => .bytes []
  | some a => .bytes a.bytes

/-- The fields that both formats share, in their common order. -/
def body (tx : Transaction) : List Rlp :=
  [.ofNat tx.gasLimit, recipient tx.recipient, .ofNat tx.value, .bytes tx.data]

def dynamicFields (tx : Transaction) (maxFee tip : Nat) : List Rlp :=
  [.ofNat tx.chainId, .ofNat tx.nonce, .ofNat tip, .ofNat maxFee] ++ body tx ++ [.list []]

def dynamicMark : UInt8 := 2

/-- What is hashed for signing. -/
def unsigned (tx : Transaction) : Bytes :=
  match tx.price with
  | .legacy p =>
    (Rlp.list ([.ofNat tx.nonce, .ofNat p] ++ body tx ++
      [.ofNat tx.chainId, .ofNat 0, .ofNat 0])).encode
  | .dynamic maxFee tip => dynamicMark :: (Rlp.list (dynamicFields tx maxFee tip)).encode

/-- The legacy signature item that carries the chain id. -/
def legacyMark (chainId recovery : Nat) : Nat := recovery + 35 + 2 * chainId

def signed (tx : Transaction) (sig : Signature) : Bytes :=
  match tx.price with
  | .legacy p =>
    (Rlp.list ([.ofNat tx.nonce, .ofNat p] ++ body tx ++
      [.ofNat (legacyMark tx.chainId sig.recovery), .ofNat sig.r, .ofNat sig.s])).encode
  | .dynamic maxFee tip =>
    dynamicMark :: (Rlp.list (dynamicFields tx maxFee tip ++
      [.ofNat sig.recovery, .ofNat sig.r, .ofNat sig.s])).encode

/-- An address item has twenty bytes or none. -/
def recipient? : Bytes → Option (Option Address)
  | [] => some none
  | bs => if bs.length = 20 then some (some (Address.ofBytes bs)) else none

/-- Reads a signed transaction back, both parts of it; nothing may be left over. -/
def read? (raw : Bytes) : Option (Transaction × Signature) :=
  match raw with
  | [] => none
  | b :: rest =>
    if b = dynamicMark then
      match Rlp.decode? (rest.length + 1) rest with
      | some (.list [.bytes chain, .bytes nonce, .bytes tip, .bytes maxFee, .bytes gas, .bytes payee,
          .bytes value, .bytes data, .list [], .bytes v, .bytes r, .bytes s], []) => do
        let payee ← recipient? payee
        return (
          { chainId := BigEndian.toNat chain, nonce := BigEndian.toNat nonce
            gasLimit := BigEndian.toNat gas
            price := .dynamic (BigEndian.toNat maxFee) (BigEndian.toNat tip)
            recipient := payee, value := BigEndian.toNat value, data := data },
          ⟨BigEndian.toNat v, BigEndian.toNat r, BigEndian.toNat s⟩)
      | _ => none
    else
      match Rlp.decode? (raw.length + 1) raw with
      | some (.list [.bytes nonce, .bytes price, .bytes gas, .bytes payee, .bytes value, .bytes data,
          .bytes v, .bytes r, .bytes s], []) => do
        let payee ← recipient? payee
        let mark := BigEndian.toNat v
        return (
          { chainId := (mark - 35) / 2, nonce := BigEndian.toNat nonce
            gasLimit := BigEndian.toNat gas, price := .legacy (BigEndian.toNat price)
            recipient := payee, value := BigEndian.toNat value, data := data },
          ⟨(mark - 35) % 2, BigEndian.toNat r, BigEndian.toNat s⟩)
      | _ => none

end Outbox.Envelope
