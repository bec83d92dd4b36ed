import Outbox.Crypto.Keccak
import Outbox.Failure
import Outbox.Transaction.Envelope

namespace Outbox

/-- All that is needed of a signing identity. -/
structure Signer where
  address : Address
  /-- A signature of a 32-byte digest. -/
  signature : Bytes → Option Signature

namespace Signer

/-- The address is cut from the digest of the public point. -/
def addressOf (key : Nat) : Address :=
  let (x, y) := Secp256k1.coordinates (Secp256k1.mul key Secp256k1.base)
  Address.ofBytes (Keccak.digest (BigEndian.ofNat 32 x ++ BigEndian.ofNat 32 y))

def ofKey (key : Nat) : Signer := ⟨addressOf key, Ecdsa.sign key⟩

/-- Signs for the chain that the transaction names. -/
def sign (who : Signer) (tx : Transaction) : Except Failure Signed :=
  match who.signature (Keccak.digest (Envelope.unsigned tx)) with
  | none => .error (.build "signing failed: signature error")
  | some sig =>
    let raw := Envelope.signed tx sig
    .ok ⟨Hash.ofBytes (Keccak.digest raw), who.address, raw, tx⟩

end Signer

/-- An address in which a letter is a capital where the digest of the text has a digit from 8 on. -/
def Address.checksummed (a : Address) : String :=
  let plain := Hex.encode a.bytes
  let marks := Hex.encode (Keccak.digest (plain.map fun c => UInt8.ofNat c.toNat))
  "0x" ++ String.ofList (List.zipWith (fun c m => if '8' ≤ m then c.toUpper else c) plain marks)

end Outbox
