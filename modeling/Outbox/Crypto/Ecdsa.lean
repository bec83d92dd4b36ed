import Outbox.Crypto.Secp256k1
import Outbox.Crypto.Sha256

namespace Outbox

structure Signature where
  /-- Which of the points with abscissa `r` was used. -/
  recovery : Nat
  r : Nat
  s : Nat
deriving DecidableEq

namespace Ecdsa

open Secp256k1

/-- Looks for a number in range in the stream of keyed digests that starts from `k` and `v`. -/
def candidate : Nat → Bytes → Bytes → (Nat → Option Signature) → Option Signature
  | 0, _, _, _ => none
  | fuel + 1, k, v, use =>
    let v := Sha256.keyed k v
    let c := BigEndian.toNat v
    match if 0 < c ∧ c < n then use c else none with
    | some sig => some sig
    | none =>
      let k := Sha256.keyed k (v ++ [0])
      candidate fuel k (Sha256.keyed k v) use

/-- The signature with secret number `k`, unless one of its parts is zero. -/
def signWith (key z k : Nat) : Option Signature :=
  let (x, y) := coordinates (mul k base)
  let r := x % n
  let s := invMod k n * ((z + r * key) % n) % n
  if r = 0 ∨ s = 0 then none
  else
    let recovery := y % 2 + (if n ≤ x then 2 else 0)
    if n / 2 < s then some ⟨if recovery % 2 = 0 then recovery + 1 else recovery - 1, r, n - s⟩
    else some ⟨recovery, r, s⟩

/-- How many candidates are tried; each fails with a chance below 2^-127. -/
def attempts : Nat := 64

/-- The secret number comes from the key and the digest, so that signing twice gives the same bytes.
-/
def sign (key : Nat) (digest : Bytes) : Option Signature :=
  let z := BigEndian.toNat digest % n
  let seed := BigEndian.ofNat 32 key ++ BigEndian.ofNat 32 z
  let v := List.replicate 32 1
  let k := Sha256.keyed (List.replicate 32 0) (v ++ 0 :: seed)
  let v := Sha256.keyed k v
  let k := Sha256.keyed k (v ++ 1 :: seed)
  candidate attempts k (Sha256.keyed k v) (signWith key z)

end Ecdsa
end Outbox
