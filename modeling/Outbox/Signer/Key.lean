import Outbox.Signer
import Outbox.Text.Blank
import Outbox.Text.Quoted

namespace Outbox.Signer

inductive BadKey where
  | oddDigits
  | badCharacter (c : Char) (index : Nat)
  | badLength
  | outOfRange
deriving DecidableEq

def BadKey.message : BadKey → String
  | oddDigits => "odd number of digits"
  | badCharacter c index =>
    "invalid character " ++ Text.quotedChar c ++ " at position " ++ toString index
  | badLength => "invalid string length"
  | outOfRange => "signature error"

def dropMarks : List Char → List Char
  | '0' :: 'x' :: cs => dropMarks cs
  | cs => cs

def dropMark : List Char → List Char
  | '0' :: 'x' :: cs => cs
  | '0' :: 'X' :: cs => cs
  | cs => cs

/-- The first byte that is no hexadecimal digit, shown as the character with its number. -/
def badCharacter? : Nat → List UInt8 → Option BadKey
  | _, [] => none
  | i, b :: bs =>
    let c := Char.ofNat b.toNat
    if (Hex.value? c).isSome then badCharacter? (i + 1) bs else some (.badCharacter c i)

/-- The faults are looked for in this order: count of digits, digits, length, range. -/
def readKey (text : String) : Except BadKey Nat :=
  let digits := dropMark (dropMark (dropMarks (Text.trim text.toList)))
  let bytes := (String.ofList digits).toUTF8.toList
  if bytes.length % 2 = 1 then .error .oddDigits
  else
    match badCharacter? 0 bytes with
    | some bad => .error bad
    | none =>
      if bytes.length ≠ 64 then .error .badLength
      else
        let key := digits.foldl (fun n c => 16 * n + (Hex.value? c).getD 0) 0
        if 0 < key ∧ key < Secp256k1.n then .ok key else .error .outOfRange

def ofText (text : String) : Except Failure Signer :=
  match readKey text with
  | .ok key => .ok (ofKey key)
  | .error bad => .error (.wallet ("Invalid private key: " ++ bad.message))

/-- The key held by a variable of the environment. -/
def ofVariable (env : String → Option String) (name : String) : Except Failure Signer :=
  match env name with
  | none => .error (.wallet (name ++ " is not set"))
  | some text => ofText text

end Outbox.Signer
