import Outbox.Wire.BigEndian

namespace Outbox.Hex

def digit (n : Nat) : Char :=
  if n < 10 then Char.ofNat (48 + n) else Char.ofNat (87 + n)

def value? (c : Char) : Option Nat :=
  if '0' ≤ c ∧ c ≤ '9' then some (c.toNat - 48)
  else if 'a' ≤ c ∧ c ≤ 'f' then some (c.toNat - 87)
  else if 'A' ≤ c ∧ c ≤ 'F' then some (c.toNat - 55)
  else none

def encode : Bytes → List Char
  | [] => []
  | b :: bs => digit (b.toNat / 16) :: digit (b.toNat % 16) :: encode bs

/-- Digits in pairs; nothing else may stand between them. -/
def decode? : List Char → Option Bytes
  | [] => some []
  | [_] => none
  | c :: d :: cs =>
    match value? c, value? d, decode? cs with
    | some h, some l, some bs => some (UInt8.ofNat (16 * h + l) :: bs)
    | _, _, _ => none

/-- Byte strings are written with a leading `0x`, the empty one too. -/
def text (bs : Bytes) : String := "0x" ++ String.ofList (encode bs)

def ofText? (s : String) : Option Bytes :=
  match s.toList with
  | '0' :: 'x' :: cs => decode? cs
  | _ => none

end Outbox.Hex
