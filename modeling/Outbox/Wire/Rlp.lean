import Outbox.Wire.BigEndian

namespace Outbox

/-- A byte string or a list. A single byte below 128 stands for itself; everything else gets its
length in front. -/
inductive Rlp where
  | bytes (bs : Bytes)
  | list (items : List Rlp)

namespace Rlp

/-- Numbers are written as their shortest byte string. -/
def ofNat (n : Nat) : Rlp := bytes (BigEndian.shortest n)

/-- A length up to 55 is added to `offset`; a longer one is written out after its own length. -/
def header (offset length : Nat) : Bytes :=
  if length ≤ 55 then [UInt8.ofNat (offset + length)]
  else
    let digits := BigEndian.shortest length
    UInt8.ofNat (offset + 55 + digits.length) :: digits

def encodeBytes (bs : Bytes) : Bytes :=
  match bs with
  | [b] => if b < 128 then [b] else header 128 1 ++ [b]
  | bs => header 128 bs.length ++ bs

mutual

def encode : Rlp → Bytes
  | bytes bs => encodeBytes bs
  | list items =>
    let body := encodeAll items
    header 192 body.length ++ body

def encodeAll : List Rlp → Bytes
  | [] => []
  | item :: rest => encode item ++ encodeAll rest

end

/-- The first `n` bytes and the rest, if there are so many. -/
def split? (n : Nat) (bs : Bytes) : Option (Bytes × Bytes) :=
  if n ≤ bs.length then some (bs.take n, bs.drop n) else none

/-- Reads back what `header` writes behind its first byte `b`. -/
def length? (offset : Nat) (b : UInt8) (rest : Bytes) : Option (Nat × Bytes) :=
  let k := b.toNat - offset
  if k ≤ 55 then some (k, rest)
  else (split? (k - 55) rest).map fun (digits, rest) => (BigEndian.toNat digits, rest)

mutual

/-- One item from the front of the bytes. Every nesting level uses up one unit of `fuel`. -/
def decode? : Nat → Bytes → Option (Rlp × Bytes)
  | 0, _ => none
  | _, [] => none
  | fuel + 1, b :: rest =>
    if b < 128 then some (bytes [b], rest)
    else if b < 192 then do
      let (n, rest) ← length? 128 b rest
      let (bs, rest) ← split? n rest
      return (bytes bs, rest)
    else do
      let (n, rest) ← length? 192 b rest
      let (body, rest) ← split? n rest
      let items ← decodeAll? fuel body
      return (list items, rest)

/-- Items up to the end of the bytes. -/
def decodeAll? : Nat → Bytes → Option (List Rlp)
  | _, [] => some []
  | 0, _ => none
  | fuel + 1, bs => do
    let (item, rest) ← decode? fuel bs
    let items ← decodeAll? fuel rest
    return item :: items

end

end Rlp
end Outbox
