import Outbox.Failure
import Outbox.Fee.Cap
import Outbox.Text.Quoted

namespace Outbox.Amount

inductive Misreading where
  | badCharacter
  | tooLarge
  | badSignedDigit
  | outOfSignedRange
  | scaleTooLarge
deriving DecidableEq

def Misreading.message : Misreading → String
  | badCharacter => "a character is not in the range 0-9"
  | tooLarge => "the number is too large for the type"
  | badSignedDigit => "invalid digit found in string"
  | outOfSignedRange => "number does not fit in 256-bit integer"
  | scaleTooLarge => "Overflow parsing string"

def bound : Nat := Fee.amountBound

def digit? (c : Char) : Option Nat := if c.isDigit then some (c.toNat - 48) else none

/-- Reads on from the value `n`; of several faults the leftmost counts. -/
def digitsFrom (n : Nat) : List Char → Except Misreading Nat
  | [] => .ok n
  | c :: cs =>
    match digit? c with
    | none => .error .badCharacter
    | some d => if 10 * n + d < bound then digitsFrom (10 * n + d) cs else .error .tooLarge

/-- No digit at all is zero. -/
def unsigned (cs : List Char) : Except Misreading Nat := digitsFrom 0 cs

/-- The magnitude behind a minus sign, at least one and at most half of the bound. A lone sign is
zero. -/
def magnitude (cs : List Char) : Except Misreading Nat :=
  if cs = [] then .ok 0
  else
    match unsigned cs with
    | .error .badCharacter => .error .badSignedDigit
    | .error _ => .error .outOfSignedRange
    | .ok n => if 0 < n ∧ n ≤ bound / 2 then .ok n else .error .outOfSignedRange

/-- A power of ten below `limit`, which is at most 256 bits wide. -/
def tenPower? (limit e : Nat) : Option Nat :=
  if e < 78 ∧ Nat.pow 10 e < limit then some (Nat.pow 10 e) else none

def byteLength (cs : List Char) : Nat := cs.foldl (fun n c => n + c.utf8Size) 0

/-- The first `n` bytes of the text, or the character that straddles that place, with the place of
its first byte. -/
def takeBytes : Nat → Nat → List Char → Except (Char × Nat) (List Char)
  | _, _, [] => .ok []
  | start, n, c :: cs =>
    if n = 0 then .ok []
    else if n < c.utf8Size then .error (c, start)
    else (takeBytes (start + c.utf8Size) (n - c.utf8Size) cs).map (c :: ·)

/-- As much of the text as fits in `n` bytes. -/
def fitBytes : Nat → List Char → List Char
  | _, [] => []
  | n, c :: cs => if c.utf8Size ≤ n then c :: fitBytes (n - c.utf8Size) cs else []

/-- The complaint about a cut through the middle of a character shows at most 256 bytes. -/
def straddled (index : Nat) (c : Char) (start : Nat) (text : List Char) : String :=
  let shown := fitBytes 256 text
  "byte index " ++ toString index ++ " is not a char boundary; it is inside " ++
    Text.quotedChar c ++ " (bytes " ++ toString start ++ ".." ++ toString (start + c.utf8Size) ++
    ") of `" ++ String.ofList shown ++ "`" ++
    (if shown.length < text.length then "[...]" else "")

def complement (n : Nat) : Nat := (bound - n % bound) % bound

/-- An amount without its point: the value of the numeral `cs` times `10 ^ e`. -/
def scaled (negative : Bool) (cs : List Char) (e : Nat) : Except (Misreading ⊕ String) Nat :=
  if negative then
    match magnitude (cs.drop 1) with
    | .error m => .error (.inl m)
    | .ok n =>
      if cs.length ≤ 1 then .ok 0
      else
        match tenPower? (bound / 2) e with
        | none => .error (.inl .scaleTooLarge)
        | some k => .ok (complement (n * k))
  else
    match unsigned cs with
    | .error m => .error (.inl m)
    | .ok n =>
      match tenPower? bound e with
      | none => .error (.inl .scaleTooLarge)
      | some k =>
        if n * k < bound then .ok (n * k) else .error (.inr "arithmetic operation overflow")

/-- The first point splits the numeral; what follows it counts towards `decimals` in bytes. -/
def read (decimals : Nat) (text : List Char) : Except (Misreading ⊕ String) Nat :=
  let cs := text.filter (· ≠ '_')
  let negative := cs.head? == some '-'
  let whole := cs.takeWhile (· ≠ '.')
  let fraction := (cs.dropWhile (· ≠ '.')).drop 1
  let digits := whole ++ fraction
  let places := byteLength fraction
  if decimals < places then
    let index := byteLength digits - (places - decimals)
    match takeBytes 0 index digits with
    | .error (c, start) => .error (.inr (straddled index c start digits))
    | .ok kept => scaled negative kept 0
  else scaled negative digits (decimals - places)

/-- The amount in base units. -/
def parse (amount : String) (decimals : Nat) : Except Fault Nat :=
  match read decimals amount.toList with
  | .ok n => .ok n
  | .error (.inr text) => .error (.aborted text)
  | .error (.inl m) => .error (.failed (.configuration
      ("invalid amount " ++ Text.quoted amount ++ ": " ++ m.message)))

end Outbox.Amount
