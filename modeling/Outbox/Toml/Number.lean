import Outbox.Toml.Lexical

namespace Outbox.Toml

def isBinary (c : Char) : Bool := c = '0' || c = '1'
def isOctal (c : Char) : Bool := '0' ≤ c && c ≤ '7'
def isHex (c : Char) : Bool := (hexValue? c).isSome

/-- Further digits; an underscore may stand between two of them. -/
def moreDigits (ok : Char → Bool) : List Char → List Char × List Char
  | '_' :: c :: cs =>
    if ok c then
      let (ds, rest) := moreDigits ok cs
      (c :: ds, rest)
    else ([], '_' :: c :: cs)
  | c :: cs =>
    if ok c then
      let (ds, rest) := moreDigits ok cs
      (c :: ds, rest)
    else ([], c :: cs)
  | [] => ([], [])

def digits? (ok : Char → Bool) : Reader (List Char)
  | c :: cs =>
    if ok c then
      let (ds, rest) := moreDigits ok cs
      some (c :: ds, rest)
    else none
  | [] => none

def valueIn (base : Nat) (ds : List Char) : Nat :=
  ds.foldl (fun n c => base * n + (hexValue? c).getD 0) 0

/-- A sign, if any: whether it is a minus. -/
def sign : List Char → Bool × List Char
  | '-' :: cs => (true, cs)
  | '+' :: cs => (false, cs)
  | cs => (false, cs)

/-- A decimal number does not start with a zero unless it is zero. -/
def decimal? : Reader (List Char)
  | '0' :: cs => some (['0'], cs)
  | cs => digits? Char.isDigit cs

/-- Integers have 64 bits with sign. -/
def inRange (n : Int) : Bool := -0x8000000000000000 ≤ n && n < 0x8000000000000000

def integer? (cs : List Char) : Option (Int × List Char) := do
  let (n, rest) ← (match cs with
    | '0' :: 'x' :: cs => (digits? isHex cs).map fun (ds, r) => ((valueIn 16 ds : Int), r)
    | '0' :: 'o' :: cs => (digits? isOctal cs).map fun (ds, r) => ((valueIn 8 ds : Int), r)
    | '0' :: 'b' :: cs => (digits? isBinary cs).map fun (ds, r) => ((valueIn 2 ds : Int), r)
    | cs =>
      let (minus, cs) := sign cs
      (decimal? cs).map fun (ds, r) =>
        (if minus then -(valueIn 10 ds : Int) else (valueIn 10 ds : Int), r))
  guard (inRange n)
  return (n, rest)

/-- The least number that no longer rounds to a finite one. -/
def floatBound : Nat := Nat.pow 2 1024 - Nat.pow 2 970

/-- Whether `n * 10 ^ e` is too large for a floating-point number. -/
def overflows (n : Nat) (e : Int) : Bool :=
  let places : Int := (Nat.toDigits 10 n).length
  if n = 0 ∨ places + e < 300 then false
  else if 310 < places + e then true
  else if 0 ≤ e then floatBound ≤ n * Nat.pow 10 e.toNat
  else floatBound * Nat.pow 10 (-e).toNat ≤ n

def exponent? : Reader Int
  | c :: cs =>
    if c = 'e' ∨ c = 'E' then do
      let (minus, cs) := sign cs
      let (ds, rest) ← digits? Char.isDigit cs
      let n : Int := valueIn 10 ds
      return (if minus then -n else n, rest)
    else none
  | [] => none

/-- A number with a fraction, an exponent, or both. -/
def float? (cs : List Char) : Option (List Char) := do
  let (minus, cs) := sign cs
  let (whole, cs) ← decimal? cs
  let (fraction, e, rest) ← (match cs with
    | '.' :: cs => do
      let (fraction, cs) ← digits? Char.isDigit cs
      let (e, rest) := (exponent? cs).getD (0, cs)
      return (fraction, e, rest)
    | cs => (exponent? cs).map fun (e, rest) => (([] : List Char), e, rest))
  guard (minus || !overflows (valueIn 10 (whole ++ fraction)) (e - fraction.length))
  return rest

def word? (w : List Char) (cs : List Char) : Option (List Char) :=
  if w.isPrefixOf cs then some (cs.drop w.length) else none

def special? (cs : List Char) : Option (List Char) :=
  let (_, cs) := sign cs
  word? ['i', 'n', 'f'] cs <|> word? ['n', 'a', 'n'] cs

/-- Exactly `n` digits. -/
def fixed? : Nat → Nat → Reader Nat
  | 0, value, cs => some (value, cs)
  | n + 1, value, c :: cs =>
    if c.isDigit then fixed? n (10 * value + (c.toNat - 48)) cs else none
  | _ + 1, _, [] => none

def within? (n low high : Nat) (cs : List Char) : Option (Nat × List Char) := do
  let (v, rest) ← fixed? n 0 cs
  guard (low ≤ v && v ≤ high)
  return (v, rest)

def expect? (c : Char) : List Char → Option (List Char)
  | d :: cs => if c = d then some cs else none
  | [] => none

def isLeap (year : Nat) : Bool := year % 4 = 0 && (year % 100 ≠ 0 || year % 400 = 0)

def daysIn (year month : Nat) : Nat :=
  if month = 2 then if isLeap year then 29 else 28
  else if month = 4 ∨ month = 6 ∨ month = 9 ∨ month = 11 then 30
  else 31

def date? (cs : List Char) : Option (List Char) := do
  let (year, cs) ← fixed? 4 0 cs
  let cs ← expect? '-' cs
  let (month, cs) ← within? 2 1 12 cs
  let cs ← expect? '-' cs
  let (_, cs) ← within? 2 1 (daysIn year month) cs
  return cs

def time? (cs : List Char) : Option (List Char) := do
  let (_, cs) ← within? 2 0 23 cs
  let cs ← expect? ':' cs
  let (_, cs) ← within? 2 0 59 cs
  let cs ← expect? ':' cs
  let (_, cs) ← within? 2 0 60 cs
  match cs with
  | '.' :: c :: rest => if c.isDigit then return rest.dropWhile Char.isDigit else return cs
  | _ => return cs

def offset? : List Char → Option (List Char)
  | c :: cs =>
    if c = 'Z' ∨ c = 'z' then some cs
    else if c = '+' ∨ c = '-' then do
      let (_, cs) ← within? 2 0 23 cs
      let cs ← expect? ':' cs
      let (_, cs) ← within? 2 0 59 cs
      return cs
    else none
  | [] => none

/-- A date, a time, or both, and then perhaps an offset. -/
def moment? (cs : List Char) : Option (List Char) :=
  match date? cs with
  | none => time? cs
  | some rest =>
    match rest with
    | c :: after =>
      if c = 'T' ∨ c = 't' ∨ c = ' ' then
        match time? after with
        | none => some rest
        | some rest => some ((offset? rest).getD rest)
      else some rest
    | [] => some []

end Outbox.Toml
