namespace Outbox.Toml

/-- Takes characters from the front of its input and returns what it read together with the rest. -/
abbrev Reader (α : Type) := List Char → Option (α × List Char)

def blanks (cs : List Char) : List Char := cs.dropWhile fun c => c = ' ' ∨ c = '\t'

/-- Control characters other than the tab may stand nowhere. -/
def isPlain (c : Char) : Bool := c = '\t' || (' ' ≤ c && c ≠ '\x7f')

def newline? : List Char → Option (List Char)
  | '\n' :: cs => some cs
  | '\r' :: '\n' :: cs => some cs
  | _ => none

def lineEnd? (cs : List Char) : Option (List Char) := if cs = [] then some [] else newline? cs

def comment (cs : List Char) : List Char :=
  match cs with
  | '#' :: rest => rest.dropWhile isPlain
  | cs => cs

/-- Nothing but blanks and a comment may follow on the line. -/
def lineRest? (cs : List Char) : Option (List Char) := lineEnd? (comment (blanks cs))

/-- Blanks, line ends and comments, where a value may go over several lines. -/
def filler : Bool → List Char → List Char
  | _, [] => []
  | _, '\n' :: cs => filler false cs
  | _, '\r' :: '\n' :: cs => filler false cs
  | false, ' ' :: cs => filler false cs
  | false, '\t' :: cs => filler false cs
  | false, '#' :: cs => filler true cs
  | false, c :: cs => c :: cs
  | true, c :: cs => if isPlain c then filler true cs else c :: cs

def hexValue? (c : Char) : Option Nat :=
  if c.isDigit then some (c.toNat - 48)
  else if 'a' ≤ c ∧ c ≤ 'f' then some (c.toNat - 87)
  else if 'A' ≤ c ∧ c ≤ 'F' then some (c.toNat - 55)
  else none

/-- The character with the number that the digits name; surrogates name none. -/
def scalar? (digits : List Char) : Option Char :=
  match digits.foldl (fun n c => do return 16 * (← n) + (← hexValue? c)) (some 0) with
  | none => none
  | some n => if n < 0xd800 ∨ (0xdfff < n ∧ n < 0x110000) then some (Char.ofNat n) else none

def escaped? : Char → Option Char
  | 'b' => some '\x08'
  | 't' => some '\t'
  | 'n' => some '\n'
  | 'f' => some '\x0c'
  | 'r' => some '\r'
  | '"' => some '"'
  | '\\' => some '\\'
  | _ => none

/-- What follows a backslash. -/
def escape? : Reader Char
  | 'u' :: a :: b :: c :: d :: rest => (scalar? [a, b, c, d]).map (·, rest)
  | 'U' :: a :: b :: c :: d :: e :: f :: g :: h :: rest =>
    (scalar? [a, b, c, d, e, f, g, h]).map (·, rest)
  | c :: rest => (escaped? c).map (·, rest)
  | [] => none

/-- The rest of a string on one line, up to its quote. Every step reads at least one character. -/
def basic : Nat → Reader (List Char)
  | 0, _ => none
  | fuel + 1, cs =>
    match cs with
    | [] => none
    | '"' :: rest => some ([], rest)
    | '\\' :: rest => do
      let (c, rest) ← escape? rest
      let (s, rest) ← basic fuel rest
      return (c :: s, rest)
    | c :: rest => do
      guard (isPlain c)
      let (s, rest) ← basic fuel rest
      return (c :: s, rest)

def literal : Reader (List Char)
  | [] => none
  | '\'' :: rest => some ([], rest)
  | c :: rest => if isPlain c then (literal rest).map fun (s, r) => (c :: s, r) else none

def isSpace (c : Char) : Bool := c = ' ' || c = '\t' || c = '\n'

/-- A line end in a string of several lines is always a line feed. -/
def unixLines : List Char → List Char
  | [] => []
  | '\r' :: '\n' :: cs => '\n' :: unixLines cs
  | c :: cs => c :: unixLines cs

/-- Up to two quotes may stand before the closing three. -/
def closing? (q : Char) : Reader (List Char)
  | a :: b :: c :: d :: e :: rest =>
    if a = q ∧ b = q ∧ c = q then
      if d = q then if e = q then some ([q, q], rest) else some ([q], e :: rest)
      else some ([], d :: e :: rest)
    else none
  | [a, b, c, d] =>
    if a = q ∧ b = q ∧ c = q then if d = q then some ([q], []) else some ([], [d]) else none
  | [a, b, c] => if a = q ∧ b = q ∧ c = q then some ([], []) else none
  | _ => none

/-- A string over several lines. A backslash at the end of a line drops the white space up to the
next character that is none. -/
def multiBasic : Nat → Reader (List Char)
  | 0, _ => none
  | fuel + 1, cs =>
    match closing? '"' cs, cs with
    | some r, _ => some r
    | none, [] => none
    | none, '\\' :: rest =>
      match blanks rest with
      | '\n' :: after => multiBasic fuel (after.dropWhile isSpace)
      | _ => do
        let (c, rest) ← escape? rest
        let (s, rest) ← multiBasic fuel rest
        return (c :: s, rest)
    | none, c :: rest => do
      guard (isPlain c || c = '\n')
      let (s, rest) ← multiBasic fuel rest
      return (c :: s, rest)

def multiLiteral : Nat → Reader (List Char)
  | 0, _ => none
  | fuel + 1, cs =>
    match closing? '\'' cs, cs with
    | some r, _ => some r
    | none, [] => none
    | none, c :: rest => do
      guard (isPlain c || c = '\n')
      let (s, rest) ← multiLiteral fuel rest
      return (c :: s, rest)

/-- The first line end after the opening quotes does not count. -/
def dropNewline (cs : List Char) : List Char := (newline? cs).getD cs

/-- A string of any of the four kinds. -/
def string? : Reader (List Char)
  | '"' :: '"' :: '"' :: cs => multiBasic (cs.length + 1) (dropNewline cs)
  | '"' :: cs => basic (cs.length + 1) cs
  | '\'' :: '\'' :: '\'' :: cs => multiLiteral (cs.length + 1) (dropNewline cs)
  | '\'' :: cs => literal cs
  | _ => none

/-- A key is a string on one line, or letters, digits, dashes and underscores of ASCII. -/
def simpleKey? (cs : List Char) : Option (String × List Char) :=
  match cs with
  | '"' :: rest => (basic (rest.length + 1) rest).map fun (s, r) => (String.ofList s, r)
  | '\'' :: rest => (literal rest).map fun (s, r) => (String.ofList s, r)
  | cs =>
    let bare := fun c : Char => c.isAlphanum || c = '-' || c = '_'
    let name := cs.takeWhile bare
    if name = [] then none else some (String.ofList name, cs.dropWhile bare)

end Outbox.Toml
