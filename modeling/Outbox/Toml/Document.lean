import Outbox.Toml.Number
import Outbox.Toml.Value

namespace Outbox.Toml

/-- Arrays and tables in one another, and the parts of a dotted key, stay below this number. -/
def depthLimit : Nat := 80

def keyParts : Nat → Reader (List String)
  | 0, _ => none
  | parts + 1, cs => do
    let (k, rest) ← simpleKey? (blanks cs)
    match blanks rest with
    | '.' :: rest =>
      let (ks, rest) ← keyParts parts rest
      return (k :: ks, rest)
    | rest => return ([k], rest)

/-- A dotted key: the path to a table, and the key in it. -/
def key? (cs : List Char) : Option ((List String × String) × List Char) := do
  let (ks, rest) ← keyParts (depthLimit - 1) cs
  return ((ks.dropLast, ks.getLast?.getD ""), rest)

def keyword? (cs : List Char) : Option (Value × List Char) :=
  ((word? ['t', 'r', 'u', 'e'] cs).map fun r => (.boolean true, r)) <|>
    ((word? ['f', 'a', 'l', 's', 'e'] cs).map fun r => (.boolean false, r)) <|>
    ((special? cs).map fun r => (.float, r))

def number? (cs : List Char) : Option (Value × List Char) :=
  ((moment? cs).map fun r => (.moment, r)) <|>
    ((float? cs <|> special? cs).map fun r => (.float, r)) <|>
    ((integer? cs).map fun (n, r) => (.integer n, r))

/-- The elements of an array; a comma may follow the last one. -/
def items (element : Reader Value) : Nat → Reader (List Value)
  | 0, _ => none
  | fuel + 1, cs =>
    match filler false cs with
    | ']' :: rest => some ([], rest)
    | cs => do
      let (v, rest) ← element cs
      match filler false rest with
      | ',' :: rest =>
        let (vs, rest) ← items element fuel rest
        return (v :: vs, rest)
      | ']' :: rest => return ([v], rest)
      | _ => none

/-- The rest of a table on one line; no comma follows the last entry. -/
def pairs (element : Reader Value) : Nat → Entries → Reader Entries
  | 0, _, _ => none
  | fuel + 1, es, cs => do
    let ((path, k), rest) ← key? cs
    let rest ← expect? '=' rest
    let (v, rest) ← element (blanks rest)
    let es ← Entries.addValue path k v es
    match blanks rest with
    | ',' :: rest => pairs element fuel es rest
    | '}' :: rest => return (es, rest)
    | _ => none

/-- A value with at most `depth` levels of arrays and tables in it. -/
def value? : Nat → Reader Value
  | depth, cs =>
    match cs with
    | [] => none
    | '[' :: rest =>
      match depth with
      | 0 => none
      | depth + 1 =>
        (items (value? depth) (rest.length + 1) rest).map fun (vs, r) => (.array vs, r)
    | '{' :: rest =>
      match depth with
      | 0 => none
      | depth + 1 =>
        match blanks rest with
        | '}' :: r => some (.table [], r)
        | cs => (pairs (value? depth) (cs.length + 1) [] cs).map fun (es, r) =>
            ((Node.table .header es).value, r)
    | c :: _ =>
      if c = '"' ∨ c = '\'' then (string? cs).map fun (s, r) => (.text (String.ofList s), r)
      else if c.isDigit ∨ c = '+' ∨ c = '-' then number? cs
      else keyword? cs

/-- One line with something on it. -/
def line? (d : Draft) (cs : List Char) : Option (Draft × List Char) :=
  match cs with
  | '[' :: '[' :: rest => do
    let ((path, k), rest) ← key? rest
    let rest ← expect? ']' rest
    let rest ← expect? ']' rest
    let rest ← lineRest? rest
    let d ← d.openMany (path ++ [k])
    return (d, rest)
  | '[' :: rest => do
    let ((path, k), rest) ← key? rest
    let rest ← expect? ']' rest
    let rest ← lineRest? rest
    let d ← d.openTable (path ++ [k])
    return (d, rest)
  | cs => do
    let ((path, k), rest) ← key? cs
    let rest ← expect? '=' rest
    let (v, rest) ← value? (depthLimit - 1) (blanks rest)
    let rest ← lineRest? rest
    let d ← d.add path k v
    return (d, rest)

def lines : Nat → Draft → List Char → Option Draft
  | 0, _, _ => none
  | fuel + 1, d, cs =>
    match blanks cs with
    | [] => some d
    | '#' :: rest => (lineEnd? (comment ('#' :: rest))).bind (lines fuel d)
    | cs =>
      match newline? cs with
      | some rest => lines fuel d rest
      | none =>
        match line? d cs with
        | none => none
        | some (d, rest) => lines fuel d rest

/-- In strings of several lines a line end is a line feed, however the text ends its lines; and
outside of strings both ends mean the same. A mark of byte order at the front is skipped. -/
def parse? (text : String) : Option (List (String × Value)) :=
  let cs := match text.toList with
    | '\ufeff' :: cs => cs
    | cs => cs
  let cs := unixLines cs
  ((lines (cs.length + 2) {} cs).bind Draft.close).map fun d => entryValues d.root

end Outbox.Toml
