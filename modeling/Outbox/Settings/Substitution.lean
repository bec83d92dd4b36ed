namespace Outbox.Settings

/-- A reference `${NAME}` or a character. A name starts with a capital letter or an underscore and
goes on with capitals, digits and underscores. -/
inductive Piece where
  | char (c : Char)
  | reference (name : List Char)
deriving DecidableEq

def startsName (c : Char) : Bool := c.isUpper || c = '_'

def continuesName (c : Char) : Bool := c.isUpper || c.isDigit || c = '_'

/-- The rest of a name up to the closing brace. -/
def nameRest? : List Char → Option (List Char)
  | [] => none
  | c :: cs =>
    if c = '\x7d' then some []
    else if continuesName c then (nameRest? cs).map (c :: ·)
    else none

/-- The name of a reference that starts here. -/
def reference? : List Char → Option (List Char)
  | '$' :: '\x7b' :: c :: cs => if startsName c then (nameRest? cs).map (c :: ·) else none
  | _ => none

/-- Cuts the text into characters and references, from the left; the first `skip` characters belong
to the reference before them. -/
def pieces : Nat → List Char → List Piece
  | _, [] => []
  | skip + 1, _ :: cs => pieces skip cs
  | 0, c :: cs =>
    match reference? (c :: cs) with
    | none => .char c :: pieces 0 cs
    | some name => .reference name :: pieces (name.length + 2) cs

/-- A variable that is not set counts as empty. -/
def Piece.expand (env : String → Option String) : Piece → List Char
  | char c => [c]
  | reference name => ((env (String.ofList name)).getD "").toList

/-- What a reference is replaced by is not looked at again. -/
def substitute (env : String → Option String) (text : String) : String :=
  String.ofList ((pieces 0 text.toList).flatMap (Piece.expand env))

end Outbox.Settings
