namespace Outbox.Toml

inductive Value where
  | text (s : String)
  | integer (n : Int)
  | float
  | boolean (b : Bool)
  | moment
  | array (items : List Value)
  | table (entries : List (String × Value))

/-- Opened by a header of its own, by a dotted key, or by the header of a table inside it. -/
inductive Origin where
  | header
  | dotted
  | passing
deriving DecidableEq

/-- Knows how it came into being, because that decides whether later lines may add to it. -/
inductive Node where
  | leaf (v : Value)
  | table (origin : Origin) (entries : List (String × Node))
  /-- Tables under one header, each header adding one. -/
  | many (tables : List (List (String × Node)))

abbrev Entries := List (String × Node)

namespace Entries

def get? (es : Entries) (k : String) : Option Node := es.lookup k

def erase (es : Entries) (k : String) : Entries := es.filter (·.1 ≠ k)

def put (es : Entries) (k : String) (n : Node) : Entries := erase es k ++ [(k, n)]

/-- Changes the table that `path` leads to, making the tables on the way that are missing. The last
of many tables is the one that counts. A dotted path does not lead into a table with a header. -/
def descend (dotted : Bool) (f : Origin → Entries → Option Entries) :
    List String → Origin → Entries → Option Entries
  | [], origin, es => f origin es
  | k :: path, _, es =>
    match get? es k with
    | none =>
      let origin := if dotted then Origin.dotted else .passing
      (descend dotted f path origin []).map fun sub => put es k (.table origin sub)
    | some (.leaf _) => none
    | some (.many tables) =>
      match tables.getLast? with
      | none => none
      | some last =>
        (descend dotted f path .header last).map fun sub =>
          put es k (.many (tables.dropLast ++ [sub]))
    | some (.table origin sub) =>
      if dotted ∧ origin = .header then none
      else (descend dotted f path origin sub).map fun sub => put es k (.table origin sub)

/-- The entries of the table that `path` leads to. -/
def inside? : List String → Entries → Option Entries
  | [], es => some es
  | k :: path, es =>
    match get? es k with
    | some (.table _ sub) => inside? path sub
    | some (.many tables) => tables.getLast?.bind (inside? path)
    | _ => none

/-- Adds a value under a dotted key. No key is set twice, and the tables on a dotted path are made
by dotted keys only. -/
def addValue (path : List String) (k : String) (v : Value) (es : Entries) : Option Entries :=
  descend true
    (fun origin es =>
      if (origin = .dotted) = (path = []) then none
      else if (get? es k).isSome then none
      else some (es ++ [(k, .leaf v)]))
    path .header es

end Entries

mutual

def Node.value : Node → Value
  | .leaf v => v
  | .table _ es => .table (entryValues es)
  | .many tables => .array (tableValues tables)

def entryValues : List (String × Node) → List (String × Value)
  | [] => []
  | (k, n) :: es => (k, n.value) :: entryValues es

def tableValues : List (List (String × Node)) → List Value
  | [] => []
  | es :: rest => .table (entryValues es) :: tableValues rest

end

/-- A document while it is being read: what is complete, and the table of the latest header. -/
structure Draft where
  root : Entries := []
  path : List String := []
  /-- The latest header adds to many tables. -/
  isMany : Bool := false
  current : Entries := []

namespace Draft

/-- Puts the table of the latest header in its place. -/
def close (d : Draft) : Option Draft :=
  match d.path.getLast? with
  | none => some { root := d.current }
  | some k =>
    (Entries.descend false
      (fun _ es =>
        if d.isMany then
          match Entries.get? es k with
          | some (.many tables) => some (Entries.put es k (.many (tables ++ [d.current])))
          | _ => none
        else some (Entries.put es k (.table .header d.current)))
      d.path.dropLast .header d.root).map fun root => { root := root }

/-- A header opens a table that is not there yet, or one that other headers only passed through. -/
def openTable (path : List String) (d : Draft) : Option Draft := do
  let d ← d.close
  let k ← path.getLast?
  let root ← Entries.descend false
    (fun _ es =>
      match Entries.get? es k with
      | none => some es
      | some (.table .passing _) => some es
      | _ => none)
    path.dropLast .header d.root
  return { root := root, path := path, current := (Entries.inside? path root).getD [] }

/-- A double header adds one more table under its name. -/
def openMany (path : List String) (d : Draft) : Option Draft := do
  let d ← d.close
  let k ← path.getLast?
  let root ← Entries.descend false
    (fun _ es =>
      match Entries.get? es k with
      | none => some (es ++ [(k, .many [])])
      | some (.many _) => some es
      | _ => none)
    path.dropLast .header d.root
  return { root := root, path := path, isMany := true }

def add (path : List String) (k : String) (v : Value) (d : Draft) : Option Draft :=
  (Entries.addValue path k v d.current).map fun es => { d with current := es }

end Draft
end Outbox.Toml
