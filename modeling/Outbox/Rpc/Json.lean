import Outbox.Text.Quoted

namespace Outbox.Rpc

inductive Json where
  | null
  | boolean (b : Bool)
  /-- A number as it was written. -/
  | number (digits : String)
  | text (s : String)
  | array (items : List Json)
  | object (entries : List (String × Json))

namespace Json

def get? (j : Json) (k : String) : Option Json :=
  match j with
  | object es => es.lookup k
  | _ => none

mutual

/-- The text by which a value is shown in the message of a refused request. -/
def shown : Json → String
  | null => "Null"
  | boolean b => "Bool(" ++ toString b ++ ")"
  | number d => "Number(" ++ d ++ ")"
  | text s => "String(" ++ Text.quoted s ++ ")"
  | array items => "Array [" ++ ", ".intercalate (shownItems items) ++ "]"
  | object es => "Object \x7b" ++ ", ".intercalate (shownEntries es) ++ "\x7d"

def shownItems : List Json → List String
  | [] => []
  | j :: js => j.shown :: shownItems js

def shownEntries : List (String × Json) → List String
  | [] => []
  | (k, j) :: es => (Text.quoted k ++ ": " ++ j.shown) :: shownEntries es

end

end Json
end Outbox.Rpc
