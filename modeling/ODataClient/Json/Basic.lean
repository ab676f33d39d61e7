import ODataClient.Number.Text

/-! JSON texts as trees. Members of an object keep their order and may repeat. A part
that is spelled correctly but stands for nothing, such as a number that is out of
range, is kept as ill-formed: it can be skipped and not read. -/

namespace ODataClient

inductive Json where
  | null
  | bool (v : Bool)
  | integer (v : Int)
  | double (v : Double)
  | string (text : String)
  | array (items : List Json)
  | object (members : List (String × Json))
  | illFormed

namespace Json

mutual

def wellFormed : Json → Bool
  | illFormed => false
  | array items => wellFormedItems items
  | object members => wellFormedMembers members
  | _ => true

def wellFormedItems : List Json → Bool
  | [] => true
  | x :: r => wellFormed x && wellFormedItems r

def wellFormedMembers : List (String × Json) → Bool
  | [] => true
  | (_, x) :: r => wellFormed x && wellFormedMembers r

end

def checked? (j : Json) : Option Json := if j.wellFormed then some j else none

def ofStrings (l : List String) : Json := array (l.map string)

end Json

end ODataClient
