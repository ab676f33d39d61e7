import ODataClient.Text.Blank

/-! Protocol versions and the two syntax families they belong to. -/

namespace ODataClient

inductive Version
  | v1
  | v2
  | v3
  | v4
  | v401
  deriving DecidableEq, Repr

/-- Versions 1.0 to 3.0 share the legacy syntax, later ones the modern syntax. -/
inductive Dialect
  | legacy
  | modern
  deriving DecidableEq, Repr

namespace Version

def text : Version → String
  | v1 => "1.0"
  | v2 => "2.0"
  | v3 => "3.0"
  | v4 => "4.0"
  | v401 => "4.01"

/-- A version token, blanks around it ignored; the minor version zero may be left out. -/
def ofToken? (token : String) : Option Version :=
  let t := trim token
  if t = "1.0" ∨ t = "1" then some v1
  else if t = "2.0" ∨ t = "2" then some v2
  else if t = "3.0" ∨ t = "3" then some v3
  else if t = "4.0" ∨ t = "4" then some v4
  else if t = "4.01" then some v401
  else none

def dialect : Version → Dialect
  | v1 | v2 | v3 => .legacy
  | v4 | v401 => .modern

def hasLambdas : Version → Bool
  | v1 | v2 => false
  | v3 | v4 | v401 => true

end Version

end ODataClient
