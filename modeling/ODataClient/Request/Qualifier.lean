import ODataClient.Text.Alphanumeric
import ODataClient.Text.Parts

/-! Text filters of related entities. Such a text names the properties of the entity
through its navigation, `<navigation>/<property>`; inside a lambda the navigation
serves as the range variable, and nested into an expand item it is left out. -/

namespace ODataClient

def rangeVariable (entity : String) : String := (segments entity).getLast?.getD entity

def continuesPath (c : Char) : Bool := isAlphanumeric c || c == '_' || c == '/' || c == '.'

/-- The text without `<qualifier>/` in front of a path. `skip` characters are left out
before the text goes on; quoted literals and the insides of longer paths are kept. -/
def unqualifyFrom (qualifier : List Char) : Nat → Bool → Option Char → List Char → List Char
  | _, _, _, [] => []
  | skip + 1, quoted, before, _ :: r => unqualifyFrom qualifier skip quoted before r
  | 0, quoted, before, c :: r =>
    if !quoted && !before.any continuesPath && (qualifier ++ ['/']).isPrefixOf (c :: r) then
      unqualifyFrom qualifier qualifier.length quoted (some '/') r
    else c :: unqualifyFrom qualifier 0 (quoted != (c == '\'')) (some c) r

def unqualify (qualifier text : String) : String :=
  String.ofList (unqualifyFrom qualifier.toList 0 false none text.toList)

end ODataClient
