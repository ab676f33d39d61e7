import ODataClient.Json.Reader
import ODataClient.Text.Blank
import ODataClient.Text.Case
import ODataClient.Text.Parts

/-! Version tokens, which say what protocol version a service speaks. Responses carry
them in headers, and metadata documents in attributes or in members of a JSON
object. -/

namespace ODataClient

def isVersionHeader (name : String) : Bool :=
  sameName (trim name) "OData-Version" || sameName (trim name) "DataServiceVersion"

/-- The parts of a header value between semicolons, without blanks around them. -/
def valueTokens (value : String) : List String :=
  ((splitText ';' value).map trim).filter fun t => !t.isEmpty

def headerTokens (headers : List (String × String)) : List String :=
  (headers.filter fun h => isVersionHeader h.1).flatMap fun h => valueTokens h.2

/-- The text between quotes after an equals sign, when `s` begins with these. The inner
value is `none` when the closing quote is missing. -/
def attributeValue? (s : List Char) : Option (Option (List Char)) :=
  match dropBlanks s with
  | '=' :: r =>
    match dropBlanks r with
    | q :: value =>
      if q = '"' ∨ q = '\'' then some ((cutFirst q value).map (·.1)) else none
    | [] => none
  | _ => none

def attribute? (name : List Char) : Option Char → List Char → Option (List Char)
  | _, [] => none
  | before, c :: r =>
    if name.isPrefixOf (c :: r) then
      let rest := r.drop (name.length - 1)
      match before.any isBlank, attributeValue? rest with
      | true, some value => value
      | _, _ => attribute? name name.getLast? rest
    else attribute? name (some c) r
termination_by _ s => s.length
decreasing_by all_goals (simp only [List.length_drop, List.length_cons]; omega)

def localName (head : List Char) : List Char :=
  let name := (dropBlanks head).takeWhile fun c => !isBlank c
  (parts ':' name).getLast?.getD name

/-- The inside of the first start tag of that local name. A tag ends at the first `>`. -/
def startTag? (name : List Char) : List Char → Option (List Char)
  | [] => none
  | c :: r =>
    if c = '<' then
      match _h : cutFirst '>' r with
      | none => none
      | some (head, rest) => if localName head = name then some head else startTag? name rest
    else startTag? name r
termination_by s => s.length
decreasing_by
  · simp [eq_of_cutFirst _h]; omega
  · simp

/-- Attributes of the data services come first, the greatest version before the usual
one. An envelope of version 1 says nothing beside them. -/
def markupTokens (s : List Char) : List String :=
  let services := ["m:MaxDataServiceVersion", "m:DataServiceVersion"].filterMap fun name =>
    attribute? name.toList none s
  let envelope := (startTag? "Edmx".toList s).bind (attribute? "Version".toList none)
  let kept := envelope.toList.filter fun v => services = [] || v.head? != some '1'
  (services ++ kept).map String.ofList

def lastMember? (name : String) : Json → Option Json
  | .object members => members.reverse.lookup name
  | _ => none

def jsonTokens (s : String) : List String :=
  match (Json.read? s).bind Json.checked? with
  | some j => ["version", "$Version"].filterMap fun name =>
    match lastMember? name j with
    | some (.string v) => some v
    | _ => none
  | none => []

def looksLikeJson (document : String) : Bool :=
  (dropBlanks document.toList).head? == some '\x7b'

def documentTokens (document : String) : List String :=
  if looksLikeJson document then jsonTokens (String.ofList (dropBlanks document.toList))
  else markupTokens document.toList

end ODataClient
