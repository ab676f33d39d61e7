import ODataClient.Json.Basic

/-! Records in JSON texts. A record is an object, whose unknown members are skipped and
whose known members must not repeat, or an array of its fields in order. -/

namespace ODataClient.Json

def valuesOf (name : String) (members : List (String × Json)) : List Json :=
  (members.filter fun m => m.1 == name).map (·.2)

def single? (name : String) (members : List (String × Json)) : Option (Option Json) :=
  match valuesOf name members with
  | [] => some none
  | [v] => some (some v)
  | _ => none

def fields? (names : List String) : Json → Option (List (Option Json))
  | object members => names.mapM fun name => single? name members
  | array items =>
    if items.length ≤ names.length then
      some (items.map some ++ List.replicate (names.length - items.length) none)
    else none
  | _ => none

def record? (names : List String) (j : Json) : Option (String → Option Json) :=
  (j.fields? names).map fun values name => ((names.zip values).lookup name).join

def hasOnly (names : List String) : Json → Bool
  | object members => members.all fun m => names.contains m.1
  | _ => true

def string? : Json → Option String
  | string s => some s
  | _ => none

def bool? : Json → Option Bool
  | bool b => some b
  | _ => none

def integer? : Json → Option Int
  | integer v => some v
  | _ => none

def natBelow? (bound : Nat) : Json → Option Nat
  | integer v => if 0 ≤ v ∧ v < bound then some v.toNat else none
  | _ => none

def array? : Json → Option (List Json)
  | array items => some items
  | _ => none

def list? {α : Type} (item : Json → Option α) (j : Json) : Option (List α) := do
  let items ← j.array?
  items.mapM item

def optional? {α : Type} (item : Json → Option α) : Json → Option (Option α)
  | null => some none
  | j => (item j).map some

def orDefault {α : Type} (item : Json → Option α) (default : α) : Option Json → Option α
  | none => some default
  | some j => item j

def members? {α : Type} (item : Json → Option α) : Json → Option (List (String × α))
  | object members => members.mapM fun m => (item m.2).map fun v => (m.1, v)
  | _ => none

/-- How the name of a variant may be given. Where a text was buffered before its
variant was known, the position of the variant in its list will do. -/
inductive TagForm
  | named
  | namedOrNumbered
  deriving DecidableEq

def tag? (form : TagForm) (names : List String) : Json → Option Nat
  | string s => names.findIdx? (· == s)
  | integer v =>
    if form = .namedOrNumbered ∧ 0 ≤ v ∧ v < names.length then some v.toNat else none
  | _ => none

def unit? (form : TagForm) (names : List String) : Json → Option Nat
  | string s => names.findIdx? (· == s)
  | object [(s, v)] =>
    match v with
    | null => names.findIdx? (· == s)
    | object [] => if form = .namedOrNumbered then names.findIdx? (· == s) else none
    | _ => none
  | _ => none

end ODataClient.Json
