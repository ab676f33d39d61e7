/-! TOML documents as trees. Settings hold strings, integers and booleans, so numbers with
a fraction, dates and lists of tables are not among the values. -/

namespace ODataClient

/-- How a table came to be: under its own header, above the header of another table, from
a dotted key, or between braces. -/
inductive TableForm
  | header
  | implied
  | dotted
  | inline
  deriving DecidableEq

inductive Toml where
  | string (text : String)
  | integer (v : Int)
  | boolean (v : Bool)
  | list (items : List Toml)
  | table (form : TableForm) (entries : List (String × Toml))

namespace Toml

abbrev Entries := List (String × Toml)

def replaceEntry (name : String) (v : Toml) (entries : Entries) : Entries :=
  entries.map fun e => if e.1 = name then (name, v) else e

/-- A key with its value added. No key may be given twice, and a dotted key may not go
into a table that has its own header or braces. -/
def addPair (v : Toml) : List String → Entries → Option Entries
  | [], _ => none
  | [name], entries =>
    if (entries.lookup name).isSome then none else some (entries ++ [(name, v)])
  | name :: path, entries =>
    match entries.lookup name with
    | none => (addPair v path []).map fun sub => entries ++ [(name, table .dotted sub)]
    | some (table form sub) =>
      if form = .dotted ∨ (form = .implied ∧ path.length ≠ 1) then
        (addPair v path sub).map fun sub => replaceEntry name (table form sub) entries
      else none
    | some _ => none

/-- A table opened by its header. One that only headers below it implied may be
opened once. -/
def openTable : List String → Entries → Option Entries
  | [], _ => none
  | [name], entries =>
    match entries.lookup name with
    | none => some (entries ++ [(name, table .header [])])
    | some (table .implied sub) => some (replaceEntry name (table .header sub) entries)
    | some _ => none
  | name :: path, entries =>
    match entries.lookup name with
    | none => (openTable path []).map fun sub => entries ++ [(name, table .implied sub)]
    | some (table .inline _) => none
    | some (table form sub) =>
      (openTable path sub).map fun sub => replaceEntry name (table form sub) entries
    | some _ => none

def changeAt (f : Entries → Option Entries) : List String → Entries → Option Entries
  | [], entries => f entries
  | name :: path, entries =>
    match entries.lookup name with
    | some (table form sub) =>
      (changeAt f path sub).map fun sub => replaceEntry name (table form sub) entries
    | _ => none

inductive Statement
  | header (path : List String)
  | pair (key : List String) (v : Toml)

def ofPairs? (pairs : List (List String × Toml)) : Option Entries :=
  pairs.foldlM (fun entries p => addPair p.2 p.1 entries) []

/-- The entries of a document; pairs belong to the table of the header before them. -/
def build (current : List String) : List Statement → Entries → Option Entries
  | [], entries => some entries
  | .header path :: rest, entries => (openTable path entries).bind (build path rest)
  | .pair key v :: rest, entries =>
    (changeAt (addPair v key) current entries).bind (build current rest)

end Toml

end ODataClient
