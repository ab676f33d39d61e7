import ODataClient.Command.Calls
import ODataClient.Expr.Codec
import ODataClient.Json.Reader

/-! Descriptions of commands, which are JSON texts. A description gives the parts of a
command in any order; the calls that build the command come in one order. -/

namespace ODataClient

structure NavigationStep where
  name : String
  key : Option (List Value)

structure CommandDescription where
  collection : Option String
  key : List Value
  namedKeys : Table Value
  navigate : List NavigationStep
  asType : Option String
  filter : Option Expr
  filterText : Option String
  filterOn : Table Expr
  search : Option String
  skip : Option Nat
  top : Option Nat
  expand : List (String × ExpandOptions)
  select : List String
  orderBy : List OrderItem
  count : Bool
  includeCount : Bool
  link : Option String
  media : Option String
  queryOptions : Option String
  function : Option Invocation
  action : Option Invocation
  operation : Operation
  entry : Option Entry

namespace Json

def table? {α : Type} (item : Json → Option α) (j : Json) : Option (Table α) :=
  (j.members? item).map Table.ofList

end Json

def NavigationStep.ofJson? (j : Json) : Option NavigationStep := do
  match ← j.checked? with
  | .string name => return ⟨name, none⟩
  | .object members =>
    match ← Json.fields? ["name", "key"] (.object members) with
    | [some name, some key] =>
      return ⟨← name.string?, some (← key.list? (Value.ofJson? .namedOrNumbered))⟩
    | _ => none
  | _ => none

def Levels.ofJson? (j : Json) : Option Levels :=
  match j with
  | .object [("depth", n)] => (n.natBelow? UInt32.size).map .depth
  | _ => (Json.unit? .namedOrNumbered ["max"] j).map fun _ => .max

def OrderItem.ofJson? (j : Json) : Option OrderItem := do
  match ← j.fields? ["name", "descending"] with
  | [some name, descending] =>
    return ⟨← name.string?, ← Json.orDefault Json.bool? false descending⟩
  | _ => none

def expandItemOfJson? (j : Json) : Option (String × ExpandOptions) := do
  match ← j.checked? with
  | .string path => return (path, .plain)
  | .object members =>
    match ← Json.fields? ["path", "levels", "select", "order_by", "by_ref"] (.object members) with
    | [some path, levels, select, orderBy, byRef] =>
      return (← path.string?,
        { levels := ← Json.orDefault (Json.optional? Levels.ofJson?) none levels
          select := ← Json.orDefault (Json.list? Json.string?) [] select
          orderBy := ← Json.orDefault (Json.list? OrderItem.ofJson?) [] orderBy
          byRef := ← Json.orDefault Json.bool? false byRef })
    | _ => none
  | _ => none

def Invocation.ofJson? (kind : InvocationKind) (j : Json) : Option Invocation := do
  match ← j.fields? ["name", "parameters"] with
  | [some name, parameters] =>
    let parameters ← Json.orDefault (Json.table? (Value.ofJson? .named)) .empty parameters
    return ⟨kind, ← name.string?, parameters.entries⟩
  | _ => none

def Operation.all : List Operation := [query, insert, update, delete]

def Operation.name : Operation → String
  | query => "query"
  | insert => "insert"
  | update => "update"
  | delete => "delete"

def Operation.ofJson? (j : Json) : Option Operation := do
  let i ← Json.unit? .named (Operation.all.map Operation.name) j
  Operation.all[i]?

def dropAscending : List Char → List Char
  | 'c' :: 's' :: 'a' :: ' ' :: r => dropAscending r
  | s => s

/-- The name before ` desc`, or before ` asc`, which may be left out or repeated. -/
def OrderItem.ofText (s : String) : OrderItem :=
  match (trimBlanks s.toList).reverse with
  | 'c' :: 's' :: 'e' :: 'd' :: ' ' :: r => ⟨String.ofList (trimBlanks r.reverse), true⟩
  | r => ⟨String.ofList (dropAscending r).reverse, false⟩

namespace CommandDescription

def keys : List String :=
  ["collection", "key", "named_keys", "navigate", "as_type", "filter", "filter_text",
    "filter_on", "search", "skip", "top", "expand", "select", "order_by", "count",
    "include_count", "link", "media", "query_options", "function", "action", "operation",
    "entry"]

def ofJson? (j : Json) : Option CommandDescription := do
  if !j.hasOnly keys then none
  let field ← j.record? keys
  let maybe {α : Type} (item : Json → Option α) (name : String) : Option (Option α) :=
    Json.orDefault (Json.optional? item) none (field name)
  let flag (name : String) : Option Bool := Json.orDefault Json.bool? false (field name)
  let list {α : Type} (item : Json → Option α) (name : String) : Option (List α) :=
    Json.orDefault (Json.list? item) [] (field name)
  let table {α : Type} (item : Json → Option α) (name : String) : Option (Table α) :=
    Json.orDefault (Json.table? item) .empty (field name)
  let text := maybe Json.string?
  let number := maybe (Json.natBelow? UInt64.size)
  let value := Value.ofJson? .named
  let expr := Expr.ofJson? .named
  return {
    collection := ← text "collection"
    key := ← list value "key"
    namedKeys := ← table value "named_keys"
    navigate := ← list NavigationStep.ofJson? "navigate"
    asType := ← text "as_type"
    filter := ← maybe expr "filter"
    filterText := ← text "filter_text"
    filterOn := ← table expr "filter_on"
    search := ← text "search"
    skip := ← number "skip"
    top := ← number "top"
    expand := ← list expandItemOfJson? "expand"
    select := ← list Json.string? "select"
    orderBy := (← list Json.string? "order_by").map OrderItem.ofText
    count := ← flag "count"
    includeCount := ← flag "include_count"
    link := ← text "link"
    media := ← text "media"
    queryOptions := ← text "query_options"
    function := ← maybe (Invocation.ofJson? .function) "function"
    action := ← maybe (Invocation.ofJson? .action) "action"
    operation := (← maybe Operation.ofJson? "operation").getD .query
    entry := ← maybe (Json.table? value) "entry" }

def ofText (text : String) : Except Error CommandDescription :=
  match (Json.read? text).bind ofJson? with
  | some d => .ok d
  | none => .error (.invalid .malformedCommand)

/-- Inserts and updates without an entry have an empty one. -/
def entryCalls : Operation → Option Entry → List Call
  | .query, some entry => [.set entry]
  | .query, none => []
  | .insert, entry => [.insert (entry.getD .empty)]
  | .update, entry => [.update (entry.getD .empty)]
  | .delete, _ => [.delete]

def stepCalls (s : NavigationStep) : List Call :=
  .navigate s.name :: (s.key.map Call.key).toList

def calls (d : CommandDescription) : List Call :=
  let on {α : Type} (part : Option α) (call : α → Call) : List Call := (part.map call).toList
  let filled {α : Type} (part : List α) (call : List α → Call) : List Call :=
    if part.isEmpty then [] else [call part]
  let flagged (part : Bool) (call : Call) : List Call := if part then [call] else []
  on d.collection .collection ++ filled d.key .key ++ filled d.namedKeys.entries .namedKeys ++
    d.navigate.flatMap stepCalls ++ on d.asType .asType ++ on d.filter .filter ++
    on d.filterText .filterText ++ d.filterOn.entries.map (fun f => .filterOn f.1 f.2) ++
    on d.search .search ++ on d.skip .skip ++ on d.top .top ++
    d.expand.map (fun e => .expand e.1 e.2) ++ filled d.select .select ++
    d.orderBy.map .orderBy ++ flagged d.count .count ++ flagged d.includeCount .includeCount ++
    on d.link .link ++ on d.media .media ++ on d.queryOptions .queryOptions ++
    on d.function .invoke ++ on d.action .invoke ++ entryCalls d.operation d.entry

def command (d : CommandDescription) : Except Error Command := Command.build d.calls

end CommandDescription

end ODataClient
