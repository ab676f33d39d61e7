import ODataClient.Command.Basic
import ODataClient.Text.Blank

/-! Commands built call by call. The first call that is misused decides the error; the
calls after it have no effect. -/

namespace ODataClient

inductive Call
  | collection (name : String)
  | key (values : List Value)
  | namedKeys (pairs : List (String × Value))
  | filter (e : Expr)
  | filterOn (entity : String) (e : Expr)
  | filterText (text : String)
  | search (term : String)
  | skip (count : Nat)
  | top (count : Nat)
  | expand (path : String) (options : ExpandOptions)
  | select (items : List String)
  | orderBy (item : OrderItem)
  | count
  | includeCount
  | navigate (navigation : String)
  | asType (typeName : String)
  | invoke (invocation : Invocation)
  | set (entry : Entry)
  | insert (entry : Entry)
  | update (entry : Entry)
  | delete
  | link (navigation : String)
  | linkTo (navigation : String) (target : Expr)
  | media (name : String)
  | queryOptions (text : String)
  | queryOptionsExpr (e : Expr)
  | queryOption (name : String) (value : Value)
  | inBatch (batch : BatchEntries)
  | batchRef (key : String)

namespace Command

def requireEntity (operation : String) (c : Command) : Except Error Unit :=
  if c.node.segment.isSome then .ok ()
  else .error (.invalidCommand (.collectionNotChosen operation))

def requireText (operation value : String) : Except Error Unit :=
  if isBlankText value then .error (.invalid (.emptyValue operation)) else .ok ()

def requireBoth (operation value : String) (c : Command) : Except Error Unit := do
  c.requireEntity operation
  requireText operation value

def putExpand (path : String) (options : ExpandOptions) :
    List (String × ExpandOptions) → List (String × ExpandOptions)
  | [] => [(path, options)]
  | (p, o) :: r => if sameName p path then (p, options) :: r else (p, o) :: putExpand path options r

def addSelects : List String → List String → Except Error (List String)
  | selects, [] => .ok selects
  | selects, item :: r => do
    requireText "select" item
    addSelects (if item ∈ selects then selects else selects ++ [item]) r

def joinTexts (old : Option String) (text : String) : String :=
  match old with
  | some old => "(" ++ old ++ ") and (" ++ text ++ ")"
  | none => text

def filterEntity (c : Command) (e : Expr) : Command :=
  match c.entityName? with
  | some entity => c.addFilter entity e
  | none => c

def filterEntityText (c : Command) (text : String) : Command :=
  match c.entityName? with
  | some entity => c.setTextFilter entity (joinTexts (c.node.textFilters.get? entity) text)
  | none => c

def step (c : Command) (segment : Segment) : Command :=
  c.branch.update fun n => { n with segment := some segment }

def putEntry (c : Command) (entry : Entry) : Except Error Command := do
  c.requireEntity "set"
  return c.update fun n => { n with entry := some entry }

def putOperation (c : Command) (operation : Operation) : Except Error Command := do
  c.requireEntity "operation"
  return c.update fun n => { n with operation := operation }

def putLink (c : Command) (navigation : String) : Except Error Command := do
  c.requireBoth "link" navigation
  return c.update fun n => { n with link := some navigation }

def putOptions (c : Command) (f : QueryOptions → QueryOptions) : Command :=
  c.update fun n => { n with options := f n.options }

def apply (c : Command) : Call → Except Error Command
  | .collection name => do
    requireText "collection" name
    if c.node.segment.isSome then throw (.invalidCommand .collectionAlreadyChosen)
    return c.update fun n => { n with segment := some (.collection name) }
  | .key values => do
    c.requireEntity "key"
    if values.isEmpty then throw (.invalidCommand .noKeyValues)
    return c.update fun n => { n with keys := .positional values }
  | .namedKeys pairs => do
    c.requireEntity "named_keys"
    if pairs.isEmpty || pairs.any (·.1.isEmpty) then throw (.invalidCommand .emptyKeyName)
    return c.update fun n => { n with keys := .named pairs }
  | .filter e => do
    c.requireEntity "filter"
    return c.filterEntity e
  | .filterOn entity e => do
    c.requireBoth "filter_on" entity
    return c.addFilter entity e
  | .filterText text => do
    c.requireBoth "filter_text" text
    return c.filterEntityText text
  | .search term => do
    c.requireBoth "search" term
    return c.update fun n => { n with search := some term }
  | .skip count => do
    c.requireEntity "skip"
    return c.update fun n => { n with skip := some count }
  | .top count => do
    c.requireEntity "top"
    return c.update fun n => { n with top := some count }
  | .expand path options => do
    c.requireBoth "expand" path
    return c.update fun n => { n with expands := putExpand path options n.expands }
  | .select items => do
    c.requireEntity "select"
    let selects ← addSelects c.node.selects items
    return c.update fun n => { n with selects := selects }
  | .orderBy item => do
    c.requireBoth "order_by" item.name
    return c.update fun n => { n with orderBy := n.orderBy ++ [item] }
  | .count => do
    c.requireEntity "count"
    return c.update fun n => { n with computeCount := true }
  | .includeCount => do
    c.requireEntity "include_count"
    return c.update fun n => { n with includeCount := true }
  | .navigate navigation => do
    c.requireBoth "navigate" navigation
    if c.hasRootFilter then throw (.invalidCommand .navigationAfterFilter)
    return c.step (.navigation navigation)
  | .asType typeName => do
    c.requireBoth "as_type" typeName
    return c.step (.derivedType typeName)
  | .invoke invocation => do
    requireText "function" invocation.name
    if c.node.invocation.isSome then throw (.invalidCommand .secondInvocation)
    return c.update fun n => { n with invocation := some invocation }
  | .set entry => c.putEntry entry
  | .insert entry => do
    let c ← c.putEntry entry
    c.putOperation .insert
  | .update entry => do
    let c ← c.putEntry entry
    c.putOperation .update
  | .delete => c.putOperation .delete
  | .link navigation => c.putLink navigation
  | .linkTo navigation target => do
    let c ← c.putLink navigation
    return c.update fun n => { n with linkTarget := some target }
  | .media name => do
    c.requireBoth "media" name
    return c.update fun n => { n with media := some name }
  | .queryOptions text => do
    requireText "query_options" text
    return c.putOptions fun o =>
      { o with text := some (match o.text with | some old => old ++ "&" ++ text | none => text) }
  | .queryOptionsExpr e =>
    .ok (c.putOptions fun o =>
      { o with expression := some (match o.expression with
        | some old => .binary .and old e
        | none => e) })
  | .queryOption name value => do
    requireText "query_option" name
    return c.putOptions fun o => { o with pairs := o.pairs ++ [(name, value)] }
  | .inBatch batch => .ok (c.update fun n => { n with batch := some batch })
  | .batchRef key => do
    requireText "batch_ref" key
    match c.node.batch with
    | none => throw (.invalidCommand .batchReferenceOutsideBatch)
    | some batch =>
      if (batch.contentId? key).isNone then throw (.invalidCommand (.notRegistered key))
      if c.node.segment.isSome then throw (.invalidCommand .batchReferenceNotFirst)
      return c.update fun n => { n with segment := some (.batchReference key) }

/-- A command needs a target: an entity set, or a function or action. -/
def finished (c : Command) : Except Error Command :=
  if c.node.segment.isNone && c.node.invocation.isNone then .error .missingCollection else .ok c

def build (calls : List Call) : Except Error Command := do
  let c ← calls.foldlM apply empty
  c.finished

end Command

end ODataClient
