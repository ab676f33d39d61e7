import ODataClient.Request.CustomOptions
import ODataClient.Request.ExpandTree
import ODataClient.Request.Qualifier
import ODataClient.Request.Target

/-! The clauses of a query. They come in one order, whatever the order of the calls:
filter, search, expand, select, order, skip, top, count, custom options, and the
parameters of a legacy function. -/

namespace ODataClient

/-- A predicate and where it goes: into the filter, into the filter as a text of the
command's own entity set, or into the expand item of an entity path. -/
inductive Predicate
  | part (text : String)
  | own (text : String)
  | nested (path : String) (text : String)

def wrapperVariable : String := "x"

def anyLambda (path var text : String) : String :=
  path ++ "/any(" ++ var ++ ":" ++ text ++ ")"

def Expr.isLambdaOver (path : String) (e : Expr) : Bool :=
  match e.lambda? with
  | some (collection, _, _) => sameName collection path
  | none => false

def Command.isExpanded (c : Command) (path : String) : Bool :=
  c.node.expands.any fun item => sameName item.1 path

namespace Predicate

def part? : Predicate → Option String
  | part text => some text
  | _ => none

def own? : Predicate → Option String
  | own text => some text
  | _ => none

def nestedTable (predicates : List Predicate) : Table (List String) :=
  predicates.foldl (fun t p => match p with
    | nested path text => t.append path [text]
    | _ => t) .empty

/-- The predicates of the filter, joined by `and`; own texts come last, and in
parentheses when they are not alone. -/
def filterText? (predicates : List Predicate) : Option String :=
  let parts := predicates.filterMap part?
  let own := predicates.filterMap own?
  if parts.length + own.length = 0 then none
  else
    let own := if parts.length + own.length = 1 then own else own.map fun t => "(" ++ t ++ ")"
    some (String.intercalate " and " (parts ++ own))

end Predicate

namespace Adapter

def conjunct (a : Adapter) (e : Expr) : Except Error String :=
  a.renderer.renderMin Operator.and.precedence e

def relative (a : Adapter) (path : String) (e : Expr) : Expr :=
  match a.dialect with
  | .legacy => e.relativize (segments path).length
  | .modern => e

def nests (a : Adapter) (c : Command) (path : String) : Bool :=
  a.dialect == .modern && c.isExpanded path

def relatedPredicate (a : Adapter) (c : Command) (path : String) (e : Expr) :
    Except Error Predicate :=
  if e.isLambdaOver path then (a.conjunct e).map .part
  else
    let inner := a.relative path e
    if a.nests c path then (a.conjunct inner).map (.nested path)
    else
      (a.renderer.render (inner.qualified wrapperVariable)).map fun t =>
        .part (anyLambda path wrapperVariable t)

def textPredicate (a : Adapter) (c : Command) (t : CommandTarget) (entity text : String) :
    Predicate :=
  if sameName entity t.entityKey then .own text
  else if a.nests c entity then .nested entity (unqualify (rangeVariable entity) text)
  else .part (anyLambda entity (rangeVariable entity) text)

def CommandTarget.rootBucket (t : CommandTarget) : String := t.collection.getD t.entityKey

def predicates (a : Adapter) (c : Command) (t : CommandTarget) (filters : EntityFilters) :
    Except Error (List Predicate) := do
  let root := CommandTarget.rootBucket t
  let own ← ((filters.get? root).getD []).mapM a.conjunct
  let related ← (filters.entries.filter fun b => b.1 != root).mapM fun b =>
    b.2.mapM (a.relatedPredicate c b.1)
  let texts := c.node.textFilters.entries.map fun p => a.textPredicate c t p.1 p.2
  return own.map .part ++ related.flatten ++ texts

def searchClause (a : Adapter) : Option String → Except Error (List Clause)
  | none => .ok []
  | some term =>
    match a.dialect with
    | .legacy => .error (.unsupported .search a.version)
    | .modern => .ok [⟨"$search", term⟩]

/-- The legacy syntax has only plain expand items; their selections join the others. -/
def legacyExpandItem (a : Adapter) (item : String × ExpandOptions) :
    Except Error (List String) := do
  if item.2.levels.isSome then throw (.unsupported .expandLevels a.version)
  if !item.2.orderBy.isEmpty then throw (.unsupported .expandOrderBy a.version)
  if item.2.byRef then throw (.unsupported .expandRef a.version)
  return item.2.select.map fun s => item.1 ++ "/" ++ s

def expand (a : Adapter) (items : List (String × ExpandOptions)) (nested : Table (List String)) :
    Except Error (List String × List String) :=
  match a.dialect with
  | .legacy => do
    let selects ← items.mapM a.legacyExpandItem
    return (items.map (·.1), selects.flatten)
  | .modern => .ok (ExpandNode.texts (ExpandNode.ofItems items nested.entries), [])

def listClause (name : String) (items : List String) : List Clause :=
  if items.isEmpty then [] else [⟨name, String.intercalate "," items⟩]

def orderClause (items : List OrderItem) : List Clause :=
  if items.isEmpty then [] else [⟨"$orderby", orderList items⟩]

theorem orderClause_eq_listClause (items : List OrderItem) :
    orderClause items = listClause "$orderby" (items.map orderText) := by
  rw [orderClause, listClause, List.isEmpty_map]
  rfl

def addMissing (items more : List String) : List String :=
  more.foldl (fun l s => if s ∈ l then l else l ++ [s]) items

def countClause (a : Adapter) : Clause :=
  match a.dialect with
  | .legacy => ⟨"$inlinecount", "allpages"⟩
  | .modern => ⟨"$count", "true"⟩

def parameterClauses (a : Adapter) (c : Command) : List Clause :=
  match a.dialect, c.node.invocation with
  | .legacy, some call => call.parameters.map a.pairClause
  | _, _ => []

def numberClause (name : String) : Option Nat → List Clause
  | some n => [⟨name, digitsText n⟩]
  | none => []

def clauses (a : Adapter) (c : Command) (filters : EntityFilters) : Except Error (List Clause) := do
  let t ← a.target c
  let predicates ← a.predicates c t filters
  let search ← a.searchClause c.node.search
  let (expand, selects) ← a.expand c.node.expands (Predicate.nestedTable predicates)
  let custom ← a.customOptions c.node.options
  return ((Predicate.filterText? predicates).map (Clause.mk "$filter")).toList ++ search ++
    listClause "$expand" expand ++ listClause "$select" (addMissing c.node.selects selects) ++
    orderClause c.node.orderBy ++
    numberClause "$skip" c.node.skip ++ numberClause "$top" c.node.top ++
    (if c.node.includeCount then [a.countClause] else []) ++
    custom ++ a.parameterClauses c

end Adapter

end ODataClient
