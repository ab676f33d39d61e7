import ODataClient.Expr.References
import ODataClient.Filter.Target
import ODataClient.Text.Table
import ODataClient.Value.Conversion

/-! Filters split by the entity that each part must be evaluated against. The operands
of the `and` nodes at the top are filed one by one: under the only entity that the
free references of the operand target, or under the root when they target none or
several. -/

namespace ODataClient

structure FilterOptions where
  dialect : Dialect
  queryOption : Bool
  /-- A part that targets several entities is an error. -/
  strict : Bool

abbrev EntityFilters := Table (List Expr)

structure Targeted where
  expr : Expr
  targets : List String

def checkOptionOperator (queryOption : Bool) (e : Expr) : Except Error Unit :=
  if queryOption && !e.operator.allowedInOption then
    .error (.queryOptionOperator e.operator.keyword)
  else .ok ()

def coerceLiteral (target : ValueType) (v : Value) : Expr :=
  match v.convert? target with
  | some w => .value w
  | none => .conversion target (.value v.underlying)

mutual

/-- The expression with its references taken relative to the entities they target; those
that start at one of `scopes`, the variables of the lambdas around, stay as they are. -/
def retarget (nav : Navigator) (options : FilterOptions) (root : String) (scopes : List String) :
    Expr → Except Error Targeted
  | .value v => .ok ⟨.value v, []⟩
  | .reference path =>
    if headSegment path ∈ scopes then .ok ⟨.reference path, []⟩
    else do
      let t ← referenceTarget nav options.dialect root path
      return ⟨.reference t.kept, [t.entity]⟩
  | .call name arguments => do
    let (args, targets) ← retargetArguments nav options root scopes arguments
    return ⟨.call name args, targets⟩
  | .method caller name arguments => do
    let c ← retarget nav options root scopes caller
    let (args, targets) ←
      if Expr.isLambdaCall caller name arguments then
        retargetLambda nav options root scopes arguments
      else retargetArguments nav options root scopes arguments
    return ⟨.method c.expr name args, c.targets ++ targets⟩
  | .binary op left right => do
    checkOptionOperator options.queryOption (.binary op left right)
    let a ← retarget nav options root scopes left
    let b ← retarget nav options root scopes right
    return ⟨.binary op a.expr b.expr, a.targets ++ b.targets⟩
  | .unary op operand => do
    checkOptionOperator options.queryOption (.unary op operand)
    let a ← retarget nav options root scopes operand
    return ⟨.unary op a.expr, a.targets⟩
  | .conversion target inner =>
    match inner.value? with
    | some v => .ok ⟨coerceLiteral target v, []⟩
    | none => do
      let a ← retarget nav options root scopes inner
      return ⟨.conversion target a.expr, a.targets⟩

def retargetArguments (nav : Navigator) (options : FilterOptions) (root : String)
    (scopes : List String) : List Expr → Except Error (List Expr × List String)
  | [] => .ok ([], [])
  | e :: r => do
    let a ← retarget nav options root scopes e
    let (args, targets) ← retargetArguments nav options root scopes r
    return (a.expr :: args, a.targets ++ targets)

def retargetLambda (nav : Navigator) (options : FilterOptions) (root : String)
    (scopes : List String) : List Expr → Except Error (List Expr × List String)
  | [] => .ok ([], [])
  | var :: body => do
    let (args, targets) ← retargetArguments nav options root (var.boundName :: scopes) body
    return (var :: args, targets)

end

def distinctNames (names : List String) : List String :=
  (Table.ofList (names.map fun n => (n, ()))).names

def filing (options : FilterOptions) (root : String) (whole : Expr) (t : Targeted) :
    Except Error (String × Expr) :=
  match distinctNames t.targets with
  | [] => .ok (root, t.expr)
  | [entity] => .ok (entity, t.expr)
  | entities => if options.strict then .error (.ambiguousTarget entities) else .ok (root, whole)

def fileConjunct (nav : Navigator) (options : FilterOptions) (root : String)
    (filters : EntityFilters) (e : Expr) : Except Error EntityFilters := do
  let t ← retarget nav options root [] e
  let (entity, kept) ← filing options root e t
  return filters.append entity [kept]

def partitionFilter (nav : Navigator) (options : FilterOptions) (e : Expr) (root : String) :
    Except Error EntityFilters := do
  let root ← nav.requireCollection root
  e.conjuncts.foldlM (fileConjunct nav options root) .empty

mutual

def checkQueryOption : Expr → Except Error Unit
  | .value _ => .ok ()
  | .reference _ => .ok ()
  | .call _ arguments => checkQueryArguments arguments
  | .method caller _ arguments => do
    checkQueryOption caller
    checkQueryArguments arguments
  | .binary op left right => do
    checkOptionOperator true (.binary op left right)
    checkQueryOption left
    checkQueryOption right
  | .unary op operand => do
    checkOptionOperator true (.unary op operand)
    checkQueryOption operand
  | .conversion _ inner => checkQueryOption inner

def checkQueryArguments : List Expr → Except Error Unit
  | [] => .ok ()
  | e :: r => do
    checkQueryOption e
    checkQueryArguments r

end

end ODataClient
