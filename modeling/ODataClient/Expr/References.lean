import ODataClient.Expr.Basic
import ODataClient.Text.Parts

/-! Replacing the references of an expression. A reference whose first segment is the
range variable of an enclosing lambda is bound and stays as it is, and so does the
range variable itself. -/

namespace ODataClient.Expr

mutual

/-- Every free reference replaced by `f`, under lambdas that bind `scopes`. -/
def mapScoped (f : String → String) (scopes : List String) : Expr → Expr
  | value v => value v
  | reference path =>
    if headSegment path ∈ scopes then reference path else reference (f path)
  | call name arguments => call name (mapArguments f scopes arguments)
  | method caller name arguments =>
    if isLambdaCall caller name arguments then
      method (mapScoped f scopes caller) name (mapLambda f scopes arguments)
    else method (mapScoped f scopes caller) name (mapArguments f scopes arguments)
  | binary op left right => binary op (mapScoped f scopes left) (mapScoped f scopes right)
  | unary op operand => unary op (mapScoped f scopes operand)
  | conversion target inner => conversion target (mapScoped f scopes inner)

def mapArguments (f : String → String) (scopes : List String) : List Expr → List Expr
  | [] => []
  | e :: r => mapScoped f scopes e :: mapArguments f scopes r

def mapLambda (f : String → String) (scopes : List String) : List Expr → List Expr
  | [] => []
  | var :: body => var :: mapArguments f (boundName var :: scopes) body

end

def mapReferences (f : String → String) (e : Expr) : Expr := mapScoped f [] e

def qualified (path : String) (e : Expr) : Expr := e.mapReferences fun r => path ++ "/" ++ r

def dropSegments (depth : Nat) (path : String) : String :=
  let segs := segments path
  if depth < segs.length then joinSegments (segs.drop depth) else path

def relativize (depth : Nat) (e : Expr) : Expr := e.mapReferences (dropSegments depth)

end ODataClient.Expr
