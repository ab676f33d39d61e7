import ODataClient.Expr.Basic
import ODataClient.Protocol.Literal

/-! Expressions as they stand in a request. An operand is put into parentheses where it
binds more loosely than its place asks for, and nowhere else. -/

namespace ODataClient

structure Renderer where
  version : Version
  style : LiteralStyle
  escaped : Bool

namespace Renderer

def dialect (r : Renderer) : Dialect := r.version.dialect

def bracketed (min : Nat) (e : Expr) (text : String) : String :=
  if e.operator.precedence < min then "(" ++ text ++ ")" else text

def castText (dialect : Dialect) (inner : String) (target : ValueType) : String :=
  match dialect with
  | .legacy => "cast(" ++ inner ++ ",'" ++ target.edmName ++ "')"
  | .modern => "cast(" ++ inner ++ "," ++ target.edmName ++ ")"

/-- A call with the instance of a method as its first argument. The legacy syntax
writes `contains` as `substringof`, with its two arguments exchanged. -/
def callText (dialect : Dialect) (name : String) (arguments : List String) : String :=
  match dialect, arguments with
  | .legacy, [a, b] =>
    if name = "contains" then "substringof(" ++ b ++ "," ++ a ++ ")"
    else name ++ "(" ++ a ++ "," ++ b ++ ")"
  | _, _ => name ++ "(" ++ String.intercalate "," arguments ++ ")"

def unaryText (op : Operator) (operand : String) : String :=
  match op with
  | .negate => "-" ++ operand
  | _ => op.keyword ++ " " ++ operand

mutual

def render (r : Renderer) : Expr → Except Error String
  | .value v => .ok (r.style.written r.escaped v)
  | .reference path => .ok path
  | .binary op left right => do
    if op = .has ∧ r.dialect = .legacy then throw (.unsupported .hasOperator r.version)
    let a ← render r left
    let b ← render r right
    return bracketed op.precedence left a ++ " " ++ op.keyword ++ " " ++
      bracketed op.rightMinimum right b
  | .unary op operand => do
    let a ← render r operand
    return unaryText op (bracketed op.precedence operand a)
  | .conversion target inner => do
    let a ← render r inner
    return castText r.dialect a target
  | .call name arguments => do
    let parts ← renderArguments r arguments
    return callText r.dialect name parts
  | .method caller name arguments => do
    if Expr.isLambdaCall caller name arguments then
      if !r.version.hasLambdas then throw (.unsupported .lambdaOperators r.version)
      let collection ← render r caller
      let parts ← renderArguments r arguments
      return collection ++ "/" ++ name ++ "(" ++ String.intercalate ":" parts ++ ")"
    else
      let first ← render r caller
      let parts ← renderArguments r arguments
      return callText r.dialect name (first :: parts)

def renderArguments (r : Renderer) : List Expr → Except Error (List String)
  | [] => .ok []
  | e :: rest => do
    let a ← render r e
    let parts ← renderArguments r rest
    return a :: parts

end

def renderMin (r : Renderer) (min : Nat) (e : Expr) : Except Error String :=
  (render r e).map (bracketed min e)

end Renderer

end ODataClient
