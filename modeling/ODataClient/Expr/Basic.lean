import ODataClient.Expr.Operator
import ODataClient.Text.Case
import ODataClient.Value.Basic

/-! Expression trees of filters and query options. A lambda is a method call of `any` or
`all` on a reference, with the range variable as its first argument and the body as
its second. -/

namespace ODataClient

inductive Expr
  | value (v : Value)
  | reference (path : String)
  | call (name : String) (arguments : List Expr)
  | method (caller : Expr) (name : String) (arguments : List Expr)
  | binary (op : Operator) (left right : Expr)
  | unary (op : Operator) (operand : Expr)
  | conversion (target : ValueType) (inner : Expr)

namespace Expr

def operator : Expr → Operator
  | binary op _ _ => op
  | unary op _ => op
  | _ => .leaf

def isValue : Expr → Bool
  | value _ => true
  | _ => false

def value? : Expr → Option Value
  | value v => some v
  | _ => none

def reference? : Expr → Option String
  | reference path => some path
  | _ => none

def isLambdaCall (caller : Expr) (name : String) (arguments : List Expr) : Bool :=
  (name == "any" || name == "all") && caller.reference?.isSome && arguments.length == 2 &&
    (arguments.head?.bind reference?).isSome

def lambda? : Expr → Option (String × String × Expr)
  | method (reference collection) name [reference var, body] =>
    if name = "any" ∨ name = "all" then some (collection, var, body) else none
  | _ => none

def boundName (e : Expr) : String := e.reference?.getD ""

def conjuncts : Expr → List Expr
  | binary .and left right => conjuncts left ++ conjuncts right
  | e => [e]

def function (name : String) (arguments : List Expr) : Expr := call (lowerAscii name) arguments

def invoke (caller : Expr) (name : String) (arguments : List Expr) : Expr :=
  method caller (lowerAscii name) arguments

def anyOf (collection var : String) (body : Expr) : Expr :=
  method (reference collection) "any" [reference var, body]

def allOf (collection var : String) (body : Expr) : Expr :=
  method (reference collection) "all" [reference var, body]

theorem lambda?_method (c : Expr) (name : String) (args : List Expr) :
    (lambda? (method c name args)).isSome = isLambdaCall c name args := by
  cases c <;> try (simp [lambda?, isLambdaCall, reference?]; done)
  match args with
  | [] => simp [lambda?, isLambdaCall, reference?]
  | [a] => simp [lambda?, isLambdaCall, reference?]
  | [a, b] =>
    cases a <;> simp [lambda?, isLambdaCall, reference?]
    split <;> simp_all
  | a :: b :: c :: r => simp [lambda?, isLambdaCall, reference?]

theorem conjuncts_and (a b : Expr) :
    conjuncts (binary .and a b) = conjuncts a ++ conjuncts b := by rw [conjuncts]

end Expr

end ODataClient
