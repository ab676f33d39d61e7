import ODataClient.Expr.Basic
import ODataClient.Value.Codec

/-! The JSON form of expressions: an object with the tag `kind` beside the fields of the
node. The text of a node is buffered before its kind is known. -/

namespace ODataClient

def Operator.all : List Operator :=
  [leaf, and, or, eq, ne, gt, ge, lt, le, add, sub, mul, div, mod, has, not, negate]

def Operator.tag : Operator → String
  | leaf => "Default"
  | and => "And"
  | or => "Or"
  | eq => "Equal"
  | ne => "NotEqual"
  | gt => "GreaterThan"
  | ge => "GreaterThanOrEqual"
  | lt => "LessThan"
  | le => "LessThanOrEqual"
  | add => "Add"
  | sub => "Subtract"
  | mul => "Multiply"
  | div => "Divide"
  | mod => "Modulo"
  | has => "Has"
  | not => "Not"
  | negate => "Negate"

def Operator.ofJson? (form : Json.TagForm) (j : Json) : Option Operator := do
  let i ← Json.unit? form (Operator.all.map Operator.tag) j
  Operator.all[i]?

def exprKinds : List String :=
  ["value", "reference", "function", "binary", "unary", "conversion"]

def exprFields : Nat → List String
  | 0 => ["value"]
  | 1 => ["path"]
  | 2 => ["caller", "name", "arguments"]
  | 3 => ["op", "left", "right"]
  | 4 => ["op", "operand"]
  | _ => ["target", "inner"]

namespace Expr

def splitKind? (form : Json.TagForm) : Json → Option (Nat × Json)
  | .object members => do
    let kind ← (← Json.single? "kind" members)
    return (← Json.tag? form exprKinds kind, .object (members.filter fun m => m.1 != "kind"))
  | .array (kind :: items) => do return (← Json.tag? form exprKinds kind, .array items)
  | _ => none

def callOf (caller : Option Expr) (name : String) (arguments : List Expr) : Expr :=
  match caller with
  | some c => method c name arguments
  | none => call name arguments

def ofTree? (form : Json.TagForm) : Nat → Json → Option Expr
  | 0, _ => none
  | fuel + 1, j => do
    let child := ofTree? .namedOrNumbered fuel
    let operator := Operator.ofJson? .namedOrNumbered
    let (kind, rest) ← splitKind? form j
    match kind, ← rest.fields? (exprFields kind) with
    | 0, [some v] => return value (← Value.ofJson? .namedOrNumbered v)
    | 1, [some path] => return reference (← path.string?)
    | 2, [caller, some name, arguments] =>
      let caller ← Json.orDefault (Json.optional? child) none caller
      return callOf caller (← name.string?) (← Json.orDefault (Json.list? child) [] arguments)
    | 3, [some op, some left, some right] =>
      return binary (← operator op) (← child left) (← child right)
    | 4, [some op, some operand] => return unary (← operator op) (← child operand)
    | 5, [some target, some inner] =>
      return conversion (← ValueType.ofJson? .namedOrNumbered target) (← child inner)
    | _, _ => none

/-- The deepest nesting of a tree that is read from a text, and one more. -/
def depthBound : Nat := 130

def ofJson? (form : Json.TagForm) (j : Json) : Option Expr := do
  ofTree? form depthBound (← j.checked?)

mutual

def toJson? : Expr → Except String Json
  | value v => do
    return .object [("kind", .string "value"), ("value", ← v.toJson?)]
  | reference path => .ok (.object [("kind", .string "reference"), ("path", .string path)])
  | call name arguments => do
    return .object [("kind", .string "function"), ("name", .string name),
      ("arguments", .array (← listToJson? arguments))]
  | method caller name arguments => do
    let c ← toJson? caller
    return .object [("kind", .string "function"), ("caller", c), ("name", .string name),
      ("arguments", .array (← listToJson? arguments))]
  | binary op left right => do
    let a ← toJson? left
    let b ← toJson? right
    return .object [("kind", .string "binary"), ("op", .string op.tag), ("left", a), ("right", b)]
  | unary op operand => do
    let a ← toJson? operand
    return .object [("kind", .string "unary"), ("op", .string op.tag), ("operand", a)]
  | conversion target inner => do
    let a ← toJson? inner
    return .object [("kind", .string "conversion"), ("target", .string target.tag), ("inner", a)]

def listToJson? : List Expr → Except String (List Json)
  | [] => .ok []
  | e :: r => do
    let a ← toJson? e
    let l ← listToJson? r
    return a :: l

end

end Expr

end ODataClient
