/-! Operators of expressions, with their keywords and how strongly they bind. -/

namespace ODataClient

/-- `leaf` stands for no operator: it is what literals, references and calls report. -/
inductive Operator
  | leaf
  | and
  | or
  | eq
  | ne
  | gt
  | ge
  | lt
  | le
  | add
  | sub
  | mul
  | div
  | mod
  | has
  | not
  | negate
  deriving DecidableEq, Repr

namespace Operator

def keyword : Operator → String
  | leaf => ""
  | and => "and"
  | or => "or"
  | eq => "eq"
  | ne => "ne"
  | gt => "gt"
  | ge => "ge"
  | lt => "lt"
  | le => "le"
  | add => "add"
  | sub => "sub"
  | mul => "mul"
  | div => "div"
  | mod => "mod"
  | has => "has"
  | not => "not"
  | negate => "-"

def precedence : Operator → Nat
  | or => 1
  | and => 2
  | eq | ne | gt | ge | lt | le | has => 3
  | add | sub => 4
  | mul | div | mod => 5
  | not | negate => 6
  | leaf => 7

/-- Whether the right operand may carry the same operator without parentheses. -/
def isAssociative : Operator → Bool
  | and | or | add | mul => true
  | _ => false

def rightMinimum (op : Operator) : Nat :=
  if op.isAssociative then op.precedence else op.precedence + 1

/-- The operators of custom query options. -/
def allowedInOption : Operator → Bool
  | leaf | and | eq => true
  | _ => false

end Operator

end ODataClient
