import ODataClient.Proofs.Expr.Occurrences

/-! The nodes of an expression: the expression itself and all expressions inside it, also those
that only name something, as the variable of a lambda does. The lambdas around a reference are
nodes too, so what binds it is a variable of the expression. -/

namespace ODataClient

namespace Expr

mutual

/-- The expression and all expressions inside it, each one before those inside it. -/
def nodes : Expr → List Expr
  | value v => [value v]
  | reference path => [reference path]
  | call name arguments => call name arguments :: nodesOfAll arguments
  | method caller name arguments =>
    method caller name arguments :: (nodes caller ++ nodesOfAll arguments)
  | binary op left right => binary op left right :: (nodes left ++ nodes right)
  | unary op operand => unary op operand :: nodes operand
  | conversion target inner => conversion target inner :: nodes inner

def nodesOfAll : List Expr → List Expr
  | [] => []
  | e :: r => nodes e ++ nodesOfAll r

end

def children : Expr → List Expr
  | value _ | reference _ => []
  | call _ arguments => arguments
  | method caller _ arguments => caller :: arguments
  | binary _ left right => [left, right]
  | unary _ operand => [operand]
  | conversion _ inner => [inner]

variable {v : String} {e x : Expr}

theorem nodesOfAll_eq (args : List Expr) : nodesOfAll args = args.flatMap nodes := by
  induction args with
  | nil => rw [nodesOfAll, List.flatMap_nil]
  | cons e r ih => rw [nodesOfAll, ih, List.flatMap_cons]

end Expr

end ODataClient
