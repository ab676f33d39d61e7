import ODataClient.Filter.Partition
import ODataClient.Request.Adapter

/-! Custom query options: those of the raw text, then the terms of the expression, then
the single pairs. -/

namespace ODataClient

def Clause.ofPiece (piece : List Char) : Clause :=
  match cutFirst '=' piece with
  | some (name, value) => ⟨String.ofList name, String.ofList value⟩
  | none => ⟨String.ofList piece, ""⟩

def Clause.ofRawText (text : String) : List Clause :=
  ((parts '&' text.toList).filter fun p => p ≠ []).map Clause.ofPiece

namespace Adapter

def optionTerm (a : Adapter) : Expr → Except Error Clause
  | .binary .eq left right =>
    match left.reference?, right.value? with
    | some name, some v => .ok ⟨name, a.keyLiteral v⟩
    | _, _ => .error (.invalidCommand .optionNotNameEqValue)
  | _ => .error (.invalidCommand .optionNotNameEqValue)

def optionExpression (a : Adapter) : Option Expr → Except Error (List Clause)
  | none => .ok []
  | some e => do
    checkQueryOption e
    e.conjuncts.mapM a.optionTerm

def pairClause (a : Adapter) (pair : String × Value) : Clause := ⟨pair.1, a.keyLiteral pair.2⟩

def customOptions (a : Adapter) (options : QueryOptions) : Except Error (List Clause) := do
  let raw := (options.text.map Clause.ofRawText).getD []
  let terms ← a.optionExpression options.expression
  return raw ++ terms ++ options.pairs.map a.pairClause

end Adapter

end ODataClient
