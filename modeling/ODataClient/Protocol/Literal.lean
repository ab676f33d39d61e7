import ODataClient.Text.Percent
import ODataClient.Text.Quoted
import ODataClient.Value.Basic

/-! Literals as they stand in a request. The legacy syntax marks the type of a number by
a letter and the type of a quoted body by a word; the modern syntax leaves most
types to the service. -/

namespace ODataClient

/-- The syntax of literals; enumeration literals of the modern syntax may drop their type. -/
inductive LiteralStyle
  | legacy
  | modern (enumTypeFree : Bool)
  deriving DecidableEq

/-- Whole numbers below `10^15` keep one decimal place; others take the fewest digits. -/
def doubleLiteral : Double → String
  | .nan => "NaN"
  | .infinite negative => if negative then "-INF" else "INF"
  | .finite negative m e h =>
    if Double.isWhole m e ∧ Double.wholePart m e < 1000000000000000 then
      signed negative (digitChars (Double.wholePart m e) ++ ['.', '0'])
    else (Double.finite negative m e h).plainText

def wrapped (word : String) (body : List Char) : String :=
  String.ofList (word.toList ++ '\'' :: (body ++ ['\'']))

def commonLiteral : Value → String
  | .null => "null"
  | .bool b => boolText b
  | .int32 v => intText v.toInt
  | .string s => quote s
  | _ => ""

def legacyLiteral (v : Value) : String :=
  match v.underlying with
  | .int64 v => intText v.toInt ++ "L"
  | .double d => doubleLiteral d ++ "D"
  | .decimal s => s ++ "M"
  | .guid g => wrapped "guid" g.chars
  | .date d => wrapped "datetime" (d.chars ++ "T00:00:00".toList)
  | .timestamp t => wrapped "datetimeoffset" t.text.toList
  | .binary b => wrapped "X" (hexUpper b)
  | w => commonLiteral w

def modernLiteral (enumTypeFree : Bool) : Value → String
  | .int64 v => intText v.toInt
  | .double d => doubleLiteral d
  | .decimal s => s
  | .guid g => g.text
  | .date d => d.text
  | .timestamp t => t.text
  | .binary b => wrapped "binary" (base64 b)
  | .enum m => wrapped (if enumTypeFree then "" else m.typeName) m.member.toList
  | w => commonLiteral w

def LiteralStyle.literal : LiteralStyle → Value → String
  | legacy, v => legacyLiteral v
  | modern enumTypeFree, v => modernLiteral enumTypeFree v

def LiteralStyle.written (style : LiteralStyle) (escaped : Bool) (v : Value) : String :=
  if escaped then escape (style.literal v) else style.literal v

end ODataClient
