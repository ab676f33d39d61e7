import ODataClient.Number.Shortest
import ODataClient.Text.Parts

/-! Numbers as text: the written form of integers and doubles, and its readers. -/

namespace ODataClient

def digitChars (n : Nat) : List Char := Nat.toDigits 10 n

def digitsText (n : Nat) : String := String.ofList (digitChars n)

def paddedDigits (width n : Nat) : List Char :=
  List.replicate (width - (digitChars n).length) '0' ++ digitChars n

def intText (v : Int) : String :=
  if v < 0 then String.ofList ('-' :: digitChars v.natAbs) else digitsText v.natAbs

/-- Digits with a point after the first `k`, filled up with zeros; no point at the end. -/
def positional (digits : List Char) (k : Int) : List Char :=
  if k ≤ 0 then '0' :: '.' :: (List.replicate (-k).toNat '0' ++ digits)
  else if digits.length ≤ k.toNat then digits ++ List.replicate (k.toNat - digits.length) '0'
  else digits.take k.toNat ++ '.' :: digits.drop k.toNat

def signed (negative : Bool) (s : List Char) : String :=
  String.ofList (if negative then '-' :: s else s)

namespace Double

def plainText : Double → String
  | nan => "NaN"
  | infinite negative => if negative then "-inf" else "inf"
  | finite negative m e _ =>
    if m = 0 then signed negative ['0']
    else
      let d := shortestDecimal .up m e
      let digits := digitChars d.coefficient
      signed negative (positional digits (digits.length + d.exponent))

/-- The number of a JSON text: always a point or an exponent, and an exponent outside
`10^-5` to `10^16`. -/
def jsonDigits (d : Decimal10) : List Char :=
  let digits := digitChars d.coefficient
  let k := digits.length + d.exponent
  if 0 ≤ d.exponent ∧ k ≤ 16 then positional digits k ++ ['.', '0']
  else if -5 < k ∧ k ≤ 16 then positional digits k
  else
    let mantissa := if digits.length = 1 then digits else digits.take 1 ++ '.' :: digits.drop 1
    mantissa ++ 'e' :: (intText (k - 1)).toList

def jsonText : Double → String
  | finite negative m e _ =>
    if m = 0 then signed negative ['0', '.', '0']
    else signed negative (jsonDigits (shortestDecimal .even m e))
  | _ => "null"

end Double

def isDigit (c : Char) : Bool := '0' ≤ c && c ≤ '9'

def digitValue (c : Char) : Nat := c.toNat - '0'.toNat

def readDigits (s : List Char) : Nat := s.foldl (fun n c => n * 10 + digitValue c) 0

def readNat? (s : List Char) : Option Nat :=
  if s ≠ [] ∧ s.all isDigit then some (readDigits s) else none

def readSign : List Char → Bool × List Char
  | '-' :: r => (true, r)
  | '+' :: r => (false, r)
  | r => (false, r)

def readInt? (s : List Char) : Option Int :=
  let (negative, r) := readSign s
  (readNat? r).map fun n => if negative then -(n : Int) else n

def int32? (v : Int) : Option Int32 :=
  if -2147483648 ≤ v ∧ v < 2147483648 then some (Int32.ofInt v) else none

def int64? (v : Int) : Option Int64 :=
  if -9223372036854775808 ≤ v ∧ v < 9223372036854775808 then some (Int64.ofInt v) else none

def readInt32? (s : String) : Option Int32 := (readInt? s.toList).bind int32?

def readInt64? (s : String) : Option Int64 := (readInt? s.toList).bind int64?

def readFixed? (s : List Char) : Option (Nat × Nat) :=
  let whole := s.takeWhile isDigit
  match s.dropWhile isDigit with
  | [] => if whole = [] then none else some (readDigits whole, 0)
  | c :: frac =>
    if c = '.' ∧ frac.all isDigit ∧ ¬ (whole = [] ∧ frac = []) then
      some (readDigits (whole ++ frac), frac.length)
    else none

def isExponentMark (c : Char) : Bool := c == 'e' || c == 'E'

/-- Optional sign, digits with at most one point, optional exponent; or a name of
infinity or of no number, in any case. -/
def readDouble? (s : String) : Option Double :=
  let (negative, r) := readSign s.toList
  let name := String.ofList (r.map Char.toLower)
  if name = "inf" ∨ name = "infinity" then some (.infinite negative)
  else if name = "nan" then some .nan
  else
    let mantissa := r.takeWhile fun c => !isExponentMark c
    match readFixed? mantissa, r.dropWhile fun c => !isExponentMark c with
    | some (c, places), [] => some (.ofDecimal negative c (-places))
    | some (c, places), _ :: exponent =>
      (readInt? exponent).map fun x => .ofDecimal negative c (x - places)
    | none, _ => none

/-- Digits, or digits around the first point, where one side may be empty. -/
def isFixedText (s : List Char) : Bool :=
  match cutFirst '.' s with
  | some (whole, fraction) =>
    (!whole.isEmpty || !fraction.isEmpty) && whole.all isDigit && fraction.all isDigit
  | none => !s.isEmpty && s.all isDigit

def isDecimalText (s : String) : Bool := isFixedText (readSign s.toList).2

end ODataClient
