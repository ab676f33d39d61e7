import ODataClient.Json.Basic

/-! Numbers in JSON texts. Digits without a point or an exponent are an integer when 64
bits hold it. Every other number is a significand of at most 64 bits and a power of
ten: digits that do not fit any more are dropped, those before the point counting
for the power, and one rounded product or quotient gives the double. -/

namespace ODataClient.Json

structure Numeral where
  negative : Bool
  whole : List Char
  fraction : Option (List Char)
  exponent : Option (Bool × List Char)

def readRun (s : List Char) : Option (List Char × List Char) :=
  match s.takeWhile isDigit with
  | [] => none
  | ds => some (ds, s.dropWhile isDigit)

def readWhole (s : List Char) : Option (List Char × List Char) := do
  let (ds, r) ← readRun s
  if ds.head? = some '0' ∧ ds.length ≠ 1 then none else some (ds, r)

def readFractionPart : List Char → Option (Option (List Char) × List Char)
  | '.' :: r => (readRun r).map fun (ds, r) => (some ds, r)
  | r => some (none, r)

def readExponentPart : List Char → Option (Option (Bool × List Char) × List Char)
  | [] => some (none, [])
  | c :: r =>
    if isExponentMark c then
      let (negative, r) := readSign r
      (readRun r).map fun (ds, r) => (some (negative, ds), r)
    else some (none, c :: r)

def readNumeral (s : List Char) : Option (Numeral × List Char) := do
  let (negative, s) := match s with
    | '-' :: r => (true, r)
    | r => (false, r)
  let (whole, s) ← readWhole s
  let (fraction, s) ← readFractionPart s
  let (exponent, s) ← readExponentPart s
  some (⟨negative, whole, fraction, exponent⟩, s)

def wordLimit : Nat := UInt64.size

def significand (n : Nat) : List Char → Nat × List Char
  | [] => (n, [])
  | c :: r => if n * 10 + digitValue c < wordLimit then significand (n * 10 + digitValue c) r
    else (n, c :: r)

/-- One step of the scaling, or another after a division by the largest power kept;
`fuel` bounds the steps, and three divisions leave zero. -/
def scaled (f : Double) (exp : Int) : Nat → Option Double
  | 0 => some f
  | fuel + 1 =>
    if exp.natAbs ≤ 308 then
      let power := Double.ofRatio false (Nat.pow 10 exp.natAbs) 1
      if exp ≥ 0 then
        match f.times power with
        | .infinite _ => none
        | g => some g
      else some (f.dividedBy power)
    else if f = .zero false then some f
    else if exp ≥ 0 then none
    else scaled (f.dividedBy (Double.ofRatio false (Nat.pow 10 308) 1)) (exp + 308) fuel

/-- The power of ten of an exponent; beyond 32 bits only its sign counts. -/
def exponentValue (negative : Bool) (digits : List Char) : Int :=
  let n := min (readDigits digits) 2147483648
  if negative then -(n : Int) else n

/-- The double that the numeral stands for; `none` when it is out of range. -/
def Numeral.double? (x : Numeral) : Option Double :=
  let (n, dropped) := significand 0 x.whole
  let fraction := x.fraction.getD []
  let (n, rest) := significand n fraction
  let kept := fraction.length - rest.length
  let exp : Int := dropped.length - kept + match x.exponent with
    | some (negative, digits) => exponentValue negative digits
    | none => 0
  (scaled (.ofInt n) exp 4).map fun f => if x.negative then f.negate else f

def Numeral.value (x : Numeral) : Json :=
  let n := readDigits x.whole
  if x.fraction.isNone ∧ x.exponent.isNone ∧ ¬ x.negative ∧ n < wordLimit then integer n
  else if x.fraction.isNone ∧ x.exponent.isNone ∧ x.negative ∧ 0 < n ∧ n ≤ 9223372036854775808 then
    integer (-(n : Int))
  else
    match x.double? with
    | some d => double d
    | none => illFormed

end ODataClient.Json
