import ODataClient.Number.Text

/-! Calendar dates of the proleptic Gregorian calendar, for years of four digits on
either side of zero, and their text `YYYY-MM-DD`. -/

namespace ODataClient

def isLeapYear (y : Int) : Bool := y % 4 == 0 && (y % 100 != 0 || y % 400 == 0)

def daysInMonth (y : Int) (m : Nat) : Nat :=
  if m = 2 then if isLeapYear y then 29 else 28
  else if m ∈ [4, 6, 9, 11] then 30
  else 31

def daysBeforeMonth (y : Int) : Nat → Nat
  | 0 => 0
  | m + 1 => daysBeforeMonth y m + daysInMonth y (m + 1)

def ValidDate (y : Int) (m d : Nat) : Prop :=
  (-9999 ≤ y ∧ y ≤ 9999) ∧ (1 ≤ m ∧ m ≤ 12) ∧ 1 ≤ d ∧ d ≤ daysInMonth y m

instance (y : Int) (m d : Nat) : Decidable (ValidDate y m d) := by
  unfold ValidDate; infer_instance

structure Date where
  year : Int
  month : Nat
  day : Nat
  valid : ValidDate year month day
  deriving DecidableEq

namespace Date

def of? (y : Int) (m d : Nat) : Option Date :=
  if h : ValidDate y m d then some ⟨y, m, d, h⟩ else none

def daysBeforeYear (y : Int) : Int :=
  365 * (y - 1) + (y - 1) / 4 - (y - 1) / 100 + (y - 1) / 400

def dayNumber (d : Date) : Int :=
  daysBeforeYear d.year + daysBeforeMonth d.year (d.month - 1) + (d.day - 1)

/-- Four digits for the year, with a sign only before year zero. -/
def yearChars (y : Int) : List Char :=
  if y < 0 then '-' :: paddedDigits 4 y.natAbs else paddedDigits 4 y.natAbs

def chars (d : Date) : List Char :=
  yearChars d.year ++ '-' :: (paddedDigits 2 d.month ++ '-' :: paddedDigits 2 d.day)

def text (d : Date) : String := String.ofList d.chars

end Date

def takeDigits (n : Nat) (s : List Char) : Option (Nat × List Char) :=
  let front := s.take n
  if front.length = n ∧ front.all isDigit then some (readDigits front, s.drop n) else none

def takeChar (c : Char) : List Char → Option (List Char)
  | [] => none
  | x :: r => if x = c then some r else none

def readDate? (s : List Char) : Option Date := do
  let (negative, s) := readSign s
  let (y, s) ← takeDigits 4 s
  let s ← takeChar '-' s
  let (m, s) ← takeDigits 2 s
  let s ← takeChar '-' s
  let (d, s) ← takeDigits 2 s
  if s = [] then Date.of? (if negative then -(y : Int) else y) m d else none

end ODataClient
