import ODataClient.Calendar.Date

/-! Timestamps: a date and a time of day at an offset from UTC. They are written as
RFC 3339 says where it can express them, which is in the years from 0 on and at offsets of
whole minutes below a day. Two timestamps are equal when they name the same instant. -/

namespace ODataClient

def nanosecondsPerSecond : Nat := 1000000000

def ValidTime (hour minute second nanosecond : Nat) : Prop :=
  hour < 24 ∧ minute < 60 ∧ second < 60 ∧ nanosecond < nanosecondsPerSecond

instance (h m s n : Nat) : Decidable (ValidTime h m s n) := by unfold ValidTime; infer_instance

structure Time where
  hour : Nat
  minute : Nat
  second : Nat
  nanosecond : Nat
  valid : ValidTime hour minute second nanosecond
  deriving DecidableEq

def Time.midnight : Time := ⟨0, 0, 0, 0, by decide⟩

/-- Seconds ahead of UTC: above zero east of Greenwich, and always less than 26 hours. -/
structure Offset where
  seconds : Int
  valid : seconds.natAbs < 93600
  deriving DecidableEq

namespace Offset

def utc : Offset := ⟨0, by decide⟩

def hours (o : Offset) : Nat := o.seconds.natAbs / 3600

def minuteOfHour (o : Offset) : Nat := o.seconds.natAbs / 60 % 60

def secondOfMinute (o : Offset) : Nat := o.seconds.natAbs % 60

theorem natAbs_lt {hours minutes : Nat} (h : hours < 24 ∧ minutes < 60) :
    (((hours * 60 + minutes) * 60 : Nat) : Int).natAbs < 93600 := by omega

def ahead? (hours minutes : Nat) : Option Offset :=
  if h : hours < 24 ∧ minutes < 60 then
    some ⟨((hours * 60 + minutes) * 60 : Nat), natAbs_lt h⟩
  else none

def opposite (o : Offset) : Offset := ⟨-o.seconds, by simpa using o.valid⟩

end Offset

structure Timestamp where
  date : Date
  time : Time
  offset : Offset
  deriving DecidableEq

namespace Timestamp

def ofDate (d : Date) : Timestamp := ⟨d, .midnight, .utc⟩

def utcSeconds (t : Timestamp) : Int :=
  t.date.dayNumber * 86400 + ((t.time.hour * 60 + t.time.minute) * 60 + t.time.second : Nat) -
    t.offset.seconds

def instant (t : Timestamp) : Int :=
  t.utcSeconds * nanosecondsPerSecond + t.time.nanosecond

def equal (a b : Timestamp) : Bool := a.instant == b.instant

def dropZerosEnd (s : List Char) : List Char := (s.reverse.dropWhile (· == '0')).reverse

/-- The fraction of a second without zeros at its end; nothing when it is zero. -/
def fractionChars (nanosecond : Nat) : List Char :=
  if nanosecond = 0 then [] else '.' :: dropZerosEnd (paddedDigits 9 nanosecond)

/-- Hours and minutes only. -/
def signedOffsetChars (offset : Offset) : List Char :=
  (if offset.seconds < 0 then '-' else '+') :: (paddedDigits 2 offset.hours ++
    ':' :: paddedDigits 2 offset.minuteOfHour)

def offsetChars (offset : Offset) : List Char :=
  if offset = .utc then ['Z'] else signedOffsetChars offset

/-- RFC 3339 has no years before 0, and no offsets with seconds or of a day and more. -/
def IsExpressible (t : Timestamp) : Prop :=
  0 ≤ t.date.year ∧ t.offset.hours < 24 ∧ t.offset.secondOfMinute = 0

instance (t : Timestamp) : Decidable t.IsExpressible := by unfold IsExpressible; infer_instance

def rfc3339? (t : Timestamp) : Option String :=
  if t.IsExpressible then
    some (String.ofList (t.date.chars ++ 'T' :: (paddedDigits 2 t.time.hour ++ ':' ::
      (paddedDigits 2 t.time.minute ++ ':' :: (paddedDigits 2 t.time.second ++
        (fractionChars t.time.nanosecond ++ offsetChars t.offset))))))
  else none

/-- The form for timestamps beyond RFC 3339: the hour is not padded, a fraction is
always written, and the offset has seconds. -/
def plainChars (t : Timestamp) : List Char :=
  let fraction := if t.time.nanosecond = 0 then ['.', '0'] else fractionChars t.time.nanosecond
  t.date.chars ++ ' ' :: (digitChars t.time.hour ++ ':' :: (paddedDigits 2 t.time.minute ++ ':' ::
    (paddedDigits 2 t.time.second ++
      (fraction ++ ' ' :: (signedOffsetChars t.offset ++
        ':' :: paddedDigits 2 t.offset.secondOfMinute)))))

def text (t : Timestamp) : String := t.rfc3339?.getD (String.ofList t.plainChars)

/-- Whether the day after day number `n` is the first of a month. Four years hold
every length of month, so the years around the day are enough to look at. -/
def endsMonth (d : Date) (n : Int) : Bool :=
  [d.year - 1, d.year, d.year + 1].any fun y =>
    (List.range 12).any fun m =>
      n + 1 == Date.daysBeforeYear y + daysBeforeMonth y m

def mayLeap (t : Timestamp) : Bool :=
  t.utcSeconds % 86400 == 86399 && endsMonth t.date (t.utcSeconds / 86400)

end Timestamp

/-- A fraction of a second in nanoseconds; digits after the ninth are dropped. -/
def readFraction (s : List Char) : Option (Nat × List Char) :=
  match s with
  | '.' :: r =>
    let digits := r.takeWhile isDigit
    if digits = [] then none
    else
      let kept := digits.take 9
      some (readDigits kept * Nat.pow 10 (9 - kept.length), r.dropWhile isDigit)
  | _ => some (0, s)

def readOffset (s : List Char) : Option (Offset × List Char) :=
  match s with
  | [] => none
  | c :: r =>
    if c = 'Z' ∨ c = 'z' then some (.utc, r)
    else if c = '+' ∨ c = '-' then do
      let (h, r) ← takeDigits 2 r
      let r ← takeChar ':' r
      let (m, r) ← takeDigits 2 r
      let ahead ← Offset.ahead? h m
      return (if c = '-' then ahead.opposite else ahead, r)
    else none

/-- Any one-byte character may stand between date and time. A leap second is read as
the last nanosecond before it. -/
def readTimestamp? (s : List Char) : Option Timestamp := do
  let (y, s) ← takeDigits 4 s
  let s ← takeChar '-' s
  let (mo, s) ← takeDigits 2 s
  let s ← takeChar '-' s
  let (d, s) ← takeDigits 2 s
  let date ← Date.of? y mo d
  let s ← match s with
    | [] => none
    | c :: r => if c.toNat < 128 then some r else none
  let (h, s) ← takeDigits 2 s
  let s ← takeChar ':' s
  let (mi, s) ← takeDigits 2 s
  let s ← takeChar ':' s
  let (sec, s) ← takeDigits 2 s
  let (nano, s) ← readFraction s
  let (offset, s) ← readOffset s
  let leap := sec == 60
  let (sec, nano) := if leap then (59, 999999999) else (sec, nano)
  if h' : ValidTime h mi sec nano then
    let t : Timestamp := ⟨date, ⟨h, mi, sec, nano, h'⟩, offset⟩
    if s = [] ∧ (leap = true → t.mayLeap = true) then some t else none
  else none

end ODataClient
