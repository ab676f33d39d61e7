import ODataClient.Number.Double

/-! The fewest decimal digits that read back as a given double. The reals that round to
the double form an interval; on the grids of 1, 2, … decimal digits the first grid
with a point in the interval decides, and of its points the one nearest to the
double is taken. -/

namespace ODataClient

structure Decimal10 where
  coefficient : Nat
  exponent : Int
  deriving DecidableEq

inductive HalfWay
  | up
  | even
  deriving DecidableEq

structure RoundingInterval where
  low : Nat
  value : Nat
  high : Nat
  den : Nat
  closed : Bool

def RoundingInterval.ofDyadic (m : Nat) (e : Int) : RoundingInterval :=
  let below := if m = Nat.pow 2 52 ∧ e ≠ -1074 then 1 else 2
  let up := Nat.pow 2 (e - 2).toNat
  { low := (4 * m - below) * up
    value := 4 * m * up
    high := (4 * m + 2) * up
    den := Nat.pow 2 (2 - e).toNat
    closed := m % 2 == 0 }

def leadingZeros (den : Nat) : Nat → Nat → Nat
  | 0, _ => 0
  | fuel + 1, num => if den ≤ num * 10 then 0 else leadingZeros den fuel (num * 10) + 1

def pointPosition (num den : Nat) : Int :=
  if den ≤ num then (Nat.toDigits 10 (num / den)).length else -(leadingZeros den 400 num)

namespace RoundingInterval

def inUnits (i : RoundingInterval) (u : Int) : RoundingInterval :=
  let up := Nat.pow 10 (-u).toNat
  ⟨i.low * up, i.value * up, i.high * up, i.den * Nat.pow 10 u.toNat, i.closed⟩

def reachesDown (i : RoundingInterval) (c : Nat) : Bool :=
  if i.closed then i.low ≤ c * i.den else i.low < c * i.den

def reachesUp (i : RoundingInterval) (c : Nat) : Bool :=
  if i.closed then c * i.den ≤ i.high else c * i.den < i.high

def nearest (i : RoundingInterval) (half : HalfWay) : Nat :=
  let c := i.value / i.den
  let r := i.value % i.den
  if 2 * r < i.den then c
  else if 2 * r = i.den ∧ half = .even ∧ c % 2 = 0 then c
  else c + 1

def hit (i : RoundingInterval) (half : HalfWay) : Option Nat :=
  let c := i.value / i.den
  match i.reachesDown c, i.reachesUp (c + 1) with
  | true, true => some (i.nearest half)
  | true, false => some c
  | false, true => some (c + 1)
  | false, false => none

def firstHit (i : RoundingInterval) (half : HalfWay) (k : Int) : Nat → Nat → Decimal10
  | 0, n => ⟨(i.inUnits (k - n)).nearest half, k - n⟩
  | fuel + 1, n =>
    match (i.inUnits (k - n)).hit half with
    | some c => ⟨c, k - n⟩
    | none => firstHit i half k fuel (n + 1)

end RoundingInterval

def Decimal10.stripped : Nat → Decimal10 → Decimal10
  | 0, d => d
  | fuel + 1, d =>
    if d.coefficient ≠ 0 ∧ d.coefficient % 10 = 0 then
      stripped fuel ⟨d.coefficient / 10, d.exponent + 1⟩
    else d

def shortestDecimal (half : HalfWay) (m : Nat) (e : Int) : Decimal10 :=
  let i := RoundingInterval.ofDyadic m e
  let k := pointPosition i.value i.den
  (i.firstHit half k 16 1).stripped 20

end ODataClient
