/-! Double precision numbers as exact dyadic rationals. A finite double is `±m·2^e`
in the one form that the 53-bit significand and the exponent range allow; every
operation that may not be exact rounds to the nearest double, ties to even. -/

namespace ODataClient

/-- The one form in which a finite double is written as `m·2^e`. -/
def Canonical (m : Nat) (e : Int) : Prop :=
  m < Nat.pow 2 53 ∧ -1074 ≤ e ∧ e ≤ 971 ∧ (Nat.pow 2 52 ≤ m ∨ e = -1074)

instance (m : Nat) (e : Int) : Decidable (Canonical m e) := by
  unfold Canonical; infer_instance

inductive Double where
  | nan
  | infinite (negative : Bool)
  | finite (negative : Bool) (m : Nat) (e : Int) (canonical : Canonical m e)
  deriving DecidableEq

namespace Double

/-- `±m·2^e`, or the infinity of that sign when the exponent is out of range. -/
def pack (negative : Bool) (m : Nat) (e : Int) : Double :=
  if h : Canonical m e then .finite negative m e h else .infinite negative

def zero (negative : Bool) : Double := pack negative 0 (-1074)

/-- The integer nearest to `num / den`; a half goes to the even neighbour. -/
def divNearest (num den : Nat) : Nat :=
  let q := num / den
  let r := num % den
  if den < 2 * r ∨ (2 * r = den ∧ q % 2 = 1) then q + 1 else q

def shifted (num den : Nat) (e : Int) : Nat × Nat :=
  (num * Nat.pow 2 (-e).toNat, den * Nat.pow 2 e.toNat)

def exponentOf (num den : Nat) : Int :=
  let e : Int := Nat.log2 num - Nat.log2 den - 52
  let s := shifted num den e
  max (-1074) (if s.1 < Nat.pow 2 52 * s.2 then e - 1 else e)

def ofRatio (negative : Bool) (num den : Nat) : Double :=
  if num = 0 then zero negative
  else
    let e := exponentOf num den
    let s := shifted num den e
    let m := divNearest s.1 s.2
    if m = Nat.pow 2 53 then pack negative (Nat.pow 2 52) (e + 1) else pack negative m e

def ofInt (v : Int) : Double := ofRatio (decide (v < 0)) v.natAbs 1

/-- The double nearest to `±c·10^exp`; exponents far out of range give zero or infinity. -/
def ofDecimal (negative : Bool) (c : Nat) (exp : Int) : Double :=
  if c = 0 then zero negative
  else
    let top := (Nat.toDigits 10 c).length + exp
    if top > 400 then .infinite negative
    else if top < -400 then zero negative
    else ofRatio negative (c * Nat.pow 10 exp.toNat) (Nat.pow 10 (-exp).toNat)

def wholePart (m : Nat) (e : Int) : Nat := m * Nat.pow 2 e.toNat / Nat.pow 2 (-e).toNat

def isWhole (m : Nat) (e : Int) : Bool := m * Nat.pow 2 e.toNat % Nat.pow 2 (-e).toNat == 0

def toInt64 : Double → Int64
  | nan => 0
  | infinite negative => if negative then Int64.minValue else Int64.maxValue
  | finite negative m e _ =>
    let w : Int := wholePart m e
    Int64.ofInt (max Int64.minValue.toInt (min Int64.maxValue.toInt (if negative then -w else w)))

def equal : Double → Double → Bool
  | nan, _ => false
  | _, nan => false
  | finite _ 0 _ _, finite _ 0 _ _ => true
  | a, b => decide (a = b)

def times (a b : Double) : Double :=
  match a, b with
  | finite _ m e _, finite _ m' e' _ =>
    ofRatio false (m * m' * Nat.pow 2 (e + e').toNat) (Nat.pow 2 (-(e + e')).toNat)
  | nan, _ => nan
  | _, nan => nan
  | _, _ => .infinite false

def dividedBy (a b : Double) : Double :=
  match a, b with
  | finite _ m e _, finite _ m' e' _ =>
    ofRatio false (m * Nat.pow 2 (e - e').toNat) (m' * Nat.pow 2 (e' - e).toNat)
  | _, _ => a

def negate : Double → Double
  | nan => nan
  | infinite s => .infinite !s
  | finite s m e h => .finite (!s) m e h

end Double

end ODataClient
