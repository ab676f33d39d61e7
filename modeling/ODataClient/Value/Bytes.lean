import ODataClient.Text.Percent

/-! Bytes written as hexadecimal digits and in base 64. -/

namespace ODataClient

def hexByteUpper (b : UInt8) : List Char :=
  [hexDigitUpper (b.toNat / 16), hexDigitUpper (b.toNat % 16)]

def hexUpper (bytes : List UInt8) : List Char := bytes.flatMap hexByteUpper

def hexByteLower (b : UInt8) : List Char := (hexByteUpper b).map Char.toLower

def hexValue? (c : Char) : Option Nat :=
  if '0' ≤ c ∧ c ≤ '9' then some (c.toNat - 48)
  else if 'a' ≤ c ∧ c ≤ 'f' then some (c.toNat - 87)
  else if 'A' ≤ c ∧ c ≤ 'F' then some (c.toNat - 55)
  else none

def readHex? : List Char → Option (List UInt8)
  | [] => some []
  | a :: b :: r => do
    let x ← hexValue? a
    let y ← hexValue? b
    let bytes ← readHex? r
    some (UInt8.ofNat (x * 16 + y) :: bytes)
  | _ => none

def base64Digit (n : Nat) : Char :=
  "ABCDEFGHIJKLMNOPQRSTUVWXYZabcdefghijklmnopqrstuvwxyz0123456789+/".toList.getD n 'A'

/-- Four digits for three bytes; a shorter group at the end is filled up with `=`. -/
def base64 : List UInt8 → List Char
  | [] => []
  | [a] =>
    let n := a.toNat * 16
    [base64Digit (n / 64), base64Digit (n % 64), '=', '=']
  | [a, b] =>
    let n := (a.toNat * 256 + b.toNat) * 4
    [base64Digit (n / 4096), base64Digit (n / 64 % 64), base64Digit (n % 64), '=']
  | a :: b :: c :: r =>
    let n := (a.toNat * 256 + b.toNat) * 256 + c.toNat
    base64Digit (n / 262144) :: base64Digit (n / 4096 % 64) :: base64Digit (n / 64 % 64) ::
      base64Digit (n % 64) :: base64 r

end ODataClient
