/-! Percent-encoding of literals in URIs. Letters and digits of ASCII and the marks
`-._~'()!*` stand for themselves; every other byte of the UTF-8 form is written as
`%` and two upper-case hexadecimal digits. -/

namespace ODataClient

def isUriSafe (b : UInt8) : Bool :=
  (48 ≤ b && b ≤ 57) || (65 ≤ b && b ≤ 90) || (97 ≤ b && b ≤ 122) ||
    "-._~'()!*".toList.any fun c => c.toNat == b.toNat

def hexDigitUpper (n : Nat) : Char := "0123456789ABCDEF".toList.getD n '0'

def escapeByte (b : UInt8) : List Char :=
  if isUriSafe b then [Char.ofNat b.toNat]
  else ['%', hexDigitUpper (b.toNat / 16), hexDigitUpper (b.toNat % 16)]

def escapeChars (s : List Char) : List Char := (s.flatMap String.utf8EncodeChar).flatMap escapeByte

def escape (s : String) : String := String.ofList (escapeChars s.toList)

end ODataClient
