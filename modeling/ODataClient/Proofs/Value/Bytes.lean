import ODataClient.Proofs.Text.Percent
import ODataClient.Proofs.Value.Texts

/-! Bytes read back from upper-case hexadecimal digits and from base 64. -/

namespace ODataClient

theorem ofNat_of_eq_toNat {n : Nat} {b : UInt8} (h : n = b.toNat) : UInt8.ofNat n = b := by
  rw [h, UInt8.ofNat_toNat]

theorem readHex?_hexUpper (bytes : List UInt8) : readHex? (hexUpper bytes) = some bytes := by
  induction bytes with
  | nil => rfl
  | cons b r ih =>
    have hb := b.toNat_lt
    have hjoin : UInt8.ofNat (b.toNat / 16 * 16 + b.toNat % 16) = b :=
      ofNat_of_eq_toNat (Nat.div_add_mod' b.toNat 16)
    have hcons : hexUpper (b :: r) =
        hexDigitUpper (b.toNat / 16) :: hexDigitUpper (b.toNat % 16) :: hexUpper r := rfl
    rw [hcons, readHex?, hexValue?_hexDigitUpper _ (by omega), hexValue?_hexDigitUpper _ (by omega),
      ih]
    simp only [Option.bind_eq_bind, Option.bind_some, hjoin]

def base64Value? (c : Char) : Option Nat :=
  "ABCDEFGHIJKLMNOPQRSTUVWXYZabcdefghijklmnopqrstuvwxyz0123456789+/".toList.findIdx? (· == c)

/-- Four digits are three bytes; in the last group two of them may be one byte and three of them
two. -/
def readBase64? : List Char → Option (List UInt8)
  | [] => some []
  | a :: b :: c :: d :: r => do
    let w ← base64Value? a
    let x ← base64Value? b
    let first := UInt8.ofNat (w * 4 + x / 16)
    if c = '=' then return [first]
    let y ← base64Value? c
    let second := UInt8.ofNat (x % 16 * 16 + y / 4)
    if d = '=' then return [first, second]
    let z ← base64Value? d
    let bytes ← readBase64? r
    return first :: second :: UInt8.ofNat (y % 4 * 64 + z) :: bytes
  | _ => none

theorem base64Value?_base64Digit :
    ∀ n < 64, base64Value? (base64Digit n) = some n ∧ base64Digit n ≠ '=' := by
  decide +kernel

theorem readBase64?_base64 (bytes : List UInt8) : readBase64? (base64 bytes) = some bytes := by
  have hvalue : ∀ {n}, n < 64 → base64Value? (base64Digit n) = some n := fun h =>
    (base64Value?_base64Digit _ h).1
  have hdigit : ∀ {n}, n < 64 → base64Digit n ≠ '=' := fun h => (base64Value?_base64Digit _ h).2
  fun_induction base64 bytes with
  | case1 => rfl
  | case2 a n =>
    have ha := a.toNat_lt
    have hfirst : UInt8.ofNat (n / 64 * 4 + n % 64 / 16) = a := ofNat_of_eq_toNat (by omega)
    simp only [readBase64?, hvalue (by omega : n / 64 < 64), hvalue (by omega : n % 64 < 64),
      Option.bind_eq_bind, Option.bind_some, if_true, hfirst, Option.pure_def]
  | case3 a b n =>
    have ha := a.toNat_lt
    have hb := b.toNat_lt
    have hfirst : UInt8.ofNat (n / 4096 * 4 + n / 64 % 64 / 16) = a := ofNat_of_eq_toNat (by omega)
    have hsecond : UInt8.ofNat (n / 64 % 64 % 16 * 16 + n % 64 / 4) = b :=
      ofNat_of_eq_toNat (by omega)
    simp only [readBase64?, hvalue (by omega : n / 4096 < 64), hvalue (by omega : n / 64 % 64 < 64),
      hvalue (by omega : n % 64 < 64), Option.bind_eq_bind, Option.bind_some,
      if_neg (hdigit (by omega : n % 64 < 64)), if_true, hfirst, hsecond, Option.pure_def]
  | case4 a b c r n ih =>
    have ha := a.toNat_lt
    have hb := b.toNat_lt
    have hc := c.toNat_lt
    have hfirst : UInt8.ofNat (n / 262144 * 4 + n / 4096 % 64 / 16) = a :=
      ofNat_of_eq_toNat (by omega)
    have hsecond : UInt8.ofNat (n / 4096 % 64 % 16 * 16 + n / 64 % 64 / 4) = b :=
      ofNat_of_eq_toNat (by omega)
    have hthird : UInt8.ofNat (n / 64 % 64 % 4 * 64 + n % 64) = c := ofNat_of_eq_toNat (by omega)
    simp only [readBase64?, hvalue (by omega : n / 262144 < 64),
      hvalue (by omega : n / 4096 % 64 < 64), hvalue (by omega : n / 64 % 64 < 64),
      hvalue (by omega : n % 64 < 64), Option.bind_eq_bind, Option.bind_some,
      if_neg (hdigit (by omega : n / 64 % 64 < 64)), if_neg (hdigit (by omega : n % 64 < 64)),
      hfirst, hsecond, hthird, ih, Option.pure_def]

end ODataClient
