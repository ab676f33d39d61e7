import ODataClient.Text.Percent
import ODataClient.Value.Bytes

/-! Escaped texts read back: the bytes of the percent-encoding first, then their UTF-8 form. -/

namespace ODataClient

/-- The bytes of a text in a URI. A percent sign with two hexadecimal digits is one byte; any
other character stands for its UTF-8 form. -/
def percentBytes : List Char → List UInt8
  | [] => []
  | [c] => String.utf8EncodeChar c
  | [c, d] => String.utf8EncodeChar c ++ String.utf8EncodeChar d
  | c :: d :: e :: r =>
    match hexValue? d, hexValue? e with
    | some x, some y =>
      if c = '%' then UInt8.ofNat (x * 16 + y) :: percentBytes r
      else String.utf8EncodeChar c ++ percentBytes (d :: e :: r)
    | _, _ => String.utf8EncodeChar c ++ percentBytes (d :: e :: r)

def percentDecode (s : String) : Option String :=
  String.fromUTF8? (percentBytes s.toList).toByteArray

theorem hexValue?_hexDigitUpper : ∀ n < 16, hexValue? (hexDigitUpper n) = some n := by
  decide +kernel

theorem percentBytes_percent (b : UInt8) (r : List Char) :
    percentBytes ('%' :: hexDigitUpper (b.toNat / 16) :: hexDigitUpper (b.toNat % 16) :: r) =
      b :: percentBytes r := by
  have hb := b.toNat_lt
  have hjoin : b.toNat / 16 * 16 + b.toNat % 16 = b.toNat := Nat.div_add_mod' b.toNat 16
  rw [percentBytes, hexValue?_hexDigitUpper _ (by omega), hexValue?_hexDigitUpper _ (by omega)]
  simp [hjoin]

theorem percentBytes_cons {c : Char} (h : c ≠ '%') (r : List Char) :
    percentBytes (c :: r) = String.utf8EncodeChar c ++ percentBytes r := by
  match r with
  | [] => simp [percentBytes]
  | [d] => simp [percentBytes]
  | d :: e :: r =>
    rw [percentBytes]
    split
    · rw [if_neg h]
    · rfl

theorem utf8EncodeChar_of_isUriSafe : ∀ n < 256, isUriSafe (UInt8.ofNat n) →
    Char.ofNat n ≠ '%' ∧ String.utf8EncodeChar (Char.ofNat n) = [UInt8.ofNat n] := by
  decide +kernel

theorem percentBytes_escapeByte (b : UInt8) (r : List Char) :
    percentBytes (escapeByte b ++ r) = b :: percentBytes r := by
  rw [escapeByte]
  split
  next hsafe =>
    obtain ⟨hp, hb⟩ := utf8EncodeChar_of_isUriSafe b.toNat b.toNat_lt (by rwa [UInt8.ofNat_toNat])
    rw [List.singleton_append, percentBytes_cons hp, hb, UInt8.ofNat_toNat, List.singleton_append]
  next => exact percentBytes_percent b r

theorem percentBytes_escapeChars (s : List Char) :
    percentBytes (escapeChars s) = s.flatMap String.utf8EncodeChar := by
  rw [escapeChars]
  induction s.flatMap String.utf8EncodeChar with
  | nil => rfl
  | cons b bytes ih => rw [List.flatMap_cons, percentBytes_escapeByte, ih]

theorem percentDecode_escape (s : String) : percentDecode (escape s) = some s := by
  have hbytes : (percentBytes (escape s).toList).toByteArray = s.toByteArray := by
    rw [escape, String.toList_ofList, percentBytes_escapeChars, ← String.utf8Encode_toList,
      List.utf8Encode]
  rw [percentDecode, hbytes, String.fromUTF8?, dif_pos s.isValidUTF8]
  rfl

end ODataClient
