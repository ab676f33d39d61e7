import ODataClient.Value.Guid

/-! Hexadecimal digits read back, and with them the grouped text of a unique identifier. -/

namespace ODataClient

theorem hexValue?_hexDigit : ∀ n < 16, hexValue? (hexDigitUpper n).toLower = some n := by
  decide +kernel

theorem readHex?_byte (b : UInt8) (s : List Char) :
    readHex? (hexByteLower b ++ s) = (readHex? s).map (b :: ·) := by
  have hb := b.toNat_lt
  have hjoin : b.toNat / 16 * 16 + b.toNat % 16 = b.toNat := Nat.div_add_mod' b.toNat 16
  have hread : readHex? (hexByteLower b ++ s) = (readHex? s).bind fun bytes =>
      some (UInt8.ofNat (b.toNat / 16 * 16 + b.toNat % 16) :: bytes) := by
    simp [hexByteLower, hexByteUpper, readHex?, hexValue?_hexDigit _ (by omega : b.toNat / 16 < 16),
      hexValue?_hexDigit _ (by omega : b.toNat % 16 < 16)]
  rw [hread, hjoin, UInt8.ofNat_toNat]
  cases readHex? s <;> rfl

theorem readHex?_bytes (bytes : List UInt8) : readHex? (bytes.flatMap hexByteLower) = some bytes := by
  induction bytes with
  | nil => rfl
  | cons b r ih => rw [List.flatMap_cons, readHex?_byte, ih, Option.map_some]

theorem length_hexBytes (bytes : List UInt8) :
    (bytes.flatMap hexByteLower).length = 2 * bytes.length := by
  induction bytes with
  | nil => rfl
  | cons b r ih =>
    rw [List.flatMap_cons, List.length_append, ih, List.length_cons]
    simp [hexByteLower, hexByteUpper]
    omega

namespace Guid

theorem ofDigits?_hex (g : Guid) : ofDigits? (g.bytes.toList.flatMap hexByteLower) = some g := by
  obtain ⟨⟨bytes, hsize⟩⟩ := g
  simp [ofDigits?, readHex?_bytes, hsize]

theorem ofGrouped?_groups {a b c d e : List Char} (ha : a.length = 8) (hb : b.length = 4)
    (hc : c.length = 4) (hd : d.length = 4) (he : e.length = 12) :
    ofGrouped? (a ++ '-' :: (b ++ '-' :: (c ++ '-' :: (d ++ '-' :: e)))) =
      ofDigits? (a ++ b ++ c ++ d ++ e) := by
  simp [ofGrouped?, List.drop_append, List.getElem?_append,
    List.drop_eq_nil_of_le, ha, hb, hc, hd, he]

theorem groups_append (hex : List Char) :
    hex.take 8 ++ (hex.drop 8).take 4 ++ (hex.drop 12).take 4 ++ (hex.drop 16).take 4 ++
      hex.drop 20 = hex := by
  rw [← List.take_add, ← List.take_add, ← List.take_add, List.take_append_drop]

theorem read?_chars (g : Guid) : read? g.chars = some g := by
  have hl : (g.bytes.toList.flatMap hexByteLower).length = 32 := by
    rw [length_hexBytes, Vector.length_toList]
  have hg : ofGrouped? g.chars = some g := by
    rw [chars, ofGrouped?_groups (by simp [hl]) (by simp [hl]) (by simp [hl]) (by simp [hl])
      (by simp [hl]), groups_append]
    exact g.ofDigits?_hex
  have h36 : g.chars.length = 36 := by simp [chars, hl]
  simp [read?, h36, hg]

end Guid

end ODataClient
