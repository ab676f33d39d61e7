import ODataClient.Json.Printer
import ODataClient.Json.Reader

/-! Strings of JSON texts. Each character is written so that it reads back as one unit, its code
point, and the code points of a string are no surrogates. -/

namespace ODataClient.Json

theorem hexDigit?_hexLower : ∀ n < 16, hexDigit? (hexLower n) = some n := by decide

theorem readUnits_short {c e : Char} (h : shortEscape? c = some e) (hu : c ≠ 'u')
    (r : List Char) :
    readUnits ('\\' :: c :: r) = (readUnits r).map fun p => (e.toNat :: p.1, p.2) := by
  rw [readUnits, h]
  · cases readUnits r <;> rfl
  · rintro a b d e r' rfl
    exact absurd rfl hu

theorem readUnits_control {c : Char} (h : c.toNat < 32) (r : List Char) :
    readUnits ('\\' :: 'u' :: '0' :: '0' :: hexLower (c.toNat / 16) :: hexLower (c.toNat % 16) :: r) =
      (readUnits r).map fun p => (c.toNat :: p.1, p.2) := by
  have hz : hexDigit? '0' = some 0 := rfl
  have hhigh := hexDigit?_hexLower (c.toNat / 16) (by omega)
  have hlow := hexDigit?_hexLower (c.toNat % 16) (by omega)
  have hunit : hexUnit? '0' '0' (hexLower (c.toNat / 16)) (hexLower (c.toNat % 16)) =
      some c.toNat := by
    have hc : ((0 * 16 + 0) * 16 + c.toNat / 16) * 16 + c.toNat % 16 = c.toNat := by omega
    simp only [hexUnit?, hz, hhigh, hlow, Option.bind_eq_bind, Option.bind_some, hc]
  rw [readUnits, hunit]
  cases readUnits r <;> rfl

theorem readUnits_plain {c : Char} (hq : c ≠ '"') (hb : c ≠ '\\') (hc : ¬ c.toNat < 32)
    (r : List Char) : readUnits (c :: r) = (readUnits r).map fun p => (c.toNat :: p.1, p.2) := by
  rw [readUnits]
  · rw [if_neg hq, if_neg (by simp [hb, hc])]
  · exact fun a b d e r' h => absurd h hb
  · exact fun c' r' h => absurd h hb

theorem readUnits_escapedChar (c : Char) (r : List Char) :
    readUnits (escapedChar c ++ r) = (readUnits r).map fun p => (c.toNat :: p.1, p.2) := by
  have hcode : ∀ n, c.toNat = n → Char.ofNat n = c := fun n hn => hn ▸ Char.ofNat_toNat c
  rw [escapedChar]
  split
  next h => subst h; exact readUnits_short rfl (by decide) r
  split
  next h => subst h; exact readUnits_short rfl (by decide) r
  split
  next h => subst h; exact readUnits_short rfl (by decide) r
  split
  next h => subst h; exact readUnits_short rfl (by decide) r
  split
  next h => subst h; exact readUnits_short rfl (by decide) r
  split
  next h => rw [← hcode 8 h]; exact readUnits_short rfl (by decide) r
  split
  next h => rw [← hcode 12 h]; exact readUnits_short rfl (by decide) r
  split
  next h => exact readUnits_control h r
  next hq hb _ _ _ _ _ hc => exact readUnits_plain hq hb hc r

theorem readUnits_escaped (s rest : List Char) :
    readUnits (s.flatMap escapedChar ++ '"' :: rest) = some (s.map Char.toNat, rest) := by
  induction s with
  | nil => rfl
  | cons c s ih =>
    rw [List.flatMap_cons, List.append_assoc, readUnits_escapedChar, ih]
    rfl

theorem not_surrogate (c : Char) :
    isHighSurrogate c.toNat = false ∧ isLowSurrogate c.toNat = false := by
  have hv : c.toNat < 0xD800 ∨ 0xDFFF < c.toNat ∧ c.toNat < 0x110000 := c.valid
  constructor
  · simp only [isHighSurrogate, Bool.and_eq_false_iff, decide_eq_false_iff_not]
    omega
  · simp only [isLowSurrogate, Bool.and_eq_false_iff, decide_eq_false_iff_not]
    omega

theorem ofUnits?_map_toNat (s : List Char) : ofUnits? (s.map Char.toNat) = some s := by
  induction s with
  | nil => rfl
  | cons c s ih =>
    obtain ⟨hhigh, hlow⟩ := not_surrogate c
    cases s with
    | nil => simp [ofUnits?, hhigh, hlow]
    | cons d s =>
      rw [List.map_cons] at ih
      simp [ofUnits?, hhigh, hlow, ih]

theorem readString_stringChars (s : String) (rest : List Char) :
    readString (s.toList.flatMap escapedChar ++ '"' :: rest) = some (some s, rest) := by
  simp [readString, readUnits_escaped, ofUnits?_map_toNat]

end ODataClient.Json
