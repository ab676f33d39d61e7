import ODataClient.Proofs.Number.Rounding
import ODataClient.Value.Conversion

/-! Integers of 64 bits converted to doubles. The conversion is taken back to see whether it was
exact, and taking back ends at the largest integer: that one passes although it was rounded up. -/

namespace ODataClient

namespace Double

/-- The integer that the double of an integer stands for. -/
def nearInt (v : Int) : Int := if v < 0 then -(rounded v.natAbs : Int) else rounded v.natAbs

theorem toRat?_ofInt_eq (v : Int64) : (ofInt v.toInt).toRat? = some (nearInt v.toInt : ℚ) := by
  have hlow := v.le_toInt
  have hhigh := v.toInt_lt
  have htop : Nat.log2 v.toInt.natAbs ≤ 1022 := by
    by_cases hzero : v.toInt.natAbs = 0
    · rw [hzero]
      decide
    · have hlt : Nat.log2 v.toInt.natAbs < 64 := (Nat.log2_lt hzero).2 (by omega)
      omega
  rw [toRat?_ofInt v.toInt htop, nearInt]
  by_cases hv : v.toInt < 0
  · simp [hv, sign]
  · simp [hv, sign]

theorem nearInt_eq_of_toRat? {d : Double} {v : Int} (h : d.toRat? = some (v : ℚ)) :
    nearInt v = v := by
  rw [nearInt, rounded_eq_of_toRat? h]
  split <;> omega

/-- The largest integer is rounded up. -/
theorem nearInt_max : nearInt Int64.maxValue.toInt = 9223372036854775808 := by decide

/-- Taking an integer back from its double gives it again if it was exact there, or if both ends
of the range were met. -/
theorem toInt64_ofInt_eq_iff (v : Int64) :
    (ofInt v.toInt).toInt64 = v ↔ nearInt v.toInt = v.toInt ∨ v = Int64.maxValue := by
  have hlow := v.le_toInt
  have hhigh := v.toInt_lt
  have hmin : nearInt (-9223372036854775808) = -9223372036854775808 := by decide
  rw [toInt64_of_toRat? (toRat?_ofInt_eq v), ← Int64.toInt_inj, Int64.toInt_ofInt_of_le,
    ← Int64.toInt_inj, Int64.toInt_maxValue, Int64.toInt_minValue]
  · constructor
    · intro h
      by_cases hend : v.toInt = -9223372036854775808
      · rw [hend, hmin]
        exact .inl rfl
      · omega
    · rintro (h | h)
      · omega
      · rw [h, ← Int64.toInt_maxValue, nearInt_max]
        decide
  · rw [Int64.toInt_maxValue, Int64.toInt_minValue]
    omega
  · rw [Int64.toInt_maxValue, Int64.toInt_minValue]
    omega

end Double

namespace Value

open Double

theorem convert?_double_eq_some_iff {v : Int64} {w : Value} :
    (int64 v).convert? .double = some w ↔
      (nearInt v.toInt = v.toInt ∨ v = Int64.maxValue) ∧ w = .double (ofInt v.toInt) := by
  have hconvert : (int64 v).convert? .double = (exactDouble? v).map double := rfl
  rw [hconvert, ← toInt64_ofInt_eq_iff, exactDouble?]
  by_cases hback : (ofInt v.toInt).toInt64 = v
  · simp [hback, eq_comm]
  · simp [hback]

/-- An integer of 64 bits is given as a double exactly when some double is equal to it, and then
as that one; but the largest integer, which no double is equal to, is given as the next one. -/
theorem convert?_int64_double (v : Int64) :
    (((int64 v).convert? .double).isSome ↔
        (∃ d : Double, d.toRat? = some (v.toInt : ℚ)) ∨ v = Int64.maxValue) ∧
      ∀ w, (int64 v).convert? .double = some w → ∃ d, w = .double d ∧
        d.toRat? = some (if v = Int64.maxValue then 9223372036854775808 else (v.toInt : ℚ)) := by
  constructor
  · rw [Option.isSome_iff_exists]
    constructor
    · rintro ⟨w, hw⟩
      refine (convert?_double_eq_some_iff.1 hw).1.imp_left fun hexact => ⟨ofInt v.toInt, ?_⟩
      rw [toRat?_ofInt_eq, hexact]
    · rintro h
      refine ⟨_, convert?_double_eq_some_iff.2 ⟨h.imp_left ?_, rfl⟩⟩
      rintro ⟨d, hd⟩
      exact nearInt_eq_of_toRat? hd
  · intro w hw
    obtain ⟨hexact, rfl⟩ := convert?_double_eq_some_iff.1 hw
    refine ⟨_, rfl, ?_⟩
    rw [toRat?_ofInt_eq]
    by_cases hv : v = Int64.maxValue
    · rw [if_pos hv, hv, nearInt_max]
      norm_num
    · rw [if_neg hv, hexact.resolve_right hv]

/-- An integer of 63 binary digits, of which the first and the 53rd are set. -/
theorem convert?_int64_double_53_digits :
    (int64 4611686018427388928).convert? .double =
        some (.double (ofInt 4611686018427388928)) ∧
      (ofInt 4611686018427388928).toRat? = some 4611686018427388928 := by
  have h : (int64 4611686018427388928).convert? .double =
      some (.double (ofInt 4611686018427388928)) := by decide
  obtain ⟨d, hd, hvalue⟩ := (convert?_int64_double 4611686018427388928).2 _ h
  obtain rfl := Value.double.inj hd
  have hne : (4611686018427388928 : Int64) ≠ Int64.maxValue := by decide
  rw [if_neg hne] at hvalue
  exact ⟨h, by simpa using hvalue⟩

/-- The largest integer is given as a double that is greater by one. -/
theorem convert?_maxValue_double :
    (int64 Int64.maxValue).convert? .double = some (.double (ofInt Int64.maxValue.toInt)) ∧
      (ofInt Int64.maxValue.toInt).toRat? ≠ some (Int64.maxValue.toInt : ℚ) := by
  refine ⟨convert?_double_eq_some_iff.2 ⟨.inr rfl, rfl⟩, ?_⟩
  rw [toRat?_ofInt_eq, nearInt_max, Int64.toInt_maxValue]
  norm_num

end Value

end ODataClient
