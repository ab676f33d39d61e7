import ODataClient.Json.Number
import ODataClient.Proofs.Number.Digits

/-! Integers of JSON texts. A written integer is read up to its last digit and has its value
again, when 64 bits hold it. -/

namespace ODataClient.Json

/-- A text that no number goes on with. -/
def Ends (s : List Char) : Prop :=
  ∀ c ∈ s.head?, isDigit c = false ∧ c ≠ '.' ∧ isExponentMark c = false

variable {rest : List Char}

theorem readWhole_digitChars (n : Nat) (h : Ends rest) :
    readWhole (digitChars n ++ rest) = some (digitChars n, rest) := by
  obtain ⟨ht, hd⟩ := takeWhile_isDigit_append (fun c hc => isDigit_of_mem_digitChars hc)
    fun c hc => (h c hc).1
  have hrun : readRun (digitChars n ++ rest) = some (digitChars n, rest) := by
    obtain ⟨c, ds, hc⟩ := List.exists_cons_of_ne_nil (digitChars_ne_nil n)
    rw [readRun, ht, hd, hc]
  have hzero : ¬ ((digitChars n).head? = some '0' ∧ (digitChars n).length ≠ 1) :=
    fun hz => hz.2 (length_digitChars_of_head? hz.1)
  rw [readWhole, hrun]
  exact if_neg hzero

theorem readFractionPart_of_ends (h : Ends rest) : readFractionPart rest = some (none, rest) := by
  rw [readFractionPart]
  rintro r rfl
  exact (h '.' rfl).2.1 rfl

theorem readExponentPart_of_ends (h : Ends rest) : readExponentPart rest = some (none, rest) := by
  cases rest with
  | nil => rfl
  | cons c r => rw [readExponentPart, (h c rfl).2.2, if_neg Bool.false_ne_true]

theorem toList_intText (v : Int) :
    (intText v).toList = if v < 0 then '-' :: digitChars v.natAbs else digitChars v.natAbs := by
  rw [intText]
  split <;> simp [digitsText]

theorem exists_cons_intText (v : Int) :
    ∃ c ds, (intText v).toList = c :: ds ∧ ∀ d, d ≠ '-' → isDigit d = false → c ≠ d := by
  rw [toList_intText]
  split
  · exact ⟨_, _, rfl, fun d hd _ => hd.symm⟩
  · obtain ⟨c, ds, hc⟩ := List.exists_cons_of_ne_nil (digitChars_ne_nil v.natAbs)
    have hdigit := isDigit_of_mem_digitChars (n := v.natAbs) (hc ▸ List.mem_cons_self)
    refine ⟨c, ds, hc, fun d _ hd he => ?_⟩
    rw [← he, hdigit] at hd
    exact absurd hd (by decide)

theorem readNumeral_intText (v : Int) (h : Ends rest) :
    readNumeral ((intText v).toList ++ rest) =
      some (⟨decide (v < 0), digitChars v.natAbs, none, none⟩, rest) := by
  have hw := readWhole_digitChars v.natAbs h
  rw [toList_intText]
  by_cases hv : v < 0
  · simp [readNumeral, hv, hw, readFractionPart_of_ends h, readExponentPart_of_ends h]
  · obtain ⟨c, ds, hc⟩ := List.exists_cons_of_ne_nil (digitChars_ne_nil v.natAbs)
    have hsign : c ≠ '-' := by
      rintro rfl
      have hd := isDigit_of_mem_digitChars (n := v.natAbs) (hc ▸ List.mem_cons_self)
      exact absurd hd (by decide)
    rw [hc, List.cons_append] at hw
    rw [if_neg hv, hc]
    simp [readNumeral, hv, hsign, hw, readFractionPart_of_ends h, readExponentPart_of_ends h]

def fits64 (v : Int) : Bool := -9223372036854775808 ≤ v && v < 18446744073709551616

theorem value_numeral {v : Int} (hv : fits64 v = true) :
    (Numeral.mk (decide (v < 0)) (digitChars v.natAbs) none none).value = integer v := by
  simp only [fits64, Bool.and_eq_true, decide_eq_true_eq] at hv
  have hlimit : wordLimit = 18446744073709551616 := rfl
  rw [Numeral.value, readDigits_digitChars]
  by_cases hneg : v < 0
  · have hint : -(v.natAbs : Int) = v := by omega
    rw [if_neg (by simp [hneg]), if_pos ⟨rfl, rfl, by simpa using hneg, by omega, by omega⟩, hint]
  · have hint : (v.natAbs : Int) = v := by omega
    rw [if_pos ⟨rfl, rfl, by simpa using hneg, by omega⟩, hint]

end ODataClient.Json
