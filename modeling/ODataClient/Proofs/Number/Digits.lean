import ODataClient.Calendar.Date

/-! Written digits read back. Leading zeros that fill a number up to a width change nothing, and
a number that is not filled up has none. -/

namespace ODataClient

variable {n width : Nat}

theorem readDigits_eq (s : List Char) : readDigits s = Nat.ofDigitChars 10 s 0 := by
  simp only [readDigits, Nat.ofDigitChars, digitValue, Nat.mul_comm]

theorem isDigit_of_mem_digitChars {c : Char} (h : c ∈ digitChars n) : isDigit c = true :=
  Nat.isDigit_of_mem_toDigits (by decide) (by decide) h

theorem digitChars_ne_nil (n : Nat) : digitChars n ≠ [] := Nat.toDigits_ne_nil

theorem readDigits_digitChars (n : Nat) : readDigits (digitChars n) = n := by
  rw [readDigits_eq]
  exact Nat.ofDigitChars_ten_toDigits

theorem head?_digitChars (h : (digitChars n).head? = some '0') : n = 0 := by
  induction n using Nat.strongRecOn with
  | ind n ih =>
    by_cases hn : n < 10
    · rw [digitChars, Nat.toDigits_of_lt_base hn] at h
      exact Nat.digitChar_eq_zero.1 (Option.some.inj h)
    · have hs : digitChars n = digitChars (n / 10) ++ [(n % 10).digitChar] :=
        Nat.toDigits_of_base_le (by decide) (by omega)
      obtain ⟨c, ds, hc⟩ := List.exists_cons_of_ne_nil (digitChars_ne_nil (n / 10))
      rw [hs, hc] at h
      have hz := ih (n / 10) (by omega) (by rw [hc]; exact h)
      omega

/-- Only the digits of zero begin with a zero, and there it is the only digit. -/
theorem length_digitChars_of_head? (h : (digitChars n).head? = some '0') :
    (digitChars n).length = 1 := by
  rw [head?_digitChars h]
  rfl

theorem isDigit_of_mem_paddedDigits {c : Char} (h : c ∈ paddedDigits width n) :
    isDigit c = true := by
  rcases List.mem_append.1 h with h | h
  · rw [List.eq_of_mem_replicate h]
    rfl
  · exact isDigit_of_mem_digitChars h

theorem readDigits_paddedDigits (width n : Nat) : readDigits (paddedDigits width n) = n := by
  rw [readDigits_eq, paddedDigits, Nat.ofDigitChars_append, Nat.ofDigitChars_replicate_zero,
    Nat.mul_zero]
  exact Nat.ofDigitChars_ten_toDigits

theorem length_paddedDigits (hw : 0 < width) (hn : n < Nat.pow 10 width) :
    (paddedDigits width n).length = width := by
  have hle : (digitChars n).length ≤ width := (Nat.length_toDigits_le_iff (by decide) hw).2 hn
  rw [paddedDigits, List.length_append, List.length_replicate]
  omega

theorem takeWhile_isDigit_append {ds rest : List Char} (hd : ∀ c ∈ ds, isDigit c = true)
    (hr : ∀ c ∈ rest.head?, isDigit c = false) :
    (ds ++ rest).takeWhile isDigit = ds ∧ (ds ++ rest).dropWhile isDigit = rest := by
  rw [List.takeWhile_append_of_pos hd, List.dropWhile_append_of_pos hd]
  cases rest with
  | nil => simp
  | cons c r => simp [hr c rfl]

theorem readSign_unsigned {s : List Char} (h : ∀ c ∈ s.head?, c ≠ '-' ∧ c ≠ '+') :
    readSign s = (false, s) := by
  rw [readSign]
  · rintro r rfl
    exact (h '-' rfl).1 rfl
  · rintro r rfl
    exact (h '+' rfl).2 rfl

theorem takeDigits_paddedDigits (hw : 0 < width) (hn : n < Nat.pow 10 width) (rest : List Char) :
    takeDigits width (paddedDigits width n ++ rest) = some (n, rest) := by
  have hl := length_paddedDigits hw hn
  have hd : (paddedDigits width n).all isDigit = true :=
    List.all_eq_true.2 fun c hc => isDigit_of_mem_paddedDigits hc
  simp only [takeDigits, List.take_left' hl, List.drop_left' hl, hl, hd, and_self, if_true,
    readDigits_paddedDigits]

theorem takeDigits_two (hn : n < 100) (rest : List Char) :
    takeDigits 2 (paddedDigits 2 n ++ rest) = some (n, rest) :=
  takeDigits_paddedDigits (by decide) hn rest

theorem takeDigits_four (hn : n < 10000) (rest : List Char) :
    takeDigits 4 (paddedDigits 4 n ++ rest) = some (n, rest) :=
  takeDigits_paddedDigits (by decide) hn rest

theorem takeChar_cons (c : Char) (rest : List Char) : takeChar c (c :: rest) = some rest := by
  rw [takeChar, if_pos rfl]

end ODataClient
