import ODataClient.Calendar.Timestamp
import ODataClient.Proofs.Number.Digits

/-! Written dates and timestamps read back. A date is read from its text for every year, and a
timestamp from its text where it can be written, with its offset and to the nanosecond. -/

namespace ODataClient

variable {n : Nat} {rest : List Char}

theorem readSign_digits {s : List Char} (h : ∀ c ∈ s.head?, isDigit c = true) :
    readSign s = (false, s) := by
  refine readSign_unsigned fun c hc => ⟨?_, ?_⟩
  · rintro rfl
    exact absurd (h '-' hc) (by decide)
  · rintro rfl
    exact absurd (h '+' hc) (by decide)

theorem isDigit_of_head?_paddedDigits {width : Nat} :
    ∀ c ∈ (paddedDigits width n ++ rest).head?, isDigit c = true := by
  intro c hc
  have hne : paddedDigits width n ≠ [] := by simp [paddedDigits, digitChars_ne_nil]
  obtain ⟨d, ds, hd⟩ := List.exists_cons_of_ne_nil hne
  rw [hd] at hc
  obtain rfl := Option.some.inj hc
  exact isDigit_of_mem_paddedDigits (hd ▸ List.mem_cons_self)

namespace Date

theorem of?_eq (d : Date) : of? d.year d.month d.day = some d := dif_pos d.valid

theorem daysInMonth_le (y : Int) (m : Nat) : daysInMonth y m ≤ 31 := by
  rw [daysInMonth]
  split
  · split <;> decide
  · split <;> decide

theorem readSign_yearChars (y : Int) (rest : List Char) :
    readSign (yearChars y ++ rest) = (decide (y < 0), paddedDigits 4 y.natAbs ++ rest) := by
  rw [yearChars]
  by_cases hy : y < 0
  · rw [if_pos hy, List.cons_append, readSign, decide_eq_true hy]
  · rw [if_neg hy, readSign_digits isDigit_of_head?_paddedDigits, decide_eq_false hy]

theorem readDate?_chars (d : Date) : readDate? d.chars = some d := by
  obtain ⟨⟨hlow, hhigh⟩, ⟨-, hm⟩, -, hd⟩ := d.valid
  have hle := daysInMonth_le d.year d.month
  have hday : takeDigits 2 (paddedDigits 2 d.day) = some (d.day, []) := by
    simpa using takeDigits_two (n := d.day) (by omega) []
  have hyear : (if d.year < 0 then -(d.year.natAbs : Int) else d.year.natAbs) = d.year := by
    split <;> omega
  rw [readDate?, chars, readSign_yearChars]
  simp only [takeDigits_four (n := d.year.natAbs) (by omega), takeDigits_two (n := d.month) (by omega),
    hday, takeChar_cons, Option.bind_eq_bind, Option.bind_some, decide_eq_true_eq, hyear, if_true]
  exact d.of?_eq

end Date

namespace Timestamp

theorem exists_dropZerosEnd (s : List Char) :
    ∃ k, s = dropZerosEnd s ++ List.replicate k '0' := by
  have hz : ∀ c ∈ s.reverse.takeWhile (· == '0'), c = '0' := fun c hc =>
    beq_iff_eq.1 (List.all_eq_true.1 List.all_takeWhile c hc)
  refine ⟨(s.reverse.takeWhile (· == '0')).length, ?_⟩
  have h := congrArg List.reverse (List.takeWhile_append_dropWhile (p := (· == '0')) (l := s.reverse))
  rw [List.reverse_append, List.reverse_reverse, List.eq_replicate_of_mem hz, List.reverse_replicate] at h
  rw [dropZerosEnd, h]

theorem readFraction_fractionChars (hn : n < nanosecondsPerSecond)
    (hr : ∀ c ∈ rest.head?, isDigit c = false ∧ c ≠ '.') :
    readFraction (fractionChars n ++ rest) = some (n, rest) := by
  rw [fractionChars]
  split
  next h0 =>
    rw [readFraction, h0]
    · rfl
    · rintro r rfl
      exact (hr '.' rfl).2 rfl
  next h0 =>
    obtain ⟨k, hk⟩ := exists_dropZerosEnd (paddedDigits 9 n)
    have hten : nanosecondsPerSecond = Nat.pow 10 9 := by decide
    have hlt : n < Nat.pow 10 9 := hten ▸ hn
    have h9 : (paddedDigits 9 n).length = 9 := length_paddedDigits (by decide) hlt
    have hlen : (dropZerosEnd (paddedDigits 9 n)).length + k = 9 := by
      have h := congrArg List.length hk
      rw [h9, List.length_append, List.length_replicate] at h
      exact h.symm
    have hdigits : ∀ c ∈ dropZerosEnd (paddedDigits 9 n), isDigit c = true := by
      intro c hc
      have hmem : c ∈ paddedDigits 9 n := by
        rw [hk]
        exact List.mem_append_left _ hc
      exact isDigit_of_mem_paddedDigits hmem
    have hvalue : readDigits (dropZerosEnd (paddedDigits 9 n)) * Nat.pow 10 k = n := by
      have h := readDigits_paddedDigits 9 n
      rw [hk, readDigits_eq, Nat.ofDigitChars_append, Nat.ofDigitChars_replicate_zero] at h
      rw [readDigits_eq, Nat.mul_comm]
      exact h
    have hne : dropZerosEnd (paddedDigits 9 n) ≠ [] := by
      intro he
      rw [he] at hvalue
      exact h0 (by simpa [readDigits] using hvalue.symm)
    obtain ⟨ht, hd⟩ := takeWhile_isDigit_append hdigits fun c hc => (hr c hc).1
    have hkept : (dropZerosEnd (paddedDigits 9 n)).take 9 = dropZerosEnd (paddedDigits 9 n) :=
      List.take_of_length_le (by omega)
    have hplaces : 9 - (dropZerosEnd (paddedDigits 9 n)).length = k := by omega
    simp only [List.cons_append, readFraction, ht, hd, if_neg hne, hkept, hplaces, hvalue]

/-- An offset of whole minutes below a day is read from its hours and minutes. -/
theorem readOffset_signedOffsetChars {o : Offset} (hh : o.hours < 24)
    (hs : o.secondOfMinute = 0) : readOffset (signedOffsetChars o) = some (o, []) := by
  have hminute : o.minuteOfHour < 60 := Nat.mod_lt _ (by decide)
  have hm : takeDigits 2 (paddedDigits 2 o.minuteOfHour) = some (o.minuteOfHour, []) := by
    simpa using takeDigits_two (n := o.minuteOfHour) (by omega) []
  have hwhole : (o.hours * 60 + o.minuteOfHour) * 60 = o.seconds.natAbs := by
    rw [Offset.secondOfMinute] at hs
    rw [Offset.hours, Offset.minuteOfHour]
    omega
  have hahead : Offset.ahead? o.hours o.minuteOfHour = some ⟨o.seconds.natAbs, o.valid⟩ := by
    rw [Offset.ahead?, dif_pos ⟨hh, hminute⟩]
    simp only [Option.some.injEq, Offset.mk.injEq]
    omega
  rw [signedOffsetChars, readOffset]
  simp only [takeDigits_two (n := o.hours) (by omega), takeChar_cons, hm, hahead,
    Option.bind_eq_bind, Option.bind_some]
  by_cases hneg : o.seconds < 0
  · have hback : (⟨o.seconds.natAbs, o.valid⟩ : Offset).opposite = o := by
      obtain ⟨m, hm⟩ := o
      simp only [Offset.opposite, Offset.mk.injEq] at hneg ⊢
      omega
    rw [if_pos hneg, hback]
    rfl
  · have hsame : (⟨o.seconds.natAbs, o.valid⟩ : Offset) = o := by
      obtain ⟨m, hm⟩ := o
      simp only [Offset.mk.injEq] at hneg ⊢
      omega
    rw [if_neg hneg, hsame]
    rfl

theorem readOffset_offsetChars {o : Offset} (hh : o.hours < 24) (hs : o.secondOfMinute = 0) :
    readOffset (offsetChars o) = some (o, []) := by
  rw [offsetChars]
  split
  next h =>
    rw [h]
    rfl
  next => exact readOffset_signedOffsetChars hh hs

theorem head?_offsetChars (o : Offset) :
    ∀ c ∈ (offsetChars o).head?, isDigit c = false ∧ c ≠ '.' := by
  intro c hc
  have h : c = 'Z' ∨ c = '-' ∨ c = '+' := by
    rw [offsetChars, signedOffsetChars] at hc
    split at hc
    · exact .inl (Option.some.inj hc).symm
    · split at hc
      · exact .inr (.inl (Option.some.inj hc).symm)
      · exact .inr (.inr (Option.some.inj hc).symm)
  rcases h with rfl | rfl | rfl <;> decide

theorem bind_of_some {α β : Type} {x : Option α} {f : α → Option β} {a : α} {b : β}
    (hx : x = some a) (h : f a = some b) : (x >>= f) = some b := by
  rw [hx]
  exact h

theorem readTimestamp?_rfc3339 {t : Timestamp} {s : String} (h : t.rfc3339? = some s) :
    readTimestamp? s.toList = some t := by
  rw [rfc3339?] at h
  split at h
  next hexpressible =>
    obtain ⟨hy, hhours, hseconds⟩ := hexpressible
    obtain rfl := Option.some.inj h
    obtain ⟨⟨-, hhigh⟩, ⟨-, hmonth⟩, -, hday⟩ := t.date.valid
    obtain ⟨hhour, hminute, hsecond, hnano⟩ := t.time.valid
    have hdays := Date.daysInMonth_le t.date.year t.date.month
    have hyear : Date.yearChars t.date.year = paddedDigits 4 t.date.year.natAbs :=
      if_neg (by omega)
    have hdate : Date.of? (t.date.year.natAbs : Int) t.date.month t.date.day = some t.date := by
      rw [Int.natAbs_of_nonneg hy]
      exact t.date.of?_eq
    have hfraction := readFraction_fractionChars hnano (head?_offsetChars t.offset)
    rw [String.toList_ofList, readTimestamp?, Date.chars, hyear]
    simp only [List.append_assoc, List.cons_append]
    refine bind_of_some (takeDigits_four (by omega) _) ?_
    refine bind_of_some (takeChar_cons _ _) ?_
    refine bind_of_some (takeDigits_two (by omega) _) ?_
    refine bind_of_some (takeChar_cons _ _) ?_
    refine bind_of_some (takeDigits_two (by omega) _) ?_
    refine bind_of_some hdate ?_
    refine (if_pos (show 'T'.toNat < 128 by decide)).trans ?_
    refine bind_of_some rfl ?_
    refine bind_of_some (takeDigits_two (by omega) _) ?_
    refine bind_of_some (takeChar_cons _ _) ?_
    refine bind_of_some (takeDigits_two (by omega) _) ?_
    refine bind_of_some (takeChar_cons _ _) ?_
    refine bind_of_some (takeDigits_two (by omega) _) ?_
    refine bind_of_some hfraction ?_
    refine bind_of_some (readOffset_offsetChars hhours hseconds) ?_
    have hleap : (t.time.second == 60) = false := beq_eq_false_iff_ne.2 (by omega)
    simp [hleap, t.time.valid]
  next => cases h

end Timestamp

end ODataClient
