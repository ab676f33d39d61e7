import Mathlib.Data.List.TakeWhile
import ODataClient.Proofs.Number.Digits
import ODataClient.Proofs.Text.Separators
import ODataClient.Value.Basic

/-! Decimal texts. A decimal is accepted exactly if its text has a sign or none, then digits with a
point among them or none, and at least one digit; it is stored as it was written. -/

namespace ODataClient

/-- Characters from `0` to `9` only, and maybe none of them. -/
def IsDigits (s : List Char) : Prop := ∀ c ∈ s, c.isDigit = true

instance (s : List Char) : Decidable (IsDigits s) :=
  decidable_of_iff (s.all Char.isDigit = true) List.all_eq_true

/-- Digits, or digits around a point, where one side may be empty. -/
inductive IsFixed : List Char → Prop
  | whole (digits : List Char) : IsDigits digits → digits ≠ [] → IsFixed digits
  | pointed (whole fraction : List Char) : IsDigits whole → IsDigits fraction →
      whole ++ fraction ≠ [] → IsFixed (whole ++ '.' :: fraction)

inductive IsDecimal : List Char → Prop
  | unsigned (s : List Char) : IsFixed s → IsDecimal s
  | minus (s : List Char) : IsFixed s → IsDecimal ('-' :: s)
  | plus (s : List Char) : IsFixed s → IsDecimal ('+' :: s)

/-- Digits, with one point among them at most and a sign in front at most. -/
structure HasDecimalMarks (s : List Char) : Prop where
  marks : ∀ c ∈ s, c.isDigit = true ∨ c = '.' ∨ c = '-' ∨ c = '+'
  point : s.count '.' ≤ 1
  sign : ∀ c ∈ s.tail, c ≠ '-' ∧ c ≠ '+'

variable {s digits whole fraction : List Char}

theorem IsDigits.notMem_point (h : IsDigits s) : '.' ∉ s := fun hm =>
  absurd (h '.' hm) (by decide)

theorem isFixedText_whole (hd : IsDigits digits) (hne : digits ≠ []) :
    isFixedText digits = true := by
  have hall : digits.all isDigit = true := List.all_eq_true.2 hd
  simp [isFixedText, cutFirst_of_notMem hd.notMem_point, hall, hne]

theorem isFixedText_pointed (hw : IsDigits whole) (hf : IsDigits fraction)
    (hne : whole ++ fraction ≠ []) : isFixedText (whole ++ '.' :: fraction) = true := by
  have hwhole : whole.all isDigit = true := List.all_eq_true.2 hw
  have hfraction : fraction.all isDigit = true := List.all_eq_true.2 hf
  have hsides : whole ≠ [] ∨ fraction ≠ [] := by
    rwa [ne_eq, List.append_eq_nil_iff, not_and_or] at hne
  simp [isFixedText, cutFirst_append hw.notMem_point, hwhole, hfraction, hsides]

theorem isFixedText_iff : isFixedText s = true ↔ IsFixed s := by
  constructor
  · intro h
    rw [isFixedText] at h
    cases hc : cutFirst '.' s with
    | none =>
      simp only [hc, Bool.and_eq_true, Bool.not_eq_true', List.isEmpty_eq_false_iff] at h
      exact .whole s (List.all_eq_true.1 h.2) h.1
    | some sides =>
      obtain ⟨whole, fraction⟩ := sides
      simp only [hc, Bool.and_eq_true, Bool.or_eq_true, Bool.not_eq_true',
        List.isEmpty_eq_false_iff] at h
      obtain ⟨⟨hsides, hw⟩, hf⟩ := h
      have hne : whole ++ fraction ≠ [] := by
        rwa [ne_eq, List.append_eq_nil_iff, not_and_or]
      rw [eq_of_cutFirst hc]
      exact .pointed whole fraction (List.all_eq_true.1 hw) (List.all_eq_true.1 hf) hne
  · intro h
    cases h with
    | whole _ hd hne => exact isFixedText_whole hd hne
    | pointed whole fraction hw hf hne => exact isFixedText_pointed hw hf hne

theorem isDigits_takeWhile (s : List Char) : IsDigits (s.takeWhile isDigit) := fun _ hc =>
  List.mem_takeWhile_imp hc

theorem readFixed?_whole (hd : IsDigits digits) (hne : digits ≠ []) :
    readFixed? digits = some (readDigits digits, 0) := by
  have hend : ∀ c ∈ ([] : List Char).head?, isDigit c = false := fun _ hc => by cases hc
  obtain ⟨ht, hrest⟩ := takeWhile_isDigit_append hd hend
  rw [List.append_nil] at ht hrest
  simp only [readFixed?, ht, hrest, if_neg hne]

theorem readFixed?_pointed (hw : IsDigits whole) (hf : IsDigits fraction)
    (hne : whole ++ fraction ≠ []) :
    readFixed? (whole ++ '.' :: fraction) =
      some (readDigits (whole ++ fraction), fraction.length) := by
  have hpoint : ∀ c ∈ ('.' :: fraction).head?, isDigit c = false := by
    rintro c hc
    obtain rfl := Option.some.inj hc
    rfl
  obtain ⟨ht, hrest⟩ := takeWhile_isDigit_append hw hpoint
  have hnil : ¬ (whole = [] ∧ fraction = []) := by
    rwa [ne_eq, List.append_eq_nil_iff] at hne
  have hall : fraction.all isDigit = true := List.all_eq_true.2 hf
  simp only [readFixed?, ht, hrest]
  rw [if_pos ⟨trivial, hall, hnil⟩]

theorem isFixed_of_readFixed? (h : (readFixed? s).isSome = true) : IsFixed s := by
  have hwhole := isDigits_takeWhile s
  rw [readFixed?] at h
  rw [← List.takeWhile_append_dropWhile (p := isDigit) (l := s)]
  cases hd : s.dropWhile isDigit with
  | nil =>
    rw [List.append_nil]
    refine .whole _ hwhole fun hnil => ?_
    simp [hd, hnil] at h
  | cons c fraction =>
    simp only [hd] at h
    by_cases hc : c = '.' ∧ fraction.all isDigit ∧ ¬ (s.takeWhile isDigit = [] ∧ fraction = [])
    · obtain ⟨rfl, hall, hne⟩ := hc
      exact .pointed _ _ hwhole (List.all_eq_true.1 hall) (by rwa [ne_eq, List.append_eq_nil_iff])
    · rw [if_neg hc] at h
      cases h

/-- What the cut at the first point accepts is what the scanner of the doubles reads. -/
theorem isFixedText_eq_isSome_readFixed? (s : List Char) :
    isFixedText s = (readFixed? s).isSome := by
  refine Bool.eq_iff_iff.2 ⟨fun h => ?_, fun h => isFixedText_iff.2 (isFixed_of_readFixed? h)⟩
  cases isFixedText_iff.1 h with
  | whole _ hd hne => rw [readFixed?_whole hd hne]; rfl
  | pointed whole fraction hw hf hne => rw [readFixed?_pointed hw hf hne]; rfl

namespace IsFixed

theorem marks (h : IsFixed s) : ∀ c ∈ s, c.isDigit = true ∨ c = '.' := by
  intro c hc
  cases h with
  | whole _ hd _ => exact .inl (hd c hc)
  | pointed whole fraction hw hf _ =>
    rcases List.mem_append.1 hc with hc | hc
    · exact .inl (hw c hc)
    · rcases List.mem_cons.1 hc with rfl | hc
      · exact .inr rfl
      · exact .inl (hf c hc)

theorem count_point (h : IsFixed s) : s.count '.' ≤ 1 := by
  cases h with
  | whole _ hd _ => rw [List.count_eq_zero_of_not_mem hd.notMem_point]; exact Nat.zero_le 1
  | pointed whole fraction hw hf _ =>
    rw [List.count_append, List.count_cons_self, List.count_eq_zero_of_not_mem hw.notMem_point,
      List.count_eq_zero_of_not_mem hf.notMem_point]

theorem ne_nil (h : IsFixed s) : s ≠ [] := by
  cases h with
  | whole _ _ hne => exact hne
  | pointed whole fraction _ _ _ => simp

theorem not_sign (h : IsFixed s) : ∀ c ∈ s, c ≠ '-' ∧ c ≠ '+' := by
  intro c hc
  have hsign : ∀ d : Char, (d.isDigit = true ∨ d = '.') → d ≠ '-' ∧ d ≠ '+' := by
    rintro d hd
    constructor
    · rintro rfl
      exact absurd hd (by decide)
    · rintro rfl
      exact absurd hd (by decide)
  exact hsign c (h.marks c hc)

end IsFixed

/-- A sign is taken off once: what is left of a text with two has a sign in it. -/
theorem isDecimal_iff_readSign : IsDecimal s ↔ IsFixed (readSign s).2 := by
  constructor
  · intro h
    cases h with
    | unsigned _ hs =>
      rwa [readSign_unsigned fun c hc => hs.not_sign c (List.mem_of_mem_head? hc)]
    | minus _ hs => exact hs
    | plus _ hs => exact hs
  · intro h
    cases s with
    | nil => exact .unsigned [] h
    | cons c r =>
      by_cases hminus : c = '-'
      · subst hminus
        exact .minus r h
      · by_cases hplus : c = '+'
        · subst hplus
          exact .plus r h
        · have hunsigned : ∀ d ∈ (c :: r).head?, d ≠ '-' ∧ d ≠ '+' := by
            rintro d hd
            obtain rfl := Option.some.inj hd
            exact ⟨hminus, hplus⟩
          rw [readSign_unsigned hunsigned] at h
          exact .unsigned (c :: r) h

theorem isDecimalText_iff {text : String} :
    isDecimalText text = true ↔ IsDecimal text.toList := by
  rw [isDecimal_iff_readSign]
  exact isFixedText_iff

example : (["+-5", "1.2.3", "-.", "٣"].any isDecimalText) = false := by decide

namespace IsDecimal

theorem ne_nil (h : IsDecimal s) : s ≠ [] := by
  cases h with
  | unsigned _ hs => exact hs.ne_nil
  | minus s _ => exact List.cons_ne_nil _ s
  | plus s _ => exact List.cons_ne_nil _ s

theorem hasDecimalMarks (h : IsDecimal s) : HasDecimalMarks s := by
  have hwiden : ∀ c : Char, (c.isDigit = true ∨ c = '.') →
      c.isDigit = true ∨ c = '.' ∨ c = '-' ∨ c = '+' := fun c hc => hc.imp_right .inl
  have hsigned : ∀ sign r, IsFixed r → sign = '-' ∨ sign = '+' → HasDecimalMarks (sign :: r) := by
    intro sign r hr hsign
    have hne : sign ≠ '.' := by rcases hsign with rfl | rfl <;> decide
    refine ⟨List.forall_mem_cons.2 ⟨.inr (.inr hsign), fun c hc => hwiden c (hr.marks c hc)⟩, ?_,
      hr.not_sign⟩
    rw [List.count_cons_of_ne hne]
    exact hr.count_point
  cases h with
  | unsigned _ hs =>
    exact ⟨fun c hc => hwiden c (hs.marks c hc), hs.count_point,
      fun c hc => hs.not_sign c (List.mem_of_mem_tail hc)⟩
  | minus r hr => exact hsigned '-' r hr (.inl rfl)
  | plus r hr => exact hsigned '+' r hr (.inr rfl)

end IsDecimal

namespace Value

theorem ofDecimalText_of_isDecimal {text : String} (h : IsDecimal text.toList) :
    ofDecimalText text = .ok (.decimal text) := if_pos (isDecimalText_iff.2 h)

theorem ofDecimalText_of_not_isDecimal {text : String} (h : ¬ IsDecimal text.toList) :
    ofDecimalText text = .error (.invalid (.notDecimal text)) :=
  if_neg fun htext => h (isDecimalText_iff.1 htext)

/-- A text is accepted as a decimal exactly if it is in the form of one, and refused by name
otherwise. What is stored is the text as it was given, so that it brings no other characters along
than digits, one point and a sign in front. -/
theorem ofDecimalText_decided (text : String) :
    (∀ v, ofDecimalText text = .ok v ↔ IsDecimal text.toList ∧ v = .decimal text) ∧
      (∀ e, ofDecimalText text = .error e ↔
        ¬ IsDecimal text.toList ∧ e = .invalid (.notDecimal text)) ∧
      ∀ stored, ofDecimalText text = .ok (.decimal stored) →
        stored = text ∧ HasDecimalMarks stored.toList := by
  by_cases h : IsDecimal text.toList
  · have hok := ofDecimalText_of_isDecimal h
    refine ⟨fun v => ?_, fun e => ?_, fun stored hstored => ?_⟩
    · rw [hok, Except.ok.injEq, eq_comm, and_iff_right h]
    · rw [hok]
      exact iff_of_false (fun he => by cases he) fun hrefused => hrefused.1 h
    · rw [hok] at hstored
      obtain rfl := Value.decimal.inj (Except.ok.inj hstored)
      exact ⟨rfl, h.hasDecimalMarks⟩
  · have herror := ofDecimalText_of_not_isDecimal h
    refine ⟨fun v => ?_, fun e => ?_, fun stored hstored => ?_⟩
    · rw [herror]
      exact iff_of_false (fun he => by cases he) fun haccepted => h haccepted.1
    · rw [herror, Except.error.injEq, eq_comm, and_iff_right h]
    · rw [herror] at hstored
      cases hstored

/-- A sign, no digit in front of the point, and one behind it. -/
theorem ofDecimalText_decided_minusHalf :
    ofDecimalText "-.5" = .ok (.decimal "-.5") ∧ HasDecimalMarks "-.5".toList := by
  have hform : IsDecimal "-.5".toList :=
    .minus ['.', '5'] (.pointed [] ['5'] (List.forall_mem_nil _) (by decide) (by decide))
  have hok : ofDecimalText "-.5" = .ok (.decimal "-.5") :=
    ((ofDecimalText_decided "-.5").1 _).2 ⟨hform, rfl⟩
  exact ⟨hok, ((ofDecimalText_decided "-.5").2.2 "-.5" hok).2⟩

end Value

end ODataClient
