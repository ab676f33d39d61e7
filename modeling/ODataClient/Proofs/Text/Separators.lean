import ODataClient.Number.Text
import ODataClient.Proofs.Text.Segments
import ODataClient.Text.Percent

/-! Texts without a separator. What is joined from such texts can be cut into them again, and an
escaped text has none of the characters that separate the parts of a query. -/

namespace ODataClient

variable {sep c : Char} {s t : String}

theorem cutFirst_of_notMem {p : List Char} (h : sep ∉ p) : cutFirst sep p = none := by
  induction p with
  | nil => rfl
  | cons c r ih =>
    simp only [List.mem_cons, not_or] at h
    rw [cutFirst, if_neg (Ne.symm h.1), ih h.2]
    rfl

theorem cutFirst_append {p : List Char} (h : sep ∉ p) (r : List Char) :
    cutFirst sep (p ++ sep :: r) = some (p, r) := by
  induction p with
  | nil => simp [cutFirst]
  | cons c p ih =>
    simp only [List.mem_cons, not_or] at h
    rw [List.cons_append, cutFirst, if_neg (Ne.symm h.1), ih h.2]
    rfl

def Avoids (c : Char) (s : String) : Prop := c ∉ s.toList

instance (c : Char) (s : String) : Decidable (Avoids c s) := inferInstanceAs (Decidable (_ ∉ _))

@[simp] theorem avoids_append : Avoids c (s ++ t) ↔ Avoids c s ∧ Avoids c t := by
  simp [Avoids, not_or]

theorem avoids_join {l : List String} (h : ∀ s ∈ l, Avoids c s) : Avoids c (String.join l) := by
  rw [Avoids, String.toList_join, List.mem_flatMap]
  rintro ⟨s, hs, hc⟩
  exact h s hs hc

theorem avoids_intercalate {l : List String} (hs : Avoids c s) (h : ∀ t ∈ l, Avoids c t) :
    Avoids c (String.intercalate s l) := by
  induction l with
  | nil => simp [Avoids]
  | cons t r ih =>
    have hr := ih fun x hx => h x (List.mem_cons_of_mem _ hx)
    by_cases hn : r = []
    · subst hn
      simpa using h t (by simp)
    · rw [String.intercalate_cons_of_ne_nil hn]
      exact avoids_append.2 ⟨avoids_append.2 ⟨h t (by simp), hs⟩, hr⟩

theorem subset_of_mem_parts {p l : List Char} (h : p ∈ parts sep l) : p ⊆ l := by
  induction l generalizing p with
  | nil =>
    obtain rfl : p = [] := List.mem_singleton.1 h
    exact List.nil_subset _
  | cons c r ih =>
    by_cases hc : c = sep
    · have hparts : parts sep (c :: r) = [] :: parts sep r := by simp [parts, cut, hc]
      rw [hparts] at h
      rcases List.mem_cons.1 h with rfl | h
      · exact List.nil_subset _
      · exact List.subset_cons_of_subset c (ih h)
    · have hparts : parts sep (c :: r) = (c :: (cut sep r).1) :: (cut sep r).2 := by
        simp [parts, cut, hc]
      rw [hparts] at h
      rcases List.mem_cons.1 h with rfl | h
      · exact List.cons_subset_cons c (ih List.mem_cons_self)
      · exact List.subset_cons_of_subset c (ih (List.mem_cons_of_mem _ h))

theorem avoids_of_mem_segments {path : String} (h : Avoids c path) (hs : s ∈ segments path) :
    Avoids c s := by
  obtain ⟨p, hp, rfl⟩ := List.mem_map.1 hs
  rw [Avoids, String.toList_ofList]
  exact fun hc => h (subset_of_mem_parts hp hc)

theorem avoids_joinSegments (hc : c ≠ '/') {l : List String} (h : ∀ s ∈ l, Avoids c s) :
    Avoids c (joinSegments l) :=
  avoids_intercalate (by simpa [Avoids] using hc) h

theorem avoids_digitsText (hc : c.isDigit = false) (n : Nat) : Avoids c (digitsText n) := by
  intro hm
  rw [digitsText, String.toList_ofList, digitChars] at hm
  rw [Nat.isDigit_of_mem_toDigits (by decide) (by decide) hm] at hc
  exact absurd hc (by simp)

theorem hexDigitUpper_mem (n : Nat) : hexDigitUpper n ∈ "0123456789ABCDEF".toList := by
  rw [hexDigitUpper, List.getD_eq_getElem?_getD]
  cases h : "0123456789ABCDEF".toList[n]? with
  | none => simp
  | some d => exact List.mem_of_getElem? h

/-- Escaping leaves characters that stand for themselves, percent signs and hexadecimal digits. -/
theorem notMem_escapeByte (hp : c ≠ '%') (hc : isUriSafe (UInt8.ofNat c.toNat) = false)
    (b : UInt8) : c ∉ escapeByte b := by
  have hdigits : ("0123456789ABCDEF".toList.all fun d => isUriSafe (UInt8.ofNat d.toNat)) = true := by
    decide
  have hdigit : ∀ n, c ≠ hexDigitUpper n := by
    rintro n rfl
    exact Bool.false_ne_true (hc.symm.trans (List.all_eq_true.1 hdigits _ (hexDigitUpper_mem n)))
  intro hm
  rw [escapeByte] at hm
  split at hm
  next hsafe =>
    have hvalid : b.toNat.isValidChar := Or.inl (by have := b.toNat_lt; omega)
    have hcode : c.toNat = b.toNat := by
      rw [List.mem_singleton.1 hm, Char.ofNat, dif_pos hvalid]
      rfl
    rw [hcode, UInt8.ofNat_toNat] at hc
    exact Bool.false_ne_true (hc.symm.trans hsafe)
  next => simp [hp, hdigit] at hm

/-- An escaped text has none of these marks, if they are written as their bytes. -/
theorem avoids_escape_of_all {marks : List Char}
    (h : (marks.all fun c => c != '%' && !isUriSafe (UInt8.ofNat c.toNat)) = true) (hc : c ∈ marks)
    (s : String) : Avoids c (escape s) := by
  have hmark := List.all_eq_true.1 h c hc
  rw [Bool.and_eq_true, bne_iff_ne, Bool.not_eq_true'] at hmark
  rw [Avoids, escape, String.toList_ofList, escapeChars, List.mem_flatMap]
  rintro ⟨b, -, hb⟩
  exact notMem_escapeByte hmark.1 hmark.2 b hb

/-- The characters that separate clauses, names from values, and range variables from bodies. -/
def structural : List Char := ['&', '=', ':']

theorem avoids_escape (hc : c ∈ structural) (s : String) : Avoids c (escape s) :=
  avoids_escape_of_all (by decide) hc s

end ODataClient
