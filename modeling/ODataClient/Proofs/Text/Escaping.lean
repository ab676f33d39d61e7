import ODataClient.Proofs.Text.Percent
import ODataClient.Proofs.Text.Separators
import ODataClient.Proofs.Text.Words

/-! Escaping keeps words apart. Quotes and parentheses stand for themselves in an escaped text, and
blanks and commas do not occur in it, so what was one word is one word in its escaped form. -/

namespace ODataClient

variable {s t : List Char} {c : Char} {b : UInt8}

theorem escapeChars_append (s t : List Char) :
    escapeChars (s ++ t) = escapeChars s ++ escapeChars t := by
  rw [escapeChars, List.flatMap_append, List.flatMap_append, escapeChars, escapeChars]

/-- All bytes of a character beyond ASCII have their high bit set. -/
theorem le_of_mem_utf8EncodeChar (hc : 128 ≤ c.toNat) (h : b ∈ String.utf8EncodeChar c) :
    128 ≤ b.toNat := by
  have hval : c.val.toNat = c.toNat := rfl
  have hhigh : ∀ n, 128 ≤ n → n < 256 → 128 ≤ (UInt8.ofNat n).toNat := by
    intro n hn hlt
    rwa [UInt8.toNat_ofNat', Nat.mod_eq_of_lt hlt]
  rw [String.utf8EncodeChar] at h
  simp only [hval, if_neg (Nat.not_le.2 hc)] at h
  split at h
  next =>
    simp only [List.mem_cons, List.not_mem_nil, or_false] at h
    rcases h with rfl | rfl <;> exact hhigh _ (by omega) (by omega)
  next =>
    split at h
    next =>
      simp only [List.mem_cons, List.not_mem_nil, or_false] at h
      rcases h with rfl | rfl | rfl <;> exact hhigh _ (by omega) (by omega)
    next =>
      simp only [List.mem_cons, List.not_mem_nil, or_false] at h
      rcases h with rfl | rfl | rfl | rfl <;> exact hhigh _ (by omega) (by omega)

theorem utf8EncodeChar_of_lt (hc : c.toNat < 128) :
    String.utf8EncodeChar c = [UInt8.ofNat c.toNat] := by
  have hval : c.val.toNat = c.toNat := rfl
  rw [String.utf8EncodeChar]
  simp only [hval, if_pos (Nat.le_of_lt_succ hc)]

theorem toNat_eq_of_mem_utf8EncodeChar (h : b ∈ String.utf8EncodeChar c) (hb : b.toNat < 128) :
    c.toNat = b.toNat := by
  have hc : c.toNat < 128 := by
    by_contra hhigh
    exact absurd (le_of_mem_utf8EncodeChar (Nat.le_of_not_lt hhigh) h) (Nat.not_le.2 hb)
  rw [utf8EncodeChar_of_lt hc] at h
  have hbyte : c.toNat < 2 ^ 8 := by omega
  rw [List.mem_singleton.1 h, UInt8.toNat_ofNat', Nat.mod_eq_of_lt hbyte]

/-- The marks of predicates that stand for themselves. -/
def keptMarks : List Char := ['(', ')', '\'']

theorem eq_of_mem_escapeByte (hc : c ∈ keptMarks) (h : c ∈ escapeByte b) : b.toNat = c.toNat := by
  have hdigits : ("%0123456789ABCDEF".toList.all fun d => !keptMarks.contains d) = true := by decide
  have hother : ∀ d ∈ "%0123456789ABCDEF".toList, c ≠ d := by
    rintro d hd rfl
    have hnot := List.all_eq_true.1 hdigits c hd
    rw [List.contains_iff_mem.2 hc] at hnot
    exact absurd hnot (by decide)
  have hdigit : ∀ n, c ≠ hexDigitUpper n := fun n =>
    hother _ (List.mem_cons_of_mem _ (hexDigitUpper_mem n))
  rw [escapeByte] at h
  split at h
  next hsafe =>
    have hvalid : b.toNat.isValidChar := Or.inl (by have := b.toNat_lt; omega)
    rw [List.mem_singleton.1 h, Char.ofNat, dif_pos hvalid]
    rfl
  next => simp [hother '%' (by decide), hdigit] at h

theorem mem_of_mem_escapeChars (hc : c ∈ keptMarks) (h : c ∈ escapeChars s) : c ∈ s := by
  have hlow : (keptMarks.all fun d => d.toNat < 128) = true := by decide
  rw [escapeChars, List.mem_flatMap] at h
  obtain ⟨b, hb, hcb⟩ := h
  obtain ⟨d, hd, hbd⟩ := List.mem_flatMap.1 hb
  have hcode := eq_of_mem_escapeByte hc hcb
  have hbyte : b.toNat < 128 := hcode ▸ of_decide_eq_true (List.all_eq_true.1 hlow c hc)
  have hchar := toNat_eq_of_mem_utf8EncodeChar hbd hbyte
  rwa [← Char.toNat_inj.1 (hchar.trans hcode)]

theorem isPlain_iff : isPlain c = true ↔ c ∉ ' ' :: ',' :: keptMarks := by
  simp [isPlain, isDelimiter, keptMarks, not_or]
  tauto

theorem isRun_escapeChars (h : IsRun s) : IsRun (escapeChars s) := by
  intro c hc
  rw [isPlain_iff, List.mem_cons, List.mem_cons, not_or, not_or]
  have hescaped : ∀ d ∈ [' ', ','], c ≠ d := by
    rintro d hd rfl
    have havoids : Avoids c (escape (String.ofList s)) := avoids_escape_of_all (by decide) hd _
    rw [Avoids, escape, String.toList_ofList, String.toList_ofList] at havoids
    exact havoids hc
  refine ⟨hescaped ' ' (by decide), hescaped ',' (by decide), fun hm => ?_⟩
  have hplain := isPlain_iff.1 (h c (mem_of_mem_escapeChars hm hc))
  exact hplain (List.mem_cons_of_mem _ (List.mem_cons_of_mem _ hm))

theorem escapeChars_quote (s : List Char) : escapeChars ('\'' :: s) = '\'' :: escapeChars s := rfl

theorem doubleQuotes_append (s t : List Char) :
    doubleQuotes (s ++ t) = doubleQuotes s ++ doubleQuotes t := by
  induction s with
  | nil => rfl
  | cons c s ih =>
    rw [List.cons_append, doubleQuotes, doubleQuotes, ih]
    split <;> rfl

theorem escapeChars_doubleQuotes (s : List Char) :
    escapeChars (doubleQuotes s) = doubleQuotes (escapeChars s) := by
  induction s with
  | nil => rfl
  | cons c s ih =>
    rw [doubleQuotes]
    split
    next hc =>
      rw [hc, escapeChars_quote, escapeChars_quote, ih, escapeChars_quote, doubleQuotes, if_pos rfl]
    next hc =>
      have hquote : '\'' ∉ escapeChars [c] := fun hm =>
        hc (List.mem_singleton.1 (mem_of_mem_escapeChars (by decide) hm)).symm
      have hcons : ∀ r : List Char, escapeChars (c :: r) = escapeChars [c] ++ escapeChars r :=
        fun r => escapeChars_append [c] r
      rw [hcons (doubleQuotes s), hcons s, ih, doubleQuotes_append, doubleQuotes_of_notMem hquote]

theorem escapeChars_quoteChars (body : List Char) :
    escapeChars (quoteChars body) = quoteChars (escapeChars body) := by
  have hlast : escapeChars ['\''] = ['\''] := rfl
  rw [quoteChars, quoteChars, escapeChars_quote, escapeChars_append, escapeChars_doubleQuotes, hlast]

theorem escapeChars_eq_nil (h : escapeChars s = []) : s = [] := by
  have hdecode := congrArg percentBytes h
  rw [percentBytes_escapeChars, percentBytes, List.flatMap_eq_nil_iff] at hdecode
  exact List.eq_nil_iff_forall_not_mem.2 fun c hc => String.utf8EncodeChar_ne_nil (hdecode c hc)

/-- What was one word is one word when it is escaped. -/
theorem IsToken.escapeChars (h : IsToken s) : IsToken (escapeChars s) := by
  obtain ⟨hne, run, hrun, rfl | ⟨body, rfl⟩⟩ := h
  · exact (isRun_escapeChars hrun).isToken fun hnil => hne (escapeChars_eq_nil hnil)
  · rw [escapeChars_append, escapeChars_quoteChars]
    exact isToken_quoted (isRun_escapeChars hrun) _

end ODataClient
