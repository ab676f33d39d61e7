import ODataClient.Proofs.Json.Numerals
import ODataClient.Proofs.Text.Separators
import ODataClient.Proofs.Text.Words
import ODataClient.Proofs.Value.Decimals
import ODataClient.Proofs.Value.ReadBack
import ODataClient.Protocol.Literal
import ODataClient.Value.Conversion

/-! The texts of values. Numbers, identifiers, dates and bytes are written in letters, digits and a
few marks only, so that nothing is trimmed off them, and conversions of texts read them back. -/

namespace ODataClient

theorem isWordChar_of_isDigit {c : Char} (h : isDigit c = true) : isWordChar c = true := by
  have hdigit : c.isDigit = true := h
  rw [isWordChar, Char.isAlphanum, hdigit, Bool.or_true, Bool.true_or]

theorem isWord_digitChars (n : Nat) : IsWord (digitChars n) := fun _ hc =>
  isWordChar_of_isDigit (isDigit_of_mem_digitChars hc)

theorem isWord_paddedDigits (width n : Nat) : IsWord (paddedDigits width n) := fun _ hc =>
  isWordChar_of_isDigit (isDigit_of_mem_paddedDigits hc)

theorem isWord_intText (v : Int) : IsWord (intText v).toList := by
  rw [Json.toList_intText]
  split
  · exact isWord_cons (by decide) (isWord_digitChars _)
  · exact isWord_digitChars _

theorem isWord_boolText (b : Bool) : IsWord (boolText b).toList := by
  cases b <;> decide

/-- An accepted decimal has digits, a point and a sign in it, and is not empty. -/
theorem isWord_of_isDecimalText {text : String} (h : isDecimalText text = true) :
    text.toList ≠ [] ∧ IsWord text.toList := by
  have hdecimal := isDecimalText_iff.1 h
  refine ⟨hdecimal.ne_nil, fun c hc => ?_⟩
  rcases hdecimal.hasDecimalMarks.marks c hc with hdigit | rfl | rfl | rfl
  · exact isWordChar_of_isDigit hdigit
  all_goals decide

theorem isWord_hexDigitUpper (n : Nat) :
    isWordChar (hexDigitUpper n) = true ∧ isWordChar (hexDigitUpper n).toLower = true := by
  have hall : ("0123456789ABCDEF".toList.all fun d => isWordChar d && isWordChar d.toLower) = true := by
    decide
  exact Bool.and_eq_true_iff.1 (List.all_eq_true.1 hall _ (hexDigitUpper_mem n))

theorem isWord_hexUpper (bytes : List UInt8) : IsWord (hexUpper bytes) := by
  refine List.forall_mem_flatMap.2 fun b _ => ?_
  exact isWord_cons (isWord_hexDigitUpper _).1 (isWord_cons (isWord_hexDigitUpper _).1
    (List.forall_mem_nil _))

theorem isWord_hexByteLower (b : UInt8) : IsWord (hexByteLower b) :=
  isWord_cons (isWord_hexDigitUpper _).2 (isWord_cons (isWord_hexDigitUpper _).2
    (List.forall_mem_nil _))

theorem Guid.isWord_chars (g : Guid) : IsWord g.chars := by
  have hhex : IsWord (g.bytes.toList.flatMap hexByteLower) :=
    List.forall_mem_flatMap.2 fun b _ => isWord_hexByteLower b
  have hhyphen : isWordChar '-' = true := by decide
  have htake : ∀ n m, IsWord (((g.bytes.toList.flatMap hexByteLower).drop n).take m) :=
    fun n m c hc => hhex c (List.mem_of_mem_drop (List.mem_of_mem_take hc))
  have hdrop : ∀ n, IsWord ((g.bytes.toList.flatMap hexByteLower).drop n) :=
    fun n c hc => hhex c (List.mem_of_mem_drop hc)
  rw [chars]
  -- from the last group of digits to the first
  have hfifth := isWord_cons hhyphen (hdrop 20)
  have hfourth := isWord_cons hhyphen (isWord_append (htake 16 4) hfifth)
  have hthird := isWord_cons hhyphen (isWord_append (htake 12 4) hfourth)
  have hsecond := isWord_cons hhyphen (isWord_append (htake 8 4) hthird)
  exact isWord_append (htake 0 8) hsecond

theorem Guid.isWord_text (g : Guid) : IsWord g.text.toList := by
  rw [text, String.toList_ofList]
  exact g.isWord_chars

theorem Date.isWord_chars (d : Date) : IsWord d.chars := by
  have hhyphen : isWordChar '-' = true := by decide
  have hyear : IsWord (yearChars d.year) := by
    rw [yearChars]
    split
    · exact isWord_cons hhyphen (isWord_paddedDigits _ _)
    · exact isWord_paddedDigits _ _
  exact isWord_append hyear (isWord_cons hhyphen (isWord_append (isWord_paddedDigits _ _)
    (isWord_cons hhyphen (isWord_paddedDigits _ _))))

theorem Date.isWord_text (d : Date) : IsWord d.text.toList := by
  rw [text, String.toList_ofList]
  exact d.isWord_chars

theorem isWord_base64 (bytes : List UInt8) : IsWord (base64 bytes) := by
  have hdigit : ∀ n, isWordChar (base64Digit n) = true := by
    have hall : ("ABCDEFGHIJKLMNOPQRSTUVWXYZabcdefghijklmnopqrstuvwxyz0123456789+/".toList.all
        isWordChar) = true := by decide
    intro n
    rw [base64Digit, List.getD_eq_getElem?_getD]
    cases h : "ABCDEFGHIJKLMNOPQRSTUVWXYZabcdefghijklmnopqrstuvwxyz0123456789+/".toList[n]? with
    | none => rfl
    | some d => exact List.all_eq_true.1 hall d (List.mem_of_getElem? h)
  have hfill : isWordChar '=' = true := by decide
  fun_induction base64 bytes with
  | case1 => exact List.forall_mem_nil _
  | case2 a n => exact isWord_cons (hdigit _) (isWord_cons (hdigit _) (isWord_cons hfill
      (isWord_cons hfill (List.forall_mem_nil _))))
  | case3 a b n => exact isWord_cons (hdigit _) (isWord_cons (hdigit _) (isWord_cons (hdigit _)
      (isWord_cons hfill (List.forall_mem_nil _))))
  | case4 a b c r n ih => exact isWord_cons (hdigit _) (isWord_cons (hdigit _)
      (isWord_cons (hdigit _) (isWord_cons (hdigit _) ih)))

theorem readInt?_intText (v : Int) : readInt? (intText v).toList = some v := by
  have hnat : readNat? (digitChars v.natAbs) = some v.natAbs := by
    have hall : (digitChars v.natAbs).all isDigit = true :=
      List.all_eq_true.2 fun c hc => isDigit_of_mem_digitChars hc
    rw [readNat?, if_pos ⟨digitChars_ne_nil _, hall⟩, readDigits_digitChars]
  have hsign : readSign (intText v).toList = (decide (v < 0), digitChars v.natAbs) := by
    rw [Json.toList_intText]
    by_cases hv : v < 0
    · rw [if_pos hv, decide_eq_true hv, readSign]
    · have hdigits : ∀ c ∈ (digitChars v.natAbs).head?, isDigit c = true := fun c hc =>
        isDigit_of_mem_digitChars (List.mem_of_mem_head? hc)
      rw [if_neg hv, decide_eq_false hv, readSign_digits hdigits]
  have hread : readInt? (intText v).toList =
      some (if v < 0 then -(v.natAbs : Int) else v.natAbs) := by
    simp [readInt?, hsign, hnat]
  have hvalue : (if v < 0 then -(v.natAbs : Int) else v.natAbs) = v := by
    split <;> omega
  rw [hread, hvalue]

namespace Value

/-- Kinds of values that are written as they are read from a text. -/
def isReadable : Value → Bool
  | bool _ | int32 _ | int64 _ | guid _ | date _ => true
  | decimal s => isDecimalText s
  | _ => false

/-- A readable value is read back from its unadorned text. -/
theorem ofText?_modernLiteral {v : Value} {target : ValueType} (hv : v.isReadable = true)
    (ht : v.type? = some target) (enumTypeFree : Bool) :
    ofText? target (modernLiteral enumTypeFree v) = some v := by
  cases v with
  | bool b =>
    cases ht
    cases b <;> rfl
  | int32 n =>
    cases ht
    simp [ofText?, modernLiteral, commonLiteral, (isWord_intText n.toInt).trim_eq, readInt32?,
      readInt?_intText, int32?_toInt]
  | int64 n =>
    cases ht
    simp [ofText?, modernLiteral, (isWord_intText n.toInt).trim_eq, readInt64?, readInt?_intText,
      int64?_toInt]
  | decimal s =>
    cases ht
    have hdecimal : isDecimalText s = true := hv
    simp [ofText?, modernLiteral, (isWord_of_isDecimalText hdecimal).2.trim_eq, hdecimal]
  | guid g =>
    cases ht
    have hread : Guid.read? g.text.toList = some g := by
      rw [Guid.text, String.toList_ofList, g.read?_chars]
    simp [ofText?, modernLiteral, g.isWord_text.trim_eq, hread]
  | date d =>
    cases ht
    have hread : readDate? d.text.toList = some d := by
      rw [Date.text, String.toList_ofList, d.readDate?_chars]
    simp [ofText?, modernLiteral, d.isWord_text.trim_eq, hread]
  | _ => cases hv

end Value

end ODataClient
