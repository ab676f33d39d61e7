import ODataClient.Proofs.Text.Escaping
import ODataClient.Proofs.Value.Bytes
import ODataClient.Proofs.Value.Containment

/-! Different values have different literals. A literal of the legacy syntax says which value it is
for; in the modern syntax it does so for one who knows of which kind the value is. Timestamps,
doubles and members of enumerations are left aside. -/

namespace ODataClient

namespace Value

def isDiscrete : Value → Bool
  | null | bool _ | int32 _ | int64 _ | string _ | guid _ | date _ | binary _ => true
  | decimal text => isDecimalText text
  | _ => false

theorem contained_of_isDiscrete {v : Value} (hv : v.isDiscrete = true) (style : LiteralStyle) :
    v.Contained style := by
  cases v with
  | decimal text => exact contained_of_isDecimalText hv style
  | double d | timestamp t | enum m => cases hv
  | _ => trivial

end Value

namespace Legacy

open Value

/-- The value behind a word and an opening quote. -/
def readWrapped? (word rest : List Char) : Option Value :=
  if word = [] then (readQuoted rest).map fun p => string (String.ofList p.1)
  else if word = "guid".toList then (Guid.read? rest.dropLast).map guid
  else if word = "datetime".toList then (readDate? (rest.take (rest.length - 10))).map date
  else if word = "X".toList then (readHex? rest.dropLast).map binary
  else none

/-- The value of a literal without quotes, told by its last letter or by its form. -/
def readBare? (s : List Char) : Option Value :=
  let front := String.ofList s.dropLast
  if s.getLast? = some 'L' then ofText? .int64 front
  else if s.getLast? = some 'M' then ofText? .decimal front
  else if s = "null".toList then some null
  else (ofText? .bool (String.ofList s)).or (ofText? .int32 (String.ofList s))

def read? (s : List Char) : Option Value :=
  match cutFirst '\'' s with
  | some (word, rest) => readWrapped? word rest
  | none => readBare? s

variable {s : List Char}

theorem read?_wrapped {word : String} (hw : IsWord word.toList) (body : List Char) :
    read? (wrapped word body).toList = readWrapped? word.toList (body ++ ['\'']) := by
  rw [wrapped, String.toList_ofList, read?, cutFirst_append hw.notMem_quote]

theorem read?_bare (hs : IsWord s) : read? s = readBare? s := by
  rw [read?, cutFirst_of_notMem hs.notMem_quote]

theorem mem_intText {v : Int} {c : Char} (h : c ∈ (intText v).toList) :
    c = '-' ∨ isDigit c = true := by
  rw [Json.toList_intText] at h
  split at h
  · exact (List.mem_cons.1 h).imp_right isDigit_of_mem_digitChars
  · exact .inr (isDigit_of_mem_digitChars h)

theorem getLast?_intText {v : Int} {c : Char} (hm : c ≠ '-') (hd : isDigit c = false) :
    (intText v).toList.getLast? ≠ some c := by
  intro h
  rcases mem_intText (List.mem_of_mem_getLast? h) with hc | hc
  · exact hm hc
  · exact Bool.false_ne_true (hd.symm.trans hc)

theorem readBare?_long (text : String) :
    readBare? (text.toList ++ ['L']) = ofText? .int64 text := by simp [readBare?]

theorem readBare?_decimal (text : String) :
    readBare? (text.toList ++ ['M']) = ofText? .decimal text := by simp [readBare?]

theorem read?_int32 (n : Int32) : read? (intText n.toInt).toList = some (int32 n) := by
  have hlong : (intText n.toInt).toList.getLast? ≠ some 'L' :=
    getLast?_intText (by decide) (by decide)
  have hdecimal : (intText n.toInt).toList.getLast? ≠ some 'M' :=
    getLast?_intText (by decide) (by decide)
  have hnull : (intText n.toInt).toList ≠ "null".toList := fun h =>
    getLast?_intText (v := n.toInt) (c := 'l') (by decide) (by decide) (by rw [h]; rfl)
  have hbool : readBool? (intText n.toInt) = none := by
    have hlast : (intText n.toInt).toList.getLast? ≠ some 'e' :=
      getLast?_intText (by decide) (by decide)
    have htrue : intText n.toInt ≠ "true" := fun h => hlast (by rw [h]; rfl)
    have hfalse : intText n.toInt ≠ "false" := fun h => hlast (by rw [h]; rfl)
    rw [readBool?, if_neg htrue, if_neg hfalse]
  have hint : ofText? .int32 (intText n.toInt) = some (int32 n) :=
    ofText?_modernLiteral (v := int32 n) rfl rfl false
  rw [read?_bare (isWord_intText _), readBare?]
  simp only [if_neg hlong, if_neg hdecimal, if_neg hnull, String.ofList_toList, hint]
  simp [ofText?, hbool]

/-- The legacy literal of a value is read as this value. -/
theorem read?_legacyLiteral {v : Value} (hv : v.isDiscrete = true) :
    read? (legacyLiteral v).toList = some v := by
  cases v with
  | null => rfl
  | bool b => cases b <;> rfl
  | int32 n => exact read?_int32 n
  | int64 n =>
    have htext : (legacyLiteral (int64 n)).toList = (intText n.toInt).toList ++ ['L'] :=
      String.toList_append
    have hword : IsWord ((intText n.toInt).toList ++ ['L']) :=
      isWord_append (isWord_intText _) (by decide)
    rw [htext, read?_bare hword, readBare?_long]
    exact ofText?_modernLiteral (v := int64 n) rfl rfl false
  | decimal text =>
    have htext : (legacyLiteral (decimal text)).toList = text.toList ++ ['M'] :=
      String.toList_append
    have hword : IsWord (text.toList ++ ['M']) :=
      isWord_append (isWord_of_isDecimalText hv).2 (by decide)
    rw [htext, read?_bare hword, readBare?_decimal]
    exact ofText?_modernLiteral (v := decimal text) hv rfl false
  | string text =>
    have htext : (legacyLiteral (string text)).toList = '\'' :: (doubleQuotes text.toList ++ ['\'']) :=
      String.toList_ofList
    have hread := readQuoted_doubleQuotes text.toList [] (by simp)
    rw [htext, read?, cutFirst, if_pos rfl]
    simp [readWrapped?, hread]
  | guid g =>
    have hword : IsWord "guid".toList := by decide
    have hread : read? (legacyLiteral (guid g)).toList = _ := read?_wrapped hword g.chars
    rw [hread, readWrapped?, if_neg (by decide), if_pos rfl, List.dropLast_concat, g.read?_chars]
    rfl
  | date d =>
    have hword : IsWord "datetime".toList := by decide
    have hread : read? (legacyLiteral (date d)).toList = _ :=
      read?_wrapped hword (d.chars ++ "T00:00:00".toList)
    have htake : ((d.chars ++ "T00:00:00".toList) ++ ['\'']).take
        (((d.chars ++ "T00:00:00".toList) ++ ['\'']).length - 10) = d.chars := by simp
    rw [hread, readWrapped?, if_neg (by decide), if_neg (by decide), if_pos rfl, htake,
      d.readDate?_chars]
    rfl
  | binary b =>
    have hword : IsWord "X".toList := by decide
    have hread : read? (legacyLiteral (binary b)).toList = _ := read?_wrapped hword (hexUpper b)
    rw [hread, readWrapped?, if_neg (by decide), if_neg (by decide), if_neg (by decide), if_pos rfl,
      List.dropLast_concat, readHex?_hexUpper]
    rfl
  | double d | timestamp t | enum m => cases hv

end Legacy

theorem quote_inj {s t : String} (h : quote s = quote t) : s = t := by
  have hchars : quoteChars s.toList = quoteChars t.toList := by
    rw [← String.toList_inj, quote, quote, String.toList_ofList, String.toList_ofList] at h
    exact h
  have hread := congrArg readQuoted (List.cons.inj hchars).2
  rw [readQuoted_doubleQuotes s.toList [] (by simp), readQuoted_doubleQuotes t.toList [] (by simp)]
    at hread
  exact String.toList_inj.1 (Prod.mk.inj (Option.some.inj hread)).1

theorem wrapped_inj {word : String} {s t : List Char} (h : wrapped word s = wrapped word t) :
    s = t := by
  rw [← String.toList_inj, wrapped, wrapped, String.toList_ofList, String.toList_ofList] at h
  exact List.append_cancel_right (List.cons.inj (List.append_cancel_left h)).2

namespace Value

/-- A modern literal says which value of a kind it is for. -/
theorem modernLiteral_inj {v w : Value} {enumTypeFree : Bool} (hv : v.isDiscrete = true)
    (hw : w.isDiscrete = true) (htype : v.type? = w.type?)
    (h : modernLiteral enumTypeFree v = modernLiteral enumTypeFree w) : v = w := by
  have hreadable : ∀ target, v.isReadable = true → w.isReadable = true →
      v.type? = some target → v = w := by
    intro target hrv hrw ht
    have hread := ofText?_modernLiteral hrv ht enumTypeFree
    rw [h, ofText?_modernLiteral hrw (htype ▸ ht) enumTypeFree] at hread
    exact (Option.some.inj hread).symm
  cases v with
  | null =>
    cases w with
    | null => rfl
    | enum m => cases hw
    | _ => cases htype
  | string s =>
    cases w with
    | string t => rw [quote_inj h]
    | _ => cases htype
  | binary b =>
    cases w with
    | binary c =>
      have hread := congrArg readBase64? (wrapped_inj h)
      rw [readBase64?_base64, readBase64?_base64] at hread
      rw [Option.some.inj hread]
    | _ => cases htype
  | double d | timestamp t | enum m => cases hv
  | _ =>
    cases w
    all_goals first | exact hreadable _ hv hw rfl | cases htype

end Value

namespace LiteralStyle

/-- Values that the literals of a style tell apart, if they are not the same. -/
def Comparable (style : LiteralStyle) (v w : Value) : Prop :=
  v = w ∨ v.isDiscrete = true ∧ w.isDiscrete = true ∧ (style = legacy ∨ v.type? = w.type?)

variable {style : LiteralStyle} {v w : Value}

theorem literal_inj (hc : style.Comparable v w) (h : style.literal v = style.literal w) :
    v = w := by
  obtain rfl | ⟨hv, hw, hkind⟩ := hc
  · rfl
  cases style with
  | legacy =>
    have hread := Legacy.read?_legacyLiteral hv
    have htext : legacyLiteral v = legacyLiteral w := h
    rw [htext, Legacy.read?_legacyLiteral hw] at hread
    exact (Option.some.inj hread).symm
  | modern enumTypeFree => exact Value.modernLiteral_inj hv hw (hkind.resolve_left (by simp)) h

/-- The modern syntax leaves the width of an integer to the service. -/
example : literal (modern false) (.int32 7) = literal (modern false) (.int64 7) := by decide

theorem literal_eq_of_written_eq {escaped : Bool}
    (h : style.written escaped v = style.written escaped w) : style.literal v = style.literal w := by
  cases escaped with
  | false => exact h
  | true =>
    have hdecode := congrArg percentDecode h
    rw [written, written, if_pos rfl, if_pos rfl, percentDecode_escape, percentDecode_escape]
      at hdecode
    exact Option.some.inj hdecode

theorem isToken_written (style : LiteralStyle) (escaped : Bool) (hv : v.isDiscrete = true) :
    IsToken (style.written escaped v).toList := by
  have htoken : IsToken (style.literal v).toList :=
    (isToken_iff_contained style v).2 (Value.contained_of_isDiscrete hv style)
  cases escaped with
  | false => exact htoken
  | true =>
    rw [written, if_pos rfl, escape, String.toList_ofList]
    exact htoken.escapeChars

theorem toldApart_written (escaped : Bool) (hc : style.Comparable v w) :
    ToldApart (style.written escaped) v w := by
  intro r r' hr hr' h
  rcases hc with rfl | hdiscrete
  · exact ⟨rfl, List.append_cancel_left h⟩
  · obtain ⟨htext, hrest⟩ := (isToken_written style escaped hdiscrete.1).append_inj
      (isToken_written style escaped hdiscrete.2.1) hr hr' h
    have hliteral := literal_eq_of_written_eq (String.toList_inj.1 htext)
    exact ⟨literal_inj (.inr hdiscrete) hliteral, hrest⟩

end LiteralStyle

end ODataClient
