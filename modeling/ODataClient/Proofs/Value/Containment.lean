import ODataClient.Proofs.Value.Texts

/-! Literals as parts of predicates. A literal is one word of the text around it unless it copies a
text into the request that nobody has looked at: a decimal that was not checked, a member of an
enumeration with a quote in it, or a timestamp that RFC 3339 cannot express. -/

namespace ODataClient

variable {s word body : List Char}

/-- Every quote is written twice. -/
def IsDoubled (s : List Char) : Prop := ∃ body, s = doubleQuotes body

theorem isDoubled_of_notMem (h : '\'' ∉ s) : IsDoubled s := ⟨s, (doubleQuotes_of_notMem h).symm⟩

theorem isToken_of_isDoubled (hw : IsRun word) (hb : IsDoubled body) :
    IsToken (word ++ '\'' :: (body ++ ['\''])) := by
  obtain ⟨text, rfl⟩ := hb
  exact isToken_quoted hw text

/-- Behind a word, up to the quote at the end, every quote is written twice; or the word has the
opening quote itself. -/
def IsClosed (word body : List Char) : Prop :=
  IsRun word ∧ IsDoubled body ∨
    ∃ run tail, word = run ++ '\'' :: tail ∧ IsRun run ∧ IsDoubled (tail ++ '\'' :: body)

theorem isToken_wrapped_iff :
    IsToken (word ++ '\'' :: (body ++ ['\''])) ↔ IsClosed word body := by
  constructor
  · rintro ⟨-, run, hrun, hs | ⟨text, hs⟩⟩
    · exact absurd (hs ▸ by simp : '\'' ∈ run) hrun.notMem_quote
    · rw [quoteChars, List.append_eq_append_iff] at hs
      rcases hs with ⟨front, rfl, hs⟩ | ⟨tail, rfl, hs⟩
      · cases front with
        | nil =>
          rw [List.nil_append, List.cons.injEq] at hs
          exact .inl ⟨by simpa using hrun, text, List.append_cancel_right hs.2⟩
        | cons c front =>
          obtain rfl := (List.cons.inj hs).1
          exact absurd (by simp) hrun.notMem_quote
      · cases tail with
        | nil =>
          rw [List.nil_append, List.cons.injEq] at hs
          exact .inl ⟨by simpa using hrun, text, (List.append_cancel_right hs.2).symm⟩
        | cons c tail =>
          obtain ⟨rfl, htail⟩ := List.cons.inj hs
          have happend : doubleQuotes text ++ ['\''] = (tail ++ '\'' :: body) ++ ['\''] :=
            htail.trans (List.append_assoc tail ('\'' :: body) ['\'']).symm
          exact .inr ⟨run, tail, rfl, hrun, text, (List.append_cancel_right happend).symm⟩
  · rintro (⟨hw, hb⟩ | ⟨run, tail, rfl, hrun, hb⟩)
    · exact isToken_of_isDoubled hw hb
    · have hclosed := isToken_of_isDoubled hrun hb
      simpa using hclosed

theorem isToken_wrapped {word : String} (hw : IsRun word.toList) (hq : '\'' ∉ body) :
    IsToken (wrapped word body).toList := by
  rw [wrapped, String.toList_ofList]
  exact isToken_of_isDoubled hw (isDoubled_of_notMem hq)

theorem isToken_quote (text : String) : IsToken (quote text).toList := by
  rw [quote, String.toList_ofList]
  exact isToken_quoted (List.forall_mem_nil _) text.toList

theorem IsWord.notMem_quote (h : IsWord s) : '\'' ∉ s := h.isRun.notMem_quote

section Doubles

theorem isWord_signed {negative : Bool} (hs : IsWord s) : IsWord (signed negative s).toList := by
  rw [signed, String.toList_ofList]
  split
  · exact isWord_cons (by decide) hs
  · exact hs

theorem signed_ne_nil {negative : Bool} (hs : s ≠ []) : (signed negative s).toList ≠ [] := by
  rw [signed, String.toList_ofList]
  split
  · exact List.cons_ne_nil _ _
  · exact hs

theorem isWord_replicate_zero (n : Nat) : IsWord (List.replicate n '0') := fun c hc => by
  rw [List.eq_of_mem_replicate hc]
  decide

theorem isWord_positional (hs : IsWord s) (k : Int) : IsWord (positional s k) := by
  have hpoint : isWordChar '.' = true := by decide
  rw [positional]
  split
  · exact isWord_cons (by decide) (isWord_cons hpoint (isWord_append (isWord_replicate_zero _) hs))
  · split
    · exact isWord_append hs (isWord_replicate_zero _)
    · exact isWord_append (fun c hc => hs c (List.mem_of_mem_take hc))
        (isWord_cons hpoint fun c hc => hs c (List.mem_of_mem_drop hc))

theorem positional_ne_nil (hs : s ≠ []) (k : Int) : positional s k ≠ [] := by
  rw [positional]
  split
  · exact List.cons_ne_nil _ _
  · split
    · simp [hs]
    · simp

theorem isWord_doubleLiteral (d : Double) :
    (doubleLiteral d).toList ≠ [] ∧ IsWord (doubleLiteral d).toList := by
  cases d with
  | nan => decide
  | infinite negative => cases negative <;> decide
  | finite negative m e h =>
    rw [doubleLiteral]
    split
    · exact ⟨signed_ne_nil (by simp), isWord_signed (isWord_append (isWord_digitChars _) (by decide))⟩
    · rw [Double.plainText]
      split
      · exact ⟨signed_ne_nil (by simp), isWord_signed (by decide)⟩
      · exact ⟨signed_ne_nil (positional_ne_nil (digitChars_ne_nil _) _),
          isWord_signed (isWord_positional (isWord_digitChars _) _)⟩

end Doubles

section Timestamps

theorem Timestamp.isWord_fractionChars (n : Nat) : IsWord (fractionChars n) := by
  rw [fractionChars]
  split
  · exact List.forall_mem_nil _
  · refine isWord_cons (by decide) fun c hc => isWord_paddedDigits 9 n c ?_
    rw [dropZerosEnd, List.mem_reverse] at hc
    exact List.mem_reverse.1 ((List.dropWhile_sublist _).mem hc)

theorem Timestamp.isWord_signedOffsetChars (o : Offset) : IsWord (signedOffsetChars o) := by
  have hsign : isWordChar (if o.seconds < 0 then '-' else '+') = true := by
    split <;> decide
  exact isWord_cons hsign (isWord_append (isWord_paddedDigits _ _)
    (isWord_cons (by decide) (isWord_paddedDigits _ _)))

theorem Timestamp.isWord_rfc3339 {t : Timestamp} {text : String} (h : t.rfc3339? = some text) :
    text.toList ≠ [] ∧ IsWord text.toList := by
  have hoffset : IsWord (offsetChars t.offset) := by
    rw [offsetChars]
    split
    · decide
    · exact isWord_signedOffsetChars _
  have hcolon : isWordChar ':' = true := by decide
  rw [rfc3339?] at h
  split at h
  · obtain rfl := Option.some.inj h
    rw [String.toList_ofList]
    have htwo : ∀ n, IsWord (paddedDigits 2 n) := isWord_paddedDigits 2
    have hseconds := isWord_append (htwo t.time.second)
      (isWord_append (isWord_fractionChars t.time.nanosecond) hoffset)
    have hminutes := isWord_append (htwo t.time.minute) (isWord_cons hcolon hseconds)
    have hhours := isWord_append (htwo t.time.hour) (isWord_cons hcolon hminutes)
    exact ⟨by simp, isWord_append t.date.isWord_chars (isWord_cons (by decide) hhours)⟩
  · cases h

/-- The form beyond RFC 3339 has blanks in it, and still no quotes. -/
theorem Timestamp.plainChars_blank (t : Timestamp) :
    ' ' ∈ t.plainChars ∧ '\'' ∉ t.plainChars := by
  have hquote : ∀ {l : List Char}, IsWord l → '\'' ∉ l := fun h => h.notMem_quote
  have hfraction : '\'' ∉ if t.time.nanosecond = 0 then ['.', '0'] else
      fractionChars t.time.nanosecond := by
    split
    · decide
    · exact hquote (isWord_fractionChars _)
  have hdate := hquote t.date.isWord_chars
  have hhour := hquote (isWord_digitChars t.time.hour)
  have hminute := hquote (isWord_paddedDigits 2 t.time.minute)
  have hsecond := hquote (isWord_paddedDigits 2 t.time.second)
  have hoffset := hquote (isWord_signedOffsetChars t.offset)
  have hrest := hquote (isWord_paddedDigits 2 t.offset.secondOfMinute)
  simp [plainChars, hdate, hhour, hminute, hsecond, hfraction, hoffset, hrest]

theorem Timestamp.notMem_quote_text (t : Timestamp) : '\'' ∉ t.text.toList := by
  rw [text]
  cases h : t.rfc3339? with
  | none =>
    rw [Option.getD_none, String.toList_ofList]
    exact t.plainChars_blank.2
  | some text =>
    rw [Option.getD_some]
    exact (isWord_rfc3339 h).2.notMem_quote

theorem Timestamp.isToken_text_iff (t : Timestamp) :
    IsToken t.text.toList ↔ t.IsExpressible := by
  rw [text]
  by_cases hy : t.IsExpressible
  · have hsome : t.rfc3339?.isSome = true := by rw [rfc3339?, if_pos hy]; rfl
    obtain ⟨text, h⟩ := Option.isSome_iff_exists.1 hsome
    obtain ⟨hne, hword⟩ := isWord_rfc3339 h
    rw [h, Option.getD_some]
    exact iff_of_true (hword.isRun.isToken hne) hy
  · have hnone : t.rfc3339? = none := by rw [rfc3339?, if_neg hy]
    obtain ⟨hblank, hquote⟩ := t.plainChars_blank
    rw [hnone, Option.getD_none, String.toList_ofList]
    exact iff_of_false (not_isToken_of_isDelimiter hblank (by decide) hquote) hy

end Timestamps

/-- A letter at the end leaves no room for a quoted body. -/
theorem isToken_append_iff {c : Char} (hc : isPlain c = true) : IsToken (s ++ [c]) ↔ IsRun s := by
  have hlast : IsRun [c] := List.forall_mem_singleton.2 hc
  constructor
  · rintro ⟨-, run, hrun, hs | ⟨body, hs⟩⟩
    · exact fun d hd => hrun d (hs ▸ List.mem_append_left _ hd)
    · have hquote : run ++ quoteChars body = (run ++ '\'' :: doubleQuotes body) ++ ['\''] := by
        simp [quoteChars]
      have hlasts := congrArg List.getLast? (hs.trans hquote)
      rw [List.getLast?_concat, List.getLast?_concat] at hlasts
      exact absurd (Option.some.inj hlasts) (ne_quote_of_isPlain hc)
  · exact fun hs => (hs.append hlast).isToken (by simp)

theorem isToken_intText (v : Int) : IsToken (intText v).toList := by
  obtain ⟨c, r, hc, -⟩ := Json.exists_cons_intText v
  exact (isWord_intText v).isRun.isToken (by simp [hc])

namespace Value

/-- What a value has to be for its literal to be one word. Only three kinds can fail, the last two
of them in the modern syntax alone. -/
def Contained (style : LiteralStyle) : Value → Prop
  | decimal text =>
    match style with
    | .legacy => IsRun text.toList
    | .modern _ => IsToken text.toList
  | timestamp t =>
    match style with
    | .legacy => True
    | .modern _ => t.IsExpressible
  | enum m =>
    match style with
    | .legacy => True
    | .modern enumTypeFree =>
      IsClosed (if enumTypeFree then "" else m.typeName).toList m.member.toList
  | _ => True

theorem isToken_legacyLiteral_iff (v : Value) :
    IsToken (legacyLiteral v).toList ↔ v.Contained .legacy := by
  have hletter : IsRun ['D', 'L', 'M'] := by decide
  cases v with
  | null => exact iff_of_true ((by decide : IsWord "null".toList).isRun.isToken (by decide)) trivial
  | bool b =>
    refine iff_of_true ((isWord_boolText b).isRun.isToken ?_) trivial
    cases b <;> decide
  | int32 n => exact iff_of_true (isToken_intText _) trivial
  | int64 n =>
    have htext : (legacyLiteral (int64 n)).toList = (intText n.toInt).toList ++ ['L'] :=
      String.toList_append
    rw [htext, isToken_append_iff (hletter 'L' (by decide))]
    exact iff_of_true (isWord_intText _).isRun trivial
  | double d =>
    have htext : (legacyLiteral (double d)).toList = (doubleLiteral d).toList ++ ['D'] :=
      String.toList_append
    rw [htext, isToken_append_iff (hletter 'D' (by decide))]
    exact iff_of_true (isWord_doubleLiteral d).2.isRun trivial
  | decimal text =>
    have htext : (legacyLiteral (decimal text)).toList = text.toList ++ ['M'] :=
      String.toList_append
    rw [htext, isToken_append_iff (hletter 'M' (by decide))]
    rfl
  | string text => exact iff_of_true (isToken_quote text) trivial
  | guid g =>
    have hword : IsRun "guid".toList := by decide
    exact iff_of_true (isToken_wrapped hword g.isWord_chars.notMem_quote) trivial
  | date d =>
    have hword : IsRun "datetime".toList := by decide
    have hbody : IsWord (d.chars ++ "T00:00:00".toList) := isWord_append d.isWord_chars (by decide)
    exact iff_of_true (isToken_wrapped hword hbody.notMem_quote) trivial
  | timestamp t =>
    have hword : IsRun "datetimeoffset".toList := by decide
    exact iff_of_true (isToken_wrapped hword t.notMem_quote_text) trivial
  | binary b =>
    have hword : IsRun "X".toList := by decide
    exact iff_of_true (isToken_wrapped hword (isWord_hexUpper b).notMem_quote) trivial
  | enum m =>
    refine iff_of_true ?_ trivial
    have hlong : IsRun ((intText m.value.toInt).toList ++ ['L']) :=
      (isWord_intText _).isRun.append (List.forall_mem_singleton.2 (hletter 'L' (by decide)))
    cases hfits : fitsInt32 m.value with
    | true =>
      have htext : legacyLiteral (enum m) = intText m.value.toInt32.toInt := by
        simp [legacyLiteral, underlying, hfits, commonLiteral]
      rw [htext]
      exact isToken_intText _
    | false =>
      have htext : (legacyLiteral (enum m)).toList = (intText m.value.toInt).toList ++ ['L'] := by
        simp [legacyLiteral, underlying, hfits]
      rw [htext]
      exact hlong.isToken (by simp)

theorem isToken_modernLiteral_iff (enumTypeFree : Bool) (v : Value) :
    IsToken (modernLiteral enumTypeFree v).toList ↔ v.Contained (.modern enumTypeFree) := by
  cases v with
  | null => exact iff_of_true ((by decide : IsWord "null".toList).isRun.isToken (by decide)) trivial
  | bool b =>
    refine iff_of_true ((isWord_boolText b).isRun.isToken ?_) trivial
    cases b <;> decide
  | int32 n => exact iff_of_true (isToken_intText _) trivial
  | int64 n => exact iff_of_true (isToken_intText _) trivial
  | double d =>
    obtain ⟨hne, hword⟩ := isWord_doubleLiteral d
    exact iff_of_true (hword.isRun.isToken hne) trivial
  | decimal text => exact Iff.rfl
  | string text => exact iff_of_true (isToken_quote text) trivial
  | guid g =>
    have hne : g.text.toList ≠ [] := by simp [Guid.text, Guid.chars]
    exact iff_of_true (g.isWord_text.isRun.isToken hne) trivial
  | date d =>
    have hne : d.text.toList ≠ [] := by simp [Date.text, Date.chars]
    exact iff_of_true (d.isWord_text.isRun.isToken hne) trivial
  | timestamp t => exact t.isToken_text_iff
  | binary b =>
    have hword : IsRun "binary".toList := by decide
    exact iff_of_true (isToken_wrapped hword (isWord_base64 b).notMem_quote) trivial
  | enum m =>
    have htext : (modernLiteral enumTypeFree (enum m)).toList =
        (if enumTypeFree then "" else m.typeName).toList ++ '\'' :: (m.member.toList ++ ['\'']) :=
      String.toList_ofList
    rw [htext, isToken_wrapped_iff]
    rfl

theorem contained_of_isDecimalText {text : String} (h : isDecimalText text = true)
    (style : LiteralStyle) : (decimal text).Contained style := by
  obtain ⟨hne, hword⟩ := isWord_of_isDecimalText h
  cases style with
  | legacy => exact hword.isRun
  | modern enumTypeFree => exact hword.isRun.isToken hne

end Value

namespace LiteralStyle

open Value

theorem isToken_iff_contained (style : LiteralStyle) (v : Value) :
    IsToken (style.literal v).toList ↔ v.Contained style := by
  cases style with
  | legacy => exact isToken_legacyLiteral_iff v
  | modern enumTypeFree => exact isToken_modernLiteral_iff enumTypeFree v

/-- A literal is a run of characters that are no delimiters, with or without one quoted body behind
it, exactly if the value is contained, and every checked decimal is. Such a literal is one word in
every predicate, together with the characters in front of it that are no delimiters, and all other
words and delimiters of the predicate are the same as without it. -/
theorem literal_isToken_iff (style : LiteralStyle) (v : Value) :
    (IsToken (style.literal v).toList ↔ v.Contained style) ∧
      (∀ text, v = .decimal text → isDecimalText text = true → v.Contained style) ∧
      (v.Contained style → ∀ before front after : List Char, EndsDelimited before → IsRun front →
        StartsDelimited after →
          chunks false (before ++ (front ++ (style.literal v).toList ++ after)) =
            chunks false before ++
              .word (front ++ (style.literal v).toList) :: chunks false after) := by
  refine ⟨isToken_iff_contained style v, ?_, fun hv before front after hb hf ha => ?_⟩
  · rintro text rfl h
    exact contained_of_isDecimalText h style
  · have htoken : IsToken (style.literal v).toList := (isToken_iff_contained style v).2 hv
    exact chunks_insert hb (htoken.run_append hf) ha

/-- A text with quotes, blanks and parentheses in it, as an operand of a call. -/
theorem literal_isToken_crafted :
    let v : Value := .string "x') or (1 eq 1, 'a"
    v.Contained .legacy ∧
      chunks false ("contains(Name,".toList ++ ("".toList ++ (LiteralStyle.legacy.literal v).toList ++
          ") and Id gt 5".toList)) =
        chunks false "contains(Name,".toList ++ .word "'x'') or (1 eq 1, ''a'".toList ::
          chunks false ") and Id gt 5".toList := by
  intro v
  have hbefore : EndsDelimited "contains(Name,".toList :=
    .inr ⟨"contains(Name".toList, ',', by decide, by decide, by decide⟩
  have hfront : IsRun "".toList := by decide
  have hafter : StartsDelimited ") and Id gt 5".toList := startsDelimited_cons (by decide) _
  have hword : "".toList ++ (LiteralStyle.legacy.literal v).toList =
      "'x'') or (1 eq 1, ''a'".toList := by decide
  obtain ⟨-, -, hread⟩ := literal_isToken_iff .legacy v
  have hchunks := hread trivial _ _ _ hbefore hfront hafter
  rw [hword] at hchunks ⊢
  exact ⟨trivial, hchunks⟩

/-- A member with a quote in it ends its own literal, and an unchecked decimal has words of its
own. -/
theorem crafted_not_isToken :
    ¬ IsToken (literal (.modern false) (.enum ⟨"NorthwindModel.Color", "x' or 'a' eq 'a", 1⟩)).toList ∧
      ¬ IsToken (literal (.modern false) (.decimal "1 or 1 eq 1")).toList := by
  constructor
  · intro h
    have hchunks := chunks_token h startsDelimited_nil
    revert hchunks
    decide
  · intro h
    have hchunks := chunks_token h startsDelimited_nil
    revert hchunks
    decide

end LiteralStyle

end ODataClient
