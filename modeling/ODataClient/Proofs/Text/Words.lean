import Mathlib.Data.List.Basic
import ODataClient.Text.Blank
import ODataClient.Text.Quoted

/-! Texts cut at blanks, commas and parentheses that are not inside of quotes. A run of other
characters, alone or with one quoted body behind it, is one word wherever it stands, and can be
told from what follows it. -/

namespace ODataClient

/-- What stands between the words of a predicate. -/
def isDelimiter (c : Char) : Bool := c == ' ' || c == ',' || c == '(' || c == ')'

def isPlain (c : Char) : Bool := !isDelimiter c && c != '\''

def IsRun (s : List Char) : Prop := ∀ c ∈ s, isPlain c = true

instance (s : List Char) : Decidable (IsRun s) :=
  decidable_of_iff (s.all isPlain = true) List.all_eq_true

/-- A run of plain characters, or such a run with one quoted body behind it. -/
def IsToken (s : List Char) : Prop :=
  s ≠ [] ∧ ∃ run, IsRun run ∧ (s = run ∨ ∃ body, s = run ++ quoteChars body)

inductive Chunk
  | mark (c : Char)
  | word (text : List Char)
  deriving DecidableEq

def Chunk.attach (c : Char) : List Chunk → List Chunk
  | word text :: r => word (c :: text) :: r
  | r => word [c] :: r

def chunks (quoted : Bool) : List Char → List Chunk
  | [] => []
  | c :: r =>
    if !quoted && isDelimiter c then .mark c :: chunks false r
    else Chunk.attach c (chunks (quoted != (c == '\'')) r)

def StartsDelimited (s : List Char) : Prop := ∀ c ∈ s.head?, isDelimiter c = true

/-- Nothing, or a text whose last character is a delimiter with all quotes before it closed. -/
def EndsDelimited (s : List Char) : Prop :=
  s = [] ∨ ∃ front c, s = front ++ [c] ∧ isDelimiter c = true ∧ front.count '\'' % 2 = 0

variable {s t r r' run : List Char} {c : Char} {quoted : Bool}

theorem not_isDelimiter_of_isPlain (h : isPlain c = true) : isDelimiter c = false := by
  rw [isPlain, Bool.and_eq_true, Bool.not_eq_true'] at h
  exact h.1

theorem ne_quote_of_isPlain (h : isPlain c = true) : c ≠ '\'' := by
  rw [isPlain, Bool.and_eq_true, bne_iff_ne] at h
  exact h.2

theorem ne_quote_of_isDelimiter (h : isDelimiter c = true) : c ≠ '\'' := by
  rintro rfl
  exact absurd h (by decide)

theorem IsRun.append (hs : IsRun s) (ht : IsRun t) : IsRun (s ++ t) :=
  List.forall_mem_append.2 ⟨hs, ht⟩

theorem IsRun.notMem_quote (h : IsRun run) : '\'' ∉ run := fun hm =>
  ne_quote_of_isPlain (h _ hm) rfl

theorem IsRun.isToken (h : IsRun s) (hne : s ≠ []) : IsToken s := ⟨hne, s, h, .inl rfl⟩

/-- A text with a delimiter and no quote is no token. -/
theorem not_isToken_of_isDelimiter (hc : c ∈ s) (hd : isDelimiter c = true) (hq : '\'' ∉ s) :
    ¬ IsToken s := by
  rintro ⟨-, run, hrun, rfl | ⟨body, rfl⟩⟩
  · exact Bool.false_ne_true ((not_isDelimiter_of_isPlain (hrun c hc)).symm.trans hd)
  · exact hq (by simp [quoteChars])

theorem isToken_quoted (h : IsRun run) (body : List Char) : IsToken (run ++ quoteChars body) :=
  ⟨by simp [quoteChars], run, h, .inr ⟨body, rfl⟩⟩

theorem IsToken.run_append (hr : IsRun run) (h : IsToken s) : IsToken (run ++ s) := by
  obtain ⟨hne, front, hfront, rfl | ⟨body, rfl⟩⟩ := h
  · exact (hr.append hfront).isToken (by simp [hne])
  · rw [← List.append_assoc]
    exact isToken_quoted (hr.append hfront) body

namespace Chunk

theorem attach_append_mark (c d : Char) (ps qs : List Chunk) :
    attach c (ps ++ mark d :: qs) = attach c ps ++ mark d :: qs := by
  match ps with
  | [] => rfl
  | mark _ :: _ => rfl
  | word _ :: _ => rfl

theorem foldr_attach {ps : List Chunk} (hs : s ≠ []) (h : ∀ text, ps.head? ≠ some (word text)) :
    s.foldr attach ps = word s :: ps := by
  induction s with
  | nil => exact absurd rfl hs
  | cons c s ih =>
    rw [List.foldr_cons]
    by_cases hnil : s = []
    · subst hnil
      match ps with
      | [] => rfl
      | mark _ :: _ => rfl
      | word text :: _ => exact absurd rfl (h text)
    · rw [ih hnil, attach]

end Chunk

theorem chunks_run (h : IsRun run) (r : List Char) :
    chunks false (run ++ r) = run.foldr Chunk.attach (chunks false r) := by
  induction run with
  | nil => rfl
  | cons c run ih =>
    obtain ⟨hc, hrun⟩ := List.forall_mem_cons.1 h
    rw [List.cons_append, chunks, not_isDelimiter_of_isPlain hc,
      beq_eq_false_iff_ne.2 (ne_quote_of_isPlain hc), List.foldr_cons, ← ih hrun]
    rfl

/-- Behind an opening quote all belongs to the word, up to the quote that is not doubled. -/
theorem chunks_quoted (body r : List Char) :
    chunks true (doubleQuotes body ++ '\'' :: r) =
      (doubleQuotes body ++ ['\'']).foldr Chunk.attach (chunks false r) := by
  induction body with
  | nil => rfl
  | cons c body ih =>
    rw [doubleQuotes]
    split
    next hc =>
      have hopen : chunks true ('\'' :: '\'' :: (doubleQuotes body ++ '\'' :: r)) =
          Chunk.attach '\'' (Chunk.attach '\'' (chunks true (doubleQuotes body ++ '\'' :: r))) := rfl
      rw [List.cons_append, List.cons_append, hopen, ih]
      rfl
    next hc =>
      rw [List.cons_append, chunks, beq_eq_false_iff_ne.2 hc, List.cons_append, List.foldr_cons,
        ← ih]
      rfl

theorem chunks_foldr (h : IsToken s) (r : List Char) :
    chunks false (s ++ r) = s.foldr Chunk.attach (chunks false r) := by
  obtain ⟨-, run, hrun, rfl | ⟨body, rfl⟩⟩ := h
  · exact chunks_run hrun r
  · have hopen : chunks false (quoteChars body ++ r) =
        Chunk.attach '\'' (chunks true (doubleQuotes body ++ '\'' :: r)) := by
      rw [quoteChars, List.cons_append, List.append_assoc]
      rfl
    have hquote : (quoteChars body).foldr Chunk.attach (chunks false r) =
        Chunk.attach '\'' ((doubleQuotes body ++ ['\'']).foldr Chunk.attach (chunks false r)) := rfl
    rw [List.append_assoc, chunks_run hrun, hopen, chunks_quoted, ← hquote, List.foldr_append]

theorem head?_chunks (h : StartsDelimited r) (text : List Char) :
    (chunks false r).head? ≠ some (.word text) := by
  cases r with
  | nil => simp [chunks]
  | cons c r =>
    have hc : isDelimiter c = true := h c rfl
    simp [chunks, hc]

/-- A token is one word in front of a delimiter. -/
theorem chunks_token (h : IsToken s) (hr : StartsDelimited r) :
    chunks false (s ++ r) = .word s :: chunks false r := by
  rw [chunks_foldr h, Chunk.foldr_attach h.1 (head?_chunks hr)]

theorem chunks_append_mark (hc : isDelimiter c = true)
    (hs : (s.count '\'' + quoted.toNat) % 2 = 0) (r : List Char) :
    chunks quoted (s ++ c :: r) = chunks quoted s ++ .mark c :: chunks false r := by
  induction s generalizing quoted with
  | nil =>
    cases quoted with
    | false => simp [chunks, hc]
    | true => simp at hs
  | cons d s ih =>
    rw [List.cons_append, chunks, chunks]
    split
    next hd =>
      rw [Bool.and_eq_true, Bool.not_eq_true'] at hd
      have hcount : (d :: s).count '\'' = s.count '\'' :=
        List.count_cons_of_ne (ne_quote_of_isDelimiter hd.2)
      rw [hcount, hd.1] at hs
      rw [ih hs, List.cons_append]
    next =>
      have hparity : (s.count '\'' + (quoted != (d == '\'')).toNat) % 2 = 0 := by
        rw [List.count_cons] at hs
        cases quoted <;> cases hd : d == '\'' <;> simp [hd] at hs ⊢ <;> omega
      rw [ih hparity, Chunk.attach_append_mark]

/-- A token is one word in any text around it, and the other chunks stay as they are. -/
theorem chunks_insert {before : List Char} (hb : EndsDelimited before) (h : IsToken s)
    (hr : StartsDelimited r) :
    chunks false (before ++ (s ++ r)) = chunks false before ++ .word s :: chunks false r := by
  rw [← chunks_token h hr]
  rcases hb with rfl | ⟨front, c, rfl, hc, hcount⟩
  · rfl
  · have hparity : (front.count '\'' + false.toNat) % 2 = 0 := hcount
    have hmark := chunks_append_mark hc hparity []
    rw [List.append_assoc, List.singleton_append, chunks_append_mark hc hparity, hmark,
      List.append_assoc]
    rfl

/-- Where a token ends is seen from the delimiter behind it. -/
theorem IsToken.append_inj (hs : IsToken s) (ht : IsToken t) (hr : StartsDelimited r)
    (hr' : StartsDelimited r') (h : s ++ r = t ++ r') : s = t ∧ r = r' := by
  have hchunks := congrArg (chunks false) h
  rw [chunks_token hs hr, chunks_token ht hr'] at hchunks
  obtain rfl := Chunk.word.inj (List.cons.inj hchunks).1
  exact ⟨rfl, List.append_cancel_left h⟩

theorem startsDelimited_cons (hc : isDelimiter c = true) (r : List Char) :
    StartsDelimited (c :: r) := by
  intro d hd
  obtain rfl := Option.some.inj hd
  exact hc

theorem startsDelimited_nil : StartsDelimited [] := fun _ h => by cases h

/-- In front of delimiters two texts are the same only for the same thing. -/
def ToldApart {α : Type} (text : α → String) (x y : α) : Prop :=
  ∀ r r', StartsDelimited r → StartsDelimited r' → (text x).toList ++ r = (text y).toList ++ r' →
    x = y ∧ r = r'

theorem startsDelimited_closing (r : List Char) : StartsDelimited (')' :: r) :=
  startsDelimited_cons (by decide) r

section Lists

variable {α : Type} {text : α → String} {l l' : List α}

/-- Lists of the same length, separated by commas, in front of a parenthesis. -/
theorem toldApart_intercalate (ht : List.Forall₂ (ToldApart text) l l')
    (h : (String.intercalate "," (l.map text)).toList ++ ')' :: r =
      (String.intercalate "," (l'.map text)).toList ++ ')' :: r') : l = l' ∧ r = r' := by
  induction ht with
  | nil => exact ⟨rfl, (List.cons.inj h).2⟩
  | @cons x y l l' hxy hrest ih =>
    cases hrest with
    | nil =>
      simp only [List.map_cons, List.map_nil, String.intercalate_singleton] at h
      obtain ⟨rfl, hr⟩ := hxy _ _ (startsDelimited_closing r) (startsDelimited_closing r') h
      exact ⟨rfl, (List.cons.inj hr).2⟩
    | @cons x₂ y₂ l l' hxy₂ hrest =>
      have hcomma : ∀ r : List Char, StartsDelimited (",".toList ++ r) :=
        fun r => startsDelimited_cons (by decide) r
      simp only [List.map_cons, String.intercalate_cons_cons, String.toList_append,
        List.append_assoc] at h ih
      obtain ⟨rfl, hr⟩ := hxy _ _ (hcomma _) (hcomma _) h
      obtain ⟨hl, hr⟩ := ih (List.append_cancel_left hr)
      exact ⟨by rw [hl], hr⟩

end Lists

/-- The characters of unquoted literals. -/
def isWordChar (c : Char) : Bool := c.isAlphanum || ['+', '-', '.', '/', ':', '='].contains c

theorem isPlain_and_not_isBlank_of_lt : ∀ n < 128, isWordChar (Char.ofNat n) = true →
    isPlain (Char.ofNat n) = true ∧ isBlank (Char.ofNat n) = false := by
  decide

theorem lt_of_isAlphanum (h : c.isAlphanum = true) : c.toNat < 128 := by
  change (decide ('A'.val ≤ c.val ∧ c.val ≤ 'Z'.val) ||
    (decide ('a'.val ≤ c.val) && decide (c.val ≤ 'z'.val)) || c.isDigit) = true at h
  rw [Bool.or_eq_true, Bool.or_eq_true, Bool.and_eq_true, decide_eq_true_eq, decide_eq_true_eq,
    decide_eq_true_eq, Char.isDigit_iff_toNat] at h
  change ((65 ≤ c.toNat ∧ c.toNat ≤ 90) ∨ (97 ≤ c.toNat ∧ c.toNat ≤ 122)) ∨
    (48 ≤ c.toNat ∧ c.toNat ≤ 57) at h
  omega

theorem lt_of_isWordChar (h : isWordChar c = true) : c.toNat < 128 := by
  rw [isWordChar, Bool.or_eq_true] at h
  rcases h with h | h
  · exact lt_of_isAlphanum h
  · have hall : (['+', '-', '.', '/', ':', '='].all fun d => d.toNat < 128) = true := by decide
    exact of_decide_eq_true (List.all_eq_true.1 hall c (List.contains_iff_mem.1 h))

theorem isPlain_of_isWordChar (h : isWordChar c = true) : isPlain c = true := by
  have hn := isPlain_and_not_isBlank_of_lt c.toNat (lt_of_isWordChar h)
  rw [Char.ofNat_toNat] at hn
  exact (hn h).1

theorem not_isBlank_of_isWordChar (h : isWordChar c = true) : isBlank c = false := by
  have hn := isPlain_and_not_isBlank_of_lt c.toNat (lt_of_isWordChar h)
  rw [Char.ofNat_toNat] at hn
  exact (hn h).2

def IsWord (s : List Char) : Prop := ∀ c ∈ s, isWordChar c = true

instance (s : List Char) : Decidable (IsWord s) :=
  decidable_of_iff (s.all isWordChar = true) List.all_eq_true

theorem IsWord.isRun (h : IsWord s) : IsRun s := fun c hc => isPlain_of_isWordChar (h c hc)

theorem isWord_append (hs : IsWord s) (ht : IsWord t) : IsWord (s ++ t) :=
  List.forall_mem_append.2 ⟨hs, ht⟩

theorem isWord_cons (hc : isWordChar c = true) (hs : IsWord s) : IsWord (c :: s) :=
  List.forall_mem_cons.2 ⟨hc, hs⟩

theorem doubleQuotes_of_notMem (h : '\'' ∉ s) : doubleQuotes s = s := by
  induction s with
  | nil => rfl
  | cons c s ih =>
    rw [List.mem_cons, not_or] at h
    rw [doubleQuotes, if_neg (Ne.symm h.1), ih h.2]

theorem IsWord.trim_eq {text : String} (h : IsWord text.toList) : trim text = text := by
  have hhead : ∀ c ∈ text.toList.head?, isBlank c = false := fun c hc =>
    not_isBlank_of_isWordChar (h c (List.mem_of_mem_head? hc))
  have hlast : ∀ c ∈ text.toList.getLast?, isBlank c = false := fun c hc =>
    not_isBlank_of_isWordChar (h c (List.mem_of_mem_getLast? hc))
  rw [trim, trimBlanks_eq_self hhead hlast, String.ofList_toList]

end ODataClient
