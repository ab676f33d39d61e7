import Mathlib.Data.List.Chain
import Mathlib.Data.List.TakeWhile
import ODataClient.Request.Qualifier
import ODataClient.Text.Quoted

/-! Filter texts cut into literals, paths and single characters. What is left out of a text filter
for an expand item is the qualifier in front of each path that begins with it, and nothing else:
the loop over the characters comes to the same as the cut. -/

namespace ODataClient

inductive Lexeme
  | literal (text : List Char)
  | path (text : List Char)
  | other (c : Char)

namespace Lexeme

def chars : Lexeme → List Char
  | literal text => text
  | path text => text
  | other c => [c]

def unqualified (qualifier : List Char) : Lexeme → List Char
  | path text =>
    if (qualifier ++ ['/']).isPrefixOf text then text.drop (qualifier.length + 1) else text
  | l => l.chars

/-- A quote that is not written twice ends a literal; without one it goes on to the end. -/
def WellFormed : Lexeme → Prop
  | literal text => ∃ body, text = quoteChars body ∨ text = '\'' :: doubleQuotes body
  | path text => text ≠ [] ∧ ∀ c ∈ text, continuesPath c
  | other c => c ≠ '\'' ∧ continuesPath c = false

/-- Which lexemes stand next to each other: a path goes as far as it can, a quote behind a literal
would be part of it, and nothing is behind a literal that does not end. -/
def Adjoins : Lexeme → Lexeme → Prop
  | path _, path _ => False
  | literal _, literal _ => False
  | literal text, _ => ∃ body, text = quoteChars body
  | _, _ => True

end Lexeme

/-- The rest of a literal behind its opening quote, as far as it goes. -/
def quotedRest : List Char → List Char
  | [] => []
  | [c] => [c]
  | c :: d :: r =>
    if c = '\'' then if d = '\'' then c :: d :: quotedRest r else [c] else c :: quotedRest (d :: r)

def lexemes : List Char → List Lexeme
  | [] => []
  | c :: r =>
    if c = '\'' then .literal (c :: quotedRest r) :: lexemes (r.drop (quotedRest r).length)
    else if continuesPath c then
      .path (c :: r.takeWhile continuesPath) :: lexemes (r.dropWhile continuesPath)
    else .other c :: lexemes r
termination_by s => s.length
decreasing_by
  · rw [List.length_drop, List.length_cons]
    omega
  · exact Nat.lt_succ_of_le (List.dropWhile_suffix _).length_le
  · exact Nat.lt_succ_self _

theorem quotedRest_append (s : List Char) :
    quotedRest s ++ s.drop (quotedRest s).length = s := by
  fun_induction quotedRest s with
  | case1 => rfl
  | case2 c => rfl
  | case3 r ih => simpa using ih
  | case4 d r hd => rfl
  | case5 c d r hc ih => simpa using ih

/-- A literal ends at a quote that no quote follows, or it goes on to the end of the text. -/
theorem quotedRest_cases (s : List Char) : ∃ body,
    (quotedRest s = doubleQuotes body ++ ['\''] ∧
        (s.drop (quotedRest s).length).head? ≠ some '\'') ∨
      (quotedRest s = doubleQuotes body ∧ s.drop (quotedRest s).length = []) := by
  fun_induction quotedRest s with
  | case1 => exact ⟨[], .inr ⟨rfl, rfl⟩⟩
  | case2 c =>
    by_cases hc : c = '\''
    · subst hc
      exact ⟨[], .inl ⟨rfl, by simp⟩⟩
    · exact ⟨[c], .inr ⟨by simp [doubleQuotes, hc], rfl⟩⟩
  | case3 r ih =>
    obtain ⟨body, ih⟩ := ih
    exact ⟨'\'' :: body, by simpa [doubleQuotes] using ih⟩
  | case4 d r hd => exact ⟨[], .inl ⟨rfl, by simpa using hd⟩⟩
  | case5 c d r hc ih =>
    obtain ⟨body, ih⟩ := ih
    exact ⟨c :: body, by simpa [doubleQuotes, hc] using ih⟩

theorem continuesPath_quote : continuesPath '\'' = false := by decide

theorem ne_quote_of_continuesPath {c : Char} (h : continuesPath c = true) : c ≠ '\'' := by
  rintro rfl
  exact Bool.false_ne_true (continuesPath_quote.symm.trans h)

theorem chars_lexemes (s : List Char) : (lexemes s).flatMap Lexeme.chars = s := by
  fun_induction lexemes s with
  | case1 => rfl
  | case2 r ih =>
    rw [List.flatMap_cons, ih, Lexeme.chars, List.cons_append, quotedRest_append]
  | case3 c r hq hp ih =>
    rw [List.flatMap_cons, ih, Lexeme.chars, List.cons_append, List.takeWhile_append_dropWhile]
  | case4 c r hq hp ih => rw [List.flatMap_cons, ih, Lexeme.chars, List.singleton_append]

theorem wellFormed_lexemes (s : List Char) : ∀ l ∈ lexemes s, l.WellFormed := by
  fun_induction lexemes s with
  | case1 => exact List.forall_mem_nil _
  | case2 r ih =>
    obtain ⟨body, h⟩ := quotedRest_cases r
    refine List.forall_mem_cons.2 ⟨⟨body, h.imp (fun h => ?_) fun h => ?_⟩, ih⟩
    · rw [h.1, quoteChars]
    · rw [h.1]
  | case3 c r hq hp ih =>
    refine List.forall_mem_cons.2 ⟨⟨List.cons_ne_nil _ _, ?_⟩, ih⟩
    exact List.forall_mem_cons.2 ⟨hp, fun d hd => List.mem_takeWhile_imp hd⟩
  | case4 c r hq hp ih =>
    exact List.forall_mem_cons.2 ⟨⟨hq, Bool.eq_false_iff.2 hp⟩, ih⟩

theorem head?_chars_of_head?_lexemes {s : List Char} {l : Lexeme} (h : (lexemes s).head? = some l) :
    ∃ c ∈ l.chars.head?, s.head? = some c := by
  cases s with
  | nil => simp [lexemes] at h
  | cons c r =>
    rw [lexemes] at h
    split_ifs at h <;> cases h <;> exact ⟨c, rfl, rfl⟩

theorem adjoins_lexemes (s : List Char) : (lexemes s).IsChain Lexeme.Adjoins := by
  fun_induction lexemes s with
  | case1 => exact .nil
  | case2 r ih =>
    refine List.isChain_cons.2 ⟨fun l hl => ?_, ih⟩
    obtain ⟨c, hc, hs⟩ := head?_chars_of_head?_lexemes hl
    obtain ⟨body, ⟨hbody, hend⟩ | ⟨-, hend⟩⟩ := quotedRest_cases r
    · cases l with
      | literal text =>
        obtain ⟨b, rfl | rfl⟩ := wellFormed_lexemes _ _ (List.mem_of_mem_head? hl)
        all_goals
          cases hc
          exact hend hs
      | path text => exact ⟨body, by rw [hbody, quoteChars]⟩
      | other d => exact ⟨body, by rw [hbody, quoteChars]⟩
    · rw [hend] at hs
      cases hs
  | case3 c r hq hp ih =>
    refine List.isChain_cons.2 ⟨fun l hl => ?_, ih⟩
    obtain ⟨d, hd, hs⟩ := head?_chars_of_head?_lexemes hl
    cases l with
    | literal text => trivial
    | other e => trivial
    | path text =>
      have hpath := (wellFormed_lexemes _ _ (List.mem_of_mem_head? hl)).2 d
        (List.mem_of_mem_head? hd)
      have hnot := List.head?_dropWhile_not continuesPath r
      rw [hs] at hnot
      exact Bool.false_ne_true (hnot.symm.trans hpath)
  | case4 c r hq hp ih => exact List.isChain_cons.2 ⟨fun l _ => trivial, ih⟩

section Loop

variable {qualifier : List Char}

theorem unqualifyFrom_skip (quoted : Bool) (before : Option Char) (dropped s : List Char) :
    unqualifyFrom qualifier dropped.length quoted before (dropped ++ s) =
      unqualifyFrom qualifier 0 quoted before s := by
  induction dropped with
  | nil => rfl
  | cons c dropped ih => exact ih

theorem continuesPath_of_isPrefixOf (hq : ∀ c ∈ qualifier, continuesPath c) {c : Char}
    {r : List Char} (h : (qualifier ++ ['/']).isPrefixOf (c :: r)) : continuesPath c = true := by
  obtain ⟨t, ht⟩ := List.isPrefixOf_iff_prefix.1 h
  cases qualifier with
  | nil =>
    obtain rfl := (List.cons.inj ht).1
    decide
  | cons d q =>
    obtain rfl := (List.cons.inj ht).1
    exact hq d List.mem_cons_self

theorem unqualifyFrom_cons_quoted (before : Option Char) (c : Char) (r : List Char) :
    unqualifyFrom qualifier 0 true before (c :: r) =
      c :: unqualifyFrom qualifier 0 (c != '\'') (some c) r := by
  rw [unqualifyFrom]
  cases h : c == '\'' <;> simp [bne, h]

theorem unqualifyFrom_cons_keep (hq : ∀ c ∈ qualifier, continuesPath c) {before : Option Char}
    {c : Char} (h : before.any continuesPath ∨ continuesPath c = false) (r : List Char) :
    unqualifyFrom qualifier 0 false before (c :: r) =
      c :: unqualifyFrom qualifier 0 (c == '\'') (some c) r := by
  have hnot : (!false && !before.any continuesPath &&
      (qualifier ++ ['/']).isPrefixOf (c :: r)) = false := by
    rw [Bool.eq_false_iff]
    intro hall
    simp only [Bool.not_false, Bool.true_and, Bool.and_eq_true, Bool.not_eq_true'] at hall
    obtain h | h := h
    · exact Bool.false_ne_true (hall.1.symm.trans h)
    · exact Bool.false_ne_true (h.symm.trans (continuesPath_of_isPrefixOf hq hall.2))
  rw [unqualifyFrom, hnot]
  simp

/-- Behind an opening quote the loop keeps all up to the end of the literal. -/
theorem unqualifyFrom_quoted (hq : ∀ c ∈ qualifier, continuesPath c) (before : Option Char)
    (s : List Char) :
    unqualifyFrom qualifier 0 true before s = quotedRest s ++
      unqualifyFrom qualifier 0 false (some '\'') (s.drop (quotedRest s).length) := by
  fun_induction quotedRest s generalizing before with
  | case1 => rfl
  | case2 c =>
    rw [unqualifyFrom_cons_quoted]
    rfl
  | case3 r ih =>
    -- The first of the two quotes ends the literal, the second opens it again.
    rw [unqualifyFrom_cons_quoted]
    have hopen : unqualifyFrom qualifier 0 false (some '\'') ('\'' :: r) =
        '\'' :: unqualifyFrom qualifier 0 true (some '\'') r :=
      unqualifyFrom_cons_keep hq (.inr continuesPath_quote) r
    simpa [hopen] using ih _
  | case4 d r hd =>
    rw [unqualifyFrom_cons_quoted]
    rfl
  | case5 c d r hc ih =>
    rw [unqualifyFrom_cons_quoted, bne_iff_ne.2 hc, ih]
    rfl

/-- Inside a path the loop keeps all up to the end of the path. -/
theorem unqualifyFrom_path {c : Char} (hq : ∀ c ∈ qualifier, continuesPath c)
    (hc : continuesPath c = true) (s : List Char) :
    unqualifyFrom qualifier 0 false (some c) s = s.takeWhile continuesPath ++
      unqualifyFrom qualifier 0 false none (s.dropWhile continuesPath) := by
  induction s generalizing c with
  | nil => rfl
  | cons d s ih =>
    rw [unqualifyFrom_cons_keep hq (.inl (by simpa using hc))]
    by_cases hd : continuesPath d = true
    · rw [List.takeWhile_cons_of_pos hd, List.dropWhile_cons_of_pos hd, List.cons_append, ← ih hd,
        beq_eq_false_iff_ne.2 (ne_quote_of_continuesPath hd)]
    · rw [List.takeWhile_cons_of_neg hd, List.dropWhile_cons_of_neg hd, List.nil_append,
        unqualifyFrom_cons_keep hq (.inr (Bool.eq_false_iff.2 hd))]

/-- At the start of a path the loop leaves the qualifier out and keeps the rest of the path. -/
theorem unqualifyFrom_path_start (hq : ∀ c ∈ qualifier, continuesPath c) {before : Option Char}
    (hb : before.any continuesPath = false) {c : Char} (hc : continuesPath c = true)
    (r : List Char) :
    unqualifyFrom qualifier 0 false before (c :: r) =
      (Lexeme.path (c :: r.takeWhile continuesPath)).unqualified qualifier ++
        unqualifyFrom qualifier 0 false none (r.dropWhile continuesPath) := by
  have hslash : ∀ d ∈ qualifier ++ ['/'], continuesPath d :=
    List.forall_mem_append.2 ⟨hq, List.forall_mem_singleton.2 (by decide)⟩
  rw [Lexeme.unqualified, ← List.takeWhile_cons_of_pos hc, ← List.dropWhile_cons_of_pos hc]
  by_cases h : (qualifier ++ ['/']).isPrefixOf (c :: r)
  · obtain ⟨t, ht⟩ := List.isPrefixOf_iff_prefix.1 h
    have hskip : unqualifyFrom qualifier 0 false before (c :: r) =
        unqualifyFrom qualifier 0 false (some '/') t := by
      have hr : r = (qualifier ++ ['/']).tail ++ t := by
        rw [← List.tail_append_of_ne_nil (by simp), ht, List.tail_cons]
      have hlen : qualifier.length = (qualifier ++ ['/']).tail.length := by simp
      rw [unqualifyFrom]
      simp only [hb, h, Bool.not_false, Bool.and_self, if_true]
      rw [hr, hlen, unqualifyFrom_skip]
    have hprefix : (qualifier ++ ['/']).isPrefixOf ((c :: r).takeWhile continuesPath) := by
      rw [← ht, List.takeWhile_append_of_pos hslash, List.isPrefixOf_iff_prefix]
      exact List.prefix_append _ _
    have hdrop : qualifier.length + 1 = (qualifier ++ ['/']).length := by simp
    rw [if_pos hprefix, hskip, unqualifyFrom_path hq (by decide), ← ht,
      List.takeWhile_append_of_pos hslash, List.dropWhile_append_of_pos hslash, hdrop,
      List.drop_left]
  · have hprefix : ¬ (qualifier ++ ['/']).isPrefixOf ((c :: r).takeWhile continuesPath) := by
      rw [List.isPrefixOf_iff_prefix] at h ⊢
      exact fun hp => h (hp.trans (List.takeWhile_prefix _))
    have hnot : (!false && !before.any continuesPath &&
        (qualifier ++ ['/']).isPrefixOf (c :: r)) = false := by
      simp [Bool.eq_false_iff.2 h]
    rw [if_neg hprefix, unqualifyFrom, hnot, if_neg Bool.false_ne_true,
      beq_eq_false_iff_ne.2 (ne_quote_of_continuesPath hc), bne_self_eq_false,
      unqualifyFrom_path hq hc, List.takeWhile_cons_of_pos hc, List.dropWhile_cons_of_pos hc,
      List.cons_append]

theorem unqualifyFrom_eq (hq : ∀ c ∈ qualifier, continuesPath c) {before : Option Char}
    (hb : before.any continuesPath = false) (s : List Char) :
    unqualifyFrom qualifier 0 false before s =
      (lexemes s).flatMap (Lexeme.unqualified qualifier) := by
  fun_induction lexemes s generalizing before with
  | case1 => rfl
  | case2 r ih =>
    rw [unqualifyFrom_cons_keep hq (.inr continuesPath_quote), beq_self_eq_true,
      unqualifyFrom_quoted hq, ih (by simpa using continuesPath_quote), List.flatMap_cons]
    rfl
  | case3 c r hquote hc ih =>
    rw [unqualifyFrom_path_start hq hb hc, ih (Option.any_none), List.flatMap_cons]
  | case4 c r hquote hc ih =>
    have hc' := Bool.eq_false_iff.2 hc
    rw [unqualifyFrom_cons_keep hq (.inr hc'), beq_eq_false_iff_ne.2 hquote,
      ih (by simpa using hc'), List.flatMap_cons]
    rfl

end Loop

/-- The qualifier is left out in front of the paths that begin with it, once for each, and no
other part of the text changes. -/
theorem unqualify_eq_flatMap_lexemes (qualifier text : String)
    (h : ∀ c ∈ qualifier.toList, continuesPath c) :
    (unqualify qualifier text).toList =
        (lexemes text.toList).flatMap (Lexeme.unqualified qualifier.toList) ∧
      (lexemes text.toList).flatMap Lexeme.chars = text.toList ∧
      (lexemes text.toList).IsChain Lexeme.Adjoins ∧
      ∀ l ∈ lexemes text.toList, l.WellFormed :=
  ⟨String.toList_ofList.trans (unqualifyFrom_eq h Option.any_none _), chars_lexemes _,
    adjoins_lexemes _, wellFormed_lexemes _⟩

/-- A literal and a longer path keep the name, each path that begins with it loses it. -/
theorem unqualify_eq_flatMap_lexemes_orderDetails :
    let qualifier := "Order_Details"
    let text := "Order_Details/Price gt 5 and Name eq 'it''s Order_Details/x' or " ++
      "My/Order_Details/Id eq(Order_Details/Order_Details/Id)"
    (∀ c ∈ qualifier.toList, continuesPath c) ∧
      unqualify qualifier text = "Price gt 5 and Name eq 'it''s Order_Details/x' or " ++
        "My/Order_Details/Id eq(Order_Details/Id)" ∧
      (unqualify qualifier text).toList =
        (lexemes text.toList).flatMap (Lexeme.unqualified qualifier.toList) := by
  have hpath : "Order_Details".toList.all continuesPath = true := by decide +kernel
  have h : ∀ c ∈ "Order_Details".toList, continuesPath c := List.all_eq_true.1 hpath
  exact ⟨h, by decide +kernel, (unqualify_eq_flatMap_lexemes _ _ h).1⟩

end ODataClient
