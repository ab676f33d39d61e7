import ODataClient.Expr.Rendering
import ODataClient.Proofs.Expr.Occurrences
import ODataClient.Proofs.Outcome
import ODataClient.Proofs.Text.Separators

/-! The text of an expression in spans, each of which comes from one place: the marks of the
renderer, the names of the expression, its literals, and the openings of its lambdas. The
renderer writes its spans one after the other, or says which feature the version lacks. -/

namespace ODataClient

/-- A stretch of a filter. `given` is a text as it was stored, and `lambda` is the opening
`<path>/<quantifier>(<var>:` of a lambda. -/
inductive Span
  | mark (text : String)
  | name (text : String)
  | literal (text : String)
  | given (text : String)
  | lambda (path quantifier var : String)

namespace Span

def text : Span → String
  | mark text | name text | literal text | given text => text
  | lambda path quantifier var => path ++ "/" ++ quantifier ++ "(" ++ var ++ ":"

def isLambda : Span → Bool
  | lambda _ _ _ => true
  | _ => false

def joined (spans : List Span) : String := String.join (spans.map text)

@[simp] theorem joined_nil : joined [] = "" := rfl

@[simp] theorem joined_cons (s : Span) (spans : List Span) :
    joined (s :: spans) = s.text ++ joined spans := by
  rw [joined, List.map_cons, String.join_cons, joined]

@[simp] theorem joined_append (spans spans' : List Span) :
    joined (spans ++ spans') = joined spans ++ joined spans' := by
  rw [joined, List.map_append, String.join_append, joined, joined]

def separated (sep : String) : List (List Span) → List Span
  | [] => []
  | [spans] => spans
  | spans :: r => spans ++ mark sep :: separated sep r

theorem separated_cons_cons (sep : String) (spans spans' : List Span) (r : List (List Span)) :
    separated sep (spans :: spans' :: r) = spans ++ mark sep :: separated sep (spans' :: r) := rfl

theorem joined_separated (sep : String) (l : List (List Span)) :
    joined (separated sep l) = String.intercalate sep (l.map joined) := by
  match l with
  | [] => rfl
  | [spans] => simp [separated]
  | spans :: spans' :: r =>
    have hne : (spans' :: r).map joined ≠ [] := by simp
    rw [separated_cons_cons, joined_append, joined_cons, joined_separated sep (spans' :: r),
      List.map_cons (l := spans' :: r), String.intercalate_cons_of_ne_nil hne, String.append_assoc]
    rfl

theorem mem_separated {sep : String} {l : List (List Span)} {s : Span} (h : s ∈ separated sep l) :
    s = mark sep ∨ ∃ spans ∈ l, s ∈ spans := by
  match l with
  | [] => exact absurd h List.not_mem_nil
  | [spans] => exact Or.inr ⟨spans, by simp, h⟩
  | spans :: spans' :: r =>
    rw [separated_cons_cons, List.mem_append, List.mem_cons] at h
    rcases h with h | h | h
    · exact Or.inr ⟨spans, by simp, h⟩
    · exact Or.inl h
    · exact (mem_separated h).imp_right fun ⟨spans, hm, h⟩ =>
        ⟨spans, List.mem_cons_of_mem _ hm, h⟩

end Span

namespace Expr

mutual

/-- The paths of the references, range variables included, and the names of the functions. -/
def names : Expr → List String
  | value _ => []
  | reference path => [path]
  | call name arguments => name :: namesOfAll arguments
  | method caller name arguments => name :: (names caller ++ namesOfAll arguments)
  | binary _ left right => names left ++ names right
  | unary _ operand => names operand
  | conversion _ inner => names inner

def namesOfAll : List Expr → List String
  | [] => []
  | e :: r => names e ++ namesOfAll r

end

theorem namesOfAll_eq (args : List Expr) : namesOfAll args = args.flatMap names := by
  induction args with
  | nil => rw [namesOfAll, List.flatMap_nil]
  | cons e r ih => rw [namesOfAll, ih, List.flatMap_cons]

theorem names_lambda (collection name var : String) (body : Expr) :
    (method (reference collection) name [reference var, body]).names =
      name :: collection :: var :: body.names := by
  simp [names, namesOfAll]

theorem names_method (caller : Expr) (name : String) (args : List Expr) :
    (method caller name args).names = name :: (caller.names ++ args.flatMap names) := by
  rw [names, namesOfAll_eq]

theorem names_call (name : String) (args : List Expr) :
    (call name args).names = name :: args.flatMap names := by
  rw [names, namesOfAll_eq]

end Expr

namespace Renderer

def bracketedSpans (min : Nat) (e : Expr) (spans : List Span) : List Span :=
  if e.operator.precedence < min then .mark "(" :: (spans ++ [.mark ")"]) else spans

def castEnd (dialect : Dialect) (target : ValueType) : String :=
  match dialect with
  | .legacy => ",'" ++ target.edmName ++ "')"
  | .modern => "," ++ target.edmName ++ ")"

def callSpans (dialect : Dialect) (name : String) (arguments : List (List Span)) : List Span :=
  match dialect, arguments with
  | .legacy, [a, b] =>
    if name = "contains" then .mark "substringof(" :: (Span.separated "," [b, a] ++ [.mark ")"])
    else .name name :: .mark "(" :: (Span.separated "," [a, b] ++ [.mark ")"])
  | _, _ => .name name :: .mark "(" :: (Span.separated "," arguments ++ [.mark ")"])

def unaryMark (op : Operator) : String :=
  match op with
  | .negate => "-"
  | _ => op.keyword ++ " "

mutual

def spans (r : Renderer) : Expr → List Span
  | .value v => [.literal (r.style.written r.escaped v)]
  | .reference path => [.name path]
  | .binary op left right =>
    bracketedSpans op.precedence left (spans r left) ++ .mark (" " ++ op.keyword ++ " ") ::
      bracketedSpans op.rightMinimum right (spans r right)
  | .unary op operand =>
    .mark (unaryMark op) :: bracketedSpans op.precedence operand (spans r operand)
  | .conversion target inner =>
    .mark "cast(" :: (spans r inner ++ [.mark (castEnd r.dialect target)])
  | .call name arguments => callSpans r.dialect name (spansOfAll r arguments)
  | .method caller name arguments =>
    if Expr.isLambdaCall caller name arguments then
      lambdaSpans r caller.boundName name arguments
    else callSpans r.dialect name (spans r caller :: spansOfAll r arguments)

def spansOfAll (r : Renderer) : List Expr → List (List Span)
  | [] => []
  | e :: rest => spans r e :: spansOfAll r rest

def lambdaSpans (r : Renderer) (path quantifier : String) : List Expr → List Span
  | [] => []
  | var :: body =>
    .lambda path quantifier var.boundName :: ((spansOfAll r body).flatten ++ [.mark ")"])

end

mutual

/-- The first feature that an expression needs and the version lacks. -/
def missing? (r : Renderer) : Expr → Option Feature
  | .value _ => none
  | .reference _ => none
  | .binary op left right =>
    if op = .has ∧ r.dialect = .legacy then some .hasOperator
    else (missing? r left).or (missing? r right)
  | .unary _ operand => missing? r operand
  | .conversion _ inner => missing? r inner
  | .call _ arguments => missingOfAll? r arguments
  | .method caller name arguments =>
    if Expr.isLambdaCall caller name arguments && !r.version.hasLambdas then
      some .lambdaOperators
    else (missing? r caller).or (missingOfAll? r arguments)

def missingOfAll? (r : Renderer) : List Expr → Option Feature
  | [] => none
  | e :: rest => (missing? r e).or (missingOfAll? r rest)

end

variable {r : Renderer}

theorem spansOfAll_eq (r : Renderer) (args : List Expr) : r.spansOfAll args = args.map r.spans := by
  induction args with
  | nil => rw [spansOfAll, List.map_nil]
  | cons e args ih => rw [spansOfAll, ih, List.map_cons]

theorem spans_lambda {collection name var : String} {body : Expr} (h : name = "any" ∨ name = "all") :
    r.spans (.method (.reference collection) name [.reference var, body]) =
      .lambda collection name var :: (r.spans body ++ [Span.mark ")"]) := by
  simp [spans, Expr.isLambdaCall_of_name h, lambdaSpans, spansOfAll, Expr.boundName,
    Expr.reference?]

theorem spans_method {caller : Expr} {name : String} {args : List Expr}
    (h : Expr.isLambdaCall caller name args = false) :
    r.spans (.method caller name args) =
      callSpans r.dialect name (r.spans caller :: args.map r.spans) := by
  rw [spans, h, if_neg Bool.false_ne_true, spansOfAll_eq]

theorem joined_bracketedSpans (min : Nat) (e : Expr) (spans : List Span) :
    Span.joined (bracketedSpans min e spans) = bracketed min e (Span.joined spans) := by
  rw [bracketedSpans, bracketed]
  split
  · simp [Span.text, String.append_assoc]
  · rfl

theorem joined_callSpans (dialect : Dialect) (name : String) (args : List (List Span)) :
    Span.joined (callSpans dialect name args) = callText dialect name (args.map Span.joined) := by
  have hplain : Span.joined (.name name :: .mark "(" :: (Span.separated "," args ++ [Span.mark ")"])) =
      name ++ "(" ++ String.intercalate "," (args.map Span.joined) ++ ")" := by
    simp [Span.text, Span.joined_separated, String.append_assoc]
  cases dialect with
  | modern => exact hplain
  | legacy =>
    match args with
    | [a, b] =>
      simp only [callSpans, callText, List.map_cons, List.map_nil]
      split
      · simp [Span.text, Span.separated, String.append_assoc]
      · simp [Span.text, Span.separated, String.append_assoc]
    | [] => exact hplain
    | [a] => exact hplain
    | a :: b :: c :: args => exact hplain

/-- What the renderer answers for an expression with these spans. -/
def answer (r : Renderer) (missing : Option Feature) (spans : List Span) : Except Error String :=
  match missing with
  | some feature => .error (.unsupported feature r.version)
  | none => .ok (Span.joined spans)

theorem renderArguments_eq {args : List Expr}
    (h : ∀ e ∈ args, r.render e = r.answer (r.missing? e) (r.spans e)) :
    r.renderArguments args = match r.missingOfAll? args with
      | some feature => .error (.unsupported feature r.version)
      | none => .ok ((args.map r.spans).map Span.joined) := by
  induction args with
  | nil => rfl
  | cons e args ih =>
    rw [renderArguments, h e (by simp), ih fun x hx => h x (by simp [hx]), missingOfAll?]
    cases r.missing? e with
    | some feature => rfl
    | none => cases r.missingOfAll? args <;> rfl

/-- The renderer writes the spans, unless the version lacks a feature that they need. -/
theorem render_eq (r : Renderer) (e : Expr) :
    r.render e = r.answer (r.missing? e) (r.spans e) := by
  induction e using Expr.shape_induction with
  | value v => simp [render, missing?, spans, answer, Span.text]
  | reference path => simp [render, missing?, spans, answer, Span.text]
  | call name args ih =>
    rw [render, renderArguments_eq ih, missing?, spans, spansOfAll_eq]
    cases r.missingOfAll? args with
    | some feature => rfl
    | none => exact congrArg Except.ok (joined_callSpans r.dialect name _).symm
  | lambda collection name var body h ih =>
    have hj : ∀ s : String, collection ++ "/" ++ name ++ "(" ++ String.intercalate ":" [var, s] ++ ")" =
        Span.joined [.lambda collection name var] ++ (s ++ ")") := by
      simp [Span.text, String.append_assoc]
    have hcall : Expr.isLambdaCall (.reference collection) name [.reference var, body] = true :=
      Expr.isLambdaCall_of_name h
    rw [spans_lambda h]
    simp only [render, renderArguments, missing?, missingOfAll?, hcall, ih, if_true, Bool.true_and,
      Option.none_or, Option.or_none]
    cases r.version.hasLambdas with
    | false => rfl
    | true =>
      cases r.missing? body with
      | some feature => rfl
      | none => exact congrArg Except.ok ((hj _).trans (by simp [Span.text, String.append_assoc]))
  | method caller name args h hc ha =>
    rw [spans_method h]
    simp only [render, missing?, h, hc, renderArguments_eq ha, Bool.false_eq_true, if_false,
      Bool.false_and]
    cases r.missing? caller with
    | some feature => rfl
    | none =>
      cases r.missingOfAll? args with
      | some feature => rfl
      | none => exact congrArg Except.ok (joined_callSpans r.dialect name (r.spans caller :: _)).symm
  | binary op left right hl hr =>
    rw [render, missing?, spans, hl, hr]
    by_cases hop : op = .has ∧ r.dialect = .legacy
    · simp [hop, answer]
    · rw [if_neg hop, if_neg hop]
      cases r.missing? left with
      | some feature => rfl
      | none =>
        cases r.missing? right with
        | some feature => rfl
        | none => simp [answer, joined_bracketedSpans, Span.text, String.append_assoc]
  | unary op operand ih =>
    have hmark : ∀ s, unaryText op s = unaryMark op ++ s := fun s => by cases op <;> rfl
    rw [render, missing?, spans, ih]
    cases r.missing? operand with
    | some feature => rfl
    | none => simp [answer, joined_bracketedSpans, Span.text, hmark]
  | conversion target inner ih =>
    have hend : ∀ s, castText r.dialect s target = "cast(" ++ s ++ castEnd r.dialect target := by
      intro s
      cases r.dialect <;> simp only [castText, castEnd, String.append_assoc]
    rw [render, missing?, spans, ih]
    cases r.missing? inner with
    | some feature => rfl
    | none => simp [answer, Span.text, hend, String.append_assoc]

theorem joined_of_render {e : Expr} {text : String} (h : r.render e = .ok text) :
    text = Span.joined (r.spans e) ∧ r.missing? e = none := by
  rw [render_eq] at h
  cases hm : r.missing? e with
  | some feature =>
    rw [hm] at h
    exact absurd h (by simp [answer])
  | none =>
    rw [hm] at h
    exact ⟨(Except.ok.inj h).symm, rfl⟩

theorem unsupported_of_render {e : Expr} {error : Error} (h : r.render e = .error error) :
    ∃ feature, error = .unsupported feature r.version := by
  rw [render_eq] at h
  cases hm : r.missing? e with
  | some feature =>
    rw [hm] at h
    exact ⟨feature, (Except.error.inj h).symm⟩
  | none =>
    rw [hm] at h
    exact absurd h (by simp [answer])

def isMark (text : String) : Bool := text.toList.all fun c => !structural.contains c

theorem notMem_of_isMark {text : String} (h : isMark text = true) {c : Char}
    (hc : c ∈ structural) : c ∉ text.toList := by
  intro hm
  have hn := List.all_eq_true.1 h c hm
  rw [List.contains_eq_mem, decide_eq_true hc] at hn
  exact Bool.false_ne_true hn

/-- What a span of an expression with these names can be. -/
def Spells (r : Renderer) (names : List String) : Span → Prop
  | .mark text => isMark text = true
  | .name text => text ∈ names
  | .literal text => ∃ v, text = r.style.written r.escaped v
  | .given _ => False
  | .lambda path quantifier var => path ∈ names ∧ quantifier ∈ ["any", "all"] ∧ var ∈ names

def SpellsAll (r : Renderer) (names : List String) (spans : List Span) : Prop :=
  ∀ s ∈ spans, r.Spells names s

section Spells

variable {names names' : List String} {spans spans' : List Span}

theorem Spells.mono (h : names ⊆ names') {s : Span} (hs : r.Spells names s) :
    r.Spells names' s := by
  cases s with
  | mark text => exact hs
  | name text => exact h hs
  | literal text => exact hs
  | given text => exact hs
  | lambda path quantifier var => exact ⟨h hs.1, hs.2.1, h hs.2.2⟩

theorem SpellsAll.mono (h : names ⊆ names') (hs : r.SpellsAll names spans) :
    r.SpellsAll names' spans := fun s hm => (hs s hm).mono h

theorem SpellsAll.append (h : r.SpellsAll names spans) (h' : r.SpellsAll names spans') :
    r.SpellsAll names (spans ++ spans') := List.forall_mem_append.2 ⟨h, h'⟩

/-- Spans between two marks. -/
theorem SpellsAll.between (h : r.SpellsAll names spans) {before after : String}
    (hb : isMark before = true) (ha : isMark after = true) :
    r.SpellsAll names (.mark before :: (spans ++ [.mark after])) :=
  List.forall_mem_cons.2 ⟨hb, h.append (List.forall_mem_singleton.2 ha)⟩

theorem mem_bracketedSpans {min : Nat} {e : Expr} {s : Span} (h : s ∈ bracketedSpans min e spans) :
    s = .mark "(" ∨ s = .mark ")" ∨ s ∈ spans := by
  rw [bracketedSpans] at h
  split at h
  · rw [List.mem_cons, List.mem_append, List.mem_singleton] at h
    exact h.imp_right Or.symm
  · exact Or.inr (Or.inr h)

theorem SpellsAll.bracketed (h : r.SpellsAll names spans) (min : Nat) (e : Expr) :
    r.SpellsAll names (bracketedSpans min e spans) := by
  intro s hs
  have hopen : isMark "(" = true := by decide
  have hclose : isMark ")" = true := by decide
  rcases mem_bracketedSpans hs with rfl | rfl | hs
  · exact hopen
  · exact hclose
  · exact h s hs

theorem spellsAll_separated {l : List (List Span)} (h : ∀ spans ∈ l, r.SpellsAll names spans) :
    r.SpellsAll names (Span.separated "," l) := by
  intro s hs
  rcases Span.mem_separated hs with rfl | ⟨spans, hm, hs⟩
  · have hcomma : isMark "," = true := by decide
    exact hcomma
  · exact h spans hm s hs

theorem spellsAll_callSpans (dialect : Dialect) {name : String} (hn : name ∈ names)
    {l : List (List Span)} (h : ∀ spans ∈ l, r.SpellsAll names spans) :
    r.SpellsAll names (callSpans dialect name l) := by
  have hplain : ∀ l : List (List Span), (∀ spans ∈ l, r.SpellsAll names spans) →
      r.SpellsAll names (.name name :: .mark "(" :: (Span.separated "," l ++ [Span.mark ")"])) :=
    fun l h => List.forall_mem_cons.2
      ⟨hn, (spellsAll_separated h).between (by decide) (by decide)⟩
  unfold callSpans
  split
  next a b =>
    split
    · have hswap : ∀ spans ∈ [b, a], r.SpellsAll names spans := fun spans hs =>
        h spans (by simpa [or_comm] using hs)
      exact (spellsAll_separated hswap).between (by decide) (by decide)
    · exact hplain _ h
  next => exact hplain _ h

end Spells

theorem spellsAll_spans (r : Renderer) (e : Expr) : r.SpellsAll e.names (r.spans e) := by
  induction e using Expr.shape_induction with
  | value v =>
    rw [spans]
    exact List.forall_mem_singleton.2 ⟨v, rfl⟩
  | reference path =>
    rw [spans]
    exact List.forall_mem_singleton.2 (by rw [Spells, Expr.names]; exact List.mem_singleton_self path)
  | call name args ih =>
    rw [spans, spansOfAll_eq, Expr.names_call]
    refine spellsAll_callSpans r.dialect List.mem_cons_self fun spans hs => ?_
    obtain ⟨e, he, rfl⟩ := List.mem_map.1 hs
    refine (ih e he).mono fun n hn => List.mem_cons_of_mem _ ?_
    exact List.mem_flatMap.2 ⟨e, he, hn⟩
  | lambda collection name var body h ih =>
    rw [spans_lambda h, Expr.names_lambda]
    have hclose : isMark ")" = true := by decide
    refine List.forall_mem_cons.2 ⟨?_, SpellsAll.append (ih.mono ?_) ?_⟩
    · exact ⟨by simp, by simpa using h, by simp⟩
    · exact fun n hn => by simp [hn]
    · exact List.forall_mem_singleton.2 hclose
  | method caller name args h hc ha =>
    rw [spans_method h, Expr.names_method]
    refine spellsAll_callSpans r.dialect List.mem_cons_self fun spans hs => ?_
    rcases List.mem_cons.1 hs with rfl | hs
    · exact hc.mono fun n hn => by simp [hn]
    · obtain ⟨e, he, rfl⟩ := List.mem_map.1 hs
      refine (ha e he).mono fun n hn => List.mem_cons_of_mem _ (List.mem_append_right _ ?_)
      exact List.mem_flatMap.2 ⟨e, he, hn⟩
  | binary op left right hl hr =>
    have hmark : isMark (" " ++ op.keyword ++ " ") = true := by cases op <;> decide
    rw [spans, Expr.names]
    refine ((hl.bracketed _ _).mono (List.subset_append_left _ _)).append ?_
    exact List.forall_mem_cons.2
      ⟨hmark, (hr.bracketed _ _).mono (List.subset_append_right _ _)⟩
  | unary op operand ih =>
    have hmark : isMark (unaryMark op) = true := by cases op <;> decide
    rw [spans, Expr.names]
    exact List.forall_mem_cons.2 ⟨hmark, ih.bracketed _ _⟩
  | conversion target inner ih =>
    have hend : ∀ dialect, isMark (castEnd dialect target) = true := by
      intro dialect
      cases dialect <;> cases target <;> decide
    rw [spans, Expr.names]
    exact ih.between (by decide) (hend r.dialect)

end Renderer

end ODataClient
