import ODataClient.Proofs.Expr.Spans
import ODataClient.Proofs.Value.Distinctness

/-! Expressions that are the same but for their operands. Whatever stands around a literal is the
same in both texts, and a delimiter ends the literal, so the operands are read off one by one. -/

namespace ODataClient

namespace Expr

mutual

/-- The same expression but for its values, where those at the same place are related. -/
def Alike (P : Value → Value → Prop) : Expr → Expr → Prop
  | value v, value w => P v w
  | reference path, reference path' => path = path'
  | call name args, call name' args' => name = name' ∧ AlikeAll P args args'
  | method caller name args, method caller' name' args' =>
    Alike P caller caller' ∧ name = name' ∧ AlikeAll P args args'
  | binary op left right, binary op' left' right' =>
    op = op' ∧ Alike P left left' ∧ Alike P right right'
  | unary op operand, unary op' operand' => op = op' ∧ Alike P operand operand'
  | conversion target inner, conversion target' inner' => target = target' ∧ Alike P inner inner'
  | _, _ => False

def AlikeAll (P : Value → Value → Prop) : List Expr → List Expr → Prop
  | [], [] => True
  | e :: args, e' :: args' => Alike P e e' ∧ AlikeAll P args args'
  | _, _ => False

end

variable {P : Value → Value → Prop} {e e' caller caller' : Expr} {name name' path : String}
  {args args' : List Expr}

theorem alike_reference_left (h : Alike P (reference path) e) : e = reference path := by
  cases e with
  | reference path' => exact congrArg reference h.symm
  | _ => exact h.elim

theorem alike_reference_right (h : Alike P e (reference path)) : e = reference path := by
  cases e with
  | reference path' => exact congrArg reference h
  | _ => exact h.elim

theorem forall₂_of_alikeAll {Q : Expr → Expr → Prop}
    (hq : ∀ e ∈ args, ∀ {e'}, Alike P e e' → Q e e') (h : AlikeAll P args args') :
    List.Forall₂ Q args args' := by
  induction args generalizing args' with
  | nil =>
    cases args' with
    | nil => exact .nil
    | cons e' args' => exact h.elim
  | cons e args ih =>
    cases args' with
    | nil => exact h.elim
    | cons e' args' =>
      obtain ⟨he, hrest⟩ := List.forall_mem_cons.1 hq
      exact .cons (he h.1) (ih hrest h.2)

/-- The arguments of a lambda are alike to those of a lambda with the same variable. -/
theorem alikeAll_lambda {var : String} {body : Expr} (h : AlikeAll P [reference var, body] args) :
    ∃ body', args = [reference var, body'] ∧ Alike P body body' := by
  cases forall₂_of_alikeAll (fun _ _ _ h => h) h with
  | cons hvar hrest =>
    obtain rfl := alike_reference_left hvar
    cases hrest with
    | cons hbody hnil =>
      cases hnil
      exact ⟨_, rfl, hbody⟩

theorem Alike.operator_eq (h : Alike P e e') : e.operator = e'.operator := by
  cases e <;> cases e'
  case binary.binary => exact h.1
  case unary.unary => exact h.1
  all_goals first | rfl | exact h.elim

/-- What is alike to a lambda is one. -/
theorem Alike.isLambdaCall_eq_false
    (h : Alike P (method caller name args) (method caller' name' args'))
    (hn : isLambdaCall caller name args = false) : isLambdaCall caller' name' args' = false := by
  obtain ⟨hcaller, rfl, hargs⟩ := h
  cases hlambda : isLambdaCall caller' name args' with
  | false => rfl
  | true =>
    obtain ⟨collection, var, body, rfl, hname, rfl⟩ := isLambdaCall_iff.1 hlambda
    obtain rfl := alike_reference_right hcaller
    cases forall₂_of_alikeAll (fun _ _ _ h => h) hargs with
    | cons hvar hrest =>
      obtain rfl := alike_reference_right hvar
      cases hrest with
      | cons _ hnil =>
        cases hnil
        exact (isLambdaCall_of_name hname).symm.trans hn

end Expr

namespace Renderer

/-- The text of the spans of an expression. -/
def joinedText (r : Renderer) (e : Expr) : String := Span.joined (r.spans e)

variable {r : Renderer} {e e' : Expr} {args args' : List Expr} {s s' : List Char}

theorem toldApart_value {v w : Value} (hc : r.style.Comparable v w) :
    ToldApart r.joinedText (.value v) (.value w) := by
  intro s s' hs hs' h
  have htext : ∀ v, r.joinedText (.value v) = r.style.written r.escaped v := fun v => by
    simp [joinedText, spans, Span.text]
  rw [htext, htext] at h
  exact (LiteralStyle.toldApart_written r.escaped hc s s' hs hs' h).imp_left (congrArg Expr.value)

theorem toList_joined_mark (text : String) (rest : List Span) :
    (Span.joined (.mark text :: rest)).toList = text.toList ++ (Span.joined rest).toList := by
  rw [Span.joined_cons, String.toList_append, Span.text]

theorem toldApart_bracketed (ht : ToldApart r.joinedText e e') (hop : e.operator = e'.operator)
    {min : Nat} (hs : StartsDelimited s) (hs' : StartsDelimited s')
    (h : (Span.joined (bracketedSpans min e (r.spans e))).toList ++ s =
      (Span.joined (bracketedSpans min e' (r.spans e'))).toList ++ s') : e = e' ∧ s = s' := by
  rw [joined_bracketedSpans, joined_bracketedSpans, bracketed, bracketed, ← hop] at h
  split at h
  · simp only [String.toList_append, List.append_assoc] at h
    obtain ⟨he, hrest⟩ := ht _ _ (startsDelimited_closing s) (startsDelimited_closing s')
      (List.append_cancel_left h)
    exact ⟨he, (List.cons.inj hrest).2⟩
  · exact ht _ _ hs hs' h

/-- Arguments between the same opening and a closing parenthesis. -/
theorem toldApart_enclosed (front : List Span) (s s' : List Char)
    (ht : List.Forall₂ (ToldApart r.joinedText) args args')
    (h : (Span.joined (front ++
        (Span.separated "," (args.map r.spans) ++ [Span.mark ")"]))).toList ++ s =
      (Span.joined (front ++
        (Span.separated "," (args'.map r.spans) ++ [Span.mark ")"]))).toList ++ s') :
    args = args' ∧ s = s' := by
  simp only [Span.joined_append, toList_joined_mark, Span.joined_nil, Span.joined_separated,
    List.map_map, String.toList_append, List.append_assoc] at h
  exact toldApart_intercalate ht (List.append_cancel_left h)

theorem toldApart_callSpans {dialect : Dialect} {name : String}
    (ht : List.Forall₂ (ToldApart r.joinedText) args args')
    (h : (Span.joined (callSpans dialect name (args.map r.spans))).toList ++ s =
      (Span.joined (callSpans dialect name (args'.map r.spans))).toList ++ s') :
    args = args' ∧ s = s' := by
  have hplain := toldApart_enclosed [.name name, .mark "("] s s' ht
  cases dialect with
  | modern => exact hplain h
  | legacy =>
    cases ht with
    | nil => exact hplain h
    | cons ha hargs =>
      cases hargs with
      | nil => exact hplain h
      | cons hb hargs =>
        cases hargs with
        | cons hc hargs => exact hplain h
        | nil =>
          simp only [callSpans, List.map_cons, List.map_nil] at h
          split at h
          · obtain ⟨hargs, hs⟩ := toldApart_enclosed [.mark "substringof("] s s'
              (.cons hb (.cons ha .nil)) h
            simp only [List.cons.injEq, and_true] at hargs
            exact ⟨by rw [hargs.1, hargs.2], hs⟩
          · exact hplain h

section Constructors

variable {left left' right right' caller caller' body body' : Expr} {name : String}

theorem toldApart_call (ht : List.Forall₂ (ToldApart r.joinedText) args args') :
    ToldApart r.joinedText (.call name args) (.call name args') := by
  intro s s' _ _ h
  simp only [joinedText, spans, spansOfAll_eq] at h
  exact (toldApart_callSpans ht h).imp_left (congrArg (Expr.call name))

theorem toldApart_method (hlambda : Expr.isLambdaCall caller name args = false)
    (hlambda' : Expr.isLambdaCall caller' name args' = false)
    (hcaller : ToldApart r.joinedText caller caller')
    (hargs : List.Forall₂ (ToldApart r.joinedText) args args') :
    ToldApart r.joinedText (.method caller name args) (.method caller' name args') := by
  intro s s' _ _ h
  have ht : List.Forall₂ (ToldApart r.joinedText) (caller :: args) (caller' :: args') :=
    .cons hcaller hargs
  simp only [joinedText, spans_method hlambda, spans_method hlambda'] at h
  obtain ⟨hall, hs⟩ := toldApart_callSpans ht h
  obtain ⟨rfl, rfl⟩ := List.cons.inj hall
  exact ⟨rfl, hs⟩

theorem toldApart_lambda {collection var : String} (hname : name = "any" ∨ name = "all")
    (ht : ToldApart r.joinedText body body') :
    ToldApart r.joinedText (.method (.reference collection) name [.reference var, body])
      (.method (.reference collection) name [.reference var, body']) := by
  intro s s' _ _ h
  simp only [joinedText, spans_lambda hname, Span.joined_cons, Span.joined_append, Span.joined_nil,
    String.toList_append, List.append_assoc] at h
  obtain ⟨rfl, hrest⟩ := ht _ _ (startsDelimited_closing s) (startsDelimited_closing s')
    (List.append_cancel_left h)
  exact ⟨rfl, (List.cons.inj hrest).2⟩

theorem toldApart_binary (op : Operator) (hl : ToldApart r.joinedText left left')
    (hleft : left.operator = left'.operator) (hr : ToldApart r.joinedText right right')
    (hright : right.operator = right'.operator) :
    ToldApart r.joinedText (.binary op left right) (.binary op left' right') := by
  have hblank : ∀ rest : List Char, StartsDelimited (" ".toList ++ rest) :=
    fun rest => startsDelimited_cons (by decide) rest
  intro s s' hs hs' h
  simp only [joinedText, spans, Span.joined_append, Span.joined_cons, String.toList_append,
    List.append_assoc, Span.text] at h
  obtain ⟨rfl, hrest⟩ := toldApart_bracketed hl hleft (hblank _) (hblank _) h
  obtain ⟨rfl, hs⟩ := toldApart_bracketed hr hright hs hs'
    (List.append_cancel_left (List.append_cancel_left (List.append_cancel_left hrest)))
  exact ⟨rfl, hs⟩

theorem toldApart_unary (op : Operator) (ht : ToldApart r.joinedText e e')
    (hop : e.operator = e'.operator) :
    ToldApart r.joinedText (.unary op e) (.unary op e') := by
  intro s s' hs hs' h
  simp only [joinedText, spans, toList_joined_mark, List.append_assoc] at h
  exact (toldApart_bracketed ht hop hs hs' (List.append_cancel_left h)).imp_left
    (congrArg (Expr.unary op))

theorem toldApart_conversion (target : ValueType) (ht : ToldApart r.joinedText e e') :
    ToldApart r.joinedText (.conversion target e) (.conversion target e') := by
  have hcomma : ∀ rest : List Char, StartsDelimited (',' :: rest) :=
    fun rest => startsDelimited_cons (by decide) rest
  have hend : ∀ rest, StartsDelimited ((castEnd r.dialect target).toList ++ rest) := by
    intro rest
    cases r.dialect <;> simp [castEnd, hcomma]
  intro s s' _ _ h
  simp only [joinedText, spans, toList_joined_mark, Span.joined_append, Span.joined_nil,
    String.toList_append, List.append_assoc] at h
  obtain ⟨rfl, hrest⟩ := ht _ _ (hend _) (hend _) (List.append_cancel_left h)
  exact ⟨rfl, List.append_cancel_left hrest⟩

end Constructors

/-- An expression is told apart from those that are alike but for their operands. -/
theorem toldApart_of_alike (h : e.Alike r.style.Comparable e') : ToldApart r.joinedText e e' := by
  induction e using Expr.shape_induction generalizing e' with
  | value v =>
    cases e' with
    | value w => exact toldApart_value h
    | _ => exact h.elim
  | reference path =>
    obtain rfl := Expr.alike_reference_left h
    exact fun s s' _ _ h => ⟨rfl, List.append_cancel_left h⟩
  | call name args ih =>
    cases e' with
    | call name' args' =>
      obtain ⟨rfl, hargs⟩ := h
      exact toldApart_call (Expr.forall₂_of_alikeAll ih hargs)
    | _ => exact h.elim
  | lambda collection name var body hname ih =>
    cases e' with
    | method caller' name' args' =>
      obtain ⟨hcaller, rfl, hargs⟩ := h
      obtain rfl := Expr.alike_reference_left hcaller
      obtain ⟨body', rfl, hbody⟩ := Expr.alikeAll_lambda hargs
      exact toldApart_lambda hname (ih hbody)
    | _ => exact h.elim
  | method caller name args hlambda hc ha =>
    cases e' with
    | method caller' name' args' =>
      have hlambda' := h.isLambdaCall_eq_false hlambda
      obtain ⟨hcaller, rfl, hargs⟩ := h
      exact toldApart_method hlambda hlambda' (hc hcaller) (Expr.forall₂_of_alikeAll ha hargs)
    | _ => exact h.elim
  | binary op left right hl hr =>
    cases e' with
    | binary op' left' right' =>
      obtain ⟨rfl, hleft, hright⟩ := h
      exact toldApart_binary op (hl hleft) hleft.operator_eq (hr hright) hright.operator_eq
    | _ => exact h.elim
  | unary op operand ih =>
    cases e' with
    | unary op' operand' =>
      obtain ⟨rfl, hoperand⟩ := h
      exact toldApart_unary op (ih hoperand) hoperand.operator_eq
    | _ => exact h.elim
  | conversion target inner ih =>
    cases e' with
    | conversion target' inner' =>
      obtain ⟨rfl, hinner⟩ := h
      exact toldApart_conversion target (ih hinner)
    | _ => exact h.elim

theorem eq_of_render_eq {text : String} (halike : e.Alike r.style.Comparable e')
    (h : r.render e = .ok text) (h' : r.render e' = .ok text) : e = e' := by
  have htext : r.joinedText e = r.joinedText e' :=
    (joined_of_render h).1.symm.trans (joined_of_render h').1
  have happend : (r.joinedText e).toList ++ [] = (r.joinedText e').toList ++ [] := by rw [htext]
  exact (toldApart_of_alike halike [] [] startsDelimited_nil startsDelimited_nil happend).1

end Renderer

end ODataClient
