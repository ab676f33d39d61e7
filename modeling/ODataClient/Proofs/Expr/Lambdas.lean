import ODataClient.Proofs.Expr.Spans
import ODataClient.Proofs.Filter.Retargeting

/-! Whether an expression has a lambda. Replacing references and carrying out conversions
keeps the lambdas, they are the lambdas of the text, and a version without lambdas writes no
expression that has one. -/

namespace ODataClient

theorem any_congr_of_mem {α : Type} {p q : α → Bool} {l : List α} (h : ∀ a ∈ l, p a = q a) :
    l.any p = l.any q := by
  rw [Bool.eq_iff_iff, List.any_eq_true, List.any_eq_true]
  exact exists_congr fun a => and_congr_right fun ha => by rw [h a ha]

namespace Expr

mutual

def hasLambda : Expr → Bool
  | value _ => false
  | reference _ => false
  | call _ arguments => anyHasLambda arguments
  | method caller name arguments =>
    isLambdaCall caller name arguments || hasLambda caller || anyHasLambda arguments
  | binary _ left right => hasLambda left || hasLambda right
  | unary _ operand => hasLambda operand
  | conversion _ inner => hasLambda inner

def anyHasLambda : List Expr → Bool
  | [] => false
  | e :: r => hasLambda e || anyHasLambda r

end

theorem anyHasLambda_eq (args : List Expr) : anyHasLambda args = args.any hasLambda := by
  induction args with
  | nil => rw [anyHasLambda, List.any_nil]
  | cons e r ih => rw [anyHasLambda, ih, List.any_cons]

theorem hasLambda_lambda {collection name var : String} {body : Expr}
    (h : name = "any" ∨ name = "all") :
    (method (reference collection) name [reference var, body]).hasLambda = true := by
  rw [hasLambda, isLambdaCall_of_name h, Bool.true_or, Bool.true_or]

theorem hasLambda_method {caller : Expr} {name : String} {args : List Expr}
    (h : isLambdaCall caller name args = false) :
    (method caller name args).hasLambda = (caller.hasLambda || args.any hasLambda) := by
  rw [hasLambda, h, Bool.false_or, anyHasLambda_eq]

theorem any_hasLambda_map {g : Expr → Expr} {args : List Expr}
    (h : ∀ e ∈ args, (g e).hasLambda = e.hasLambda) :
    (args.map g).any hasLambda = args.any hasLambda := by
  rw [List.any_map]
  exact any_congr_of_mem h

theorem hasLambda_mapScoped (f : String → String) (scopes : List String) (e : Expr) :
    (e.mapScoped f scopes).hasLambda = e.hasLambda := by
  induction e using shape_induction generalizing scopes with
  | value v => rw [mapScoped]
  | reference path => rw [mapScoped_reference, hasLambda, hasLambda]
  | call name args ih =>
    rw [mapScoped, mapArguments_eq, hasLambda, hasLambda, anyHasLambda_eq, anyHasLambda_eq]
    exact any_hasLambda_map fun e he => ih e he scopes
  | lambda collection name var body h ih =>
    rw [mapScoped_lambda h, mapScoped_reference, hasLambda_lambda h, hasLambda_lambda h]
  | method caller name args h hc ha =>
    rw [mapScoped_method h, hasLambda_method ((isLambdaCall_mapScoped f scopes caller name args).trans h),
      hasLambda_method h, hc, any_hasLambda_map fun e he => ha e he scopes]
  | binary op left right hl hr => rw [mapScoped, hasLambda, hasLambda, hl, hr]
  | unary op operand ih => rw [mapScoped, hasLambda, hasLambda, ih]
  | conversion target inner ih => rw [mapScoped, hasLambda, hasLambda, ih]

theorem hasLambda_coerced (e : Expr) : e.coerced.hasLambda = e.hasLambda := by
  induction e using shape_induction with
  | value v => rw [coerced]
  | reference path => rw [coerced]
  | call name args ih =>
    rw [coerced, coercedAll_eq, hasLambda, hasLambda, anyHasLambda_eq, anyHasLambda_eq]
    exact any_hasLambda_map ih
  | lambda collection name var body h ih =>
    have hc : (method (reference collection) name [reference var, body]).coerced =
        method (reference collection) name [reference var, body.coerced] := by
      simp [coerced, coercedAll]
    rw [hc, hasLambda_lambda h, hasLambda_lambda h]
  | method caller name args h hc ha =>
    rw [coerced, coercedAll_eq, hasLambda_method ((isLambdaCall_coerced caller name args).trans h),
      hasLambda_method h, hc, any_hasLambda_map ha]
  | binary op left right hl hr => rw [coerced, hasLambda, hasLambda, hl, hr]
  | unary op operand ih => rw [coerced, hasLambda, hasLambda, ih]
  | conversion target inner ih =>
    cases hv : inner.value? with
    | none => rw [coerced_conversion hv, hasLambda, hasLambda, ih]
    | some v =>
      obtain rfl := eq_value_of_value? hv
      rw [coerced]
      split <;> simp [hasLambda]

end Expr

namespace Renderer

open ODataClient.Expr

variable {r : Renderer}

theorem any_isLambda_bracketedSpans (min : Nat) (e : Expr) (spans : List Span) :
    (bracketedSpans min e spans).any Span.isLambda = spans.any Span.isLambda := by
  rw [bracketedSpans]
  split <;> simp [Span.isLambda]

theorem any_isLambda_separated (sep : String) (l : List (List Span)) :
    (Span.separated sep l).any Span.isLambda = l.any fun spans => spans.any Span.isLambda := by
  match l with
  | [] => rfl
  | [spans] => simp [Span.separated]
  | spans :: spans' :: l =>
    rw [Span.separated_cons_cons, List.any_append, List.any_cons,
      any_isLambda_separated sep (spans' :: l), List.any_cons (l := spans' :: l)]
    rfl

theorem any_isLambda_callSpans (dialect : Dialect) (name : String) (l : List (List Span)) :
    (callSpans dialect name l).any Span.isLambda = l.any fun spans => spans.any Span.isLambda := by
  unfold callSpans
  split
  next a b =>
    split <;> simp [Span.isLambda, any_isLambda_separated, Bool.or_comm]
  next => simp [Span.isLambda, any_isLambda_separated]

/-- The lambdas of the text are those of the expression. -/
theorem any_isLambda_spans (r : Renderer) (e : Expr) :
    (r.spans e).any Span.isLambda = e.hasLambda := by
  have hall : ∀ args : List Expr, (∀ e ∈ args, (r.spans e).any Span.isLambda = e.hasLambda) →
      ((args.map r.spans).any fun spans => spans.any Span.isLambda) = args.any hasLambda := by
    intro args h
    rw [List.any_map]
    exact any_congr_of_mem h
  induction e using shape_induction with
  | value v => simp [spans, hasLambda, Span.isLambda]
  | reference path => simp [spans, hasLambda, Span.isLambda]
  | call name args ih =>
    rw [spans, spansOfAll_eq, any_isLambda_callSpans, hall args ih, hasLambda, anyHasLambda_eq]
  | lambda collection name var body h ih =>
    rw [spans_lambda h, hasLambda_lambda h, List.any_cons]
    rfl
  | method caller name args h hc ha =>
    rw [spans_method h, any_isLambda_callSpans, List.any_cons, hc, hall args ha, hasLambda_method h]
  | binary op left right hl hr =>
    rw [spans, hasLambda, List.any_append, List.any_cons, any_isLambda_bracketedSpans,
      any_isLambda_bracketedSpans, hl, hr]
    rfl
  | unary op operand ih =>
    rw [spans, hasLambda, List.any_cons, any_isLambda_bracketedSpans, ih]
    rfl
  | conversion target inner ih =>
    rw [spans, hasLambda, List.any_cons, List.any_append, ih]
    simp [Span.isLambda]

theorem missing?_of_hasLambda (hr : r.version.hasLambdas = false) {e : Expr} (h : e.hasLambda = true) :
    (r.missing? e).isSome = true := by
  have hall : ∀ args : List Expr, (∀ e ∈ args, e.hasLambda = true → (r.missing? e).isSome = true) →
      args.any hasLambda = true → (r.missingOfAll? args).isSome = true := by
    intro args ih h
    induction args with
    | nil => simp at h
    | cons e args ihargs =>
      rw [List.any_cons, Bool.or_eq_true] at h
      rw [missingOfAll?, Option.isSome_or, Bool.or_eq_true]
      exact h.imp (ih e (by simp)) (ihargs fun x hx => ih x (by simp [hx]))
  induction e using shape_induction with
  | value v => simp [hasLambda] at h
  | reference path => simp [hasLambda] at h
  | call name args ih =>
    rw [hasLambda, anyHasLambda_eq] at h
    rw [missing?]
    exact hall args ih h
  | lambda collection name var body hn ih =>
    rw [missing?, isLambdaCall_of_name hn, hr]
    rfl
  | method caller name args hl hc ha =>
    rw [hasLambda_method hl, Bool.or_eq_true] at h
    rw [missing?, hl, Bool.false_and, if_neg Bool.false_ne_true, Option.isSome_or, Bool.or_eq_true]
    exact h.imp hc (hall args ha)
  | binary op left right hleft hright =>
    rw [hasLambda, Bool.or_eq_true] at h
    rw [missing?]
    split
    · rfl
    · rw [Option.isSome_or, Bool.or_eq_true]
      exact h.imp hleft hright
  | unary op operand ih =>
    rw [hasLambda] at h
    rw [missing?]
    exact ih h
  | conversion target inner ih =>
    rw [hasLambda] at h
    rw [missing?]
    exact ih h

theorem hasLambda_of_render (hr : r.version.hasLambdas = false) {e : Expr} {text : String}
    (h : r.render e = .ok text) : e.hasLambda = false := by
  by_contra hl
  have hm := missing?_of_hasLambda hr (Bool.not_eq_false _ ▸ hl)
  rw [(joined_of_render h).2] at hm
  exact absurd hm (by simp)

end Renderer

end ODataClient
