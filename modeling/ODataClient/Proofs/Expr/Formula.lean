import Mathlib.Data.List.Basic
import ODataClient.Expr.Rendering
import ODataClient.Proofs.Outcome

/-! Expressions as operators over atoms, and their texts as tokens. Calls, casts, lambdas and
leaves are atoms. The text of an expression is the spelling of its tokens, where operands are
in parentheses as the renderer puts them. -/

namespace ODataClient

inductive Formula (α : Type)
  | atom (a : α)
  | binary (op : Operator) (left right : Formula α)
  | unary (op : Operator) (operand : Formula α)
  deriving DecidableEq

def Expr.formula : Expr → Formula Expr
  | binary op left right => .binary op left.formula right.formula
  | unary op operand => .unary op operand.formula
  | e => .atom e

inductive Token (α : Type)
  | operand (a : α)
  | joint (op : Operator)
  | sign (op : Operator)
  | opening
  | closing

namespace Token

variable {α β : Type}

def map (f : α → β) : Token α → Token β
  | operand a => operand (f a)
  | joint op => joint op
  | sign op => sign op
  | opening => opening
  | closing => closing

def text (f : α → String) : Token α → String
  | operand a => f a
  | joint op => " " ++ op.keyword ++ " "
  | sign .negate => "-"
  | sign op => op.keyword ++ " "
  | opening => "("
  | closing => ")"

theorem text_map (f : α → β) (g : β → String) (k : Token α) :
    (k.map f).text g = k.text (g ∘ f) := by
  cases k with
  | sign op => cases op <;> rfl
  | _ => rfl

def spelled (f : α → String) : List (Token α) → String
  | [] => ""
  | k :: ks => k.text f ++ spelled f ks

theorem spelled_append (f : α → String) (ks ls : List (Token α)) :
    spelled f (ks ++ ls) = spelled f ks ++ spelled f ls := by
  induction ks with
  | nil => simp [spelled]
  | cons k ks ih => rw [List.cons_append, spelled, spelled, ih, String.append_assoc]

theorem spelled_map (f : α → β) (g : β → String) (ks : List (Token α)) :
    spelled g (ks.map (map f)) = spelled (g ∘ f) ks := by
  induction ks with
  | nil => rfl
  | cons k ks ih => rw [List.map_cons, spelled, spelled, text_map, ih]

end Token

namespace Formula

variable {α β : Type}

def map (f : α → β) : Formula α → Formula β
  | atom a => atom (f a)
  | binary op left right => binary op (left.map f) (right.map f)
  | unary op operand => unary op (operand.map f)

def precedence : Formula α → Nat
  | atom _ => Operator.leaf.precedence
  | binary op _ _ => op.precedence
  | unary op _ => op.precedence

def WellFormed : Formula α → Prop
  | atom _ => True
  | binary op left right => op.precedence ≤ 5 ∧ left.WellFormed ∧ right.WellFormed
  | unary op operand => op.precedence = 6 ∧ operand.WellFormed

def bracketed (min : Nat) (t : Formula α) (ks : List (Token α)) : List (Token α) :=
  if t.precedence < min then .opening :: ks ++ [.closing] else ks

def tokens : Formula α → List (Token α)
  | atom a => [.operand a]
  | binary op left right =>
    bracketed op.precedence left left.tokens ++
      .joint op :: bracketed op.rightMinimum right right.tokens
  | unary op operand => .sign op :: bracketed op.precedence operand operand.tokens

def size : Formula α → Nat
  | atom _ => 1
  | binary _ left right => left.size + right.size
  | unary _ operand => operand.size

def numberedFrom : Nat → Formula α → Formula (Nat × α)
  | k, atom a => atom (k, a)
  | k, binary op left right => binary op (left.numberedFrom k) (right.numberedFrom (k + left.size))
  | k, unary op operand => unary op (operand.numberedFrom k)

/-- The atoms numbered from left to right, so that each of them is told from the others. -/
def numbered (t : Formula α) : Formula (Nat × α) := t.numberedFrom 0

theorem precedence_map (f : α → β) (t : Formula α) : (t.map f).precedence = t.precedence := by
  cases t <;> rfl

theorem wellFormed_map (f : α → β) (t : Formula α) : (t.map f).WellFormed ↔ t.WellFormed := by
  induction t with
  | atom a => rfl
  | binary op left right hl hr => simp only [map, WellFormed, hl, hr]
  | unary op operand ih => simp only [map, WellFormed, ih]

theorem bracketed_map (f : α → β) (min : Nat) (t : Formula α) (ks : List (Token α)) :
    bracketed min (t.map f) (ks.map (Token.map f)) = (bracketed min t ks).map (Token.map f) := by
  rw [bracketed, bracketed, precedence_map]
  split <;> simp [Token.map]

theorem tokens_map (f : α → β) (t : Formula α) : (t.map f).tokens = t.tokens.map (Token.map f) := by
  induction t with
  | atom a => rfl
  | binary op left right hl hr =>
    simp only [map, tokens, hl, hr, bracketed_map, List.map_append, List.map_cons, Token.map]
  | unary op operand ih => simp only [map, tokens, ih, bracketed_map, List.map_cons, Token.map]

theorem numberedFrom_map_snd (t : Formula α) (k : Nat) : (t.numberedFrom k).map (·.2) = t := by
  induction t generalizing k with
  | atom a => rfl
  | binary op left right hl hr => simp only [numberedFrom, map, hl, hr]
  | unary op operand ih => simp only [numberedFrom, map, ih]

end Formula

theorem Expr.formula_precedence (e : Expr) : e.formula.precedence = e.operator.precedence := by
  cases e <;> simp [formula, operator, Formula.precedence]

namespace Renderer

variable {r : Renderer}

def atomText (r : Renderer) (e : Expr) : String := ((r.render e).toOption).getD ""

theorem spelled_bracketed (min : Nat) (e : Expr) (f : Expr → String) :
    Token.spelled f (Formula.bracketed min e.formula e.formula.tokens) =
      bracketed min e (Token.spelled f e.formula.tokens) := by
  rw [Formula.bracketed, bracketed, Expr.formula_precedence]
  split
  · simp [Token.spelled, Token.spelled_append, Token.text, String.append_assoc]
  · rfl

theorem unaryText_eq (op : Operator) (operand : String) (f : Expr → String) :
    unaryText op operand = (Token.sign op).text f ++ operand := by
  cases op <;> simp [unaryText, Token.text, String.append_assoc]

/-- A text that the renderer gives is the spelling of the tokens of the expression. -/
theorem spelled_of_render {e : Expr} {text : String} (h : r.render e = .ok text) :
    Token.spelled r.atomText e.formula.tokens = text := by
  induction e using Expr.formula.induct generalizing text with
  | case1 op left right hl hr =>
    rw [render] at h
    split at h
    · simp at h
    · obtain ⟨a, ha, h⟩ := bind_eq_ok_iff.1 h
      obtain ⟨b, hb, h⟩ := bind_eq_ok_iff.1 h
      obtain rfl := Except.ok.inj h
      rw [Expr.formula, Formula.tokens, Token.spelled_append, Token.spelled, spelled_bracketed,
        spelled_bracketed, hl ha, hr hb]
      simp only [Token.text, String.append_assoc]
  | case2 op operand ih =>
    rw [render] at h
    obtain ⟨a, ha, h⟩ := bind_eq_ok_iff.1 h
    obtain rfl := Except.ok.inj h
    rw [Expr.formula, Formula.tokens, Token.spelled, spelled_bracketed, ih ha, unaryText_eq]
  | case3 e hb hu =>
    have he : e.formula = .atom e := by
      cases e with
      | binary op left right => exact absurd rfl (hb op left right)
      | unary op operand => exact absurd rfl (hu op operand)
      | _ => rfl
    rw [he]
    simp [Formula.tokens, Token.spelled, Token.text, atomText, h, Except.toOption]

end Renderer

end ODataClient
