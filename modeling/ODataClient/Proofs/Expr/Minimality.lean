import ODataClient.Proofs.Expr.Calls
import ODataClient.Proofs.Expr.ReadBack
import ODataClient.Proofs.Expr.Spans

/-! The renderer puts no parentheses that could be left out. Its text is the one of the tree of the
expression, arguments of calls, casts and lambdas included, and without any two of its parentheses
that match it is read as another tree. -/

namespace ODataClient

namespace Operator

def isBinary : Operator → Bool
  | leaf | not | negate => false
  | _ => true

def isUnary : Operator → Bool
  | not | negate => true
  | _ => false

theorem precedence_of_isBinary {op : Operator} (h : op.isBinary = true) : op.precedence ≤ 5 := by
  cases op <;> first | exact absurd h (by decide) | decide

theorem precedence_of_isUnary {op : Operator} (h : op.isUnary = true) : op.precedence = 6 := by
  cases op <;> first | exact absurd h (by decide) | decide

end Operator

namespace Expr

mutual

/-- Binary nodes carry binary operators, and unary nodes `not` or `-`. -/
def WellFormed : Expr → Prop
  | value _ => True
  | reference _ => True
  | call _ arguments => AllWellFormed arguments
  | method caller _ arguments => caller.WellFormed ∧ AllWellFormed arguments
  | binary op left right => op.isBinary ∧ left.WellFormed ∧ right.WellFormed
  | unary op operand => op.isUnary ∧ operand.WellFormed
  | conversion _ inner => inner.WellFormed

def AllWellFormed : List Expr → Prop
  | [] => True
  | e :: r => e.WellFormed ∧ AllWellFormed r

end

theorem allWellFormed_iff {args : List Expr} : AllWellFormed args ↔ ∀ e ∈ args, e.WellFormed := by
  induction args with
  | nil => simp [AllWellFormed]
  | cons e r ih => rw [AllWellFormed, ih, List.forall_mem_cons]

end Expr

namespace Renderer

def callTerm (dialect : Dialect) (name : String) (arguments : List (Formula Term)) : Term :=
  match dialect, arguments with
  | .legacy, [a, b] =>
    if name = "contains" then .call "substringof(" [b, a] ")" else .call (name ++ "(") [a, b] ")"
  | _, _ => .call (name ++ "(") arguments ")"

/-- The opening of a lambda, up to its range variable. -/
def lambdaHead (collection name : String) (arguments : List Expr) : String :=
  collection ++ "/" ++ name ++ "(" ++ (arguments.head?.map Expr.boundName).getD "" ++ ":"

mutual

/-- The tree of an expression: its operators, with the calls as they are written. -/
def tree (r : Renderer) : Expr → Formula Term
  | .value v => .atom (.leaf (r.style.written r.escaped v))
  | .reference path => .atom (.leaf path)
  | .binary op left right => .binary op (tree r left) (tree r right)
  | .unary op operand => .unary op (tree r operand)
  | .conversion target inner => .atom (.call "cast(" [tree r inner] (castEnd r.dialect target))
  | .call name arguments => .atom (callTerm r.dialect name (treesOf r arguments))
  | .method caller name arguments =>
    if Expr.isLambdaCall caller name arguments then
      .atom (.call (lambdaHead caller.boundName name arguments) (treesOf r arguments).tail ")")
    else .atom (callTerm r.dialect name (tree r caller :: treesOf r arguments))

def treesOf (r : Renderer) : List Expr → List (Formula Term)
  | [] => []
  | e :: rest => tree r e :: treesOf r rest

end

variable {r : Renderer}

theorem treesOf_eq (r : Renderer) (args : List Expr) : r.treesOf args = args.map r.tree := by
  induction args with
  | nil => rw [treesOf, List.map_nil]
  | cons e args ih => rw [treesOf, ih, List.map_cons]

theorem tree_lambda {collection name var : String} {body : Expr} (h : name = "any" ∨ name = "all") :
    r.tree (.method (.reference collection) name [.reference var, body]) =
      .atom (.call (collection ++ "/" ++ name ++ "(" ++ var ++ ":") [r.tree body] ")") := by
  simp [tree, Expr.isLambdaCall_of_name h, treesOf, lambdaHead, Expr.boundName, Expr.reference?]

theorem tree_method {caller : Expr} {name : String} {args : List Expr}
    (h : Expr.isLambdaCall caller name args = false) :
    r.tree (.method caller name args) =
      .atom (callTerm r.dialect name (r.tree caller :: args.map r.tree)) := by
  rw [tree, h, if_neg Bool.false_ne_true, treesOf_eq]

theorem precedence_tree (e : Expr) : (r.tree e).precedence = e.operator.precedence := by
  cases e with
  | method caller name args =>
    rw [tree]
    split <;> rfl
  | _ => rfl

def treeText (t : Formula Term) : String := Wording.text (Term.written t)

theorem treeText_atom (a : Term) : treeText (.atom a) = a.script.text := by
  simp [treeText, Wording.text, Term.written, Formula.map, Formula.tokens, Token.spelled, Token.text]

theorem treeText_call (head : String) (args : List (Formula Term)) (tail : String) :
    treeText (.atom (.call head args tail)) =
      head ++ String.intercalate "," (args.map treeText) ++ tail := by
  rw [treeText_atom, Term.script_call, Script.text_call, List.map_map]
  rfl

theorem treeText_callTerm (dialect : Dialect) (name : String) (args : List (Formula Term)) :
    treeText (.atom (callTerm dialect name args)) = callText dialect name (args.map treeText) := by
  have hplain : treeText (.atom (.call (name ++ "(") args ")")) =
      name ++ "(" ++ String.intercalate "," (args.map treeText) ++ ")" := treeText_call _ _ _
  cases dialect with
  | modern => exact hplain
  | legacy =>
    match args with
    | [a, b] =>
      simp only [callTerm, callText, List.map_cons, List.map_nil]
      split
      · simp [treeText_call, String.append_assoc]
      · simp [treeText_call, String.append_assoc]
    | [] => exact hplain
    | [a] => exact hplain
    | a :: b :: c :: args => exact hplain

theorem spelled_bracketed_tree (min : Nat) (e : Expr) :
    Token.spelled Script.text (Formula.bracketed min ((r.tree e).map Term.script)
        ((r.tree e).map Term.script).tokens) = bracketed min e (treeText (r.tree e)) := by
  rw [Formula.bracketed, bracketed, Formula.precedence_map, precedence_tree]
  split
  · simp [Token.spelled, Token.spelled_append, Token.text, String.append_assoc, treeText,
      Wording.text, Term.written]
  · rfl

/-- The text of the tree of an expression is the text of its spans. -/
theorem treeText_tree (r : Renderer) (e : Expr) : treeText (r.tree e) = Span.joined (r.spans e) := by
  induction e using Expr.shape_induction with
  | value v => simp [tree, treeText_atom, spans, Span.text]; rfl
  | reference path => simp [tree, treeText_atom, spans, Span.text]; rfl
  | call name args ih =>
    rw [tree, treeText_callTerm, treesOf_eq, spans, spansOfAll_eq, joined_callSpans, List.map_map,
      List.map_map]
    exact congrArg _ (List.map_congr_left ih)
  | lambda collection name var body h ih =>
    rw [tree_lambda h, treeText_call, spans_lambda h]
    simp [ih, Span.text, String.append_assoc]
  | method caller name args h hc ha =>
    rw [tree_method h, treeText_callTerm, spans_method h, joined_callSpans, List.map_cons,
      List.map_cons, List.map_map, List.map_map, hc]
    exact congrArg _ (congrArg _ (List.map_congr_left ha))
  | binary op left right hl hr =>
    rw [tree, spans, Span.joined_append, Span.joined_cons, joined_bracketedSpans,
      joined_bracketedSpans, ← hl, ← hr]
    simp only [treeText, Wording.text, Term.written, Formula.map, Formula.tokens,
      Token.spelled_append, Token.spelled, Token.text, spelled_bracketed_tree, Span.text]
  | unary op operand ih =>
    rw [tree, spans, Span.joined_cons, joined_bracketedSpans, ← ih]
    have hmark : (Token.sign op).text Script.text = (Span.mark (unaryMark op)).text := by
      cases op <;> rfl
    simp only [treeText, Wording.text, Term.written, Formula.map, Formula.tokens,
      Token.spelled, spelled_bracketed_tree, hmark]
  | conversion target inner ih =>
    rw [tree, treeText_call, spans]
    simp [ih, Span.text, String.append_assoc]

/-- The tokens that the renderer writes, with those of the arguments inside. -/
def written (r : Renderer) (e : Expr) : Wording := Term.written (r.tree e)

theorem text_written {e : Expr} {text : String} (h : r.render e = .ok text) :
    Wording.text (r.written e) = text :=
  (treeText_tree r e).trans (joined_of_render h).1.symm

theorem proper_callTerm {dialect : Dialect} {name : String} {args : List (Formula Term)}
    (h : ∀ t ∈ args, t.WellFormed ∧ ∀ a ∈ t.atoms, a.Proper) :
    (callTerm dialect name args).Proper := by
  have hcall : ∀ head, Term.Proper (.call head args ")") := fun head =>
    .call head args ")" (fun t ht => (h t ht).1) fun t ht => (h t ht).2
  unfold callTerm
  split
  next a b =>
    split
    · refine .call _ [b, a] ")" (fun t ht => (h t ?_).1) fun t ht => (h t ?_).2
      all_goals simpa [or_comm] using ht
    · exact hcall _
  next => exact hcall _

theorem proper_tree (r : Renderer) {e : Expr} (he : e.WellFormed) :
    (r.tree e).WellFormed ∧ ∀ a ∈ (r.tree e).atoms, a.Proper := by
  have hatom : ∀ a : Term, a.Proper → (Formula.atom a).WellFormed ∧
      ∀ b ∈ (Formula.atom a).atoms, b.Proper :=
    fun a ha => ⟨trivial, List.forall_mem_singleton.2 ha⟩
  have hsingle : ∀ (head : String) (t : Formula Term) (tail : String),
      (t.WellFormed ∧ ∀ a ∈ t.atoms, a.Proper) → (Term.call head [t] tail).Proper :=
    fun head t tail ht => .call head [t] tail (List.forall_mem_singleton.2 ht.1)
      (List.forall_mem_singleton.2 ht.2)
  induction e using Expr.shape_induction with
  | value v => exact hatom _ (.leaf _)
  | reference path => exact hatom _ (.leaf _)
  | call name args ih =>
    rw [Expr.WellFormed, Expr.allWellFormed_iff] at he
    rw [tree, treesOf_eq]
    exact hatom _ (proper_callTerm (List.forall_mem_map.2 fun e hmem => ih e hmem (he e hmem)))
  | lambda collection name var body h ih =>
    rw [Expr.WellFormed, Expr.AllWellFormed, Expr.AllWellFormed] at he
    rw [tree_lambda h]
    exact hatom _ (hsingle _ _ _ (ih he.2.2.1))
  | method caller name args h hc ha =>
    rw [Expr.WellFormed, Expr.allWellFormed_iff] at he
    rw [tree_method h]
    exact hatom _ (proper_callTerm (List.forall_mem_cons.2
      ⟨hc he.1, List.forall_mem_map.2 fun e hmem => ha e hmem (he.2 e hmem)⟩))
  | binary op left right hl hr =>
    rw [Expr.WellFormed] at he
    obtain ⟨hop, hleft, hright⟩ := he
    rw [tree]
    exact ⟨⟨Operator.precedence_of_isBinary hop, (hl hleft).1, (hr hright).1⟩,
      List.forall_mem_append.2 ⟨(hl hleft).2, (hr hright).2⟩⟩
  | unary op operand ih =>
    rw [Expr.WellFormed] at he
    rw [tree]
    exact ⟨⟨Operator.precedence_of_isUnary he.1, (ih he.2).1⟩, (ih he.2).2⟩
  | conversion target inner ih =>
    rw [Expr.WellFormed] at he
    rw [tree]
    exact hatom _ (hsingle _ _ _ (ih he))

/-- Parentheses stand only where they are needed: a written text without one of them and the one
that matches it is read as another tree than the whole text, and as another than the expression. -/
theorem parentheses_needed {e : Expr} {text : String} (he : e.WellFormed)
    (h : r.render e = .ok text) :
    Wording.text (r.written e) = text ∧
      ∃ back, Wording.read (r.written e) = some back ∧
        ∀ shorter, Wording.Unbracketed (r.written e) shorter →
          (∃ before inner after : String, text = before ++ "(" ++ inner ++ ")" ++ after ∧
            Wording.text shorter = before ++ inner ++ after) ∧
          ∃ back', Wording.read shorter = some back' ∧ back' ≠ back ∧ back' ≠ r.tree e := by
  have htext := text_written h
  obtain ⟨hwell, hatoms⟩ := proper_tree r he
  obtain ⟨back, hback, hshorter⟩ := Term.read_unbracketed hwell hatoms
  refine ⟨htext, back, hback, fun shorter hs => ⟨?_, hshorter shorter hs⟩⟩
  obtain ⟨before, inner, after, hks, hls⟩ := hs.text_eq
  exact ⟨before, inner, after, htext.symm.trans hks, hls⟩

def roundedTotal : Expr :=
  .binary .eq (.call "round" [.binary .mul (.binary .add (.reference "Price") (.reference "Freight"))
    (.reference "Quantity")]) (.reference "Total")

/-- The parentheses of an argument. -/
theorem parentheses_roundedTotal :
    roundedTotal.WellFormed ∧
      plainRenderer.render roundedTotal = .ok "round((Price add Freight) mul Quantity) eq Total" ∧
      ∃ shorter back back', Wording.Unbracketed (plainRenderer.written roundedTotal) shorter ∧
        Wording.text shorter = "round(Price add Freight mul Quantity) eq Total" ∧
        Wording.read (plainRenderer.written roundedTotal) = some back ∧
        Wording.read shorter = some back' ∧ back' ≠ back := by
  have he : roundedTotal.WellFormed := by
    simp [roundedTotal, Expr.WellFormed, Expr.AllWellFormed, Operator.isBinary]
  have hr : plainRenderer.render roundedTotal =
      .ok "round((Price add Freight) mul Quantity) eq Total" := rfl
  obtain ⟨-, back, hback, hshorter⟩ := parentheses_needed he hr
  have hinner : Wording.Unbracketed _ _ :=
    .here [] [.operand (.leaf "Price"), .joint .add, .operand (.leaf "Freight")]
      [.joint .mul, .operand (.leaf "Quantity")] rfl
  have hs : Wording.Unbracketed (plainRenderer.written roundedTotal) _ :=
    .inside [] [.joint .eq, .operand (.leaf "Total")] "round(" ")" [] [] hinner
  obtain ⟨-, back', hback', hne, -⟩ := hshorter _ hs
  exact ⟨he, hr, _, back, back', hs, rfl, hback, hback', hne⟩

end Renderer

end ODataClient
