import ODataClient.Proofs.Command.FilterOrigins
import ODataClient.Proofs.Expr.Flattening
import ODataClient.Proofs.Expr.Nodes
import ODataClient.Proofs.Filter.QueryOptions

/-! Custom query options from expressions. Two things are asked of an expression: that no operator
anywhere in it is one that options do not have, and that its conjuncts are equations of a name and
a literal. The second alone decides whether the options are accepted, since such conjuncts have
no other operators; the first decides which error there is when they are not. -/

namespace ODataClient

section Nodes

variable {e : Expr} {args : List Expr}

theorem outcome_eq_self (x : Except Error Unit) : outcome x = x := by cases x <;> rfl

theorem outcome_mapM_append {α β : Type} (f : α → Except Error β) (l r : List α) :
    outcome ((l ++ r).mapM f) = outcome (l.mapM f) >>= fun _ => outcome (r.mapM f) := by
  rw [mapM_append_except]
  cases l.mapM f with
  | error error => rfl
  | ok bs => cases r.mapM f <;> rfl

theorem outcome_mapM_cons (f : Expr → Except Error Unit) (x : Expr) (l : List Expr) :
    outcome ((x :: l).mapM f) = f x >>= fun _ => outcome (l.mapM f) := by
  rw [mapM_cons_except]
  cases f x with
  | error error => rfl
  | ok _ => cases l.mapM f <;> rfl

theorem checkQueryArguments_eq_nodes
    (h : ∀ e ∈ args, checkQueryOption e = outcome (e.nodes.mapM (checkOptionOperator true))) :
    checkQueryArguments args =
      outcome ((args.flatMap Expr.nodes).mapM (checkOptionOperator true)) := by
  induction args with
  | nil => rfl
  | cons e r ih =>
    rw [checkQueryArguments, h e List.mem_cons_self, List.flatMap_cons, outcome_mapM_append,
      ih fun x hx => h x (List.mem_cons_of_mem e hx)]

/-- The operators are checked node by node. -/
theorem checkQueryOption_eq_nodes (e : Expr) :
    checkQueryOption e = outcome (e.nodes.mapM (checkOptionOperator true)) := by
  have hleaf : ∀ x : Expr, x.operator = .leaf → checkOptionOperator true x = .ok () := by
    intro x hx
    rw [checkOptionOperator, hx]
    rfl
  have hmethod : ∀ caller name args,
      checkQueryOption caller = outcome (caller.nodes.mapM (checkOptionOperator true)) →
      (∀ e ∈ args, checkQueryOption e = outcome (e.nodes.mapM (checkOptionOperator true))) →
      checkQueryOption (.method caller name args) =
        outcome ((Expr.method caller name args).nodes.mapM (checkOptionOperator true)) := by
    intro caller name args hc ha
    rw [checkQueryOption, Expr.nodes, Expr.nodesOfAll_eq, outcome_mapM_cons, hleaf _ rfl, ok_bind,
      outcome_mapM_append, hc, checkQueryArguments_eq_nodes ha]
  induction e using Expr.shape_induction with
  | value v => rfl
  | reference path => rfl
  | call name args ih =>
    rw [checkQueryOption, Expr.nodes, Expr.nodesOfAll_eq, outcome_mapM_cons, hleaf _ rfl, ok_bind,
      checkQueryArguments_eq_nodes ih]
  | lambda collection name var body hname ih =>
    refine hmethod (.reference collection) name [.reference var, body] rfl fun e he => ?_
    rcases List.mem_pair.1 he with rfl | rfl
    · rfl
    · exact ih
  | method caller name args hcall hc ha => exact hmethod caller name args hc ha
  | binary op left right hl hr =>
    rw [checkQueryOption, Expr.nodes, outcome_mapM_cons, outcome_mapM_append, hl, hr]
  | unary op operand ih => rw [checkQueryOption, Expr.nodes, outcome_mapM_cons, ih]
  | conversion target inner ih =>
    rw [checkQueryOption, Expr.nodes, outcome_mapM_cons, hleaf _ rfl, ok_bind, ih]

theorem checkOptionOperator_cases (n : Expr) :
    (n.operator ∈ [.leaf, .and, .eq] ∧ checkOptionOperator true n = .ok ()) ∨
      (n.operator ∉ [.leaf, .and, .eq] ∧
        checkOptionOperator true n = .error (.queryOptionOperator n.operator.keyword)) := by
  rw [checkOptionOperator]
  cases n.operator <;> simp [Operator.allowedInOption]

theorem checkQueryOption_eq_ok_iff :
    checkQueryOption e = .ok () ↔ ∀ n ∈ e.nodes, n.operator ∈ [.leaf, .and, .eq] := by
  rw [checkQueryOption_eq_nodes, outcome_eq_ok_iff]
  constructor
  · rintro ⟨units, h⟩ n hn
    obtain ⟨_, hok⟩ := exists_ok_of_mapM h hn
    rcases checkOptionOperator_cases n with ⟨hop, -⟩ | ⟨-, herror⟩
    · exact hop
    · exact absurd (herror.symm.trans hok) (by simp)
  · intro h
    cases hm : e.nodes.mapM (checkOptionOperator true) with
    | ok units => exact ⟨units, rfl⟩
    | error error =>
      obtain ⟨n, hn, hfail⟩ := exists_error_of_mapM hm
      rcases checkOptionOperator_cases n with ⟨-, hok⟩ | ⟨hop, -⟩
      · exact absurd (hfail.symm.trans hok) (by simp)
      · exact absurd (h n hn) hop

theorem code_of_checkQueryOption {error : Error} (h : checkQueryOption e = .error error) :
    error.code = "InvalidQueryOption" := by
  rw [checkQueryOption_eq_nodes, outcome_eq_error_iff] at h
  obtain ⟨n, -, hfail⟩ := exists_error_of_mapM h
  rcases checkOptionOperator_cases n with ⟨-, hok⟩ | ⟨-, herror⟩
  · exact absurd (hfail.symm.trans hok) (by simp)
  · rw [← Except.error.inj (herror.symm.trans hfail)]
    rfl

end Nodes

/-- The equation of a name and a literal, as options are written in expressions. -/
def Expr.equation (term : String × Value) : Expr :=
  .binary .eq (.reference term.1) (.value term.2)

theorem checkQueryOption_of_equations {e : Expr} {terms : List (String × Value)}
    (h : e.conjuncts = terms.map Expr.equation) : checkQueryOption e = .ok () := by
  have hequation : checkQueryOption ∘ Expr.equation = fun _ => pure () := rfl
  rw [← outcome_mapM_conjuncts (fun part => outcome_eq_self (checkQueryOption part)) e, h,
    List.mapM_map, hequation, List.mapM_pure]
  rfl

namespace Adapter

variable {a : Adapter} {e part : Expr} {parts : List Expr} {clauses : List Clause}

/-- The clause of an option: its name and its literal, percent-escaped. -/
def optionClause (a : Adapter) (term : String × Value) : Clause :=
  ⟨term.1, escape (a.style.literal term.2)⟩

theorem optionTerm_cases (a : Adapter) (part : Expr) :
    (∃ term, part = .equation term ∧ a.optionTerm part = .ok (a.optionClause term)) ∨
      a.optionTerm part = .error (.invalidCommand .optionNotNameEqValue) := by
  cases part with
  | binary op left right =>
    cases op with
    | eq =>
      cases left with
      | reference name =>
        cases right with
        | value v => exact .inl ⟨(name, v), rfl, rfl⟩
        | _ => exact .inr rfl
      | _ => exact .inr rfl
    | _ => exact .inr rfl
  | _ => exact .inr rfl

theorem mapM_optionTerm_eq_ok_iff : parts.mapM a.optionTerm = .ok clauses ↔
    ∃ terms : List (String × Value),
      parts = terms.map Expr.equation ∧ clauses = terms.map a.optionClause := by
  constructor
  · intro h
    induction mapM_eq_ok_iff.1 h with
    | nil => exact ⟨[], rfl, rfl⟩
    | @cons part x parts clauses hx hxs ih =>
      obtain ⟨terms, rfl, rfl⟩ := ih (mapM_eq_ok_iff.2 hxs)
      rcases a.optionTerm_cases part with ⟨term, rfl, hterm⟩ | hfail
      · obtain rfl := Except.ok.inj (hterm.symm.trans hx)
        exact ⟨term :: terms, rfl, rfl⟩
      · exact absurd (hfail.symm.trans hx) (by simp)
  · rintro ⟨terms, rfl, rfl⟩
    have hequation : a.optionTerm ∘ Expr.equation = fun term => pure (a.optionClause term) := rfl
    rw [List.mapM_map, hequation, List.mapM_pure]
    rfl

theorem mapM_optionTerm_error {error : Error} (h : parts.mapM a.optionTerm = .error error) :
    error = .invalidCommand .optionNotNameEqValue := by
  obtain ⟨part, -, hfail⟩ := exists_error_of_mapM h
  rcases a.optionTerm_cases part with ⟨term, -, hok⟩ | herror
  · exact absurd (hfail.symm.trans hok) (by simp)
  · exact (Except.error.inj (herror.symm.trans hfail)).symm

theorem optionExpression_some (a : Adapter) (e : Expr) :
    a.optionExpression (some e) = checkQueryOption e >>= fun _ => e.conjuncts.mapM a.optionTerm :=
  rfl

theorem customOptions_eq (a : Adapter) (options : QueryOptions) :
    a.customOptions options = (a.optionExpression options.expression).map fun clauses =>
      (options.text.map Clause.ofRawText).getD [] ++ clauses ++
        options.pairs.map a.optionClause := by
  rw [customOptions]
  cases a.optionExpression options.expression <;> rfl

/-- The options are accepted exactly when the conjuncts of their expression are equations. -/
theorem customOptions_eq_ok_iff {options : QueryOptions} (h : options.expression = some e) :
    a.customOptions options = .ok clauses ↔ ∃ terms : List (String × Value),
      e.conjuncts = terms.map Expr.equation ∧
      clauses = (options.text.map Clause.ofRawText).getD [] ++ terms.map a.optionClause ++
        options.pairs.map a.optionClause := by
  rw [customOptions_eq, h, map_eq_ok_iff]
  constructor
  · rintro ⟨own, hown, rfl⟩
    rw [optionExpression_some, bind_eq_ok_iff] at hown
    obtain ⟨_, -, hown⟩ := hown
    obtain ⟨terms, hterms, rfl⟩ := mapM_optionTerm_eq_ok_iff.1 hown
    exact ⟨terms, hterms, rfl⟩
  · rintro ⟨terms, hterms, rfl⟩
    refine ⟨terms.map a.optionClause, ?_, rfl⟩
    rw [optionExpression_some, checkQueryOption_of_equations hterms, ok_bind]
    exact mapM_optionTerm_eq_ok_iff.2 ⟨terms, hterms, rfl⟩

theorem customOptions_error {options : QueryOptions} {error : Error}
    (h : options.expression = some e) (herror : a.customOptions options = .error error) :
    checkQueryOption e = .error error ∨
      checkQueryOption e = .ok () ∧ error = .invalidCommand .optionNotNameEqValue := by
  rw [customOptions_eq, h, map_eq_error_iff, optionExpression_some, bind_eq_error_iff] at herror
  rcases herror with herror | ⟨_, hcheck, herror⟩
  · exact .inl herror
  · exact .inr ⟨hcheck, mapM_optionTerm_error herror⟩

theorem customOptions_of_check {options : QueryOptions} {error : Error}
    (h : options.expression = some e) (hcheck : checkQueryOption e = .error error) :
    a.customOptions options = .error error := by
  rw [customOptions_eq, h, optionExpression_some, hcheck]
  rfl

theorem code_queryOption_iff {options : QueryOptions} (h : options.expression = some e) :
    (∃ error, a.customOptions options = .error error ∧ error.code = "InvalidQueryOption") ↔
      ∃ n ∈ e.nodes, n.operator ∉ [.leaf, .and, .eq] := by
  constructor
  · rintro ⟨error, herror, hcode⟩
    rcases customOptions_error h herror with hcheck | ⟨-, rfl⟩
    · by_contra hno
      have hok : checkQueryOption e = .ok () := checkQueryOption_eq_ok_iff.2 fun n hn =>
        by_contra fun hop => hno ⟨n, hn, hop⟩
      exact absurd (hcheck.symm.trans hok) (by simp)
    · exact absurd hcode (by decide)
  · rintro ⟨n, hn, hop⟩
    cases hcheck : checkQueryOption e with
    | ok _ => exact absurd (checkQueryOption_eq_ok_iff.1 hcheck n hn) hop
    | error error => exact ⟨error, customOptions_of_check h hcheck, code_of_checkQueryOption hcheck⟩

theorem code_command_iff {options : QueryOptions} (h : options.expression = some e) :
    (∃ error, a.customOptions options = .error error ∧ error.code = "InvalidCommand") ↔
      (∀ n ∈ e.nodes, n.operator ∈ [.leaf, .and, .eq]) ∧
        ¬ ∃ terms : List (String × Value), e.conjuncts = terms.map Expr.equation := by
  constructor
  · rintro ⟨error, herror, hcode⟩
    rcases customOptions_error h herror with hcheck | ⟨hcheck, -⟩
    · rw [code_of_checkQueryOption hcheck] at hcode
      exact absurd hcode (by decide)
    · refine ⟨checkQueryOption_eq_ok_iff.1 hcheck, ?_⟩
      rintro ⟨terms, hterms⟩
      have hok := (customOptions_eq_ok_iff (a := a) h).2 ⟨terms, hterms, rfl⟩
      exact absurd (herror.symm.trans hok) (by simp)
  · rintro ⟨hall, hno⟩
    cases hcustom : a.customOptions options with
    | ok clauses =>
      obtain ⟨terms, hterms, -⟩ := (customOptions_eq_ok_iff h).1 hcustom
      exact absurd ⟨terms, hterms⟩ hno
    | error error =>
      rcases customOptions_error h hcustom with hcheck | ⟨-, rfl⟩
      · exact absurd (hcheck.symm.trans (checkQueryOption_eq_ok_iff.2 hall)) (by simp)
      · exact ⟨_, rfl, rfl⟩

end Adapter

/-! ### Builder calls -/

namespace Call

def optionExpression? : Call → Option Expr
  | queryOptionsExpr e => some e
  | _ => none

theorem optionExpression_edit (entity? : Option String) (x : Call) (n : CommandNode) :
    (x.edit entity? n).options.expression =
      Command.conjunction n.options.expression x.optionExpression?.toList := by
  cases x <;> rfl

end Call

namespace Command

/-- The expressions that calls have added to the options of the node that is addressed; every step
along the chain begins anew. -/
def optionExpressions (calls : List Call) : List Expr :=
  calls.foldl (fun es x => if x.step?.isSome then [] else es ++ x.optionExpression?.toList) []

theorem expression_applied (c : Command) (x : Call) {es : List Expr}
    (h : c.node.options.expression = conjunction none es) :
    (c.applied x).node.options.expression = conjunction none
      (if x.step?.isSome then [] else es ++ x.optionExpression?.toList) := by
  cases hs : x.step? with
  | some segment =>
    rw [applied_of_step hs]
    rfl
  | none =>
    have hedit := Call.optionExpression_edit c.entityName? x c.node
    rw [applied_of_stay hs]
    refine hedit.trans ?_
    rw [h]
    simp [conjunction]

theorem expression_of_run {c d : Command} {calls : List Call} {es : List Expr}
    (h : calls.foldlM apply c = .ok d) (hc : c.node.options.expression = conjunction none es) :
    d.node.options.expression = conjunction none (calls.foldl (fun es x =>
      if x.step?.isSome then [] else es ++ x.optionExpression?.toList) es) := by
  induction calls generalizing c es with
  | nil =>
    obtain rfl : c = d := Except.ok.inj h
    exact hc
  | cons x calls ih =>
    obtain ⟨-, h⟩ := foldlM_cons_eq_ok_iff.1 h
    exact ih h (c.expression_applied x hc)

theorem conjuncts_conjunction (old : Option Expr) (es : List Expr) :
    (conjunction old es).elim [] Expr.conjuncts =
      old.elim [] Expr.conjuncts ++ es.flatMap Expr.conjuncts := by
  induction es generalizing old with
  | nil => simp [conjunction]
  | cons e es ih =>
    rw [conjunction, List.foldl_cons]
    refine (ih _).trans ?_
    cases old <;> simp [Call.conjoined, Expr.conjuncts_and]

end Command

namespace Adapter

/-- The expression that calls store has the conjuncts of what each of them adds. When these are
equations, their clauses stand between those of the raw text and those of the single pairs;
otherwise an operator that options do not have is reported before anything else. -/
theorem customOptions_decided (a : Adapter) :
    (∀ calls c, calls.foldlM Command.apply .empty = .ok c →
      c.node.options.expression = Command.conjunction none (Command.optionExpressions calls) ∧
      c.node.options.expression.elim [] Expr.conjuncts =
        (Command.optionExpressions calls).flatMap Expr.conjuncts) ∧
    ∀ (options : QueryOptions) (e : Expr), options.expression = some e →
      (∀ clauses, a.customOptions options = .ok clauses ↔ ∃ terms : List (String × Value),
        e.conjuncts = terms.map Expr.equation ∧
        clauses = (options.text.map Clause.ofRawText).getD [] ++ terms.map a.optionClause ++
          options.pairs.map a.optionClause) ∧
      ((∃ error, a.customOptions options = .error error ∧ error.code = "InvalidQueryOption") ↔
        ∃ n ∈ e.nodes, n.operator ∉ [.leaf, .and, .eq]) ∧
      ((∃ error, a.customOptions options = .error error ∧ error.code = "InvalidCommand") ↔
        (∀ n ∈ e.nodes, n.operator ∈ [.leaf, .and, .eq]) ∧
          ¬ ∃ terms : List (String × Value), e.conjuncts = terms.map Expr.equation) := by
  refine ⟨fun calls c h => ?_, fun options e h =>
    ⟨fun _ => customOptions_eq_ok_iff h, code_queryOption_iff h, code_command_iff h⟩⟩
  have hempty : Command.empty.node.options.expression = Command.conjunction none [] := rfl
  have hexpression := Command.expression_of_run h hempty
  refine ⟨hexpression, ?_⟩
  rw [hexpression]
  exact (Command.conjuncts_conjunction none (Command.optionExpressions calls)).trans
    (List.nil_append _)

/-- Options from two expressions, one of them nested to the right, from a raw text and a pair. -/
def tracedProducts : List Call :=
  [.collection "Products", .queryOptionsExpr (.equation ("trace", .bool true)),
    .queryOption "level" (.int32 2),
    .queryOptionsExpr (.binary .and (.equation ("lang", .string "de at"))
      (.binary .and (.equation ("rate", .double .nan)) (.equation ("trace", .null)))),
    .queryOptions "debug&depth=3"]

def tracedTerms : List (String × Value) :=
  [("trace", .bool true), ("lang", .string "de at"), ("rate", .double .nan), ("trace", .null)]

/-- An operator that options do not have, in an argument of a call in an equation. -/
def negatedShift : Expr :=
  .binary .and (.equation ("lang", .null))
    (.binary .eq (.reference "rate") (.call "round" [.unary .negate (.reference "shift")]))

/-- A literal on the left of a name. -/
def turnedEquation : Expr := .binary .eq (.value .null) (.reference "lang")

theorem customOptions_decided_tracedProducts :
    (∃ c e, tracedProducts.foldlM Command.apply .empty = .ok c ∧
      c.node.options.expression = some e ∧ e.conjuncts = tracedTerms.map Expr.equation ∧
      (northwindAdapter .v3).customOptions c.node.options =
        .ok [⟨"debug", ""⟩, ⟨"depth", "3"⟩, ⟨"trace", "true"⟩, ⟨"lang", "'de%20at'"⟩,
          ⟨"rate", "NaND"⟩, ⟨"trace", "null"⟩, ⟨"level", "2"⟩]) ∧
    (∃ error, (northwindAdapter .v3).customOptions ⟨some "debug", some negatedShift, []⟩ =
      .error error ∧ error.code = "InvalidQueryOption") ∧
    ∃ error, (northwindAdapter .v3).customOptions ⟨none, some turnedEquation, []⟩ =
      .error error ∧ error.code = "InvalidCommand" := by
  obtain ⟨hcalls, hoptions⟩ := customOptions_decided (northwindAdapter .v3)
  obtain ⟨c, e, hc, he, htext, hpairs⟩ : ∃ c e, tracedProducts.foldlM Command.apply .empty = .ok c ∧
      c.node.options.expression = some e ∧ c.node.options.text = some "debug&depth=3" ∧
      c.node.options.pairs = [("level", .int32 2)] := ⟨_, _, rfl, rfl, rfl, rfl⟩
  have hconjuncts : e.conjuncts = tracedTerms.map Expr.equation := by
    have hstored := (hcalls tracedProducts c hc).2
    rw [he] at hstored
    exact hstored
  refine ⟨⟨c, e, hc, he, hconjuncts, ((hoptions _ e he).1 _).2 ⟨tracedTerms, hconjuncts, ?_⟩⟩,
    (hoptions _ negatedShift rfl).2.1.2 ⟨.unary .negate (.reference "shift"), ?_, ?_⟩,
    (hoptions _ turnedEquation rfl).2.2.2 ⟨?_, ?_⟩⟩
  · rw [htext, hpairs]
    rfl
  · simp [negatedShift, Expr.nodes, Expr.nodesOfAll, Expr.equation]
  · simp [Expr.operator]
  · simp [turnedEquation, Expr.nodes, Expr.operator]
  · rintro ⟨_ | ⟨term, terms⟩, h⟩ <;>
      simp [turnedEquation, Expr.conjuncts, Expr.equation] at h

end Adapter

end ODataClient
