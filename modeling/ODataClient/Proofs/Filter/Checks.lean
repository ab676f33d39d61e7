import ODataClient.Proofs.Filter.Partition

/-! What the walk over a part of a filter asks, from left to right: whether an operator is allowed
and which entity a reference restricts. The first question that has no answer is the error of the
walk, and the answers together are the targets of the part. -/

namespace ODataClient

inductive Check
  | operator (op : Operator)
  | reference (o : Occurrence)

namespace Expr

mutual

/-- The questions about an expression under lambdas that bind `scopes`. -/
def checks (scopes : List String) : Expr → List Check
  | value _ => []
  | reference path => [.reference ⟨scopes, path⟩]
  | call _ arguments => checksOfAll scopes arguments
  | method caller name arguments =>
    checks scopes caller ++
      if isLambdaCall caller name arguments then checksOfLambda scopes arguments
      else checksOfAll scopes arguments
  | binary op left right => .operator op :: (checks scopes left ++ checks scopes right)
  | unary op operand => .operator op :: checks scopes operand
  | conversion _ inner => checks scopes inner

def checksOfAll (scopes : List String) : List Expr → List Check
  | [] => []
  | e :: r => checks scopes e ++ checksOfAll scopes r

def checksOfLambda (scopes : List String) : List Expr → List Check
  | [] => []
  | var :: body => checksOfAll (boundName var :: scopes) body

end

variable {scopes : List String}

theorem checksOfAll_eq (scopes : List String) (args : List Expr) :
    checksOfAll scopes args = args.flatMap (checks scopes) := by
  induction args with
  | nil => rw [checksOfAll, List.flatMap_nil]
  | cons e r ih => rw [checksOfAll, ih, List.flatMap_cons]

theorem checks_call (name : String) (args : List Expr) :
    (call name args).checks scopes = args.flatMap (checks scopes) := by
  rw [checks, checksOfAll_eq]

theorem checks_lambda {collection name var : String} {body : Expr}
    (h : name = "any" ∨ name = "all") :
    (method (reference collection) name [reference var, body]).checks scopes =
      [Check.reference ⟨scopes, collection⟩] ++ body.checks (var :: scopes) := by
  simp [checks, isLambdaCall_of_name h, checksOfLambda, checksOfAll, boundName, reference?]

theorem checks_method {caller : Expr} {name : String} {args : List Expr}
    (h : isLambdaCall caller name args = false) :
    (method caller name args).checks scopes =
      caller.checks scopes ++ args.flatMap (checks scopes) := by
  rw [checks, h, if_neg Bool.false_ne_true, checksOfAll_eq]

end Expr

variable {nav : Navigator} {options : FilterOptions} {root : String}

def Check.answer (nav : Navigator) (options : FilterOptions) (root : String) :
    Check → Except Error (List String)
  | .operator op =>
    if options.queryOption && !op.allowedInOption then .error (.queryOptionOperator op.keyword)
    else .ok []
  | .reference o =>
    if o.Bound then .ok []
    else (referenceTarget nav options.dialect root o.path).map fun t => [t.entity]

def answers (nav : Navigator) (options : FilterOptions) (root : String) (cs : List Check) :
    Except Error (List String) :=
  (cs.mapM (Check.answer nav options root)).map List.flatten

theorem answers_append (cs ds : List Check) :
    answers nav options root (cs ++ ds) = answers nav options root cs >>= fun ts =>
      answers nav options root ds >>= fun us => .ok (ts ++ us) := by
  rw [answers, answers, answers, mapM_append_except]
  cases cs.mapM (Check.answer nav options root) with
  | error error => rfl
  | ok ts => cases ds.mapM (Check.answer nav options root) <;> simp

theorem answers_singleton (c : Check) :
    answers nav options root [c] = c.answer nav options root := by
  rw [answers, mapM_cons_except]
  cases c.answer nav options root <;> simp

theorem answers_operator (op : Operator) {e : Expr} (h : e.operator = op) (cs : List Check) :
    answers nav options root (.operator op :: cs) =
      checkOptionOperator options.queryOption e >>= fun _ => answers nav options root cs := by
  rw [← h, ← List.singleton_append, answers_append, answers_singleton, Check.answer,
    checkOptionOperator]
  split
  · rfl
  · cases answers nav options root cs <;> rfl

theorem retargetArguments_eq_answers {scopes : List String} {args : List Expr}
    (h : ∀ e ∈ args, retarget nav options root scopes e =
      (answers nav options root (e.checks scopes)).map fun ts =>
        ⟨e.retargeted nav options.dialect root scopes, ts⟩) :
    retargetArguments nav options root scopes args =
      (answers nav options root (args.flatMap (Expr.checks scopes))).map fun ts =>
        (args.map (Expr.retargeted nav options.dialect root scopes), ts) := by
  induction args with
  | nil => rfl
  | cons e r ih =>
    rw [retargetArguments, h e (by simp), ih fun x hx => h x (by simp [hx]), List.flatMap_cons,
      answers_append]
    cases answers nav options root (e.checks scopes) with
    | error error => rfl
    | ok ts => cases answers nav options root (r.flatMap (Expr.checks scopes)) <;> rfl

theorem retarget_reference_eq_answers (scopes : List String) (path : String) :
    retarget nav options root scopes (.reference path) =
      (answers nav options root [.reference ⟨scopes, path⟩]).map fun ts =>
        ⟨(Expr.reference path).retargeted nav options.dialect root scopes, ts⟩ := by
  rw [retarget_reference, targetsOf_singleton, answers_singleton, Check.answer]

/-- The walk succeeds when all questions have answers, and fails with the first that has none. -/
theorem retarget_eq_answers (e : Expr) (scopes : List String) :
    retarget nav options root scopes e =
      (answers nav options root (e.checks scopes)).map fun ts =>
        ⟨e.retargeted nav options.dialect root scopes, ts⟩ := by
  induction e using Expr.shape_induction generalizing scopes with
  | value v => rfl
  | reference path => exact retarget_reference_eq_answers scopes path
  | call name args ih =>
    rw [retarget, retargetArguments_eq_answers fun e he => ih e he scopes, retargeted_call,
      Expr.checks_call]
    cases answers nav options root (args.flatMap (Expr.checks scopes)) <;> rfl
  | lambda collection name var body h ih =>
    rw [retarget_lambda h, retarget_reference_eq_answers, ih, retargeted_lambda h,
      Expr.checks_lambda h, answers_append]
    cases answers nav options root [.reference ⟨scopes, collection⟩] with
    | error error => rfl
    | ok ts => cases answers nav options root (body.checks (var :: scopes)) <;> rfl
  | method caller name args h hc ha =>
    rw [retarget_method h, hc, retargetArguments_eq_answers fun e he => ha e he scopes,
      retargeted_method h, Expr.checks_method h, answers_append]
    cases answers nav options root (caller.checks scopes) with
    | error error => rfl
    | ok ts => cases answers nav options root (args.flatMap (Expr.checks scopes)) <;> rfl
  | binary op left right hl hr =>
    rw [retarget, hl, hr, Expr.checks, answers_operator op (e := .binary op left right) rfl,
      answers_append]
    cases checkOptionOperator options.queryOption (.binary op left right) with
    | error error => rfl
    | ok _ =>
      cases answers nav options root (left.checks scopes) with
      | error error => rfl
      | ok ts => cases answers nav options root (right.checks scopes) <;> rfl
  | unary op operand ih =>
    rw [retarget, ih, Expr.checks, answers_operator op (e := .unary op operand) rfl]
    cases checkOptionOperator options.queryOption (.unary op operand) with
    | error error => rfl
    | ok _ => cases answers nav options root (operand.checks scopes) <;> rfl
  | conversion target inner ih =>
    cases hv : inner.value? with
    | none =>
      rw [retarget, hv, retargeted_conversion hv, Expr.checks]
      dsimp only
      rw [ih]
      cases answers nav options root (inner.checks scopes) <;> rfl
    | some v =>
      obtain rfl := Expr.eq_value_of_value? hv
      rfl

end ODataClient
