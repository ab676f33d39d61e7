import ODataClient.Filter.Partition
import ODataClient.Proofs.Expr.Occurrences
import ODataClient.Proofs.Outcome

/-! The walk over one part of a filter. It collects the targets of the free references
from left to right, and gives the part back with these references replaced and with the
conversions over literals carried out. -/

namespace ODataClient

namespace Expr

mutual

/-- Each conversion directly over a literal gives the literal that it converts to, if it can. -/
def coerced : Expr → Expr
  | value v => value v
  | reference path => reference path
  | call name arguments => call name (coercedAll arguments)
  | method caller name arguments => method (coerced caller) name (coercedAll arguments)
  | binary op left right => binary op (coerced left) (coerced right)
  | unary op operand => unary op (coerced operand)
  | conversion target (value v) =>
    match v.convert? target with
    | some w => value w
    | none => conversion target (value v.underlying)
  | conversion target inner => conversion target (coerced inner)

def coercedAll : List Expr → List Expr
  | [] => []
  | e :: r => coerced e :: coercedAll r

end

theorem coercedAll_eq (args : List Expr) : coercedAll args = args.map coerced := by
  induction args with
  | nil => rw [coercedAll, List.map_nil]
  | cons e r ih => rw [coercedAll, ih, List.map_cons]

theorem coerced_literal (target : ValueType) (v : Value) :
    (conversion target (value v)).coerced = coerceLiteral target v := by
  rw [coerced]
  rfl

theorem coerced_conversion {target : ValueType} {inner : Expr} (h : inner.value? = none) :
    (conversion target inner).coerced = conversion target inner.coerced := by
  cases inner with
  | value v => simp [value?] at h
  | _ => simp [coerced]

theorem coerced_lambda (collection name var : String) (body : Expr) :
    (method (reference collection) name [reference var, body]).coerced =
      method (reference collection) name [reference var, body.coerced] := by
  simp [coerced, coercedAll]

theorem eq_value_of_value? {e : Expr} {v : Value} (h : e.value? = some v) : e = value v := by
  cases e with
  | value w => rw [Option.some.inj h]
  | _ => simp [value?] at h

theorem value?_mapScoped (f : String → String) (scopes : List String) (e : Expr) :
    (e.mapScoped f scopes).value? = e.value? := by
  cases e with
  | reference path => rw [mapScoped_reference]; rfl
  | method caller name args =>
    rw [mapScoped]
    split <;> rfl
  | _ => simp [mapScoped, value?]

theorem reference?_coerced (e : Expr) : e.coerced.reference? = e.reference? := by
  cases e with
  | conversion target inner =>
    cases inner with
    | value v =>
      rw [coerced]
      split <;> rfl
    | _ => rfl
  | _ => rfl

theorem isLambdaCall_coerced (caller : Expr) (name : String) (args : List Expr) :
    isLambdaCall caller.coerced name (args.map coerced) = isLambdaCall caller name args := by
  have hhead : (args.map coerced).head?.bind reference? = args.head?.bind reference? := by
    cases args with
    | nil => rfl
    | cons e r => exact reference?_coerced e
  rw [isLambdaCall, isLambdaCall, reference?_coerced, List.length_map, hhead]

theorem occurrences_coerceLiteral (scopes : List String) (target : ValueType) (v : Value) :
    (coerceLiteral target v).occurrences scopes = [] := by
  rw [coerceLiteral]
  split <;> simp [occurrences]

theorem occurrences_coerced (e : Expr) (scopes : List String) :
    e.coerced.occurrences scopes = e.occurrences scopes := by
  induction e using shape_induction generalizing scopes with
  | value v => rw [coerced]
  | reference path => rw [coerced]
  | call name args ih =>
    rw [coerced, occurrences, occurrences, coercedAll_eq, occurrencesOfAll_eq,
      occurrencesOfAll_eq, List.flatMap_map]
    exact List.flatMap_congr fun e he => ih e he scopes
  | lambda collection name var body h ih =>
    have hc : (method (reference collection) name [reference var, body]).coerced =
        method (reference collection) name [reference var, body.coerced] := by
      simp [coerced, coercedAll]
    rw [hc, occurrences_lambda h, occurrences_lambda h, ih]
  | method caller name args h hc ha =>
    have h' := (isLambdaCall_coerced caller name args).trans h
    rw [coerced, coercedAll_eq, occurrences_method h', occurrences_method h, hc, List.flatMap_map]
    exact congrArg _ (List.flatMap_congr fun e he => ha e he scopes)
  | binary op left right hl hr => simp only [coerced, occurrences, hl, hr]
  | unary op operand ih => simp only [coerced, occurrences, ih]
  | conversion target inner ih =>
    cases hv : inner.value? with
    | none => rw [coerced_conversion hv, occurrences, occurrences, ih]
    | some v =>
      obtain rfl := eq_value_of_value? hv
      rw [coerced_literal, occurrences_coerceLiteral]
      simp [occurrences]

theorem mapScoped_coerceLiteral (f : String → String) (scopes : List String) (target : ValueType)
    (v : Value) : (coerceLiteral target v).mapScoped f scopes = coerceLiteral target v := by
  rw [coerceLiteral]
  split <;> simp only [mapScoped]

/-- Literals hold no references, so conversions can be carried out before or after. -/
theorem coerced_mapScoped (f : String → String) (scopes : List String) (e : Expr) :
    (e.mapScoped f scopes).coerced = e.coerced.mapScoped f scopes := by
  induction e using shape_induction generalizing scopes with
  | value v => simp only [mapScoped, coerced]
  | reference path => rw [mapScoped_reference, coerced, coerced, mapScoped_reference]
  | call name args ih =>
    have hargs := List.map_congr_left fun e he => ih e he scopes
    simp only [mapScoped, coerced, mapArguments_eq, coercedAll_eq, List.map_map,
      Function.comp_def, hargs]
  | lambda collection name var body hname ih =>
    rw [mapScoped_lambda hname, mapScoped_reference, coerced_lambda, ih, coerced_lambda,
      mapScoped_lambda hname, mapScoped_reference]
  | method caller name args hcall hc ha =>
    have hargs := List.map_congr_left fun e he => ha e he scopes
    rw [mapScoped_method hcall, coerced, coercedAll_eq, coerced, coercedAll_eq,
      mapScoped_method ((isLambdaCall_coerced caller name args).trans hcall), hc, List.map_map,
      List.map_map]
    exact congrArg _ hargs
  | binary op left right hl hr => simp only [mapScoped, coerced, hl, hr]
  | unary op operand ih => simp only [mapScoped, coerced, ih]
  | conversion target inner ih =>
    cases hv : inner.value? with
    | none =>
      rw [mapScoped, coerced_conversion hv, mapScoped,
        coerced_conversion ((value?_mapScoped f scopes inner).trans hv), ih]
    | some v =>
      obtain rfl := eq_value_of_value? hv
      rw [mapScoped, mapScoped, coerced_literal, mapScoped_coerceLiteral]

end Expr

def freePaths (os : List Occurrence) : List String :=
  (os.filter fun o => ¬ o.Bound).map (·.path)

theorem freePaths_append (os ps : List Occurrence) :
    freePaths (os ++ ps) = freePaths os ++ freePaths ps := by simp [freePaths]

def keptPath (nav : Navigator) (dialect : Dialect) (root path : String) : String :=
  match referenceTarget nav dialect root path with
  | .ok t => t.kept
  | .error _ => path

variable {nav : Navigator} {options : FilterOptions} {root : String}

def targetsOf (nav : Navigator) (dialect : Dialect) (root : String) (os : List Occurrence) :
    Except Error (List String) :=
  (freePaths os).mapM fun path => (referenceTarget nav dialect root path).map (·.entity)

theorem targetsOf_append (dialect : Dialect) (os ps : List Occurrence) :
    targetsOf nav dialect root (os ++ ps) = targetsOf nav dialect root os >>= fun ts =>
      targetsOf nav dialect root ps >>= fun us => .ok (ts ++ us) := by
  rw [targetsOf, freePaths_append, mapM_append_except]
  rfl

def Expr.retargeted (nav : Navigator) (dialect : Dialect) (root : String) (scopes : List String)
    (e : Expr) : Expr :=
  (e.mapScoped (keptPath nav dialect root) scopes).coerced

theorem retargetArguments_eq {scopes : List String} {args : List Expr}
    (h : ∀ e ∈ args, retarget nav options root scopes e =
      (targetsOf nav options.dialect root (e.occurrences scopes)).map fun ts =>
        ⟨e.retargeted nav options.dialect root scopes, ts⟩) :
    retargetArguments nav options root scopes args =
      (targetsOf nav options.dialect root (args.flatMap (Expr.occurrences scopes))).map fun ts =>
        (args.map (Expr.retargeted nav options.dialect root scopes), ts) := by
  induction args with
  | nil => rfl
  | cons e r ih =>
    rw [retargetArguments, h e (by simp), ih fun x hx => h x (by simp [hx]), List.flatMap_cons,
      targetsOf_append]
    cases targetsOf nav options.dialect root (e.occurrences scopes) with
    | error error => rfl
    | ok ts => cases targetsOf nav options.dialect root (r.flatMap (Expr.occurrences scopes)) <;> rfl

theorem targetsOf_singleton (dialect : Dialect) (o : Occurrence) :
    targetsOf nav dialect root [o] = if o.Bound then .ok [] else
      (referenceTarget nav dialect root o.path).map fun t => [t.entity] := by
  by_cases h : o.Bound
  · simp [targetsOf, freePaths, h]
  · rw [targetsOf, freePaths, if_neg h]
    simp only [List.filter_cons, h, not_false_eq_true, decide_true, if_true, List.filter_nil,
      List.map_cons, List.map_nil, mapM_cons_except, List.mapM_nil]
    cases referenceTarget nav dialect root o.path <;> rfl

theorem retarget_reference (scopes : List String) (path : String) :
    retarget nav options root scopes (.reference path) =
      (targetsOf nav options.dialect root [⟨scopes, path⟩]).map fun ts =>
        ⟨(Expr.reference path).retargeted nav options.dialect root scopes, ts⟩ := by
  rw [retarget, targetsOf_singleton, Expr.retargeted, Expr.mapScoped_reference, Expr.coerced]
  by_cases h : (Occurrence.mk scopes path).Bound
  · rw [if_pos h, if_pos (show headSegment path ∈ scopes from h), Occurrence.rename_of_bound h]
    rfl
  · rw [if_neg h, if_neg (show headSegment path ∉ scopes from h), Occurrence.rename_of_free h,
      keptPath]
    cases referenceTarget nav options.dialect root path <;> rfl

theorem retarget_method {scopes : List String} {caller : Expr} {name : String} {args : List Expr}
    (h : Expr.isLambdaCall caller name args = false) :
    retarget nav options root scopes (.method caller name args) =
      retarget nav options root scopes caller >>= fun c =>
        retargetArguments nav options root scopes args >>= fun r =>
          .ok ⟨.method c.expr name r.1, c.targets ++ r.2⟩ := by
  simp only [retarget, h]
  rfl

theorem retarget_lambdaCall {scopes : List String} {caller : Expr} {name : String}
    {args : List Expr} (h : Expr.isLambdaCall caller name args = true) :
    retarget nav options root scopes (.method caller name args) =
      retarget nav options root scopes caller >>= fun c =>
        retargetLambda nav options root scopes args >>= fun r =>
          .ok ⟨.method c.expr name r.1, c.targets ++ r.2⟩ := by
  simp only [retarget, h]
  rfl

theorem retarget_lambda {scopes : List String} {collection name var : String} {body : Expr}
    (h : name = "any" ∨ name = "all") :
    retarget nav options root scopes (.method (.reference collection) name [.reference var, body]) =
      retarget nav options root scopes (.reference collection) >>= fun c =>
        retarget nav options root (var :: scopes) body >>= fun b =>
          .ok ⟨.method c.expr name [.reference var, b.expr], c.targets ++ b.targets⟩ := by
  rw [retarget_lambdaCall (Expr.isLambdaCall_of_name h), retargetLambda, retargetArguments,
    retargetArguments]
  cases retarget nav options root scopes (.reference collection) with
  | error error => rfl
  | ok c =>
    have hv : (Expr.reference var).boundName = var := rfl
    rw [hv]
    cases retarget nav options root (var :: scopes) body with
    | error error => rfl
    | ok b => simp

section Retargeted

variable {dialect : Dialect} {scopes : List String}

theorem retargeted_call (name : String) (args : List Expr) :
    (Expr.call name args).retargeted nav dialect root scopes =
      .call name (args.map (Expr.retargeted nav dialect root scopes)) := by
  rw [Expr.retargeted, Expr.mapScoped, Expr.mapArguments_eq, Expr.coerced, Expr.coercedAll_eq,
    List.map_map]
  rfl

theorem retargeted_method {caller : Expr} {name : String} {args : List Expr}
    (h : Expr.isLambdaCall caller name args = false) :
    (Expr.method caller name args).retargeted nav dialect root scopes =
      .method (caller.retargeted nav dialect root scopes) name
        (args.map (Expr.retargeted nav dialect root scopes)) := by
  rw [Expr.retargeted, Expr.mapScoped_method h, Expr.coerced, Expr.coercedAll_eq, List.map_map]
  rfl

theorem retargeted_lambda {collection name var : String} {body : Expr}
    (h : name = "any" ∨ name = "all") :
    (Expr.method (.reference collection) name [.reference var, body]).retargeted nav dialect root
        scopes =
      .method ((Expr.reference collection).retargeted nav dialect root scopes) name
        [.reference var, body.retargeted nav dialect root (var :: scopes)] := by
  rw [Expr.retargeted, Expr.mapScoped_lambda h, Expr.coerced, Expr.coercedAll_eq]
  rfl

theorem retargeted_conversion {target : ValueType} {inner : Expr} (h : inner.value? = none) :
    (Expr.conversion target inner).retargeted nav dialect root scopes =
      .conversion target (inner.retargeted nav dialect root scopes) := by
  rw [Expr.retargeted, Expr.mapScoped,
    Expr.coerced_conversion ((Expr.value?_mapScoped _ scopes inner).trans h)]
  rfl

end Retargeted

/-- The walk succeeds when every free reference has a target; then it has collected these
targets and replaced each reference by what is kept of it. -/
theorem retarget_eq (hq : options.queryOption = false) (e : Expr) (scopes : List String) :
    retarget nav options root scopes e =
      (targetsOf nav options.dialect root (e.occurrences scopes)).map fun ts =>
        ⟨e.retargeted nav options.dialect root scopes, ts⟩ := by
  induction e using Expr.shape_induction generalizing scopes with
  | value v => rfl
  | reference path => exact retarget_reference scopes path
  | call name args ih =>
    rw [retarget, retargetArguments_eq fun e he => ih e he scopes, retargeted_call,
      Expr.occurrences, Expr.occurrencesOfAll_eq]
    cases targetsOf nav options.dialect root (args.flatMap (Expr.occurrences scopes)) <;> rfl
  | lambda collection name var body h ih =>
    rw [retarget_lambda h, retarget_reference, ih, retargeted_lambda h, Expr.occurrences_lambda h,
      ← List.singleton_append (l := body.occurrences (var :: scopes)), targetsOf_append]
    cases targetsOf nav options.dialect root [⟨scopes, collection⟩] with
    | error error => rfl
    | ok ts => cases targetsOf nav options.dialect root (body.occurrences (var :: scopes)) <;> rfl
  | method caller name args h hc ha =>
    rw [retarget_method h, hc, retargetArguments_eq fun e he => ha e he scopes,
      retargeted_method h, Expr.occurrences_method h, targetsOf_append]
    cases targetsOf nav options.dialect root (caller.occurrences scopes) with
    | error error => rfl
    | ok ts =>
      cases targetsOf nav options.dialect root (args.flatMap (Expr.occurrences scopes)) <;> rfl
  | binary op left right hl hr =>
    rw [retarget, hq, hl, hr, Expr.occurrences, targetsOf_append]
    cases targetsOf nav options.dialect root (left.occurrences scopes) with
    | error error => rfl
    | ok ts => cases targetsOf nav options.dialect root (right.occurrences scopes) <;> rfl
  | unary op operand ih =>
    rw [retarget, hq, ih, Expr.occurrences]
    cases targetsOf nav options.dialect root (operand.occurrences scopes) <;> rfl
  | conversion target inner ih =>
    cases hv : inner.value? with
    | none =>
      rw [retarget, hv, retargeted_conversion hv, Expr.occurrences]
      dsimp only
      rw [ih]
      cases targetsOf nav options.dialect root (inner.occurrences scopes) <;> rfl
    | some v =>
      obtain rfl := Expr.eq_value_of_value? hv
      rfl

end ODataClient
