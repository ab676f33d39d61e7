import Mathlib.Data.List.Basic
import ODataClient.Expr.References

/-! The references of an expression, each with the variables of the lambdas around it.
Replacing references changes their paths only: every reference stays where it is, under
the same lambdas. -/

namespace ODataClient

namespace Expr

theorem isLambdaCall_iff {caller : Expr} {name : String} {args : List Expr} :
    isLambdaCall caller name args = true ↔
      ∃ collection var body, caller = reference collection ∧ (name = "any" ∨ name = "all") ∧
        args = [reference var, body] := by
  constructor
  · intro h
    simp only [isLambdaCall, Bool.and_eq_true, Bool.or_eq_true, beq_iff_eq] at h
    obtain ⟨⟨⟨hname, hcaller⟩, hlength⟩, hvar⟩ := h
    obtain ⟨var, body, rfl⟩ := List.length_eq_two.1 hlength
    cases caller with
    | reference collection =>
      cases var with
      | reference var => exact ⟨collection, var, body, rfl, hname, rfl⟩
      | _ => simp [reference?] at hvar
    | _ => simp [reference?] at hcaller
  · rintro ⟨collection, var, body, rfl, hname, rfl⟩
    rcases hname with rfl | rfl <;> rfl

theorem isLambdaCall_of_name {collection name var : String} {body : Expr}
    (h : name = "any" ∨ name = "all") :
    isLambdaCall (reference collection) name [reference var, body] = true :=
  isLambdaCall_iff.2 ⟨collection, var, body, rfl, h, rfl⟩

@[elab_as_elim] theorem shape_induction {P : Expr → Prop}
    (value : ∀ v, P (value v)) (reference : ∀ path, P (reference path))
    (call : ∀ name args, (∀ e ∈ args, P e) → P (call name args))
    (lambda : ∀ collection name var body, (name = "any" ∨ name = "all") → P body →
      P (method (.reference collection) name [.reference var, body]))
    (method : ∀ caller name args, isLambdaCall caller name args = false → P caller →
      (∀ e ∈ args, P e) → P (method caller name args))
    (binary : ∀ op left right, P left → P right → P (binary op left right))
    (unary : ∀ op operand, P operand → P (unary op operand))
    (conversion : ∀ target inner, P inner → P (conversion target inner)) (e : Expr) : P e := by
  refine @Expr.rec P (fun l => ∀ e ∈ l, P e) value reference call
    (fun caller name args hc ha => ?_) binary unary conversion
    (fun e he => absurd he List.not_mem_nil) (fun e l he hl x hx => ?_) e
  · cases h : isLambdaCall caller name args with
    | false => exact method caller name args h hc ha
    | true =>
      obtain ⟨collection, var, body, rfl, hname, rfl⟩ := isLambdaCall_iff.1 h
      exact lambda collection name var body hname (ha body (by simp))
  · rcases List.mem_cons.1 hx with rfl | hx
    · exact he
    · exact hl x hx

end Expr

/-- A reference inside an expression, with the variables of the lambdas around it, the
innermost first. -/
structure Occurrence where
  scopes : List String
  path : String
  deriving DecidableEq

namespace Occurrence

def Bound (o : Occurrence) : Prop := headSegment o.path ∈ o.scopes

instance (o : Occurrence) : Decidable o.Bound := inferInstanceAs (Decidable (_ ∈ _))

/-- Which of the lambdas around binds the reference, counted from the inside. -/
def binder? (o : Occurrence) : Option Nat := o.scopes.findIdx? fun v => v == headSegment o.path

def rename (f : String → String) (o : Occurrence) : Occurrence :=
  ⟨o.scopes, if o.Bound then o.path else f o.path⟩

theorem rename_of_bound {f : String → String} {o : Occurrence} (h : o.Bound) :
    o.rename f = o := by rw [rename, if_pos h]

theorem rename_of_free {f : String → String} {o : Occurrence} (h : ¬ o.Bound) :
    o.rename f = ⟨o.scopes, f o.path⟩ := by rw [rename, if_neg h]

theorem rename_id (o : Occurrence) : o.rename id = o := by simp [rename]

theorem binder?_eq_none {o : Occurrence} : o.binder? = none ↔ ¬ o.Bound := by
  rw [binder?, List.findIdx?_eq_none_iff, Bound]
  constructor
  · intro h hm
    simpa using h _ hm
  · intro h v hv
    exact beq_false_of_ne fun he => h (he ▸ hv)

end Occurrence

namespace Expr

mutual

/-- The references from left to right, under lambdas that bind `scopes`; the range
variables of lambdas are none. -/
def occurrences (scopes : List String) : Expr → List Occurrence
  | value _ => []
  | reference path => [⟨scopes, path⟩]
  | call _ arguments => occurrencesOfAll scopes arguments
  | method caller name arguments =>
    occurrences scopes caller ++
      if isLambdaCall caller name arguments then occurrencesOfLambda scopes arguments
      else occurrencesOfAll scopes arguments
  | binary _ left right => occurrences scopes left ++ occurrences scopes right
  | unary _ operand => occurrences scopes operand
  | conversion _ inner => occurrences scopes inner

def occurrencesOfAll (scopes : List String) : List Expr → List Occurrence
  | [] => []
  | e :: r => occurrences scopes e ++ occurrencesOfAll scopes r

def occurrencesOfLambda (scopes : List String) : List Expr → List Occurrence
  | [] => []
  | var :: body => occurrencesOfAll (boundName var :: scopes) body

end

variable {f : String → String} {scopes : List String}

theorem occurrencesOfAll_eq (scopes : List String) (args : List Expr) :
    occurrencesOfAll scopes args = args.flatMap (occurrences scopes) := by
  induction args with
  | nil => rw [occurrencesOfAll, List.flatMap_nil]
  | cons e r ih => rw [occurrencesOfAll, ih, List.flatMap_cons]

theorem occurrences_lambda {collection name var : String} {body : Expr}
    (h : name = "any" ∨ name = "all") :
    (method (reference collection) name [reference var, body]).occurrences scopes =
      ⟨scopes, collection⟩ :: body.occurrences (var :: scopes) := by
  simp [occurrences, isLambdaCall_of_name h, occurrencesOfLambda, occurrencesOfAll, boundName,
    reference?]

theorem occurrences_method {caller : Expr} {name : String} {args : List Expr}
    (h : isLambdaCall caller name args = false) :
    (method caller name args).occurrences scopes =
      caller.occurrences scopes ++ args.flatMap (occurrences scopes) := by
  rw [occurrences, h, if_neg Bool.false_ne_true, occurrencesOfAll_eq]

theorem mapArguments_eq (f : String → String) (scopes : List String) (args : List Expr) :
    mapArguments f scopes args = args.map (mapScoped f scopes) := by
  induction args with
  | nil => rw [mapArguments, List.map_nil]
  | cons e r ih => rw [mapArguments, ih, List.map_cons]

theorem mapScoped_reference (f : String → String) (scopes : List String) (path : String) :
    (reference path).mapScoped f scopes = reference ((Occurrence.mk scopes path).rename f).path := by
  by_cases h : (Occurrence.mk scopes path).Bound
  · rw [Occurrence.rename_of_bound h, mapScoped, if_pos (show headSegment path ∈ scopes from h)]
  · rw [Occurrence.rename_of_free h, mapScoped, if_neg (show headSegment path ∉ scopes from h)]

theorem mapScoped_lambda {collection name var : String} {body : Expr}
    (h : name = "any" ∨ name = "all") :
    (method (reference collection) name [reference var, body]).mapScoped f scopes =
      method ((reference collection).mapScoped f scopes) name
        [reference var, body.mapScoped f (var :: scopes)] := by
  simp [mapScoped, isLambdaCall_of_name h, mapLambda, mapArguments, boundName, reference?]

theorem mapScoped_method {caller : Expr} {name : String} {args : List Expr}
    (h : isLambdaCall caller name args = false) :
    (method caller name args).mapScoped f scopes =
      method (caller.mapScoped f scopes) name (args.map (mapScoped f scopes)) := by
  rw [mapScoped, h, if_neg Bool.false_ne_true, mapArguments_eq]

theorem isReference_mapScoped (f : String → String) (scopes : List String) (e : Expr) :
    (e.mapScoped f scopes).reference?.isSome = e.reference?.isSome := by
  cases e with
  | reference path => rw [mapScoped_reference]; rfl
  | method caller name args =>
    rw [mapScoped]
    split <;> rfl
  | _ => simp [mapScoped, reference?]

theorem isLambdaCall_mapScoped (f : String → String) (scopes : List String) (caller : Expr)
    (name : String) (args : List Expr) :
    isLambdaCall (caller.mapScoped f scopes) name (args.map (mapScoped f scopes)) =
      isLambdaCall caller name args := by
  have hhead : ((args.map (mapScoped f scopes)).head?.bind reference?).isSome =
      (args.head?.bind reference?).isSome := by
    cases args with
    | nil => rfl
    | cons e r => exact isReference_mapScoped f scopes e
  rw [isLambdaCall, isLambdaCall, isReference_mapScoped, List.length_map, hhead]

theorem occurrences_mapScoped (f : String → String) (e : Expr) (scopes : List String) :
    (e.mapScoped f scopes).occurrences scopes =
      (e.occurrences scopes).map (Occurrence.rename f) := by
  induction e using shape_induction generalizing scopes with
  | value v => simp [mapScoped, occurrences]
  | reference path =>
    rw [mapScoped_reference, occurrences, occurrences, List.map_singleton]
    rfl
  | call name args ih =>
    rw [mapScoped, occurrences, occurrences, mapArguments_eq, occurrencesOfAll_eq,
      occurrencesOfAll_eq, List.flatMap_map, List.map_flatMap]
    exact List.flatMap_congr fun e he => ih e he scopes
  | lambda collection name var body h ih =>
    rw [mapScoped_lambda h, mapScoped_reference, occurrences_lambda h, occurrences_lambda h, ih,
      List.map_cons]
    rfl
  | method caller name args h hc ha =>
    have h' := (isLambdaCall_mapScoped f scopes caller name args).trans h
    rw [mapScoped_method h, occurrences_method h', occurrences_method h, hc, List.flatMap_map,
      List.map_append, List.map_flatMap]
    exact congrArg _ (List.flatMap_congr fun e he => ha e he scopes)
  | binary op left right hl hr => simp only [mapScoped, occurrences, hl, hr, List.map_append]
  | unary op operand ih => simp only [mapScoped, occurrences, ih]
  | conversion target inner ih => simp only [mapScoped, occurrences, ih]

end Expr

end ODataClient
