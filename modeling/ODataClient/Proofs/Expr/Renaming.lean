import ODataClient.Proofs.Expr.Occurrences

/-! Replacements done one after the other. A reference is replaced for as long as no lambda around
it binds the path that it has come to, so where it ends depends on the replacements, its path and
the variables around it alone. -/

namespace ODataClient

namespace Occurrence

variable {o : Occurrence}

def renameAll (fs : List (String → String)) (o : Occurrence) : Occurrence :=
  fs.foldl (fun o f => o.rename f) o

/-- The paths that a reference is given one after the other. -/
def passes : List (String → String) → String → List String
  | [], _ => []
  | f :: fs, path => f path :: passes fs (f path)

theorem renameAll_of_bound (fs : List (String → String)) (h : o.Bound) : o.renameAll fs = o := by
  induction fs with
  | nil => rfl
  | cons f fs ih =>
    rw [renameAll, List.foldl_cons, rename_of_bound h]
    exact ih

theorem scopes_renameAll (fs : List (String → String)) (o : Occurrence) :
    (o.renameAll fs).scopes = o.scopes := by
  induction fs generalizing o with
  | nil => rfl
  | cons f fs ih => exact ih (o.rename f)

theorem bound_renameAll_iff (fs : List (String → String)) (h : ¬ o.Bound) :
    (o.renameAll fs).Bound ↔ ∃ path ∈ passes fs o.path, headSegment path ∈ o.scopes := by
  induction fs generalizing o with
  | nil => simpa [renameAll, passes] using h
  | cons f fs ih =>
    have hstep : o.renameAll (f :: fs) = (⟨o.scopes, f o.path⟩ : Occurrence).renameAll fs := by
      rw [renameAll, List.foldl_cons, rename_of_free h]
      rfl
    rw [hstep, passes, List.exists_mem_cons_iff]
    by_cases hf : headSegment (f o.path) ∈ o.scopes
    · have hb : Bound ⟨o.scopes, f o.path⟩ := hf
      rw [renameAll_of_bound fs hb]
      exact iff_of_true hb (Or.inl hf)
    · have hb : ¬ Bound ⟨o.scopes, f o.path⟩ := hf
      rw [ih hb]
      exact ⟨Or.inr, fun h => h.resolve_left hf⟩

theorem binder?_renameAll_iff (fs : List (String → String)) (o : Occurrence) :
    (o.renameAll fs).binder? = o.binder? ↔
      (¬ o.Bound → ∀ path ∈ passes fs o.path, headSegment path ∉ o.scopes) := by
  by_cases h : o.Bound
  · simp [renameAll_of_bound fs h, h]
  · rw [binder?_eq_none.2 h, binder?_eq_none, bound_renameAll_iff fs h]
    simp [h]

end Occurrence

namespace Expr

variable {scopes : List String}

theorem mapScoped_id (scopes : List String) (e : Expr) : e.mapScoped id scopes = e := by
  induction e using shape_induction generalizing scopes with
  | value v => simp [mapScoped]
  | reference path => simp [mapScoped]
  | call name args ih =>
    rw [mapScoped, mapArguments_eq, List.map_congr_left fun e he => ih e he scopes, List.map_id']
  | lambda collection name var body h ih =>
    rw [mapScoped_lambda h, ih]
    simp [mapScoped]
  | method caller name args h hc ha =>
    rw [mapScoped_method h, hc, List.map_congr_left fun e he => ha e he scopes, List.map_id']
  | binary op left right hl hr => simp only [mapScoped, hl, hr]
  | unary op operand ih => simp only [mapScoped, ih]
  | conversion target inner ih => simp only [mapScoped, ih]

/-- Replacements that agree on the free references of an expression give the same one. -/
theorem mapScoped_congr {f g : String → String} {e : Expr} {scopes : List String}
    (h : ∀ o ∈ e.occurrences scopes, (o.rename f).path = (o.rename g).path) :
    e.mapScoped f scopes = e.mapScoped g scopes := by
  induction e using shape_induction generalizing scopes with
  | value v => simp only [mapScoped]
  | reference path =>
    rw [mapScoped_reference, mapScoped_reference, h ⟨scopes, path⟩ (by simp [occurrences])]
  | call name args ih =>
    rw [occurrences, occurrencesOfAll_eq] at h
    have hargs := List.map_congr_left fun e he =>
      ih e he fun o ho => h o (List.mem_flatMap.2 ⟨e, he, ho⟩)
    rw [mapScoped, mapScoped, mapArguments_eq, mapArguments_eq, hargs]
  | lambda collection name var body hname ih =>
    rw [occurrences_lambda hname] at h
    rw [mapScoped_lambda hname, mapScoped_lambda hname, mapScoped_reference, mapScoped_reference,
      h _ List.mem_cons_self, ih fun o ho => h o (List.mem_cons_of_mem _ ho)]
  | method caller name args hcall hc ha =>
    rw [occurrences_method hcall] at h
    have hargs := List.map_congr_left fun e he =>
      ha e he fun o ho => h o (List.mem_append_right _ (List.mem_flatMap.2 ⟨e, he, ho⟩))
    rw [mapScoped_method hcall, mapScoped_method hcall,
      hc fun o ho => h o (List.mem_append_left _ ho), hargs]
  | binary op left right hl hr =>
    rw [occurrences] at h
    rw [mapScoped, mapScoped, hl fun o ho => h o (List.mem_append_left _ ho),
      hr fun o ho => h o (List.mem_append_right _ ho)]
  | unary op operand ih =>
    rw [occurrences] at h
    rw [mapScoped, mapScoped, ih h]
  | conversion target inner ih =>
    rw [occurrences] at h
    rw [mapScoped, mapScoped, ih h]

/-- The replacements done one after the other, under lambdas that bind `scopes`. -/
def mapAll (fs : List (String → String)) (scopes : List String) (e : Expr) : Expr :=
  fs.foldl (fun e f => e.mapScoped f scopes) e

theorem mapAll_value (fs : List (String → String)) (scopes : List String) (v : Value) :
    (value v).mapAll fs scopes = value v := by
  induction fs with
  | nil => rfl
  | cons f fs ih => simpa only [mapAll, List.foldl_cons, mapScoped] using ih

theorem mapAll_reference (fs : List (String → String)) (scopes : List String) (path : String) :
    (reference path).mapAll fs scopes =
      reference ((Occurrence.mk scopes path).renameAll fs).path := by
  induction fs generalizing path with
  | nil => rfl
  | cons f fs ih =>
    rw [mapAll, List.foldl_cons, mapScoped_reference]
    exact ih _

theorem mapAll_call (fs : List (String → String)) (scopes : List String) (name : String)
    (args : List Expr) :
    (call name args).mapAll fs scopes = call name (args.map (mapAll fs scopes)) := by
  induction fs generalizing args with
  | nil => exact congrArg (call name) (List.map_id args).symm
  | cons f fs ih =>
    rw [mapAll, List.foldl_cons, mapScoped, mapArguments_eq]
    exact (ih _).trans (by rw [List.map_map]; rfl)

theorem mapAll_lambda (fs : List (String → String)) {collection name var : String} {body : Expr}
    (h : name = "any" ∨ name = "all") :
    (method (reference collection) name [reference var, body]).mapAll fs scopes =
      method ((reference collection).mapAll fs scopes) name
        [reference var, body.mapAll fs (var :: scopes)] := by
  induction fs generalizing collection body with
  | nil => rfl
  | cons f fs ih =>
    rw [mapAll, List.foldl_cons, mapScoped_lambda h, mapScoped_reference]
    refine ih.trans ?_
    rw [mapAll_reference, mapAll_reference]
    rfl

theorem mapAll_method (fs : List (String → String)) {caller : Expr} {name : String}
    {args : List Expr} (h : isLambdaCall caller name args = false) :
    (method caller name args).mapAll fs scopes =
      method (caller.mapAll fs scopes) name (args.map (mapAll fs scopes)) := by
  induction fs generalizing caller args with
  | nil => exact congrArg (method caller name) (List.map_id args).symm
  | cons f fs ih =>
    rw [mapAll, List.foldl_cons, mapScoped_method h]
    refine (ih ((isLambdaCall_mapScoped f scopes caller name args).trans h)).trans ?_
    rw [List.map_map]
    rfl

theorem mapAll_binary (fs : List (String → String)) (scopes : List String) (op : Operator)
    (left right : Expr) : (binary op left right).mapAll fs scopes =
      binary op (left.mapAll fs scopes) (right.mapAll fs scopes) := by
  induction fs generalizing left right with
  | nil => rfl
  | cons f fs ih => exact ih _ _

theorem mapAll_unary (fs : List (String → String)) (scopes : List String) (op : Operator)
    (operand : Expr) :
    (unary op operand).mapAll fs scopes = unary op (operand.mapAll fs scopes) := by
  induction fs generalizing operand with
  | nil => rfl
  | cons f fs ih => exact ih _

theorem isLambdaCall_mapAll (fs : List (String → String)) (scopes : List String) (caller : Expr)
    (name : String) (args : List Expr) :
    isLambdaCall (caller.mapAll fs scopes) name (args.map (mapAll fs scopes)) =
      isLambdaCall caller name args := by
  induction fs generalizing caller args with
  | nil => exact congrArg (isLambdaCall caller name) (List.map_id args)
  | cons f fs ih =>
    have hstep := ih (caller.mapScoped f scopes) (args.map (mapScoped f scopes))
    rw [List.map_map] at hstep
    exact hstep.trans (isLambdaCall_mapScoped f scopes caller name args)

theorem operator_mapScoped (f : String → String) (scopes : List String) (e : Expr) :
    (e.mapScoped f scopes).operator = e.operator := by
  cases e with
  | reference path => rw [mapScoped_reference]; rfl
  | method caller name args =>
    rw [mapScoped]
    split <;> rfl
  | value v | call name args | binary op left right | unary op operand | conversion target inner =>
    simp [mapScoped, operator]

theorem operator_mapAll (fs : List (String → String)) (scopes : List String) (e : Expr) :
    (e.mapAll fs scopes).operator = e.operator := by
  induction fs generalizing e with
  | nil => rfl
  | cons f fs ih => exact (ih _).trans (operator_mapScoped f scopes e)

end Expr

end ODataClient
