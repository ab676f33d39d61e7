import ODataClient.Proofs.Filter.Retargeting

/-! Conversions over literals. Carrying out the conversions of an expression takes each one that
stands directly over a literal away when the literal can be converted. One that stands over another
conversion comes to stand over the literal that this one gives, and is left there. -/

namespace ODataClient

namespace Expr

mutual

/-- The conversions of an expression, each with what it stands over. -/
def conversions : Expr → List (ValueType × Expr)
  | value _ => []
  | reference _ => []
  | call _ arguments => conversionsOfAll arguments
  | method caller _ arguments => conversions caller ++ conversionsOfAll arguments
  | binary _ left right => conversions left ++ conversions right
  | unary _ operand => conversions operand
  | conversion target inner => (target, inner) :: conversions inner

def conversionsOfAll : List Expr → List (ValueType × Expr)
  | [] => []
  | e :: r => conversions e ++ conversionsOfAll r

end

theorem conversionsOfAll_eq (args : List Expr) :
    conversionsOfAll args = args.flatMap conversions := by
  induction args with
  | nil => rw [conversionsOfAll, List.flatMap_nil]
  | cons e r ih => rw [conversionsOfAll, ih, List.flatMap_cons]

/-- Some conversion of the expression has the property. -/
def HasConversion (p : ValueType → Expr → Prop) (e : Expr) : Prop :=
  ∃ c ∈ e.conversions, p c.1 c.2

section HasConversion

variable {p q : ValueType → Expr → Prop}

theorem hasConversion_value (v : Value) : ¬ (value v).HasConversion p := by
  simp [HasConversion, conversions]

theorem hasConversion_reference (path : String) : ¬ (reference path).HasConversion p := by
  simp [HasConversion, conversions]

theorem hasConversion_call {name : String} {args : List Expr} :
    (call name args).HasConversion p ↔ ∃ a ∈ args, a.HasConversion p := by
  simp only [HasConversion, conversions, conversionsOfAll_eq, List.mem_flatMap]
  constructor
  · rintro ⟨c, ⟨a, ha, hc⟩, hp⟩
    exact ⟨a, ha, c, hc, hp⟩
  · rintro ⟨a, ha, c, hc, hp⟩
    exact ⟨c, ⟨a, ha, hc⟩, hp⟩

theorem hasConversion_method {caller : Expr} {name : String} {args : List Expr} :
    (method caller name args).HasConversion p ↔
      caller.HasConversion p ∨ (call name args).HasConversion p := by
  simp only [HasConversion, conversions, List.mem_append, or_and_right, exists_or]

theorem hasConversion_binary {op : Operator} {left right : Expr} :
    (binary op left right).HasConversion p ↔ left.HasConversion p ∨ right.HasConversion p := by
  simp only [HasConversion, conversions, List.mem_append, or_and_right, exists_or]

theorem hasConversion_unary {op : Operator} {operand : Expr} :
    (unary op operand).HasConversion p ↔ operand.HasConversion p := by
  simp only [HasConversion, conversions]

theorem hasConversion_conversion {target : ValueType} {inner : Expr} :
    (conversion target inner).HasConversion p ↔ p target inner ∨ inner.HasConversion p := by
  simp only [HasConversion, conversions, List.mem_cons, or_and_right, exists_or, exists_eq_left]

theorem hasConversion_lambda {collection name var : String} {body : Expr} :
    (method (reference collection) name [reference var, body]).HasConversion p ↔
      body.HasConversion p := by
  simp [hasConversion_method, hasConversion_call, hasConversion_reference]

theorem hasConversion_call_map {name name' : String} {f : Expr → Expr} {args : List Expr}
    (h : ∀ a ∈ args, (f a).HasConversion p ↔ a.HasConversion q) :
    (call name (args.map f)).HasConversion p ↔ (call name' args).HasConversion q := by
  simp only [hasConversion_call, List.mem_map, exists_exists_and_eq_and]
  exact exists_congr fun a => and_congr_right fun ha => h a ha

/-- Properties that do not look at references are kept when these are replaced. -/
theorem hasConversion_mapScoped
    (hp : ∀ target e f scopes, p target (mapScoped f scopes e) ↔ p target e)
    (f : String → String) (scopes : List String) (e : Expr) :
    (e.mapScoped f scopes).HasConversion p ↔ e.HasConversion p := by
  induction e using shape_induction generalizing scopes with
  | value v => rw [mapScoped]
  | reference path =>
    rw [mapScoped_reference]
    exact iff_of_false (hasConversion_reference _) (hasConversion_reference _)
  | call name args ih =>
    rw [mapScoped, mapArguments_eq]
    exact hasConversion_call_map fun a ha => ih a ha scopes
  | lambda collection name var body hname ih =>
    rw [mapScoped_lambda hname, mapScoped_reference, hasConversion_lambda, hasConversion_lambda, ih]
  | method caller name args hcall hc ha =>
    rw [mapScoped_method hcall, hasConversion_method, hasConversion_method, hc]
    exact or_congr_right (hasConversion_call_map fun a hm => ha a hm scopes)
  | binary op left right hl hr =>
    rw [mapScoped, hasConversion_binary, hasConversion_binary, hl, hr]
  | unary op operand ih => rw [mapScoped, hasConversion_unary, hasConversion_unary, ih]
  | conversion target inner ih =>
    rw [mapScoped, hasConversion_conversion, hasConversion_conversion, hp, ih]

theorem hasConversion_coerced
    (hliteral : ∀ target v, (coerceLiteral target v).HasConversion p ↔ q target (value v))
    (hother : ∀ target e, e.value? = none → (p target e.coerced ↔ q target e)) (e : Expr) :
    e.coerced.HasConversion p ↔ e.HasConversion q := by
  induction e using shape_induction with
  | value v =>
    rw [coerced]
    exact iff_of_false (hasConversion_value v) (hasConversion_value v)
  | reference path =>
    rw [coerced]
    exact iff_of_false (hasConversion_reference _) (hasConversion_reference _)
  | call name args ih =>
    rw [coerced, coercedAll_eq]
    exact hasConversion_call_map ih
  | lambda collection name var body hname ih =>
    rw [coerced_lambda, hasConversion_lambda, hasConversion_lambda, ih]
  | method caller name args hcall hc ha =>
    rw [coerced, coercedAll_eq, hasConversion_method, hasConversion_method, hc]
    exact or_congr_right (hasConversion_call_map ha)
  | binary op left right hl hr =>
    rw [coerced, hasConversion_binary, hasConversion_binary, hl, hr]
  | unary op operand ih => rw [coerced, hasConversion_unary, hasConversion_unary, ih]
  | conversion target inner ih =>
    cases hv : inner.value? with
    | none =>
      rw [coerced_conversion hv, hasConversion_conversion, hasConversion_conversion, ih,
        hother target inner hv]
    | some v =>
      obtain rfl := eq_value_of_value? hv
      rw [coerced_literal, hliteral, hasConversion_conversion]
      exact (or_iff_left (hasConversion_value v)).symm

end HasConversion

/-- The literal that a conversion directly over a literal gives. -/
def converted? : Expr → Option Value
  | conversion target inner => inner.value?.bind (Value.convert? target)
  | _ => none

/-- A conversion stands directly over a literal that it can convert. -/
def Convertible (e : Expr) : Prop :=
  e.HasConversion fun target inner => (inner.value?.bind (Value.convert? target)).isSome

/-- A conversion stands over another one, and both can be carried out on the literal below. -/
def TwiceConvertible (e : Expr) : Prop :=
  e.HasConversion fun target inner => (inner.converted?.bind (Value.convert? target)).isSome

instance (e : Expr) : Decidable e.Convertible :=
  inferInstanceAs (Decidable (∃ c ∈ e.conversions, _))

instance (e : Expr) : Decidable e.TwiceConvertible :=
  inferInstanceAs (Decidable (∃ c ∈ e.conversions, _))

theorem converted?_mapScoped (f : String → String) (scopes : List String) (e : Expr) :
    (e.mapScoped f scopes).converted? = e.converted? := by
  cases e with
  | reference path => rw [mapScoped_reference]; rfl
  | method caller name args =>
    rw [mapScoped]
    split <;> rfl
  | conversion target inner => rw [mapScoped, converted?, converted?, value?_mapScoped]
  | _ => simp [mapScoped, converted?]

theorem twiceConvertible_mapScoped (f : String → String) (scopes : List String) (e : Expr) :
    (e.mapScoped f scopes).TwiceConvertible ↔ e.TwiceConvertible :=
  hasConversion_mapScoped (fun target e f scopes => by rw [converted?_mapScoped]) f scopes e

theorem convert?_underlying (target : ValueType) (v : Value) :
    v.underlying.convert? target = v.convert? target := by
  have h : v.underlying.underlying = v.underlying := by
    cases v with
    | enum member =>
      rw [Value.underlying]
      split <;> rfl
    | _ => rfl
  rw [Value.convert?, h, Value.convert?]

/-- What a conversion over a literal leaves behind cannot be converted. -/
theorem not_convertible_coerceLiteral (target : ValueType) (v : Value) :
    ¬ (coerceLiteral target v).Convertible := by
  rw [coerceLiteral]
  split
  next w _ => exact hasConversion_value w
  next h =>
    rw [Convertible, hasConversion_conversion, or_iff_left (hasConversion_value _), value?,
      Option.bind_some, convert?_underlying, h]
    exact Bool.false_ne_true

theorem value?_coerced {e : Expr} (h : e.value? = none) : e.coerced.value? = e.converted? := by
  cases e with
  | conversion target inner =>
    cases hv : inner.value? with
    | none => rw [coerced_conversion hv, converted?, hv]; rfl
    | some v =>
      obtain rfl := eq_value_of_value? hv
      rw [coerced, converted?, value?, Option.bind_some]
      cases v.convert? target <;> rfl
  | value v => simp [value?] at h
  | _ => simp [coerced, value?, converted?]

/-- After all conversions over literals are carried out, one stands over a literal that it can
convert only where it stood over another conversion. -/
theorem convertible_coerced (e : Expr) : e.coerced.Convertible ↔ e.TwiceConvertible :=
  hasConversion_coerced
    (fun target v => iff_of_false (not_convertible_coerceLiteral target v) Bool.false_ne_true)
    (fun target e h => by rw [value?_coerced h]) e

end Expr

end ODataClient
