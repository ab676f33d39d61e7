import ODataClient.Expr.Codec
import ODataClient.Proofs.Value.ReadBack

/-! The JSON form of expressions read back. A tree whose literals are exact has a form, of every kind
of node the form is read as the node, and so the text of the form is read as the tree when it is
nested no deeper than texts are read. -/

namespace ODataClient.Expr

@[elab_as_elim] theorem tree_induction {P : Expr → Prop} (value : ∀ v, P (value v))
    (reference : ∀ path, P (reference path))
    (call : ∀ name args, (∀ e ∈ args, P e) → P (call name args))
    (method : ∀ caller name args, P caller → (∀ e ∈ args, P e) → P (method caller name args))
    (binary : ∀ op left right, P left → P right → P (binary op left right))
    (unary : ∀ op operand, P operand → P (unary op operand))
    (conversion : ∀ target inner, P inner → P (conversion target inner)) (e : Expr) : P e := by
  refine @Expr.rec P (fun l => ∀ e ∈ l, P e) value reference call method binary unary conversion
    (fun e he => absurd he List.not_mem_nil) (fun e l he hl x hx => ?_) e
  rcases List.mem_cons.1 hx with rfl | hx
  · exact he
  · exact hl x hx

mutual

def literals : Expr → List Value
  | value v => [v]
  | reference _ => []
  | call _ arguments => literalsOf arguments
  | method caller _ arguments => literals caller ++ literalsOf arguments
  | binary _ left right => literals left ++ literals right
  | unary _ operand => literals operand
  | conversion _ inner => literals inner

def literalsOf : List Expr → List Value
  | [] => []
  | e :: r => literals e ++ literalsOf r

end

theorem literalsOf_eq (l : List Expr) : literalsOf l = l.flatMap literals := by
  induction l with
  | nil => rfl
  | cons e r ih => rw [literalsOf, ih, List.flatMap_cons]

/-- The tree is written as `j` and read from it, however its kind may be named. -/
structure HasForm (e : Expr) (j : Json) : Prop where
  toJson? : e.toJson? = .ok j
  isExact : j.isExact = true
  ofTree? {fuel : Nat} (form : Json.TagForm) : j.nesting < fuel → ofTree? form fuel j = some e

/-- The arguments of a call are written as `js` and read from them. -/
structure HaveForms (l : List Expr) (js : List Json) : Prop where
  listToJson? : listToJson? l = .ok js
  isExact : ∀ j ∈ js, j.isExact = true
  mapM {fuel : Nat} : (∀ j ∈ js, j.nesting < fuel) →
    js.mapM (ofTree? .namedOrNumbered fuel) = some l

theorem exists_haveForms {l : List Expr} (h : ∀ e ∈ l, ∃ j, HasForm e j) : ∃ js, HaveForms l js := by
  induction l with
  | nil => exact ⟨[], rfl, by simp, fun _ => rfl⟩
  | cons e r ih =>
    obtain ⟨j, hj⟩ := h e List.mem_cons_self
    obtain ⟨js, hjs⟩ := ih fun x hx => h x (List.mem_cons_of_mem e hx)
    refine ⟨j :: js, ?_, ?_, fun hn => ?_⟩
    · rw [Expr.listToJson?, hj.toJson?, hjs.listToJson?]
      rfl
    · exact List.forall_mem_cons.2 ⟨hj.isExact, hjs.isExact⟩
    · obtain ⟨hn, hns⟩ := List.forall_mem_cons.1 hn
      rw [List.mapM_cons, hj.ofTree? _ hn, hjs.mapM hns]
      rfl

theorem Operator.ofJson?_tag (form : Json.TagForm) (op : Operator) :
    Operator.ofJson? form (.string op.tag) = some op := by
  cases op <;> rfl

theorem ValueType.ofJson?_tag (form : Json.TagForm) (t : ValueType) :
    ValueType.ofJson? form (.string t.tag) = some t := by
  cases t <;> rfl

theorem HasForm.optional? {e : Expr} {j : Json} (h : HasForm e j) {fuel : Nat} (hn : j.nesting < fuel) :
    Json.optional? (Expr.ofTree? .namedOrNumbered fuel) j = some (some e) := by
  have hr := h.ofTree? .namedOrNumbered hn
  cases j with
  | null => cases fuel <;> exact absurd hr.symm (Option.some_ne_none e)
  | _ => exact congrArg (Option.map some) hr

theorem HaveForms.list? {l : List Expr} {js : List Json} (h : HaveForms l js) {fuel : Nat}
    (hn : (Json.array js).nesting < fuel) :
    Json.list? (Expr.ofTree? .namedOrNumbered fuel) (.array js) = some l := by
  refine h.mapM fun j hj => ?_
  have hle := (Json.nesting_array_le.1 (Nat.le_refl _)).2 j hj
  omega

/-- The fuel left for the members is enough, since the object is nested once more than they are. -/
theorem exists_hasForm {e : Expr} (kind : String) (members : List (String × Json))
    (hw : e.toJson? = .ok (.object (("kind", .string kind) :: members)))
    (he : ∀ m ∈ members, m.2.isExact = true)
    (hr : ∀ form fuel, (∀ m ∈ members, m.2.nesting < fuel) →
      ofTree? form (fuel + 1) (.object (("kind", .string kind) :: members)) = some e) :
    ∃ j, HasForm e j := by
  refine ⟨_, hw, Json.isExact_object.2 (List.forall_mem_cons.2 ⟨rfl, he⟩), fun {fuel} form hn => ?_⟩
  obtain ⟨fuel, rfl⟩ : ∃ k, fuel = k + 1 := ⟨fuel - 1, by omega⟩
  obtain ⟨hpos, hm⟩ := Json.nesting_object_le.1 (Nat.le_of_lt_succ hn)
  refine hr form fuel fun m h => ?_
  have hle := hm m (List.mem_cons_of_mem _ h)
  omega

/-! How an object of each kind is read, one member after the other. -/

section

variable (form : Json.TagForm) (fuel : Nat)

theorem ofTree?_value (v : Json) :
    ofTree? form (fuel + 1) (.object [("kind", .string "value"), ("value", v)]) = do
      let v ← Value.ofJson? .namedOrNumbered v
      return value v := rfl

theorem ofTree?_reference (path : Json) :
    ofTree? form (fuel + 1) (.object [("kind", .string "reference"), ("path", path)]) = do
      let path ← path.string?
      return reference path := rfl

theorem ofTree?_call (name arguments : Json) :
    ofTree? form (fuel + 1)
        (.object [("kind", .string "function"), ("name", name), ("arguments", arguments)]) = do
      let name ← name.string?
      let args ← arguments.list? (ofTree? .namedOrNumbered fuel)
      return call name args := rfl

theorem ofTree?_method (caller name arguments : Json) :
    ofTree? form (fuel + 1) (.object [("kind", .string "function"), ("caller", caller),
        ("name", name), ("arguments", arguments)]) = do
      let caller ← caller.optional? (ofTree? .namedOrNumbered fuel)
      let name ← name.string?
      let args ← arguments.list? (ofTree? .namedOrNumbered fuel)
      return callOf caller name args := rfl

theorem ofTree?_binary (op left right : Json) :
    ofTree? form (fuel + 1)
        (.object [("kind", .string "binary"), ("op", op), ("left", left), ("right", right)]) = do
      let op ← Operator.ofJson? .namedOrNumbered op
      let left ← ofTree? .namedOrNumbered fuel left
      let right ← ofTree? .namedOrNumbered fuel right
      return binary op left right := rfl

theorem ofTree?_unary (op operand : Json) :
    ofTree? form (fuel + 1)
        (.object [("kind", .string "unary"), ("op", op), ("operand", operand)]) = do
      let op ← Operator.ofJson? .namedOrNumbered op
      let operand ← ofTree? .namedOrNumbered fuel operand
      return unary op operand := rfl

theorem ofTree?_conversion (target inner : Json) :
    ofTree? form (fuel + 1)
        (.object [("kind", .string "conversion"), ("target", target), ("inner", inner)]) = do
      let target ← ValueType.ofJson? .namedOrNumbered target
      let inner ← ofTree? .namedOrNumbered fuel inner
      return conversion target inner := rfl

end

theorem exists_hasForm_value {v : Value} (h : v.isExact = true) : ∃ j, HasForm (value v) j := by
  obtain ⟨c, hc, he, hr⟩ := v.exists_toJson? h
  refine exists_hasForm "value" [("value", c)] ?_ (by simp [he]) fun form fuel _ => ?_
  · rw [Expr.toJson?, hc]
    rfl
  · rw [ofTree?_value, hr]
    rfl

theorem exists_hasForm_reference (path : String) : ∃ j, HasForm (reference path) j := by
  refine exists_hasForm "reference" [("path", .string path)] rfl (by simp) fun form fuel _ => ?_
  rw [ofTree?_reference]
  rfl

theorem exists_hasForm_call {name : String} {args : List Expr} (ha : ∀ e ∈ args, ∃ j, HasForm e j) :
    ∃ j, HasForm (call name args) j := by
  obtain ⟨js, hjs⟩ := exists_haveForms ha
  refine exists_hasForm "function" [("name", .string name), ("arguments", .array js)] ?_
    (by simp [Json.isExact_array.2 hjs.isExact]) fun form fuel hn => ?_
  · rw [Expr.toJson?, hjs.listToJson?]
    rfl
  · simp only [List.forall_mem_cons] at hn
    rw [ofTree?_call, hjs.list? hn.2.1]
    rfl

theorem exists_hasForm_method {caller : Expr} {name : String} {args : List Expr}
    (hc : ∃ j, HasForm caller j) (ha : ∀ e ∈ args, ∃ j, HasForm e j) :
    ∃ j, HasForm (method caller name args) j := by
  obtain ⟨c, hc⟩ := hc
  obtain ⟨js, hjs⟩ := exists_haveForms ha
  refine exists_hasForm "function" [("caller", c), ("name", .string name), ("arguments", .array js)] ?_
    (by simp [hc.isExact, Json.isExact_array.2 hjs.isExact]) fun form fuel hn => ?_
  · rw [Expr.toJson?, hc.toJson?, hjs.listToJson?]
    rfl
  · simp only [List.forall_mem_cons] at hn
    rw [ofTree?_method, hc.optional? hn.1, hjs.list? hn.2.2.1]
    rfl

theorem exists_hasForm_binary {op : Operator} {left right : Expr} (hl : ∃ j, HasForm left j)
    (hr : ∃ j, HasForm right j) : ∃ j, HasForm (binary op left right) j := by
  obtain ⟨a, ha⟩ := hl
  obtain ⟨b, hb⟩ := hr
  refine exists_hasForm "binary" [("op", .string op.tag), ("left", a), ("right", b)] ?_
    (by simp [ha.isExact, hb.isExact]) fun form fuel hn => ?_
  · rw [Expr.toJson?, ha.toJson?, hb.toJson?]
    rfl
  · simp only [List.forall_mem_cons] at hn
    rw [ofTree?_binary, Operator.ofJson?_tag, ha.ofTree? _ hn.2.1, hb.ofTree? _ hn.2.2.1]
    rfl

theorem exists_hasForm_unary {op : Operator} {operand : Expr} (h : ∃ j, HasForm operand j) :
    ∃ j, HasForm (unary op operand) j := by
  obtain ⟨a, ha⟩ := h
  refine exists_hasForm "unary" [("op", .string op.tag), ("operand", a)] ?_ (by simp [ha.isExact])
    fun form fuel hn => ?_
  · rw [Expr.toJson?, ha.toJson?]
    rfl
  · simp only [List.forall_mem_cons] at hn
    rw [ofTree?_unary, Operator.ofJson?_tag, ha.ofTree? _ hn.2.1]
    rfl

theorem exists_hasForm_conversion {target : ValueType} {inner : Expr} (h : ∃ j, HasForm inner j) :
    ∃ j, HasForm (conversion target inner) j := by
  obtain ⟨a, ha⟩ := h
  refine exists_hasForm "conversion" [("target", .string target.tag), ("inner", a)] ?_
    (by simp [ha.isExact]) fun form fuel hn => ?_
  · rw [Expr.toJson?, ha.toJson?]
    rfl
  · simp only [List.forall_mem_cons] at hn
    rw [ofTree?_conversion, ValueType.ofJson?_tag, ha.ofTree? _ hn.2.1]
    rfl

theorem exists_hasForm_of_literals {e : Expr} (h : ∀ v ∈ e.literals, v.isExact = true) :
    ∃ j, HasForm e j := by
  induction e using tree_induction with
  | value v => exact exists_hasForm_value (h v List.mem_cons_self)
  | reference path => exact exists_hasForm_reference path
  | call name args ih =>
    rw [literals, literalsOf_eq, List.forall_mem_flatMap] at h
    exact exists_hasForm_call fun e he => ih e he (h e he)
  | method caller name args ihc iha =>
    rw [literals, literalsOf_eq, List.forall_mem_append, List.forall_mem_flatMap] at h
    exact exists_hasForm_method (ihc h.1) fun e he => iha e he (h.2 e he)
  | binary op left right ihl ihr =>
    rw [literals, List.forall_mem_append] at h
    exact exists_hasForm_binary (ihl h.1) (ihr h.2)
  | unary op operand ih => exact exists_hasForm_unary (ih h)
  | conversion target inner ih => exact exists_hasForm_conversion (ih h)

/-- A tree without doubles and timestamps beyond RFC 3339 has a JSON form, and from both texts of
the form the same tree is read, unless the form is nested deeper than any text that is read. -/
theorem ofJson?_text {e : Expr} (h : ∀ v ∈ e.literals, v.isExact = true) (form : Json.TagForm) :
    ∃ j, e.toJson? = .ok j ∧ (j.nesting ≤ Json.depthLimit →
      (Json.read? j.compact).bind (ofJson? form) = some e ∧
        (Json.read? j.pretty).bind (ofJson? form) = some e) := by
  obtain ⟨j, hj⟩ := exists_hasForm_of_literals h
  refine ⟨j, hj.toJson?, fun hn => ?_⟩
  have hr : ofJson? form j = some e := by
    have hc : j.checked? = some j := if_pos (Json.wellFormed_of_isExact hj.isExact)
    have ht : Expr.ofTree? form depthBound j = some e :=
      hj.ofTree? form (Nat.lt_of_le_of_lt hn (by decide))
    simp [ofJson?, hc, ht]
  rw [Json.read?_compact hj.isExact hn, Json.read?_pretty hj.isExact hn]
  exact ⟨hr, hr⟩

/-- `startswith(Name, 'ß"') and not Tags.any(t: -t/Size lt cast(maxsize(), Int64))`, with the other
values as arguments of a method. -/
def sample : Expr :=
  .binary .and (.call "startswith" [.reference "Name", .value (.string "ß\"\\\n")])
    (.unary .not (.method (.reference "Tags") "any" [.reference "t",
      .binary .lt (.unary .negate (.reference "t/Size"))
        (.conversion .int64 (.method (.reference "Shop") "maxsize" [])),
      .method (.value .null) "among" ([.bool true, .int32 (-7), .int64 9007199254740993,
        .decimal "1.50", .guid ⟨.ofFn fun i => .ofNat (17 * i)⟩, .date ⟨-44, 3, 15, by decide⟩,
        .timestamp ⟨⟨2024, 2, 29, by decide⟩, ⟨23, 59, 59, 120000000, by decide⟩,
          ⟨-12600, by decide⟩⟩,
        .binary [0, 255], .enum ⟨"Model.Color", "Red", -3⟩].map .value)]))

theorem ofJson?_text_sample : (∀ v ∈ sample.literals, v.isExact = true) ∧
    ∃ j, sample.toJson? = .ok j ∧ j.nesting ≤ Json.depthLimit ∧
      (Json.read? j.compact).bind (ofJson? .named) = some sample ∧
      (Json.read? j.pretty).bind (ofJson? .named) = some sample := by
  have h : ∀ v ∈ sample.literals, v.isExact = true := by decide +kernel
  have hn : ∀ j, sample.toJson? = .ok j → j.nesting ≤ Json.depthLimit := by
    rintro j ⟨⟩
    decide +kernel
  obtain ⟨j, hj, hr⟩ := ofJson?_text h .named
  exact ⟨h, j, hj, hn j hj, hr (hn j hj)⟩

end ODataClient.Expr
