import ODataClient.Proofs.Expr.Spans
import ODataClient.Proofs.Filter.Retargeting

/-! The names of an expression. Replacing references changes names by the replacement only, and a
text without unescaped literals has no ampersand but those of the names. -/

namespace ODataClient

namespace Expr

variable {P : String → Prop}

/-- What the replacement keeps of names holds of all names afterwards. -/
theorem names_mapScoped {f : String → String} (hf : ∀ n, P n → P (f n)) {e : Expr}
    (h : ∀ n ∈ e.names, P n) (scopes : List String) : ∀ n ∈ (e.mapScoped f scopes).names, P n := by
  have hargs : ∀ (args : List Expr) (scopes : List String),
      (∀ e ∈ args, (∀ n ∈ e.names, P n) → ∀ n ∈ (e.mapScoped f scopes).names, P n) →
      (∀ n ∈ args.flatMap names, P n) →
      ∀ n ∈ (args.map (mapScoped f scopes)).flatMap names, P n := by
    intro args scopes ih h n hn
    rw [List.flatMap_map] at hn
    obtain ⟨e, he, hn⟩ := List.mem_flatMap.1 hn
    exact ih e he (fun n hn => h n (List.mem_flatMap.2 ⟨e, he, hn⟩)) n hn
  have href : ∀ (path : String) (scopes : List String), P path →
      ∀ n ∈ ((reference path).mapScoped f scopes).names, P n := by
    intro path scopes hpath n hn
    rw [mapScoped_reference, names] at hn
    obtain rfl := List.mem_singleton.1 hn
    rw [Occurrence.rename]
    dsimp only
    split
    · exact hpath
    · exact hf path hpath
  induction e using shape_induction generalizing scopes with
  | value v =>
    rw [mapScoped]
    exact h
  | reference path => exact href path scopes (h path (by simp [names]))
  | call name args ih =>
    rw [names_call, List.forall_mem_cons] at h
    rw [mapScoped, mapArguments_eq, names_call, List.forall_mem_cons]
    exact ⟨h.1, hargs args scopes (fun e he h => ih e he h scopes) h.2⟩
  | lambda collection name var body hn ih =>
    rw [names_lambda] at h
    simp only [List.forall_mem_cons] at h
    rw [mapScoped_lambda hn]
    have hnames := href collection scopes h.2.1
    rw [mapScoped_reference] at hnames ⊢
    rw [names_lambda]
    simp only [List.forall_mem_cons]
    exact ⟨h.1, hnames _ (by simp [names]), h.2.2.1, ih h.2.2.2 _⟩
  | method caller name args hl hc ha =>
    rw [names_method, List.forall_mem_cons, List.forall_mem_append] at h
    rw [mapScoped_method hl, names_method, List.forall_mem_cons, List.forall_mem_append]
    exact ⟨h.1, hc h.2.1 scopes, hargs args scopes (fun e he h => ha e he h scopes) h.2.2⟩
  | binary op left right hl hr =>
    rw [names, List.forall_mem_append] at h
    rw [mapScoped, names, List.forall_mem_append]
    exact ⟨hl h.1 scopes, hr h.2 scopes⟩
  | unary op operand ih =>
    rw [names] at h
    rw [mapScoped, names]
    exact ih h scopes
  | conversion target inner ih =>
    rw [names] at h
    rw [mapScoped, names]
    exact ih h scopes

theorem names_coerced (e : Expr) : e.coerced.names = e.names := by
  have hargs : ∀ args : List Expr, (∀ e ∈ args, e.coerced.names = e.names) →
      (args.map coerced).flatMap names = args.flatMap names := by
    intro args ih
    rw [List.flatMap_map]
    exact List.flatMap_congr ih
  induction e using shape_induction with
  | value v => rw [coerced]
  | reference path => rw [coerced]
  | call name args ih => rw [coerced, coercedAll_eq, names_call, names_call, hargs args ih]
  | lambda collection name var body h ih =>
    have hc : (method (reference collection) name [reference var, body]).coerced =
        method (reference collection) name [reference var, body.coerced] := by
      simp [coerced, coercedAll]
    rw [hc, names_lambda, names_lambda, ih]
  | method caller name args h hc ha =>
    rw [coerced, coercedAll_eq, names_method, names_method, hc, hargs args ha]
  | binary op left right hl hr => rw [coerced, names, names, hl, hr]
  | unary op operand ih => rw [coerced, names, names, ih]
  | conversion target inner ih =>
    cases hv : inner.value? with
    | none => rw [coerced_conversion hv, names, names, ih]
    | some v =>
      obtain rfl := eq_value_of_value? hv
      rw [coerced]
      split <;> simp [names]

end Expr

namespace Renderer

theorem avoids_render {r : Renderer} (hr : r.escaped = true) {e : Expr} {text : String}
    (h : r.render e = .ok text) (hn : ∀ n ∈ e.names, Avoids '&' n) : Avoids '&' text := by
  have hamp : '&' ∈ structural := by simp [structural]
  rw [(joined_of_render h).1, Span.joined]
  refine avoids_join fun s hs => ?_
  obtain ⟨span, hspan, rfl⟩ := List.mem_map.1 hs
  have hspells := r.spellsAll_spans e span hspan
  cases span with
  | mark text => exact notMem_of_isMark hspells hamp
  | name text => exact hn text hspells
  | literal text =>
    obtain ⟨v, rfl⟩ := hspells
    rw [hr]
    exact avoids_escape hamp _
  | given text => exact hspells.elim
  | lambda path quantifier var =>
    obtain ⟨hpath, hquantifier, hvar⟩ := hspells
    have hq : Avoids '&' quantifier := by
      simp only [List.mem_cons, List.not_mem_nil, or_false] at hquantifier
      rcases hquantifier with rfl | rfl <;> simp [Avoids]
    have hslash : Avoids '&' "/" ∧ Avoids '&' "(" ∧ Avoids '&' ":" := by simp [Avoids]
    simp only [Span.text, avoids_append]
    exact ⟨⟨⟨⟨⟨hn path hpath, hslash.1⟩, hq⟩, hslash.2.1⟩, hn var hvar⟩, hslash.2.2⟩

end Renderer

end ODataClient
