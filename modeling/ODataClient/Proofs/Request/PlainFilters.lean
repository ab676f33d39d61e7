import ODataClient.Proofs.Expr.Narrowing
import ODataClient.Proofs.Request.Hygiene
import ODataClient.Proofs.Request.Wrapping

/-! Filters whose literals and calls both syntaxes write alike. Nothing in them is coerced, so
filing and emitting a part replaces its references and does nothing else. -/

namespace ODataClient

theorem Expr.coerced_plain {e : Expr} (h : e.Plain) (f : String → String) (scopes : List String) :
    (e.mapScoped f scopes).coerced = e.mapScoped f scopes := by
  induction h generalizing scopes with
  | value hv => simp [mapScoped, coerced]
  | reference path => rw [mapScoped_reference, coerced]
  | call hn _ ih =>
    have hargs := List.map_congr_left fun e he => ih e he scopes
    rw [mapScoped, mapArguments_eq, coerced, coercedAll_eq, List.map_map]
    exact congrArg _ hargs
  | lambda hn _ ih =>
    rw [mapScoped_lambda hn, mapScoped_reference, coerced, coercedAll_eq, List.map_cons,
      List.map_singleton, ih]
    rfl
  | method hl hn _ _ ihc iha =>
    have hargs := List.map_congr_left fun e he => iha e he scopes
    rw [mapScoped_method hl, coerced, coercedAll_eq, ihc, List.map_map]
    exact congrArg _ hargs
  | binary ho _ _ ihl ihr => simp only [mapScoped, coerced, ihl, ihr]
  | unary _ ih => simp only [mapScoped, coerced, ih]

theorem Expr.isLambdaOver_mapReferences {f : String → String} {e : Expr} {b : String} :
    (e.mapReferences f).isLambdaOver b = true ↔ ∃ collection name var body,
      e = method (reference collection) name [reference var, body] ∧
        (name = "any" ∨ name = "all") ∧ sameName (f collection) b = true := by
  constructor
  · intro h
    cases e with
    | reference path =>
      rw [mapReferences, mapScoped_reference] at h
      exact absurd h Bool.false_ne_true
    | method caller name args =>
      cases hcall : isLambdaCall caller name args with
      | false =>
        have hnone : ((method caller name args).mapReferences f).lambda? = none := by
          rw [mapReferences, mapScoped_method hcall, ← Option.not_isSome_iff_eq_none,
            lambda?_method, isLambdaCall_mapScoped, hcall]
          exact Bool.false_ne_true
        rw [isLambdaOver, hnone] at h
        exact absurd h Bool.false_ne_true
      | true =>
        obtain ⟨collection, var, body, rfl, hname, rfl⟩ := isLambdaCall_iff.1 hcall
        refine ⟨collection, name, var, body, rfl, hname, ?_⟩
        rw [mapReferences, mapScoped_lambda hname, mapScoped_reference, isLambdaOver, lambda?,
          if_pos hname] at h
        exact h
    | value v | call name args | binary op left right | unary op operand
      | conversion target inner =>
      exact absurd h Bool.false_ne_true
  · rintro ⟨collection, name, var, body, rfl, hname, h⟩
    rw [mapReferences, mapScoped_lambda hname, mapScoped_reference, isLambdaOver, lambda?,
      if_pos hname]
    exact h

theorem Expr.operator_of_isLambdaOver {e : Expr} {b : String} (h : e.isLambdaOver b = true) :
    e.operator = .leaf := by
  cases e with
  | method caller name args => rfl
  | value v | reference path | call name args | binary op left right | unary op operand
    | conversion target inner =>
    exact absurd h Bool.false_ne_true

theorem rename_paths_iff (f g : String → String) (os : List Occurrence) :
    (∀ r ∈ os, (r.rename f).path = (r.rename g).path) ↔ ∀ path ∈ freePaths os, f path = g path := by
  constructor
  · intro h path hpath
    obtain ⟨r, hr, rfl⟩ := List.mem_map.1 hpath
    obtain ⟨hr, hfree⟩ := List.mem_filter.1 hr
    have hpaths := h r hr
    rwa [Occurrence.rename_of_free (of_decide_eq_true hfree),
      Occurrence.rename_of_free (of_decide_eq_true hfree)] at hpaths
  · intro h r hr
    by_cases hfree : r.Bound
    · rw [Occurrence.rename_of_bound hfree, Occurrence.rename_of_bound hfree]
    · rw [Occurrence.rename_of_free hfree, Occurrence.rename_of_free hfree]
      exact h _ (List.mem_map.2 ⟨r, List.mem_filter.2 ⟨hr, decide_eq_true hfree⟩, rfl⟩)

theorem Expr.plain_conjuncts {e : Expr} (h : e.Plain) : ∀ part ∈ e.conjuncts, part.Plain := by
  fun_induction Expr.conjuncts e with
  | case1 left right hl hr =>
    obtain _ | _ | _ | _ | _ | ⟨-, hleft, hright⟩ := h
    intro part hpart
    rcases List.mem_append.1 hpart with hpart | hpart
    · exact hl hleft part hpart
    · exact hr hright part hpart
  | case2 e => exact fun part hpart => List.mem_singleton.1 hpart ▸ h

theorem length_of_sameName {a b : String} (h : sameName a b) : a.length = b.length := by
  have he : a.toList.map Char.toLower = b.toList.map Char.toLower := by simpa [sameName] using h
  have hl := congrArg List.length he
  simpa only [List.length_map, String.length_toList] using hl

namespace EntityModel

variable {m : EntityModel} {dialect : Dialect} {strict : Bool} {root b : String} {part e : Expr}

theorem filedPart_plain (hp : part.Plain) (h : m.filedPart dialect strict root part = .ok (b, e)) :
    e = part.mapReferences (m.filedPath dialect root part) := by
  rcases filedPart_cases h with ⟨hpath, rfl, -⟩ | ⟨hpath, rfl, -⟩
  · rw [hpath]
    exact Expr.coerced_plain hp _ []
  · rw [hpath]
    exact (Expr.mapScoped_id [] _).symm

theorem filedPath_cases (m : EntityModel) (dialect : Dialect) (root : String) (part : Expr) :
    m.filedPath dialect root part = m.rewrittenPath dialect root ∨
      m.filedPath dialect root part = id := by
  rw [filedPath]
  split
  · split
    · exact Or.inl rfl
    · exact Or.inr rfl
  · exact Or.inr rfl

theorem filedPath_legacy (m : EntityModel) (root : String) (part : Expr) :
    m.filedPath .legacy root part = id := by
  rcases filedPath_cases m .legacy root part with h | h
  · rw [h]
    exact funext (m.rewrittenPath_legacy root)
  · exact h

theorem length_filedPath_le (m : EntityModel) (dialect : Dialect) (root : String) (part : Expr)
    (path : String) : (m.filedPath dialect root part path).length ≤ path.length := by
  rcases filedPath_cases m dialect root part with h | h
  · rw [h, rewrittenPath]
    split
    · dsimp only
      split
      · exact length_join_drop_le path _
      · exact Nat.le_refl _
    · exact Nat.le_refl _
  · rw [h]
    exact Nat.le_refl _

theorem sameNames_canonicalHops? {current : String} {segs names : List String}
    (h : Adapter.canonicalHops? m.navigator current segs = some names) :
    List.Forall₂ (fun name segment => sameName name segment) names segs := by
  induction segs generalizing current names with
  | nil =>
    obtain rfl := Option.some.inj h
    exact .nil
  | cons segment rest ih =>
    rw [Adapter.canonicalHops?, navigationName_eq] at h
    obtain ⟨name, hname, h⟩ := Option.bind_eq_some_iff.1 h
    obtain ⟨next, -, h⟩ := Option.bind_eq_some_iff.1 h
    obtain ⟨others, hothers, h⟩ := Option.bind_eq_some_iff.1 h
    obtain rfl := Option.some.inj h
    obtain ⟨n, hn, rfl⟩ := Option.map_eq_some_iff.1 hname
    exact .cons (sameName_of_navigation? hn) (ih hothers)

theorem length_canonicalPath (m : EntityModel) (root : Option String) (path : String) :
    (Adapter.canonicalPath m.navigator root path).length = path.length := by
  have hjoin : ∀ {names segs : List String},
      List.Forall₂ (fun name segment => sameName name segment) names segs →
        (joinSegments names).length = (joinSegments segs).length := by
    intro names segs h
    induction h with
    | nil => rfl
    | @cons name segment names segs hname hnames ih =>
      have hlength := length_of_sameName hname
      by_cases hs : segs = []
      · subst hs
        obtain rfl := List.forall₂_nil_right_iff.1 hnames
        simpa [joinSegments] using hlength
      · have hn : names ≠ [] := fun hn => hs (List.forall₂_nil_left_iff.1 (hn ▸ hnames))
        rw [joinSegments_cons name hn, joinSegments_cons segment hs]
        simp only [String.length_append, hlength, ih]
  rw [Adapter.canonicalPath]
  split
  next names h =>
    obtain ⟨current, -, h⟩ := Option.bind_eq_some_iff.1 h
    rw [hjoin (sameNames_canonicalHops? h), joinSegments_segments]
  next => rfl
end EntityModel

namespace Adapter

variable {a : Adapter} {m : EntityModel} {c : Command} {t : CommandTarget}
  {filters : EntityFilters} {root entity b : String} {part e : Expr}

theorem fragment_plain (hm : a.navigator = m.navigator) (ht : a.target c = .ok t)
    (hp : part.Plain) (he : a.fragment t entity part = .ok (b, e)) :
    e = part.mapReferences (a.storedPath m t entity part) := by
  rw [storedPath]
  by_cases hown : sameName entity t.entityKey = true
  · rw [if_pos hown]
    cases hroot : t.collection with
    | none => rw [fragment, if_pos hown, hroot] at he; simp at he
    | some root =>
      rw [fragment_own hm ht hown hroot] at he
      exact EntityModel.filedPart_plain hp he
  · rw [fragment_related hown] at he
    obtain ⟨-, rfl⟩ := Prod.mk.inj (Except.ok.inj he)
    rw [if_neg hown, relatedForm]
    cases a.dialect with
    | legacy => rfl
    | modern => exact (Expr.mapScoped_id [] part).symm

theorem emitted_plain (hm : a.navigator = m.navigator) (ht : a.target c = .ok t)
    (hp : part.Plain) (he : a.fragment t entity part = .ok (b, e)) (place : Placement) :
    a.emitted b e place = part.mapAll (a.replacements m t entity part b place) [] := by
  have hstored := fragment_plain hm ht hp he
  have hrelative : a.relative b e = e.mapReferences (a.relativePath b) := by
    rw [relative, relativePath]
    cases a.dialect with
    | legacy => rfl
    | modern => exact (Expr.mapScoped_id [] e).symm
  cases place with
  | whole => exact hstored
  | nested =>
    rw [emitted, hrelative, hstored]
    rfl
  | wrapped =>
    rw [emitted, hrelative, hstored]
    rfl

end Adapter

end ODataClient
