import ODataClient.Proofs.Expr.Lambdas
import ODataClient.Proofs.Request.Routing

/-! Lambdas in the requests of versions that have none. The renderer refuses the lambdas of the
stored filters, but a part that is filed away from the root collection, and a stored text for a
related entity, are put under a lambda whatever the version. -/

namespace ODataClient

namespace Expr

theorem any_hasLambda_conjuncts (e : Expr) : e.conjuncts.any hasLambda = e.hasLambda := by
  fun_induction conjuncts e with
  | case1 left right hl hr => rw [List.any_append, hl, hr, hasLambda]
  | case2 e => simp

theorem hasLambda_of_isLambdaOver {b : String} {e : Expr} (h : e.isLambdaOver b = true) :
    e.hasLambda = true := by
  unfold isLambdaOver at h
  cases e with
  | method caller name args =>
    have hl : isLambdaCall caller name args = true := by
      rw [← lambda?_method]
      split at h
      next hs => rw [hs]; rfl
      next => exact absurd h Bool.false_ne_true
    rw [hasLambda, hl, Bool.true_or, Bool.true_or]
  | _ => exact absurd h Bool.false_ne_true

end Expr

namespace Adapter

variable {a : Adapter} {c : Command} {t : CommandTarget} {filters : EntityFilters}
  {predicates : List Predicate}

def wrapSpans (path var : String) (inner : List Span) : List Span :=
  .lambda path "any" var :: (inner ++ [.mark ")"])

/-- The spans of a fragment, for a version that has no lambdas. -/
def fragmentSpans (a : Adapter) (t : CommandTarget) (f : String × Expr) : List Span :=
  if f.1 = CommandTarget.rootBucket t then
    Renderer.bracketedSpans Operator.and.precedence f.2 (a.renderer.spans f.2)
  else wrapSpans f.1 wrapperVariable (a.renderer.spans (a.emitted f.1 f.2 .wrapped))

def textSpans (t : CommandTarget) (alone : Bool) (p : String × String) : List Span :=
  if sameName p.1 t.entityKey then
    if alone then [.given p.2] else [.mark "(", .given p.2, .mark ")"]
  else wrapSpans p.1 (rangeVariable p.1) [.given p.2]

/-- The spans of the pieces of the filter, for a version that has no lambdas. -/
def filterSpans (a : Adapter) (c : Command) (t : CommandTarget) (filters : EntityFilters) :
    List (List Span) :=
  let fragments := filters.headed (CommandTarget.rootBucket t)
  let texts := c.node.textFilters.entries
  let alone := fragments.length + texts.length == 1
  fragments.map (a.fragmentSpans t) ++
    (texts.filter fun p => !sameName p.1 t.entityKey).map (textSpans t alone) ++
    (texts.filter fun p => sameName p.1 t.entityKey).map (textSpans t alone)

theorem joined_wrapSpans (path var : String) (inner : List Span) :
    Span.joined (wrapSpans path var inner) = anyLambda path var (Span.joined inner) := by
  simp [wrapSpans, anyLambda, Span.text, String.append_assoc]

theorem dialect_of_no_lambdas (hv : a.version.hasLambdas = false) : a.dialect = .legacy := by
  rw [dialect]
  cases h : a.version <;> simp_all [Version.hasLambdas, Version.dialect]

theorem hasLambda_fragment {entity : String} {part : Expr} {f : String × Expr}
    (h : a.fragment t entity part = .ok f) : f.2.hasLambda = part.hasLambda := by
  rw [fragment] at h
  split at h
  · cases hc : t.collection with
    | none =>
      rw [hc] at h
      exact absurd h (by simp)
    | some root =>
      rw [hc] at h
      obtain ⟨name, -, h⟩ := bind_eq_ok_iff.1 h
      rcases filePart_cases rfl h with ⟨hkept, -⟩ | rfl
      · rw [hkept, Expr.retargeted, Expr.hasLambda_coerced, Expr.hasLambda_mapScoped]
      · rfl
  · obtain rfl := Except.ok.inj h
    dsimp only
    rw [relatedForm]
    split
    · exact Expr.hasLambda_mapScoped _ _ _
    · rfl

theorem hasLambda_emitted (a : Adapter) (b : String) (e : Expr) (place : Placement) :
    (a.emitted b e place).hasLambda = e.hasLambda := by
  have hrel : (a.relative b e).hasLambda = e.hasLambda := by
    rw [relative]
    split
    · exact Expr.hasLambda_mapScoped _ _ _
    · rfl
  cases place with
  | whole => rfl
  | nested => exact hrel
  | wrapped => exact (Expr.hasLambda_mapScoped _ _ _).trans hrel

theorem unsupported_of_conjunct {e : Expr} {error : Error} (h : a.conjunct e = .error error) :
    ∃ feature, error = .unsupported feature a.version :=
  Renderer.unsupported_of_render (map_eq_error_iff.1 h)

theorem unsupported_of_predicates {error : Error}
    (h : a.predicates c t filters = .error error) :
    ∃ feature, error = .unsupported feature a.version := by
  rcases bind_eq_error_iff.1 h with h | ⟨own, -, h⟩
  · obtain ⟨e, -, he⟩ := exists_error_of_mapM h
    exact unsupported_of_conjunct he
  rcases bind_eq_error_iff.1 h with h | ⟨related, -, h⟩
  · obtain ⟨bucket, -, hb⟩ := exists_error_of_mapM h
    obtain ⟨e, -, he⟩ := exists_error_of_mapM hb
    rw [relatedPredicate] at he
    split at he
    · exact unsupported_of_conjunct (map_eq_error_iff.1 he)
    · dsimp only at he
      split at he
      · exact unsupported_of_conjunct (map_eq_error_iff.1 he)
      · exact Renderer.unsupported_of_render (map_eq_error_iff.1 he)
  · exact absurd h (by simp)

theorem hasLambda_of_predicates (hv : a.version.hasLambdas = false)
    (hp : a.predicates c t filters = .ok predicates) {f : String × Expr}
    (hf : f ∈ filters.headed (CommandTarget.rootBucket t)) : f.2.hasLambda = false := by
  obtain ⟨text, htext, -⟩ := mem_predicates hp (Table.mem_headed.1 hf)
  rw [← hasLambda_emitted a f.1 f.2 (a.placement c t f.1 f.2)]
  rw [written] at htext
  split at htext
  · exact Renderer.hasLambda_of_render hv htext
  · obtain ⟨inner, hinner, -⟩ := map_eq_ok_iff.1 htext
    exact Renderer.hasLambda_of_render hv hinner

theorem conjunct_eq_ok {e : Expr} {text : String} (h : a.conjunct e = .ok text) :
    text = Span.joined
      (Renderer.bracketedSpans Operator.and.precedence e (a.renderer.spans e)) := by
  obtain ⟨inner, hinner, rfl⟩ := map_eq_ok_iff.1 h
  rw [Renderer.joined_bracketedSpans, (Renderer.joined_of_render hinner).1]

theorem relatedPredicate_without (hv : a.version.hasLambdas = false) {f : String × Expr}
    (hf : f.1 ≠ CommandTarget.rootBucket t) {p : Predicate}
    (h : a.relatedPredicate c f.1 f.2 = .ok p) : p = .part (Span.joined (a.fragmentSpans t f)) := by
  have hn : a.nests c f.1 = false := nests_of_legacy (dialect_of_no_lambdas hv) c f.1
  rw [relatedPredicate] at h
  split at h
  next hl =>
    obtain ⟨text, htext, -⟩ := map_eq_ok_iff.1 h
    obtain ⟨inner, hinner, -⟩ := map_eq_ok_iff.1 htext
    have hfalse := Renderer.hasLambda_of_render hv hinner
    rw [Expr.hasLambda_of_isLambdaOver hl] at hfalse
    exact absurd hfalse (by simp)
  next =>
    dsimp only at h
    rw [hn, if_neg Bool.false_ne_true] at h
    obtain ⟨text, htext, rfl⟩ := map_eq_ok_iff.1 h
    rw [fragmentSpans, if_neg hf, joined_wrapSpans, (Renderer.joined_of_render htext).1]
    rfl

theorem textPredicate_without (hv : a.version.hasLambdas = false) (alone : Bool)
    (p : String × String) :
    (a.textPredicate c t p.1 p.2).piece alone = .filter (Span.joined (textSpans t alone p)) := by
  have hn : a.nests c p.1 = false := nests_of_legacy (dialect_of_no_lambdas hv) c p.1
  rw [textPredicate, textSpans, hn]
  split
  · cases alone <;> simp [Predicate.piece, Span.text, String.append_assoc]
  · rw [if_neg Bool.false_ne_true, joined_wrapSpans]
    simp [Predicate.piece, Span.text]

theorem predicates_without (hv : a.version.hasLambdas = false)
    (hp : a.predicates c t filters = .ok predicates) :
    predicates =
      (filters.headed (CommandTarget.rootBucket t)).map
          (fun f => .part (Span.joined (a.fragmentSpans t f))) ++
        c.node.textFilters.entries.map fun p => a.textPredicate c t p.1 p.2 := by
  obtain ⟨own, related, hown, hrelated, rfl⟩ := predicates_eq_ok hp
  have hroot : own = ((filters.get? (CommandTarget.rootBucket t)).getD []).map fun e =>
      Span.joined (a.fragmentSpans t (CommandTarget.rootBucket t, e)) := by
    refine eq_map_of_mapM hown fun e _ text htext => ?_
    rw [conjunct_eq_ok htext, fragmentSpans, if_pos rfl]
  have hothers : related = (otherFragments t filters).map fun f =>
      .part (Span.joined (a.fragmentSpans t f)) :=
    eq_map_of_mapM hrelated fun f hf p h =>
      relatedPredicate_without hv (bucket_ne_of_mem_others hf) h
  rw [hroot, hothers, Table.headed, List.map_append, List.map_map, List.map_map]
  rfl

theorem pieces_without (hv : a.version.hasLambdas = false)
    (hp : a.predicates c t filters = .ok predicates) (alone : Bool) :
    (Predicate.ownLast predicates).map (Predicate.piece alone) =
      ((filters.headed (CommandTarget.rootBucket t)).map (a.fragmentSpans t) ++
        (c.node.textFilters.entries.filter fun p => !sameName p.1 t.entityKey).map
          (textSpans t alone) ++
        (c.node.textFilters.entries.filter fun p => sameName p.1 t.entityKey).map
          (textSpans t alone)).map fun spans => .filter (Span.joined spans) := by
  have hnone : ∀ p ∈ (filters.headed (CommandTarget.rootBucket t)).map
      (fun f => Predicate.part (Span.joined (a.fragmentSpans t f))), p.own? = none := by
    intro p hp
    obtain ⟨f, -, rfl⟩ := List.mem_map.1 hp
    rfl
  have htexts : Predicate.ownLast
        (c.node.textFilters.entries.map fun p => a.textPredicate c t p.1 p.2) =
      (c.node.textFilters.entries.filter fun p => !sameName p.1 t.entityKey).map
          (fun p => a.textPredicate c t p.1 p.2) ++
        (c.node.textFilters.entries.filter fun p => sameName p.1 t.entityKey).map
          fun p => a.textPredicate c t p.1 p.2 := by
    rw [Predicate.ownLast, List.filter_map, List.filter_map]
    simp only [Function.comp_def, own?_textPredicate, beq_true, beq_false]
  rw [predicates_without hv hp, Predicate.ownLast_append hnone, htexts]
  simp only [List.map_append, List.map_map, Function.comp_def, textPredicate_without hv,
    List.append_assoc]
  rfl

theorem filterClause_without (hv : a.version.hasLambdas = false)
    (hp : a.predicates c t filters = .ok predicates) :
    ((Predicate.filterText? predicates).map (Clause.mk "$filter")).toList =
      filterClause ((a.filterSpans c t filters).map Span.joined) := by
  have hpieces : ∀ l : List (List Span),
      filterPieces (l.map fun spans => .filter (Span.joined spans)) = l.map Span.joined := by
    intro l
    rw [filterPieces, List.filterMap_map]
    exact congrFun (List.filterMap_eq_map (f := Span.joined)) l
  have hcount : (predicates.filterMap Predicate.part?).length +
      (predicates.filterMap Predicate.own?).length =
      (filters.headed (CommandTarget.rootBucket t)).length + c.node.textFilters.entries.length := by
    have hlength : (filterPieces ((Predicate.ownLast predicates).map (Predicate.piece true))).length =
        ((Predicate.ownLast predicates).map (Predicate.piece true)).length := by
      rw [pieces_without hv hp, hpieces, List.length_map, List.length_map]
    rw [Predicate.filterPieces_ownLast, List.length_append, List.length_map, List.length_map,
      (Predicate.ownLast_perm predicates).length_eq] at hlength
    rw [hlength, predicates_without hv hp, List.length_append, List.length_map, List.length_map]
  rw [Predicate.filterText?_eq predicates rfl, hcount, pieces_without hv hp, hpieces]
  rfl

theorem any_isLambda_fragmentSpans {f : String × Expr} (h : f.2.hasLambda = false) :
    (a.fragmentSpans t f).any Span.isLambda = true ↔ f.1 ≠ CommandTarget.rootBucket t := by
  rw [fragmentSpans]
  split
  next hb => simp [Renderer.any_isLambda_bracketedSpans, Renderer.any_isLambda_spans, h, hb]
  next hb => simp [wrapSpans, Span.isLambda, hb]

theorem any_isLambda_textSpans (alone : Bool) (p : String × String) :
    (textSpans t alone p).any Span.isLambda = true ↔ sameName p.1 t.entityKey = false := by
  rw [textSpans]
  split
  next h => cases alone <;> simp [Span.isLambda, h]
  next h => simp [wrapSpans, Span.isLambda, Bool.eq_false_iff.2 h]

/-- What a span of the filter can be. No mark has a colon, so that an opening `(<var>:` outside
of the names, literals and stored texts is that of a wrapped fragment or a wrapped text. -/
def IsSpan (a : Adapter) (c : Command) (t : CommandTarget) (filters : EntityFilters) : Span → Prop
  | .mark text => ':' ∉ text.toList
  | .name text => ∃ f ∈ filters.headed (CommandTarget.rootBucket t), ∃ place,
      text ∈ (a.emitted f.1 f.2 place).names
  | .literal text => ∃ v, text = a.style.written a.options.escapeLiterals v
  | .given text => ∃ entity, (entity, text) ∈ c.node.textFilters.entries
  | .lambda path quantifier var => quantifier = "any" ∧
      ((var = wrapperVariable ∧ path ≠ CommandTarget.rootBucket t ∧ filters.contains path = true) ∨
        (var = rangeVariable path ∧ c.node.textFilters.contains path = true))

theorem isSpan_of_spans {f : String × Expr} (hf : f ∈ filters.headed (CommandTarget.rootBucket t))
    (h : f.2.hasLambda = false) (place : Placement) {s : Span}
    (hs : s ∈ a.renderer.spans (a.emitted f.1 f.2 place)) : a.IsSpan c t filters s := by
  have hspells := a.renderer.spellsAll_spans _ s hs
  cases s with
  | mark text => exact Renderer.notMem_of_isMark hspells (by decide)
  | name text => exact ⟨f, hf, place, hspells⟩
  | literal text => exact hspells
  | given text => exact hspells.elim
  | lambda path quantifier var =>
    have hlambda : Span.isLambda (.lambda path quantifier var) = true := rfl
    have hany := List.any_eq_true.2 ⟨_, hs, hlambda⟩
    rw [Renderer.any_isLambda_spans, hasLambda_emitted, h] at hany
    exact absurd hany Bool.false_ne_true

theorem contains_of_mem_headed {f : String × Expr} {n : String} (h : f ∈ filters.headed n) :
    filters.contains f.1 = true := by
  have hm := Table.mem_headed.1 h
  rw [Table.contains]
  cases hg : filters.get? f.1 with
  | none => exact absurd hm (by simp [hg])
  | some l => rfl

theorem isSpan_parentheses (a : Adapter) (c : Command) (t : CommandTarget)
    (filters : EntityFilters) :
    a.IsSpan c t filters (.mark "(") ∧ a.IsSpan c t filters (.mark ")") := by
  simp [IsSpan]

theorem isSpan_of_fragmentSpans {f : String × Expr}
    (hf : f ∈ filters.headed (CommandTarget.rootBucket t)) (h : f.2.hasLambda = false) {s : Span}
    (hs : s ∈ a.fragmentSpans t f) : a.IsSpan c t filters s := by
  obtain ⟨hopen, hclose⟩ := isSpan_parentheses a c t filters
  rw [fragmentSpans] at hs
  split at hs
  · rcases Renderer.mem_bracketedSpans hs with rfl | rfl | hs
    · exact hopen
    · exact hclose
    · exact isSpan_of_spans hf h .whole hs
  next hb =>
    rw [wrapSpans, List.mem_cons, List.mem_append, List.mem_singleton] at hs
    rcases hs with rfl | hs | rfl
    · exact ⟨rfl, Or.inl ⟨rfl, hb, contains_of_mem_headed hf⟩⟩
    · exact isSpan_of_spans hf h .wrapped hs
    · exact hclose

theorem isSpan_of_textSpans {p : String × String} (hp : p ∈ c.node.textFilters.entries)
    {alone : Bool} {s : Span} (hs : s ∈ textSpans t alone p) : a.IsSpan c t filters s := by
  obtain ⟨hopen, hclose⟩ := isSpan_parentheses a c t filters
  have hgiven : a.IsSpan c t filters (.given p.2) := ⟨p.1, hp⟩
  have hcontains : c.node.textFilters.contains p.1 = true := by
    rw [Table.contains, Table.get?_eq_some_iff.2 hp]
    rfl
  rw [textSpans] at hs
  split at hs
  · cases alone with
    | true =>
      obtain rfl := List.mem_singleton.1 hs
      exact hgiven
    | false =>
      simp only [Bool.false_eq_true, if_false, List.mem_cons, List.not_mem_nil, or_false] at hs
      rcases hs with rfl | rfl | rfl
      · exact hopen
      · exact hgiven
      · exact hclose
  · simp only [wrapSpans, List.singleton_append, List.mem_cons, List.not_mem_nil, or_false] at hs
    rcases hs with rfl | rfl | rfl
    · exact ⟨rfl, Or.inr ⟨rfl, hcontains⟩⟩
    · exact hgiven
    · exact hclose

theorem isSpan_of_mem (hl : ∀ f ∈ filters.headed (CommandTarget.rootBucket t), f.2.hasLambda = false)
    {s : Span} (hs : s ∈ (a.filterSpans c t filters).flatten) : a.IsSpan c t filters s := by
  obtain ⟨spans, hm, hs⟩ := List.mem_flatten.1 hs
  rw [filterSpans, List.mem_append, List.mem_append] at hm
  rcases hm with (hm | hm) | hm
  · obtain ⟨f, hf, rfl⟩ := List.mem_map.1 hm
    exact isSpan_of_fragmentSpans hf (hl f hf) hs
  · obtain ⟨p, hp, rfl⟩ := List.mem_map.1 hm
    exact isSpan_of_textSpans (List.mem_of_mem_filter hp) hs
  · obtain ⟨p, hp, rfl⟩ := List.mem_map.1 hm
    exact isSpan_of_textSpans (List.mem_of_mem_filter hp) hs

theorem lambda_in_filterSpans_iff
    (hl : ∀ f ∈ filters.headed (CommandTarget.rootBucket t), f.2.hasLambda = false) :
    (∃ s ∈ (a.filterSpans c t filters).flatten, s.isLambda = true) ↔
      (∃ f ∈ filters.headed (CommandTarget.rootBucket t), f.1 ≠ CommandTarget.rootBucket t) ∨
        ∃ p ∈ c.node.textFilters.entries, sameName p.1 t.entityKey = false := by
  have hfragments : ((filters.headed (CommandTarget.rootBucket t)).any fun f =>
      (a.fragmentSpans t f).any Span.isLambda) = true ↔
      ∃ f ∈ filters.headed (CommandTarget.rootBucket t), f.1 ≠ CommandTarget.rootBucket t := by
    rw [List.any_eq_true]
    exact exists_congr fun f => and_congr_right fun hf => any_isLambda_fragmentSpans (hl f hf)
  have htexts : ∀ (alone : Bool) (q : String × String → Bool),
      ((c.node.textFilters.entries.filter q).any fun p =>
        (textSpans t alone p).any Span.isLambda) = true ↔
      ∃ p ∈ c.node.textFilters.entries, q p = true ∧ sameName p.1 t.entityKey = false := by
    intro alone q
    rw [List.any_eq_true]
    refine exists_congr fun p => ?_
    rw [List.mem_filter, any_isLambda_textSpans, and_assoc]
  rw [← List.any_eq_true, filterSpans, List.flatten_append, List.flatten_append, List.any_append,
    List.any_append, Bool.or_eq_true, Bool.or_eq_true, List.any_flatten, List.any_flatten,
    List.any_flatten, List.any_map, List.any_map, List.any_map, or_assoc]
  refine or_congr hfragments ((or_congr (htexts _ _) (htexts _ _)).trans ?_)
  constructor
  · rintro (⟨p, hp, -, h⟩ | ⟨p, hp, -, h⟩) <;> exact ⟨p, hp, h⟩
  · rintro ⟨p, hp, h⟩
    exact Or.inl ⟨p, hp, by simp [h], h⟩

/-- In a version without lambdas, a command with a lambda in a stored filter is refused. The
filter of any other command has a lambda exactly when a part is filed away from the root
collection, or a text is stored for a related entity. -/
theorem lambda_spans_iff (hv : a.version.hasLambdas = false) (ht : a.target c = .ok t)
    (hf : a.analyze c = .ok filters) :
    ((∃ p ∈ c.node.filters.entries, p.2.hasLambda = true) →
        ∃ feature, a.compile c = .error (.unsupported feature a.version)) ∧
      ∀ r, a.compile c = .ok r →
        (∃ rest, r.clauses = filterClause ((a.filterSpans c t filters).map Span.joined) ++ rest) ∧
        (∀ s ∈ (a.filterSpans c t filters).flatten, a.IsSpan c t filters s) ∧
        ((∃ s ∈ (a.filterSpans c t filters).flatten, s.isLambda = true) ↔
          (∃ p ∈ c.filterParts, ∃ f, a.fragment t p.1 p.2 = .ok f ∧
            f.1 ≠ CommandTarget.rootBucket t) ∨
          ∃ p ∈ c.node.textFilters.entries, sameName p.1 t.entityKey = false) := by
  have hheaded : ∀ f, f ∈ filters.headed (CommandTarget.rootBucket t) ↔
      ∃ p ∈ c.filterParts, a.fragment t p.1 p.2 = .ok f := fun f =>
    Table.mem_headed.trans (mem_bucket_iff ht hf)
  constructor
  · rintro ⟨stored, hstored, hlambda⟩
    rw [← Expr.any_hasLambda_conjuncts, List.any_eq_true] at hlambda
    obtain ⟨part, hpart, hlambda⟩ := hlambda
    have hm : (stored.1, part) ∈ c.filterParts :=
      List.mem_flatMap.2 ⟨stored, hstored, List.mem_map.2 ⟨part, hpart, rfl⟩⟩
    have hfragments := hf
    rw [analyze_eq, ht, ok_bind, map_eq_ok_iff] at hfragments
    obtain ⟨filed, hfiled, -⟩ := hfragments
    obtain ⟨f, hfragment⟩ := exists_ok_of_mapM hfiled hm
    cases hp : a.predicates c t filters with
    | error error =>
      obtain ⟨feature, rfl⟩ := unsupported_of_predicates hp
      refine ⟨feature, ?_⟩
      rw [compile, hf, ok_bind, clauses, ht, ok_bind, hp]
      rfl
    | ok predicates =>
      have hnone := hasLambda_of_predicates hv hp ((hheaded f).2 ⟨_, hm, hfragment⟩)
      rw [hasLambda_fragment hfragment, hlambda] at hnone
      exact absurd hnone (by simp)
  · intro r hr
    obtain ⟨filters', hf', hclauses⟩ := clauses_of_compile hr
    obtain rfl := Except.ok.inj (hf'.symm.trans hf)
    obtain ⟨t', predicates, search, items, selects, custom, ht', hp, -, -, -, hclauses⟩ :=
      clauses_eq_ok hclauses
    obtain rfl := Except.ok.inj (ht'.symm.trans ht)
    have hl := fun f hf => hasLambda_of_predicates (f := f) hv hp hf
    refine ⟨⟨search ++ listClause "$expand" items ++ a.trailingClauses c selects custom, ?_⟩,
      fun s hs => isSpan_of_mem hl hs, ?_⟩
    · rw [hclauses, filterClause_without hv hp]
      simp only [List.append_assoc]
    · rw [lambda_in_filterSpans_iff hl]
      refine or_congr_left ?_
      constructor
      · rintro ⟨f, hm, hb⟩
        obtain ⟨p, hp, hfragment⟩ := (hheaded f).1 hm
        exact ⟨p, hp, f, hfragment, hb⟩
      · rintro ⟨p, hp, f, hfragment, hb⟩
        exact ⟨f, (hheaded f).2 ⟨p, hp, hfragment⟩, hb⟩

def heavyOrder : Expr := .binary .gt (.reference "Freight") (.value (.int32 5))

def heavyOrders : Command :=
  ((Command.forCollection "Orders").addFilter "Orders" heavyOrder).setTextFilter "Orders" "Late"

def heavyOrdersRequest : CompiledRequest where
  method := .get
  path := "Orders"
  clauses := [⟨"$filter", "Freight gt 5 and (Late)"⟩]
  entityFilters := Table.empty.append "Orders" ["Freight gt 5"]
  payload := none

theorem heavyOrders_no_lambda :
    (northwindAdapter .v2).version.hasLambdas = false ∧
      (northwindAdapter .v2).target heavyOrders = .ok ⟨some "Orders", "Orders"⟩ ∧
      (northwindAdapter .v2).analyze heavyOrders = .ok (Table.empty.append "Orders" [heavyOrder]) ∧
      (northwindAdapter .v2).compile heavyOrders = .ok heavyOrdersRequest ∧
      ¬ ∃ s ∈ ((northwindAdapter .v2).filterSpans heavyOrders ⟨some "Orders", "Orders"⟩
        (Table.empty.append "Orders" [heavyOrder])).flatten, s.isLambda = true := by
  have hv : (northwindAdapter .v2).version.hasLambdas = false := rfl
  have ht : (northwindAdapter .v2).target heavyOrders = .ok ⟨some "Orders", "Orders"⟩ := rfl
  have hf : (northwindAdapter .v2).analyze heavyOrders =
      .ok (Table.empty.append "Orders" [heavyOrder]) := rfl
  have hr : (northwindAdapter .v2).compile heavyOrders = .ok heavyOrdersRequest := rfl
  have hparts : heavyOrders.filterParts = [("Orders", heavyOrder)] := rfl
  have hfiled : (northwindAdapter .v2).fragment ⟨some "Orders", "Orders"⟩ "Orders" heavyOrder =
      .ok ("Orders", heavyOrder) := rfl
  refine ⟨hv, ht, hf, hr, ?_⟩
  rw [((lambda_spans_iff hv ht hf).2 _ hr).2.2, hparts]
  rintro (⟨p, hp, f, hfragment, hb⟩ | ⟨p, hp, h⟩)
  · obtain rfl := List.mem_singleton.1 hp
    obtain rfl := Except.ok.inj (hfiled.symm.trans hfragment)
    exact hb rfl
  · obtain rfl : p = ("Orders", "Late") := List.mem_singleton.1 hp
    exact absurd h (by decide)

def bulkOrders : Command :=
  (Command.forCollection "Orders").addFilter "Orders"
    (.binary .gt (.reference "OrderDetails/Quantity") (.value (.int32 5)))

def bulkOrdersRequest : CompiledRequest where
  method := .get
  path := "Orders"
  clauses := [⟨"$filter", "OrderDetails/any(x:x/Quantity gt 5)"⟩]
  entityFilters := Table.empty.append "OrderDetails" ["OrderDetails/Quantity gt 5"]
  payload := none

/-- Version 2.0 has no lambdas, and is sent one. -/
theorem bulkOrders_wrapped :
    (northwindAdapter .v2).version.hasLambdas = false ∧
      (northwindAdapter .v2).compile bulkOrders = .ok bulkOrdersRequest :=
  ⟨rfl, rfl⟩

end Adapter

end ODataClient
