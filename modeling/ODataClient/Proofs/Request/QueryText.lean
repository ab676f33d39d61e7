import ODataClient.Proofs.Request.ExpandText
import ODataClient.Proofs.Request.Naming

/-! The text of a query cut into its clauses again. With escaped literals no clause has an
ampersand, and no name of a clause has an equals sign, but for those in the names of the command
and of the model; so the literals of a command cannot add a clause or move the end of a name. -/

namespace ODataClient

namespace Clause

/-- The clause is one piece of a query, and its name ends at the first equals sign. -/
structure Separable (c : Clause) : Prop where
  name : Avoids '&' c.name
  value : Avoids '&' c.value
  ends : Avoids '=' c.name

theorem ofPiece_text {c : Clause} (h : c.Separable) : ofPiece c.text.toList = c := by
  cases c with
  | mk name value =>
  rw [text]
  split
  next hempty =>
    obtain rfl : value = "" := String.isEmpty_iff.1 hempty
    rw [ofPiece, cutFirst_of_notMem h.ends, String.ofList_toList]
  next =>
    have hcut : (name ++ "=" ++ value).toList = name.toList ++ '=' :: value.toList := by simp
    dsimp only
    rw [ofPiece, hcut, cutFirst_append h.ends]
    simp

theorem Separable.avoids_text {c : Clause} (h : c.Separable) : Avoids '&' c.text := by
  have heq : Avoids '&' "=" := by decide
  rw [text]
  split
  · exact h.name
  · exact avoids_append.2 ⟨avoids_append.2 ⟨h.name, heq⟩, h.value⟩

end Clause

theorem CompiledRequest.pieces_of_separable {r : CompiledRequest} (hne : r.clauses ≠ [])
    (h : ∀ c ∈ r.clauses, c.Separable) :
    (parts '&' r.query.toList).map Clause.ofPiece = r.clauses := by
  have htexts : r.query.toList = ['&'].intercalate (r.clauses.map fun c => c.text.toList) := by
    rw [query, String.toList_intercalate, List.map_map]
    rfl
  have havoid : ∀ p ∈ r.clauses.map fun c => c.text.toList, '&' ∉ p := by
    intro p hp
    obtain ⟨c, hc, rfl⟩ := List.mem_map.1 hp
    exact (h c hc).avoids_text
  rw [htexts, parts_intercalate (by simpa using hne) havoid, List.map_map]
  exact (List.map_congr_left fun c hc => Clause.ofPiece_text (h c hc)).trans (List.map_id _)

namespace Predicate

variable {predicates : List Predicate}

theorem mem_texts {p : Predicate} {s : String} (h : p.part? = some s ∨ p.own? = some s) :
    s ∈ p.texts := by
  cases p <;> simp_all [part?, own?, texts]

theorem avoids_filterText (h : ∀ p ∈ predicates, ∀ s ∈ p.texts, Avoids '&' s) {text : String}
    (ht : filterText? predicates = some text) : Avoids '&' text := by
  have hpart : ∀ s ∈ predicates.filterMap part?, Avoids '&' s := by
    intro s hs
    obtain ⟨p, hp, hs⟩ := List.mem_filterMap.1 hs
    exact h p hp s (mem_texts (Or.inl hs))
  have hown : ∀ s ∈ predicates.filterMap own?, Avoids '&' s := by
    intro s hs
    obtain ⟨p, hp, hs⟩ := List.mem_filterMap.1 hs
    exact h p hp s (mem_texts (Or.inr hs))
  have hmarks : Avoids '&' "(" ∧ Avoids '&' ")" ∧ Avoids '&' " and " := by decide
  rw [filterText?] at ht
  dsimp only at ht
  split at ht
  · exact absurd ht (by simp)
  · obtain rfl := Option.some.inj ht
    refine avoids_intercalate hmarks.2.2 (List.forall_mem_append.2 ⟨hpart, ?_⟩)
    split
    · exact hown
    · intro s hs
      obtain ⟨t, ht, rfl⟩ := List.mem_map.1 hs
      exact avoids_append.2 ⟨avoids_append.2 ⟨hmarks.1, hown t ht⟩, hmarks.2.1⟩

theorem avoids_nestedTable (h : ∀ p ∈ predicates, ∀ s ∈ p.texts, Avoids '&' s) :
    ∀ g ∈ (nestedTable predicates).entries, Avoids '&' g.1 ∧ ∀ s ∈ g.2, Avoids '&' s := by
  have hnested : ∀ q ∈ predicates.filterMap nested?, Avoids '&' q.1 ∧ Avoids '&' q.2 := by
    intro q hq
    obtain ⟨p, hp, hq⟩ := List.mem_filterMap.1 hq
    cases p with
    | nested path text =>
      obtain rfl := Option.some.inj hq
      exact ⟨h _ hp _ (by simp [texts]), h _ hp _ (by simp [texts])⟩
    | _ => exact absurd hq (by simp [nested?])
  intro g hg
  rw [nestedTable_eq] at hg
  obtain ⟨hne, hgroup⟩ := Table.mem_entries_grouped hg
  have hmem : ∀ s ∈ g.2, (g.1, s) ∈ predicates.filterMap nested? := by
    intro s hs
    rw [hgroup] at hs
    exact Adapter.mem_named_iff.1 hs
  obtain ⟨first, hfirst⟩ := List.exists_mem_of_ne_nil g.2 hne
  exact ⟨(hnested _ (hmem first hfirst)).1, fun s hs => (hnested _ (hmem s hs)).2⟩

end Predicate

def QueryOptions.names (o : QueryOptions) : List String :=
  o.expression.toList.flatMap Expr.names ++ o.pairs.map (·.1)

def Invocation.parameterNames (call : Invocation) : List String := call.parameters.map (·.1)

/-- The names that a command brings into a query without text filters and raw options. -/
def Command.queryNames (c : Command) : List String :=
  c.filterNames ++ c.node.expands.flatMap (fun item => item.1 :: item.2.names) ++
    c.node.selects ++ c.node.orderBy.map (·.name) ++ c.node.options.names ++
    c.node.invocation.toList.flatMap Invocation.parameterNames

namespace Adapter

variable {a : Adapter} {c : Command} {name : String}

theorem separable_listClause (hname : Avoids '&' name) (heq : Avoids '=' name)
    {items : List String} (h : ∀ s ∈ items, Avoids '&' s) :
    ∀ x ∈ listClause name items, x.Separable := by
  have hcomma : Avoids '&' "," := by decide
  rw [listClause]
  split
  · exact List.forall_mem_nil _
  · exact List.forall_mem_singleton.2 ⟨hname, avoids_intercalate hcomma h, heq⟩

theorem separable_numberClause (hname : Avoids '&' name) (heq : Avoids '=' name)
    (value : Option Nat) : ∀ x ∈ numberClause name value, x.Separable := by
  cases value with
  | none => exact List.forall_mem_nil _
  | some n => exact List.forall_mem_singleton.2 ⟨hname, avoids_digitsText rfl n, heq⟩

theorem separable_countClause (a : Adapter) : a.countClause.Separable := by
  rw [countClause]
  cases a.dialect with
  | legacy => exact ⟨by decide, by decide, by decide⟩
  | modern => exact ⟨by decide, by decide, by decide⟩

theorem avoids_keyLiteral (a : Adapter) (v : Value) : Avoids '&' (a.keyLiteral v) :=
  avoids_escape (by simp [structural]) _

theorem separable_literal (hname : Avoids '&' name ∧ Avoids '=' name) (v : Value) :
    (Clause.mk name (a.keyLiteral v)).Separable := ⟨hname.1, a.avoids_keyLiteral v, hname.2⟩

theorem separable_optionTerm {e : Expr} (h : ∀ n ∈ e.names, Avoids '&' n ∧ Avoids '=' n)
    {x : Clause} (hx : a.optionTerm e = .ok x) : x.Separable := by
  unfold optionTerm at hx
  split at hx
  next left right =>
    split at hx
    next name v hl hv =>
      obtain rfl := Except.ok.inj hx
      cases left with
      | reference path =>
        obtain rfl := Option.some.inj hl
        exact separable_literal (h path (by simp [Expr.names])) v
      | _ => exact absurd hl (by simp [Expr.reference?])
    next => exact absurd hx (by simp)
  next => exact absurd hx (by simp)

theorem separable_customOptions {options : QueryOptions} (hraw : options.text = none)
    (h : ∀ n ∈ options.names, Avoids '&' n ∧ Avoids '=' n) {clauses : List Clause}
    (hc : a.customOptions options = .ok clauses) : ∀ x ∈ clauses, x.Separable := by
  rw [QueryOptions.names, List.forall_mem_append, List.forall_mem_map] at h
  rw [customOptions, hraw] at hc
  obtain ⟨terms, hterms, hc⟩ := bind_eq_ok_iff.1 hc
  obtain rfl := Except.ok.inj hc
  have hexpression : ∀ x ∈ terms, x.Separable := by
    cases he : options.expression with
    | none =>
      rw [he] at hterms
      obtain rfl := Except.ok.inj hterms
      exact List.forall_mem_nil _
    | some e =>
      rw [he] at h hterms
      obtain ⟨-, -, hterms⟩ := bind_eq_ok_iff.1 hterms
      intro x hx
      obtain ⟨part, hpart, hx⟩ := (mem_mapM_ok hterms).1 hx
      exact separable_optionTerm
        (fun n hn => h.1 n (by simpa using Expr.names_conjuncts hpart hn)) hx
  refine List.forall_mem_append.2 ⟨List.forall_mem_append.2 ⟨?_, hexpression⟩, ?_⟩
  · exact List.forall_mem_nil _
  · exact List.forall_mem_map.2 fun pair hp => separable_literal (h.2 pair hp) pair.2

theorem separable_parameterClauses
    (h : ∀ n ∈ c.node.invocation.toList.flatMap Invocation.parameterNames,
      Avoids '&' n ∧ Avoids '=' n) : ∀ x ∈ a.parameterClauses c, x.Separable := by
  rw [parameterClauses]
  split
  next call hd hcall =>
    rw [hcall] at h
    intro x hx
    obtain ⟨pair, hp, rfl⟩ := List.mem_map.1 hx
    exact separable_literal (h pair.1 (by simpa [Invocation.parameterNames] using ⟨_, hp⟩)) pair.2
  next => exact List.forall_mem_nil _

theorem avoids_legacySelects {item : String × ExpandOptions} (h : Avoids '&' item.1)
    (ho : ∀ n ∈ item.2.names, Avoids '&' n) {selects : List String}
    (hs : a.legacyExpandItem item = .ok selects) : ∀ s ∈ selects, Avoids '&' s := by
  have hslash : Avoids '&' "/" := by decide
  have hselects : selects = item.2.select.map fun s => item.1 ++ "/" ++ s := by
    rw [legacyExpandItem] at hs
    split at hs
    · exact absurd hs (by simp)
    dsimp only at hs
    split at hs
    · exact absurd hs (by simp)
    split at hs
    · exact absurd hs (by simp)
    exact (Except.ok.inj hs).symm
  rw [hselects, List.forall_mem_map]
  exact fun s hs => avoids_append.2 ⟨avoids_append.2 ⟨h, hslash⟩,
    ho s (List.mem_append_left _ hs)⟩

theorem avoids_expand {items : List (String × ExpandOptions)} {nested : Table (List String)}
    {texts selects : List String}
    (hi : ∀ n ∈ items.flatMap fun item => item.1 :: item.2.names, Avoids '&' n)
    (hn : ∀ g ∈ nested.entries, Avoids '&' g.1 ∧ ∀ s ∈ g.2, Avoids '&' s)
    (h : a.expand items nested = .ok (texts, selects)) :
    (∀ s ∈ texts, Avoids '&' s) ∧ ∀ s ∈ selects, Avoids '&' s := by
  have hitem : ∀ item ∈ items, Avoids '&' item.1 ∧ ∀ n ∈ item.2.names, Avoids '&' n :=
    fun item hm => List.forall_mem_cons.1 (List.forall_mem_flatMap.1 hi item hm)
  rw [expand] at h
  split at h
  · obtain ⟨lists, hlists, h⟩ := bind_eq_ok_iff.1 h
    obtain ⟨rfl, rfl⟩ := Prod.mk.inj (Except.ok.inj h)
    refine ⟨List.forall_mem_map.2 fun item hm => (hitem item hm).1, fun s hs => ?_⟩
    obtain ⟨list, hlist, hs⟩ := List.mem_flatten.1 hs
    obtain ⟨item, hm, hlist⟩ := (mem_mapM_ok hlists).1 hlist
    exact avoids_legacySelects (hitem item hm).1 (hitem item hm).2 hlist s hs
  · obtain ⟨rfl, rfl⟩ := Prod.mk.inj (Except.ok.inj h)
    refine ⟨ExpandNode.avoids_texts _ fun s hs => ?_, List.forall_mem_nil _⟩
    rcases List.mem_append.1 (ExpandNode.labels_ofItems items nested.entries hs) with hs | hs
    · obtain ⟨item, hm, hs⟩ := List.mem_flatMap.1 hs
      rcases List.mem_append.1 hs with hs | hs
      · exact avoids_of_mem_segments (hitem item hm).1 hs
      · exact (hitem item hm).2 s hs
    · obtain ⟨g, hg, hs⟩ := List.mem_flatMap.1 hs
      rcases List.mem_append.1 hs with hs | hs
      · exact avoids_of_mem_segments (hn g hg).1 hs
      · exact (hn g hg).2 s hs

theorem addMissing_subset (items more : List String) : addMissing items more ⊆ items ++ more := by
  induction more generalizing items with
  | nil => simp [addMissing]
  | cons s more ih =>
    intro x hx
    have hx := ih (if s ∈ items then items else items ++ [s]) hx
    split at hx <;> grind

theorem separable_clauses (hr : a.options.escapeLiterals = true) (hnav : a.navigator.Avoids '&')
    (hnames : ∀ n ∈ c.queryNames, Avoids '&' n ∧ Avoids '=' n) (hsearch : c.node.search = none)
    (htexts : c.node.textFilters = .empty) (hraw : c.node.options.text = none)
    {filters : EntityFilters} (ha : a.analyze c = .ok filters) {clauses : List Clause}
    (h : a.clauses c filters = .ok clauses) : ∀ x ∈ clauses, x.Separable := by
  simp only [Command.queryNames, List.forall_mem_append] at hnames
  obtain ⟨⟨⟨⟨⟨hfilters, hexpands⟩, hselects⟩, horders⟩, hoptions⟩, hparameters⟩ := hnames
  obtain ⟨t, ht, h⟩ := bind_eq_ok_iff.1 h
  obtain ⟨predicates, hpredicates, h⟩ := bind_eq_ok_iff.1 h
  obtain ⟨search, hs, h⟩ := bind_eq_ok_iff.1 h
  obtain ⟨⟨items, selects⟩, he, h⟩ := bind_eq_ok_iff.1 h
  obtain ⟨custom, hcustom, h⟩ := bind_eq_ok_iff.1 h
  obtain rfl := Except.ok.inj h
  rw [hsearch] at hs
  obtain rfl := Except.ok.inj hs
  have hp := avoids_predicates hr hnav (fun n hn => (hfilters n hn).1) htexts ht ha hpredicates
  obtain ⟨hitems, hmore⟩ := avoids_expand (fun n hn => (hexpands n hn).1)
    (Predicate.avoids_nestedTable hp) he
  have hselect : ∀ s ∈ addMissing c.node.selects selects, Avoids '&' s := fun s hs =>
    (List.mem_append.1 (addMissing_subset _ _ hs)).elim (fun h => (hselects s h).1) (hmore s)
  simp only [List.forall_mem_append]
  -- one goal for each kind of clause, in the order of the query
  refine ⟨⟨⟨⟨⟨⟨⟨⟨⟨?_, ?_⟩, ?_⟩, ?_⟩, ?_⟩, ?_⟩, ?_⟩, ?_⟩, ?_⟩, ?_⟩
  · cases htext : Predicate.filterText? predicates with
    | none => exact List.forall_mem_nil _
    | some text =>
      have hname : Avoids '&' "$filter" ∧ Avoids '=' "$filter" := by decide
      exact List.forall_mem_singleton.2
        ⟨hname.1, Predicate.avoids_filterText hp htext, hname.2⟩
  · exact List.forall_mem_nil _
  · exact separable_listClause (by decide) (by decide) hitems
  · exact separable_listClause (by decide) (by decide) hselect
  · rw [orderClause_eq_listClause]
    exact separable_listClause (by decide) (by decide)
      (avoids_orderText fun s hs => (horders s hs).1)
  · exact separable_numberClause (by decide) (by decide) c.node.skip
  · exact separable_numberClause (by decide) (by decide) c.node.top
  · split
    · exact List.forall_mem_singleton.2 a.separable_countClause
    · exact List.forall_mem_nil _
  · exact separable_customOptions hraw hoptions hcustom
  · exact separable_parameterClauses hparameters

/-- With escaped literals, a query is cut back into its clauses at its ampersands and at the first
equals signs, whatever the literals of the command are. -/
theorem pieces_of_compile (hr : a.options.escapeLiterals = true)
    (hnav : a.navigator.Avoids '&') (hnames : ∀ n ∈ c.queryNames, Avoids '&' n ∧ Avoids '=' n)
    (hsearch : c.node.search = none) (htexts : c.node.textFilters = .empty)
    (hraw : c.node.options.text = none) {r : CompiledRequest} (h : a.compile c = .ok r)
    (hne : r.clauses ≠ []) : (parts '&' r.query.toList).map Clause.ofPiece = r.clauses := by
  obtain ⟨filters, ha, hc⟩ := clauses_of_compile h
  exact CompiledRequest.pieces_of_separable hne
    (separable_clauses hr hnav hnames hsearch htexts hraw ha hc)

def escapingAdapter : Adapter :=
  { northwindAdapter .v4 with options := { AdapterOptions.plain with escapeLiterals := true } }

def craftedOrders : Command :=
  ((Command.forCollection "Orders").addFilter "Orders" (.binary .and
    (.binary .eq (.reference "ShipName") (.value (.string "A&B=C")))
    (.binary .eq (.reference "OrderDetails/Note") (.value (.string "&$top=1"))))).update fun n =>
      { n with
        expands := [("OrderDetails", .plain)]
        options := { QueryOptions.none with pairs := [("tag", .string "x&y")] } }

def craftedOrdersRequest : CompiledRequest where
  method := .get
  path := "Orders"
  clauses := [
    ⟨"$filter", "ShipName eq 'A%26B%3DC'"⟩,
    ⟨"$expand", "OrderDetails($filter=Note eq '%26%24top%3D1')"⟩,
    ⟨"tag", "'x%26y'"⟩]
  entityFilters :=
    (Table.empty.append "OrderDetails" ["Note eq '%26%24top%3D1'"]).append
      "Orders" ["ShipName eq 'A%26B%3DC'"]
  payload := none

theorem craftedOrders_pieces :
    escapingAdapter.compile craftedOrders = .ok craftedOrdersRequest ∧
      (parts '&' craftedOrdersRequest.query.toList).map Clause.ofPiece =
        craftedOrdersRequest.clauses := by
  have hcompile : escapingAdapter.compile craftedOrders = .ok craftedOrdersRequest := rfl
  have hnav : escapingAdapter.navigator.Avoids '&' := EntityModel.avoids_navigator (by decide)
  have hnames : ∀ n ∈ craftedOrders.queryNames, Avoids '&' n ∧ Avoids '=' n := by decide
  exact ⟨hcompile, pieces_of_compile rfl hnav hnames rfl rfl rfl hcompile (List.cons_ne_nil _ _)⟩

end Adapter

end ODataClient
