import ODataClient.Command.Calls
import ODataClient.Proofs.Request.Routing

/-! The calls that put a query together, in any order. Each of them changes one slot of the node
and looks at no other slot that they change, so what a slot holds in the end depends on its own
calls alone, and two sequences that agree slot by slot build the same command. -/

namespace ODataClient

/-- What the calls of a query change in a node; `rest` is what none of them changes. -/
inductive Slot
  | filters
  | texts
  | search
  | skip
  | top
  | expands
  | selects
  | orderBy
  | count
  | includeCount
  | entry
  | link
  | media
  | optionText
  | optionExpression
  | optionPairs
  | rest
  deriving DecidableEq

namespace Slot

def Content : Slot → Type
  | filters => Table Expr
  | texts => Table String
  | search => Option String
  | skip => Option Nat
  | top => Option Nat
  | expands => List (String × ExpandOptions)
  | selects => List String
  | orderBy => List OrderItem
  | count => Bool
  | includeCount => Bool
  | entry => Option Entry
  | link => Option String
  | media => Option String
  | optionText => Option String
  | optionExpression => Option Expr
  | optionPairs => List (String × Value)
  | rest => Option Segment × Keys × Operation × Option Expr × Option Invocation × Option BatchEntries

def get : (s : Slot) → CommandNode → s.Content
  | filters, n => n.filters
  | texts, n => n.textFilters
  | search, n => n.search
  | skip, n => n.skip
  | top, n => n.top
  | expands, n => n.expands
  | selects, n => n.selects
  | orderBy, n => n.orderBy
  | count, n => n.computeCount
  | includeCount, n => n.includeCount
  | entry, n => n.entry
  | link, n => n.link
  | media, n => n.media
  | optionText, n => n.options.text
  | optionExpression, n => n.options.expression
  | optionPairs, n => n.options.pairs
  | rest, n => (n.segment, n.keys, n.operation, n.linkTarget, n.invocation, n.batch)

def set : (s : Slot) → s.Content → CommandNode → CommandNode
  | filters, v, n => { n with filters := v }
  | texts, v, n => { n with textFilters := v }
  | search, v, n => { n with search := v }
  | skip, v, n => { n with skip := v }
  | top, v, n => { n with top := v }
  | expands, v, n => { n with expands := v }
  | selects, v, n => { n with selects := v }
  | orderBy, v, n => { n with orderBy := v }
  | count, v, n => { n with computeCount := v }
  | includeCount, v, n => { n with includeCount := v }
  | entry, v, n => { n with entry := v }
  | link, v, n => { n with link := v }
  | media, v, n => { n with media := v }
  | optionText, v, n => { n with options := { n.options with text := v } }
  | optionExpression, v, n => { n with options := { n.options with expression := v } }
  | optionPairs, v, n => { n with options := { n.options with pairs := v } }
  | rest, (segment, keys, operation, target, invocation, batch), n =>
    { n with
      segment := segment
      keys := keys
      operation := operation
      linkTarget := target
      invocation := invocation
      batch := batch }

theorem get_set (s : Slot) (v : s.Content) (n : CommandNode) : s.get (s.set v n) = v := by
  cases s <;> rfl

theorem get_set_of_ne {s s' : Slot} (h : s ≠ s') (v : s.Content) (n : CommandNode) :
    s'.get (s.set v n) = s'.get n := by
  cases s <;> cases s' <;> first | rfl | exact absurd rfl h

end Slot

theorem CommandNode.ext_get {n n' : CommandNode} (h : ∀ s : Slot, s.get n = s.get n') : n = n' := by
  obtain ⟨segment, keys, entry, operation, texts, filters, search, skip, top, expands, selects,
    orderBy, count, includeCount, link, target, ⟨text, expression, pairs⟩, invocation, media, batch⟩ := n
  obtain ⟨segment', keys', entry', operation', texts', filters', search', skip', top', expands',
    selects', orderBy', count', includeCount', link', target', ⟨text', expression', pairs'⟩,
    invocation', media', batch'⟩ := n'
  obtain rfl : filters = filters' := h .filters
  obtain rfl : texts = texts' := h .texts
  obtain rfl : search = search' := h .search
  obtain rfl : skip = skip' := h .skip
  obtain rfl : top = top' := h .top
  obtain rfl : expands = expands' := h .expands
  obtain rfl : selects = selects' := h .selects
  obtain rfl : orderBy = orderBy' := h .orderBy
  obtain rfl : count = count' := h .count
  obtain rfl : includeCount = includeCount' := h .includeCount
  obtain rfl : entry = entry' := h .entry
  obtain rfl : link = link' := h .link
  obtain rfl : media = media' := h .media
  obtain rfl : text = text' := h .optionText
  obtain rfl : expression = expression' := h .optionExpression
  obtain rfl : pairs = pairs' := h .optionPairs
  have hrest : (segment, keys, operation, target, invocation, batch) =
      (segment', keys', operation', target', invocation', batch') := h .rest
  simp only [Prod.mk.injEq] at hrest
  obtain ⟨rfl, rfl, rfl, rfl, rfl, rfl⟩ := hrest
  rfl

namespace Call

def slot : Call → Slot
  | filter _ | filterOn _ _ => .filters
  | filterText _ => .texts
  | search _ => .search
  | skip _ => .skip
  | top _ => .top
  | expand _ _ => .expands
  | select _ => .selects
  | orderBy _ => .orderBy
  | count => .count
  | includeCount => .includeCount
  | set _ => .entry
  | link _ => .link
  | media _ => .media
  | queryOptions _ => .optionText
  | queryOptionsExpr _ => .optionExpression
  | queryOption _ _ => .optionPairs
  | _ => .rest

/-- No name or text that the call is given is blank. -/
def isNamed : Call → Bool
  | filterOn entity _ => !isBlankText entity
  | filterText text | search text | queryOptions text => !isBlankText text
  | expand path _ => !isBlankText path
  | select items => items.all fun item => !isBlankText item
  | orderBy item => !isBlankText item.name
  | link name | media name | queryOption name _ => !isBlankText name
  | _ => true

def IsQuery (x : Call) : Prop := x.slot ≠ .rest ∧ x.isNamed = true

instance (x : Call) : Decidable x.IsQuery := inferInstanceAs (Decidable (_ ∧ _))

def conjoined (e : Expr) : Option Expr → Expr
  | some old => .binary .and old e
  | none => e

def appended (text : String) : Option String → String
  | some old => old ++ "&" ++ text
  | none => text

/-- What a call makes of its slot, in a command that addresses this entity set. -/
def into (entity? : Option String) : (x : Call) → x.slot.Content → x.slot.Content
  | filter e, t => entity?.elim t fun entity => Table.alter t entity (conjoined e)
  | filterOn entity e, t => Table.alter t entity (conjoined e)
  | filterText text, t =>
    entity?.elim t fun entity => Table.set t entity (Command.joinTexts (Table.get? t entity) text)
  | search term, _ => some term
  | skip k, _ => some k
  | top k, _ => some k
  | expand path options, l => Command.putExpand path options l
  | select items, l => Adapter.addMissing l items
  | orderBy item, l => List.append l [item]
  | count, _ => true
  | includeCount, _ => true
  | set entry, _ => some entry
  | link navigation, _ => some navigation
  | media name, _ => some name
  | queryOptions text, old => some (appended text old)
  | queryOptionsExpr e, old => some (conjoined e old)
  | queryOption name value, l => List.append l [(name, value)]
  | collection _, v | key _, v | namedKeys _, v | navigate _, v | asType _, v | invoke _, v
  | insert _, v | update _, v | delete, v | linkTo _ _, v | inBatch _, v | batchRef _, v => v

def change (entity? : Option String) (x : Call) (n : CommandNode) : CommandNode :=
  x.slot.set (x.into entity? (x.slot.get n)) n

variable {entity? : Option String} {x : Call} {s : Slot} {n n' : CommandNode} {calls calls' : List Call}

/-- A call keeps the other slots. -/
theorem get_change_of_ne (h : x.slot ≠ s) : s.get (x.change entity? n) = s.get n :=
  Slot.get_set_of_ne h _ n

/-- What a call makes of a slot depends on that slot alone. -/
theorem get_change_congr (h : s.get n = s.get n') :
    s.get (x.change entity? n) = s.get (x.change entity? n') := by
  by_cases hs : x.slot = s
  · subst hs
    rw [change, change, Slot.get_set, Slot.get_set, h]
  · rw [get_change_of_ne hs, get_change_of_ne hs, h]

def changeAll (entity? : Option String) (calls : List Call) (n : CommandNode) : CommandNode :=
  calls.foldl (fun n x => x.change entity? n) n

/-- Only the calls of a slot count for it. -/
theorem get_changeAll_filter (s : Slot) (calls : List Call) (h : s.get n = s.get n') :
    s.get (changeAll entity? calls n) =
      s.get (changeAll entity? (calls.filter fun x => x.slot = s) n') := by
  induction calls generalizing n n' with
  | nil => exact h
  | cons x calls ih =>
    by_cases hx : x.slot = s
    · rw [List.filter_cons_of_pos (by simp [hx])]
      exact ih (get_change_congr h)
    · rw [List.filter_cons_of_neg (by simp [hx])]
      exact ih ((get_change_of_ne hx).trans h)

theorem changeAll_congr
    (h : ∀ s : Slot, calls.filter (fun x => x.slot = s) = calls'.filter fun x => x.slot = s) :
    changeAll entity? calls n = changeAll entity? calls' n := by
  refine CommandNode.ext_get fun s => ?_
  rw [get_changeAll_filter s calls rfl, h s, ← get_changeAll_filter s calls' rfl]

end Call

/-- The same calls, those of each group in the same order. The group of a call is its slot;
`count` and `includeCount` are in no group. -/
structure SameCalls (calls calls' : List Call) : Prop where
  perm : calls.Perm calls'
  ordered : ∀ s : Slot, s ≠ .count → s ≠ .includeCount →
    calls.filter (fun x => x.slot = s) = calls'.filter fun x => x.slot = s

namespace SameCalls

variable {calls calls' : List Call}

/-- Calls that are all the same have one order only. -/
theorem filter_eq_of_unique (h : calls.Perm calls') {s : Slot} {y : Call}
    (hy : ∀ x : Call, x.slot = s → x = y) :
    calls.filter (fun x => x.slot = s) = calls'.filter fun x => x.slot = s := by
  have hall : ∀ l : List Call, l.filter (fun x => x.slot = s) =
      List.replicate (l.filter fun x => x.slot = s).length y := fun l =>
    List.eq_replicate_of_mem fun x hx => hy x (by simpa using (List.mem_filter.1 hx).2)
  rw [hall calls, hall calls', (h.filter _).length_eq]

theorem filter_eq (h : SameCalls calls calls') (s : Slot) :
    calls.filter (fun x => x.slot = s) = calls'.filter fun x => x.slot = s := by
  have hcount : ∀ x : Call, x.slot = .count → x = .count := by
    intro x hx
    cases x <;> first | rfl | cases hx
  have hinclude : ∀ x : Call, x.slot = .includeCount → x = .includeCount := by
    intro x hx
    cases x <;> first | rfl | cases hx
  by_cases hc : s = .count
  · exact hc ▸ filter_eq_of_unique h.perm hcount
  by_cases hi : s = .includeCount
  · exact hi ▸ filter_eq_of_unique h.perm hinclude
  · exact h.ordered s hc hi

end SameCalls

namespace Command

variable {c : Command} {x : Call} {calls calls' : List Call}

theorem requireEntity_ok (hc : c.node.segment.isSome = true) (operation : String) :
    c.requireEntity operation = .ok () := if_pos hc

theorem requireText_ok {value : String} (h : (!isBlankText value) = true) (operation : String) :
    requireText operation value = .ok () := if_neg (by simpa using h)

theorem requireBoth_ok (hc : c.node.segment.isSome = true) {value : String}
    (h : (!isBlankText value) = true) (operation : String) :
    c.requireBoth operation value = .ok () := by
  rw [requireBoth, requireEntity_ok hc, ok_bind, requireText_ok h]

theorem addSelects_ok {items : List String} (h : ∀ item ∈ items, (!isBlankText item) = true)
    (selects : List String) : addSelects selects items = .ok (Adapter.addMissing selects items) := by
  induction items generalizing selects with
  | nil => rfl
  | cons item items ih =>
    rw [addSelects, requireText_ok (h item (by simp)), ok_bind, ih fun x hx => h x (by simp [hx])]
    rfl

theorem apply_query (hc : c.node.segment.isSome = true) (hx : x.IsQuery) :
    c.apply x = .ok (c.update (x.change c.entityName?)) := by
  have hentity := requireEntity_ok hc
  obtain ⟨hslot, hnamed⟩ := hx
  cases x with
  | filter e =>
    rw [apply, hentity, ok_bind, filterEntity]
    cases h : c.entityName? <;> rfl
  | filterOn entity e =>
    rw [apply, requireBoth_ok hc hnamed, ok_bind]
    rfl
  | filterText text =>
    rw [apply, requireBoth_ok hc hnamed, ok_bind, filterEntityText]
    cases h : c.entityName? <;> rfl
  | search text | expand path options | media name =>
    rw [apply, requireBoth_ok hc hnamed]
    rfl
  | orderBy item =>
    rw [apply, requireBoth_ok hc hnamed]
    rfl
  | link navigation =>
    rw [apply, putLink, requireBoth_ok hc hnamed]
    rfl
  | skip k | top k | count | includeCount =>
    rw [apply, hentity]
    rfl
  | set entry =>
    rw [apply, putEntry, hentity]
    rfl
  | select items =>
    rw [apply, hentity, ok_bind, addSelects_ok (List.all_eq_true.1 hnamed)]
    rfl
  | queryOptions text =>
    rw [apply, requireText_ok hnamed]
    rfl
  | queryOptionsExpr e => rfl
  | queryOption name value =>
    rw [apply, requireText_ok hnamed]
    rfl
  | _ => exact absurd rfl hslot

theorem entityName?_update {f : CommandNode → CommandNode}
    (h : (f c.node).segment = c.node.segment) : (c.update f).entityName? = c.entityName? := by
  simp [entityName?, chain, update, List.findSome?_cons, h]

/-- The calls of a query all succeed. -/
theorem foldlM_apply (hc : c.node.segment.isSome = true) (hq : ∀ x ∈ calls, x.IsQuery) :
    calls.foldlM apply c = .ok (c.update (Call.changeAll c.entityName? calls)) := by
  induction calls generalizing c with
  | nil => rfl
  | cons x calls ih =>
    have hx := hq x (by simp)
    have hsegment : (x.change c.entityName? c.node).segment = c.node.segment :=
      congrArg Prod.fst (Call.get_change_of_ne (s := .rest) hx.1)
    have hc' : (c.update (x.change c.entityName?)).node.segment.isSome = true :=
      (congrArg Option.isSome hsegment).trans hc
    rw [List.foldlM_cons, apply_query hc hx, ok_bind, ih hc' fun y hy => hq y (by simp [hy]),
      entityName?_update hsegment]
    rfl

theorem segment_changeAll (entity? : Option String) (hq : ∀ x ∈ calls, x.IsQuery) (n : CommandNode) :
    (Call.changeAll entity? calls n).segment = n.segment := by
  have hnone : calls.filter (fun x => x.slot = .rest) = [] :=
    List.filter_eq_nil_iff.2 fun x hx => by simpa using (hq x hx).1
  have hrest : Slot.get .rest (Call.changeAll entity? calls n) =
      Slot.get .rest (Call.changeAll entity? (calls.filter fun x => x.slot = .rest) n) :=
    Call.get_changeAll_filter .rest calls rfl
  rw [hnone] at hrest
  exact congrArg Prod.fst hrest

/-- What more calls make of a command. -/
def after (c : Command) (calls : List Call) : Except Error Command := do
  let d ← calls.foldlM apply c
  d.finished

end Command

namespace Adapter

variable {a : Adapter} {c : Command} {filters : EntityFilters}

theorem sublist_listClause (name : String) (items : List String) :
    ((listClause name items).map (·.name)).Sublist [name] := by
  rw [listClause]
  split
  · exact List.nil_sublist _
  · exact List.Sublist.refl _

theorem sublist_numberClause (name : String) (n? : Option Nat) :
    ((numberClause name n?).map (·.name)).Sublist [name] := by
  cases n? with
  | none => exact List.nil_sublist _
  | some n => exact List.Sublist.refl _

theorem sublist_searchClause {term? : Option String} {search : List Clause}
    (h : a.searchClause term? = .ok search) : (search.map (·.name)).Sublist ["$search"] := by
  cases term? with
  | none =>
    obtain rfl := Except.ok.inj h
    exact List.nil_sublist _
  | some term =>
    rw [searchClause] at h
    split at h
    · exact absurd h (by simp)
    · obtain rfl := Except.ok.inj h
      exact List.Sublist.refl _

/-- The standard clauses come first, each at most once and in one order. -/
theorem standard_clauses {clauses : List Clause} (h : a.clauses c filters = .ok clauses) :
    ∃ standard custom, clauses = standard ++ custom ++ a.parameterClauses c ∧
      a.customOptions c.node.options = .ok custom ∧
      (standard.map (·.name)).Sublist ["$filter", "$search", "$expand", "$select", "$orderby",
        "$skip", "$top", a.countClause.name] := by
  obtain ⟨t, -, h⟩ := bind_eq_ok_iff.1 h
  obtain ⟨predicates, -, h⟩ := bind_eq_ok_iff.1 h
  obtain ⟨search, hsearch, h⟩ := bind_eq_ok_iff.1 h
  obtain ⟨⟨items, selects⟩, -, h⟩ := bind_eq_ok_iff.1 h
  obtain ⟨custom, hcustom, h⟩ := bind_eq_ok_iff.1 h
  obtain rfl := Except.ok.inj h
  refine ⟨_, custom, rfl, hcustom, ?_⟩
  have hfilter : ((((Predicate.filterText? predicates).map (Clause.mk "$filter")).toList).map
      (·.name)).Sublist ["$filter"] := by
    cases Predicate.filterText? predicates with
    | none => exact List.nil_sublist _
    | some text => exact List.Sublist.refl _
  have hcount : ((if c.node.includeCount then [a.countClause] else []).map (·.name)).Sublist
      [a.countClause.name] := by
    split
    · exact List.Sublist.refl _
    · exact List.nil_sublist _
  simp only [List.map_append]
  change List.Sublist _ (["$filter"] ++ ["$search"] ++ ["$expand"] ++ ["$select"] ++ ["$orderby"] ++
    ["$skip"] ++ ["$top"] ++ [a.countClause.name])
  refine List.Sublist.append ?_ hcount
  refine List.Sublist.append ?_ (sublist_numberClause "$top" _)
  refine List.Sublist.append ?_ (sublist_numberClause "$skip" _)
  refine List.Sublist.append ?_ (orderClause_eq_listClause _ ▸ sublist_listClause "$orderby" _)
  refine List.Sublist.append ?_ (sublist_listClause "$select" _)
  refine List.Sublist.append ?_ (sublist_listClause "$expand" _)
  exact hfilter.append (sublist_searchClause hsearch)

end Adapter

namespace Command

/-- The calls of a query build one command in every order that keeps the order in each group, and
the requests that it is compiled to have their standard clauses in one order, before the others. -/
theorem after_sameCalls {c : Command} {calls calls' : List Call}
    (hc : c.node.segment.isSome = true) (hq : ∀ x ∈ calls, x.IsQuery) (h : SameCalls calls calls') :
    ∃ d, c.after calls = .ok d ∧ c.after calls' = .ok d ∧
      ∀ (a : Adapter) (r : CompiledRequest), a.compile d = .ok r → ∃ standard custom,
        r.clauses = standard ++ custom ++ a.parameterClauses d ∧
        a.customOptions d.node.options = .ok custom ∧
        (standard.map (·.name)).Sublist ["$filter", "$search", "$expand", "$select", "$orderby",
          "$skip", "$top", a.countClause.name] := by
  have hq' : ∀ x ∈ calls', x.IsQuery := fun x hx => hq x (h.perm.mem_iff.2 hx)
  have hsame : Call.changeAll c.entityName? calls' = Call.changeAll c.entityName? calls :=
    funext fun n => Call.changeAll_congr fun s => (h.filter_eq s).symm
  have hfinished : (c.update (Call.changeAll c.entityName? calls)).finished =
      .ok (c.update (Call.changeAll c.entityName? calls)) := by
    have hsegment : (c.update (Call.changeAll c.entityName? calls)).node.segment.isSome = true :=
      (congrArg Option.isSome (segment_changeAll _ hq c.node)).trans hc
    rw [finished, ← Option.not_isSome, hsegment]
    rfl
  refine ⟨c.update (Call.changeAll c.entityName? calls), ?_, ?_, fun a r hr => ?_⟩
  · rw [after, foldlM_apply hc hq, ok_bind, hfinished]
  · rw [after, foldlM_apply hc hq', ok_bind, hsame, hfinished]
  · obtain ⟨filters, -, hclauses⟩ := Adapter.clauses_of_compile hr
    exact Adapter.standard_clauses hclauses

def firstPage : List Call :=
  [.top 10, .includeCount, .orderBy ⟨"OrderDate", true⟩, .orderBy ⟨"Freight", false⟩,
    .queryOption "lang" (.string "en")]

def paidOrders : List Call :=
  [.filter (.reference "Paid"), .filterOn "OrderDetails" (.reference "Damaged"),
    .select ["OrderID", "Freight"], .count]

def paidOrdersRequest : CompiledRequest where
  method := .get
  path := "Orders/$count"
  clauses := [⟨"$filter", "Paid and OrderDetails/any(x:x/Damaged)"⟩, ⟨"$select", "OrderID,Freight"⟩,
    ⟨"$orderby", "OrderDate desc,Freight"⟩, ⟨"$top", "10"⟩, ⟨"$count", "true"⟩, ⟨"lang", "'en'"⟩]
  entityFilters := (Table.empty.append "Orders" ["Paid"]).append "OrderDetails" ["Damaged"]
  payload := none

theorem sameCalls_paidOrders : SameCalls (firstPage ++ paidOrders) (paidOrders ++ firstPage) :=
  ⟨List.perm_append_comm, fun s _ _ => by cases s <;> rfl⟩

set_option maxRecDepth 4000 in
theorem after_paidOrders :
    (forCollection "Orders").node.segment.isSome = true ∧
      (∀ x ∈ firstPage ++ paidOrders, x.IsQuery) ∧
      SameCalls (firstPage ++ paidOrders) (paidOrders ++ firstPage) ∧
      ∃ d, (forCollection "Orders").after (firstPage ++ paidOrders) = .ok d ∧
        (forCollection "Orders").after (paidOrders ++ firstPage) = .ok d ∧
        (Adapter.northwindAdapter .v4).compile d = .ok paidOrdersRequest := by
  have hc : (forCollection "Orders").node.segment.isSome = true := rfl
  have hq : ∀ x ∈ firstPage ++ paidOrders, x.IsQuery := by decide
  obtain ⟨d, hd, hd', -⟩ := after_sameCalls hc hq sameCalls_paidOrders
  refine ⟨hc, hq, sameCalls_paidOrders, d, hd, hd', ?_⟩
  have hbuilt : ((forCollection "Orders").after (firstPage ++ paidOrders) >>=
      (Adapter.northwindAdapter .v4).compile) = .ok paidOrdersRequest := rfl
  rwa [hd, ok_bind] at hbuilt

end Command

end ODataClient
