import ODataClient.Proofs.Command.Casting
import ODataClient.Proofs.Request.Invocations
import Mathlib.Data.List.TakeWhile

/-! Requests with a cast put in. The path gains the name of the type where the cast stands, and
everything else of a request is read off the last node. So a cast that a step follows only narrows
the request. At the end it gives the request of the command without the calls that it discards,
unless the method asks for the key, which stays in front of the cast. -/

namespace ODataClient

namespace Address

def under (front : List String) (p : Address) : Address := ⟨front ++ p.segments, p.collection⟩

end Address

/-- What a path goes on with behind its first segments. -/
def behind (segs : List String) : String := if segs.isEmpty then "" else "/" ++ joinSegments segs

theorem joinSegments_behind {front : List String} (h : front ≠ []) (segs : List String) :
    joinSegments (front ++ segs) = joinSegments front ++ behind segs := by
  cases segs with
  | nil => simp [behind]
  | cons s segs =>
    rw [joinSegments_append h (List.cons_ne_nil s segs), String.append_assoc]
    rfl

/-- The request is the same but for the name of a type behind the first part of its path. -/
structure CompiledRequest.Narrowed (front typeName : String) (r r' : CompiledRequest) : Prop where
  method : r'.method = r.method
  clauses : r'.clauses = r.clauses
  entityFilters : r'.entityFilters = r.entityFilters
  payload : r'.payload = r.payload
  path : ∃ rest, r.path = front ++ rest ∧ r'.path = front ++ "/" ++ typeName ++ rest

theorem CompiledRequest.Narrowed.unique {front typeName : String} {r r₀ r' : CompiledRequest}
    (h : r.Narrowed front typeName r') (h₀ : r₀.Narrowed front typeName r') : r₀ = r := by
  obtain ⟨rest, hr, hr'⟩ := h.path
  obtain ⟨rest₀, hr₀, hr₀'⟩ := h₀.path
  have hrest : rest₀ = rest := (String.append_right_inj _).1 (hr₀'.symm.trans hr')
  have hpath : r₀.path = r.path := by rw [hr₀, hr, hrest]
  have hmethod := h₀.method.symm.trans h.method
  have hclauses := h₀.clauses.symm.trans h.clauses
  have hfilters := h₀.entityFilters.symm.trans h.entityFilters
  have hpayload := h₀.payload.symm.trans h.payload
  cases r₀
  cases r
  simp_all

/-- The method of the node depends on a key. -/
def CommandNode.needsKey (n : CommandNode) : Bool :=
  n.invocation.isNone && match n.operation with
    | .update => true
    | .delete => n.link.isNone
    | _ => false

namespace Adapter

variable {a : Adapter} {c c' : Command} {n n' : CommandNode} {p q : Address} {r r' : CompiledRequest}
  {nodes : List CommandNode} {front : List String} {typeName : String}

/-! ### Addresses -/

theorem addSegment_under (front : List String) (p : Address) (n : CommandNode) :
    a.addSegment (p.under front) n = (a.addSegment p n).map (Address.under front) := by
  cases hs : n.segment with
  | none => simp [addSegment, hs]
  | some segment =>
    cases segment with
    | collection name =>
      simp only [addSegment, hs]
      cases a.navigator.requireCollection name <;> simp [Address.under]
    | derivedType name => simp [addSegment, hs, Address.under]
    | batchReference name =>
      simp only [addSegment, hs]
      cases batchSegment n name <;> simp [Address.under]
    | navigation name =>
      cases hp : p.collection with
      | none => simp [addSegment, hs, hp, Address.under]
      | some current =>
        simp only [addSegment, hs, hp, Address.under]
        cases a.navigator.requireNavigation current name with
        | error e => rfl
        | ok found => cases h : a.navigator.partner current found <;> simp [h, Address.under]

theorem addKey_under (front : List String) (hp : p.segments ≠ []) (keys : Keys) :
    a.addKey (p.under front) keys = (a.addKey p keys).map (Address.under front) := by
  rw [addKey, addKey]
  split
  · rfl
  · have hcollection : (p.under front).collection = p.collection := rfl
    rw [hcollection]
    cases a.keyPredicate p.collection keys with
    | error e => rfl
    | ok predicate =>
      obtain ⟨init, last, hlast⟩ := (List.eq_nil_or_concat p.segments).resolve_left hp
      simp [Address.under, hlast, ← List.append_assoc]

/-- A node with a segment writes behind what is there. -/
theorem addNode_under (front : List String) (hs : n.segment.isSome = true) (p : Address) :
    a.addNode (p.under front) n = (a.addNode p n).map (Address.under front) := by
  rw [addNode, addNode, addSegment_under]
  cases hq : a.addSegment p n with
  | error e => rfl
  | ok q => exact addKey_under front (segments_ne_nil hs hq) n.keys

theorem foldlM_under (front : List String) (hs : ∀ n ∈ nodes, n.segment.isSome = true)
    (p : Address) :
    nodes.foldlM a.addNode (p.under front) = (nodes.foldlM a.addNode p).map (Address.under front) := by
  induction nodes generalizing p with
  | nil => rfl
  | cons n nodes ih =>
    rw [List.forall_mem_cons] at hs
    rw [List.foldlM_cons, List.foldlM_cons, addNode_under front hs.1]
    cases a.addNode p n with
    | error e => rfl
    | ok q => exact ih hs.2 q

theorem address_bare (a : Adapter) (nodes : List CommandNode) :
    a.address (nodes.map (·.bare)) = a.address nodes := by
  rw [address, List.foldlM_map]
  rfl

theorem addNode_congr (hs : n'.segment = n.segment) (hk : n'.keys = n.keys)
    (hn : ∀ name, n.segment ≠ some (.batchReference name)) (p : Address) :
    a.addNode p n' = a.addNode p n := by
  have hadd : a.addSegment p n' = a.addSegment p n := by
    rw [addSegment.eq_def, addSegment.eq_def, hs]
    cases hsegment : n.segment with
    | none => rfl
    | some segment =>
      cases segment with
      | batchReference name => exact absurd hsegment (hn name)
      | _ => rfl
  rw [addNode, addNode, hadd, hk]

theorem addNode_cast (hs : n.segment = some (.derivedType typeName)) (hk : n.keys = .none)
    (p : Address) : a.addNode p n = .ok ⟨p.segments ++ [typeName], p.collection⟩ := by
  simp [addNode, addSegment, hs, addKey, hk]

theorem reached_eq (a : Adapter) (nodes : List CommandNode) : a.reached nodes =
    (nodes.map (·.segment)).foldlM (followSegment a.navigator) none := by
  rw [reached, List.foldlM_map]

/-- A cast stays in its collection. -/
theorem reached_cast {before after : List CommandNode}
    (hs : n.segment = some (.derivedType typeName)) :
    a.reached (before ++ n :: after) = a.reached (before ++ after) := by
  rw [reached_eq, reached_eq, List.map_append, List.map_append, List.foldlM_append,
    List.foldlM_append, List.map_cons, hs]
  rfl

/-! ### Everything else -/

/-- The segments that the last node adds to its address. -/
def trailing (a : Adapter) (n : CommandNode) : Except Error (List String) :=
  (a.linkSegments n).map fun links => links ++ n.media.toList ++
    (if n.computeCount then ["$count"] else []) ++ (n.invocation.map a.invocationSegment).toList

theorem path_of_address (h : a.address c.chain = .ok p) :
    a.path c = (a.trailing c.node).map fun back => joinSegments (p.segments ++ back) := by
  rw [path_eq, resource, h, trailing, ok_bind]
  cases a.linkSegments c.node with
  | error e => rfl
  | ok links => simp

theorem target_congr (hreached : a.reached c'.chain = a.reached c.chain)
    (hentity : c'.entityName? = c.entityName?) (hcall : c'.node.invocation = c.node.invocation) :
    a.target c' = a.target c := by
  rw [target, target, hentity, hcall]
  exact congrArg (· >>= _) hreached

section Placed

variable {segment : Option Segment} {keys : Keys}

theorem analyze_placed (ht : a.target c' = a.target c) (hn : c'.node = c.node.placed segment keys) :
    a.analyze c' = a.analyze c := by
  rw [analyze, analyze, ht, hn]
  rfl

theorem clauses_placed (ht : a.target c' = a.target c) (hn : c'.node = c.node.placed segment keys)
    (filters : EntityFilters) : a.clauses c' filters = a.clauses c filters := by
  obtain ⟨ancestors, node⟩ := c'
  obtain rfl := hn
  rw [clauses, clauses, ht]
  rfl

theorem payload_placed (hn : c'.node = c.node.placed segment keys) : a.payload c' = a.payload c := by
  rw [payload, payload, hn]
  rfl

/-- Two commands with the same method whose last nodes differ in their place only: the request of
the one is that of the other, narrowed. -/
theorem compile_placed_iff (ht : a.target c' = a.target c)
    (hn : c'.node = c.node.placed segment keys) (hm : a.method c' = a.method c)
    (hfront : front ≠ []) (hp : a.address c.chain = .ok (q.under front))
    (hp' : a.address c'.chain = .ok (q.under (front ++ [typeName]))) :
    a.compile c' = .ok r' ↔
      ∃ r, a.compile c = .ok r ∧ r.Narrowed (joinSegments front) typeName r' := by
  have hpath := path_of_address hp
  have hpath' := path_of_address hp'
  have hback : a.trailing c'.node = a.trailing c.node := by
    rw [hn]
    rfl
  rw [hback] at hpath'
  have hwithout : ∀ back, joinSegments ((q.under front).segments ++ back) =
      joinSegments front ++ behind (q.segments ++ back) := by
    intro back
    rw [Address.under, List.append_assoc, joinSegments_behind hfront]
  have hwith : ∀ back, joinSegments ((q.under (front ++ [typeName])).segments ++ back) =
      joinSegments front ++ "/" ++ typeName ++ behind (q.segments ++ back) := by
    intro back
    rw [Address.under, List.append_assoc, joinSegments_behind (by simp),
      joinSegments_append hfront (by simp)]
    rfl
  simp only [hwithout] at hpath
  simp only [hwith] at hpath'
  constructor
  · intro h
    obtain ⟨filters, hfilters, hclauses, hpathr, hmethod, htexts, hpayload⟩ := compile_eq_ok_iff.1 h
    obtain ⟨back, hbackr, hrest⟩ := map_eq_ok_iff.1 (hpath'.symm.trans hpathr)
    refine ⟨{ r' with path := joinSegments front ++ behind (q.segments ++ back) }, ?_,
      ⟨rfl, rfl, rfl, rfl, _, rfl, hrest.symm⟩⟩
    refine compile_eq_ok_iff.2 ⟨filters, ?_, ?_, ?_, ?_, htexts, ?_⟩
    · rw [← analyze_placed ht hn, hfilters]
    · rw [← clauses_placed ht hn, hclauses]
    · rw [hpath, hbackr, map_ok]
    · rw [← hm, hmethod]
    · rw [← payload_placed hn, ← hpayload]
  · rintro ⟨r, h, hnarrowed⟩
    obtain ⟨filters, hfilters, hclauses, hpathr, hmethod, htexts, hpayload⟩ := compile_eq_ok_iff.1 h
    obtain ⟨back, hbackr, hrest⟩ := map_eq_ok_iff.1 (hpath.symm.trans hpathr)
    obtain ⟨rest, hr, hr'⟩ := hnarrowed.path
    obtain rfl : behind (q.segments ++ back) = rest := by
      exact String.append_right_inj _ |>.1 (hrest.trans hr)
    refine compile_eq_ok_iff.2 ⟨filters, ?_, ?_, ?_, ?_, ?_, ?_⟩
    · rw [analyze_placed ht hn, hfilters]
    · rw [clauses_placed ht hn, hclauses, hnarrowed.clauses]
    · rw [hpath', hbackr, map_ok, hr']
    · rw [hm, hmethod, hnarrowed.method]
    · rw [htexts, hnarrowed.entityFilters]
    · rw [payload_placed hn, hnarrowed.payload, hpayload]

end Placed

theorem method_of_same (ht : a.target c' = a.target c) (hn : c'.node = c.node) :
    a.method c' = a.method c := by
  simp only [method, changesKey, addressedKey, ht, hn]

/-- Behind a cast, a method that depends on a key is refused and any other one is as before. -/
theorem method_cast (hn : c'.node = c.node.placed (some (.derivedType typeName)) .none) :
    (c.node.needsKey = true → ∃ e, a.method c' = .error e) ∧
      (c.node.needsKey = false → a.method c' = a.method c) := by
  have hnowhere : addressesEntity c'.node = false := by
    rw [hn]
    rfl
  have hcall : c'.node.invocation = c.node.invocation := by rw [hn]; rfl
  have hoperation : c'.node.operation = c.node.operation := by rw [hn]; rfl
  have hentry : c'.node.entry = c.node.entry := by rw [hn]; rfl
  have hlink : c'.node.link = c.node.link := by rw [hn]; rfl
  have htarget : c'.node.linkTarget = c.node.linkTarget := by rw [hn]; rfl
  simp only [method, hnowhere, hcall, hoperation, hentry, hlink, htarget, CommandNode.needsKey]
  cases hi : c.node.invocation with
  | some call => simp
  | none =>
    cases ho : c.node.operation with
    | query => simp
    | insert => simp
    | update => simp
    | delete => cases hl : c.node.link <;> simp

/-! ### The cast in a command -/

/-- A request whose path has a first part can be narrowed behind it. -/
theorem exists_narrowed (hfront : front ≠ []) (hp : a.address c.chain = .ok (q.under front))
    (hr : a.compile c = .ok r) (typeName : String) :
    ∃ r', r.Narrowed (joinSegments front) typeName r' := by
  obtain ⟨back, -, hpath⟩ :=
    map_eq_ok_iff.1 ((path_of_address hp).symm.trans (path_of_compile hr))
  rw [Address.under, List.append_assoc, joinSegments_behind hfront] at hpath
  exact ⟨{ r with path := joinSegments front ++ "/" ++ typeName ++ behind (q.segments ++ back) },
    rfl, rfl, rfl, rfl, _, hpath.symm, rfl⟩

theorem address_append (a : Adapter) (before after : List CommandNode) :
    a.address (before ++ after) = a.address before >>= after.foldlM a.addNode := List.foldlM_append

/-- What the nodes behind a cast add to the address, with and without it. -/
theorem address_cast {before : List CommandNode} {p₁ : Address} (hp : a.address before = .ok p)
    (hs : ∀ n ∈ nodes, n.segment.isSome = true) (h : nodes.foldlM a.addNode p = .ok p₁)
    (hcast : n.segment = some (.derivedType typeName)) (hkeys : n.keys = .none) :
    ∃ q, p₁ = Address.under p.segments q ∧
      a.address (before ++ n :: nodes) = .ok (q.under (p.segments ++ [typeName])) := by
  have hunder : ∀ front, Address.under front ⟨[], p.collection⟩ = ⟨front, p.collection⟩ := by
    intro front
    simp [Address.under]
  have hself : p = Address.under p.segments ⟨[], p.collection⟩ := by rw [hunder]
  rw [hself, foldlM_under _ hs, map_eq_ok_iff] at h
  obtain ⟨q, hq, rfl⟩ := h
  refine ⟨q, rfl, ?_⟩
  rw [address_append, hp, ok_bind, List.foldlM_cons, addNode_cast hcast hkeys, ok_bind, ← hunder,
    foldlM_under _ hs, hq, map_ok]

/-- The last node may be replaced by one at the same place. -/
theorem address_last (before : List CommandNode) (hs : n'.segment = n.segment)
    (hk : n'.keys = n.keys) (hn : ∀ name, n.segment ≠ some (.batchReference name)) :
    a.address (before ++ [n']) = a.address (before ++ [n]) := by
  rw [address_append, address_append]
  simp only [List.foldlM_cons, addNode_congr hs hk hn]

end Adapter

namespace Command

open Adapter

variable {a : Adapter} {c d : Command} {r : CompiledRequest} {before after : List Call}

theorem takeWhile_of_step {middle rest : List Call} {y : Call}
    (hstay : ∀ x ∈ middle, x.step? = none) (hy : y.step?.isSome = true) :
    (middle ++ y :: rest).takeWhile (fun x => x.step?.isNone) = middle := by
  have hy : y.step?.isNone = false := by
    rw [← Option.not_isSome, hy]
    rfl
  rw [List.takeWhile_append_of_pos fun x hx => by simp [hstay x hx], List.takeWhile_cons_of_neg]
  · exact List.append_nil middle
  · simp [hy]

theorem exists_first_step {calls : List Call} (h : ∃ x ∈ calls, x.step?.isSome = true) :
    ∃ middle y rest segment, calls = middle ++ y :: rest ∧
      (∀ x ∈ middle, x.step? = none) ∧ y.step? = some segment := by
  induction calls with
  | nil => simp at h
  | cons x calls ih =>
    cases hx : x.step? with
    | some segment => exact ⟨[], x, calls, segment, rfl, by simp, hx⟩
    | none =>
      have hlater : ∃ x ∈ calls, x.step?.isSome = true := by simpa [hx] using h
      obtain ⟨middle, y, rest, segment, rfl, hstay, hy⟩ := ih hlater
      exact ⟨x :: middle, y, rest, segment, rfl, List.forall_mem_cons.2 ⟨hx, hstay⟩, hy⟩

theorem build_of_run (hbefore : before.foldlM apply empty = .ok d)
    (hafter : after.foldlM apply d = .ok c) (hs : c.node.segment.isSome = true) :
    build (before ++ after) = .ok c :=
  build_eq_ok_iff.2 ⟨foldlM_append_eq_ok_iff.2 ⟨d, hbefore, hafter⟩, .inl hs⟩

/-- What a cast does to the request when a step follows it. -/
theorem narrowed_before_step (hs : d.node.segment.isSome = true)
    (hroot : ∀ n ∈ d.chain, ∀ name, n.segment ≠ some (.batchReference name))
    {middle rest : List Call} {y : Call} {segment : Segment}
    (hstay : ∀ x ∈ middle, x.step? = none) (hkeys : ∀ x ∈ middle, x.keys? = none)
    (hy : y.step? = some segment) (h : (middle ++ y :: rest).foldlM apply d = .ok c)
    (hc : c.WellFormed) (hr : a.compile c = .ok r) (typeName : String) :
    ∃ c' p, (middle ++ y :: rest).foldlM apply (d.step (.derivedType typeName)) = .ok c' ∧
      c'.node.segment.isSome = true ∧ a.address d.chain = .ok p ∧
      ∃ r', a.compile c' = .ok r' ∧ r.Narrowed (joinSegments p.segments) typeName r' := by
  obtain ⟨c', hc', hfollows, hnode, n, n', tail, hseg, hkey, hseg', hkey', hanc, hanc'⟩ :=
    cast_before_step hs hstay hkeys hy h typeName
  have hchain : c.chain = (d.ancestors ++ [n]) ++ (tail ++ [c.node]) := by
    rw [chain, hanc]
    simp
  have hchain' : c'.chain = d.chain ++ n' :: (tail ++ [c.node]) := by
    rw [chain, hanc', hnode]
    simp
  have hsegments : ∀ m ∈ tail ++ [c.node], m.segment.isSome = true := by
    intro m hm
    rcases List.mem_append.1 hm with hm | hm
    · refine hc.segment_of_ancestor ?_
      rw [hanc]
      simp [hm]
    · obtain rfl := List.mem_singleton.1 hm
      exact hfollows.here
  obtain ⟨p₁, hp₁, -⟩ := bind_eq_ok_iff.1 (path_of_compile hr)
  have haddress : a.address c.chain = .ok p₁ := hp₁
  rw [hchain, address_append] at haddress
  obtain ⟨p, hp, hfold⟩ := bind_eq_ok_iff.1 haddress
  have hp : a.address d.chain = .ok p :=
    (address_last d.ancestors hseg hkey (hroot d.node d.node_mem_chain)).symm.trans hp
  obtain ⟨q, rfl, hcast⟩ := address_cast hp hsegments hfold hseg' hkey'
  rw [← hchain'] at hcast
  have hne : p.segments ≠ [] := address_ne_nil hs hp
  have hreached : a.reached c'.chain = a.reached c.chain := by
    rw [hchain', reached_cast hseg', hchain, reached_eq, reached_eq]
    simp [chain, hseg]
  have ht := target_congr hreached hfollows.entity (by rw [hnode])
  obtain ⟨r', hnarrowed⟩ := exists_narrowed hne hp₁ hr typeName
  have hplaced : c'.node = c.node.placed c.node.segment c.node.keys := hnode
  exact ⟨c', p, hc', hfollows.there, hp, r', (compile_placed_iff ht hplaced
    (method_of_same ht hnode) hne hp₁ hcast).2 ⟨r, hr, hnarrowed⟩, hnarrowed⟩

/-- What a cast does to the request when no step follows it. -/
theorem narrowed_at_end (hs : d.node.segment.isSome = true)
    (hroot : ∀ n ∈ d.chain, ∀ name, n.segment ≠ some (.batchReference name))
    (hstay : ∀ x ∈ after, x.step? = none) (hkeys : ∀ x ∈ after, x.keys? = none)
    (h : after.foldlM apply d = .ok c) (hr : a.compile c = .ok r) (typeName : String) :
    ∃ c' c₀ p, after.foldlM apply (d.step (.derivedType typeName)) = .ok c' ∧
      after.foldlM apply d.bare = .ok c₀ ∧ c'.node.segment.isSome = true ∧
      c₀.node.segment.isSome = true ∧ a.address d.chain = .ok p ∧
      ((∃ r', a.compile c' = .ok r' ∧ r.Narrowed (joinSegments p.segments) typeName r') ↔
        a.compile c₀ = .ok r ∧ c₀.node.needsKey = false) := by
  obtain ⟨c', c₀, hc', hc₀, hfollows', hfollows₀, hplaced, ⟨hanc, hseg, hkey⟩,
    ⟨hanc₀, hseg₀, hkey₀⟩, hanc'⟩ := cast_at_end hs hstay hkeys h typeName
  have hnode := hroot d.node d.node_mem_chain
  obtain ⟨p, hp, -⟩ := bind_eq_ok_iff.1 (path_of_compile hr)
  have hp : a.address d.chain = .ok p := by
    rw [← hp, chain, chain, hanc]
    exact (address_last d.ancestors hseg hkey hnode).symm
  have hp₀ : a.address c₀.chain = .ok p := by
    have hbare : c₀.chain = d.bare.ancestors ++ [c₀.node] := by rw [chain, hanc₀]
    have hlast : a.address (d.bare.ancestors ++ [c₀.node]) = a.address d.bare.chain :=
      address_last d.bare.ancestors hseg₀ hkey₀ hnode
    rw [hbare, hlast, chain_bare, address_bare, hp]
  have hchain' : c'.chain = d.chain ++ [c'.node] := by rw [chain, hanc']
  have hcast : c'.node.segment = some (.derivedType typeName) := by
    rw [hplaced]
    rfl
  have hend : [].foldlM a.addNode p = .ok p := rfl
  obtain ⟨q, hq, haddress⟩ := address_cast hp (by simp) hend hcast (by rw [hplaced]; rfl)
  rw [← hchain'] at haddress
  have hne : p.segments ≠ [] := address_ne_nil hs hp
  have hreached : a.reached c'.chain = a.reached c₀.chain := by
    rw [hchain', reached_cast hcast, reached_eq, reached_eq, chain, chain, hanc₀]
    simp [bare, hseg₀, Function.comp_def, CommandNode.bare]
  have ht : a.target c' = a.target c₀ := by
    refine target_congr hreached (hfollows'.entity.trans hfollows₀.entity.symm) ?_
    rw [hplaced]
    rfl
  refine ⟨c', c₀, p, hc', hc₀, hfollows'.there, hfollows₀.there, hp, ?_⟩
  obtain ⟨hrefused, hsame⟩ := method_cast (a := a) hplaced
  constructor
  · rintro ⟨r', hr', hnarrowed⟩
    cases hneeds : c₀.node.needsKey with
    | true =>
      obtain ⟨e, he⟩ := hrefused hneeds
      simp [method_of_compile hr'] at he
    | false =>
      rw [hq] at hp₀
      obtain ⟨r₀, hr₀, hnarrowed₀⟩ :=
        (compile_placed_iff ht hplaced (hsame hneeds) hne hp₀ haddress).1 hr'
      exact ⟨hnarrowed.unique hnarrowed₀ ▸ hr₀, rfl⟩
  · rintro ⟨hr₀, hneeds⟩
    rw [hq] at hp₀
    obtain ⟨r', hnarrowed⟩ := exists_narrowed hne hp₀ hr₀ typeName
    exact ⟨r', (compile_placed_iff ht hplaced (hsame hneeds) hne hp₀ haddress).2
      ⟨r, hr₀, hnarrowed⟩, hnarrowed⟩

/-- A cast put into a command over a collection, behind the calls that set its keys. It narrows the
request and keeps the rest of it exactly when a step follows it before the end, or when the request
is that of the command without the calls that the cast discards and its method asks for no key. -/
theorem narrowed_iff {name typeName : String} (hname : .collection name ∈ before)
    (hkeys : ∀ x ∈ after.takeWhile (fun x => x.step?.isNone), x.keys? = none)
    (htype : isBlankText typeName = false) (h : build (before ++ after) = .ok c)
    (hr : a.compile c = .ok r) :
    ∃ c' c₀ d p, build (before ++ .asType typeName :: after) = .ok c' ∧
      build (before.filter Call.outlivesCast ++ after) = .ok c₀ ∧
      before.foldlM apply empty = .ok d ∧ a.address d.chain = .ok p ∧
      ((∃ r', a.compile c' = .ok r' ∧ r.Narrowed (joinSegments p.segments) typeName r') ↔
        (∃ x ∈ after, x.step?.isSome = true) ∨
          a.compile c₀ = .ok r ∧ c₀.node.needsKey = false) := by
  obtain ⟨hrun, -⟩ := build_eq_ok_iff.1 h
  have hshape := wellFormed_of_run hrun
  obtain ⟨d, hd, hafter⟩ := foldlM_append_eq_ok_iff.1 hrun
  obtain ⟨hs, hroot⟩ := over_collection hd hname
  have hbare := run_bare hd
  have haccepts : d.Accepts (.asType typeName) :=
    ⟨fun _ => hs, by simp [Call.isComplete, htype], by simp [Call.start?], by simp [Call.navigation?],
      by simp [Call.invocation?], by simp [Call.reference?]⟩
  have hcast : ∀ {c'}, after.foldlM apply (d.step (.derivedType typeName)) = .ok c' →
      (Call.asType typeName :: after).foldlM apply d = .ok c' := fun hc' =>
    foldlM_cons_eq_ok_iff.2 ⟨haccepts, hc'⟩
  by_cases hstep : ∃ x ∈ after, x.step?.isSome = true
  · obtain ⟨middle, y, rest, segment, rfl, hstay, hy⟩ := exists_first_step hstep
    rw [takeWhile_of_step hstay (by simp [hy])] at hkeys
    obtain ⟨c', p, hc', hs', hp, hnarrowed⟩ :=
      narrowed_before_step hs hroot hstay hkeys hy hafter hshape hr typeName
    obtain ⟨c₀, hc₀, hfollows⟩ := (follows_bare hs).run hafter
    exact ⟨c', c₀, d, p, build_of_run hd (hcast hc') hs', build_of_run hbare hc₀ hfollows.there, hd,
      hp, iff_of_true hnarrowed (.inl hstep)⟩
  · have hstay : ∀ x ∈ after, x.step? = none := fun x hx => by
      simpa using fun hsome => hstep ⟨x, hx, hsome⟩
    rw [List.takeWhile_eq_self_iff.2 fun x hx => by simp [hstay x hx]] at hkeys
    obtain ⟨c', c₀, p, hc', hc₀, hs', hs₀, hp, hiff⟩ :=
      narrowed_at_end hs hroot hstay hkeys hafter hr typeName
    refine ⟨c', c₀, d, p, build_of_run hd (hcast hc') hs', build_of_run hbare hc₀ hs₀, hd, hp, ?_⟩
    rw [hiff]
    exact (or_iff_right hstep).symm

def oneCustomer : List Call := [.collection "Customers", .key [.string "ALFKI"]]

def firstOrders : List Call := [.navigate "Orders", .top 5]

def firstOrdersRequest : CompiledRequest where
  method := .get
  path := "Customers('ALFKI')/Orders"
  clauses := [⟨"$top", "5"⟩]
  entityFilters := .empty
  payload := none

/-- The customer may be taken for one of a derived type on the way to the orders. -/
theorem firstOrders_narrowed :
    ∃ c', build (oneCustomer ++ .asType "Ns.Vip" :: firstOrders) = .ok c' ∧
      ∃ r', (northwindAdapter .v4).compile c' = .ok r' ∧
        firstOrdersRequest.Narrowed "Customers('ALFKI')" "Ns.Vip" r' := by
  obtain ⟨c, hc, hr⟩ : ∃ c, build (oneCustomer ++ firstOrders) = .ok c ∧
      (northwindAdapter .v4).compile c = .ok firstOrdersRequest := ⟨_, rfl, rfl⟩
  obtain ⟨c', c₀, d, p, hc', hc₀, hd, hp, hiff⟩ :=
    narrowed_iff (show Call.collection "Customers" ∈ oneCustomer by simp [oneCustomer])
      (by simp [firstOrders, Call.step?]) (show isBlankText "Ns.Vip" = false by decide) hc hr
  have hfront : joinSegments p.segments = "Customers('ALFKI')" := by
    obtain rfl := Except.ok.inj hd
    obtain rfl := Except.ok.inj hp
    decide
  rw [hfront] at hiff
  exact ⟨c', hc', hiff.2 (.inl ⟨.navigate "Orders", by simp [firstOrders], by rfl⟩)⟩

def oneProduct : List Call := [.collection "Products", .key [.int32 1]]

def removedProduct : CompiledRequest where
  method := .delete
  path := "Products(1)"
  clauses := []
  entityFilters := .empty
  payload := none

/-- A product can be deleted. Taken for one of a derived type it cannot, although its key stands in
the path; and a cast at the end makes the deletion a query. -/
theorem specialProduct_not_removed :
    ∃ c c' c'', build (oneProduct ++ [.delete]) = .ok c ∧
      build (oneProduct ++ [.asType "Ns.Special", .delete]) = .ok c' ∧
      build (oneProduct ++ [.delete, .asType "Ns.Special"]) = .ok c'' ∧
      (northwindAdapter .v4).compile c = .ok removedProduct ∧
      (northwindAdapter .v4).compile c' = .error (.invalidCommand .deleteWithoutKey) ∧
      (northwindAdapter .v4).path c' = .ok "Products(1)/Ns.Special" ∧
      ∃ r, (northwindAdapter .v4).compile c'' = .ok r ∧ r.method = .get :=
  ⟨_, _, _, rfl, rfl, rfl, rfl, rfl, rfl, _, rfl, rfl⟩

end Command

end ODataClient
