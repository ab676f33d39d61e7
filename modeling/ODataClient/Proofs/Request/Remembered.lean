import ODataClient.Proofs.Model.Memo
import ODataClient.Proofs.Model.Route
import ODataClient.Proofs.Request.Fragments
import ODataClient.Proofs.Text.Segments
import ODataClient.Request.Compile

/-! Commands compiled over remembered answers. A compiler asks for the navigations that the
segments of a path name, and for those that a chain of nodes follows. Where the answers agree
there, so do the requests; and over a model they agree just when every navigation that can be
found leads to a declared collection. -/

namespace ODataClient

namespace Navigator

variable {nav nav' : Navigator}

/-- One step along a navigation: its own name, and the collection that it leads to. -/
def follow (nav : Navigator) (current navigation : String) : Except Error (String × String) := do
  let name ← nav.requireNavigation current navigation
  let partner ← nav.partner current name
  return (name, partner)

theorem map_follow {α : Type} (f : String → String → α) (current navigation : String) :
    (nav.follow current navigation).map (fun step => f step.1 step.2) = (do
      let name ← nav.requireNavigation current navigation
      let partner ← nav.partner current name
      return f name partner) := by
  rw [follow]
  cases nav.requireNavigation current navigation with
  | error error => rfl
  | ok name => cases h : nav.partner current name <;> simp [h]

theorem follow_of_none {current navigation : String}
    (h : nav.navigationName current navigation = none) :
    nav.follow current navigation = .error (.unknownNavigation current navigation) := by
  rw [follow, requireNavigation, h]
  rfl

theorem follow_of_some {current navigation name : String}
    (h : nav.navigationName current navigation = some name) :
    nav.follow current navigation = (nav.partner current name).map (name, ·) := by
  rw [follow, requireNavigation, h]
  simp only [ok_bind]
  cases nav.partner current name <;> simp

/-- Both give a compiler the same answers. -/
structure Agree (nav nav' : Navigator) : Prop where
  collectionName : nav.collectionName = nav'.collectionName
  keyProperties : nav.keyProperties = nav'.keyProperties
  navigationName (current segment : String) (hs : '/' ∉ segment.toList) :
    nav.navigationName current segment = nav'.navigationName current segment
  hop (current segment name : String) (hs : '/' ∉ segment.toList)
    (hn : nav.navigationName current segment = some name) :
    nav.isCollection current name = nav'.isCollection current name ∧
      nav.partner current name = nav'.partner current name
  follow (current navigation : String) :
    nav.follow current navigation = nav'.follow current navigation

variable (h : nav.Agree nav')

include h

theorem Agree.requireCollection (name : String) :
    nav.requireCollection name = nav'.requireCollection name := by
  rw [Navigator.requireCollection, Navigator.requireCollection, h.collectionName]

theorem Agree.followPath (dialect : Dialect) (root path : String) {segs : List String}
    (hs : ∀ s ∈ segs, '/' ∉ s.toList) (current : String) (passed : List String) :
    followPath nav dialect root path current passed segs =
      ODataClient.followPath nav' dialect root path current passed segs := by
  induction segs generalizing current passed with
  | nil => rfl
  | cons segment rest ih =>
    have hsegment : '/' ∉ segment.toList := hs segment (by simp)
    have hrest : ∀ s ∈ rest, '/' ∉ s.toList := fun s hm => hs s (by simp [hm])
    rw [ODataClient.followPath, ODataClient.followPath, ← h.navigationName current segment hsegment]
    cases hn : nav.navigationName current segment with
    | none => rfl
    | some name =>
      obtain ⟨hmany, hpartner⟩ := h.hop current segment name hsegment hn
      simp only [hmany, hpartner, ih hrest]

theorem Agree.referenceTarget (dialect : Dialect) (root path : String) :
    referenceTarget nav dialect root path = ODataClient.referenceTarget nav' dialect root path :=
  h.followPath dialect root path (fun _ hs => noSlash_of_mem_segments hs) root []

theorem Agree.filePart (options : FilterOptions) (hq : options.queryOption = false) (root : String)
    (part : Expr) : filePart nav options root part = ODataClient.filePart nav' options root part := by
  have hkept : keptPath nav options.dialect root = keptPath nav' options.dialect root := by
    funext path
    rw [keptPath, keptPath, h.referenceTarget]
  have htargets : ∀ os, targetsOf nav options.dialect root os =
      targetsOf nav' options.dialect root os := fun os => by
    simp only [targetsOf, h.referenceTarget]
  rw [ODataClient.filePart, ODataClient.filePart, retarget_eq hq, retarget_eq hq, htargets,
    Expr.retargeted, Expr.retargeted, hkept]

theorem Agree.canonicalHops? {segs : List String} (hs : ∀ s ∈ segs, '/' ∉ s.toList)
    (current : String) :
    Adapter.canonicalHops? nav current segs = Adapter.canonicalHops? nav' current segs := by
  induction segs generalizing current with
  | nil => rfl
  | cons segment rest ih =>
    have hsegment : '/' ∉ segment.toList := hs segment (by simp)
    have hrest : ∀ s ∈ rest, '/' ∉ s.toList := fun s hm => hs s (by simp [hm])
    rw [Adapter.canonicalHops?, Adapter.canonicalHops?,
      ← h.navigationName current segment hsegment]
    cases hn : nav.navigationName current segment with
    | none => rfl
    | some name =>
      obtain ⟨-, hpartner⟩ := h.hop current segment name hsegment hn
      simp only [Option.bind_eq_bind, Option.bind_some, hpartner, ih hrest]

theorem Agree.canonicalPath (root : Option String) (path : String) :
    Adapter.canonicalPath nav root path = Adapter.canonicalPath nav' root path := by
  have hhops : ∀ r, Adapter.canonicalHops? nav r (segments path) =
      Adapter.canonicalHops? nav' r (segments path) := fun r =>
    h.canonicalHops? (fun _ hs => noSlash_of_mem_segments hs) r
  simp only [Adapter.canonicalPath, hhops]

theorem Agree.followSegment (collection : Option String) (segment : Option Segment) :
    Adapter.followSegment nav collection segment = Adapter.followSegment nav' collection segment := by
  match segment, collection with
  | some (.collection name), _ =>
    rw [Adapter.followSegment, Adapter.followSegment, h.requireCollection]
  | some (.navigation navigation), some current =>
    have hstep : ∀ nav : Navigator, Adapter.followSegment nav (some current)
        (some (.navigation navigation)) =
          (nav.follow current navigation).map fun step => some step.2 := by
      intro nav
      rw [Adapter.followSegment]
      exact (map_follow (fun _ partner => some partner) current navigation).symm
    rw [hstep, hstep, h.follow]
  | some (.navigation _), none | some (.batchReference _), _ | some (.derivedType _), _ | none, _ =>
    rfl

end Navigator

namespace Adapter

variable {a : Adapter} {nav : Navigator} {c : Command}

/-- The adapter for the same version and options over other answers. -/
def consulting (a : Adapter) (nav : Navigator) : Adapter := { a with navigator := nav }

section Agree

variable (h : a.navigator.Agree nav)

include h

theorem target_consulting (c : Command) : (a.consulting nav).target c = a.target c := by
  have hsegment : (fun collection (n : CommandNode) =>
      followSegment nav collection n.segment) = fun collection (n : CommandNode) =>
        followSegment a.navigator collection n.segment := by
    funext collection n
    exact (h.followSegment collection n.segment).symm
  rw [target, target, consulting, hsegment]

theorem fragment_consulting (t : CommandTarget) (entity : String) (part : Expr) :
    (a.consulting nav).fragment t entity part = a.fragment t entity part := by
  have hpath := h.canonicalPath t.collection entity
  have hpart := h.filePart a.filterOptions rfl
  have hroot := h.requireCollection
  rw [fragment, fragment, hpath]
  simp only [hroot, hpart]
  rfl

theorem analyze_consulting (c : Command) : (a.consulting nav).analyze c = a.analyze c := by
  have hfragment : ∀ t, (fun p : String × Expr => (a.consulting nav).fragment t p.1 p.2) =
      fun p => a.fragment t p.1 p.2 := fun t => funext fun p => fragment_consulting h t p.1 p.2
  simp only [analyze_eq, target_consulting h, hfragment]

theorem addSegment_consulting (p : Address) (n : CommandNode) :
    (a.consulting nav).addSegment p n = a.addSegment p n := by
  rw [addSegment, addSegment]
  cases n.segment with
  | none => rfl
  | some segment =>
    cases segment with
    | collection name => simp only [consulting, h.requireCollection]
    | navigation navigation =>
      cases p.collection with
      | none => rfl
      | some current =>
        have hfollow := h.follow current navigation
        simp only [consulting, ← Navigator.map_follow, hfollow]
    | derivedType name => rfl
    | batchReference key => rfl

theorem keyPredicate_consulting (collection : Option String) (keys : Keys) :
    (a.consulting nav).keyPredicate collection keys = a.keyPredicate collection keys := by
  have hkeys : (a.consulting nav).navigator.keyProperties = a.navigator.keyProperties :=
    h.keyProperties.symm
  rw [keyPredicate.eq_def, keyPredicate.eq_def, hkeys]
  rfl

theorem addNode_consulting (p : Address) (n : CommandNode) :
    (a.consulting nav).addNode p n = a.addNode p n := by
  have hkey : ∀ p : Address, (a.consulting nav).addKey p n.keys = a.addKey p n.keys := by
    intro p
    rw [addKey, addKey, keyPredicate_consulting h]
  simp only [addNode, addSegment_consulting h, hkey]

theorem path_consulting (c : Command) : (a.consulting nav).path c = a.path c := by
  have hnode : (a.consulting nav).addNode = a.addNode :=
    funext fun p => funext fun n => addNode_consulting h p n
  rw [path, path, hnode]
  rfl

theorem method_consulting (c : Command) : (a.consulting nav).method c = a.method c := by
  have hkeys : (a.consulting nav).navigator.keyProperties = a.navigator.keyProperties :=
    h.keyProperties.symm
  have haddressed : (a.consulting nav).addressedKey c = a.addressedKey c := by
    rw [addressedKey, addressedKey, target_consulting h, hkeys]
  have hchanges : (a.consulting nav).changesKey c = a.changesKey c := by
    rw [changesKey, changesKey, haddressed]
  rw [method, method, hchanges]
  rfl

theorem clauses_consulting (c : Command) (filters : EntityFilters) :
    (a.consulting nav).clauses c filters = a.clauses c filters := by
  rw [clauses, clauses, target_consulting h]
  rfl

theorem compile_consulting (c : Command) : (a.consulting nav).compile c = a.compile c := by
  simp only [compile, analyze_consulting h, clauses_consulting h, path_consulting h, method_consulting h]
  rfl

end Agree

end Adapter

namespace EntityModel

variable {m : EntityModel} {entity property : String} {n : NavigationProperty}

/-- Whatever navigation is found leads to a declared collection. It does no harm if one does not
whose name is that of no segment of a path, so long as the name is spelled as it was declared. -/
def FindsDeclared (m : EntityModel) : Prop :=
  ∀ (entity property : String) (n : NavigationProperty), m.navigation? entity property = some n →
    (m.collection? n.target).isSome ∨ property = n.name ∧ '/' ∈ n.name.toList

theorem FindsDeclared.target (h : m.FindsDeclared) (hn : m.navigation? entity property = some n)
    (hs : '/' ∉ property.toList) : ∃ c, m.collection? n.target = some c := by
  rcases h entity property n hn with hc | ⟨rfl, hslash⟩
  · exact Option.isSome_iff_exists.1 hc
  · exact absurd hslash hs

theorem follow_of_declared (h : m.navigation? entity property = some n) {c : EntityCollection}
    (hc : m.collection? n.target = some c) :
    m.navigator.follow entity property = .ok (n.name, c.name) ∧
      m.navigator.viaFacts.follow entity property = .ok (n.name, c.name) := by
  have hname : m.navigator.navigationName entity property = some n.name := by
    rw [navigationName_eq, h, Option.map_some]
  obtain ⟨hname', -, hpartner⟩ := viaFacts_of_declared h hc
  rw [Navigator.follow_of_some hname, Navigator.follow_of_some hname', hpartner, partner_name h, hc]
  exact ⟨rfl, rfl⟩

/-- The errors name the navigation, one as it was declared and the other as it was asked for. -/
theorem follow_of_undeclared (h : m.navigation? entity property = some n)
    (hc : m.collection? n.target = none) :
    m.navigator.follow entity property = .error (.unknownNavigation entity n.name) ∧
      m.navigator.viaFacts.follow entity property =
        .error (.unknownNavigation entity property) := by
  have hname : m.navigator.navigationName entity property = some n.name := by
    rw [navigationName_eq, h, Option.map_some]
  have hnone : m.navigator.viaFacts.navigationName entity property = none :=
    navigationName_of_not_declared fun k c hk he => by
      obtain rfl := Option.some.inj (h.symm.trans hk)
      exact absurd (he.symm.trans hc) (Option.some_ne_none c)
  rw [Navigator.follow_of_some hname, Navigator.follow_of_none hnone, partner_name h, hc]
  exact ⟨rfl, rfl⟩

theorem FindsDeclared.agree (h : m.FindsDeclared) :
    m.navigator.Agree m.navigator.viaFacts where
  collectionName := rfl
  keyProperties := rfl
  navigationName current segment hs := by
    rw [navigationName_eq]
    cases hn : m.navigation? current segment with
    | none =>
      have hnone : m.navigator.viaFacts.navigationName current segment = none :=
        navigationName_of_not_declared fun k c hk => absurd (hk.symm.trans hn) (by simp)
      rw [hnone, Option.map_none]
    | some n =>
      obtain ⟨c, hc⟩ := h.target hn hs
      rw [(viaFacts_of_declared hn hc).1, Option.map_some]
  hop current segment name hs hname := by
    rw [navigationName_eq] at hname
    obtain ⟨n, hn, rfl⟩ := Option.map_eq_some_iff.1 hname
    obtain ⟨c, hc⟩ := h.target hn hs
    obtain ⟨-, hmany, hpartner⟩ := viaFacts_of_declared hn hc
    rw [isCollection_name hn, partner_name hn, hc, hmany, hpartner]
    exact ⟨rfl, rfl⟩
  follow current navigation := by
    cases hn : m.navigation? current navigation with
    | none =>
      have hname : m.navigator.navigationName current navigation = none := by
        rw [navigationName_eq, hn, Option.map_none]
      have hnone : m.navigator.viaFacts.navigationName current navigation = none :=
        navigationName_of_not_declared fun k c hk => absurd (hk.symm.trans hn) (by simp)
      rw [Navigator.follow_of_none hname, Navigator.follow_of_none hnone]
    | some n =>
      cases hc : m.collection? n.target with
      | some c =>
        obtain ⟨hdirect, hfacts⟩ := follow_of_declared hn hc
        rw [hdirect, hfacts]
      | none =>
        obtain ⟨hdirect, hfacts⟩ := follow_of_undeclared hn hc
        rcases h current navigation n hn with hsome | ⟨rfl, -⟩
        · exact absurd hsome (by simp [hc])
        · rw [hdirect, hfacts]

end EntityModel

namespace Adapter

variable {m : EntityModel} {a : Adapter} {entity property : String} {n : NavigationProperty}

/-- From an entity set along one of its navigations. -/
def alongNavigation (entity navigation : String) : Command :=
  ⟨[{ CommandNode.empty with segment := some (.collection entity) }],
    { CommandNode.empty with segment := some (.navigation navigation) }⟩

theorem compile_alongNavigation {root : String} {error : Error}
    (hroot : a.navigator.requireCollection entity = .ok root)
    (hfollow : a.navigator.follow root property = .error error) :
    a.compile (alongNavigation entity property) = .error error := by
  have hfirst : followSegment a.navigator none (some (.collection entity)) = .ok (some root) := by
    rw [followSegment, hroot]
    rfl
  have hsecond : followSegment a.navigator (some root) (some (.navigation property)) =
      .error error := by
    rw [followSegment]
    refine (Navigator.map_follow (fun _ partner => some partner) root property).symm.trans ?_
    rw [hfollow]
    rfl
  have htarget : a.target (alongNavigation entity property) = .error error := by
    rw [target, Command.chain, alongNavigation]
    simp [CommandNode.empty, hfirst, hsecond]
  rw [compile, analyze, htarget]
  rfl

/-- A filter on what lies beyond a navigation. -/
def beyondNavigation (entity navigation : String) : Command :=
  (Command.forCollection entity).addFilter entity (.reference (navigation ++ "/y"))

section Beyond

variable {root : String} (hroot : a.navigator.requireCollection entity = .ok root)

include hroot

theorem target_beyond : a.target (beyondNavigation entity property) = .ok ⟨some root, entity⟩ := by
  have hfirst : followSegment a.navigator none (some (.collection entity)) = .ok (some root) := by
    rw [followSegment, hroot]
    rfl
  rw [target, Command.chain, beyondNavigation, Command.forCollection, Command.addFilter,
    Command.update]
  simp [CommandNode.empty, hfirst, Command.entityName?, Command.chain, Segment.entity?]

theorem analyze_beyond (hname : a.navigator.requireCollection root = .ok root) :
    a.analyze (beyondNavigation entity property) =
      (referenceTarget a.navigator a.dialect root (property ++ "/y")).map fun t =>
        Table.grouped [(t.entity, .reference t.kept)] := by
  have hparts : (beyondNavigation entity property).filterParts =
      [(entity, .reference (property ++ "/y"))] := rfl
  have hfragment : a.fragment ⟨some root, entity⟩ entity (.reference (property ++ "/y")) =
      (referenceTarget a.navigator a.dialect root (property ++ "/y")).map fun t =>
        (t.entity, .reference t.kept) := by
    rw [fragment, if_pos (sameName_refl entity)]
    simp only [hname, ok_bind, filePart, retarget, List.not_mem_nil, if_false, filterOptions]
    cases referenceTarget a.navigator a.dialect root (property ++ "/y") with
    | error error => rfl
    | ok t => rfl
  rw [analyze_eq, target_beyond hroot, ok_bind, hparts]
  simp only [mapM_cons_except, hfragment, List.mapM_nil]
  cases referenceTarget a.navigator a.dialect root (property ++ "/y") <;> rfl

theorem compile_beyond_ok {kept : String}
    (hf : a.analyze (beyondNavigation entity property) =
      .ok (Table.grouped [(root, .reference kept)])) :
    ∃ r, a.compile (beyondNavigation entity property) = .ok r := by
  have hentries : (Table.grouped [(root, Expr.reference kept)]).entries =
      [(root, [.reference kept])] := rfl
  have hpredicates : a.predicates (beyondNavigation entity property) ⟨some root, entity⟩
      (Table.grouped [(root, .reference kept)]) = .ok [.part kept] := by
    have hown : (Table.grouped [(root, Expr.reference kept)]).get? root =
        some [.reference kept] := by
      rw [Table.get?, hentries]
      simp
    have htexts : (beyondNavigation entity property).node.textFilters.entries = [] := rfl
    rw [predicates, CommandTarget.rootBucket]
    simp only [Option.getD_some, hown, hentries, htexts]
    simp [conjunct, Renderer.renderMin, Renderer.render, Renderer.bracketed, Expr.operator,
      Operator.precedence]
  have hclauses : ∃ clauses, a.clauses (beyondNavigation entity property)
      (Table.grouped [(root, .reference kept)]) = .ok clauses := by
    rw [clauses, target_beyond hroot, ok_bind, hpredicates, ok_bind]
    have hsearch : a.searchClause (beyondNavigation entity property).node.search = .ok [] := rfl
    have hcustom : ∃ custom, a.customOptions (beyondNavigation entity property).node.options =
        .ok custom := ⟨_, rfl⟩
    have hexpand : ∀ nested, ∃ items, a.expand (beyondNavigation entity property).node.expands
        nested = .ok items := by
      intro nested
      rw [expand]
      cases a.dialect <;> exact ⟨_, rfl⟩
    obtain ⟨custom, hcustom⟩ := hcustom
    obtain ⟨items, hexpand⟩ := hexpand (Predicate.nestedTable [.part kept])
    rw [hsearch, ok_bind, hexpand, ok_bind, hcustom]
    exact ⟨_, rfl⟩
  have hpath : ∃ text, a.path (beyondNavigation entity property) = .ok text := by
    have hsegment : a.addSegment ⟨[], none⟩ (beyondNavigation entity property).node =
        .ok ⟨[root], some root⟩ := by
      rw [beyondNavigation, Command.forCollection, Command.addFilter, Command.update, addSegment]
      simp [hroot]
    have hchain : (beyondNavigation entity property).chain =
        [(beyondNavigation entity property).node] := rfl
    rw [path, hchain, List.foldlM_cons, addNode, hsegment]
    exact ⟨_, rfl⟩
  obtain ⟨clauses, hclauses⟩ := hclauses
  obtain ⟨text, hpath⟩ := hpath
  rw [compile, hf, ok_bind, hclauses, ok_bind, hpath]
  exact ⟨_, rfl⟩

end Beyond

theorem entityFilters_eq {c : Command} {filters : EntityFilters} {r : CompiledRequest}
    (h : a.compile c = .ok r) (hf : a.analyze c = .ok filters) :
    a.filterTexts filters = .ok r.entityFilters := by
  rw [compile, hf, ok_bind] at h
  obtain ⟨clauses, -, h⟩ := bind_eq_ok_iff.1 h
  obtain ⟨path, -, h⟩ := bind_eq_ok_iff.1 h
  obtain ⟨method, -, h⟩ := bind_eq_ok_iff.1 h
  obtain ⟨texts, ht, h⟩ := bind_eq_ok_iff.1 h
  rw [ht, ← Except.ok.inj h]

theorem filterTexts_single (b path : String) :
    a.filterTexts (Table.grouped [(b, .reference path)]) = .ok (Table.ofList [(b, [path])]) := rfl

end Adapter

namespace EntityModel

variable {m : EntityModel} {entity property : String} {n : NavigationProperty}

/-- A path that goes on beyond an undeclared target ends there or is refused, but it is read
as a path to a property when no navigation is found. -/
theorem referenceTarget_beyond (hn : m.navigation? entity property = some n)
    (hc : m.collection? n.target = none) (hs : '/' ∉ property.toList) :
    (referenceTarget m.navigator .modern entity (property ++ "/y") = .ok ⟨n.name, "y"⟩ ∨
        ∃ error, referenceTarget m.navigator .modern entity (property ++ "/y") = .error error) ∧
      referenceTarget m.navigator.viaFacts .modern entity (property ++ "/y") =
        .ok ⟨entity, property ++ "/y"⟩ := by
  have hsegments : segments (property ++ "/y") = [property, "y"] := by
    have hy : segments "y" = ["y"] := rfl
    have hassoc : property ++ "/y" = property ++ "/" ++ "y" := by
      rw [String.append_assoc]
      rfl
    rw [hassoc, segments_append, segments_of_noSlash hs, hy]
    rfl
  have hname : m.navigator.navigationName entity property = some n.name := by
    rw [navigationName_eq, hn, Option.map_some]
  have hnone : m.navigator.viaFacts.navigationName entity property = none :=
    navigationName_of_not_declared fun k c hk he => by
      obtain rfl := Option.some.inj (hn.symm.trans hk)
      exact absurd (he.symm.trans hc) (Option.some_ne_none c)
  rw [referenceTarget, referenceTarget, hsegments, followPath, followPath, hname, hnone]
  refine ⟨?_, rfl⟩
  simp only [isCollection_name hn, partner_name hn, hc, ok_bind, error_bind]
  cases n.isCollection with
  | true => exact .inl rfl
  | false => exact .inr ⟨_, rfl⟩

/-- If a segment of a path can name a navigation whose target is not declared, then some filter
is compiled to other requests. -/
theorem compile_beyond_ne {k : EntityCollection} (hk : m.collection? k.name = some k)
    (hn : m.navigation? k.name property = some n) (hc : m.collection? n.target = none)
    (hs : '/' ∉ property.toList) :
    Adapter.compile ⟨.v4, m.navigator.viaFacts, .plain⟩ (Adapter.beyondNavigation k.name property) ≠
      Adapter.compile ⟨.v4, m.navigator, .plain⟩ (Adapter.beyondNavigation k.name property) := by
  intro hsame
  have hroot := requireCollection_name hk
  have hroot' : m.navigator.viaFacts.requireCollection k.name = .ok k.name := hroot
  obtain ⟨hdirect, hfacts⟩ := referenceTarget_beyond hn hc hs
  have hanalyze : Adapter.analyze ⟨.v4, m.navigator, .plain⟩
      (Adapter.beyondNavigation k.name property) =
        (referenceTarget m.navigator .modern k.name (property ++ "/y")).map fun t =>
          Table.grouped [(t.entity, .reference t.kept)] :=
    Adapter.analyze_beyond (a := ⟨.v4, m.navigator, .plain⟩) hroot hroot
  have hanalyze' : Adapter.analyze ⟨.v4, m.navigator.viaFacts, .plain⟩
      (Adapter.beyondNavigation k.name property) =
        .ok (Table.grouped [(k.name, .reference (property ++ "/y"))]) :=
    (Adapter.analyze_beyond (a := ⟨.v4, m.navigator.viaFacts, .plain⟩) hroot' hroot').trans
      (congrArg (Except.map _) hfacts)
  obtain ⟨r, hr⟩ := Adapter.compile_beyond_ok hroot' hanalyze'
  have hr' := hsame.symm.trans hr
  rcases hdirect with ht | ⟨error, ht⟩
  · have htexts' := Adapter.entityFilters_eq hr hanalyze'
    have htexts := Adapter.entityFilters_eq hr' (hanalyze.trans (congrArg (Except.map _) ht))
    rw [Adapter.filterTexts_single] at htexts htexts'
    have htables := (Except.ok.inj htexts).trans (Except.ok.inj htexts').symm
    have hentries : [(n.name, ["y"])] = [(k.name, [property ++ "/y"])] :=
      congrArg Table.entries htables
    simp only [List.cons.injEq, Prod.mk.injEq, and_true] at hentries
    have hlength := congrArg String.length hentries.2
    have hy : "y".length = 1 := rfl
    have hslash : "/y".length = 2 := rfl
    rw [String.length_append, hy, hslash] at hlength
    omega
  · have herror : Adapter.analyze ⟨.v4, m.navigator, .plain⟩
        (Adapter.beyondNavigation k.name property) = .error error :=
      hanalyze.trans (congrArg (Except.map _) ht)
    rw [Adapter.compile, herror] at hr'
    exact absurd hr' (by simp)

/-- Requests are the same over a model and over what is remembered of it, whatever was asked
before, exactly if every navigation that can be found leads to a declared collection. -/
theorem compile_remembered_iff (m : EntityModel) : (∀ (lookups : List Lookup) (version : Version)
    (options : AdapterOptions) (c : Command),
      Adapter.compile ⟨version, ((Memo.fresh m.navigator).askAll lookups).navigator, options⟩ c =
        Adapter.compile ⟨version, m.navigator, options⟩ c) ↔ m.FindsDeclared := by
  constructor
  · intro hsame entity property n hn
    by_contra hnot
    obtain ⟨hundeclared, hspelled⟩ := not_or.1 hnot
    have hc : m.collection? n.target = none := by simpa using hundeclared
    obtain ⟨k, hk, -⟩ := Option.bind_eq_some_iff.1 hn
    have hk' := collection?_name hk
    have hn' : m.navigation? k.name property = some n := by
      rw [navigation?, hk', ← hk]
      exact hn
    have hsame : ∀ c, Adapter.compile ⟨.v4, m.navigator.viaFacts, .plain⟩ c =
        Adapter.compile ⟨.v4, m.navigator, .plain⟩ c := by
      intro c
      have hc := hsame [] .v4 .plain c
      rwa [Memo.navigator_askAll] at hc
    by_cases hp : property = n.name
    · have hs : '/' ∉ property.toList := fun hs => hspelled ⟨hp, hp ▸ hs⟩
      exact compile_beyond_ne hk' hn' hc hs (hsame _)
    · -- the two say in other words that the navigation is not known
      obtain ⟨hdirect, hfacts⟩ := follow_of_undeclared hn' hc
      have hroot := requireCollection_name hk'
      have hroot' : m.navigator.viaFacts.requireCollection k.name = .ok k.name := hroot
      have herrors := hsame (Adapter.alongNavigation k.name property)
      rw [Adapter.compile_alongNavigation hroot' hfacts,
        Adapter.compile_alongNavigation hroot hdirect] at herrors
      obtain ⟨-, hname⟩ := Error.unknownNavigation.inj (Except.error.inj herrors)
      exact hp hname
  · intro hfinds lookups version options c
    rw [Memo.navigator_askAll]
    exact Adapter.compile_consulting (a := ⟨version, m.navigator, options⟩) hfinds.agree c

/-- Orders have customers, who are not declared. -/
def ordersOnly : EntityModel :=
  ⟨none, [⟨"Orders", "NorthwindModel.Order", ["OrderID"], [⟨"Customer", false, "Customers"⟩]⟩]⟩

def customerFilter : Command :=
  (Command.forCollection "Orders").addFilter "Orders"
    (.binary .eq (.reference "Customer/Name") (.value (.string "a")))

theorem customerFilter_remembered :
    Adapter.compile ⟨.v4, ordersOnly.navigator, .plain⟩ customerFilter =
        .error (.unknownNavigation "Orders" "Customer") ∧
      (Adapter.compile ⟨.v4, (Memo.fresh ordersOnly.navigator).navigator, .plain⟩
        customerFilter).map (·.clause? "$filter") = .ok (some "Customer/Name eq 'a'") :=
  ⟨rfl, rfl⟩

end EntityModel

end ODataClient
