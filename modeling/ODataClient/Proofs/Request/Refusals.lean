import ODataClient.Proofs.Command.Chain
import ODataClient.Proofs.Request.Addresses
import ODataClient.Proofs.Request.Wrappers

/-! What the compilation of a built command can fail on. The calls have given the command its
target and kept its chain in shape, so that the checks which look for a target, for something that
a key belongs to, and for the batch entry of a reference find what they look for. -/

namespace ODataClient

/-- The errors of a command whose target is not there. -/
def Error.lacksTarget : Error → Bool
  | missingCollection => true
  | invalidCommand .keyWithoutEntitySet => true
  | invalidCommand (.noBatchEntry _) => true
  | _ => false

/-- The computation does not fail for want of a target. -/
abbrev FindsTarget {α : Type} (x : Except Error α) : Prop :=
  FailsAs (fun e => e.lacksTarget = false) x

theorem findsTarget_of_isUnknown {α : Type} {x : Except Error α}
    (h : FailsAs (·.isUnknown = true) x) : FindsTarget x := by
  refine h.mono fun e he => ?_
  cases e <;> simp_all [Error.isUnknown, Error.lacksTarget]

theorem findsTarget_of_unsupported {α : Type} {x : Except Error α} {version : Version}
    (h : ∀ e, x = .error e → ∃ feature, e = .unsupported feature version) : FindsTarget x := by
  intro e he
  obtain ⟨feature, rfl⟩ := h e he
  rfl

section Filters

variable {nav : Navigator} {options : FilterOptions} {dialect : Dialect} {root : String}

theorem isUnknown_followPath (hnav : nav.Lawful) {path current : String}
    {passed segments : List String} :
    FailsAs (·.isUnknown = true) (followPath nav dialect root path current passed segments) := by
  induction segments generalizing current passed with
  | nil => exact failsAs_ok _ _
  | cons segment rest ih =>
    rw [followPath]
    cases nav.navigationName current segment with
    | none => exact failsAs_ok _ _
    | some name =>
      refine (hnav.isCollection current name).bind fun many _ => ?_
      cases many with
      | true => exact failsAs_ok _ _
      | false => exact (hnav.partner current name).bind fun _ _ => ih

theorem findsTarget_filePart (hnav : nav.Lawful) (hq : options.queryOption = false)
    (part : Expr) : FindsTarget (filePart nav options root part) := by
  rw [filePart, retarget_eq hq, targetsOf]
  refine FailsAs.bind (FailsAs.map (FailsAs.mapM fun path _ => ?_)) fun t _ => ?_
  · exact (findsTarget_of_isUnknown (isUnknown_followPath hnav)).map
  · rw [filing]
    split
    · exact failsAs_ok _ _
    · exact failsAs_ok _ _
    · split
      · exact failsAs_error (by rfl)
      · exact failsAs_ok _ _

mutual

theorem findsTarget_checkQueryOption (e : Expr) : FindsTarget (checkQueryOption e) := by
  cases e with
  | value v => exact failsAs_ok _ _
  | reference path => exact failsAs_ok _ _
  | call name args => exact findsTarget_checkQueryArguments args
  | method caller name args =>
    exact (findsTarget_checkQueryOption caller).bind fun _ _ => findsTarget_checkQueryArguments args
  | binary op left right =>
    refine FailsAs.bind ?_ fun _ _ => (findsTarget_checkQueryOption left).bind fun _ _ =>
      findsTarget_checkQueryOption right
    rw [checkOptionOperator]
    split
    · exact failsAs_error (by rfl)
    · exact failsAs_ok _ _
  | unary op operand =>
    refine FailsAs.bind ?_ fun _ _ => findsTarget_checkQueryOption operand
    rw [checkOptionOperator]
    split
    · exact failsAs_error (by rfl)
    · exact failsAs_ok _ _
  | conversion target inner => exact findsTarget_checkQueryOption inner

theorem findsTarget_checkQueryArguments (args : List Expr) :
    FindsTarget (checkQueryArguments args) := by
  cases args with
  | nil => exact failsAs_ok _ _
  | cons e r =>
    exact (findsTarget_checkQueryOption e).bind fun _ _ => findsTarget_checkQueryArguments r

end

end Filters

/-- A command has a target when it addresses an entity set or calls something. -/
def Command.HasTarget (c : Command) : Prop :=
  c.entityName?.isSome = true ∨ c.node.invocation.isSome = true

namespace Adapter

variable {a : Adapter} {c : Command} {t : CommandTarget} {n : CommandNode} {p : Address}

theorem isUnknown_followSegment (hnav : a.navigator.Lawful) (collection : Option String)
    (segment : Option Segment) :
    FailsAs (·.isUnknown = true) (followSegment a.navigator collection segment) := by
  rw [followSegment.eq_def]
  split
  · exact (a.navigator.isUnknown_requireCollection _).map
  · split
    · exact (a.navigator.isUnknown_requireNavigation _ _).bind fun name _ =>
        (hnav.partner _ name).bind fun _ _ => failsAs_ok _ _
    · exact failsAs_ok _ _
  all_goals exact failsAs_ok _ _

theorem findsTarget_target (hnav : a.navigator.Lawful) (hc : c.HasTarget) :
    FindsTarget (a.target c) := by
  rw [target]
  refine FailsAs.bind (FailsAs.foldlM fun collection n _ =>
    findsTarget_of_isUnknown (isUnknown_followSegment hnav collection n.segment)) fun _ _ => ?_
  split
  · exact failsAs_ok _ _
  · rcases hc with hc | hc <;> simp_all

theorem findsTarget_analyze (hnav : a.navigator.Lawful) (hc : c.HasTarget) :
    FindsTarget (a.analyze c) := by
  rw [analyze_eq]
  refine (findsTarget_target hnav hc).bind fun t _ => FailsAs.map (FailsAs.mapM fun p _ => ?_)
  rw [fragment]
  split
  · split
    · exact failsAs_error (by rfl)
    · exact (findsTarget_of_isUnknown (a.navigator.isUnknown_requireCollection _)).bind
        fun _ _ => findsTarget_filePart hnav (by rfl) p.2
  · exact failsAs_ok _ _

theorem findsTarget_expand (items : List (String × ExpandOptions)) (nested : Table (List String)) :
    FindsTarget (a.expand items nested) := by
  rw [expand]
  split
  · refine FailsAs.bind (FailsAs.mapM fun item _ => ?_) fun _ _ => failsAs_ok _ _
    simp only [legacyExpandItem, throw_eq_error, error_bind]
    split
    · exact failsAs_error (by rfl)
    · split
      · exact failsAs_error (by rfl)
      · split
        · exact failsAs_error (by rfl)
        · exact failsAs_ok _ _
  · exact failsAs_ok _ _

theorem findsTarget_customOptions (options : QueryOptions) :
    FindsTarget (a.customOptions options) := by
  rw [customOptions]
  refine FailsAs.bind ?_ fun _ _ => failsAs_ok _ _
  cases options.expression with
  | none => exact failsAs_ok _ _
  | some e =>
    refine (findsTarget_checkQueryOption e).bind fun _ _ => FailsAs.mapM fun term _ => ?_
    rw [optionTerm.eq_def]
    split
    · split
      · exact failsAs_ok _ _
      · exact failsAs_error (by rfl)
    · exact failsAs_error (by rfl)

theorem findsTarget_clauses (hnav : a.navigator.Lawful) (hc : c.HasTarget)
    (filters : EntityFilters) : FindsTarget (a.clauses c filters) := by
  rw [clauses]
  refine (findsTarget_target hnav hc).bind fun t _ => ?_
  refine (findsTarget_of_unsupported fun _ => unsupported_of_predicates).bind fun _ _ => ?_
  refine FailsAs.bind ?_ fun _ _ => (findsTarget_expand _ _).bind fun _ _ =>
    (findsTarget_customOptions _).bind fun _ _ => failsAs_ok _ _
  rw [searchClause.eq_def]
  split
  · exact failsAs_ok _ _
  · split
    · exact failsAs_error (by rfl)
    · exact failsAs_ok _ _

theorem findsTarget_keyPredicate (hnav : a.navigator.Lawful) (collection : Option String)
    (keys : Keys) : FindsTarget (a.keyPredicate collection keys) :=
  failsAs_keyPredicate keys (fun name _ => findsTarget_of_isUnknown (hnav.keyProperties name))
    (by rfl) fun _ _ _ => by rfl

theorem findsTarget_addSegment (hnav : a.navigator.Lawful) (hn : n.Known) :
    FindsTarget (a.addSegment p n) := by
  rw [addSegment.eq_def]
  split
  · exact (findsTarget_of_isUnknown (a.navigator.isUnknown_requireCollection _)).bind
      fun _ _ => failsAs_ok _ _
  · split
    · refine (findsTarget_of_isUnknown (a.navigator.isUnknown_requireNavigation _ _)).bind
        fun name _ => ?_
      exact (findsTarget_of_isUnknown (hnav.partner _ name)).bind fun _ _ => failsAs_ok _ _
    · exact failsAs_ok _ _
  · exact failsAs_ok _ _
  next name hs =>
    obtain ⟨batch, hbatch, hid⟩ := hn name hs
    obtain ⟨id, hid⟩ := Option.isSome_iff_exists.1 hid
    refine FailsAs.bind ?_ fun _ _ => failsAs_ok _ _
    rw [batchSegment, hbatch, Option.bind_some, hid]
    exact failsAs_ok _ _
  · exact failsAs_ok _ _

theorem findsTarget_addNode (hnav : a.navigator.Lawful) (hn : n.Known)
    (hkeys : n.keys ≠ .none → n.segment.isSome = true) : FindsTarget (a.addNode p n) := by
  refine (findsTarget_addSegment hnav hn).bind fun q hq => ?_
  rw [addKey]
  split
  · exact failsAs_ok _ _
  next hk =>
    refine (findsTarget_keyPredicate hnav _ _).bind fun _ _ => ?_
    split
    · exact failsAs_ok _ _
    next hlast =>
      have hne := segments_ne_nil (hkeys hk) hq
      exact absurd (List.getLast?_eq_none_iff.1 hlast) hne

theorem findsTarget_path (hnav : a.navigator.Lawful) (hc : c.WellFormed)
    (hk : ∀ n ∈ c.chain, n.Known) : FindsTarget (a.path c) := by
  rw [path]
  refine FailsAs.bind (FailsAs.foldlM fun p n hn =>
    findsTarget_addNode hnav (hk n hn) fun hkeys => (hc.keyed n hn hkeys).1) fun _ _ => ?_
  exact (failsAs_linkSegments (by rfl) c.node).bind fun _ _ => failsAs_ok _ _

theorem findsTarget_changesKey (hnav : a.navigator.Lawful) (hc : c.HasTarget) :
    FindsTarget (a.changesKey c) := by
  rw [changesKey]
  split
  · exact failsAs_ok _ _
  · refine FailsAs.map ?_
    rw [addressedKey]
    split
    · exact failsAs_ok _ _
    · exact failsAs_ok _ _
    · refine (findsTarget_target hnav hc).bind fun t _ => ?_
      split
      · exact failsAs_ok _ _
      · exact (findsTarget_of_isUnknown (hnav.keyProperties _)).bind fun _ _ => failsAs_ok _ _

theorem findsTarget_method (hnav : a.navigator.Lawful) (hc : c.HasTarget) :
    FindsTarget (a.method c) := by
  rw [method]
  split
  · exact failsAs_ok _ _
  split
  · exact failsAs_ok _ _
  · split
    · exact failsAs_error (by rfl)
    · exact failsAs_ok _ _
  · split
    · exact failsAs_error (by rfl)
    · exact failsAs_ok _ _
  · split
    · exact failsAs_error (by rfl)
    · split
      · exact failsAs_ok _ _
      · exact (findsTarget_changesKey hnav hc).map

theorem findsTarget_filterTexts (filters : EntityFilters) : FindsTarget (a.filterTexts filters) := by
  rw [filterTexts]
  refine FailsAs.bind (FailsAs.mapM fun b _ => ?_) fun _ _ => failsAs_ok _ _
  refine FailsAs.bind (FailsAs.mapM fun e _ => ?_) fun _ _ => failsAs_ok _ _
  exact findsTarget_of_unsupported fun _ => Renderer.unsupported_of_render

theorem findsTarget_compile (hnav : a.navigator.Lawful) (ht : c.HasTarget) (hc : c.WellFormed)
    (hk : ∀ n ∈ c.chain, n.Known) : FindsTarget (a.compile c) := by
  rw [compile]
  refine (findsTarget_analyze hnav ht).bind fun filters _ => ?_
  refine (findsTarget_clauses hnav ht filters).bind fun _ _ => ?_
  refine (findsTarget_path hnav hc hk).bind fun _ _ => ?_
  refine (findsTarget_method hnav ht).bind fun _ _ => ?_
  exact (findsTarget_filterTexts filters).bind fun _ _ => failsAs_ok _ _

end Adapter

namespace Command

open Adapter

variable {a : Adapter} {c : Command} {calls before after : List Call}

theorem isSome_entity?_of_isStart {segment : Segment} (h : segment.isStart = true) :
    segment.entity?.isSome = true := by
  cases segment <;> first | rfl | simp [Segment.isStart] at h

/-- A chain that has started has an entity set. -/
theorem WellFormed.hasTarget (h : c.WellFormed)
    (hc : c.node.segment.isSome = true ∨ c.node.invocation.isSome = true) : c.HasTarget := by
  rcases h.shape with halone | ⟨start, steps, hway, hstart, -⟩
  · have hs : c.node.segment ∈ c.way := List.mem_map_of_mem c.node_mem_chain
    rw [halone, List.mem_singleton] at hs
    rcases hc with hc | hc
    · simp [hs] at hc
    · exact .inr hc
  · have hmem : some start ∈ c.way := by
      rw [hway]
      exact List.mem_cons_self
    obtain ⟨n, hn, hs⟩ := List.mem_map.1 hmem
    refine .inl ?_
    rw [entityName?, List.isSome_findSome?, List.any_eq_true]
    refine ⟨n, List.mem_reverse.2 hn, ?_⟩
    rw [hs]
    exact isSome_entity?_of_isStart hstart

theorem run_of_prefix (h : build calls = .ok c) (hcalls : calls = before ++ after) :
    ∃ d, before.foldlM apply empty = .ok d := by
  subst hcalls
  obtain ⟨d, hd, -⟩ := foldlM_append_eq_ok_iff.1 (build_eq_ok_iff.1 h).1
  exact ⟨d, hd⟩

/-- Over a model, the address of a command is in the collection that its filters are analyzed
against, node by node, and only an invalid command has none. What the calls have built keeps its
shape at every step, and is never refused for want of a target, of something to key or of a batch
entry. -/
theorem target_kept (m : EntityModel) {a : Adapter} (ha : m.Answers a.navigator) :
    (∀ c filters, a.analyze c = .ok filters →
      (∀ front back, c.chain = front ++ back →
        ∃ collection, a.reached front = .ok collection ∧ Lands collection (a.address front)) ∧
      (∀ t p, a.target c = .ok t → a.address c.chain = .ok p → p.collection = t.collection) ∧
      ∀ e, a.path c = .error e → ∃ fault, e = .invalidCommand fault) ∧
    ∀ calls c, OneBatch calls → build calls = .ok c →
      (∀ before after, calls = before ++ after →
        ∃ d, before.foldlM apply empty = .ok d ∧ d.WellFormed) ∧
      (c.node.segment = none → c.node.invocation.isSome = true) ∧
      ∀ e, a.compile c = .error e → e ≠ .missingCollection ∧
        e ≠ .invalidCommand .keyWithoutEntitySet ∧ ∀ name, e ≠ .invalidCommand (.noBatchEntry name) := by
  have hnav := ha.lawful
  constructor
  · intro c filters hf
    obtain ⟨t, ht, -⟩ := bind_eq_ok_iff.1 hf
    have hreached := reached_of_target ht
    refine ⟨?_, ?_, ?_⟩
    · intro front back hchain
      rw [hchain] at hreached
      obtain ⟨collection, hfront⟩ := reached_of_append hreached
      exact ⟨collection, hfront, lands_address hnav hfront⟩
    · intro t' p ht' hp
      obtain rfl := Except.ok.inj (ht.symm.trans ht')
      exact (lands_address hnav hreached).collection_eq hp
    · exact isInvalidCommand_path hnav hreached
  · intro calls c hb hbuild
    obtain ⟨hrun, hdone⟩ := build_eq_ok_iff.1 hbuild
    have hshape := wellFormed_of_run hrun
    refine ⟨?_, ?_, ?_⟩
    · intro before after hcalls
      obtain ⟨d, hd⟩ := run_of_prefix hbuild hcalls
      exact ⟨d, hd, wellFormed_of_run hd⟩
    · intro hs
      exact hdone.resolve_left (by simp [hs])
    · intro e he
      have hfinds := findsTarget_compile hnav (hshape.hasTarget hdone) hshape
        (known_of_build hbuild hb) e he
      refine ⟨?_, ?_, ?_⟩
      · rintro rfl
        cases hfinds
      · rintro rfl
        cases hfinds
      · rintro name rfl
        cases hfinds

def orderBatch : BatchEntries := (BatchEntries.empty.register "order").2

/-- The details of an order that the batch creates; the batch gets another entry on the way. -/
def batchDetails : List Call :=
  [.inBatch orderBatch, .batchRef "order", .inBatch (orderBatch.resolve "detail" .empty).2,
    .navigate "OrderDetails", .key [.int32 1, .int32 2]]

/-- The details of one order, which the service knows by its key. -/
def keyedDetails : List Call :=
  [.collection "Orders", .key [.int32 7], .navigate "OrderDetails", .top 3]

/-- The path of the first command is refused, and that of the second is built. -/
theorem batchDetails_target :
    (∃ c, build batchDetails = .ok c ∧ c.WellFormed ∧
      (∃ collection, (northwindAdapter .v4).reached c.chain = .ok collection ∧
        Lands collection ((northwindAdapter .v4).address c.chain)) ∧
      (northwindAdapter .v4).compile c =
        .error (.invalidCommand .compositeKeyWithoutCollection)) ∧
    ∃ c t p r, build keyedDetails = .ok c ∧ (northwindAdapter .v4).target c = .ok t ∧
      (northwindAdapter .v4).address c.chain = .ok p ∧ p.collection = t.collection ∧
      t.collection = some "OrderDetails" ∧
      (∃ collection, (northwindAdapter .v4).reached c.chain = .ok collection ∧
        Lands collection ((northwindAdapter .v4).address c.chain)) ∧
      (northwindAdapter .v4).compile c = .ok r ∧ r.path = "Orders(7)/OrderDetails" := by
  obtain ⟨hwalks, hbuilt⟩ :=
    target_kept (northwind Version.v4.text) (a := northwindAdapter .v4) (.inl rfl)
  have hb : OneBatch batchDetails := by
    have hbatches : batchDetails.filterMap Call.batch? =
        [orderBatch, (orderBatch.resolve "detail" .empty).2] := rfl
    rw [OneBatch, hbatches, List.pairwise_pair]
    exact orderBatch.extends_resolve "detail" .empty
  obtain ⟨c, hc, filters, hf, herror⟩ : ∃ c, build batchDetails = .ok c ∧
      ∃ filters, (northwindAdapter .v4).analyze c = .ok filters ∧
        (northwindAdapter .v4).compile c =
          .error (.invalidCommand .compositeKeyWithoutCollection) := ⟨_, rfl, _, rfl, rfl⟩
  obtain ⟨d, hd, hshape⟩ := (hbuilt batchDetails c hb hc).1 batchDetails [] (by simp)
  obtain rfl := Except.ok.inj (hd.symm.trans (build_eq_ok_iff.1 hc).1)
  refine ⟨⟨d, hc, hshape, (hwalks d filters hf).1 d.chain [] (by simp), herror⟩, ?_⟩
  obtain ⟨k, hk, t, filters', p, r, ht, hf', hp, hr, hpath, hdetails⟩ :
      ∃ k, build keyedDetails = .ok k ∧ ∃ t filters p r, (northwindAdapter .v4).target k = .ok t ∧
        (northwindAdapter .v4).analyze k = .ok filters ∧
        (northwindAdapter .v4).address k.chain = .ok p ∧
        (northwindAdapter .v4).compile k = .ok r ∧ r.path = "Orders(7)/OrderDetails" ∧
        t.collection = some "OrderDetails" :=
    ⟨_, rfl, _, _, _, _, rfl, rfl, rfl, rfl, rfl, rfl⟩
  obtain ⟨hlands, hsame, -⟩ := hwalks k filters' hf'
  exact ⟨k, t, p, r, hk, ht, hp, hsame t p ht hp, hdetails, hlands k.chain [] (by simp), hr, hpath⟩

end Command

end ODataClient
