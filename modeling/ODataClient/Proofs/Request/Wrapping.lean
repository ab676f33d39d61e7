import ODataClient.Proofs.Expr.Prefixes
import ODataClient.Proofs.Request.References

/-! Fragments under the generated lambda, read from its collection. A reference of a filter
on a related entity reaches what it reached from the root. A reference of a filter on the own
entity set does so when it goes on beyond the collection; one that names the collection itself
is read from there a second time. -/

namespace ODataClient

namespace EntityModel

theorem canonicalHops?_eq (m : EntityModel) (current : String) (segs : List String) :
    Adapter.canonicalHops? m.navigator current segs =
      (m.leadsTo current segs).map fun _ => hopNames (m.hops current segs) := by
  induction segs generalizing current with
  | nil => rfl
  | cons segment rest ih =>
    rw [Adapter.canonicalHops?, navigationName_eq, leadsTo]
    cases hn : m.navigation? current segment with
    | none => rfl
    | some n =>
      simp only [Option.map_some, Option.bind_eq_bind, Option.bind_some, partner_name hn,
        hops_cons hn]
      cases m.collection? n.target with
      | none => rfl
      | some c =>
        simp only [ih, Except.toOption, Option.bind_some]
        cases m.leadsTo c.name rest <;> rfl

theorem canonicalPath_route (m : EntityModel) (root path : String) :
    m.hops root (segments (Adapter.canonicalPath m.navigator (some root) path)) =
        m.hops root (segments path) ∧
      m.leadsTo root (segments (Adapter.canonicalPath m.navigator (some root) path)) =
        m.leadsTo root (segments path) := by
  rw [Adapter.canonicalPath, Option.bind_some, canonicalHops?_eq]
  cases hd : m.leadsTo root (segments path) with
  | none => simp [hd]
  | some d =>
    have hlen := length_hops_of_leadsTo hd
    have hs : segments (joinSegments (hopNames (m.hops root (segments path)))) =
        hopNames (m.hops root (segments path)) := by
      refine segments_joinSegments (fun hn => ?_) fun s hs => ?_
      · have hz := congrArg List.length hn
        rw [hopNames, List.length_map, hlen, List.length_nil] at hz
        exact segments_ne_nil path (List.length_eq_zero_iff.1 hz)
      · exact noSlash_of_mem_hopNames (fun s hs => noSlash_of_mem_segments hs) hs
    simp only [Option.map_some, hs, hops_hopNames, leadsTo_hopNames hlen, hd, and_self]

end EntityModel

namespace Adapter

/-- The path from the root of a reference in a filter that is kept under `entity`. -/
def originalPath (t : CommandTarget) (entity path : String) : String :=
  if sameName entity t.entityKey then path else entity ++ "/" ++ path

/-- The path that follows the variable of the generated lambda. -/
def wrappedPath (a : Adapter) (m : EntityModel) (t : CommandTarget) (entity : String)
    (part : Expr) (b path : String) : String :=
  a.relativePath b (a.storedPath m t entity part path)

variable {a : Adapter} {m : EntityModel} {c : Command} {t : CommandTarget}
  {filters : EntityFilters} {root entity b d : String} {part e : Expr}

theorem wrappedPath_related (hrel : ¬ sameName entity t.entityKey) (part : Expr) (path : String) :
    a.wrappedPath m t entity part (canonicalPath a.navigator t.collection entity) path = path := by
  rw [wrappedPath, relativePath, storedPath, if_neg hrel]
  cases a.dialect with
  | legacy => exact Expr.dropSegments_qualified _ path
  | modern => rfl

theorem wrappedPath_own (hm : a.navigator = m.navigator) (ht : a.target c = .ok t)
    (hown : sameName entity t.entityKey) (hroot : t.collection = some root)
    (he : a.fragment t entity part = .ok (b, e)) (hb : b ≠ root) {path : String}
    (hpath : m.filterEntity root path = .ok b) :
    a.wrappedPath m t entity part b path =
      if (segments b).length < (segments path).length then
        joinSegments ((segments path).drop (segments b).length)
      else path := by
  rw [fragment_own hm ht hown hroot] at he
  obtain ⟨i, hi, hsegments, hlen, hlt⟩ := EntityModel.filterEntity_away hpath hb
  have hdepth : (segments b).length = i + 1 := by
    rw [hsegments, EntityModel.hopNames, List.length_map, hlen, List.length_take]
    omega
  have hrest : (segments path).drop (i + 1) ≠ [] ↔ i + 1 < (segments path).length := by
    rw [ne_eq, List.drop_eq_nil_iff]
    omega
  rw [wrappedPath, relativePath, storedPath, if_pos hown, hroot]
  dsimp only
  rw [((EntityModel.filedPart_eq_ok he).2 hb).2, EntityModel.rewrittenPath, hi, hdepth]
  cases a.dialect with
  | legacy => simp [Expr.dropSegments]
  | modern => simp [hrest]

theorem filterEntity_of_partTargets (h : m.partTargets root part = .ok {b}) {o : Occurrence}
    (ho : o ∈ part.occurrences []) (hfree : ¬ o.Bound) : m.filterEntity root o.path = .ok b := by
  obtain ⟨entities, hentities, hset⟩ := map_eq_ok_iff.1 h
  have hmem : o.path ∈ freePaths (part.occurrences []) :=
    List.mem_map.2 ⟨o, List.mem_filter.2 ⟨ho, by simpa using hfree⟩, rfl⟩
  obtain ⟨entity, hentity⟩ := exists_ok_of_mapM hentities hmem
  have hin : entity ∈ entities.toFinset :=
    List.mem_toFinset.2 ((mem_mapM_ok hentities).2 ⟨_, hmem, hentity⟩)
  rw [hset, Finset.mem_singleton] at hin
  rw [hentity, hin]

theorem ne_root_of_wrapped (hroot : t.collection = some root)
    (hw : a.placement c t b e = .wrapped) : b ≠ root := by
  intro hb
  have hbucket : b = CommandTarget.rootBucket t := by rw [CommandTarget.rootBucket, hroot, hb]; rfl
  rw [placement, if_pos (Or.inl hbucket)] at hw
  exact absurd hw (by decide)

theorem route_wrappedPath_iff (hm : a.navigator = m.navigator) (ht : a.target c = .ok t)
    (hroot : t.collection = some root) (he : a.fragment t entity part = .ok (b, e))
    (hb : b ≠ root) (hd : m.leadsTo root (segments b) = some d) {o : Occurrence}
    (ho : o ∈ part.occurrences []) (hfree : ¬ o.Bound) :
    (m.route d (segments (a.wrappedPath m t entity part b o.path))).after
          (m.hops root (segments b)) =
        m.route root (segments (originalPath t entity o.path)) ↔
      (sameName entity t.entityKey → (segments b).length < (segments o.path).length) := by
  by_cases hown : sameName entity t.entityKey = true
  · have hfiled := he
    rw [fragment_own hm ht hown hroot] at hfiled
    have hpath := filterEntity_of_partTargets
      ((EntityModel.filedPart_eq_ok hfiled).2 hb).1 ho hfree
    obtain ⟨i, -, hsegments, hlen, hlt⟩ := EntityModel.filterEntity_away hpath hb
    have hdepth : (segments b).length = i + 1 := by
      rw [hsegments, EntityModel.hopNames, List.length_map, hlen, List.length_take]
      omega
    rw [wrappedPath_own hm ht hown hroot he hb hpath, originalPath, if_pos hown]
    by_cases hbeyond : (segments b).length < (segments o.path).length
    · have hne : (segments o.path).drop (segments b).length ≠ [] := by
        rw [ne_eq, List.drop_eq_nil_iff]
        omega
      rw [if_pos hbeyond, segments_join_drop hne, hdepth]
      refine iff_of_true ?_ fun _ => by omega
      exact EntityModel.route_after_drop hsegments hlen hd
    · -- The path is not shortened, so from the collection it makes its hops a second time.
      rw [if_neg hbeyond]
      refine iff_of_false ?_ fun h => hbeyond (h hown)
      exact EntityModel.route_after_self_ne (segments_ne_nil b) hd
  · rw [fragment_related hown, hroot] at he
    obtain ⟨rfl, -⟩ := Prod.mk.inj (Except.ok.inj he)
    have hpath := wrappedPath_related (a := a) (m := m) hown part o.path
    rw [hroot] at hpath
    rw [hm] at hpath hd ⊢
    obtain ⟨hhops, hleads⟩ := EntityModel.canonicalPath_route m root entity
    rw [hleads] at hd
    rw [hpath, hhops, originalPath, if_neg hown, segments_append, EntityModel.route_append hd]
    exact iff_of_true rfl fun h => absurd h hown

theorem exists_filterEntity_of_own (hm : a.navigator = m.navigator) (ht : a.target c = .ok t)
    (hown : sameName entity t.entityKey) (hroot : t.collection = some root)
    (he : a.fragment t entity part = .ok (b, e)) (hb : b ≠ root) :
    ∃ path, m.filterEntity root path = .ok b := by
  rw [fragment_own hm ht hown hroot] at he
  obtain ⟨entities, hentities, hset⟩ :=
    map_eq_ok_iff.1 ((EntityModel.filedPart_eq_ok he).2 hb).1
  have hin : b ∈ entities := by
    rw [← List.mem_toFinset, hset]
    exact Finset.mem_singleton_self b
  obtain ⟨path, -, hpath⟩ := (mem_mapM_ok hentities).1 hin
  exact ⟨path, hpath⟩

theorem leadsTo_of_own (hm : a.navigator = m.navigator) (hd : m.TargetsDeclared)
    (ht : a.target c = .ok t) (hown : sameName entity t.entityKey)
    (hroot : t.collection = some root) (he : a.fragment t entity part = .ok (b, e))
    (hb : b ≠ root) : ∃ d, m.leadsTo root (segments b) = some d := by
  obtain ⟨path, hpath⟩ := exists_filterEntity_of_own hm ht hown hroot he hb
  obtain ⟨i, -, hsegments, hlen, -⟩ := EntityModel.filterEntity_away hpath hb
  rw [hsegments, EntityModel.leadsTo_hopNames hlen]
  exact EntityModel.leadsTo_of_declared hd hlen

/-- In the lambda that is generated for a fragment, a free reference follows the variable
unless another lambda has captured it, and reaches what it reached from the root exactly when
it belongs to a filter on a related entity or goes on beyond the collection of the lambda. -/
theorem wrapped_route_iff (hm : a.navigator = m.navigator) (hd : m.TargetsDeclared)
    (ht : a.target c = .ok t) (hroot : t.collection = some root)
    (hf : a.analyze c = .ok filters) {predicates : List Predicate}
    (hp : a.predicates c t filters = .ok predicates) (hpart : (entity, part) ∈ c.filterParts)
    (he : a.fragment t entity part = .ok (b, e)) (hw : a.placement c t b e = .wrapped) :
    (∃ text, a.renderer.render (a.emitted b e .wrapped) = .ok text ∧
        Predicate.part (anyLambda b wrapperVariable text) ∈ predicates) ∧
      (sameName entity t.entityKey → ∃ d, m.leadsTo root (segments b) = some d) ∧
      ∀ d, m.leadsTo root (segments b) = some d →
        List.Forall₂ (fun o p => ¬ o.Bound →
            (p.path = wrapperVariable ++ "/" ++ a.wrappedPath m t entity part b o.path ∨
              headSegment (a.storedPath m t entity part o.path) ∈ o.scopes ∨
              headSegment (a.wrappedPath m t entity part b o.path) ∈ o.scopes) ∧
            ((m.route d (segments (a.wrappedPath m t entity part b o.path))).after
                  (m.hops root (segments b)) =
                m.route root (segments (originalPath t entity o.path)) ↔
              (sameName entity t.entityKey → (segments b).length < (segments o.path).length)))
          (part.occurrences []) ((a.emitted b e .wrapped).occurrences []) := by
  have hb : b ≠ root := ne_root_of_wrapped hroot hw
  refine ⟨?_, fun hown => leadsTo_of_own hm hd ht hown hroot he hb, fun d hleads => ?_⟩
  · obtain ⟨text, htext, hplace⟩ :=
      mem_predicates hp ((mem_bucket_iff ht hf).2 ⟨(entity, part), hpart, he⟩)
    rw [hw] at htext hplace
    exact ⟨text, htext, hplace⟩
  · have hocc : (a.emitted b e .wrapped).occurrences [] =
        (part.occurrences []).map fun o => ((o.rename (a.storedPath m t entity part)).rename
          (a.relativePath b)).rename (wrapperVariable ++ "/" ++ ·) := by
      rw [emitted, occurrences_qualified, occurrences_relative, occurrences_fragment hm ht he,
        List.map_map, List.map_map]
      rfl
    rw [hocc, List.forall₂_map_right_iff, List.forall₂_same]
    intro o ho hfree
    refine ⟨?_, route_wrappedPath_iff hm ht hroot he hb hleads ho hfree⟩
    rw [Occurrence.rename_of_free hfree]
    by_cases hs : Occurrence.Bound ⟨o.scopes, a.storedPath m t entity part o.path⟩
    · exact Or.inr (Or.inl hs)
    · rw [Occurrence.rename_of_free hs]
      by_cases hr : Occurrence.Bound
          ⟨o.scopes, a.relativePath b (a.storedPath m t entity part o.path)⟩
      · exact Or.inr (Or.inr hr)
      · rw [Occurrence.rename_of_free hr]
        exact Or.inl rfl

def discountFilter : Expr :=
  .binary .gt (.reference "orderdetails/Quantity") (.reference "OrderDetails/Discount")

def discountCommand : Command := (Command.forCollection "Orders").addFilter "Orders" discountFilter

theorem discountFilter_route :
    (northwindAdapter .v3).predicates discountCommand ⟨some "Orders", "Orders"⟩
        (Table.empty.append "OrderDetails" [discountFilter]) =
      .ok [.part "OrderDetails/any(x:x/Quantity gt x/Discount)"] ∧
    ((northwind "3.0").route "OrderDetails" (segments ((northwindAdapter .v3).wrappedPath
        (northwind "3.0") ⟨some "Orders", "Orders"⟩ "Orders" discountFilter "OrderDetails"
        "orderdetails/Quantity"))).after ((northwind "3.0").hops "Orders" ["OrderDetails"]) =
      (northwind "3.0").route "Orders" ["orderdetails", "Quantity"] := by
  have hm : (northwindAdapter .v3).navigator = (northwind "3.0").navigator := rfl
  have hd : (northwind "3.0").TargetsDeclared := by decide
  have ht : (northwindAdapter .v3).target discountCommand = .ok ⟨some "Orders", "Orders"⟩ := rfl
  have hf : (northwindAdapter .v3).analyze discountCommand =
      .ok (Table.empty.append "OrderDetails" [discountFilter]) := rfl
  have hp : (northwindAdapter .v3).predicates discountCommand ⟨some "Orders", "Orders"⟩
      (Table.empty.append "OrderDetails" [discountFilter]) =
        .ok [.part "OrderDetails/any(x:x/Quantity gt x/Discount)"] := rfl
  have hpart : ("Orders", discountFilter) ∈ discountCommand.filterParts := List.mem_singleton.2 rfl
  have he : (northwindAdapter .v3).fragment ⟨some "Orders", "Orders"⟩ "Orders" discountFilter =
      .ok ("OrderDetails", discountFilter) := rfl
  obtain ⟨-, -, hroute⟩ := wrapped_route_iff hm hd ht rfl hf hp hpart he rfl
  obtain _ | ⟨hquantity, -⟩ := hroute "OrderDetails" rfl
  exact ⟨hp, ((hquantity (by decide)).2).2 fun _ => by decide⟩

def withoutDetails : Expr :=
  .unary .not (.method (.reference "OrderDetails") "any"
    [.reference "d", .binary .gt (.reference "d/Quantity") (.value (.int32 5))])

def withoutCommand : Command := (Command.forCollection "Orders").addFilter "Orders" withoutDetails

theorem withoutDetails_route_ne :
    (northwind "4.0").TargetsDeclared ∧
      (northwindAdapter .v4).analyze withoutCommand =
        .ok (Table.empty.append "OrderDetails" [withoutDetails]) ∧
      (northwindAdapter .v4).predicates withoutCommand ⟨some "Orders", "Orders"⟩
          (Table.empty.append "OrderDetails" [withoutDetails]) =
        .ok [.part "OrderDetails/any(x:not x/OrderDetails/any(d:d/Quantity gt 5))"] ∧
      (northwind "4.0").leadsTo "Orders" ["OrderDetails"] = some "OrderDetails" ∧
      ((northwind "4.0").route "OrderDetails" ["OrderDetails"]).after
          ((northwind "4.0").hops "Orders" ["OrderDetails"]) ≠
        (northwind "4.0").route "Orders" ["OrderDetails"] :=
  ⟨by decide, rfl, rfl, rfl, by decide⟩

end Adapter

end ODataClient
