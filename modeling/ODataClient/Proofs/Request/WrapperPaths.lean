import ODataClient.Proofs.Command.FilterOrigins
import ODataClient.Proofs.Model.Collections
import ODataClient.Proofs.Request.Routing
import ODataClient.Proofs.Request.Wrapping

/-! The collections of the generated lambdas. A part of the own filter is filed under a path that
ends with its first hop to many entities, and a lambda over it ranges over one collection. The path
of a filter on a related entity is only spelled as the model spells it, and leads to one collection
exactly when it did so as it was given. -/

namespace ODataClient

namespace EntityModel

variable {m : EntityModel} {root path b : String}

theorem length_segments_canonicalPath (m : EntityModel) (root path : String) :
    (segments (Adapter.canonicalPath m.navigator (some root) path)).length =
      (segments path).length := by
  obtain ⟨hhops, hleads⟩ := m.canonicalPath_route root path
  cases hd : m.leadsTo root (segments path) with
  | none => rw [Adapter.canonicalPath, Option.bind_some, canonicalHops?_eq, hd]; rfl
  | some d =>
    rw [← length_hops_of_leadsTo hd, ← hhops, length_hops_of_leadsTo (hleads.trans hd)]

theorem reachesCollection_canonicalPath (m : EntityModel) (root path : String) :
    m.ReachesCollection root (Adapter.canonicalPath m.navigator (some root) path) ↔
      m.ReachesCollection root path := by
  rw [ReachesCollection, (m.canonicalPath_route root path).1, length_segments_canonicalPath,
    ReachesCollection]

end EntityModel

namespace Command

variable {c d : Command} {calls : List Call} {x : Call} {k : Nat} {p : Contribution}

theorem navigation?_of_contribution (h : c.contribution? k x = some p) : x.navigation? = none := by
  cases x with
  | navigate navigation => simp [contribution?, Call.condition?] at h
  | _ => rfl

theorem entityName?_of_contribution (h : c.contribution? k x = some p)
    (hon : ∀ entity e, x ≠ .filterOn entity e) : c.entityName? = some p.entity := by
  obtain ⟨⟨path, condition⟩, hcondition, rfl⟩ := Option.map_eq_some_iff.1 h
  cases x with
  | filterOn entity e => exact absurd rfl (hon entity e)
  | filter e | filterText e =>
    obtain ⟨entity, hentity, heq⟩ := Option.map_eq_some_iff.1 hcondition
    rw [hentity, (Prod.mk.inj heq).1]
  | _ => simp [Call.condition?] at hcondition

/-- A condition that is not for a given path stays one on the entity set that is addressed. -/
theorem entityName?_of_run (h : calls.foldlM apply c = .ok d) (hp : p ∈ c.contributions k calls)
    (hon : ∀ entity e, calls[p.call - k]? ≠ some (.filterOn entity e)) :
    d.entityName? = some p.entity := by
  induction calls generalizing c k with
  | nil => exact absurd hp List.not_mem_nil
  | cons x calls ih =>
    obtain ⟨hx, h⟩ := foldlM_cons_eq_ok_iff.1 h
    rcases List.mem_append.1 hp with hp | hp
    · have hp := Option.mem_toList.1 hp
      have hcall : p.call = k := by
        obtain ⟨_, -, rfl⟩ := Option.map_eq_some_iff.1 hp
        rfl
      have hown : ∀ entity e, x ≠ .filterOn entity e := by
        rintro entity e rfl
        exact hon entity e (by simp [hcall])
      obtain ⟨hs, hf⟩ := hasRootFilter_of_contribution hx hp hown
      have hstay := navigation?_eq_none_of_hasRootFilter h (segment_applied hs x) hf
      have hkept : d.node.segment.isSome = true ∧ d.entityName? = some p.entity := by
        refine foldlM_apply_induction
          (P := fun e => e.node.segment.isSome = true ∧ e.entityName? = some p.entity) h ?_ ?_
        · exact ⟨segment_applied hs x, (entityName?_applied hs hx (navigation?_of_contribution hp)).trans
            (entityName?_of_contribution hp hown)⟩
        · exact fun e y hy he haccepts => ⟨segment_applied he.1 y,
            (entityName?_applied he.1 haccepts (hstay y hy)).trans he.2⟩
      exact hkept.2
    · obtain ⟨before, y, after, hcalls, hcall, -⟩ := call_of_mem_contributions hp
      refine ih h hp fun entity e he => hon entity e ?_
      have hk : p.call - k = p.call - (k + 1) + 1 := by omega
      rw [hk, List.getElem?_cons_succ, he]

end Command

def CommandTarget.ReachesCollection (t : CommandTarget) (m : EntityModel) (path : String) : Prop :=
  ∃ root ∈ t.collection, m.ReachesCollection root path

namespace Adapter

variable {a : Adapter} {m : EntityModel} {c : Command} {t : CommandTarget} {filters : EntityFilters}
  {calls : List Call} {clauses : List Clause} {entity b : String} {part e : Expr}

theorem reachesCollection_of_own (hm : a.navigator = m.navigator) (ht : a.target c = .ok t)
    (hown : sameName entity t.entityKey) (he : a.fragment t entity part = .ok (b, e))
    (hw : a.placement c t b e = .wrapped) : t.ReachesCollection m b := by
  cases hroot : t.collection with
  | none =>
    rw [fragment, if_pos hown, hroot] at he
    exact absurd he (by simp)
  | some root =>
    have hb := ne_root_of_wrapped hroot hw
    obtain ⟨path, hpath⟩ := exists_filterEntity_of_own hm ht hown hroot he hb
    exact ⟨root, hroot, EntityModel.reachesCollection_filterEntity hpath hb⟩

theorem reachesCollection_iff_of_related (hm : a.navigator = m.navigator)
    (hrel : ¬ sameName entity t.entityKey) (he : a.fragment t entity part = .ok (b, e)) :
    t.ReachesCollection m b ↔ t.ReachesCollection m entity := by
  rw [fragment_related hrel, hm] at he
  obtain ⟨rfl, -⟩ := Prod.mk.inj (Except.ok.inj he)
  refine exists_congr fun root => and_congr_right fun hroot => ?_
  rw [Option.mem_def.1 hroot]
  exact m.reachesCollection_canonicalPath root entity

/-- A fragment under a generated lambda is one piece of the filter of the query. -/
theorem exists_wrapper (ht : a.target c = .ok t) (hf : a.analyze c = .ok filters)
    (hc : a.clauses c filters = .ok clauses) (hpart : (entity, part) ∈ c.filterParts)
    (he : a.fragment t entity part = .ok (b, e)) (hw : a.placement c t b e = .wrapped) :
    ∃ text pieces rest, a.renderer.render (a.emitted b e .wrapped) = .ok text ∧
      clauses = filterClause pieces ++ rest ∧ anyLambda b wrapperVariable text ∈ pieces := by
  obtain ⟨t', predicates, search, items, selects, custom, ht', hp, -, -, -, hclauses⟩ :=
    clauses_eq_ok hc
  obtain rfl := Except.ok.inj (ht'.symm.trans ht)
  obtain ⟨text, htext, hplace⟩ :=
    mem_predicates hp ((mem_bucket_iff ht hf).2 ⟨(entity, part), hpart, he⟩)
  rw [hw] at htext hplace
  rw [Predicate.filterText?_eq predicates rfl, Predicate.filterPieces_ownLast, List.append_assoc,
    List.append_assoc] at hclauses
  refine ⟨text, _, _, htext, hclauses, List.mem_append_left _ ?_⟩
  exact List.mem_filterMap.2 ⟨_, hplace, rfl⟩

/-- In the query of a built command, the lambda that is generated for a filter ranges over one
collection when the filter is one on the own entity set, as all that are not added for a given
path, and otherwise exactly when the path that it was added for leads to one collection. -/
theorem built_wrapper_iff (hbuild : Command.build calls = .ok c) (hm : a.navigator = m.navigator)
    (ht : a.target c = .ok t) (hf : a.analyze c = .ok filters)
    (hc : a.clauses c filters = .ok clauses) (hpart : (entity, part) ∈ c.filterParts)
    (he : a.fragment t entity part = .ok (b, e)) (hw : a.placement c t b e = .wrapped) :
    (∃ text pieces rest, a.renderer.render (a.emitted b e .wrapped) = .ok text ∧
        clauses = filterClause pieces ++ rest ∧ anyLambda b wrapperVariable text ∈ pieces) ∧
      (t.ReachesCollection m b ↔ sameName entity t.entityKey ∨ t.ReachesCollection m entity) ∧
      ∀ p ∈ Command.empty.contributions 0 calls, p.entity = entity →
        (∃ stored, calls[p.call]? = some (.filter stored)) → t.ReachesCollection m b := by
  refine ⟨exists_wrapper ht hf hc hpart he hw, ?_, ?_⟩
  · by_cases hown : sameName entity t.entityKey = true
    · exact iff_of_true (reachesCollection_of_own hm ht hown he hw) (.inl hown)
    · rw [reachesCollection_iff_of_related hm hown he]
      exact (or_iff_right hown).symm
  · rintro p hp rfl ⟨stored, hcall⟩
    have hentity : c.entityName? = some p.entity :=
      Command.entityName?_of_run (Command.build_eq_ok_iff.1 hbuild).1 hp (by simp [hcall])
    have hkey : t.entityKey = p.entity := by
      obtain ⟨collection, -, ht⟩ := bind_eq_ok_iff.1 ht
      rw [hentity] at ht
      exact congrArg CommandTarget.entityKey (Except.ok.inj ht).symm
    exact reachesCollection_of_own hm ht (by rw [hkey]; exact sameName_refl _) he hw

def pricedProduct : Expr := .binary .gt (.reference "UnitPrice") (.value (.int32 5))

/-- The products that have a product with a high price in their category. -/
def pricedCategory : Expr :=
  .binary .gt (.reference "Category/products/UnitPrice") (.value (.int32 5))

def pricedCategoryCalls : List Call := [.collection "Products", .filter pricedCategory]

def pricedCategoryCommand : Command :=
  (Command.forCollection "Products").addFilter "Products" pricedCategory

theorem pricedCategory_wrapper :
    Command.build pricedCategoryCalls = .ok pricedCategoryCommand ∧
      (northwindAdapter .v4).clauses pricedCategoryCommand
          (Table.empty.append "Category/Products" [pricedProduct]) =
        .ok [⟨"$filter", "Category/Products/any(x:x/UnitPrice gt 5)"⟩] ∧
      CommandTarget.ReachesCollection ⟨some "Products", "Products"⟩ (northwind "4.0")
        "Category/Products" := by
  have hbuild : Command.build pricedCategoryCalls = .ok pricedCategoryCommand := rfl
  have hf : (northwindAdapter .v4).analyze pricedCategoryCommand =
      .ok (Table.empty.append "Category/Products" [pricedProduct]) := rfl
  have hc : (northwindAdapter .v4).clauses pricedCategoryCommand
      (Table.empty.append "Category/Products" [pricedProduct]) =
        .ok [⟨"$filter", "Category/Products/any(x:x/UnitPrice gt 5)"⟩] := rfl
  have he : (northwindAdapter .v4).fragment ⟨some "Products", "Products"⟩ "Products"
      pricedCategory = .ok ("Category/Products", pricedProduct) := rfl
  obtain ⟨-, -, hreaches⟩ := built_wrapper_iff (m := northwind "4.0") hbuild rfl rfl hf hc
    (List.mem_singleton.2 rfl) he rfl
  have hadded : ⟨1, "Products", .expression pricedCategory⟩ ∈
      Command.empty.contributions 0 pricedCategoryCalls := List.mem_singleton.2 rfl
  exact ⟨hbuild, hc, hreaches _ hadded rfl ⟨pricedCategory, rfl⟩⟩

def germanOrdersCalls : List Call :=
  [.collection "Orders",
    .filterOn "Customer" (.binary .eq (.reference "Country") (.value (.string "DE")))]

def germanOrdersCommand : Command :=
  (Command.forCollection "Orders").addFilter "Customer"
    (.binary .eq (.reference "Country") (.value (.string "DE")))

def germanOrdersRequest : CompiledRequest where
  method := .get
  path := "Orders"
  clauses := [⟨"$filter", "Customer/any(x:x/Country eq 'DE')"⟩]
  entityFilters := Table.empty.append "Customer" ["Country eq 'DE'"]
  payload := none

/-- An order has one customer, and the filter for it is put under a lambda over it. -/
theorem germanOrders_wrapped :
    Command.build germanOrdersCalls = .ok germanOrdersCommand ∧
      (northwindAdapter .v4).target germanOrdersCommand = .ok ⟨some "Orders", "Orders"⟩ ∧
      (northwindAdapter .v4).compile germanOrdersCommand = .ok germanOrdersRequest ∧
      (northwind "4.0").hops "Orders" ["Customer"] = [⟨"Orders", ⟨"Customer", false, "Customers"⟩⟩] ∧
      ¬ (northwind "4.0").ReachesCollection "Orders" "Customer" :=
  ⟨rfl, rfl, rfl, rfl, by decide⟩

end Adapter

end ODataClient
