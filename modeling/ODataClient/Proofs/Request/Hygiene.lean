import ODataClient.Proofs.Expr.Renaming
import ODataClient.Proofs.Request.References

/-! Which lambda binds a reference before and after compilation. The path of a free
reference is replaced up to three times, and no variable is ever renamed, so a reference is
captured when one of its paths starts with the variable of a lambda around it. -/

namespace ODataClient

/-- The references of two expressions stand under the same lambdas, and each is bound by
the same one of them or by none in both. -/
def KeepsBinders (e w : Expr) : Prop :=
  List.Forall₂ (fun o p => p.scopes = o.scopes ∧ p.binder? = o.binder?)
    (e.occurrences []) (w.occurrences [])

instance (e w : Expr) : Decidable (KeepsBinders e w) :=
  inferInstanceAs (Decidable (List.Forall₂ _ _ _))

theorem keepsBinders_iff {e w : Expr} {fs : List (String → String)}
    (h : w.occurrences [] = (e.occurrences []).map (Occurrence.renameAll fs)) :
    KeepsBinders e w ↔ ∀ o ∈ e.occurrences [], ¬ o.Bound →
      ∀ path ∈ Occurrence.passes fs o.path, headSegment path ∉ o.scopes := by
  rw [KeepsBinders, h, List.forall₂_map_right_iff, List.forall₂_same]
  refine forall₂_congr fun o _ => ?_
  rw [Occurrence.scopes_renameAll, Occurrence.binder?_renameAll_iff]
  exact and_iff_right rfl

namespace Adapter

def replacements (a : Adapter) (m : EntityModel) (t : CommandTarget) (entity : String)
    (part : Expr) (b : String) : Placement → List (String → String)
  | .whole => [a.storedPath m t entity part]
  | .nested => [a.storedPath m t entity part, a.relativePath b]
  | .wrapped =>
    [a.storedPath m t entity part, a.relativePath b, fun path => wrapperVariable ++ "/" ++ path]

variable {a : Adapter} {m : EntityModel} {c : Command} {t : CommandTarget}
  {filters : EntityFilters} {entity b : String} {part e : Expr}

theorem occurrences_emitted (hm : a.navigator = m.navigator) (ht : a.target c = .ok t)
    (he : a.fragment t entity part = .ok (b, e)) (place : Placement) :
    (a.emitted b e place).occurrences [] = (part.occurrences []).map
      (Occurrence.renameAll (a.replacements m t entity part b place)) := by
  have hs := occurrences_fragment hm ht he
  cases place with
  | whole => exact hs
  | nested =>
    rw [emitted, occurrences_relative, hs, List.map_map]
    rfl
  | wrapped =>
    rw [emitted, occurrences_qualified, occurrences_relative, hs, List.map_map, List.map_map]
    rfl

/-- Compilation keeps the lambdas of all references of a part exactly when no free one
comes to start with the variable of a lambda around it; those that are bound never change. -/
theorem keepsBinders_emitted_iff (hm : a.navigator = m.navigator) (ht : a.target c = .ok t)
    (hf : a.analyze c = .ok filters) {predicates : List Predicate}
    (hp : a.predicates c t filters = .ok predicates) (hpart : (entity, part) ∈ c.filterParts) :
    ∃ b e text, a.fragment t entity part = .ok (b, e) ∧
      a.written b e (a.placement c t b e) = .ok text ∧
      (a.placement c t b e).predicate b text ∈ predicates ∧
      List.Forall₂ (fun o p => o.Bound → p = o) (part.occurrences [])
        ((a.emitted b e (a.placement c t b e)).occurrences []) ∧
      (KeepsBinders part (a.emitted b e (a.placement c t b e)) ↔
        ∀ o ∈ part.occurrences [], ¬ o.Bound →
          ∀ path ∈ Occurrence.passes
            (a.replacements m t entity part b (a.placement c t b e)) o.path,
            headSegment path ∉ o.scopes) := by
  have hbuckets := hf
  rw [analyze_eq, ht, ok_bind, map_eq_ok_iff] at hbuckets
  obtain ⟨filed, hfiled, -⟩ := hbuckets
  obtain ⟨⟨b, e⟩, he⟩ := exists_ok_of_mapM hfiled hpart
  have hbucket : e ∈ (filters.get? b).getD [] :=
    (mem_bucket_iff ht hf).2 ⟨(entity, part), hpart, he⟩
  obtain ⟨text, htext, hplace⟩ := mem_predicates hp hbucket
  have hocc := occurrences_emitted hm ht he (a.placement c t b e)
  refine ⟨b, e, text, he, htext, hplace, ?_, keepsBinders_iff hocc⟩
  rw [hocc, List.forall₂_map_right_iff, List.forall₂_same]
  exact fun o _ hb => Occurrence.renameAll_of_bound _ hb

def productDetails (var : String) : Expr :=
  .method (.reference "OrderDetails/Product/OrderDetails") "any"
    [.reference var,
      .binary .gt (.reference (var ++ "/Quantity")) (.reference "OrderDetails/Discount")]

def productCommand (var : String) : Command :=
  (Command.forCollection "Orders").addFilter "Orders" (productDetails var)

def filedDetails (var : String) : Expr :=
  .method (.reference "Product/OrderDetails") "any"
    [.reference var, .binary .gt (.reference (var ++ "/Quantity")) (.reference "Discount")]

theorem keepsBinders_productDetails :
    (northwindAdapter .v4).predicates (productCommand "d") ⟨some "Orders", "Orders"⟩
        (Table.empty.append "OrderDetails" [filedDetails "d"]) =
      .ok [.part "OrderDetails/any(x:x/Product/OrderDetails/any(d:d/Quantity gt x/Discount))"] ∧
    KeepsBinders (productDetails "d")
      ((northwindAdapter .v4).emitted "OrderDetails" (filedDetails "d") .wrapped) := by
  have hm : (northwindAdapter .v4).navigator = (northwind "4.0").navigator := rfl
  have ht : (northwindAdapter .v4).target (productCommand "d") =
      .ok ⟨some "Orders", "Orders"⟩ := rfl
  have hf : (northwindAdapter .v4).analyze (productCommand "d") =
      .ok (Table.empty.append "OrderDetails" [filedDetails "d"]) := rfl
  have hp : (northwindAdapter .v4).predicates (productCommand "d") ⟨some "Orders", "Orders"⟩
      (Table.empty.append "OrderDetails" [filedDetails "d"]) = .ok [.part
        "OrderDetails/any(x:x/Product/OrderDetails/any(d:d/Quantity gt x/Discount))"] := rfl
  have hpart : ("Orders", productDetails "d") ∈ (productCommand "d").filterParts :=
    List.mem_singleton.2 rfl
  obtain ⟨b, e, text, he, -, -, -, hkeeps⟩ := keepsBinders_emitted_iff hm ht hf hp hpart
  have hfragment : (northwindAdapter .v4).fragment ⟨some "Orders", "Orders"⟩ "Orders"
      (productDetails "d") = .ok ("OrderDetails", filedDetails "d") := rfl
  obtain ⟨rfl, rfl⟩ := Prod.mk.inj (Except.ok.inj (hfragment.symm.trans he))
  exact ⟨hp, hkeeps.2 (by decide)⟩

/-- With the variable of the generated lambda in the part, the discount of the detail becomes
that of the other one. -/
theorem productDetails_captured :
    (northwindAdapter .v4).analyze (productCommand "x") =
        .ok (Table.empty.append "OrderDetails" [filedDetails "x"]) ∧
      (northwindAdapter .v4).predicates (productCommand "x") ⟨some "Orders", "Orders"⟩
          (Table.empty.append "OrderDetails" [filedDetails "x"]) = .ok [.part
        "OrderDetails/any(x:x/Product/OrderDetails/any(x:x/Quantity gt x/Discount))"] ∧
      ¬ KeepsBinders (productDetails "x")
        ((northwindAdapter .v4).emitted "OrderDetails" (filedDetails "x") .wrapped) :=
  ⟨rfl, rfl, by decide⟩

end Adapter

end ODataClient
