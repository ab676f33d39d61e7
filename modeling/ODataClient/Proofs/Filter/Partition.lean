import ODataClient.Proofs.Filter.Retargeting
import ODataClient.Proofs.Model.Path
import ODataClient.Proofs.Text.Grouping

/-! The partition of a filter against its rule. The rule looks at one operand of the top
`and` nodes at a time: the set of entities that its free references restrict says where it
is filed and in which form, and the filings, gathered by entity, are the partition. -/

namespace ODataClient

theorem Expr.conjuncts_ne_nil (e : Expr) : e.conjuncts ≠ [] := by
  fun_induction Expr.conjuncts e with
  | case1 left right hl hr => simp [hl]
  | case2 e => simp

theorem distinctNames_eq_sort (names : List String) :
    distinctNames names = names.toFinset.sort := by
  have h : (distinctNames names).toFinset = names.toFinset := by
    ext n
    simp [distinctNames, Table.mem_names_ofList]
  rw [← h, distinctNames]
  exact Table.names_eq_sort _

/-- The bucket of one part, and the form in which it is kept there. -/
def filePart (nav : Navigator) (options : FilterOptions) (root : String) (part : Expr) :
    Except Error (String × Expr) := do
  let t ← retarget nav options root [] part
  filing options root part t

/-- A part is filed with its references replaced, under the root or a target, or as it is under
the root. -/
theorem filePart_cases {nav : Navigator} {options : FilterOptions} {root : String} {part : Expr}
    {f : String × Expr} (hq : options.queryOption = false)
    (h : filePart nav options root part = .ok f) :
    (f.2 = part.retargeted nav options.dialect root [] ∧ (f.1 = root ∨
        ∃ path t, referenceTarget nav options.dialect root path = .ok t ∧ f.1 = t.entity)) ∨
      f = (root, part) := by
  obtain ⟨filed, hfiled, h⟩ := bind_eq_ok_iff.1 h
  rw [retarget_eq hq, map_eq_ok_iff] at hfiled
  obtain ⟨targets, htargets, rfl⟩ := hfiled
  rw [filing] at h
  split at h
  next =>
    obtain rfl := Except.ok.inj h
    exact Or.inl ⟨rfl, Or.inl rfl⟩
  next entity hd =>
    obtain rfl := Except.ok.inj h
    have hm : entity ∈ distinctNames targets := by rw [hd]; exact List.mem_singleton_self entity
    rw [distinctNames_eq_sort, Finset.mem_sort, List.mem_toFinset] at hm
    obtain ⟨path, -, he⟩ := (mem_mapM_ok htargets).1 hm
    obtain ⟨t, ht, rfl⟩ := map_eq_ok_iff.1 he
    exact Or.inl ⟨rfl, Or.inr ⟨path, t, ht, rfl⟩⟩
  next =>
    split at h
    · exact absurd h (by simp)
    · exact Or.inr (Except.ok.inj h).symm

theorem fileConjunct_eq (nav : Navigator) (options : FilterOptions) (root : String)
    (filters : EntityFilters) (part : Expr) :
    fileConjunct nav options root filters part =
      (filePart nav options root part).map fun filed => filters.append filed.1 [filed.2] := by
  rw [fileConjunct, filePart]
  cases retarget nav options root [] part with
  | error error => rfl
  | ok t => cases h : filing options root part t <;> simp [h]

theorem partitionFilter_eq (nav : Navigator) (options : FilterOptions) (e : Expr) (root : String) :
    partitionFilter nav options e root = nav.requireCollection root >>= fun root =>
      (e.conjuncts.mapM (filePart nav options root)).map Table.grouped := by
  rw [partitionFilter]
  cases nav.requireCollection root with
  | error error => rfl
  | ok root =>
    exact foldlM_append_ok (filePart nav options root) _ (fileConjunct_eq nav options root)
      e.conjuncts .empty

namespace EntityModel

def partTargets (m : EntityModel) (root : String) (part : Expr) : Except Error (Finset String) :=
  ((freePaths (part.occurrences [])).mapM (m.filterEntity root)).map List.toFinset

/-- A part with its free references rewritten for the entity that they restrict and with
its conversions over literals carried out. -/
def rewrittenPart (m : EntityModel) (dialect : Dialect) (root : String) (part : Expr) : Expr :=
  (part.mapReferences (m.rewrittenPath dialect root)).coerced

/-- A part is filed, rewritten, under the only entity that it restricts, or under the root
when there is none; with several it stays as it is under the root, or is refused. -/
def filedPart (m : EntityModel) (dialect : Dialect) (strict : Bool) (root : String)
    (part : Expr) : Except Error (String × Expr) := do
  let targets ← m.partTargets root part
  match targets.sort with
  | [] => return (root, m.rewrittenPart dialect root part)
  | [entity] => return (entity, m.rewrittenPart dialect root part)
  | entities => if strict then throw (.ambiguousTarget entities) else return (root, part)

variable {m : EntityModel}

/-- A part is filed rewritten under the root or the entity that it restricts, and as it is under
the root when it restricts several. -/
theorem exists_targets_of_filedPart {dialect : Dialect} {strict : Bool} {root b : String}
    {part e : Expr} (h : m.filedPart dialect strict root part = .ok (b, e)) :
    ∃ targets, m.partTargets root part = .ok targets ∧
      (targets = ∅ ∧ b = root ∧ e = m.rewrittenPart dialect root part ∨
        targets = {b} ∧ e = m.rewrittenPart dialect root part ∨
        1 < targets.card ∧ b = root ∧ e = part) := by
  obtain ⟨targets, htargets, h⟩ := bind_eq_ok_iff.1 h
  refine ⟨targets, htargets, ?_⟩
  have hset : targets.sort.toFinset = targets := Finset.sort_toFinset _ _
  have hcard : targets.sort.length = targets.card := Finset.length_sort _
  match hs : targets.sort with
  | [] =>
    rw [hs] at h hset
    obtain ⟨rfl, rfl⟩ := Prod.mk.inj (Except.ok.inj h)
    exact .inl ⟨by simpa using hset.symm, rfl, rfl⟩
  | [entity] =>
    rw [hs] at h hset
    obtain ⟨rfl, rfl⟩ := Prod.mk.inj (Except.ok.inj h)
    exact .inr (.inl ⟨by simpa using hset.symm, rfl⟩)
  | entity :: entity' :: others =>
    rw [hs] at h hcard
    have hk : (if strict then throw (.ambiguousTarget (entity :: entity' :: others))
        else return (root, part) : Except Error (String × Expr)) = .ok (b, e) := h
    split at hk
    · simp at hk
    · obtain ⟨rfl, rfl⟩ := Prod.mk.inj (Except.ok.inj hk)
      exact .inr (.inr ⟨by simp [← hcard], rfl, rfl⟩)

theorem targetsOf_eq (m : EntityModel) (dialect : Dialect) (root : String) (os : List Occurrence) :
    targetsOf m.navigator dialect root os = (freePaths os).mapM (m.filterEntity root) := by
  rw [targetsOf]
  congr 1
  funext path
  rw [referenceTarget_eq]
  cases m.filterEntity root path <;> rfl

theorem keptPath_eq (m : EntityModel) (dialect : Dialect) (root : String) :
    keptPath m.navigator dialect root = m.rewrittenPath dialect root := by
  funext path
  rw [keptPath, referenceTarget_eq]
  cases h : m.filterEntity root path with
  | ok entity => rfl
  | error error =>
    have hc : crossing? (m.hops root (segments path)) = none := by
      cases hc : crossing? (m.hops root (segments path)) with
      | none => rfl
      | some i => simp [filterEntity, hc] at h
    simp only [map_error, rewrittenPath, hc]

theorem filePart_eq (m : EntityModel) (dialect : Dialect) (strict : Bool) (root : String)
    (part : Expr) :
    filePart m.navigator ⟨dialect, false, strict⟩ root part =
      m.filedPart dialect strict root part := by
  rw [filePart, retarget_eq rfl, targetsOf_eq, filedPart, partTargets]
  cases (freePaths (part.occurrences [])).mapM (m.filterEntity root) with
  | error error => rfl
  | ok targets =>
    have hr : part.retargeted m.navigator dialect root [] = m.rewrittenPart dialect root part := by
      rw [Expr.retargeted, keptPath_eq, rewrittenPart, Expr.mapReferences]
    simp only [map_ok, ok_bind, filing, distinctNames_eq_sort, hr]
    rfl

/-- A filter is partitioned by its rule: the operands of the top `and` nodes are filed one by
one, and each bucket holds its own in their order. -/
theorem partitionFilter_eq_filedParts (dialect : Dialect) (strict : Bool) (e : Expr)
    {root : String} {c : EntityCollection} (hroot : m.collection? root = some c) :
    partitionFilter m.navigator ⟨dialect, false, strict⟩ e root =
        (e.conjuncts.mapM (m.filedPart dialect strict c.name)).map Table.grouped ∧
      ∀ filters, partitionFilter m.navigator ⟨dialect, false, strict⟩ e root = .ok filters →
        ∃ filed, List.Forall₂ (fun part f => m.filedPart dialect strict c.name part = .ok f)
            e.conjuncts filed ∧
          (filters.entries.flatMap fun b => b.2.map (b.1, ·)).Perm filed ∧
          ∀ b ∈ filters.entries, b.2 ≠ [] ∧ b.2 = Table.named b.1 filed := by
  have heq : partitionFilter m.navigator ⟨dialect, false, strict⟩ e root =
      (e.conjuncts.mapM (m.filedPart dialect strict c.name)).map Table.grouped := by
    have hf := funext (filePart_eq m dialect strict c.name)
    rw [partitionFilter_eq, requireCollection_name hroot, ok_bind, hf]
  refine ⟨heq, fun filters h => ?_⟩
  obtain ⟨filed, hfiled, rfl⟩ := map_eq_ok_iff.1 (heq.symm.trans h)
  exact ⟨filed, mapM_eq_ok_iff.1 hfiled, Table.entries_grouped_perm filed,
    fun b hb => Table.mem_entries_grouped hb⟩

section Split

variable {options : FilterOptions} {root : String} {c : EntityCollection} {e : Expr}
  {filters : EntityFilters}

theorem exists_filed_of_partitionFilter (hroot : m.collection? root = some c)
    (h : partitionFilter m.navigator options e root = .ok filters) :
    ∃ filed, e.conjuncts.mapM (filePart m.navigator options c.name) = .ok filed ∧
      Table.grouped filed = filters := by
  rw [partitionFilter_eq, requireCollection_name hroot, ok_bind] at h
  exact map_eq_ok_iff.1 h

/-- The buckets hold what the parts are filed as, and nothing else. -/
theorem mem_buckets_iff (hroot : m.collection? root = some c)
    (h : partitionFilter m.navigator options e root = .ok filters) {f : String × Expr} :
    (∃ bucket ∈ filters.entries, ∃ kept ∈ bucket.2, (bucket.1, kept) = f) ↔
      ∃ part ∈ e.conjuncts, filePart m.navigator options c.name part = .ok f := by
  obtain ⟨filed, hfiled, rfl⟩ := exists_filed_of_partitionFilter hroot h
  exact Table.mem_grouped_iff.symm.trans (mem_mapM_ok hfiled)

theorem bucket_ne_nil (hroot : m.collection? root = some c)
    (h : partitionFilter m.navigator options e root = .ok filters) {bucket : String × List Expr}
    (hb : bucket ∈ filters.entries) : bucket.2 ≠ [] := by
  obtain ⟨filed, -, rfl⟩ := exists_filed_of_partitionFilter hroot h
  exact (Table.mem_entries_grouped hb).1

end Split

def northwindOrders : EntityCollection where
  name := "Orders"
  entityType := "NorthwindModel.Order"
  key := ["OrderID"]
  navigations := [⟨"OrderDetails", true, "OrderDetails"⟩, ⟨"Customer", false, "Customers"⟩]

theorem collection?_orders : (northwind "4.0").collection? "orders" = some northwindOrders := rfl

/-- The first conversion can be carried out and the second cannot; the third stands in an operand
that restricts two entities. -/
def freightFilter : Expr :=
  .binary .and
    (.binary .and
      (.binary .gt (.reference "Customer/orders/Freight")
        (.conversion .int64 (.value (.int32 5))))
      (.method (.reference "orderdetails") "any"
        [.reference "d", .binary .gt (.reference "d/Quantity")
          (.conversion .int32 (.value (.string "two")))]))
    (.binary .lt (.reference "Freight") (.binary .add (.reference "OrderDetails/Discount")
      (.conversion .int64 (.value (.int32 7)))))

theorem partitionFilter_freightFilter :
    (northwind "4.0").collection? "orders" =
        some ⟨"Orders", "NorthwindModel.Order", ["OrderID"],
          [⟨"OrderDetails", true, "OrderDetails"⟩, ⟨"Customer", false, "Customers"⟩]⟩ ∧
      partitionFilter (northwind "4.0").navigator ⟨.modern, false, false⟩ freightFilter "orders" =
        (freightFilter.conjuncts.mapM ((northwind "4.0").filedPart .modern false "Orders")).map
          Table.grouped ∧
      (partitionFilter (northwind "4.0").navigator ⟨.modern, false, false⟩ freightFilter
          "orders").map (·.entries) =
        .ok [("Customer/Orders", [.binary .gt (.reference "Freight") (.value (.int64 5))]),
          ("OrderDetails", [.method (.reference "orderdetails") "any"
            [.reference "d", .binary .gt (.reference "d/Quantity")
              (.conversion .int32 (.value (.string "two")))]]),
          ("Orders", [.binary .lt (.reference "Freight")
            (.binary .add (.reference "OrderDetails/Discount")
              (.conversion .int64 (.value (.int32 7))))])] :=
  have h : (northwind "4.0").collection? "orders" =
      some ⟨"Orders", "NorthwindModel.Order", ["OrderID"],
        [⟨"OrderDetails", true, "OrderDetails"⟩, ⟨"Customer", false, "Customers"⟩]⟩ := rfl
  ⟨h, (partitionFilter_eq_filedParts .modern false freightFilter h).1, rfl⟩

end EntityModel

end ODataClient
