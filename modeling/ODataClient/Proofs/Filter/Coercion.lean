import ODataClient.Proofs.Expr.Conversions
import ODataClient.Proofs.Filter.RootBucket

/-! The conversions that are left in the buckets of a filter. Those over literals are carried out
when a part is rewritten, each looked at before what is below it. A part that restricts several
entities is filed as it was written, with all of its conversions. -/

namespace ODataClient

namespace EntityModel

variable {m : EntityModel} {dialect : Dialect} {strict : Bool} {root b : String} {part e : Expr}

def RestrictsSeveral (m : EntityModel) (root : String) (part : Expr) : Prop :=
  ∃ targets ∈ (m.partTargets root part).toOption, 1 < targets.card

instance (m : EntityModel) (root : String) (part : Expr) :
    Decidable (m.RestrictsSeveral root part) :=
  inferInstanceAs (Decidable (∃ targets ∈ (m.partTargets root part).toOption, _))

theorem filedPart_form (h : m.filedPart dialect strict root part = .ok (b, e)) :
    e = if m.RestrictsSeveral root part then part else m.rewrittenPart dialect root part := by
  obtain ⟨targets, htargets, h⟩ := exists_targets_of_filedPart h
  have hseveral : m.RestrictsSeveral root part ↔ 1 < targets.card := by
    simp [RestrictsSeveral, htargets, Except.toOption]
  rcases h with ⟨rfl, -, rfl⟩ | ⟨rfl, rfl⟩ | ⟨hcard, -, rfl⟩
  · exact (if_neg (by simp [hseveral])).symm
  · exact (if_neg (by simp [hseveral])).symm
  · exact (if_pos (hseveral.2 hcard)).symm

/-- A part that restricts several entities has a conversion directly over a literal that it can
convert, or another part has one over such a conversion. -/
def LeavesConvertible (m : EntityModel) (root : String) (part : Expr) : Prop :=
  if m.RestrictsSeveral root part then part.Convertible else part.TwiceConvertible

instance (m : EntityModel) (root : String) (part : Expr) :
    Decidable (m.LeavesConvertible root part) :=
  inferInstanceAs (Decidable (if m.RestrictsSeveral root part then _ else _))

theorem convertible_filedPart (h : m.filedPart dialect strict root part = .ok (b, e)) :
    e.Convertible ↔ m.LeavesConvertible root part := by
  rw [filedPart_form h, LeavesConvertible]
  split
  · exact Iff.rfl
  · rw [rewrittenPart, Expr.convertible_coerced, Expr.mapReferences,
      Expr.twiceConvertible_mapScoped]

/-- All conversions over literals are carried out that can be, in all buckets, exactly when no part
leaves one: none that restricts several entities holds one, and none has one over another. -/
theorem partitionFilter_converted_iff {options : FilterOptions} {c : EntityCollection}
    {filters : EntityFilters} (hroot : m.collection? root = some c)
    (h : partitionFilter m.navigator options e root = .ok filters) :
    (∀ bucket ∈ filters.entries, ∀ kept ∈ bucket.2, ¬ kept.Convertible) ↔
      ∀ part ∈ e.conjuncts, ¬ m.LeavesConvertible c.name part := by
  constructor
  · intro hn part hp hleaves
    obtain ⟨filed, hfiled, -⟩ := exists_filed_of_partitionFilter hroot h
    obtain ⟨f, hf⟩ := exists_ok_of_mapM hfiled hp
    obtain ⟨bucket, hb, kept, hk, rfl⟩ := (mem_buckets_iff hroot h).2 ⟨part, hp, hf⟩
    exact hn bucket hb kept hk ((convertible_filedPart (filePart_eq_ok hf)).2 hleaves)
  · intro hn bucket hb kept hk hc
    obtain ⟨part, hp, hf⟩ := (mem_buckets_iff hroot h).1 ⟨bucket, hb, kept, hk, rfl⟩
    exact hn part hp ((convertible_filedPart (filePart_eq_ok hf)).1 hc)

/-- Neither of the two conversions can be carried out. -/
def coded : Expr :=
  .binary .eq (.reference "Code") (.conversion .guid (.conversion .binary (.value (.bool true))))

/-- The conversion is over a reference. -/
def convertedFreight : Expr :=
  .binary .lt (.conversion .double (.reference "Freight")) (.reference "OrderDetails/Discount")

def weighedFilter : Expr :=
  .binary .and
    (.binary .and
      (.binary .gt (.reference "Customer/Orders/Freight")
        (.conversion .int32 (.value (.string " 5"))))
      coded)
    convertedFreight

def weighedBuckets : EntityFilters :=
  (Table.empty.append "Customer/Orders"
      [.binary .gt (.reference "Freight") (.value (.int32 5))]).append
    "Orders" [coded, convertedFreight]

theorem weighedFilter_converted :
    (northwind "4.0").collection? "orders" = some northwindOrders ∧
      partitionFilter (northwind "4.0").navigator ⟨.modern, false, false⟩ weighedFilter "orders" =
        .ok weighedBuckets ∧
      (∀ part ∈ weighedFilter.conjuncts, ¬ (northwind "4.0").LeavesConvertible "Orders" part) ∧
      ∀ bucket ∈ weighedBuckets.entries, ∀ kept ∈ bucket.2, ¬ kept.Convertible := by
  have h : partitionFilter (northwind "4.0").navigator ⟨.modern, false, false⟩ weighedFilter
      "orders" = .ok weighedBuckets := rfl
  have hn : ∀ part ∈ weighedFilter.conjuncts,
      ¬ (northwind "4.0").LeavesConvertible "Orders" part := by decide
  exact ⟨collection?_orders, h, hn, (partitionFilter_converted_iff collection?_orders h).2 hn⟩

def nestedConversion : Expr :=
  .binary .eq (.reference "Freight")
    (.conversion .double (.conversion .int32 (.value (.string "5"))))

def outerConversion : Expr :=
  .binary .eq (.reference "Freight") (.conversion .double (.value (.int32 5)))

def mixedConversion : Expr :=
  .binary .lt (.reference "OrderDetails/Quantity")
    (.binary .add (.reference "Freight") (.conversion .int32 (.value (.string "7"))))

/-- A conversion over another one, and one in a part that restricts orders and their details. -/
theorem conversions_left :
    partitionFilter (northwind "4.0").navigator ⟨.modern, false, false⟩
        (.binary .and nestedConversion mixedConversion) "Orders" =
      .ok (Table.empty.append "Orders" [outerConversion, mixedConversion]) ∧
      outerConversion.Convertible ∧
      mixedConversion.Convertible :=
  ⟨rfl, by decide, by decide⟩

end EntityModel

end ODataClient
