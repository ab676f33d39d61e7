import ODataClient.Proofs.Expr.Renaming
import ODataClient.Proofs.Filter.Checks
import ODataClient.Proofs.Filter.RootBucket
import ODataClient.Proofs.Request.Wrapping

/-! A filter split for both syntaxes. Its parts are refused alike and filed under the same
entities, and away from the root the parts of the modern syntax are those of the legacy one, read
from their entity. -/

namespace ODataClient

namespace EntityModel

variable {m : EntityModel} {strict : Bool} {root path b : String} {part e : Expr}

/-- The modern syntax keeps what follows the collection that a reference is filed under. -/
theorem rewrittenPath_away (h : m.filterEntity root path = .ok b) (hb : b ≠ root) :
    m.rewrittenPath .modern root path = Expr.dropSegments (segments b).length path := by
  obtain ⟨i, hi, hdepth, hlt⟩ := length_segments_of_away h hb
  rw [rewrittenPath_modern hi, Expr.dropSegments, hdepth]
  by_cases hrest : (segments path).drop (i + 1) = []
  · have hle := List.drop_eq_nil_iff.1 hrest
    rw [if_pos hrest, if_neg (by omega)]
  · have hlonger : i + 1 < (segments path).length := by rwa [List.drop_eq_nil_iff, not_le] at hrest
    rw [if_neg hrest, if_pos hlonger]

theorem rewrittenPart_modern (h : m.partTargets root part = .ok {b}) (hb : b ≠ root) :
    m.rewrittenPart .modern root part =
      (m.rewrittenPart .legacy root part).relativize (segments b).length := by
  have hlegacy : m.rewrittenPath .legacy root = id := funext (m.rewrittenPath_legacy root)
  have hpaths : ∀ o ∈ part.occurrences [], (o.rename (m.rewrittenPath .modern root)).path =
      (o.rename (Expr.dropSegments (segments b).length)).path := by
    intro o ho
    by_cases hfree : o.Bound
    · rw [Occurrence.rename_of_bound hfree, Occurrence.rename_of_bound hfree]
    · rw [Occurrence.rename_of_free hfree, Occurrence.rename_of_free hfree]
      exact rewrittenPath_away (Adapter.filterEntity_of_partTargets h ho hfree) hb
  rw [rewrittenPart, rewrittenPart, hlegacy, Expr.mapReferences, Expr.mapReferences,
    Expr.mapScoped_id, Expr.relativize, Expr.mapReferences, ← Expr.coerced_mapScoped,
    Expr.mapScoped_congr hpaths]

theorem filedPart_modern {e' : Expr} (h : m.filedPart .legacy strict root part = .ok (b, e))
    (h' : m.filedPart .modern strict root part = .ok (b, e')) (hb : b ≠ root) :
    e' = e.relativize (segments b).length := by
  rcases filedPart_cases h with ⟨-, rfl, htargets⟩ | ⟨-, -, hroot⟩
  · rcases filedPart_cases h' with ⟨-, rfl, -⟩ | ⟨-, -, hroot⟩
    · exact rewrittenPart_modern (htargets hb) hb
    · exact absurd hroot hb
  · exact absurd hroot hb

theorem answers_dialect (m : EntityModel) (dialect : Dialect) (queryOption strict : Bool)
    (root : String) (cs : List Check) :
    answers m.navigator ⟨dialect, queryOption, strict⟩ root cs =
      answers m.navigator ⟨.legacy, queryOption, strict⟩ root cs := by
  have h : Check.answer m.navigator ⟨dialect, queryOption, strict⟩ root =
      Check.answer m.navigator ⟨.legacy, queryOption, strict⟩ root := by
    funext c
    cases c with
    | operator op => rfl
    | reference o =>
      rw [Check.answer, Check.answer, referenceTarget_eq, referenceTarget_eq]
      cases m.filterEntity root o.path <;> rfl
  rw [answers, answers, h]

/-- The bucket of a part does not depend on the syntax. -/
theorem bucket_filePart (m : EntityModel) (dialect : Dialect) (queryOption strict : Bool)
    (root : String) (part : Expr) :
    (filePart m.navigator ⟨dialect, queryOption, strict⟩ root part).map (·.1) =
      (filePart m.navigator ⟨.legacy, queryOption, strict⟩ root part).map (·.1) := by
  rw [filePart, filePart, retarget_eq_answers, retarget_eq_answers, answers_dialect m dialect]
  cases answers m.navigator ⟨.legacy, queryOption, strict⟩ root (part.checks []) with
  | error error => rfl
  | ok targets =>
    simp only [map_ok, ok_bind, filing]
    split
    · rfl
    · rfl
    · cases strict <;> rfl

theorem buckets_mapM (m : EntityModel) (dialect : Dialect) (queryOption strict : Bool)
    (root : String) (parts : List Expr) :
    (parts.mapM (filePart m.navigator ⟨dialect, queryOption, strict⟩ root)).map (List.map (·.1)) =
      (parts.mapM (filePart m.navigator ⟨.legacy, queryOption, strict⟩ root)).map
        (List.map (·.1)) := by
  rw [map_mapM, map_mapM]
  exact congrArg (parts.mapM ·) (funext (bucket_filePart m dialect queryOption strict root))

/-- Away from the root, the second is the first read from the collection of the bucket. -/
def ReadFrom (root b : String) (e e' : Expr) : Prop :=
  b ≠ root → e' = e.relativize (segments b).length

theorem readFrom_filePart {queryOption : Bool} {f f' : String × Expr}
    (h : filePart m.navigator ⟨.legacy, queryOption, strict⟩ root part = .ok f)
    (h' : filePart m.navigator ⟨.modern, queryOption, strict⟩ root part = .ok f') :
    f.1 = f'.1 ∧ ReadFrom root f.1 f.2 f'.2 := by
  have hbucket := bucket_filePart m .modern queryOption strict root part
  rw [h, h', map_ok, map_ok, Except.ok.injEq] at hbucket
  obtain ⟨b, e⟩ := f
  obtain ⟨b', e'⟩ := f'
  obtain rfl : b = b' := hbucket.symm
  have hlegacy := filePart_eq_ok h
  have hmodern := filePart_eq_ok h'
  exact ⟨rfl, filedPart_modern hlegacy hmodern⟩

/-- The buckets have the same names and sizes, and those of the modern syntax hold, but for the
root, the parts of the legacy ones read from their collection. -/
def SplitAlike (root : String) (legacy modern : EntityFilters) : Prop :=
  List.Forall₂ (fun old new => old.1 = new.1 ∧ old.2.length = new.2.length ∧
    (old.1 ≠ root → new.2 = old.2.map (Expr.relativize (segments old.1).length)))
    legacy.entries modern.entries

/-- A filter is refused in both syntaxes for the same reason or split alike in both. -/
theorem partitionFilter_syntaxes (m : EntityModel) (queryOption strict : Bool) (e : Expr)
    (root : String) :
    (∀ error, partitionFilter m.navigator ⟨.modern, queryOption, strict⟩ e root = .error error ↔
        partitionFilter m.navigator ⟨.legacy, queryOption, strict⟩ e root = .error error) ∧
      ∀ c long short, m.collection? root = some c →
        partitionFilter m.navigator ⟨.legacy, queryOption, strict⟩ e root = .ok long →
        partitionFilter m.navigator ⟨.modern, queryOption, strict⟩ e root = .ok short →
        SplitAlike c.name long short := by
  constructor
  · intro error
    rw [partitionFilter_eq, partitionFilter_eq]
    cases m.navigator.requireCollection root with
    | error error' => rfl
    | ok root =>
      have hbuckets := buckets_mapM m .modern queryOption strict root e.conjuncts
      rw [ok_bind, ok_bind, map_eq_error_iff, map_eq_error_iff,
        ← map_eq_error_iff (f := List.map (·.1)), hbuckets, map_eq_error_iff]
  · intro c long short hroot hlong hshort
    obtain ⟨filed, hfiled, rfl⟩ := exists_filed_of_partitionFilter hroot hlong
    obtain ⟨filed', hfiled', rfl⟩ := exists_filed_of_partitionFilter hroot hshort
    have hparts : List.Forall₂ (fun f f' => f.1 = f'.1 ∧ ReadFrom c.name f.1 f.2 f'.2)
        filed filed' :=
      forall₂_comp (mapM_eq_ok_iff.1 hfiled).flip (mapM_eq_ok_iff.1 hfiled')
        fun _ _ _ => readFrom_filePart
    refine (Table.sameGroups_grouped hparts).imp fun old new hgroup => ?_
    obtain ⟨hname, hvalues⟩ := hgroup
    refine ⟨hname, hvalues.length_eq, fun hb => ?_⟩
    have hread : List.Forall₂ (fun e e' => Expr.relativize (segments old.1).length e = e')
        old.2 new.2 := hvalues.imp fun e e' he => (he hb).symm
    rw [← List.forall₂_map_left_iff, List.forall₂_eq_eq_eq] at hread
    exact hread.symm

def pricedAbove (path : String) : Expr :=
  .method (.reference "orderdetails") "any"
    [.reference "d", .binary .gt (.reference "d/Price") (.reference path)]

def cheaperThanDetails : Expr :=
  .binary .lt (.reference "Freight") (.reference "OrderDetails/Discount")

def dearDetails : Expr :=
  .binary .and
    (.binary .gt (.reference "Customer/orders/Freight") (.conversion .int32 (.value (.string "5"))))
    (.binary .and (pricedAbove "OrderDetails/Product/Price") cheaperThanDetails)

def dearDetailsLegacy : EntityFilters :=
  ((Table.empty.append "Customer/Orders"
      [.binary .gt (.reference "Customer/orders/Freight") (.value (.int32 5))]).append
    "OrderDetails" [pricedAbove "OrderDetails/Product/Price"]).append "Orders" [cheaperThanDetails]

def dearDetailsModern : EntityFilters :=
  ((Table.empty.append "Customer/Orders"
      [.binary .gt (.reference "Freight") (.value (.int32 5))]).append
    "OrderDetails" [pricedAbove "Product/Price"]).append "Orders" [cheaperThanDetails]

theorem partitionFilter_dearDetails :
    (northwind "4.0").collection? "orders" = some northwindOrders ∧
      partitionFilter (northwind "4.0").navigator ⟨.legacy, false, false⟩ dearDetails "orders" =
        .ok dearDetailsLegacy ∧
      partitionFilter (northwind "4.0").navigator ⟨.modern, false, false⟩ dearDetails "orders" =
        .ok dearDetailsModern ∧
      SplitAlike "Orders" dearDetailsLegacy dearDetailsModern := by
  have hlegacy : partitionFilter (northwind "4.0").navigator ⟨.legacy, false, false⟩ dearDetails
      "orders" = .ok dearDetailsLegacy := rfl
  have hmodern : partitionFilter (northwind "4.0").navigator ⟨.modern, false, false⟩ dearDetails
      "orders" = .ok dearDetailsModern := rfl
  exact ⟨collection?_orders, hlegacy, hmodern,
    (partitionFilter_syntaxes (northwind "4.0") false false dearDetails "orders").2 _ _ _
      collection?_orders hlegacy hmodern⟩

end EntityModel

end ODataClient
