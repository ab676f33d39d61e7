import ODataClient.Proofs.Filter.RootBucket
import ODataClient.Proofs.Model.Collections

/-! The names of the buckets. Each one is the root or the path of a collection, spelled as in the
model, and a reference to a collection is cut right behind the path of its bucket. The cut
loses the reference where the rest repeats that path, since a path that ends with its
collection is not cut at all. -/

namespace ODataClient

/-- The paths that a reference may have had, up to the case of their letters. -/
def ReferenceTarget.origins (t : ReferenceTarget) : List String :=
  if sameName t.kept t.entity then [t.entity ++ "/" ++ t.kept, t.kept]
  else [t.entity ++ "/" ++ t.kept]

theorem ReferenceTarget.mem_origins (t : ReferenceTarget) :
    t.entity ++ "/" ++ t.kept ∈ t.origins := by
  rw [origins]
  split <;> exact List.mem_cons_self

namespace EntityModel

variable {m : EntityModel} {options : FilterOptions} {dialect : Dialect} {root path b : String}
  {c : EntityCollection} {part e : Expr} {i : Nat}

theorem spellsCollection_filePart {f : String × Expr}
    (h : filePart m.navigator options root part = .ok f) (hroot : f.1 ≠ root) :
    m.SpellsCollection root f.1 := by
  rcases filePart_cases rfl (filePart_unrestricted h) with ⟨-, hb | ⟨path, t, ht, hb⟩⟩ | rfl
  · exact absurd hb hroot
  · rw [referenceTarget_eq] at ht
    obtain ⟨entity, hentity, rfl⟩ := map_eq_ok_iff.1 ht
    rw [hb] at hroot ⊢
    exact spellsCollection_filterEntity hentity hroot
  · exact absurd rfl hroot

theorem spellsCollection_partitionFilter {filters : EntityFilters}
    (hroot : m.collection? root = some c)
    (h : partitionFilter m.navigator options e root = .ok filters) {bucket : String × List Expr}
    (hb : bucket ∈ filters.entries) : bucket.1 = c.name ∨ m.SpellsCollection c.name bucket.1 := by
  obtain ⟨kept, hk⟩ := List.exists_mem_of_ne_nil _ (bucket_ne_nil hroot h hb)
  obtain ⟨part, -, hf⟩ := (mem_buckets_iff hroot h).1 ⟨bucket, hb, kept, hk, rfl⟩
  exact or_iff_not_imp_left.2 (spellsCollection_filePart hf)

theorem exists_root_of_partitionFilter {filters : EntityFilters}
    (h : partitionFilter m.navigator options e root = .ok filters) :
    ∃ c, m.collection? root = some c := by
  rw [partitionFilter_eq] at h
  obtain ⟨found, hfound, -⟩ := bind_eq_ok_iff.1 h
  cases hroot : m.collection? root with
  | none => simp [Navigator.requireCollection, navigator, hroot] at hfound
  | some c => exact ⟨c, rfl⟩

/-- What a reference with its first hop to many entities at the segment `i` is taken apart into. -/
structure CutBehind (dialect : Dialect) (path : String) (i : Nat) (t : ReferenceTarget) :
    Prop where
  entity : List.Forall₂ (fun name segment => sameName name segment) (segments t.entity)
    ((segments path).take (i + 1))
  legacy : dialect = .legacy → t.kept = path
  rest : dialect = .modern → (segments path).drop (i + 1) ≠ [] →
    t.kept = joinSegments ((segments path).drop (i + 1))
  whole : dialect = .modern → (segments path).drop (i + 1) = [] → t.kept = path
  origin : dialect = .modern → ∃ origin ∈ t.origins, sameName path origin

/-- A path that ends with its first hop to many entities is kept, and one that goes on from
there is put together from the collection and the rest. -/
theorem exists_origin (h : crossing? (m.hops root (segments path)) = some i) :
    ∃ origin ∈ ReferenceTarget.origins
      ⟨joinSegments (hopNames ((m.hops root (segments path)).take (i + 1))),
        m.rewrittenPath .modern root path⟩, sameName path origin := by
  have hentity := sameName_joinSegments (sameNames_crossing h)
  by_cases hrest : (segments path).drop (i + 1) = []
  · have htake : (segments path).take (i + 1) = segments path := by
      rw [← List.append_nil (List.take ..), ← hrest, List.take_append_drop]
    rw [htake, joinSegments_segments] at hentity
    rw [rewrittenPath_modern h, if_pos hrest, ReferenceTarget.origins,
      if_pos (sameName_symm hentity)]
    exact ⟨path, by simp, sameName_refl path⟩
  · have htake : (segments path).take (i + 1) ≠ [] := by
      obtain ⟨-, hi⟩ := lt_length_of_crossing h
      rw [ne_eq, ← List.length_eq_zero_iff, List.length_take]
      omega
    refine ⟨_, ReferenceTarget.mem_origins _, ?_⟩
    rw [rewrittenPath_modern h, if_neg hrest]
    have hpath := sameName_append (sameName_append hentity (sameName_refl "/"))
      (sameName_refl (joinSegments ((segments path).drop (i + 1))))
    rw [join_take_drop htake hrest] at hpath
    exact sameName_symm hpath

theorem cutBehind_crossing (h : crossing? (m.hops root (segments path)) = some i) :
    CutBehind dialect path i
      ⟨joinSegments (hopNames ((m.hops root (segments path)).take (i + 1))),
        m.rewrittenPath dialect root path⟩ where
  entity := by
    rw [segments_of_crossing h]
    exact sameNames_crossing h
  legacy hd := by rw [hd, rewrittenPath_legacy]
  rest hd hrest := by rw [hd, rewrittenPath_modern h, if_neg hrest]
  whole hd hrest := by rw [hd, rewrittenPath_modern h, if_pos hrest]
  origin hd := by
    rw [hd]
    exact exists_origin h

/-- Every bucket is named for the root or for a collection that a path of navigations reaches,
and a path to a collection is taken apart into that collection and the rest. -/
theorem spellsCollection_and_cutBehind (m : EntityModel) (root : String) :
    (∀ options e filters, partitionFilter m.navigator options e root = .ok filters →
        ∃ c, m.collection? root = some c ∧ ∀ bucket ∈ filters.entries,
          bucket.1 = c.name ∨ m.SpellsCollection c.name bucket.1) ∧
      ∀ c dialect path i, m.collection? root = some c →
        crossing? (m.hops c.name (segments path)) = some i →
        ∃ t, entityPath m.navigator dialect root path = .ok t ∧ CutBehind dialect path i t := by
  constructor
  · intro options e filters h
    obtain ⟨c, hroot⟩ := exists_root_of_partitionFilter h
    exact ⟨c, hroot, fun bucket hb => spellsCollection_partitionFilter hroot h hb⟩
  · intro c dialect path i hroot h
    exact ⟨_, entityPath_crossing hroot h, cutBehind_crossing h⟩

theorem cutBehind_freight :
    partitionFilter (northwind "4.0").navigator ⟨.modern, false, false⟩ cheapFilter "orders" =
        .ok cheapBuckets ∧
      (∃ c, (northwind "4.0").collection? "orders" = some c ∧ ∀ bucket ∈ cheapBuckets.entries,
        bucket.1 = c.name ∨ (northwind "4.0").SpellsCollection c.name bucket.1) ∧
      crossing? ((northwind "4.0").hops "Orders" (segments "customer/ORDERS/Freight")) = some 1 ∧
      CutBehind .modern "customer/ORDERS/Freight" 1 ⟨"Customer/Orders", "Freight"⟩ := by
  have h : partitionFilter (northwind "4.0").navigator ⟨.modern, false, false⟩ cheapFilter
      "orders" = .ok cheapBuckets := rfl
  have hcross : crossing? ((northwind "4.0").hops "Orders" (segments "customer/ORDERS/Freight")) =
      some 1 := rfl
  have hcut := spellsCollection_and_cutBehind (northwind "4.0") "orders"
  obtain ⟨t, ht, hbehind⟩ := hcut.2 _ .modern "customer/ORDERS/Freight" 1 collection?_orders hcross
  obtain rfl : ⟨"Customer/Orders", "Freight"⟩ = t := Except.ok.inj ht
  exact ⟨h, hcut.1 _ _ _ h, hcross, hbehind⟩

/-- A path that ends with its collection and one that goes the same way once more. -/
theorem not_exists_origin :
    entityPath (northwind "4.0").navigator .modern "Products" "Category/Products" =
        .ok ⟨"Category/Products", "Category/Products"⟩ ∧
      entityPath (northwind "4.0").navigator .modern "Products"
          "Category/Products/Category/Products" =
        .ok ⟨"Category/Products", "Category/Products"⟩ ∧
      ¬ ∃ origin : ReferenceTarget → String, ∀ path i t,
        crossing? ((northwind "4.0").hops "Products" (segments path)) = some i →
        entityPath (northwind "4.0").navigator .modern "Products" path = .ok t →
        sameName path (origin t) := by
  refine ⟨rfl, rfl, fun ⟨origin, h⟩ => ?_⟩
  have hshort := h "Category/Products" 1 _ rfl rfl
  have hlong := h "Category/Products/Category/Products" 1 _ rfl rfl
  exact absurd (sameName_trans hshort (sameName_symm hlong)) (by decide)

end EntityModel

end ODataClient
