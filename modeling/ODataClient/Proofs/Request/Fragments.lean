import ODataClient.Proofs.Filter.Partition
import ODataClient.Request.Clauses

/-! The filters of a command taken apart. Each stored filter falls into its parts, every
part goes into one bucket as a fragment, and the fragments of the buckets are the
predicates of the query. -/

namespace ODataClient

def Command.filterParts (c : Command) : List (String × Expr) :=
  c.node.filters.entries.flatMap fun p => p.2.conjuncts.map (p.1, ·)

namespace Adapter

def northwindAdapter (version : Version) : Adapter :=
  ⟨version, (northwind version.text).navigator, .plain⟩

def relatedForm (a : Adapter) (path : String) (part : Expr) : Expr :=
  match a.dialect with
  | .legacy => part.qualified path
  | .modern => part

/-- The bucket of one part of a stored filter, and the form in which it is kept there. -/
def fragment (a : Adapter) (t : CommandTarget) (entity : String) (part : Expr) :
    Except Error (String × Expr) :=
  if sameName entity t.entityKey then
    match t.collection with
    | none => .error (.unknownEntity entity)
    | some root => a.navigator.requireCollection root >>= fun root =>
      filePart a.navigator a.filterOptions root part
  else
    let path := canonicalPath a.navigator t.collection entity
    .ok (path, a.relatedForm path part)

theorem relatedFragments_eq (a : Adapter) (path : String) (e : Expr) :
    a.relatedFragments path e = e.conjuncts.map (a.relatedForm path) := by
  cases h : a.dialect with
  | legacy => 
    have hf : a.relatedForm path = Expr.qualified path := by funext part; rw [relatedForm, h]
    rw [relatedFragments, h, hf]
  | modern =>
    have hf : a.relatedForm path = id := by funext part; rw [relatedForm, h]; rfl
    rw [relatedFragments, h, hf, List.map_id]

theorem analyzeFilter_eq (a : Adapter) (t : CommandTarget) (filters : EntityFilters)
    (entity : String) (e : Expr) :
    a.analyzeFilter t filters entity e =
      (e.conjuncts.mapM (a.fragment t entity)).map
        (List.foldl (fun fs f => fs.append f.1 [f.2]) filters) := by
  rw [analyzeFilter]
  by_cases h : sameName entity t.entityKey = true
  · have hf : a.fragment t entity = fun part => match t.collection with
        | none => .error (.unknownEntity entity)
        | some root => a.navigator.requireCollection root >>= fun root =>
          filePart a.navigator a.filterOptions root part := by
      funext part
      rw [fragment, if_pos h]
    obtain ⟨first, others, hparts⟩ := List.exists_cons_of_ne_nil (Expr.conjuncts_ne_nil e)
    rw [if_pos h, hf]
    cases t.collection with
    | none => rw [hparts]; rfl
    | some root =>
      dsimp only
      rw [partitionFilter_eq]
      cases a.navigator.requireCollection root with
      | error error => rw [hparts]; rfl
      | ok root =>
        simp only [ok_bind]
        cases e.conjuncts.mapM (filePart a.navigator a.filterOptions root) with
        | error error => rfl
        | ok filed => exact congrArg Except.ok (Table.foldl_append_grouped filed filters)
  · have hf : a.fragment t entity = fun part =>
        pure (canonicalPath a.navigator t.collection entity,
          a.relatedForm (canonicalPath a.navigator t.collection entity) part) := by
      funext part
      rw [fragment, if_neg h]
      rfl
    rw [if_neg h, hf, List.mapM_pure]
    simp only [pure_eq_ok, map_ok]
    rw [relatedFragments_eq, Table.append_eq_foldl _ _ (by simp [Expr.conjuncts_ne_nil]),
      List.map_map]
    rfl

theorem analyze_eq (a : Adapter) (c : Command) :
    a.analyze c = a.target c >>= fun t =>
      (c.filterParts.mapM fun p => a.fragment t p.1 p.2).map Table.grouped := by
  rw [analyze]
  cases a.target c with
  | error error => rfl
  | ok t =>
    have hp : ∀ p : String × Expr,
        (p.2.conjuncts.map (p.1, ·)).mapM (fun q => a.fragment t q.1 q.2) =
          p.2.conjuncts.mapM (a.fragment t p.1) := fun p => List.mapM_map
    simp only [ok_bind]
    rw [foldlM_append_ok (fun p : String × Expr => p.2.conjuncts.mapM (a.fragment t p.1)) _
      fun filters p => analyzeFilter_eq a t filters p.1 p.2, Command.filterParts,
      mapM_flatMap_except]
    simp only [hp]
    cases c.node.filters.entries.mapM fun p => p.2.conjuncts.mapM (a.fragment t p.1) with
    | error error => rfl
    | ok fragments =>
      simp only [map_ok, Table.grouped, List.foldl_flatten]

variable {a : Adapter} {c : Command} {t : CommandTarget} {filters : EntityFilters}

theorem mem_named_iff {α : Type} {l : List (String × α)} {b : String} {x : α} :
    x ∈ Table.named b l ↔ (b, x) ∈ l := by simp [Table.named]

theorem mem_bucket_iff (ht : a.target c = .ok t) (hf : a.analyze c = .ok filters) {b : String}
    {e : Expr} :
    e ∈ (filters.get? b).getD [] ↔ ∃ p ∈ c.filterParts, a.fragment t p.1 p.2 = .ok (b, e) := by
  rw [analyze_eq, ht, ok_bind, map_eq_ok_iff] at hf
  obtain ⟨filed, hfiled, rfl⟩ := hf
  have hg : e ∈ ((Table.grouped filed).get? b).getD [] ↔ (b, e) ∈ filed := by
    rw [Table.get?_grouped]
    by_cases hm : b ∈ filed.map (·.1)
    · rw [if_pos hm, Option.getD_some, mem_named_iff]
    · rw [if_neg hm, Option.getD_none]
      refine ⟨fun h => absurd h List.not_mem_nil, fun h => absurd ?_ hm⟩
      exact List.mem_map.2 ⟨(b, e), h, rfl⟩
  rw [hg, mem_mapM_ok hfiled]

end Adapter

end ODataClient
