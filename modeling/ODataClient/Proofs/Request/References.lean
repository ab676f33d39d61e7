import ODataClient.Proofs.Model.Route
import ODataClient.Proofs.Request.Placement

/-! The references of stored filters on their way into a query. A free reference is given a
new path when its part is filed and another one when the fragment is read from its
collection; the lambdas around it stay. -/

namespace ODataClient

namespace EntityModel

def filedPath (m : EntityModel) (dialect : Dialect) (root : String) (part : Expr) :
    String → String :=
  match m.partTargets root part with
  | .ok targets => if targets.card ≤ 1 then m.rewrittenPath dialect root else id
  | .error _ => id

variable {m : EntityModel} {dialect : Dialect} {strict : Bool} {root b : String} {part e : Expr}

theorem occurrences_rewrittenPart (m : EntityModel) (dialect : Dialect) (root : String)
    (part : Expr) :
    (m.rewrittenPart dialect root part).occurrences [] =
      (part.occurrences []).map (Occurrence.rename (m.rewrittenPath dialect root)) := by
  rw [rewrittenPart, Expr.occurrences_coerced, Expr.mapReferences, Expr.occurrences_mapScoped]

theorem occurrences_map_id (os : List Occurrence) : os.map (Occurrence.rename id) = os := by
  have h : Occurrence.rename id = id := funext Occurrence.rename_id
  rw [h, List.map_id]

/-- A part is filed rewritten under what it restricts, or as it is under the root. -/
theorem filedPart_cases (h : m.filedPart dialect strict root part = .ok (b, e)) :
    (m.filedPath dialect root part = m.rewrittenPath dialect root ∧
        e = m.rewrittenPart dialect root part ∧
        (b ≠ root → m.partTargets root part = .ok {b})) ∨
      (m.filedPath dialect root part = id ∧ e = part ∧ b = root) := by
  obtain ⟨targets, htargets, h⟩ := exists_targets_of_filedPart h
  rw [filedPath, htargets]
  rcases h with ⟨rfl, rfl, rfl⟩ | ⟨rfl, rfl⟩ | ⟨hcard, rfl, rfl⟩
  · exact Or.inl ⟨if_pos (by simp), rfl, fun hb => absurd rfl hb⟩
  · exact Or.inl ⟨if_pos (by simp), rfl, fun _ => rfl⟩
  · exact Or.inr ⟨if_neg (by omega), rfl, rfl⟩

theorem filedPart_eq_ok (h : m.filedPart dialect strict root part = .ok (b, e)) :
    e.occurrences [] =
        (part.occurrences []).map (Occurrence.rename (m.filedPath dialect root part)) ∧
      (b ≠ root → m.partTargets root part = .ok {b} ∧
        m.filedPath dialect root part = m.rewrittenPath dialect root) := by
  rcases filedPart_cases h with ⟨hpath, rfl, hb⟩ | ⟨hpath, rfl, rfl⟩
  · rw [hpath, occurrences_rewrittenPart]
    exact ⟨rfl, fun hne => ⟨hb hne, rfl⟩⟩
  · rw [hpath, occurrences_map_id]
    exact ⟨rfl, fun hne => absurd rfl hne⟩

theorem followSegment_canonical {collection collection' : Option String} {segment : Option Segment}
    (hc : ∀ r, collection = some r → m.navigator.requireCollection r = .ok r)
    (h : Adapter.followSegment m.navigator collection segment = .ok collection') :
    ∀ r, collection' = some r → m.navigator.requireCollection r = .ok r := by
  intro r hr
  subst hr
  match segment, collection, h with
  | some (.collection name), _, h =>
    obtain ⟨x, hx, hxr⟩ := map_eq_ok_iff.1 h
    obtain rfl := Option.some.inj hxr
    cases hm : m.collection? name with
    | none => simp [Navigator.requireCollection, EntityModel.navigator, hm] at hx
    | some c =>
      rw [requireCollection_name hm] at hx
      obtain rfl := Except.ok.inj hx
      exact requireCollection_name (collection?_name hm)
  | some (.navigation navigation), some current, h =>
    obtain ⟨name, -, h⟩ := bind_eq_ok_iff.1 h
    obtain ⟨partner, hp, h⟩ := bind_eq_ok_iff.1 h
    obtain rfl : partner = r := Option.some.inj (Except.ok.inj h)
    obtain ⟨n, -, hp⟩ := bind_eq_ok_iff.1 hp
    cases hm : m.collection? n.target with
    | none => simp [hm] at hp
    | some c =>
      rw [hm] at hp
      obtain rfl := Except.ok.inj hp
      exact requireCollection_name (collection?_name hm)
  | some (.navigation navigation), none, h => exact absurd (Except.ok.inj h) (by simp)
  | some (.batchReference key), _, h => exact absurd (Except.ok.inj h) (by simp)
  | some (.derivedType name), _, h => exact hc r (Except.ok.inj h)
  | none, _, h => exact hc r (Except.ok.inj h)

theorem target_canonical {a : Adapter} (hm : a.navigator = m.navigator) {c : Command}
    {t : CommandTarget} (ht : a.target c = .ok t) (hr : t.collection = some root) :
    m.navigator.requireCollection root = .ok root := by
  have hfold : ∀ (nodes : List CommandNode) (collection collection' : Option String),
      (∀ r, collection = some r → m.navigator.requireCollection r = .ok r) →
      nodes.foldlM (fun col n => Adapter.followSegment a.navigator col n.segment) collection =
        .ok collection' →
      ∀ r, collection' = some r → m.navigator.requireCollection r = .ok r := by
    intro nodes
    induction nodes with
    | nil =>
      intro collection collection' hc h
      obtain rfl : collection = collection' := Except.ok.inj h
      exact hc
    | cons node nodes ih =>
      intro collection collection' hc h
      rw [List.foldlM_cons] at h
      obtain ⟨next, hn, h⟩ := bind_eq_ok_iff.1 h
      exact ih next collection' (followSegment_canonical hc (hm ▸ hn)) h
  obtain ⟨collection, hcol, ht⟩ := bind_eq_ok_iff.1 ht
  split at ht
  · obtain rfl := Except.ok.inj ht
    exact hfold _ none collection (by simp) hcol root hr
  · simp at ht

end EntityModel

namespace Adapter

/-- What becomes of the free references of a part when it is put into its bucket. -/
def storedPath (a : Adapter) (m : EntityModel) (t : CommandTarget) (entity : String)
    (part : Expr) : String → String :=
  if sameName entity t.entityKey then
    match t.collection with
    | some root => m.filedPath a.dialect root part
    | none => id
  else
    match a.dialect with
    | .legacy => (canonicalPath a.navigator t.collection entity ++ "/" ++ ·)
    | .modern => id

def relativePath (a : Adapter) (b : String) : String → String :=
  match a.dialect with
  | .legacy => Expr.dropSegments (segments b).length
  | .modern => id

variable {a : Adapter} {m : EntityModel} {c : Command} {t : CommandTarget} {root entity b : String}
  {part e : Expr}

theorem fragment_own (hm : a.navigator = m.navigator) (ht : a.target c = .ok t)
    (hown : sameName entity t.entityKey) (hroot : t.collection = some root) (part : Expr) :
    a.fragment t entity part = m.filedPart a.dialect a.options.strictTargets root part := by
  rw [fragment, if_pos hown, hroot, hm]
  dsimp only
  rw [EntityModel.target_canonical hm ht hroot, ok_bind]
  exact EntityModel.filePart_eq m a.dialect a.options.strictTargets root part

theorem fragment_related (hrel : ¬ sameName entity t.entityKey) (part : Expr) :
    a.fragment t entity part = .ok (canonicalPath a.navigator t.collection entity,
      a.relatedForm (canonicalPath a.navigator t.collection entity) part) := by
  rw [fragment, if_neg hrel]

theorem occurrences_qualified (path : String) (e : Expr) :
    (e.qualified path).occurrences [] =
      (e.occurrences []).map (Occurrence.rename (path ++ "/" ++ ·)) := by
  rw [Expr.qualified, Expr.mapReferences, Expr.occurrences_mapScoped]

theorem occurrences_relative (a : Adapter) (b : String) (e : Expr) :
    (a.relative b e).occurrences [] =
      (e.occurrences []).map (Occurrence.rename (a.relativePath b)) := by
  rw [relative, relativePath]
  cases a.dialect with
  | legacy => rw [Expr.relativize, Expr.mapReferences, Expr.occurrences_mapScoped]
  | modern => exact (EntityModel.occurrences_map_id _).symm

theorem occurrences_fragment (hm : a.navigator = m.navigator) (ht : a.target c = .ok t)
    (he : a.fragment t entity part = .ok (b, e)) :
    e.occurrences [] =
      (part.occurrences []).map (Occurrence.rename (a.storedPath m t entity part)) := by
  rw [storedPath]
  by_cases hown : sameName entity t.entityKey = true
  · rw [if_pos hown]
    cases hroot : t.collection with
    | none => rw [fragment, if_pos hown, hroot] at he; simp at he
    | some root =>
      rw [fragment_own hm ht hown hroot] at he
      exact (EntityModel.filedPart_eq_ok he).1
  · rw [fragment_related hown] at he
    obtain ⟨-, rfl⟩ := Prod.mk.inj (Except.ok.inj he)
    rw [if_neg hown, relatedForm]
    cases a.dialect with
    | legacy => exact occurrences_qualified _ part
    | modern => exact (EntityModel.occurrences_map_id _).symm

end Adapter

end ODataClient
