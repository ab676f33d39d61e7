import ODataClient.Proofs.Model.Route

/-! Paths to collections. The first hop to many entities takes a path apart into the path of the
collection that it has come to, spelled as in the model, and the segments that are left. -/

namespace ODataClient

namespace EntityModel

/-- A path of navigations of which the last one, and no other, leads to many entities. -/
def ReachesCollection (m : EntityModel) (root path : String) : Prop :=
  ∃ earlier last, m.hops root (segments path) = earlier ++ [last] ∧
    (segments path).length = earlier.length + 1 ∧
    last.navigation.isCollection = true ∧ ∀ hop ∈ earlier, hop.navigation.isCollection = false

theorem crossing?_eq_some_iff {hops : List Hop} {i : Nat} :
    crossing? hops = some i ↔ ∃ earlier last later, hops = earlier ++ last :: later ∧
      earlier.length = i ∧ last.navigation.isCollection = true ∧
      ∀ hop ∈ earlier, hop.navigation.isCollection = false := by
  induction hops generalizing i with
  | nil => simp [crossing?]
  | cons h hs ih =>
    cases hc : h.navigation.isCollection with
    | true =>
      rw [crossing?_cons_many hc]
      constructor
      · rintro ⟨⟩
        exact ⟨[], h, hs, rfl, rfl, hc, fun _ hn => absurd hn List.not_mem_nil⟩
      · rintro ⟨_ | ⟨first, earlier⟩, last, later, hsplit, rfl, -, hone⟩
        · rfl
        · obtain ⟨rfl, -⟩ := List.cons.inj hsplit
          exact absurd (hone h List.mem_cons_self) (by simp [hc])
    | false =>
      rw [crossing?_cons_one hc, Option.map_eq_some_iff]
      constructor
      · rintro ⟨j, hj, rfl⟩
        obtain ⟨earlier, last, later, rfl, rfl, hlast, hone⟩ := ih.1 hj
        exact ⟨h :: earlier, last, later, rfl, rfl, hlast, List.forall_mem_cons.2 ⟨hc, hone⟩⟩
      · rintro ⟨_ | ⟨first, earlier⟩, last, later, hsplit, rfl, hlast, hone⟩
        · obtain ⟨rfl, -⟩ := List.cons.inj hsplit
          exact absurd hlast (by simp [hc])
        · obtain ⟨rfl, rfl⟩ := List.cons.inj hsplit
          exact ⟨_, ih.2 ⟨earlier, last, later, rfl, rfl, hlast,
            fun hop hm => hone hop (List.mem_cons_of_mem _ hm)⟩, rfl⟩

theorem reachesCollection_iff_crossing {m : EntityModel} {root path : String} :
    m.ReachesCollection root path ↔
      (m.hops root (segments path)).length = (segments path).length ∧
        crossing? (m.hops root (segments path)) = some ((segments path).length - 1) := by
  rw [ReachesCollection, crossing?_eq_some_iff]
  constructor
  · rintro ⟨earlier, last, hsplit, hlen, hlast, hone⟩
    refine ⟨by rw [hsplit, hlen]; simp, earlier, last, [], hsplit, by omega, hlast, hone⟩
  · rintro ⟨hlen, earlier, last, later, hsplit, hearlier, hlast, hone⟩
    rw [hsplit, List.length_append, List.length_cons] at hlen
    obtain rfl : later = [] := List.length_eq_zero_iff.1 (by omega)
    exact ⟨earlier, last, hsplit, by simpa using hlen.symm, hlast, hone⟩

instance (m : EntityModel) (root path : String) : Decidable (m.ReachesCollection root path) :=
  decidable_of_iff _ reachesCollection_iff_crossing.symm

variable {m : EntityModel} {root path b : String}

/-- A path that a reference is filed under ends with its first hop to many entities. -/
theorem reachesCollection_filterEntity (h : m.filterEntity root path = .ok b) (hb : b ≠ root) :
    m.ReachesCollection root b := by
  obtain ⟨i, hi, hsegments, hlen, hlt⟩ := filterEntity_away h hb
  obtain ⟨earlier, last, later, hsplit, rfl, hlast, hone⟩ := crossing?_eq_some_iff.1 hi
  refine ⟨earlier, last, ?_, ?_, hlast, hone⟩
  · have htake : earlier.take (earlier.length + 1) = earlier :=
      List.take_of_length_le (Nat.le_succ _)
    rw [hsegments, hops_hopNames, hops_take, hsplit, List.take_append, htake]
    simp
  · rw [hsegments, hopNames, List.length_map, hlen, List.length_take]
    omega

/-- A path to a collection whose segments are the names of its navigations. -/
structure SpellsCollection (m : EntityModel) (root path : String) : Prop where
  reaches : m.ReachesCollection root path
  spelled : hopNames (m.hops root (segments path)) = segments path

theorem spellsCollection_filterEntity (h : m.filterEntity root path = .ok b) (hb : b ≠ root) :
    m.SpellsCollection root b where
  reaches := reachesCollection_filterEntity h hb
  spelled := by
    obtain ⟨i, -, hsegments, -, -⟩ := filterEntity_away h hb
    rw [hsegments, hops_hopNames]

theorem sameNames_hops (m : EntityModel) (current : String) (segs : List String) :
    List.Forall₂ (fun name segment => sameName name segment) (hopNames (m.hops current segs))
      (segs.take (m.hops current segs).length) := by
  induction segs generalizing current with
  | nil => exact .nil
  | cons segment rest ih =>
    cases hn : m.navigation? current segment with
    | none => simp [hops_cons_none hn, hopNames]
    | some n =>
      rw [hops_cons hn, hopNames, List.map_cons, List.length_cons, List.take_succ_cons]
      refine .cons (sameName_of_navigation? hn) ?_
      cases m.collection? n.target with
      | none => exact .nil
      | some c => exact ih c.name

/-- The path up to its first hop to many entities names that collection, in any case. -/
theorem sameNames_crossing {i : Nat} (h : crossing? (m.hops root (segments path)) = some i) :
    List.Forall₂ (fun name segment => sameName name segment)
      (hopNames ((m.hops root (segments path)).take (i + 1))) ((segments path).take (i + 1)) := by
  obtain ⟨hi, -⟩ := lt_length_of_crossing h
  have htake := List.forall₂_take (i + 1) (sameNames_hops m root (segments path))
  rwa [List.take_take, Nat.min_eq_left (by omega), hopNames, ← List.map_take] at htake

variable {m : EntityModel} {root path : String} {c : EntityCollection} {dialect : Dialect}

theorem entityPath_crossing {i : Nat} (hroot : m.collection? root = some c)
    (h : crossing? (m.hops c.name (segments path)) = some i) :
    entityPath m.navigator dialect root path =
      .ok ⟨joinSegments (hopNames ((m.hops c.name (segments path)).take (i + 1))),
        m.rewrittenPath dialect c.name path⟩ := by
  rw [entityPath, requireCollection_name hroot, ok_bind, referenceTarget_eq, filterEntity]
  simp only [h]
  rfl

end EntityModel

end ODataClient
