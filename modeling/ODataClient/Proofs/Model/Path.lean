import ODataClient.Filter.Target
import ODataClient.Proofs.Model.Lookup

/-! Paths read against a model. A path follows navigations hop by hop as far as its
segments name them. The first hop to many entities decides which entity a reference
restricts and how much of the path is left for it. -/

namespace ODataClient

/-- A navigation that a path follows, with the collection it is followed from. -/
structure Hop where
  owner : String
  navigation : NavigationProperty
  deriving DecidableEq

namespace EntityModel

/-- The navigations that the segments follow, up to the first segment that is none and to
the first one that leads to no declared collection. -/
def hops (m : EntityModel) : String → List String → List Hop
  | _, [] => []
  | current, segment :: rest =>
    match m.navigation? current segment with
    | none => []
    | some n =>
      ⟨current, n⟩ :: match m.collection? n.target with
        | none => []
        | some c => m.hops c.name rest

def hopNames (hops : List Hop) : List String := hops.map fun h => h.navigation.name

def crossing? (hops : List Hop) : Option Nat := hops.findIdx? fun h => h.navigation.isCollection

/-- The entity that a reference restricts: what the path has come to with its first hop to
many entities, or the root collection when there is none. -/
def filterEntity (m : EntityModel) (root path : String) : Except Error String :=
  let hops := m.hops root (segments path)
  match crossing? hops with
  | some i => .ok (joinSegments (hopNames (hops.take (i + 1))))
  | none =>
    match hops.find? fun h => (m.collection? h.navigation.target).isNone with
    | some h => .error (.unknownNavigation h.owner h.navigation.name)
    | none => .ok root

def rewrittenPath (m : EntityModel) (dialect : Dialect) (root path : String) : String :=
  match crossing? (m.hops root (segments path)) with
  | some i =>
    let rest := (segments path).drop (i + 1)
    if dialect = .modern ∧ rest ≠ [] then joinSegments rest else path
  | none => path

theorem rewrittenPath_legacy (m : EntityModel) (root path : String) :
    m.rewrittenPath .legacy root path = path := by
  rw [rewrittenPath]
  split <;> simp

theorem rewrittenPath_modern {m : EntityModel} {root path : String} {i : Nat}
    (h : crossing? (m.hops root (segments path)) = some i) :
    m.rewrittenPath .modern root path =
      if (segments path).drop (i + 1) = [] then path
      else joinSegments ((segments path).drop (i + 1)) := by
  simp only [rewrittenPath, h, true_and, ne_eq, ite_not]

variable {m : EntityModel} {current segment : String} {n : NavigationProperty}

theorem hops_cons (h : m.navigation? current segment = some n) (rest : List String) :
    m.hops current (segment :: rest) =
      ⟨current, n⟩ :: match m.collection? n.target with
        | none => []
        | some c => m.hops c.name rest := by simp only [hops, h]

theorem hops_cons_none (h : m.navigation? current segment = none) (rest : List String) :
    m.hops current (segment :: rest) = [] := by rw [hops, h]

theorem crossing?_cons_many {h : Hop} (hc : h.navigation.isCollection = true) (hs : List Hop) :
    crossing? (h :: hs) = some 0 := by simp [crossing?, List.findIdx?_cons, hc]

theorem crossing?_cons_one {h : Hop} (hc : h.navigation.isCollection = false) (hs : List Hop) :
    crossing? (h :: hs) = (crossing? hs).map (· + 1) := by
  simp [crossing?, List.findIdx?_cons, hc]

theorem followPath_eq (m : EntityModel) (dialect : Dialect) (root path current : String)
    (passed segs : List String) :
    followPath m.navigator dialect root path current passed segs =
      match crossing? (m.hops current segs) with
      | some i =>
        .ok ⟨joinSegments (passed ++ hopNames ((m.hops current segs).take (i + 1))),
          if dialect = .modern ∧ segs.drop (i + 1) ≠ [] then joinSegments (segs.drop (i + 1))
          else path⟩
      | none =>
        match (m.hops current segs).find? fun h => (m.collection? h.navigation.target).isNone with
        | some h => .error (.unknownNavigation h.owner h.navigation.name)
        | none => .ok ⟨root, path⟩ := by
  induction segs generalizing current passed with
  | nil => rfl
  | cons segment rest ih =>
    rw [followPath, navigationName_eq]
    cases hn : m.navigation? current segment with
    | none => rw [hops_cons_none hn]; rfl
    | some n =>
      simp only [Option.map_some, isCollection_name hn, ok_bind, hops_cons hn]
      cases hc : n.isCollection with
      | true => rw [crossing?_cons_many hc]; simp [hopNames]
      | false =>
        rw [crossing?_cons_one hc, if_neg (by simp), partner_name hn]
        cases ht : m.collection? n.target with
        | none => simp [crossing?, ht]
        | some c =>
          simp only [ok_bind, ih, List.find?_cons, ht, Option.isNone_some]
          cases crossing? (m.hops c.name rest) with
          | none => rfl
          | some i => simp [hopNames]

theorem referenceTarget_eq (m : EntityModel) (dialect : Dialect) (root path : String) :
    referenceTarget m.navigator dialect root path =
      (m.filterEntity root path).map fun entity => ⟨entity, m.rewrittenPath dialect root path⟩ := by
  rw [referenceTarget, followPath_eq, filterEntity, rewrittenPath]
  cases crossing? (m.hops root (segments path)) with
  | some i => rfl
  | none =>
    cases (m.hops root (segments path)).find? fun h => (m.collection? h.navigation.target).isNone
      <;> rfl

end EntityModel

end ODataClient
