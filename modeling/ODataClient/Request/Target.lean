import ODataClient.Filter.Partition
import ODataClient.Request.Adapter

/-! The entity set that a command addresses, and its filters by the entity that they
restrict. -/

namespace ODataClient

/-- The collection that filters are analyzed against, when it is known, and the name
under which the command keeps the filters of its own entity set. -/
structure CommandTarget where
  collection : Option String
  entityKey : String
  deriving DecidableEq

namespace Adapter

def followSegment (nav : Navigator) (collection : Option String) :
    Option Segment → Except Error (Option String)
  | some (.collection name) => (nav.requireCollection name).map some
  | some (.navigation navigation) =>
    match collection with
    | some current => do
      let name ← nav.requireNavigation current navigation
      let partner ← nav.partner current name
      return some partner
    | none => .ok none
  | some (.batchReference _) => .ok none
  | some (.derivedType _) => .ok collection
  | none => .ok collection

def target (a : Adapter) (c : Command) : Except Error CommandTarget := do
  let collection ← c.chain.foldlM (fun col n => followSegment a.navigator col n.segment) none
  match c.entityName?.or (c.node.invocation.map (·.name)) with
  | some key => return ⟨collection, key⟩
  | none => throw .missingCollection

/-- The navigations of a path by their canonical names; `none` when one of them
cannot be resolved. -/
def canonicalHops? (nav : Navigator) : String → List String → Option (List String)
  | _, [] => some []
  | current, segment :: rest => do
    let name ← nav.navigationName current segment
    let next ← (nav.partner current name).toOption
    let names ← canonicalHops? nav next rest
    return name :: names

def canonicalPath (nav : Navigator) (root : Option String) (path : String) : String :=
  match root.bind fun r => canonicalHops? nav r (segments path) with
  | some names => joinSegments names
  | none => path

def filterOptions (a : Adapter) : FilterOptions := ⟨a.dialect, false, a.options.strictTargets⟩

/-- The parts of a filter that is kept for a related entity. Its references are
relative to that entity; the legacy syntax reads them from the root. -/
def relatedFragments (a : Adapter) (path : String) (e : Expr) : List Expr :=
  match a.dialect with
  | .legacy => e.conjuncts.map (Expr.qualified path)
  | .modern => e.conjuncts

def analyzeFilter (a : Adapter) (t : CommandTarget) (filters : EntityFilters)
    (entity : String) (e : Expr) : Except Error EntityFilters :=
  if sameName entity t.entityKey then
    match t.collection with
    | none => .error (.unknownEntity entity)
    | some root => do
      let parts ← partitionFilter a.navigator a.filterOptions e root
      return parts.entries.foldl (fun fs p => fs.append p.1 p.2) filters
  else
    let path := canonicalPath a.navigator t.collection entity
    .ok (filters.append path (a.relatedFragments path e))

def analyze (a : Adapter) (c : Command) : Except Error EntityFilters := do
  let t ← a.target c
  c.node.filters.entries.foldlM (fun fs p => a.analyzeFilter t fs p.1 p.2) .empty

end Adapter

end ODataClient
