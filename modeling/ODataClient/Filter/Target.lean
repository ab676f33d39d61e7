import ODataClient.Model.Navigator
import ODataClient.Protocol.Version
import ODataClient.Text.Parts

/-! The entity that a reference must be evaluated against: the collection behind the
first navigation of the path that leads to many entities, or the root collection
when the path has none. -/

namespace ODataClient

structure ReferenceTarget where
  entity : String
  kept : String
  deriving DecidableEq

/-- The hops of a path from the collection `current`, which was reached over `passed`.
The modern syntax keeps only the segments after the collection. -/
def followPath (nav : Navigator) (dialect : Dialect) (root path : String) :
    String → List String → List String → Except Error ReferenceTarget
  | _, _, [] => .ok ⟨root, path⟩
  | current, passed, segment :: rest =>
    match nav.navigationName current segment with
    | none => .ok ⟨root, path⟩
    | some name => do
      if ← nav.isCollection current name then
        let kept := if dialect = .modern ∧ rest ≠ [] then joinSegments rest else path
        return ⟨joinSegments (passed ++ [name]), kept⟩
      else
        let next ← nav.partner current name
        followPath nav dialect root path next (passed ++ [name]) rest

/-- The target of a free reference, for a root that is a canonical collection name. -/
def referenceTarget (nav : Navigator) (dialect : Dialect) (root path : String) :
    Except Error ReferenceTarget :=
  followPath nav dialect root path root [] (segments path)

def entityPath (nav : Navigator) (dialect : Dialect) (root path : String) :
    Except Error ReferenceTarget := do
  let root ← nav.requireCollection root
  referenceTarget nav dialect root path

end ODataClient
