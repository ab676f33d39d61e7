import ODataClient.Model.Basic

/-! What a compiler of queries asks about a model: whether a property is a navigation,
whether it leads to many entities, and to which collection. -/

namespace ODataClient

structure Navigator where
  collectionName : String → Option String
  navigationName : String → String → Option String
  isCollection : String → String → Except Error Bool
  partner : String → String → Except Error String
  entityType : String → Except Error String
  keyProperties : String → Except Error (List String)

namespace EntityModel

def partner (m : EntityModel) (entity property : String) : Except Error String := do
  let n ← m.navigation entity property
  match m.collection? n.target with
  | some c => return c.name
  | none => throw (.unknownNavigation entity property)

def navigator (m : EntityModel) : Navigator where
  collectionName name := (m.collection? name).map (·.name)
  navigationName entity property :=
    (m.collection? entity).bind fun c => (c.navigation? property).map (·.name)
  isCollection entity property := (m.navigation entity property).map (·.isCollection)
  partner := m.partner
  entityType entity := (m.collection entity).map (·.entityType)
  keyProperties entity := (m.collection entity).map (·.key)

end EntityModel

namespace Navigator

def requireCollection (nav : Navigator) (name : String) : Except Error String :=
  match nav.collectionName name with
  | some c => .ok c
  | none => .error (.unknownEntity name)

def requireNavigation (nav : Navigator) (entity property : String) : Except Error String :=
  match nav.navigationName entity property with
  | some n => .ok n
  | none => .error (.unknownNavigation entity property)

end Navigator

end ODataClient
