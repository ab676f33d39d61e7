import ODataClient.Json.Printer
import ODataClient.Json.Reader
import ODataClient.Json.Record
import ODataClient.Model.Basic

/-! The JSON form of entity models. -/

namespace ODataClient

def NavigationProperty.ofJson? (j : Json) : Option NavigationProperty := do
  match ← j.fields? ["name", "collection", "target"] with
  | [some name, collection, some target] =>
    return ⟨← name.string?, ← Json.orDefault Json.bool? false collection, ← target.string?⟩
  | _ => none

def EntityCollection.ofJson? (j : Json) : Option EntityCollection := do
  match ← j.fields? ["name", "entity_type", "key", "navigations"] with
  | [some name, some type, key, navigations] =>
    return ⟨← name.string?, ← type.string?, ← Json.orDefault (Json.list? Json.string?) [] key,
      ← Json.orDefault (Json.list? NavigationProperty.ofJson?) [] navigations⟩
  | _ => none

def NavigationProperty.toJson (n : NavigationProperty) : Json :=
  .object [("name", .string n.name), ("collection", .bool n.isCollection),
    ("target", .string n.target)]

def EntityCollection.toJson (c : EntityCollection) : Json :=
  .object [("name", .string c.name), ("entity_type", .string c.entityType),
    ("key", .ofStrings c.key),
    ("navigations", .array (c.navigations.map NavigationProperty.toJson))]

namespace EntityModel

def ofJson? (j : Json) : Option EntityModel := do
  match ← j.fields? ["version", "collections"] with
  | [version, collections] =>
    return ⟨← Json.orDefault (Json.optional? Json.string?) none version,
      ← Json.orDefault (Json.list? EntityCollection.ofJson?) [] collections⟩
  | _ => none

def toJson (m : EntityModel) : Json :=
  .object ((m.version.map fun v => ("version", Json.string v)).toList ++
    [("collections", .array (m.collections.map EntityCollection.toJson))])

def ofText (text : String) : Except Error EntityModel :=
  match (Json.read? text).bind ofJson? with
  | some m => .ok m
  | none => .error (.malformedMetadata .notAModel)

def text (m : EntityModel) : String := m.toJson.pretty

end EntityModel

end ODataClient
