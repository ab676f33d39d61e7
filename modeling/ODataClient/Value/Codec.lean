import ODataClient.Json.Record
import ODataClient.Value.Basic

/-! The JSON form of values: an object with the tag `t` and the content `v`. -/

namespace ODataClient

def valueTags : List String :=
  ["Null", "Bool", "Int32", "Int64", "Double", "Decimal", "String", "Guid", "Date",
    "DateTimeOffset", "Binary", "Enum"]

def ValueType.all : List ValueType :=
  [bool, int32, int64, double, decimal, string, guid, date, timestamp, binary]

def ValueType.tag : ValueType → String
  | bool => "Bool"
  | int32 => "Int32"
  | int64 => "Int64"
  | double => "Double"
  | decimal => "Decimal"
  | string => "String"
  | guid => "Guid"
  | date => "Date"
  | timestamp => "DateTimeOffset"
  | binary => "Binary"

def ValueType.ofJson? (form : Json.TagForm) (j : Json) : Option ValueType := do
  let i ← Json.unit? form (ValueType.all.map ValueType.tag) j
  ValueType.all[i]?

def readInt64Json? (j : Json) : Option Int64 := j.integer?.bind int64?

def readDoubleJson? : Json → Option Double
  | .double d => some d
  | .integer v => some (.ofInt v)
  | _ => none

def readBytesJson? : Json → Option (List UInt8) :=
  Json.list? fun j => (j.natBelow? UInt8.size).map UInt8.ofNat

def EnumMember.ofJson? (j : Json) : Option EnumMember := do
  match ← j.fields? ["type_name", "member", "value"] with
  | [some t, some m, some v] => return ⟨← t.string?, ← m.string?, ← readInt64Json? v⟩
  | _ => none

namespace Value

def ofContent? (tag : Nat) (content : Option Json) : Option Value := do
  if tag = 0 then
    match content with
    | none | some .null => return .null
    | _ => none
  else
    let j ← content
    match tag with
    | 1 => j.bool?.map .bool
    | 2 => (j.integer?.bind int32?).map .int32
    | 3 => (readInt64Json? j).map .int64
    | 4 => (readDoubleJson? j).map .double
    | 5 => j.string?.map .decimal
    | 6 => j.string?.map .string
    | 7 => do return .guid (← Guid.read? (← j.string?).toList)
    | 8 => do return .date (← readDate? (← j.string?).toList)
    | 9 => do return .timestamp (← readTimestamp? (← j.string?).toList)
    | 10 => (readBytesJson? j).map .binary
    | 11 => (EnumMember.ofJson? j).map .enum
    | _ => none

def bufferedContent? (form : Json.TagForm) (members : List (String × Json)) (content : Json) :
    Option Json :=
  match form, members.find? fun m => m.1 == "t" || m.1 == "v" with
  | .named, some ("t", _) => some content
  | _, _ => content.checked?

def ofJson? (form : Json.TagForm) : Json → Option Value
  | .object members => do
    let t ← Json.single? "t" members
    let content ← Json.single? "v" members
    let tag ← Json.unit? form valueTags (← t)
    match content with
    | some v => ofContent? tag (some (← bufferedContent? form members v))
    | none => ofContent? tag none
  | .array [t, content] => do
    let tag ← Json.unit? form valueTags t
    ofContent? tag (some content)
  | _ => none

def tagged (tag : String) (content : Json) : Json :=
  .object [("t", .string tag), ("v", content)]

/-- What is said of a timestamp that RFC 3339 cannot express. -/
def unwritableYear : String := "The year component cannot be formatted into the requested format."

def toJson? : Value → Except String Json
  | null => .ok (.object [("t", .string "Null")])
  | bool b => .ok (tagged "Bool" (.bool b))
  | int32 v => .ok (tagged "Int32" (.integer v.toInt))
  | int64 v => .ok (tagged "Int64" (.integer v.toInt))
  | double d => .ok (tagged "Double" (.double d))
  | decimal s => .ok (tagged "Decimal" (.string s))
  | string s => .ok (tagged "String" (.string s))
  | guid g => .ok (tagged "Guid" (.string g.text))
  | date d => .ok (tagged "Date" (.string d.text))
  | timestamp t =>
    match t.rfc3339? with
    | some s => .ok (tagged "DateTimeOffset" (.string s))
    | none => .error unwritableYear
  | binary b => .ok (tagged "Binary" (.array (b.map fun x => .integer x.toNat)))
  | enum m =>
    .ok (tagged "Enum" (.object [("type_name", .string m.typeName), ("member", .string m.member),
      ("value", .integer m.value.toInt)]))

def membersToJson? (members : List (String × Value)) : Except String Json := do
  return .object (← members.mapM fun m => m.2.toJson?.map fun j => (m.1, j))

end Value

end ODataClient
