import ODataClient.Value.Basic

/-! Conversions of literals. Numbers widen, texts are read and numbers are written;
where nothing is lost the converted value is given, and otherwise none. -/

namespace ODataClient.Value

def exactDouble? (v : Int64) : Option Double :=
  let d := Double.ofInt v.toInt
  if d.toInt64 = v then some d else none

def readBool? (s : String) : Option Bool :=
  if s = "true" then some true else if s = "false" then some false else none

/-- The value that a text writes; blanks around it are ignored, except for truth values. -/
def ofText? (target : ValueType) (s : String) : Option Value :=
  let t := trim s
  match target with
  | .bool => (readBool? s).map .bool
  | .int32 => (readInt32? t).map .int32
  | .int64 => (readInt64? t).map .int64
  | .double => (readDouble? t).map .double
  | .decimal => if isDecimalText t then some (.decimal t) else none
  | .string => some (.string s)
  | .guid => (Guid.read? t.toList).map .guid
  | .date => (readDate? t.toList).map .date
  | .timestamp => (readTimestamp? t.toList).map .timestamp
  | .binary => none

def convertPlain? (target : ValueType) : Value → Option Value
  | null => some .null
  | bool b =>
    match target with
    | .bool => some (.bool b)
    | .string => some (.string (boolText b))
    | _ => none
  | int32 v =>
    match target with
    | .int32 => some (.int32 v)
    | .int64 => some (.int64 v.toInt64)
    | .double => some (.double (.ofInt v.toInt))
    | .decimal => some (.decimal (intText v.toInt))
    | .string => some (.string (intText v.toInt))
    | _ => none
  | int64 v =>
    match target with
    | .int32 => if fitsInt32 v then some (.int32 v.toInt32) else none
    | .int64 => some (.int64 v)
    | .double => (exactDouble? v).map .double
    | .decimal => some (.decimal (intText v.toInt))
    | .string => some (.string (intText v.toInt))
    | _ => none
  | double d => if target = .double then some (.double d) else none
  | decimal s =>
    match target with
    | .double => (readDouble? (trim s)).map .double
    | .decimal => some (.decimal s)
    | .string => some (.string s)
    | _ => none
  | string s => ofText? target s
  | guid g =>
    match target with
    | .guid => some (.guid g)
    | .string => some (.string g.text)
    | _ => none
  | date d =>
    match target with
    | .date => some (.date d)
    | .timestamp => some (.timestamp (.ofDate d))
    | _ => none
  | timestamp t =>
    match target with
    | .timestamp => some (.timestamp t)
    | .date => some (.date t.date)
    | _ => none
  | binary b => if target = .binary then some (.binary b) else none
  | enum _ => none

/-- The value as one of the target type; an enumeration member counts as its number. -/
def convert? (target : ValueType) (v : Value) : Option Value := convertPlain? target v.underlying

end ODataClient.Value
