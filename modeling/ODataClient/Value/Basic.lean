import ODataClient.Calendar.Timestamp
import ODataClient.Error
import ODataClient.Value.Guid

/-! Literal values, the types a conversion can ask for, and equality of values as
the service sees it. -/

namespace ODataClient

structure EnumMember where
  typeName : String
  member : String
  value : Int64
  deriving DecidableEq

inductive Value
  | null
  | bool (v : Bool)
  | int32 (v : Int32)
  | int64 (v : Int64)
  | double (v : Double)
  | decimal (text : String)
  | string (text : String)
  | guid (v : Guid)
  | date (v : Date)
  | timestamp (v : Timestamp)
  | binary (bytes : List UInt8)
  | enum (v : EnumMember)
  deriving DecidableEq

inductive ValueType
  | bool
  | int32
  | int64
  | double
  | decimal
  | string
  | guid
  | date
  | timestamp
  | binary
  deriving DecidableEq

def ValueType.edmName : ValueType → String
  | bool => "Edm.Boolean"
  | int32 => "Edm.Int32"
  | int64 => "Edm.Int64"
  | double => "Edm.Double"
  | decimal => "Edm.Decimal"
  | string => "Edm.String"
  | guid => "Edm.Guid"
  | date => "Edm.Date"
  | timestamp => "Edm.DateTimeOffset"
  | binary => "Edm.Binary"

namespace Value

def ofDecimalText (text : String) : Except Error Value :=
  if isDecimalText text then .ok (.decimal text) else .error (.invalid (.notDecimal text))

def fitsInt32 (v : Int64) : Bool := (int32? v.toInt).isSome

def underlying : Value → Value
  | enum m => if fitsInt32 m.value then .int32 m.value.toInt32 else .int64 m.value
  | v => v

def equal : Value → Value → Bool
  | double a, double b => a.equal b
  | timestamp a, timestamp b => a.equal b
  | a, b => decide (a = b)

def type? : Value → Option ValueType
  | null | enum _ => none
  | bool _ => some .bool
  | int32 _ => some .int32
  | int64 _ => some .int64
  | double _ => some .double
  | decimal _ => some .decimal
  | string _ => some .string
  | guid _ => some .guid
  | date _ => some .date
  | timestamp _ => some .timestamp
  | binary _ => some .binary

end Value

def boolText (b : Bool) : String := if b then "true" else "false"

end ODataClient
