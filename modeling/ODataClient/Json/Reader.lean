import ODataClient.Json.Number

/-! Reading JSON texts. Objects and arrays may be nested up to a fixed depth; what
lies deeper, and a string with an unpaired surrogate, is ill-formed. -/

namespace ODataClient.Json

def isSpace (c : Char) : Bool := c == ' ' || c == '\n' || c == '\t' || c == '\r'

def skipSpace (s : List Char) : List Char := s.dropWhile isSpace

def hexDigit? (c : Char) : Option Nat :=
  if '0' ≤ c ∧ c ≤ '9' then some (c.toNat - 48)
  else if 'a' ≤ c ∧ c ≤ 'f' then some (c.toNat - 87)
  else if 'A' ≤ c ∧ c ≤ 'F' then some (c.toNat - 55)
  else none

def hexUnit? (a b c d : Char) : Option Nat := do
  let a ← hexDigit? a
  let b ← hexDigit? b
  let c ← hexDigit? c
  let d ← hexDigit? d
  some (((a * 16 + b) * 16 + c) * 16 + d)

def shortEscape? (c : Char) : Option Char :=
  if c = '"' ∨ c = '\\' ∨ c = '/' then some c
  else if c = 'b' then some (Char.ofNat 8)
  else if c = 'f' then some (Char.ofNat 12)
  else if c = 'n' then some '\n'
  else if c = 'r' then some '\r'
  else if c = 't' then some '\t'
  else none

def readUnits : List Char → Option (List Nat × List Char)
  | [] => none
  | '\\' :: 'u' :: a :: b :: c :: d :: r => do
    let u ← hexUnit? a b c d
    let (us, rest) ← readUnits r
    some (u :: us, rest)
  | '\\' :: c :: r => do
    let e ← shortEscape? c
    let (us, rest) ← readUnits r
    some (e.toNat :: us, rest)
  | c :: r =>
    if c = '"' then some ([], r)
    else if c = '\\' ∨ c.toNat < 32 then none
    else (readUnits r).map fun (us, rest) => (c.toNat :: us, rest)

def isHighSurrogate (u : Nat) : Bool := 0xD800 ≤ u && u < 0xDC00

def isLowSurrogate (u : Nat) : Bool := 0xDC00 ≤ u && u < 0xE000

def ofUnits? : List Nat → Option (List Char)
  | [] => some []
  | [u] =>
    if isHighSurrogate u || isLowSurrogate u then none else some [Char.ofNat u]
  | u :: v :: r =>
    if isHighSurrogate u then
      if isLowSurrogate v then
        (ofUnits? r).map (Char.ofNat (0x10000 + (u - 0xD800) * 1024 + (v - 0xDC00)) :: ·)
      else none
    else if isLowSurrogate u then none
    else (ofUnits? (v :: r)).map (Char.ofNat u :: ·)

/-- The string after an opening quote; the inner `none` is a string that is ill-formed. -/
def readString (s : List Char) : Option (Option String × List Char) :=
  (readUnits s).map fun (us, rest) => ((ofUnits? us).map String.ofList, rest)

def ofString? : Option String → Json
  | some s => string s
  | none => illFormed

def ofMembers (members : List (Option String × Json)) : Json :=
  match members.mapM fun (name, v) => name.map (·, v) with
  | some members => object members
  | none => illFormed

def readWord (word : String) (j : Json) (s : List Char) : Option (Json × List Char) :=
  if word.toList.isPrefixOf s then some (j, s.drop word.length) else none

def takeColon : List Char → Option (List Char)
  | ':' :: r => some r
  | _ => none

mutual

/-- `depth` more objects and arrays may be opened around each other. -/
def readValue (depth : Nat) : Nat → List Char → Option (Json × List Char)
  | 0, _ => none
  | fuel + 1, s =>
    match skipSpace s with
    | [] => none
    | c :: r =>
      if c = '"' then (readString r).map fun (t, rest) => (ofString? t, rest)
      else if c = '[' then do
        let (items, rest) ← readItems (depth - 1) fuel r
        some (if depth = 0 then illFormed else array items, rest)
      else if c = '\x7b' then do
        let (members, rest) ← readMembers (depth - 1) fuel r
        some (if depth = 0 then illFormed else ofMembers members, rest)
      else if c = 'n' then readWord "null" null (c :: r)
      else if c = 't' then readWord "true" (bool true) (c :: r)
      else if c = 'f' then readWord "false" (bool false) (c :: r)
      else (readNumeral (c :: r)).map fun (x, rest) => (x.value, rest)

def readItems (depth : Nat) : Nat → List Char → Option (List Json × List Char)
  | 0, _ => none
  | fuel + 1, s =>
    match skipSpace s with
    | ']' :: r => some ([], r)
    | r => readRestItems depth fuel r

def readRestItems (depth : Nat) : Nat → List Char → Option (List Json × List Char)
  | 0, _ => none
  | fuel + 1, s => do
    let (item, s) ← readValue depth fuel s
    match skipSpace s with
    | ']' :: r => some ([item], r)
    | ',' :: r =>
      let (items, rest) ← readRestItems depth fuel r
      some (item :: items, rest)
    | _ => none

def readMembers (depth : Nat) :
    Nat → List Char → Option (List (Option String × Json) × List Char)
  | 0, _ => none
  | fuel + 1, s =>
    match skipSpace s with
    | '\x7d' :: r => some ([], r)
    | r => readRestMembers depth fuel r

def readRestMembers (depth : Nat) :
    Nat → List Char → Option (List (Option String × Json) × List Char)
  | 0, _ => none
  | fuel + 1, s =>
    match skipSpace s with
    | '"' :: r => do
      let (name, s) ← readString r
      let s ← takeColon (skipSpace s)
      let (v, s) ← readValue depth fuel s
      match skipSpace s with
      | '\x7d' :: r => some ([(name, v)], r)
      | ',' :: r =>
        let (members, rest) ← readRestMembers depth fuel r
        some ((name, v) :: members, rest)
      | _ => none
    | _ => none

end

def depthLimit : Nat := 127

def read? (s : String) : Option Json := do
  let chars := s.toList
  let (j, rest) ← readValue depthLimit (3 * chars.length + 3) chars
  if skipSpace rest = [] then some j else none

end ODataClient.Json
