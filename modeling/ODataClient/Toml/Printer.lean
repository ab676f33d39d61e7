import ODataClient.Text.Percent

/-! Writing TOML texts. A string takes the first notation that shows it without escapes,
and tabs are always escaped between double quotes. -/

namespace ODataClient.Toml

def isCode (c : Char) : Bool :=
  (c.toNat < 32 || c.toNat == 127) && c != '\t' && c != '\n'

def longestRun (q : Char) : Nat → List Char → Nat
  | n, [] => n
  | n, c :: r => if c = q then longestRun q (n + 1) r else max n (longestRun q 0 r)

/-- The escape of a character, when it has one. Line endings may stand in long strings. -/
def escaped? (long : Bool) (c : Char) : Option (List Char) :=
  if c = '\\' then some "\\\\".toList
  else if c = '\t' then some "\\t".toList
  else if c = '\n' then if long then none else some "\\n".toList
  else if c = '\r' then some "\\r".toList
  else if c = Char.ofNat 8 then some "\\b".toList
  else if c = Char.ofNat 12 then some "\\f".toList
  else if isCode c then
    some ("\\u00".toList ++ [hexDigitUpper (c.toNat / 16), hexDigitUpper (c.toNat % 16)])
  else none

/-- The text between double quotes, of which at most two may follow each other in a long
string and none in a short one; `quotes` of them stand before the text. -/
def escapedChars (long : Bool) : Nat → List Char → List Char
  | _, [] => []
  | quotes, c :: r =>
    if c = '"' then
      if quotes < (if long then 2 else 0) then c :: escapedChars long (quotes + 1) r
      else '\\' :: '"' :: escapedChars long 0 r
    else
      match escaped? long c with
      | some e => e ++ escapedChars long 0 r
      | none => c :: escapedChars long 0 r

def longText (quotes : String) (s inner : List Char) : List Char :=
  quotes.toList ++ ((if s.contains '\n' then ['\n'] else []) ++ (inner ++ quotes.toList))

def shortQuoted (s : List Char) : List Char := '"' :: (escapedChars false 0 s ++ ['"'])

def longQuoted (s : List Char) : List Char := longText "\"\"\"" s (escapedChars true 0 s)

def stringChars (s : List Char) : List Char :=
  let codes := s.any isCode
  let slashes := s.contains '\\'
  let lines := s.contains '\n'
  let doubles := longestRun '"' 0 s
  let singles := longestRun '\'' 0 s
  if !codes && !slashes && !lines && doubles == 0 then shortQuoted s
  else if !codes && !lines && singles == 0 then '\'' :: (s ++ ['\''])
  else if !codes && !slashes && doubles ≤ 2 then longQuoted s
  else if !codes && singles ≤ 2 then longText "'''" s s
  else if lines then longQuoted s
  else shortQuoted s

def stringText (s : String) : String := String.ofList (stringChars s.toList)

def booleanText (v : Bool) : String := if v then "true" else "false"

def lineText (name value : String) : String := name ++ " = " ++ value ++ "\n"

end ODataClient.Toml
