import ODataClient.Number.Text
import ODataClient.Text.Parts
import ODataClient.Toml.Basic
import ODataClient.Value.Bytes

/-! Reading TOML texts. A document is a list of lines: table headers, and keys with their
values. Anything that is no TOML, or no value that settings can hold, is refused. -/

namespace ODataClient.Toml

def isSpace (c : Char) : Bool := c == ' ' || c == '\t'

def skipSpace (s : List Char) : List Char := s.dropWhile isSpace

/-- Every character but the control characters, of which only the tab is plain. -/
def isPlain (c : Char) : Bool := c == '\t' || (32 ≤ c.toNat && c.toNat != 127)

def newline? : List Char → Option (List Char)
  | '\n' :: r => some r
  | '\r' :: '\n' :: r => some r
  | _ => none

def skipComment : List Char → List Char
  | '#' :: r => r.dropWhile isPlain
  | s => s

def endLine? (s : List Char) : Option (List Char) :=
  match skipComment (skipSpace s) with
  | [] => some []
  | r => newline? r

def shortEscape? (c : Char) : Option Char :=
  if c = '"' ∨ c = '\\' then some c
  else if c = 'b' then some (Char.ofNat 8)
  else if c = 't' then some '\t'
  else if c = 'n' then some '\n'
  else if c = 'f' then some (Char.ofNat 12)
  else if c = 'r' then some '\r'
  else none

def numbered? (n : Nat) (s : List Char) : Option Char := do
  let digits ← (s.take n).mapM hexValue?
  let v := digits.foldl (fun v d => v * 16 + d) 0
  if digits.length = n ∧ v.isValidChar then some (Char.ofNat v) else none

def escape? : List Char → Option (Char × Nat)
  | [] => none
  | c :: r =>
    if c = 'u' then (numbered? 4 r).map (·, 5)
    else if c = 'U' then (numbered? 8 r).map (·, 9)
    else (shortEscape? c).map (·, 1)

def readShort (escapes : Bool) (quote : Char) : List Char → Option (List Char × List Char)
  | [] => none
  | c :: r =>
    if c = quote then some ([], r)
    else if escapes ∧ c = '\\' then
      match escape? r with
      | some (e, n) => (readShort escapes quote (r.drop n)).map fun p => (e :: p.1, p.2)
      | none => none
    else if isPlain c then (readShort escapes quote r).map fun p => (c :: p.1, p.2)
    else none
termination_by s => s.length
decreasing_by
  · simp only [List.length_drop, List.length_cons]; omega
  · simp

def skipLines : List Char → List Char
  | '\r' :: '\n' :: r => skipLines r
  | c :: r => if isSpace c ∨ c = '\n' then skipLines r else c :: r
  | [] => []

def lineEscape? (s : List Char) : Option Nat :=
  (newline? (skipSpace s)).map fun r => s.length - (skipLines r).length

/-- A string of several lines up to its three closing quotes, and what follows. Up to two
quotes more belong to the string. -/
def readLong (escapes : Bool) (quote : Char) : List Char → Option (List Char × List Char)
  | [] => none
  | c :: r =>
    if c = quote ∧ [quote, quote].isPrefixOf r then
      let kept := ((r.drop 2).take 2).takeWhile (· == quote)
      some (kept, (r.drop 2).drop kept.length)
    else if escapes ∧ c = '\\' then
      match lineEscape? r, escape? r with
      | some n, _ => readLong escapes quote (r.drop n)
      | none, some (e, n) => (readLong escapes quote (r.drop n)).map fun p => (e :: p.1, p.2)
      | none, none => none
    else if c = '\n' ∨ isPlain c then
      (readLong escapes quote r).map fun p => (c :: p.1, p.2)
    else if c = '\r' ∧ r.head? = some '\n' then readLong escapes quote r
    else none
termination_by s => s.length
decreasing_by
  · simp only [List.length_drop, List.length_cons]; omega
  · simp only [List.length_drop, List.length_cons]; omega
  · simp
  · simp

def readString (escapes : Bool) (quote : Char) (s : List Char) :
    Option (String × List Char) :=
  let found :=
    if [quote, quote].isPrefixOf s then
      let r := s.drop 2
      readLong escapes quote ((newline? r).getD r)
    else readShort escapes quote s
  found.map fun p => (String.ofList p.1, p.2)

def isBareChar (c : Char) : Bool := c.isAlphanum || c == '-' || c == '_'

def readName : List Char → Option (String × List Char)
  | [] => none
  | c :: r =>
    if c = '"' ∨ c = '\'' then
      (readShort (c == '"') c r).map fun p => (String.ofList p.1, p.2)
    else if isBareChar c then
      some (String.ofList ((c :: r).takeWhile isBareChar), (c :: r).dropWhile isBareChar)
    else none

def readKey : Nat → List Char → Option (List String × List Char)
  | 0, _ => none
  | fuel + 1, s => do
    let (name, r) ← readName (skipSpace s)
    match skipSpace r with
    | '.' :: r =>
      let (names, rest) ← readKey fuel r
      some (name :: names, rest)
    | r => some ([name], r)

/-- The value of digits in a base; single underscores may stand between them. -/
def readRun? (base : Nat) (run : List Char) : Option Nat :=
  if (parts '_' run).all (fun p => !p.isEmpty) then do
    let digits ← (run.filter (· != '_')).mapM hexValue?
    if digits.all (· < base) then some (digits.foldl (fun v d => v * base + d) 0) else none
  else none

def isRunChar (c : Char) : Bool := c.isAlphanum || c == '_'

/-- A run without a sign: in a base when it is marked, else decimal without a zero in
front. -/
def unsigned? (run : List Char) : Option Nat :=
  match run with
  | '0' :: 'x' :: r => readRun? 16 r
  | '0' :: 'o' :: r => readRun? 8 r
  | '0' :: 'b' :: r => readRun? 2 r
  | ['0'] => some 0
  | '0' :: _ => none
  | r => readRun? 10 r

def signed? (sign : Bool) (run : List Char) : Option Nat :=
  if sign && !run.all (fun c => isDigit c || c == '_') then none else unsigned? run

def readInteger (s : List Char) : Option (Toml × List Char) := do
  let (negative, r) := readSign s
  let n ← signed? (r.length != s.length) (r.takeWhile isRunChar)
  let v : Int := if negative then -n else n
  if (int64? v).isSome then some (integer v, r.dropWhile isRunChar) else none

def takeWord (word : String) (v : Toml) (s : List Char) : Option (Toml × List Char) :=
  if word.toList.isPrefixOf s then some (v, s.drop word.length) else none

def skipFill : Nat → List Char → List Char
  | 0, s => s
  | fuel + 1, s =>
    match skipLines s with
    | '#' :: r => skipFill fuel (r.dropWhile isPlain)
    | r => r

mutual

def readValue : Nat → List Char → Option (Toml × List Char)
  | 0, _ => none
  | _ + 1, [] => none
  | fuel + 1, c :: r =>
    if c = '"' ∨ c = '\'' then
      (readString (c == '"') c r).map fun p => (string p.1, p.2)
    else if c = '[' then (readItems fuel r).map fun p => (list p.1, p.2)
    else if c = '\x7b' then
      match skipSpace r with
      | '\x7d' :: rest => some (table .inline [], rest)
      | r => do
        let (pairs, rest) ← readPairs fuel r
        let entries ← ofPairs? pairs
        some (table .inline entries, rest)
    else if c = 't' then takeWord "true" (boolean true) (c :: r)
    else if c = 'f' then takeWord "false" (boolean false) (c :: r)
    else readInteger (c :: r)

/-- The items after an opening bracket, and the closing one. A comma may follow the last. -/
def readItems : Nat → List Char → Option (List Toml × List Char)
  | 0, _ => none
  | fuel + 1, s =>
    match skipFill s.length s with
    | ']' :: rest => some ([], rest)
    | r => do
      let (v, r) ← readValue fuel r
      match skipFill r.length r with
      | ']' :: rest => some ([v], rest)
      | ',' :: r =>
        let (items, rest) ← readItems fuel r
        some (v :: items, rest)
      | _ => none

def readPairs : Nat → List Char → Option (List (List String × Toml) × List Char)
  | 0, _ => none
  | fuel + 1, s => do
    let (key, r) ← readKey s.length s
    match r with
    | '=' :: r =>
      let (v, r) ← readValue fuel (skipSpace r)
      match skipSpace r with
      | '\x7d' :: rest => some ([(key, v)], rest)
      | ',' :: r =>
        let (pairs, rest) ← readPairs fuel r
        some ((key, v) :: pairs, rest)
      | _ => none
    | _ => none

end

def readStatement : List Char → Option (Statement × List Char)
  | '[' :: r => do
    let (path, r) ← readKey r.length r
    match r with
    | ']' :: r =>
      let rest ← endLine? r
      some (.header path, rest)
    | _ => none
  | s => do
    let (key, r) ← readKey s.length s
    match r with
    | '=' :: r =>
      let r := skipSpace r
      let (v, r) ← readValue (2 * r.length + 2) r
      let rest ← endLine? r
      some (.pair key v, rest)
    | _ => none

def readStatements : Nat → List Char → Option (List Statement)
  | 0, _ => none
  | fuel + 1, s =>
    match skipSpace s with
    | [] => some []
    | r =>
      match endLine? r with
      | some rest => readStatements fuel rest
      | none => do
        let (statement, rest) ← readStatement r
        let more ← readStatements fuel rest
        some (statement :: more)

def skipMark : List Char → List Char
  | '\uFEFF' :: r => r
  | s => s

def read? (s : String) : Option Entries := do
  let chars := skipMark s.toList
  let statements ← readStatements (chars.length + 1) chars
  build [] statements []

end ODataClient.Toml
