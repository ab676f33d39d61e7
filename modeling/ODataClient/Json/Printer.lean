import ODataClient.Json.Basic

/-! Writing JSON texts: in one line, or on indented lines. -/

namespace ODataClient.Json

def hexLower (n : Nat) : Char := "0123456789abcdef".toList.getD n '0'

/-- Control characters, quotes and backslashes are escaped, and nothing else. -/
def escapedChar (c : Char) : List Char :=
  if c = '"' then ['\\', '"']
  else if c = '\\' then ['\\', '\\']
  else if c = '\n' then ['\\', 'n']
  else if c = '\r' then ['\\', 'r']
  else if c = '\t' then ['\\', 't']
  else if c.toNat = 8 then ['\\', 'b']
  else if c.toNat = 12 then ['\\', 'f']
  else if c.toNat < 32 then
    ['\\', 'u', '0', '0', hexLower (c.toNat / 16), hexLower (c.toNat % 16)]
  else [c]

def stringChars (s : String) : List Char := '"' :: (s.toList.flatMap escapedChar ++ ['"'])

def scalarChars : Json → List Char
  | bool b => if b then "true".toList else "false".toList
  | integer v => (intText v).toList
  | double d => d.jsonText.toList
  | string s => stringChars s
  | _ => "null".toList

mutual

def compactChars : Json → List Char
  | array items => '[' :: compactItems items
  | object members => '\x7b' :: compactMembers members
  | j => scalarChars j

def compactItems : List Json → List Char
  | [] => [']']
  | x :: r => compactChars x ++ compactMoreItems r

def compactMoreItems : List Json → List Char
  | [] => [']']
  | x :: r => ',' :: (compactChars x ++ compactMoreItems r)

def compactMembers : List (String × Json) → List Char
  | [] => ['\x7d']
  | (k, x) :: r => stringChars k ++ ':' :: (compactChars x ++ compactMoreMembers r)

def compactMoreMembers : List (String × Json) → List Char
  | [] => ['\x7d']
  | (k, x) :: r => ',' :: (stringChars k ++ ':' :: (compactChars x ++ compactMoreMembers r))

end

def compact (j : Json) : String := String.ofList (compactChars j)

def newLine (level : Nat) : List Char := '\n' :: List.replicate (2 * level) ' '

mutual

def prettyChars (level : Nat) : Json → List Char
  | array [] => ['[', ']']
  | array (x :: r) =>
    '[' :: (newLine (level + 1) ++ (prettyChars (level + 1) x ++ prettyMoreItems level r))
  | object [] => ['\x7b', '\x7d']
  | object ((k, x) :: r) =>
    '\x7b' :: (newLine (level + 1) ++ (stringChars k ++ ':' :: ' ' ::
      (prettyChars (level + 1) x ++ prettyMoreMembers level r)))
  | j => scalarChars j

def prettyMoreItems (level : Nat) : List Json → List Char
  | [] => newLine level ++ [']']
  | x :: r =>
    ',' :: (newLine (level + 1) ++ (prettyChars (level + 1) x ++ prettyMoreItems level r))

def prettyMoreMembers (level : Nat) : List (String × Json) → List Char
  | [] => newLine level ++ ['\x7d']
  | (k, x) :: r =>
    ',' :: (newLine (level + 1) ++ (stringChars k ++ ':' :: ' ' ::
      (prettyChars (level + 1) x ++ prettyMoreMembers level r)))

end

def pretty (j : Json) : String := String.ofList (prettyChars 0 j)

end ODataClient.Json
