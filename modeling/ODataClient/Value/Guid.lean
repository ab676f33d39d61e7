import ODataClient.Value.Bytes

/-! Globally unique identifiers. They are written as 32 lower-case hexadecimal digits in
groups of 8, 4, 4, 4 and 12 with hyphens between them. -/

namespace ODataClient

structure Guid where
  bytes : Vector UInt8 16
  deriving DecidableEq

namespace Guid

def chars (g : Guid) : List Char :=
  let hex := g.bytes.toList.flatMap hexByteLower
  hex.take 8 ++ '-' :: ((hex.drop 8).take 4 ++ '-' :: ((hex.drop 12).take 4 ++ '-' ::
    ((hex.drop 16).take 4 ++ '-' :: hex.drop 20)))

def text (g : Guid) : String := String.ofList g.chars

def ofDigits? (digits : List Char) : Option Guid := do
  let bytes ← readHex? digits
  if h : bytes.length = 16 then some ⟨⟨bytes.toArray, by simpa using h⟩⟩ else none

def ofGrouped? (s : List Char) : Option Guid :=
  if s.length = 36 ∧ [8, 13, 18, 23].all (fun i => s[i]? == some '-') then
    ofDigits? (s.take 8 ++ (s.drop 9).take 4 ++ (s.drop 14).take 4 ++ (s.drop 19).take 4 ++
      s.drop 24)
  else none

/-- The grouped form, alone, in braces or after `urn:uuid:`, or 32 digits. -/
def read? (s : List Char) : Option Guid :=
  if s.length = 32 then ofDigits? s
  else if s.length = 38 ∧ s.head? = some '\x7b' ∧ s.getLast? = some '\x7d' then
    ofGrouped? ((s.drop 1).take 36)
  else if s.length = 45 ∧ (s.take 9).map Char.toLower = "urn:uuid:".toList then
    ofGrouped? (s.drop 9)
  else ofGrouped? s

end Guid

end ODataClient
