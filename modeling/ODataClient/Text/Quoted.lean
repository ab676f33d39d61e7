/-! Quoted text: single quotes around it, each quote inside written twice. -/

namespace ODataClient

def doubleQuotes : List Char → List Char
  | [] => []
  | c :: r => if c = '\'' then '\'' :: '\'' :: doubleQuotes r else c :: doubleQuotes r

def quoteChars (s : List Char) : List Char := '\'' :: (doubleQuotes s ++ ['\''])

def quote (s : String) : String := String.ofList (quoteChars s.toList)

def readQuoted : List Char → Option (List Char × List Char)
  | [] => none
  | ['\''] => some ([], [])
  | '\'' :: '\'' :: r => (readQuoted r).map fun p => ('\'' :: p.1, p.2)
  | c :: r =>
    if c = '\'' then some ([], r) else (readQuoted r).map fun p => (c :: p.1, p.2)

theorem readQuoted_doubleQuotes (s rest : List Char) (h : rest.head? ≠ some '\'') :
    readQuoted (doubleQuotes s ++ '\'' :: rest) = some (s, rest) := by
  induction s with
  | nil =>
    cases rest with
    | nil => rfl
    | cons c r =>
      have hc : c ≠ '\'' := by simpa using h
      simp [doubleQuotes, readQuoted, hc]
  | cons c r ih =>
    by_cases hc : c = '\''
    · subst hc; simp [doubleQuotes, readQuoted, ih]
    · simp [doubleQuotes, readQuoted, hc, ih]

end ODataClient
