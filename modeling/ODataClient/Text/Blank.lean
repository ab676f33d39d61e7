/-! Blank characters, and texts with the blanks taken off their ends. A character
is blank when it has the Unicode property White_Space. -/

namespace ODataClient

def isBlank (c : Char) : Bool :=
  let n := c.toNat
  (9 ≤ n && n ≤ 13) || n == 0x20 || n == 0x85 || n == 0xA0 || n == 0x1680 ||
    (0x2000 ≤ n && n ≤ 0x200A) || n == 0x2028 || n == 0x2029 || n == 0x202F ||
    n == 0x205F || n == 0x3000

def dropBlanks (s : List Char) : List Char := s.dropWhile isBlank

def dropBlanksEnd (s : List Char) : List Char := (s.reverse.dropWhile isBlank).reverse

def trimBlanks (s : List Char) : List Char := dropBlanksEnd (dropBlanks s)

def trim (s : String) : String := String.ofList (trimBlanks s.toList)

def isBlankText (s : String) : Bool := s.toList.all isBlank

theorem trimBlanks_eq_self {s : List Char} (hh : ∀ c ∈ s.head?, isBlank c = false)
    (ht : ∀ c ∈ s.getLast?, isBlank c = false) : trimBlanks s = s := by
  have h1 : dropBlanks s = s := by
    cases s with
    | nil => rfl
    | cons c r => simp [dropBlanks, hh c (by simp)]
  rw [trimBlanks, h1, dropBlanksEnd]
  have h2 : s.reverse.dropWhile isBlank = s.reverse := by
    cases hr : s.reverse with
    | nil => rfl
    | cons c r =>
      have : s.getLast? = some c := by rw [List.getLast?_eq_head?_reverse, hr]; rfl
      simp [ht c (by simp [this])]
  rw [h2, List.reverse_reverse]

end ODataClient
