/-! Names that differ only in the case of ASCII letters. -/

namespace ODataClient

def lowerAscii (s : String) : String := String.ofList (s.toList.map Char.toLower)

/-- Equal when the case of ASCII letters is ignored. -/
def sameName (a b : String) : Bool := a.toList.map Char.toLower == b.toList.map Char.toLower

theorem sameName_iff {a b : String} : sameName a b ↔ lowerAscii a = lowerAscii b := by
  simp [sameName, lowerAscii, ← String.toList_inj]

theorem sameName_refl (a : String) : sameName a a := by simp [sameName]

theorem sameName_symm {a b : String} (h : sameName a b) : sameName b a := by
  rw [sameName_iff] at *; exact h.symm

theorem sameName_trans {a b c : String} (h : sameName a b) (h' : sameName b c) : sameName a c := by
  rw [sameName_iff] at *; exact h.trans h'

end ODataClient
