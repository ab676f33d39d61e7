/-! Texts cut at a separator and joined again. Every text has at least one part;
joining the parts with the separator gives the text back. -/

namespace ODataClient

def cut (sep : Char) : List Char → List Char × List (List Char)
  | [] => ([], [])
  | c :: r =>
    let (first, others) := cut sep r
    if c = sep then ([], first :: others) else (c :: first, others)

def parts (sep : Char) (s : List Char) : List (List Char) := (cut sep s).1 :: (cut sep s).2

def cutFirst (sep : Char) : List Char → Option (List Char × List Char)
  | [] => none
  | c :: r => if c = sep then some ([], r) else (cutFirst sep r).map fun p => (c :: p.1, p.2)

def splitText (sep : Char) (s : String) : List String := (parts sep s.toList).map String.ofList

def segments (path : String) : List String := splitText '/' path

def joinSegments (segs : List String) : String := String.intercalate "/" segs

def headSegment (path : String) : String := String.ofList (cut '/' path.toList).1

theorem eq_of_cutFirst {sep : Char} {s a b : List Char} (h : cutFirst sep s = some (a, b)) :
    s = a ++ sep :: b := by
  induction s generalizing a with
  | nil => simp [cutFirst] at h
  | cons c r ih =>
    rw [cutFirst] at h
    split at h
    · simp only [Option.some.injEq, Prod.mk.injEq] at h
      obtain ⟨rfl, rfl⟩ := h
      simp_all
    · obtain ⟨p, hp, he⟩ := Option.map_eq_some_iff.1 h
      simp only [Prod.mk.injEq] at he
      obtain ⟨rfl, rfl⟩ := he
      rw [ih hp, List.cons_append]

theorem segments_ne_nil (path : String) : segments path ≠ [] := by simp [segments, splitText, parts]

theorem segments_eq_cons (path : String) :
    ∃ rest, segments path = headSegment path :: rest := by
  simp [segments, splitText, parts, headSegment]

theorem intercalate_parts (sep : Char) (s : List Char) : [sep].intercalate (parts sep s) = s := by
  induction s with
  | nil => rfl
  | cons c r ih =>
    by_cases h : c = sep
    · have : parts sep (c :: r) = [] :: parts sep r := by simp [parts, cut, h]
      rw [this, parts] at *
      subst h
      simpa [List.intercalate, List.intersperse] using ih
    · have : parts sep (c :: r) = (c :: (cut sep r).1) :: (cut sep r).2 := by simp [parts, cut, h]
      rw [this]
      rw [parts] at ih
      cases hr : (cut sep r).2 with
      | nil => simpa [List.intercalate, hr] using ih
      | cons p ps => simpa [List.intercalate, List.intersperse, hr] using ih

theorem intercalate_splitText {sep : Char} {separator : String} (h : separator.toList = [sep])
    (s : String) : String.intercalate separator (splitText sep s) = s := by
  have hid : String.toList ∘ String.ofList = id := funext fun _ => String.toList_ofList
  rw [← String.toList_inj, String.toList_intercalate, h, splitText, List.map_map, hid, List.map_id]
  exact intercalate_parts sep s.toList

theorem joinSegments_segments (path : String) : joinSegments (segments path) = path :=
  intercalate_splitText rfl path

theorem notMem_of_mem_parts {sep : Char} {s p : List Char} (h : p ∈ parts sep s) : sep ∉ p := by
  induction s generalizing p with
  | nil => simp [parts, cut] at h; simp [h]
  | cons c r ih =>
    by_cases hc : c = sep
    · have : parts sep (c :: r) = [] :: parts sep r := by simp [parts, cut, hc]
      rw [this, List.mem_cons] at h
      rcases h with rfl | h
      · simp
      · exact ih h
    · have : parts sep (c :: r) = (c :: (cut sep r).1) :: (cut sep r).2 := by simp [parts, cut, hc]
      rw [this, List.mem_cons] at h
      rcases h with rfl | h
      · have := ih (p := (cut sep r).1) (by simp [parts])
        simp [this, Ne.symm hc]
      · exact ih (by simp [parts, h])

theorem parts_eq_singleton {sep : Char} {s : List Char} (h : sep ∉ s) : parts sep s = [s] := by
  induction s with
  | nil => rfl
  | cons c r ih =>
    simp only [List.mem_cons, not_or] at h
    have ih := ih h.2
    simp only [parts, List.cons.injEq] at ih
    simp [parts, cut, Ne.symm h.1, ih.1, ih.2]

end ODataClient
