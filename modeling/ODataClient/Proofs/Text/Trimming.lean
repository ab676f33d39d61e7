import Mathlib.Data.List.TakeWhile
import ODataClient.Text.Blank

/-! Texts with blanks around them. Trimming finds the one text that neither starts nor ends with
a blank and has nothing but blanks before and after it. -/

namespace ODataClient

section Characters

variable {s before core after : List Char}

theorem dropBlanks_append (h : ∀ c ∈ before, isBlank c = true) (s : List Char) :
    dropBlanks (before ++ s) = dropBlanks s :=
  List.dropWhile_append_of_pos h

theorem dropBlanks_eq_nil (h : ∀ c ∈ s, isBlank c = true) : dropBlanks s = [] :=
  List.dropWhile_eq_nil_iff.2 h

theorem not_isBlank_head (s : List Char) : ∀ c ∈ (dropBlanks s).head?, isBlank c = false := by
  intro c hc
  have hhead := List.head?_dropWhile_not isBlank s
  rw [dropBlanks, Option.mem_def] at hc
  rw [hc] at hhead
  simpa using hhead

theorem dropBlanksEnd_append (h : ∀ c ∈ after, isBlank c = true) (s : List Char) :
    dropBlanksEnd (s ++ after) = dropBlanksEnd s := by
  have hreverse : ∀ c ∈ after.reverse, isBlank c = true := fun c hc => h c (List.mem_reverse.1 hc)
  have hdrop := dropBlanks_append hreverse s.reverse
  rw [← List.reverse_append] at hdrop
  exact congrArg List.reverse hdrop

theorem exists_append_dropBlanks (s : List Char) :
    ∃ before, (∀ c ∈ before, isBlank c = true) ∧ s = before ++ dropBlanks s :=
  ⟨s.takeWhile isBlank, fun _ hc => List.mem_takeWhile_imp hc,
    (List.takeWhile_append_dropWhile (p := isBlank)).symm⟩

theorem exists_dropBlanksEnd_append (s : List Char) :
    ∃ after, (∀ c ∈ after, isBlank c = true) ∧ s = dropBlanksEnd s ++ after := by
  obtain ⟨before, hbefore, hs⟩ := exists_append_dropBlanks s.reverse
  refine ⟨before.reverse, fun c hc => hbefore c (List.mem_reverse.1 hc), ?_⟩
  rw [← List.reverse_inj, dropBlanksEnd, List.reverse_append, List.reverse_reverse,
    List.reverse_reverse]
  exact hs

end Characters

/-- Neither the first character nor the last one is blank. -/
def Trimmed (s : String) : Prop :=
  (∀ c ∈ s.toList.head?, isBlank c = false) ∧ ∀ c ∈ s.toList.getLast?, isBlank c = false

instance (s : String) : Decidable (Trimmed s) :=
  decidable_of_iff (s.toList.head?.all (!isBlank ·) && s.toList.getLast?.all (!isBlank ·))
    (by simp [Trimmed, Option.all_eq_true])

/-- The text is `core` with blanks before and after it. -/
def IsPadded (core text : String) : Prop :=
  Trimmed core ∧ ∃ before after : List Char, (∀ c ∈ before, isBlank c = true) ∧
    (∀ c ∈ after, isBlank c = true) ∧ text.toList = before ++ core.toList ++ after

theorem Trimmed.isPadded {s : String} (h : Trimmed s) : IsPadded s s :=
  ⟨h, [], [], by simp, by simp, by simp⟩

theorem isPadded_trim (s : String) : IsPadded (trim s) s := by
  obtain ⟨before, hbefore, hs⟩ := exists_append_dropBlanks s.toList
  obtain ⟨after, hafter, hdrop⟩ := exists_dropBlanksEnd_append (dropBlanks s.toList)
  have hcore : (trim s).toList = dropBlanksEnd (dropBlanks s.toList) := String.toList_ofList
  have hhead : ∀ c ∈ (trim s).toList.head?, isBlank c = false := by
    intro c hc
    rw [hcore, Option.mem_def] at hc
    refine not_isBlank_head s.toList c ?_
    rw [hdrop, List.head?_append, hc]
    rfl
  have hlast : ∀ c ∈ (trim s).toList.getLast?, isBlank c = false := by
    intro c hc
    rw [hcore, dropBlanksEnd, List.getLast?_reverse] at hc
    exact not_isBlank_head (dropBlanks s.toList).reverse c hc
  refine ⟨⟨hhead, hlast⟩, before, after, hbefore, hafter, ?_⟩
  rw [hcore, List.append_assoc, ← hdrop]
  exact hs

theorem IsPadded.trim_eq {core text : String} (h : IsPadded core text) : trim text = core := by
  obtain ⟨⟨hhead, hlast⟩, before, after, hbefore, hafter, htext⟩ := h
  have hcore : trimBlanks core.toList = core.toList := trimBlanks_eq_self hhead hlast
  rw [← String.toList_inj, trim, String.toList_ofList, trimBlanks, htext, List.append_assoc,
    dropBlanks_append hbefore]
  by_cases hnil : core.toList = []
  · rw [hnil, List.nil_append, dropBlanks_eq_nil hafter]
    rfl
  · obtain ⟨c, r, hcr⟩ := List.exists_cons_of_ne_nil hnil
    have hc : isBlank c = false := hhead c (by rw [hcr]; rfl)
    have hstart : ∀ l : List Char, dropBlanks (c :: l) = c :: l := fun l =>
      List.dropWhile_cons_of_neg (by simp [hc])
    rw [hcr, List.cons_append, hstart, ← List.cons_append, dropBlanksEnd_append hafter]
    rw [hcr, trimBlanks, hstart] at hcore
    exact hcore

theorem Trimmed.trim_eq {s : String} (h : Trimmed s) : trim s = s := h.isPadded.trim_eq

end ODataClient
