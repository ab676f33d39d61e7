import ODataClient.Proofs.Request.ExpandNodes

/-! The text of an expand tree as marks: names of nodes, the parentheses behind them, and texts
that belong to the node whose parentheses are open. Names are read in the order of the tree, each
below the names whose parentheses are open, whatever parentheses the texts have in them. -/

namespace ODataClient

inductive ExpandMark
  | name (s : String)
  | text (s : String)
  | opening
  | closing

namespace ExpandMark

def spelling : ExpandMark → String
  | name s => s
  | text s => s
  | opening => "("
  | closing => ")"

def spelled (marks : List ExpandMark) : String := String.join (marks.map spelling)

/-- Parentheses around options, if there are any. -/
def bracketed (options : List (List ExpandMark)) : List ExpandMark :=
  if options.isEmpty then [] else .opening :: ([.text ";"].intercalate options ++ [.closing])

def plain (texts : List String) : List (List ExpandMark) := texts.map fun s => [.text s]

def expandMarks (items : List (List ExpandMark)) : List (List ExpandMark) :=
  if items.isEmpty then [] else [.text "$expand=" :: [.text ","].intercalate items]

/-- The paths of the names in marks. The open parentheses belong to the names in `outer`; the
next one that opens belongs to `last`. -/
def reading : List String → String → List ExpandMark → List (List String)
  | _, _, [] => []
  | outer, _, name s :: r => (outer ++ [lowerAscii s]) :: reading outer (lowerAscii s) r
  | outer, last, text _ :: r => reading outer last r
  | outer, last, opening :: r => reading (outer ++ [last]) "" r
  | outer, _, closing :: r => reading outer.dropLast (outer.getLastD "") r

@[simp] theorem spelled_nil : spelled [] = "" := rfl

@[simp] theorem spelled_cons (m : ExpandMark) (marks : List ExpandMark) :
    spelled (m :: marks) = m.spelling ++ spelled marks := by
  rw [spelled, List.map_cons, String.join_cons, spelled]

@[simp] theorem spelled_append (l r : List ExpandMark) :
    spelled (l ++ r) = spelled l ++ spelled r := by
  rw [spelled, List.map_append, String.join_append, spelled, spelled]

theorem spelled_intercalate (separator : String) (l : List (List ExpandMark)) :
    spelled ([text separator].intercalate l) = String.intercalate separator (l.map spelled) := by
  induction l with
  | nil => rfl
  | cons marks l ih =>
    cases l with
    | nil => simp
    | cons next l =>
      rw [List.intercalate_cons_cons, List.map_cons,
        String.intercalate_cons_of_ne_nil (by simp), spelled_append, spelled_append, ih]
      simp [spelling]

theorem withOptions_spelled (name : String) (options : List (List ExpandMark)) :
    name ++ spelled (bracketed options) =
      ExpandNode.withOptions name (options.map spelled) := by
  rw [bracketed, ExpandNode.withOptions, List.isEmpty_map]
  split
  · simp
  · simp [spelling, spelled_intercalate, String.append_assoc]

theorem map_spelled_plain (texts : List String) : (plain texts).map spelled = texts := by
  simp [plain, Function.comp_def, spelling]

theorem map_spelled_expandMarks (items : List (List ExpandMark)) :
    (expandMarks items).map spelled =
      ExpandNode.listOption "$expand" "," (items.map spelled) := by
  rw [expandMarks, ExpandNode.listOption, List.isEmpty_map]
  split
  · rfl
  · simp [spelled_intercalate, spelling]

/-- Marks that name nodes at these paths and close all that they open. -/
def Names (marks : List ExpandMark) (paths : List (List String)) : Prop :=
  ∀ outer last r, ∃ last', reading outer last (marks ++ r) =
    paths.map (outer ++ ·) ++ reading outer last' r

theorem names_nil : Names [] [] := fun _ last _ => ⟨last, rfl⟩

theorem names_text (s : String) : Names [text s] [] := fun _ last _ => ⟨last, rfl⟩

theorem Names.append {l r : List ExpandMark} {p q : List (List String)} (hl : Names l p)
    (hr : Names r q) : Names (l ++ r) (p ++ q) := by
  intro outer last s
  obtain ⟨a, ha⟩ := hl outer last (r ++ s)
  obtain ⟨b, hb⟩ := hr outer a s
  exact ⟨b, by rw [List.append_assoc, ha, hb, List.map_append, List.append_assoc]⟩

theorem names_plain (texts : List String) :
    List.Forall₂ Names (plain texts) (texts.map fun _ => []) := by
  rw [plain, List.forall₂_map_left_iff, List.forall₂_map_right_iff]
  exact List.forall₂_same.2 fun s _ => names_text s

theorem names_intercalate (separator : String) {l : List (List ExpandMark)}
    {ps : List (List (List String))} (h : List.Forall₂ Names l ps) :
    Names ([text separator].intercalate l) ps.flatten := by
  induction h with
  | nil => exact names_nil
  | @cons marks p l ps hp hl ih =>
    cases hl with
    | nil => simpa using hp
    | cons hq hl =>
      rw [List.intercalate_cons_cons, List.flatten_cons, ← List.append_nil p]
      exact (hp.append (names_text separator)).append ih

/-- What is named between parentheses is below the name in front of them. -/
theorem reading_bracketed {options : List (List ExpandMark)} {ps : List (List (List String))}
    (h : List.Forall₂ Names options ps) (outer : List String) (last : String)
    (r : List ExpandMark) :
    reading outer last (bracketed options ++ r) =
      ps.flatten.map (outer ++ [last] ++ ·) ++ reading outer last r := by
  cases h with
  | nil => rfl
  | cons hp hl =>
    obtain ⟨last', hbody⟩ :=
      names_intercalate ";" (.cons hp hl) (outer ++ [last]) "" (closing :: r)
    rw [bracketed, if_neg (by simp), List.cons_append, List.append_assoc, List.singleton_append,
      reading, hbody, reading]
    simp

end ExpandMark

namespace ExpandNode

open ExpandMark

/-- The options that follow the nodes below. -/
def optionTexts (options : ExpandOptions) : List String :=
  listOption "$select" "," options.select ++
    orderOption options.orderBy ++ levelsOption options.levels

mutual

def marks : ExpandNode → List ExpandMark
  | ⟨name, options, filters, children⟩ =>
    .name name :: (if options.byRef then [.text "/$ref"] else []) ++
      bracketed (plain (listOption "$filter" " and " filters) ++ expandMarks (marksOf children) ++
        plain (optionTexts options))

def marksOf : List ExpandNode → List (List ExpandMark)
  | [] => []
  | n :: r => marks n :: marksOf r

end

theorem marks_eq (n : ExpandNode) : n.marks =
    .name n.name :: (if n.options.byRef then [.text "/$ref"] else []) ++
      bracketed (plain (listOption "$filter" " and " n.filters) ++
        expandMarks (marksOf n.children) ++
        plain (optionTexts n.options)) := by
  cases n; rw [marks]

theorem text_eq (n : ExpandNode) : n.text =
    withOptions (if n.options.byRef then n.name ++ "/$ref" else n.name)
      (listOption "$filter" " and " n.filters ++ listOption "$expand" "," (texts n.children) ++
        listOption "$select" "," n.options.select ++
        orderOption n.options.orderBy ++
        levelsOption n.options.levels) := by
  cases n; rw [text]

/-- The marks spell the text. -/
theorem map_spelled_marksOf (nodes : List ExpandNode) :
    (marksOf nodes).map spelled = texts nodes := by
  induction nodes using nodes_induction with
  | nil => simp [marksOf, texts]
  | cons n r ihc ihr =>
    have hname : spelled (.name n.name :: (if n.options.byRef then [.text "/$ref"] else [])) =
        if n.options.byRef then n.name ++ "/$ref" else n.name := by
      split <;> simp [spelling]
    rw [marksOf, texts, List.map_cons, ihr, marks_eq, text_eq, spelled_append, hname,
      withOptions_spelled]
    simp only [List.map_append, map_spelled_plain, map_spelled_expandMarks, ihc, optionTexts,
      List.append_assoc]

theorem names_expandMarks {items : List (List ExpandMark)} {ps : List (List (List String))}
    (h : List.Forall₂ Names items ps) :
    ∃ qs, List.Forall₂ Names (expandMarks items) qs ∧ qs.flatten = ps.flatten := by
  cases h with
  | nil => exact ⟨[], .nil, rfl⟩
  | cons hp hl =>
    have hitems := (names_text "$expand=").append (names_intercalate "," (.cons hp hl))
    exact ⟨[_], .cons hitems .nil, List.flatten_singleton⟩

/-- The marks of a node name it and, between its parentheses, the nodes below it. -/
theorem names_marks (n : ExpandNode) {ps : List (List (List String))}
    (h : List.Forall₂ Names (marksOf n.children) ps) :
    Names n.marks ([n.key] :: ps.flatten.map (n.key :: ·)) := by
  intro outer last r
  obtain ⟨qs, hqs, hflat⟩ := names_expandMarks h
  have hoptions := List.rel_append
    (List.rel_append (names_plain (listOption "$filter" " and " n.filters)) hqs)
    (names_plain (optionTexts n.options))
  have hread := reading_bracketed hoptions outer n.key r
  have hps : ∀ texts : List String, (texts.map fun _ => ([] : List (List String))).flatten = [] :=
    fun texts => List.flatten_eq_nil_iff.2 (by simp)
  rw [List.flatten_append, List.flatten_append, hps, hps, hflat, List.nil_append,
    List.append_nil] at hread
  refine ⟨n.key, ?_⟩
  have href : reading outer last (n.marks ++ r) = (outer ++ [n.key]) ::
      reading outer n.key (bracketed (plain (listOption "$filter" " and " n.filters) ++
        expandMarks (marksOf n.children) ++
        plain (optionTexts n.options)) ++ r) := by
    rw [marks_eq, List.append_assoc, List.cons_append, reading]
    split <;> rfl
  rw [href, hread]
  simp [Function.comp_def]

theorem names_marksOf (nodes : List ExpandNode) :
    ∃ ps, List.Forall₂ Names (marksOf nodes) ps ∧ ps.flatten = paths nodes := by
  induction nodes using nodes_induction with
  | nil => exact ⟨[], by simp [marksOf], by simp [paths_nil]⟩
  | cons n r ihc ihr =>
    obtain ⟨ps, hps, hchildren⟩ := ihc
    obtain ⟨qs, hqs, hrest⟩ := ihr
    refine ⟨_ :: qs, by rw [marksOf]; exact .cons (names_marks n hps) hqs, ?_⟩
    rw [List.flatten_cons, hrest, hchildren, paths_cons]

/-- Read from the left, the text of a tree names each node once, below its parent. -/
theorem reading_marksOf (nodes : List ExpandNode) :
    reading [] "" ([.text ","].intercalate (marksOf nodes)) = paths nodes := by
  obtain ⟨ps, hps, hflat⟩ := names_marksOf nodes
  obtain ⟨last, h⟩ := names_intercalate "," hps [] "" []
  simpa [reading, hflat] using h

end ExpandNode

end ODataClient
