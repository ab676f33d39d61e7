import ODataClient.Proofs.Text.Separators
import ODataClient.Request.ExpandTree

/-! The labels of an expand tree: the names, the selected and ordered properties and the filters at
its nodes. They come from the items and filters that the tree was made of, and the text of a tree
has no ampersand but those of its labels. -/

namespace ODataClient

def ExpandOptions.names (o : ExpandOptions) : List String := o.select ++ o.orderBy.map (·.name)

theorem avoids_orderText {items : List OrderItem} (h : ∀ s ∈ items.map (·.name), Avoids '&' s) :
    ∀ s ∈ items.map orderText, Avoids '&' s := by
  intro s hs
  obtain ⟨item, hitem, rfl⟩ := List.mem_map.1 hs
  have hname : Avoids '&' item.name := h item.name (List.mem_map_of_mem hitem)
  have hdesc : Avoids '&' " desc" := by decide
  rw [orderText]
  split
  · exact avoids_append.2 ⟨hname, hdesc⟩
  · exact hname

namespace ExpandNode

mutual

/-- The names and filters at a node and below it. -/
def labels : ExpandNode → List String
  | ⟨name, options, filters, children⟩ =>
    name :: (options.names ++ filters ++ labelsOfAll children)

def labelsOfAll : List ExpandNode → List String
  | [] => []
  | n :: r => labels n ++ labelsOfAll r

end

theorem labels_eq (n : ExpandNode) :
    n.labels = n.name :: (n.options.names ++ n.filters ++ labelsOfAll n.children) := by
  cases n; rw [labels]

theorem labelsOfAll_cons (n : ExpandNode) (r : List ExpandNode) :
    labelsOfAll (n :: r) = n.labels ++ labelsOfAll r := by rw [labelsOfAll]

variable {f : ExpandNode → ExpandNode} {added : List String}

theorem labels_alterChild (hf : ∀ n, (f n).labels ⊆ n.labels ++ added) (name : String)
    (nodes : List ExpandNode) :
    labelsOfAll (alterChild name f nodes) ⊆ name :: (labelsOfAll nodes ++ added) := by
  induction nodes with
  | nil =>
    have hnew : (new name).labels = [name] := by
      simp [labels_eq, new, ExpandOptions.names, ExpandOptions.plain, labelsOfAll]
    have hn := hf (new name)
    rw [hnew] at hn
    simpa [alterChild, labelsOfAll] using hn
  | cons n r ih =>
    intro s hs
    rw [alterChild] at hs
    split at hs
    · rw [labelsOfAll_cons, List.mem_append] at hs
      have hn := @hf n s
      grind [labelsOfAll_cons]
    · rw [labelsOfAll_cons, List.mem_append] at hs
      have hr := @ih s
      grind [labelsOfAll_cons]

theorem labels_alterAt (hf : ∀ n, (f n).labels ⊆ n.labels ++ added) (segs : List String)
    (nodes : List ExpandNode) :
    labelsOfAll (alterAt f segs nodes) ⊆ segs ++ (labelsOfAll nodes ++ added) := by
  induction segs generalizing nodes with
  | nil => simp [alterAt]
  | cons name rest ih =>
    cases rest with
    | nil => exact labels_alterChild hf name nodes
    | cons next rest =>
      -- on the way only the children change, by what the rest of the path brings
      have hstep : ∀ n : ExpandNode,
          ({ n with children := alterAt f (next :: rest) n.children } : ExpandNode).labels ⊆
            n.labels ++ (next :: rest ++ added) := by
        intro n s hs
        have hr := @ih n.children s
        rw [labels_eq] at hs
        grind [labels_eq]
      intro s hs
      have hs := labels_alterChild hstep name nodes hs
      grind

theorem labels_addItem (nodes : List ExpandNode) (item : String × ExpandOptions) :
    labelsOfAll (addItem nodes item) ⊆
      labelsOfAll nodes ++ (segments item.1 ++ item.2.names) := by
  have hf : ∀ n : ExpandNode,
      ({ n with options := item.2 } : ExpandNode).labels ⊆ n.labels ++ item.2.names := by
    intro n s hs
    rw [labels_eq] at hs
    grind [labels_eq]
  intro s hs
  have hs := labels_alterAt hf (segments item.1) nodes hs
  grind

theorem labels_addFilters (nodes : List ExpandNode) (nested : String × List String) :
    labelsOfAll (addFilters nodes nested) ⊆
      labelsOfAll nodes ++ (segments nested.1 ++ nested.2) := by
  have hf : ∀ n : ExpandNode, ({ n with filters := n.filters ++ nested.2 } : ExpandNode).labels ⊆
      n.labels ++ nested.2 := by
    intro n s hs
    rw [labels_eq] at hs
    grind [labels_eq]
  intro s hs
  have hs := labels_alterAt hf (segments nested.1) nodes hs
  grind

theorem labels_foldl {α : Type} {step : List ExpandNode → α → List ExpandNode}
    {brings : α → List String}
    (h : ∀ nodes x, labelsOfAll (step nodes x) ⊆ labelsOfAll nodes ++ brings x) (l : List α)
    (nodes : List ExpandNode) :
    labelsOfAll (l.foldl step nodes) ⊆ labelsOfAll nodes ++ l.flatMap brings := by
  induction l generalizing nodes with
  | nil => simp
  | cons x l ih =>
    intro s hs
    have hs := ih (step nodes x) hs
    have hx := @h nodes x s
    rw [List.flatMap_cons]
    grind

/-- The labels of a tree come from the items and the filters that it was made of. -/
theorem labels_ofItems (items : List (String × ExpandOptions))
    (nested : List (String × List String)) :
    labelsOfAll (ofItems items nested) ⊆
      (items.flatMap fun item => segments item.1 ++ item.2.names) ++
        nested.flatMap fun p => segments p.1 ++ p.2 := by
  have hitems := labels_foldl labels_addItem items []
  rw [labelsOfAll, List.nil_append] at hitems
  intro s hs
  rcases List.mem_append.1 (labels_foldl labels_addFilters nested _ hs) with hs | hs
  · exact List.mem_append_left _ (hitems hs)
  · exact List.mem_append_right _ hs

theorem avoids_listOption {name separator : String} (hn : Avoids '&' name)
    (hs : Avoids '&' separator) {items : List String} (h : ∀ s ∈ items, Avoids '&' s) :
    ∀ s ∈ listOption name separator items, Avoids '&' s := by
  have heq : Avoids '&' "=" := by decide
  rw [listOption]
  split
  · exact List.forall_mem_nil _
  · exact List.forall_mem_singleton.2
      (avoids_append.2 ⟨avoids_append.2 ⟨hn, heq⟩, avoids_intercalate hs h⟩)

theorem avoids_orderOption {items : List OrderItem}
    (h : ∀ s ∈ items.map (·.name), Avoids '&' s) : ∀ s ∈ orderOption items, Avoids '&' s := by
  rw [orderOption_eq_listOption]
  exact avoids_listOption (by decide) (by decide) (avoids_orderText h)

theorem avoids_levelsOption (levels : Option Levels) :
    ∀ s ∈ levelsOption levels, Avoids '&' s := by
  have hdepth : Avoids '&' "$levels=" := by decide
  have hmax : Avoids '&' "$levels=max" := by decide
  match levels with
  | none => exact List.forall_mem_nil _
  | some (.depth n) =>
    exact List.forall_mem_singleton.2 (avoids_append.2 ⟨hdepth, avoids_digitsText rfl n⟩)
  | some .max => exact List.forall_mem_singleton.2 hmax

theorem avoids_withOptions {name : String} {options : List String} (hn : Avoids '&' name)
    (ho : ∀ s ∈ options, Avoids '&' s) : Avoids '&' (withOptions name options) := by
  have hopen : Avoids '&' "(" ∧ Avoids '&' ";" ∧ Avoids '&' ")" := by decide
  rw [withOptions]
  split
  · exact hn
  · exact avoids_append.2 ⟨avoids_append.2 ⟨avoids_append.2 ⟨hn, hopen.1⟩,
      avoids_intercalate hopen.2.1 ho⟩, hopen.2.2⟩

mutual

theorem avoids_text (n : ExpandNode) (h : ∀ s ∈ n.labels, Avoids '&' s) : Avoids '&' n.text := by
  match n with
  | ⟨name, options, filters, children⟩ =>
    rw [labels, List.forall_mem_cons, List.forall_mem_append, List.forall_mem_append,
      ExpandOptions.names, List.forall_mem_append] at h
    obtain ⟨hname, ⟨⟨hselect, horder⟩, hfilters⟩, hchildren⟩ := h
    have hmarks : Avoids '&' "/$ref" ∧ Avoids '&' "$filter" ∧ Avoids '&' " and " ∧
      Avoids '&' "$expand" ∧ Avoids '&' "," ∧ Avoids '&' "$select" := by decide
    obtain ⟨href, hfilter, hand, hexpand, hcomma, hselectMark⟩ := hmarks
    rw [text]
    refine avoids_withOptions ?_ ?_
    · split
      · exact avoids_append.2 ⟨hname, href⟩
      · exact hname
    · simp only [List.forall_mem_append]
      exact ⟨⟨⟨⟨avoids_listOption hfilter hand hfilters,
        avoids_listOption hexpand hcomma (avoids_texts children hchildren)⟩,
        avoids_listOption hselectMark hcomma hselect⟩,
        avoids_orderOption horder⟩,
        avoids_levelsOption options.levels⟩

theorem avoids_texts (nodes : List ExpandNode) (h : ∀ s ∈ labelsOfAll nodes, Avoids '&' s) :
    ∀ s ∈ texts nodes, Avoids '&' s := by
  match nodes with
  | [] => exact List.forall_mem_nil _
  | n :: r =>
    rw [labelsOfAll, List.forall_mem_append] at h
    exact List.forall_mem_cons.2 ⟨avoids_text n h.1, avoids_texts r h.2⟩

end

end ExpandNode

end ODataClient
