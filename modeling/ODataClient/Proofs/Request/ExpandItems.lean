import Mathlib.Data.List.Flatten
import ODataClient.Proofs.Text.Segments
import ODataClient.Request.ExpandTree
import ODataClient.Text.Case

/-! The filters of expand items, each with the path of its item. Options change none of
them, and filters that are added for a path come under the item of that path, the only one
that has it. Paths are in lower case, for names that differ in case name the same item. -/

namespace ODataClient

def itemPath (path : String) : List String := (segments path).map lowerAscii

theorem itemPath_eq_of_sameName {a b : String} (h : sameName a b) : itemPath a = itemPath b := by
  have hpath : ∀ path : String,
      itemPath path = (parts '/' (path.toList.map Char.toLower)).map String.ofList := by
    intro path
    simp [itemPath, segments, splitText, parts_map_toLower, lowerAscii, Function.comp_def]
  rw [hpath, hpath, eq_of_beq h]

namespace ExpandNode

def under (name : String) (l : List (List String × String)) : List (List String × String) :=
  l.map fun p => (lowerAscii name :: p.1, p.2)

mutual

/-- The filters at a node and below it; paths start after the node. -/
def inside : ExpandNode → List (List String × String)
  | ⟨_, _, filters, children⟩ => filters.map ([], ·) ++ entries children

def entries : List ExpandNode → List (List String × String)
  | [] => []
  | n :: r => under n.name (inside n) ++ entries r

end

mutual

/-- Below a node, no two siblings have the same name. -/
def Apart : ExpandNode → Prop
  | ⟨_, _, _, children⟩ => AllApart children

def AllApart : List ExpandNode → Prop
  | [] => True
  | n :: r => Apart n ∧ (∀ m ∈ r, lowerAscii m.name ≠ lowerAscii n.name) ∧ AllApart r

end

/-- `f` keeps the name of a node and the distinctness below it, and adds these filters. -/
structure Adds (f : ExpandNode → ExpandNode) (added : List (List String × String)) : Prop where
  name (n : ExpandNode) : (f n).name = n.name
  inside (n : ExpandNode) : (f n).inside.Perm (n.inside ++ added)
  apart (n : ExpandNode) : n.Apart → (f n).Apart

variable {f : ExpandNode → ExpandNode} {added : List (List String × String)}

theorem inside_eq (n : ExpandNode) : n.inside = n.filters.map ([], ·) ++ entries n.children := by
  cases n; rw [inside]

theorem apart_iff (n : ExpandNode) : n.Apart ↔ AllApart n.children := by
  cases n; rw [Apart]

theorem entries_cons (n : ExpandNode) (r : List ExpandNode) :
    entries (n :: r) = under n.name n.inside ++ entries r := by rw [entries]

theorem adds_options (options : ExpandOptions) :
    Adds (fun n => { n with options := options }) [] where
  name _ := rfl
  inside n := by simp [inside_eq]
  apart n h := (apart_iff _).2 ((apart_iff n).1 h)

theorem adds_filters (filters : List String) :
    Adds (fun n => { n with filters := n.filters ++ filters }) (filters.map ([], ·)) where
  name _ := rfl
  inside n := by
    simp only [inside_eq, List.map_append, List.append_assoc]
    exact List.perm_append_comm.append_left _
  apart n h := (apart_iff _).2 ((apart_iff n).1 h)

theorem Adds.entries_alterChild (h : Adds f added) (name : String) (nodes : List ExpandNode) :
    (entries (alterChild name f nodes)).Perm (entries nodes ++ under name added) := by
  induction nodes with
  | nil =>
    have hempty : (new name).inside = [] := by simp [inside_eq, new, entries]
    have hn := h.inside (new name)
    rw [hempty, List.nil_append] at hn
    rw [alterChild, entries_cons, h.name, entries, List.append_nil, List.nil_append]
    exact hn.map _
  | cons n r ih =>
    rw [alterChild]
    split
    next hs =>
      have hname : under name = under n.name := by
        funext l
        rw [under, under, sameName_iff.1 hs]
      rw [entries_cons, entries_cons, h.name, hname]
      have hp : (under n.name (f n).inside).Perm (under n.name n.inside ++ under n.name added) := by
        simpa [under] using (h.inside n).map _
      refine (hp.append_right _).trans ?_
      simp only [List.append_assoc]
      exact List.perm_append_comm.append_left _
    next =>
      rw [entries_cons, entries_cons, List.append_assoc]
      exact ih.append_left _

theorem Adds.allApart_alterChild (h : Adds f added) (name : String) {nodes : List ExpandNode}
    (hn : AllApart nodes) :
    AllApart (alterChild name f nodes) ∧ ∀ m ∈ alterChild name f nodes,
      lowerAscii m.name = lowerAscii name ∨ ∃ n ∈ nodes, m.name = n.name := by
  induction nodes with
  | nil =>
    have ha : (f (new name)).Apart := h.apart _ (by simp [apart_iff, new, AllApart])
    refine ⟨⟨ha, by simp, trivial⟩, fun m hm => ?_⟩
    obtain rfl := List.mem_singleton.1 hm
    exact Or.inl (by rw [h.name]; rfl)
  | cons n r ih =>
    obtain ⟨ha, hne, hr⟩ := hn
    rw [alterChild]
    split
    next hs =>
      refine ⟨⟨h.apart n ha, fun m hm => by rw [h.name]; exact hne m hm, hr⟩, fun m hm => ?_⟩
      rcases List.mem_cons.1 hm with rfl | hm
      · exact Or.inr ⟨n, List.mem_cons_self, h.name n⟩
      · exact Or.inr ⟨m, List.mem_cons_of_mem _ hm, rfl⟩
    next hs =>
      obtain ⟨hapart, hnames⟩ := ih hr
      refine ⟨⟨ha, fun m hm he => ?_, hapart⟩, fun m hm => ?_⟩
      · rcases hnames m hm with hname | ⟨k, hk, hname⟩
        · exact hs (sameName_iff.2 (he.symm.trans hname))
        · exact hne k hk (hname ▸ he)
      · rcases List.mem_cons.1 hm with rfl | hm
        · exact Or.inr ⟨m, List.mem_cons_self, rfl⟩
        · rcases hnames m hm with hname | ⟨k, hk, hname⟩
          · exact Or.inl hname
          · exact Or.inr ⟨k, List.mem_cons_of_mem _ hk, hname⟩

theorem Adds.entries_alterAt (h : Adds f added) {segs : List String} (hs : segs ≠ [])
    (nodes : List ExpandNode) :
    (entries (alterAt f segs nodes)).Perm
        (entries nodes ++ added.map fun p => (segs.map lowerAscii ++ p.1, p.2)) ∧
      (AllApart nodes → AllApart (alterAt f segs nodes)) := by
  induction segs generalizing nodes with
  | nil => exact absurd rfl hs
  | cons name rest ih =>
    cases rest with
    | nil => exact ⟨h.entries_alterChild name nodes, fun hn => (h.allApart_alterChild name hn).1⟩
    | cons next rest =>
      have ih := ih (by simp)
      have hstep : Adds (fun n => { n with children := alterAt f (next :: rest) n.children })
          (added.map fun p => ((next :: rest).map lowerAscii ++ p.1, p.2)) := by
        refine ⟨fun _ => rfl, fun n => ?_, fun n hn => ?_⟩
        · simp only [inside_eq, List.append_assoc]
          exact (ih n.children).1.append_left _
        · exact (apart_iff _).2 ((ih n.children).2 ((apart_iff n).1 hn))
      refine ⟨?_, fun hn => (hstep.allApart_alterChild name hn).1⟩
      have hp := hstep.entries_alterChild name nodes
      rw [under, List.map_map] at hp
      exact hp

theorem entries_foldl_addItem (items : List (String × ExpandOptions)) {nodes : List ExpandNode}
    (hn : entries nodes = []) (ha : AllApart nodes) :
    entries (items.foldl addItem nodes) = [] ∧ AllApart (items.foldl addItem nodes) := by
  induction items generalizing nodes with
  | nil => exact ⟨hn, ha⟩
  | cons item items ih =>
    have h := (adds_options item.2).entries_alterAt (segments_ne_nil item.1) nodes
    have hempty := h.1
    rw [hn, List.map_nil, List.append_nil] at hempty
    exact ih (List.perm_nil.1 hempty) (h.2 ha)

/-- The filters of a tree are those that were nested into it, each under its own path. -/
theorem entries_ofItems (items : List (String × ExpandOptions))
    (nested : List (String × List String)) :
    (entries (ofItems items nested)).Perm
        (nested.flatMap fun p => p.2.map (itemPath p.1, ·)) ∧
      AllApart (ofItems items nested) := by
  have hf : ∀ nodes : List ExpandNode, AllApart nodes →
      (entries (nested.foldl addFilters nodes)).Perm
          (entries nodes ++ nested.flatMap fun p => p.2.map (itemPath p.1, ·)) ∧
        AllApart (nested.foldl addFilters nodes) := by
    induction nested with
    | nil => exact fun nodes ha => ⟨by simp, ha⟩
    | cons p nested ih =>
      intro nodes ha
      have h := (adds_filters p.2).entries_alterAt (segments_ne_nil p.1) nodes
      obtain ⟨hperm, hapart⟩ := ih (addFilters nodes p) (h.2 ha)
      refine ⟨hperm.trans ?_, hapart⟩
      have hadded : (p.2.map ([], ·)).map
          (fun q : List String × String => ((segments p.1).map lowerAscii ++ q.1, q.2)) =
            p.2.map (itemPath p.1, ·) := by simp [itemPath, Function.comp_def]
      rw [hadded] at h
      rw [List.flatMap_cons, ← List.append_assoc]
      exact h.1.append_right _
  have hnil : entries [] = [] := by rw [entries]
  obtain ⟨hempty, hapart⟩ := entries_foldl_addItem items hnil trivial
  have h := hf _ hapart
  rw [hempty, List.nil_append] at h
  exact h

end ExpandNode

end ODataClient
