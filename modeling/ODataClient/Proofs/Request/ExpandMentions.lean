import Mathlib.Data.List.Perm.Basic
import ODataClient.Proofs.Request.ExpandMarks
import ODataClient.Request.Clauses

/-! The shape of an expand tree. Its nodes are the beginnings of the paths of the items, each
once; siblings come in the order in which the items mention them. A node says what the last item
with its path says, and has the filters that are nested for its path. -/

namespace ODataClient

/-- All beginnings of the paths of the items, in the order in which they are first mentioned. -/
def mentions (items : List (String × ExpandOptions)) : List (List String) :=
  (items.flatMap fun item => beginnings (itemPath item.1)).eraseDups

/-- The options of the last item with a path. -/
def lastOptions (items : List (String × ExpandOptions)) (path : List String) : ExpandOptions :=
  ((items.filter fun item => itemPath item.1 == path).getLast?.map (·.2)).getD .plain

def nestedFilters (nested : List (String × List String)) (path : List String) : List String :=
  (nested.filter fun p => itemPath p.1 == path).flatMap (·.2)

namespace ExpandNode

section Steps

variable {β : Type} {step : List ExpandNode → β → List ExpandNode} {path : β → String}
  {f : β → ExpandNode → ExpandNode}

/-- Each step alters the node at a path by `f`, which keeps names and the nodes below. -/
structure Alters (step : List ExpandNode → β → List ExpandNode) (path : β → String)
    (f : β → ExpandNode → ExpandNode) : Prop where
  step (nodes : List ExpandNode) (x : β) :
    step nodes x = alterAt (f x) (segments (path x)) nodes
  name (x : β) (n : ExpandNode) : (f x n).name = n.name
  children (x : β) (n : ExpandNode) : (f x n).children = n.children

theorem alters_addItem :
    Alters addItem (·.1) fun item n => { n with options := item.2 } :=
  ⟨fun _ _ => rfl, fun _ _ => rfl, fun _ _ => rfl⟩

theorem alters_addFilters :
    Alters addFilters (·.1) fun p n => { n with filters := n.filters ++ p.2 } :=
  ⟨fun _ _ => rfl, fun _ _ => rfl, fun _ _ => rfl⟩

/-- Steps make the beginnings of their paths that are not there yet. -/
theorem Alters.childPaths_foldl (h : Alters step path f) (q : List String) (l : List β)
    (nodes : List ExpandNode) :
    childPaths q (forest (l.foldl step nodes)) =
      gather (childPaths q (forest nodes))
        (childrenOf q (l.flatMap fun x => beginnings (itemPath (path x)))) := by
  induction l generalizing nodes with
  | nil => rfl
  | cons x l ih =>
    rw [List.foldl_cons, ih, h.step, forest_alterAt _ (segments_ne_nil _),
      childPaths_alterNode (h.name x) (h.children x), List.flatMap_cons, childrenOf_append,
      gather_append]
    rfl

/-- What a node says of itself changes with the steps that have its path. -/
theorem Alters.ask_foldl (h : Alters step path f) {α : Type} (ask : ExpandNode → α)
    {g : β → α → α} (hnew : ∀ a b, ask (new a) = ask (new b))
    (hask : ∀ n children, ask { n with children := children } = ask n)
    (hf : ∀ x n, ask (f x n) = g x (ask n)) (q : List String) (l : List β)
    (nodes : List ExpandNode) :
    ask (nodeAt q (forest (l.foldl step nodes))) =
      l.foldl (fun a x => if itemPath (path x) = q then g x a else a)
        (ask (nodeAt q (forest nodes))) := by
  induction l generalizing nodes with
  | nil => rfl
  | cons x l ih =>
    rw [List.foldl_cons, ih, h.step, forest_alterAt _ (segments_ne_nil _),
      ask_nodeAt_alterNode (h.name x) (h.children x) hnew hask (hf x)]
    rfl

end Steps

theorem options_foldl (items : List (String × ExpandOptions)) (path : List String)
    (options : ExpandOptions) :
    items.foldl (fun a item => if itemPath item.1 = path then item.2 else a) options =
      ((items.filter fun item => itemPath item.1 == path).getLast?.map (·.2)).getD options := by
  induction items generalizing options with
  | nil => rfl
  | cons item items ih =>
    rw [List.foldl_cons, ih]
    by_cases h : itemPath item.1 = path
    · rw [if_pos h, List.filter_cons_of_pos (by simpa using h), List.getLast?_cons]
      cases (items.filter fun item => itemPath item.1 == path).getLast? <;> rfl
    · rw [if_neg h, List.filter_cons_of_neg (by simpa using h)]

theorem filters_foldl (nested : List (String × List String)) (path filters : List String) :
    nested.foldl (fun a p => if itemPath p.1 = path then a ++ p.2 else a) filters =
      filters ++ nestedFilters nested path := by
  induction nested generalizing filters with
  | nil => simp [nestedFilters]
  | cons p nested ih =>
    rw [List.foldl_cons, ih]
    by_cases h : itemPath p.1 = path
    · simp [nestedFilters, h]
    · simp [nestedFilters, h]

theorem foldl_ite_self {α β : Type} (l : List β) (p : β → Prop) [DecidablePred p] (a : α) :
    l.foldl (fun a x => if p x then a else a) a = a := by
  induction l with
  | nil => rfl
  | cons x l ih => rw [List.foldl_cons, ite_self, ih]

variable (items : List (String × ExpandOptions)) (nested : List (String × List String))

theorem options_ofItems (q : List String) :
    (nodeAt q (forest (ofItems items nested))).options = lastOptions items q := by
  have hitems := alters_addItem.ask_foldl ExpandNode.options (g := fun item _ => item.2)
    (fun _ _ => rfl) (fun _ _ => rfl) (fun _ _ => rfl) q items []
  have hnested := alters_addFilters.ask_foldl ExpandNode.options (g := fun _ a => a)
    (fun _ _ => rfl) (fun _ _ => rfl) (fun _ _ => rfl) q nested (items.foldl addItem [])
  have hnew := nodeAt_new ExpandNode.options (fun _ _ => rfl) q ""
  rw [ofItems, hnested, foldl_ite_self, hitems, options_foldl, lastOptions]
  exact congrArg _ hnew

theorem filters_ofItems (q : List String) :
    (nodeAt q (forest (ofItems items nested))).filters = nestedFilters nested q := by
  have hitems := alters_addItem.ask_foldl ExpandNode.filters (g := fun _ a => a)
    (fun _ _ => rfl) (fun _ _ => rfl) (fun _ _ => rfl) q items []
  have hnested := alters_addFilters.ask_foldl ExpandNode.filters
    (g := fun p a => a ++ p.2) (fun _ _ => rfl) (fun _ _ => rfl) (fun _ _ => rfl) q nested
    (items.foldl addItem [])
  have hnew := nodeAt_new ExpandNode.filters (fun _ _ => rfl) q ""
  rw [ofItems, hnested, filters_foldl, hitems, foldl_ite_self]
  exact congrArg (· ++ nestedFilters nested q) hnew

variable {items nested}

/-- The children at a path come in the order in which the items mention them. -/
theorem childrenOf_ofItems (h : ∀ p ∈ nested, ∃ item ∈ items, sameName item.1 p.1)
    (q : List String) :
    childrenOf q (paths (ofItems items nested)) = childrenOf q (mentions items) := by
  have hitems : childPaths q (forest (items.foldl addItem [])) =
      gather [] (childrenOf q (items.flatMap fun item => beginnings (itemPath item.1))) := by
    have hnew := nodeAt_new (fun n => n.children.map fun m => q ++ [m.key])
      (fun _ _ => rfl) q ""
    rw [alters_addItem.childPaths_foldl]
    exact congrArg (gather · _) hnew
  have hnested : (nested.flatMap fun p => beginnings (itemPath p.1)) ⊆
      items.flatMap fun item => beginnings (itemPath item.1) := by
    intro path hpath
    obtain ⟨p, hp, hpath⟩ := List.mem_flatMap.1 hpath
    obtain ⟨item, hitem, hsame⟩ := h p hp
    rw [← itemPath_eq_of_sameName hsame] at hpath
    exact List.mem_flatMap.2 ⟨item, hitem, hpath⟩
  have hmade : childrenOf q (nested.flatMap fun p => beginnings (itemPath p.1)) ⊆
      gather [] (childrenOf q (items.flatMap fun item => beginnings (itemPath item.1))) :=
    List.Subset.trans (List.filter_subset _ hnested) (subset_gather _ _)
  rw [childrenOf_paths (entries_ofItems items nested).2, ofItems,
    alters_addFilters.childPaths_foldl, hitems, gather_of_subset hmade, mentions, ← gather_nil,
    childrenOf, childrenOf, filter_gather, List.filter_nil]

theorem perm_paths_ofItems (h : ∀ p ∈ nested, ∃ item ∈ items, sameName item.1 p.1) :
    (paths (ofItems items nested)).Perm (mentions items) := by
  have hcount : ∀ (q : List String) (l : List (List String)),
      l.count q = (childrenOf q.dropLast l).count q :=
    fun q l => (List.count_filter (p := fun p : List String => p.dropLast == q.dropLast)
      (beq_self_eq_true q.dropLast)).symm
  refine List.perm_iff_count.2 fun q => ?_
  rw [hcount, childrenOf_ofItems h, ← hcount]

theorem nodup_mentions (items : List (String × ExpandOptions)) : (mentions items).Nodup := by
  rw [mentions, ← gather_nil]
  exact nodup_gather List.nodup_nil _

theorem ofItems_eq_nil_iff (h : ∀ p ∈ nested, ∃ item ∈ items, sameName item.1 p.1) :
    ofItems items nested = [] ↔ items = [] := by
  constructor
  · intro hnil
    have hperm := perm_paths_ofItems h
    rw [hnil, paths_nil] at hperm
    cases items with
    | nil => rfl
    | cons item items =>
      obtain ⟨s, rest, hs⟩ := List.exists_cons_of_ne_nil (segments_ne_nil item.1)
      have hmem : [lowerAscii s] ∈ mentions (item :: items) := by
        rw [mentions, List.mem_eraseDups, List.flatMap_cons, itemPath, hs, List.map_cons,
          beginnings_cons]
        exact List.mem_append_left _ List.mem_cons_self
      exact absurd (hperm.mem_iff.2 hmem) List.not_mem_nil
  · rintro rfl
    have hnested : nested = [] := List.eq_nil_iff_forall_not_mem.2 fun p hp => by simpa using h p hp
    rw [hnested, ofItems, List.foldl_nil, List.foldl_nil]

end ExpandNode

namespace Adapter

open ExpandNode ExpandMark

/-- The expand items of the modern syntax as one tree. Its nodes are the beginnings of the paths of
the items, each once and, among siblings, in the order of their first mention. A node has the
options of the last item with its path and the filters that are nested for its path. The clause
names each node once, below its parent. -/
theorem expand_ofItems {a : Adapter} (hd : a.dialect = .modern)
    (items : List (String × ExpandOptions)) (nested : Table (List String))
    (h : ∀ key ∈ nested.names, ∃ item ∈ items, sameName item.1 key) :
    let nodes := ofItems items nested.entries
    let clause := [.text ","].intercalate (marksOf nodes)
    a.expand items nested = .ok (texts nodes, []) ∧ AllApart nodes ∧
      (paths nodes).Nodup ∧ (paths nodes).Perm (mentions items) ∧
      (∀ parent, childrenOf parent (paths nodes) = childrenOf parent (mentions items)) ∧
      (∀ path n, (path, n) ∈ placedAll nodes →
        n.options = lastOptions items path ∧ n.filters = nestedFilters nested.entries path) ∧
      listClause "$expand" (texts nodes) =
        (if items.isEmpty then [] else [⟨"$expand", spelled clause⟩]) ∧
      reading [] "" clause = paths nodes := by
  intro nodes clause
  have hkeys : ∀ p ∈ nested.entries, ∃ item ∈ items, sameName item.1 p.1 :=
    fun p hp => h p.1 (List.mem_map_of_mem hp)
  have hapart := (entries_ofItems items nested.entries).2
  have hperm := perm_paths_ofItems hkeys
  refine ⟨by rw [expand, hd], hapart, hperm.nodup_iff.2 (nodup_mentions items), hperm,
    childrenOf_ofItems hkeys, fun path n hn => ?_, ?_, reading_marksOf nodes⟩
  · rw [← nodeAt_of_mem_placedAll hapart hn]
    exact ⟨options_ofItems items nested.entries path, filters_ofItems items nested.entries path⟩
  · have hempty : (texts nodes).isEmpty = items.isEmpty := by
      rw [Bool.eq_iff_iff, List.isEmpty_iff, List.isEmpty_iff, ← ofItems_eq_nil_iff hkeys]
      change texts nodes = [] ↔ nodes = []
      cases nodes <;> simp [texts]
    rw [listClause, hempty, spelled_intercalate, map_spelled_marksOf]

/-- Paths in any case and order, with a beginning after its extension and one that no item has. -/
theorem expand_ofItems_orders :
    let items : List (String × ExpandOptions) :=
      [("Orders/Details/Product", .plain), ("Category", .plain),
        ("orders", { ExpandOptions.plain with select := ["Id"] }), ("Orders/Customer", .plain),
        ("CATEGORY", { ExpandOptions.plain with byRef := true })]
    let nested : Table (List String) :=
      .ofList [("ORDERS", ["Freight gt 1", "Shipped"]), ("Category", ["Name eq '('"])]
    (∀ key ∈ nested.names, ∃ item ∈ items, sameName item.1 key) ∧
      listClause "$expand" (texts (ofItems items nested.entries)) = [⟨"$expand",
        "Orders($filter=Freight gt 1 and Shipped;" ++
          "$expand=Details($expand=Product),Customer;$select=Id)," ++
          "Category/$ref($filter=Name eq '(')"⟩] ∧
      (paths (ofItems items nested.entries)).Perm (mentions items) := by
  intro items nested
  have h : ∀ key ∈ nested.names, ∃ item ∈ items, sameName item.1 key := by decide +kernel
  let a : Adapter := ⟨.v4, (northwind Version.v4.text).navigator, .plain⟩
  have ha : a.dialect = .modern := rfl
  exact ⟨h, by decide +kernel, (expand_ofItems ha items nested h).2.2.2.1⟩

end Adapter

end ODataClient
