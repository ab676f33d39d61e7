import Mathlib.Data.List.Infix
import Mathlib.Data.List.Nodup
import ODataClient.Proofs.Request.ExpandItems

/-! The nodes of an expand tree by their paths. Altering the node at the end of a path makes the
nodes on the way where they are missing, as the last among their siblings, and leaves what the
other nodes say as it was. -/

namespace ODataClient

/-- The beginnings of a path, the shortest one first. -/
def beginnings (path : List String) : List (List String) := path.inits.tail

@[simp] theorem beginnings_nil : beginnings [] = [] := rfl

theorem beginnings_cons (k : String) (p : List String) :
    beginnings (k :: p) = [k] :: (beginnings p).map (k :: ·) := by
  cases p with
  | nil => rfl
  | cons j p => simp [beginnings, List.inits]

theorem ne_nil_of_mem_beginnings {p q : List String} (h : q ∈ beginnings p) : q ≠ [] := by
  cases p with
  | nil => exact absurd h List.not_mem_nil
  | cons k p =>
    rw [beginnings_cons, List.mem_cons, List.mem_map] at h
    obtain rfl | ⟨t, -, rfl⟩ := h <;> exact List.cons_ne_nil _ _

/-- A list with what more there is, each new thing once and where it comes first. -/
def gather {α : Type} [BEq α] [LawfulBEq α] (l more : List α) : List α :=
  more.foldl (fun l x => if x ∈ l then l else l ++ [x]) l

section Gather

variable {α β : Type} [BEq α] [LawfulBEq α] [BEq β] [LawfulBEq β]

theorem gather_cons (l : List α) (x : α) (more : List α) :
    gather l (x :: more) = gather (if x ∈ l then l else l ++ [x]) more := rfl

theorem gather_append (l more other : List α) :
    gather l (more ++ other) = gather (gather l more) other := List.foldl_append

theorem gather_map {g : α → β} (hg : Function.Injective g) (l more : List α) :
    gather (l.map g) (more.map g) = (gather l more).map g := by
  induction more generalizing l with
  | nil => rfl
  | cons x more ih =>
    rw [List.map_cons, gather_cons, gather_cons, ← ih]
    by_cases h : x ∈ l
    · rw [if_pos h, if_pos (List.mem_map_of_mem h)]
    · rw [if_neg h, if_neg (by simpa [hg.eq_iff] using h), List.map_append, List.map_singleton]

theorem filter_gather (keep : α → Bool) (l more : List α) :
    (gather l more).filter keep = gather (l.filter keep) (more.filter keep) := by
  induction more generalizing l with
  | nil => rfl
  | cons x more ih =>
    rw [gather_cons, ih]
    by_cases hx : keep x = true
    · rw [List.filter_cons_of_pos hx, gather_cons]
      by_cases h : x ∈ l
      · rw [if_pos h, if_pos (List.mem_filter.2 ⟨h, hx⟩)]
      · rw [if_neg h, if_neg fun hm => h (List.mem_of_mem_filter hm), List.filter_append,
          List.filter_singleton, hx]
        rfl
    · rw [List.filter_cons_of_neg hx]
      by_cases h : x ∈ l
      · rw [if_pos h]
      · rw [if_neg h, List.filter_append, List.filter_singleton, Bool.eq_false_iff.2 hx]
        simp

theorem gather_eq (l more : List α) :
    gather l more = l ++ (more.filter (· ∉ l)).eraseDups := by
  induction more generalizing l with
  | nil => simp [gather]
  | cons x more ih =>
    rw [gather_cons, ih]
    by_cases h : x ∈ l
    · simp [h]
    · have hkeep : ∀ y ∈ more, decide (y ∉ l ++ [x]) = (!y == x && decide (y ∉ l)) := by
        intro y _
        by_cases hy : y = x <;> simp [hy]
      rw [if_neg h, List.filter_cons_of_pos (by simpa using h), List.eraseDups_cons,
        List.filter_filter, List.append_assoc, List.filter_congr hkeep, List.singleton_append]

theorem nodup_gather {l : List α} (h : l.Nodup) (more : List α) : (gather l more).Nodup := by
  induction more generalizing l with
  | nil => exact h
  | cons x more ih =>
    rw [gather_cons]
    split
    next => exact ih h
    next hx => exact ih (List.nodup_append_comm.2 (List.nodup_cons.2 ⟨hx, h⟩))

theorem gather_of_subset {l more : List α} (h : more ⊆ l) :
    gather l more = l := by
  induction more with
  | nil => rfl
  | cons x more ih =>
    rw [gather_cons, if_pos (h List.mem_cons_self)]
    exact ih fun y hy => h (List.mem_cons_of_mem _ hy)

theorem subset_gather (l more : List α) : more ⊆ gather l more := by
  intro x hx
  rw [gather_eq]
  by_cases h : x ∈ l
  · exact List.mem_append_left _ h
  · exact List.mem_append_right _ (List.mem_eraseDups.2 (List.mem_filter.2 ⟨hx, by simpa using h⟩))

/-- The things of a list, in the order in which they first come. -/
theorem gather_nil (more : List α) : gather [] more = more.eraseDups := by
  simp [gather_eq]

end Gather

/-- The paths among these that lead to a child of the node at a path. -/
def childrenOf (p : List String) (paths : List (List String)) : List (List String) :=
  paths.filter fun q => q.dropLast == p

theorem childrenOf_append (p : List String) (l r : List (List String)) :
    childrenOf p (l ++ r) = childrenOf p l ++ childrenOf p r := List.filter_append ..

theorem childrenOf_cons_self (p : List String) (k : String) (l : List (List String)) :
    childrenOf p ((p ++ [k]) :: l) = (p ++ [k]) :: childrenOf p l :=
  List.filter_cons_of_pos (by simp)

theorem childrenOf_cons_of_ne {p q : List String} (h : q.dropLast ≠ p) (l : List (List String)) :
    childrenOf p (q :: l) = childrenOf p l :=
  List.filter_cons_of_neg (by simpa using h)

theorem childrenOf_nil_map_cons {k : String} {l : List (List String)} (h : ∀ q ∈ l, q ≠ []) :
    childrenOf [] (l.map (k :: ·)) = [] := by
  refine List.filter_eq_nil_iff.2 fun q hq => ?_
  obtain ⟨t, ht, rfl⟩ := List.mem_map.1 hq
  simp [List.dropLast_cons_of_ne_nil (h t ht)]

theorem childrenOf_cons_map_cons (j : String) (p : List String) {k : String}
    {l : List (List String)} (h : ∀ q ∈ l, q ≠ []) :
    childrenOf (j :: p) (l.map (k :: ·)) =
      if k = j then (childrenOf p l).map (k :: ·) else [] := by
  have hcons : ∀ q ∈ l, ((k :: q).dropLast == j :: p) = (k == j && q.dropLast == p) := by
    intro q hq
    rw [List.dropLast_cons_of_ne_nil (h q hq)]
    rfl
  rw [childrenOf, childrenOf, List.filter_map]
  split
  next hk =>
    exact congrArg _ (List.filter_congr fun q hq => by simpa [hk] using hcons q hq)
  next hk =>
    refine List.map_eq_nil_iff.2 (List.filter_eq_nil_iff.2 fun q hq => ?_)
    rw [Function.comp_apply, hcons q hq, beq_eq_false_iff_ne.2 hk]
    exact Bool.false_ne_true

namespace ExpandNode

def key (n : ExpandNode) : String := lowerAscii n.name

/-- The node with this key; a node that is missing says no more than a new one. -/
def child (k : String) (nodes : List ExpandNode) : ExpandNode :=
  (nodes.find? fun n => n.key == k).getD (new k)

def nodeAt : List String → ExpandNode → ExpandNode
  | [], n => n
  | k :: p, n => nodeAt p (child k n.children)

def alterNode (f : ExpandNode → ExpandNode) : List String → ExpandNode → ExpandNode
  | [], n => f n
  | name :: rest, n => { n with children := alterChild name (alterNode f rest) n.children }

/-- The nodes of a tree as the children of a node that stands for all of them. -/
def forest (nodes : List ExpandNode) : ExpandNode := { new "" with children := nodes }

theorem alterNode_eq (f : ExpandNode → ExpandNode) (name : String) (rest : List String) :
    alterNode f (name :: rest) =
      fun n => { n with children := alterAt f (name :: rest) n.children } := by
  induction rest generalizing name with
  | nil => rfl
  | cons next rest ih =>
    funext n
    rw [alterNode, ih, alterAt]
    exact List.cons_ne_nil _ _

theorem forest_alterAt (f : ExpandNode → ExpandNode) {segs : List String} (hs : segs ≠ [])
    (nodes : List ExpandNode) :
    forest (alterAt f segs nodes) = alterNode f segs (forest nodes) := by
  obtain ⟨name, rest, rfl⟩ := List.exists_cons_of_ne_nil hs
  rw [alterNode_eq]
  rfl

/-- What is asked of a node that may be missing does not depend on how its name is written. -/
theorem nodeAt_child {α : Type} (ask : ExpandNode → α) (hnew : ∀ a b, ask (new a) = ask (new b))
    (p : List String) (k name : String) (nodes : List ExpandNode) :
    ask (nodeAt p ((nodes.find? fun n => n.key == k).getD (new name))) =
      ask (nodeAt p (child k nodes)) := by
  rw [child]
  cases nodes.find? fun n => n.key == k with
  | some n => rfl
  | none =>
    cases p with
    | nil => exact hnew name k
    | cons j p => rfl

section Alter

variable {f : ExpandNode → ExpandNode}

theorem name_alterNode (hname : ∀ n, (f n).name = n.name) (segs : List String) (n : ExpandNode) :
    (alterNode f segs n).name = n.name := by
  cases segs with
  | nil => exact hname n
  | cons name rest => rfl

theorem find?_alterChild (hname : ∀ n, (f n).name = n.name) (name k : String)
    (nodes : List ExpandNode) :
    (alterChild name f nodes).find? (fun n => n.key == k) =
      if k = lowerAscii name then
        some (f ((nodes.find? fun n => n.key == k).getD (new name)))
      else nodes.find? fun n => n.key == k := by
  have hkey : ∀ n, (f n).key = n.key := fun n => congrArg lowerAscii (hname n)
  induction nodes with
  | nil =>
    have hnew : (f (new name)).key = lowerAscii name := hkey _
    by_cases h : k = lowerAscii name
    · simp [alterChild, hnew, h]
    · simp [alterChild, hnew, h, Ne.symm h]
  | cons n r ih =>
    rw [alterChild]
    split
    next hs =>
      have hn : n.key = lowerAscii name := sameName_iff.1 hs
      by_cases h : k = lowerAscii name
      · simp [hkey, hn, h]
      · simp [hkey, hn, h, Ne.symm h]
    next hs =>
      have hn : n.key ≠ lowerAscii name := fun he => hs (sameName_iff.2 he)
      by_cases h : n.key = k
      · have hk : k ≠ lowerAscii name := h ▸ hn
        simp [h, hk]
      · simpa [h] using ih

theorem keys_alterChild (hname : ∀ n, (f n).name = n.name) (name : String)
    (nodes : List ExpandNode) :
    (alterChild name f nodes).map key =
      if lowerAscii name ∈ nodes.map key then nodes.map key
      else nodes.map key ++ [lowerAscii name] := by
  have hkey : ∀ n, (f n).key = n.key := fun n => congrArg lowerAscii (hname n)
  induction nodes with
  | nil =>
    have hnew : (f (new name)).key = lowerAscii name := hkey _
    simp [alterChild, hnew]
  | cons n r ih =>
    rw [alterChild]
    split
    next hs =>
      have hn : n.key = lowerAscii name := sameName_iff.1 hs
      simp [hkey, hn]
    next hs =>
      have hn : lowerAscii name ≠ n.key := fun he => hs (sameName_iff.2 he.symm)
      rw [List.map_cons, ih, List.map_cons]
      by_cases h : lowerAscii name ∈ r.map key
      · rw [if_pos h, if_pos (List.mem_cons_of_mem _ h)]
      · rw [if_neg h, if_neg (List.not_mem_cons_of_ne_of_not_mem hn h), List.cons_append]

/-- What a node says of itself changes at the end of the altered path and nowhere else. -/
theorem ask_nodeAt_alterNode {α : Type} {ask : ExpandNode → α} {g : α → α}
    (hname : ∀ n, (f n).name = n.name) (hchildren : ∀ n, (f n).children = n.children)
    (hnew : ∀ a b, ask (new a) = ask (new b))
    (hask : ∀ n children, ask { n with children := children } = ask n)
    (hf : ∀ n, ask (f n) = g (ask n)) (segs q : List String) (n : ExpandNode) :
    ask (nodeAt q (alterNode f segs n)) =
      if segs.map lowerAscii = q then g (ask (nodeAt q n)) else ask (nodeAt q n) := by
  induction segs generalizing q n with
  | nil =>
    cases q with
    | nil => simpa [alterNode, nodeAt] using hf n
    | cons k q => simp [alterNode, nodeAt, hchildren]
  | cons name rest ih =>
    cases q with
    | nil => simp [alterNode, nodeAt, hask]
    | cons k q =>
      rw [nodeAt, child, alterNode, find?_alterChild (name_alterNode hname rest)]
      by_cases h : k = lowerAscii name
      · subst h
        rw [if_pos rfl, Option.getD_some, ih]
        simp [nodeAt_child ask hnew, nodeAt]
      · have hne : (name :: rest).map lowerAscii ≠ k :: q := fun he => h (List.cons.inj he).1.symm
        rw [if_neg h, if_neg hne]
        rfl

/-- The paths of the children of the node at a path. -/
def childPaths (q : List String) (n : ExpandNode) : List (List String) :=
  (nodeAt q n).children.map fun m => q ++ [m.key]

theorem childPaths_nil (n : ExpandNode) : childPaths [] n = (n.children.map key).map ([·]) := by
  rw [childPaths, List.map_map]
  rfl

theorem childPaths_cons (k : String) (q : List String) (n : ExpandNode) :
    childPaths (k :: q) n = (childPaths q (child k n.children)).map (k :: ·) := by
  rw [childPaths, childPaths, List.map_map]
  rfl

theorem childPaths_alterNode (hname : ∀ n, (f n).name = n.name)
    (hchildren : ∀ n, (f n).children = n.children) (segs q : List String) (n : ExpandNode) :
    childPaths q (alterNode f segs n) =
      gather (childPaths q n) (childrenOf q (beginnings (segs.map lowerAscii))) := by
  induction segs generalizing q n with
  | nil =>
    cases q with
    | nil => simp [childPaths, alterNode, nodeAt, hchildren, childrenOf, gather]
    | cons k q => simp [childPaths, alterNode, nodeAt, hchildren, childrenOf, gather]
  | cons name rest ih =>
    have hne : ∀ q ∈ beginnings (rest.map lowerAscii), q ≠ [] := fun q => ne_nil_of_mem_beginnings
    rw [List.map_cons, beginnings_cons]
    cases q with
    | nil =>
      have hself := childrenOf_cons_self [] (lowerAscii name)
      rw [List.nil_append] at hself
      rw [hself, childrenOf_nil_map_cons hne, childPaths_nil, childPaths_nil, alterNode,
        keys_alterChild (name_alterNode hname rest)]
      simp only [gather, List.foldl_cons, List.foldl_nil, List.mem_map, List.cons.injEq, and_true,
        exists_eq_right]
      split <;> simp
    | cons k q =>
      rw [childrenOf_cons_of_ne (by simp), childrenOf_cons_map_cons k q hne, childPaths_cons,
        childPaths_cons, child, alterNode, find?_alterChild (name_alterNode hname rest)]
      by_cases h : k = lowerAscii name
      · subst h
        have hsame := nodeAt_child (fun m => m.children.map fun m => q ++ [m.key])
          (fun _ _ => rfl) q (lowerAscii name) name n.children
        rw [if_pos rfl, if_pos rfl, Option.getD_some, ih, childPaths, hsame,
          ← gather_map List.cons_injective]
        rfl
      · rw [if_neg h, if_neg (Ne.symm h)]
        rfl

end Alter

mutual

/-- A node and those below it, each with its path; a node comes before those below it. -/
def placed : ExpandNode → List (List String × ExpandNode)
  | ⟨name, options, filters, children⟩ =>
    ([lowerAscii name], ⟨name, options, filters, children⟩) ::
      (placedAll children).map fun p => (lowerAscii name :: p.1, p.2)

def placedAll : List ExpandNode → List (List String × ExpandNode)
  | [] => []
  | n :: r => placed n ++ placedAll r

end

theorem placed_eq (n : ExpandNode) :
    n.placed = ([n.key], n) :: (placedAll n.children).map fun p => (n.key :: p.1, p.2) := by
  cases n; rw [placed]; rfl

theorem placedAll_cons (n : ExpandNode) (r : List ExpandNode) :
    placedAll (n :: r) = placed n ++ placedAll r := by rw [placedAll]

def paths (nodes : List ExpandNode) : List (List String) := (placedAll nodes).map (·.1)

theorem paths_nil : paths [] = [] := by rw [paths, placedAll]; rfl

theorem paths_cons (n : ExpandNode) (r : List ExpandNode) :
    paths (n :: r) = [n.key] :: (paths n.children).map (n.key :: ·) ++ paths r := by
  simp [paths, placedAll_cons, placed_eq]

theorem exists_key_of_mem_paths {nodes : List ExpandNode} {q : List String}
    (h : q ∈ paths nodes) : ∃ n ∈ nodes, ∃ p, q = n.key :: p := by
  induction nodes with
  | nil => simp [paths_nil] at h
  | cons n r ih =>
    rw [paths_cons, List.mem_append, List.mem_cons, List.mem_map] at h
    rcases h with (rfl | ⟨p, -, rfl⟩) | h
    · exact ⟨n, List.mem_cons_self, [], rfl⟩
    · exact ⟨n, List.mem_cons_self, p, rfl⟩
    · obtain ⟨m, hm, p, rfl⟩ := ih h
      exact ⟨m, List.mem_cons_of_mem _ hm, p, rfl⟩

theorem child_cons (k : String) (n : ExpandNode) (r : List ExpandNode) :
    child k (n :: r) = if n.key = k then n else child k r := by
  by_cases h : n.key = k <;> simp [child, h]

theorem child_of_forall_ne {k : String} {nodes : List ExpandNode}
    (h : ∀ n ∈ nodes, n.key ≠ k) : child k nodes = new k := by
  rw [child, List.find?_eq_none.2 fun n hn => by simpa using h n hn]
  rfl

theorem nodeAt_forest_cons (k : String) (p : List String) (n : ExpandNode)
    (r : List ExpandNode) :
    nodeAt (k :: p) (forest (n :: r)) =
      if n.key = k then nodeAt p n else nodeAt (k :: p) (forest r) := by
  by_cases h : n.key = k
  · rw [if_pos h, nodeAt, forest, child_cons, if_pos h]
  · rw [if_neg h, nodeAt, forest, child_cons, if_neg h]
    rfl

theorem childPaths_forest (q : List String) (n : ExpandNode) :
    childPaths q (forest n.children) = childPaths q n := by
  cases q <;> rfl

theorem childPaths_forest_cons (k : String) (q : List String) (n : ExpandNode)
    (r : List ExpandNode) :
    childPaths (k :: q) (forest (n :: r)) =
      if n.key = k then (childPaths q n).map (k :: ·) else childPaths (k :: q) (forest r) := by
  rw [childPaths_cons, childPaths_cons]
  by_cases h : n.key = k
  · rw [if_pos h, forest, child_cons, if_pos h]
  · rw [if_neg h, forest, child_cons, if_neg h]
    rfl

/-- A new node has nothing below it that says more than a new one. -/
theorem nodeAt_new {α : Type} (ask : ExpandNode → α) (hnew : ∀ a b, ask (new a) = ask (new b))
    (p : List String) (name : String) : ask (nodeAt p (new name)) = ask (new name) := by
  induction p generalizing name with
  | nil => rfl
  | cons k p ih => exact (ih k).trans (hnew k name)

theorem childPaths_of_forall_ne {k : String} {nodes : List ExpandNode}
    (h : ∀ n ∈ nodes, n.key ≠ k) (q : List String) : childPaths (k :: q) (forest nodes) = [] := by
  rw [childPaths, nodeAt, forest, child_of_forall_ne h,
    nodeAt_new ExpandNode.children fun _ _ => rfl]
  rfl

/-- Induction on the nodes of a tree: those after a node and those below it. -/
theorem nodes_induction {motive : List ExpandNode → Prop} (nil : motive [])
    (cons : ∀ n r, motive n.children → motive r → motive (n :: r)) : ∀ nodes, motive nodes
  | [] => nil
  | ⟨name, options, filters, children⟩ :: r =>
    cons ⟨name, options, filters, children⟩ r (nodes_induction nil cons children)
      (nodes_induction nil cons r)

/-- Among nodes with different names, the node at a path is the one that is placed there. -/
theorem nodeAt_of_mem_placedAll {nodes : List ExpandNode} (ha : AllApart nodes)
    {q : List String} {m : ExpandNode} (h : (q, m) ∈ placedAll nodes) :
    nodeAt q (forest nodes) = m := by
  induction nodes using nodes_induction generalizing q with
  | nil => simp [placedAll] at h
  | cons n r ihc ihr =>
    obtain ⟨hn, hne, hr⟩ := ha
    rw [placedAll_cons, placed_eq, List.mem_append, List.mem_cons, List.mem_map] at h
    rcases h with (h | ⟨⟨p, m⟩, hp, h⟩) | h
    · cases h
      rw [nodeAt_forest_cons, if_pos rfl, nodeAt]
    · cases h
      obtain ⟨c, -, t, rfl⟩ := exists_key_of_mem_paths (List.mem_map_of_mem hp)
      rw [nodeAt_forest_cons, if_pos rfl]
      exact ihc ((apart_iff n).1 hn) hp
    · obtain ⟨c, hc, t, rfl⟩ := exists_key_of_mem_paths (List.mem_map_of_mem h)
      rw [nodeAt_forest_cons, if_neg fun he => hne c hc he.symm]
      exact ihr hr h

/-- Among nodes with different names, the children that are placed under a path are those of the
node at the path. -/
theorem childrenOf_paths {nodes : List ExpandNode} (ha : AllApart nodes) (q : List String) :
    childrenOf q (paths nodes) = childPaths q (forest nodes) := by
  induction nodes using nodes_induction generalizing q with
  | nil =>
    rw [paths_nil]
    cases q with
    | nil => rfl
    | cons k q => rw [childPaths_of_forall_ne (List.forall_mem_nil _), childrenOf, List.filter_nil]
  | cons n r ihc ihr =>
    obtain ⟨hn, hne, hr⟩ := ha
    have hkeys : ∀ m ∈ r, m.key ≠ n.key := hne
    have hpaths : ∀ p ∈ paths n.children, p ≠ [] := by
      rintro _ hp rfl
      obtain ⟨c, -, t, ht⟩ := exists_key_of_mem_paths hp
      exact List.cons_ne_nil _ _ ht.symm
    have hself := childrenOf_cons_self [] n.key
    rw [List.nil_append] at hself
    rw [paths_cons]
    cases q with
    | nil =>
      rw [List.cons_append, hself, childrenOf_append, childrenOf_nil_map_cons hpaths, ihr hr]
      rfl
    | cons k q =>
      rw [List.cons_append, childrenOf_cons_of_ne (by simp), childrenOf_append,
        childrenOf_cons_map_cons k q hpaths, ihr hr, childPaths_forest_cons]
      by_cases h : n.key = k
      · subst h
        rw [if_pos rfl, if_pos rfl, ihc ((apart_iff n).1 hn), childPaths_forest,
          childPaths_of_forall_ne hkeys, List.append_nil]
      · rw [if_neg h, if_neg h, List.nil_append]

end ExpandNode

end ODataClient
