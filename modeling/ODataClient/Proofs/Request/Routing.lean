import Mathlib.Data.List.Perm.Basic
import ODataClient.Proofs.Request.ExpandItems
import ODataClient.Proofs.Request.Placement
import ODataClient.Request.Compile

/-! Where the predicates of a command stand in its request. The operands of the stored
filters and the stored texts correspond one to one to the pieces of the root filter and to
the filters of expand items, and the pieces of the root filter stand in a fixed order. -/

namespace ODataClient

/-- An operand of the `and` nodes at the top of a stored filter, or a stored text. -/
inductive StoredPredicate
  | part (entity : String) (e : Expr)
  | text (entity : String) (text : String)

def Command.storedPredicates (c : Command) : List StoredPredicate :=
  c.filterParts.map (fun p => .part p.1 p.2) ++
    c.node.textFilters.entries.map fun p => .text p.1 p.2

/-- A piece of the root filter, or an entry in the filter of the expand item with a path. -/
inductive Piece
  | filter (text : String)
  | entry (item : List String) (text : String)
  deriving DecidableEq

namespace Piece

def filter? : Piece → Option String
  | filter text => some text
  | entry _ _ => none

def entry? : Piece → Option (List String × String)
  | filter _ => none
  | entry item text => some (item, text)

end Piece

def filterPieces (pieces : List Piece) : List String := pieces.filterMap Piece.filter?

def filterClause (pieces : List String) : List Clause :=
  if pieces.isEmpty then [] else [⟨"$filter", String.intercalate " and " pieces⟩]

namespace Adapter

def FiledUnder (a : Adapter) (t : CommandTarget) (b : String) : StoredPredicate → Prop
  | .part entity part => ∃ e, a.fragment t entity part = .ok (b, e)
  | .text _ _ => False

/-- The piece that a stored predicate becomes; `alone` says that the root filter has no other. -/
inductive Writes (a : Adapter) (c : Command) (t : CommandTarget) (alone : Bool) :
    StoredPredicate → Piece → Prop
  | whole {entity b text : String} {part e : Expr} (hf : a.fragment t entity part = .ok (b, e))
      (hp : a.placement c t b e = .whole) (hr : a.renderer.render e = .ok text) :
      Writes a c t alone (.part entity part)
        (.filter (if e.operator.precedence < Operator.and.precedence then "(" ++ text ++ ")" else text))
  | wrapped {entity b text : String} {part e : Expr} (hf : a.fragment t entity part = .ok (b, e))
      (hp : a.placement c t b e = .wrapped)
      (hr : a.renderer.render ((a.relative b e).qualified wrapperVariable) = .ok text) :
      Writes a c t alone (.part entity part) (.filter (anyLambda b wrapperVariable text))
  | nested {entity b text : String} {part e : Expr} (hf : a.fragment t entity part = .ok (b, e))
      (hp : a.placement c t b e = .nested) (hr : a.conjunct (a.relative b e) = .ok text) :
      Writes a c t alone (.part entity part) (.entry (itemPath b) text)
  | own {entity text : String} (h : sameName entity t.entityKey) :
      Writes a c t alone (.text entity text) (.filter (if alone then text else "(" ++ text ++ ")"))
  | wrappedText {entity text : String} (h : ¬ sameName entity t.entityKey) (hn : ¬ a.nests c entity) :
      Writes a c t alone (.text entity text) (.filter (anyLambda entity (rangeVariable entity) text))
  | nestedText {entity text : String} (h : ¬ sameName entity t.entityKey) (hn : a.nests c entity) :
      Writes a c t alone (.text entity text)
        (.entry (itemPath entity) (unqualify (rangeVariable entity) text))

/-- The stored predicates of a command in the order of their pieces. -/
structure Routing (a : Adapter) (c : Command) (t : CommandTarget) where
  root : List StoredPredicate
  others : List StoredPredicate
  relatedTexts : List StoredPredicate
  ownTexts : List StoredPredicate
  pieces : List Piece
  complete : (root ++ others ++ relatedTexts ++ ownTexts).Perm c.storedPredicates
  written : List.Forall₂ (a.Writes c t ((filterPieces pieces).length == 1))
    (root ++ others ++ relatedTexts ++ ownTexts) pieces
  root_filed : ∀ s ∈ root, a.FiledUnder t (CommandTarget.rootBucket t) s
  others_filed : ∀ s ∈ others, ∃ b, b ≠ CommandTarget.rootBucket t ∧ a.FiledUnder t b s
  others_ordered : others.Pairwise fun s s' =>
    ∀ b b', a.FiledUnder t b s → a.FiledUnder t b' s' → b ≤ b'
  related_texts : ∀ s ∈ relatedTexts, ∃ entity text,
    s = .text entity text ∧ sameName entity t.entityKey = false
  own_texts : ∀ s ∈ ownTexts, ∃ entity text, s = .text entity text ∧ sameName entity t.entityKey = true

end Adapter

namespace Predicate

def nested? : Predicate → Option (String × String)
  | nested path text => some (path, text)
  | _ => none

def piece (alone : Bool) : Predicate → Piece
  | part text => .filter text
  | own text => .filter (if alone then text else "(" ++ text ++ ")")
  | nested path text => .entry (itemPath path) text

theorem nestedTable_eq (predicates : List Predicate) :
    nestedTable predicates = Table.grouped (predicates.filterMap nested?) := by
  have hf : ∀ t : Table (List String),
      predicates.foldl (fun t p => match p with
          | nested path text => t.append path [text]
          | _ => t) t =
        (predicates.filterMap nested?).foldl (fun t p => t.append p.1 [p.2]) t := by
    induction predicates with
    | nil => exact fun _ => rfl
    | cons p predicates ih => cases p <;> exact fun t => ih _
  exact hf .empty

theorem entries_nestedTable_perm (predicates : List Predicate) (alone : Bool) :
    ((nestedTable predicates).entries.flatMap fun p => p.2.map (itemPath p.1, ·)).Perm
      ((predicates.map (piece alone)).filterMap Piece.entry?) := by
  have hp := (Table.entries_grouped_perm (predicates.filterMap nested?)).map
    fun p => (itemPath p.1, p.2)
  have hl : ((Table.grouped (predicates.filterMap nested?)).entries.flatMap
        fun p => p.2.map (p.1, ·)).map (fun p => (itemPath p.1, p.2)) =
      (nestedTable predicates).entries.flatMap fun p => p.2.map (itemPath p.1, ·) := by
    rw [nestedTable_eq, List.map_flatMap]
    simp only [List.map_map, Function.comp_def]
  have hr : (predicates.filterMap nested?).map (fun p => (itemPath p.1, p.2)) =
      (predicates.map (piece alone)).filterMap Piece.entry? := by
    rw [List.map_filterMap, List.filterMap_map]
    refine List.filterMap_congr fun p _ => ?_
    cases p <;> rfl
  rw [hl, hr] at hp
  exact hp

/-- The predicates of a filter with its own texts last. -/
def ownLast (predicates : List Predicate) : List Predicate :=
  predicates.filter (fun p => p.own?.isSome == false) ++
    predicates.filter fun p => p.own?.isSome == true

theorem ownLast_perm (predicates : List Predicate) : (ownLast predicates).Perm predicates := by
  have hn : (fun p : Predicate => p.own?.isSome == true) = fun p => !(p.own?.isSome == false) := by
    funext p
    cases p <;> rfl
  rw [ownLast, hn]
  exact List.filter_append_perm _ _

theorem ownLast_append {l : List Predicate} (hl : ∀ p ∈ l, p.own? = none) (texts : List Predicate) :
    ownLast (l ++ texts) = l ++ ownLast texts := by
  have hkept : l.filter (fun p => p.own?.isSome == false) = l :=
    List.filter_eq_self.2 fun p hp => by rw [hl p hp]; rfl
  have hnone : l.filter (fun p => p.own?.isSome == true) = [] :=
    List.filter_eq_nil_iff.2 fun p hp => by rw [hl p hp]; exact Bool.false_ne_true
  rw [ownLast, List.filter_append, List.filter_append, hkept, hnone, List.nil_append, ownLast,
    List.append_assoc]

theorem filterPieces_ownLast (predicates : List Predicate) (alone : Bool) :
    filterPieces ((ownLast predicates).map (piece alone)) =
      predicates.filterMap part? ++
        (predicates.filterMap own?).map fun t => if alone then t else "(" ++ t ++ ")" := by
  have hparts : ((predicates.filter fun p => p.own?.isSome == false).map (piece alone)).filterMap
      Piece.filter? = predicates.filterMap part? := by
    rw [List.filterMap_map, List.filterMap_filter]
    refine List.filterMap_congr fun p _ => ?_
    cases p <;> rfl
  have hown : ((predicates.filter fun p => p.own?.isSome == true).map (piece alone)).filterMap
      Piece.filter? = (predicates.filterMap own?).map fun t => if alone then t else "(" ++ t ++ ")" := by
    rw [List.filterMap_map, List.filterMap_filter, List.map_filterMap]
    refine List.filterMap_congr fun p _ => ?_
    cases p <;> rfl
  rw [filterPieces, ownLast, List.map_append, List.filterMap_append, hparts, hown]

theorem filterText?_eq (predicates : List Predicate) {alone : Bool}
    (h : alone = ((predicates.filterMap part?).length + (predicates.filterMap own?).length == 1)) :
    ((filterText? predicates).map (Clause.mk "$filter")).toList =
      filterClause (filterPieces ((ownLast predicates).map (piece alone))) := by
  rw [filterPieces_ownLast, filterText?, filterClause]
  generalize predicates.filterMap part? = parts at h ⊢
  generalize predicates.filterMap own? = owns at h ⊢
  by_cases hzero : parts.length + owns.length = 0
  · obtain rfl : parts = [] := List.length_eq_zero_iff.1 (by omega)
    obtain rfl : owns = [] := List.length_eq_zero_iff.1 (by omega)
    rfl
  · have hne : (parts ++ owns.map fun t => if alone then t else "(" ++ t ++ ")").isEmpty = false := by
      rw [List.isEmpty_eq_false_iff, ← List.length_pos_iff, List.length_append, List.length_map]
      omega
    have hmap : (owns.map fun t => if alone then t else "(" ++ t ++ ")") =
        if parts.length + owns.length = 1 then owns else owns.map fun t => "(" ++ t ++ ")" := by
      subst h
      by_cases hone : parts.length + owns.length = 1 <;> simp [hone]
    rw [if_neg hzero, if_neg (Bool.eq_false_iff.1 hne), hmap]
    rfl

end Predicate

namespace Adapter

variable {a : Adapter} {c : Command} {t : CommandTarget} {filters : EntityFilters}
  {predicates : List Predicate} {b : String} {e : Expr} {s : StoredPredicate} {alone : Bool}

/-- What a fragment of a bucket was filed from. -/
def Filed (a : Adapter) (t : CommandTarget) (f : String × Expr) (s : StoredPredicate) : Prop :=
  ∃ entity part, s = .part entity part ∧ a.fragment t entity part = .ok f

theorem Filed.filedUnder (h : a.Filed t (b, e) s) : a.FiledUnder t b s := by
  obtain ⟨entity, part, rfl, hf⟩ := h
  exact ⟨e, hf⟩

theorem Filed.bucket_eq (h : a.Filed t (b, e) s) {b' : String} (hb : a.FiledUnder t b' s) :
    b' = b := by
  obtain ⟨entity, part, rfl, hf⟩ := h
  obtain ⟨e', he⟩ := hb
  exact congrArg Prod.fst (Except.ok.inj (he.symm.trans hf))

theorem writes_root (hs : a.Filed t (b, e) s) (hb : b = CommandTarget.rootBucket t) {text : String}
    (h : a.conjunct e = .ok text) : a.Writes c t alone s (.filter text) := by
  obtain ⟨entity, part, rfl, hf⟩ := hs
  obtain ⟨inner, hr, rfl⟩ := map_eq_ok_iff.1 h
  exact .whole hf (if_pos (Or.inl hb)) hr

theorem writes_related (hs : a.Filed t (b, e) s) (hb : b ≠ CommandTarget.rootBucket t)
    {p : Predicate} (h : a.relatedPredicate c b e = .ok p) :
    a.Writes c t alone s (p.piece alone) := by
  obtain ⟨entity, part, rfl, hf⟩ := hs
  have hplace := relatedPredicate_eq (a := a) (c := c) hb e
  rw [h] at hplace
  obtain ⟨text, htext, rfl⟩ := map_eq_ok_iff.1 hplace.symm
  cases hp : a.placement c t b e with
  | whole =>
    rw [hp] at htext
    obtain ⟨inner, hr, rfl⟩ := map_eq_ok_iff.1 htext
    exact .whole hf hp hr
  | nested =>
    rw [hp] at htext
    exact .nested hf hp htext
  | wrapped =>
    rw [hp] at htext
    exact .wrapped hf hp htext

theorem own?_relatedPredicate {p : Predicate} (h : a.relatedPredicate c b e = .ok p) :
    p.own? = none := by
  rw [relatedPredicate] at h
  split at h
  · obtain ⟨text, -, rfl⟩ := map_eq_ok_iff.1 h
    rfl
  · dsimp only at h
    split at h
    · obtain ⟨text, -, rfl⟩ := map_eq_ok_iff.1 h
      rfl
    · obtain ⟨text, -, rfl⟩ := map_eq_ok_iff.1 h
      rfl

theorem writes_text (entity text : String) :
    a.Writes c t alone (.text entity text) ((a.textPredicate c t entity text).piece alone) := by
  rw [textPredicate]
  by_cases hown : sameName entity t.entityKey = true
  · rw [if_pos hown]
    exact .own hown
  · rw [if_neg hown]
    by_cases hn : a.nests c entity = true
    · rw [if_pos hn]
      exact .nestedText hown hn
    · rw [if_neg hn]
      exact .wrappedText hown hn

theorem own?_textPredicate (entity text : String) :
    (a.textPredicate c t entity text).own?.isSome = sameName entity t.entityKey := by
  rw [textPredicate]
  by_cases hown : sameName entity t.entityKey = true
  · rw [if_pos hown, hown]
    rfl
  · rw [if_neg hown, Bool.eq_false_iff.2 hown]
    by_cases hn : a.nests c entity = true
    · rw [if_pos hn]
      rfl
    · rw [if_neg hn]
      rfl

/-- The fragments of the buckets other than the root's, by bucket. -/
def otherFragments (t : CommandTarget) (filters : EntityFilters) : List (String × Expr) :=
  (filters.entries.filter fun b => b.1 != CommandTarget.rootBucket t).flatMap fun b =>
    b.2.map (b.1, ·)

theorem predicates_eq_ok (hp : a.predicates c t filters = .ok predicates) :
    ∃ own related,
      ((filters.get? (CommandTarget.rootBucket t)).getD []).mapM a.conjunct = .ok own ∧
      (otherFragments t filters).mapM (fun f => a.relatedPredicate c f.1 f.2) = .ok related ∧
      predicates = own.map .part ++ related ++
        c.node.textFilters.entries.map fun p => a.textPredicate c t p.1 p.2 := by
  obtain ⟨own, hown, hp⟩ := bind_eq_ok_iff.1 hp
  obtain ⟨related, hrelated, hp⟩ := bind_eq_ok_iff.1 hp
  obtain rfl := Except.ok.inj hp
  refine ⟨own, related.flatten, hown, ?_, rfl⟩
  have hbucket : ∀ b : String × List Expr, (b.2.map (b.1, ·)).mapM
      (fun f => a.relatedPredicate c f.1 f.2) = b.2.mapM (a.relatedPredicate c b.1) :=
    fun b => List.mapM_map
  rw [otherFragments, mapM_flatMap_except]
  simp only [hbucket]
  rw [hrelated]
  rfl

theorem otherFragments_ordered (t : CommandTarget) (filters : EntityFilters) :
    (otherFragments t filters).Pairwise fun f f' => f.1 ≤ f'.1 := by
  rw [otherFragments, List.pairwise_flatMap]
  refine ⟨fun b _ => ?_, ?_⟩
  · rw [List.pairwise_map]
    exact List.pairwise_of_forall fun _ _ => le_refl b.1
  · refine (List.Pairwise.filter _ filters.ordered).imp fun hlt f hf f' hf' => ?_
    obtain ⟨_, _, rfl⟩ := List.mem_map.1 hf
    obtain ⟨_, _, rfl⟩ := List.mem_map.1 hf'
    exact le_of_lt hlt

/-- The fragments of the buckets are the operands of the stored filters, each as often as
it is stored. -/
theorem exists_filed (ht : a.target c = .ok t) (hf : a.analyze c = .ok filters) :
    ∃ root others, (root ++ others).Perm (c.filterParts.map fun p => .part p.1 p.2) ∧
      List.Forall₂ (fun e s => a.Filed t (CommandTarget.rootBucket t, e) s)
        ((filters.get? (CommandTarget.rootBucket t)).getD []) root ∧
      List.Forall₂ (a.Filed t) (otherFragments t filters) others := by
  rw [analyze_eq, ht, ok_bind, map_eq_ok_iff] at hf
  obtain ⟨filed, hfiled, rfl⟩ := hf
  have hstored : List.Forall₂ (a.Filed t) filed (c.filterParts.map fun p => .part p.1 p.2) := by
    rw [List.forall₂_map_right_iff]
    refine (mapM_eq_ok_iff.1 hfiled).flip.imp ?_
    exact fun f p hf => ⟨p.1, p.2, rfl, hf⟩
  obtain ⟨order, horder, hperm⟩ := List.perm_comp_forall₂
    (Table.group_append_others_perm filed (CommandTarget.rootBucket t)) hstored
  obtain ⟨root, others, rfl, hroot, hothers⟩ := forall₂_append_split horder
  exact ⟨root, others, hperm, List.forall₂_map_left_iff.1 hroot, hothers⟩

theorem bucket_ne_of_mem_others {f : String × Expr} (hf : f ∈ otherFragments t filters) :
    f.1 ≠ CommandTarget.rootBucket t := by
  obtain ⟨bucket, hb, hf⟩ := List.mem_flatMap.1 hf
  obtain ⟨_, _, rfl⟩ := List.mem_map.1 hf
  simpa using (List.mem_filter.1 hb).2

theorem pairwise_of_filed {l : List (String × Expr)} {stored : List StoredPredicate}
    (h : List.Forall₂ (a.Filed t) l stored) (hl : l.Pairwise fun f f' => f.1 ≤ f'.1) :
    stored.Pairwise fun s s' => ∀ b b', a.FiledUnder t b s → a.FiledUnder t b' s' → b ≤ b' := by
  induction h with
  | nil => exact List.Pairwise.nil
  | cons hf hrest ih =>
    obtain ⟨hfirst, hl⟩ := List.pairwise_cons.1 hl
    refine List.pairwise_cons.2 ⟨fun s' hs' b b' hb hb' => ?_, ih hl⟩
    obtain ⟨f', hm, hf'⟩ := exists_of_mem_forall₂ hrest hs'
    rw [hf.bucket_eq hb, hf'.bucket_eq hb']
    exact hfirst f' hm

/-- The texts of a command, those of its own entity set apart. -/
def storedTexts (c : Command) (t : CommandTarget) (own : Bool) : List StoredPredicate :=
  (c.node.textFilters.entries.filter fun p => sameName p.1 t.entityKey == own).map fun p =>
    .text p.1 p.2

theorem mem_storedTexts {own : Bool} (h : s ∈ storedTexts c t own) :
    ∃ entity text, s = .text entity text ∧ sameName entity t.entityKey = own := by
  obtain ⟨p, hp, rfl⟩ := List.mem_map.1 h
  exact ⟨p.1, p.2, rfl, beq_iff_eq.1 (List.mem_filter.1 hp).2⟩

theorem storedTexts_perm (c : Command) (t : CommandTarget) :
    (storedTexts c t false ++ storedTexts c t true).Perm
      (c.node.textFilters.entries.map fun p => .text p.1 p.2) := by
  have hn : (fun p : String × String => sameName p.1 t.entityKey == true) =
      fun p => !(sameName p.1 t.entityKey == false) := by
    funext p
    cases sameName p.1 t.entityKey <;> rfl
  rw [storedTexts, storedTexts, ← List.map_append, hn]
  exact (List.filter_append_perm _ _).map _

theorem writes_storedTexts (own : Bool) :
    List.Forall₂ (a.Writes c t alone) (storedTexts c t own)
      ((((c.node.textFilters.entries.map fun p => a.textPredicate c t p.1 p.2).filter
        fun p => p.own?.isSome == own)).map (Predicate.piece alone)) := by
  have hfilter : (c.node.textFilters.entries.map fun p => a.textPredicate c t p.1 p.2).filter
        (fun p => p.own?.isSome == own) =
      (c.node.textFilters.entries.filter fun p => sameName p.1 t.entityKey == own).map fun p =>
        a.textPredicate c t p.1 p.2 := by
    rw [List.filter_map]
    simp only [Function.comp_def, own?_textPredicate]
  rw [hfilter, storedTexts, List.map_map, List.forall₂_map_left_iff, List.forall₂_map_right_iff,
    List.forall₂_same]
  exact fun p _ => writes_text p.1 p.2

theorem exists_routing (ht : a.target c = .ok t) (hf : a.analyze c = .ok filters)
    (hp : a.predicates c t filters = .ok predicates) {alone : Bool}
    (halone : alone = ((predicates.filterMap Predicate.part?).length +
      (predicates.filterMap Predicate.own?).length == 1)) :
    ∃ R : a.Routing c t, R.pieces = (Predicate.ownLast predicates).map (Predicate.piece alone) := by
  obtain ⟨root, others, hperm, hroot, hothers⟩ := exists_filed ht hf
  have hlength : (filterPieces ((Predicate.ownLast predicates).map (Predicate.piece alone))).length =
      (predicates.filterMap Predicate.part?).length + (predicates.filterMap Predicate.own?).length := by
    rw [Predicate.filterPieces_ownLast, List.length_append, List.length_map]
  rw [← hlength] at halone
  obtain ⟨own, related, hown, hrelated, rfl⟩ := predicates_eq_ok hp
  have hnone : ∀ p ∈ own.map .part ++ related, p.own? = none := by
    intro p hp
    rcases List.mem_append.1 hp with hp | hp
    · obtain ⟨text, -, rfl⟩ := List.mem_map.1 hp
      rfl
    · obtain ⟨f, -, hf⟩ := (mem_mapM_ok hrelated).1 hp
      exact own?_relatedPredicate hf
  have hrootWritten : List.Forall₂ (a.Writes c t alone) root
      ((own.map .part).map (Predicate.piece alone)) := by
    rw [List.map_map, List.forall₂_map_right_iff]
    exact forall₂_comp hroot.flip (mapM_eq_ok_iff.1 hown)
      fun _ _ _ hs htext => writes_root hs rfl htext
  have hothersWritten :
      List.Forall₂ (a.Writes c t alone) others (related.map (Predicate.piece alone)) := by
    have haway := (List.forall₂_and_left _ _).2 ⟨fun f hf => bucket_ne_of_mem_others hf, hothers⟩
    rw [List.forall₂_map_right_iff]
    exact forall₂_comp haway.flip (mapM_eq_ok_iff.1 hrelated)
      fun _ _ _ hs hr => writes_related hs.2 hs.1 hr
  refine ⟨⟨root, others, storedTexts c t false, storedTexts c t true,
    (Predicate.ownLast _).map (Predicate.piece alone), ?_, ?_, ?_, ?_, ?_, ?_, ?_⟩, rfl⟩
  · rw [List.append_assoc _ _ (storedTexts c t true)]
    exact hperm.append (storedTexts_perm c t)
  · rw [← halone, Predicate.ownLast_append hnone, Predicate.ownLast]
    simp only [List.map_append, List.append_assoc]
    exact List.rel_append hrootWritten (List.rel_append hothersWritten
      (List.rel_append (writes_storedTexts false) (writes_storedTexts true)))
  · intro s hs
    obtain ⟨e, -, hf⟩ := exists_of_mem_forall₂ hroot hs
    exact hf.filedUnder
  · intro s hs
    obtain ⟨f, hm, hf⟩ := exists_of_mem_forall₂ hothers hs
    exact ⟨f.1, bucket_ne_of_mem_others hm, hf.filedUnder⟩
  · exact pairwise_of_filed hothers (otherFragments_ordered t filters)
  · exact fun s hs => mem_storedTexts hs
  · exact fun s hs => mem_storedTexts hs

theorem Writes.filter_of_legacy (hd : a.dialect = .legacy) {p : Piece}
    (h : a.Writes c t alone s p) : ∃ text, p = .filter text := by
  have hn : ∀ path, a.nests c path = false := nests_of_legacy hd c
  cases h with
  | whole => exact ⟨_, rfl⟩
  | wrapped => exact ⟨_, rfl⟩
  | @nested entity b text part e hf hp =>
    rw [placement, hn] at hp
    split at hp <;> exact absurd hp (by decide)
  | own => exact ⟨_, rfl⟩
  | wrappedText => exact ⟨_, rfl⟩
  | @nestedText entity text h hnests => exact absurd hnests (by simp [hn])

theorem Routing.entries_of_legacy (hd : a.dialect = .legacy) (R : a.Routing c t) :
    R.pieces.filterMap Piece.entry? = [] := by
  refine List.filterMap_eq_nil_iff.2 fun p hp => ?_
  obtain ⟨s, -, hs⟩ := exists_of_mem_forall₂ R.written hp
  obtain ⟨text, rfl⟩ := hs.filter_of_legacy hd
  rfl

/-- The clauses behind `$expand`, which no stored predicate has a part in. -/
def trailingClauses (a : Adapter) (c : Command) (selects : List String) (custom : List Clause) :
    List Clause :=
  listClause "$select" (addMissing c.node.selects selects) ++ orderClause c.node.orderBy ++
    numberClause "$skip" c.node.skip ++ numberClause "$top" c.node.top ++
    (if c.node.includeCount then [a.countClause] else []) ++ custom ++ a.parameterClauses c

theorem clauses_eq_ok {clauses : List Clause} (h : a.clauses c filters = .ok clauses) :
    ∃ t predicates search items selects custom,
      a.target c = .ok t ∧ a.predicates c t filters = .ok predicates ∧
      a.searchClause c.node.search = .ok search ∧
      a.expand c.node.expands (Predicate.nestedTable predicates) = .ok (items, selects) ∧
      a.customOptions c.node.options = .ok custom ∧
      clauses = ((Predicate.filterText? predicates).map (Clause.mk "$filter")).toList ++
        search ++ listClause "$expand" items ++ a.trailingClauses c selects custom := by
  obtain ⟨t, ht, h⟩ := bind_eq_ok_iff.1 h
  obtain ⟨predicates, hp, h⟩ := bind_eq_ok_iff.1 h
  obtain ⟨search, hs, h⟩ := bind_eq_ok_iff.1 h
  obtain ⟨⟨items, selects⟩, he, h⟩ := bind_eq_ok_iff.1 h
  obtain ⟨custom, hcustom, h⟩ := bind_eq_ok_iff.1 h
  obtain rfl := Except.ok.inj h
  refine ⟨t, predicates, search, items, selects, custom, ht, hp, hs, he, hcustom, ?_⟩
  simp only [trailingClauses, List.append_assoc]

theorem clauses_of_compile {r : CompiledRequest} (h : a.compile c = .ok r) :
    ∃ filters, a.analyze c = .ok filters ∧ a.clauses c filters = .ok r.clauses := by
  obtain ⟨filters, hf, h⟩ := bind_eq_ok_iff.1 h
  obtain ⟨clauses, hc, h⟩ := bind_eq_ok_iff.1 h
  obtain ⟨path, -, h⟩ := bind_eq_ok_iff.1 h
  obtain ⟨method, -, h⟩ := bind_eq_ok_iff.1 h
  obtain ⟨texts, -, h⟩ := bind_eq_ok_iff.1 h
  obtain rfl := Except.ok.inj h
  exact ⟨filters, hf, hc⟩

theorem legacy_expand_eq_ok (hd : a.dialect = .legacy) {expands : List (String × ExpandOptions)}
    {nested : Table (List String)} {items selects : List String}
    (h : a.expand expands nested = .ok (items, selects)) :
    items = expands.map (·.1) ∧
      ∃ lists, expands.mapM a.legacyExpandItem = .ok lists ∧ selects = lists.flatten := by
  rw [expand, hd] at h
  obtain ⟨lists, hlists, h⟩ := bind_eq_ok_iff.1 h
  obtain ⟨rfl, rfl⟩ := Prod.mk.inj (Except.ok.inj h)
  exact ⟨rfl, lists, hlists, rfl⟩

theorem modern_expand_eq_ok (hd : a.dialect = .modern) {expands : List (String × ExpandOptions)}
    {nested : Table (List String)} {items selects : List String}
    (h : a.expand expands nested = .ok (items, selects)) :
    items = ExpandNode.texts (ExpandNode.ofItems expands nested.entries) ∧ selects = [] := by
  rw [expand, hd] at h
  obtain ⟨rfl, rfl⟩ := Prod.mk.inj (Except.ok.inj h)
  exact ⟨rfl, rfl⟩

/-- In the request of a command, each stored predicate is one piece of the root filter or, in the
modern syntax only, one filter of one expand item. Nothing else in the request is made of stored
predicates: the filter and the items have no further ones, and the other clauses are those of the
search, the selection, the order, the page, the count, the custom options and the parameters. -/
theorem compile_routing {r : CompiledRequest} (h : a.compile c = .ok r) :
    ∃ (t : CommandTarget) (R : a.Routing c t) (search custom : List Clause)
      (items selects : List String),
      a.target c = .ok t ∧ a.searchClause c.node.search = .ok search ∧
      a.customOptions c.node.options = .ok custom ∧
      r.clauses = filterClause (filterPieces R.pieces) ++ search ++ listClause "$expand" items ++
        a.trailingClauses c selects custom ∧
      match a.dialect with
      | .legacy => R.pieces.filterMap Piece.entry? = [] ∧ items = c.node.expands.map (·.1) ∧
          ∃ lists, c.node.expands.mapM a.legacyExpandItem = .ok lists ∧ selects = lists.flatten
      | .modern => selects = [] ∧ ∃ nested : Table (List String),
          items = ExpandNode.texts (ExpandNode.ofItems c.node.expands nested.entries) ∧
          ExpandNode.AllApart (ExpandNode.ofItems c.node.expands nested.entries) ∧
          (ExpandNode.entries (ExpandNode.ofItems c.node.expands nested.entries)).Perm
            (R.pieces.filterMap Piece.entry?) := by
  obtain ⟨filters, hf, hc⟩ := clauses_of_compile h
  obtain ⟨t, predicates, search, items, selects, custom, ht, hp, hs, he, hcustom, hclauses⟩ :=
    clauses_eq_ok hc
  obtain ⟨R, hR⟩ := exists_routing ht hf hp rfl
  refine ⟨t, R, search, custom, items, selects, ht, hs, hcustom, ?_, ?_⟩
  · rw [hclauses, hR, Predicate.filterText?_eq predicates rfl]
  · cases hd : a.dialect with
    | legacy => exact ⟨R.entries_of_legacy hd, legacy_expand_eq_ok hd he⟩
    | modern =>
      obtain ⟨hitems, hselects⟩ := modern_expand_eq_ok hd he
      obtain ⟨hperm, hapart⟩ := ExpandNode.entries_ofItems c.node.expands
        (Predicate.nestedTable predicates).entries
      refine ⟨hselects, _, hitems, hapart, hperm.trans ?_⟩
      rw [hR]
      exact (Predicate.entries_nestedTable_perm predicates _).trans
        (((Predicate.ownLast_perm predicates).symm.map _).filterMap _)

def lateOrders : Command :=
  (((((Command.forCollection "Orders").addFilter "Orders" (.binary .and
    (.binary .or (.reference "Paid") (.reference "Free"))
    (.binary .gt (.reference "OrderDetails/Quantity") (.value (.int32 7))))).setTextFilter
    "Orders" "Late").setTextFilter "Customer" "Customer/Known").setTextFilter
    "OrderDetails" "Damaged").update fun n =>
      { n with expands := [("orderdetails", .plain)], selects := ["Id"], top := some 3 }

def lateOrdersRequest : CompiledRequest where
  method := .get
  path := "Orders"
  clauses := [
    ⟨"$filter", "(Paid or Free) and Customer/any(Customer:Customer/Known) and (Late)"⟩,
    ⟨"$expand", "orderdetails($filter=Quantity gt 7 and Damaged)"⟩,
    ⟨"$select", "Id"⟩,
    ⟨"$top", "3"⟩]
  entityFilters :=
    (Table.empty.append "OrderDetails" ["Quantity gt 7"]).append "Orders" ["Paid or Free"]
  payload := none

set_option maxRecDepth 4000 in
theorem lateOrders_routing :
    (northwindAdapter .v4).compile lateOrders = .ok lateOrdersRequest ∧
      ∃ (t : CommandTarget) (R : (northwindAdapter .v4).Routing lateOrders t)
        (nested : Table (List String)),
        R.pieces.length = 5 ∧
        lateOrdersRequest.clauses = filterClause (filterPieces R.pieces) ++
          listClause "$expand" (ExpandNode.texts
            (ExpandNode.ofItems [("orderdetails", .plain)] nested.entries)) ++
          [⟨"$select", "Id"⟩, ⟨"$top", "3"⟩] ∧
        (ExpandNode.entries (ExpandNode.ofItems [("orderdetails", .plain)] nested.entries)).Perm
          (R.pieces.filterMap Piece.entry?) := by
  have h : (northwindAdapter .v4).compile lateOrders = .ok lateOrdersRequest := rfl
  obtain ⟨t, R, search, custom, items, selects, -, hsearch, hcustom, hclauses, rfl, nested, rfl, -,
    hperm⟩ := compile_routing h
  have hlength : R.pieces.length = 5 := R.written.length_eq.symm.trans R.complete.length_eq
  obtain rfl : ([] : List Clause) = search := Except.ok.inj hsearch
  obtain rfl : ([] : List Clause) = custom := Except.ok.inj hcustom
  rw [List.append_nil] at hclauses
  exact ⟨h, t, R, nested, hlength, hclauses, hperm⟩

end Adapter

end ODataClient
