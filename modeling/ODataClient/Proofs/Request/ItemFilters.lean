import Mathlib.Data.List.Permutation
import ODataClient.Proofs.Expr.Conjunctions
import ODataClient.Proofs.Request.Routing

/-! The filter of an expand item. It has the predicates that are nested into the item, each as it is
written for itself, with `and` between them. An expression is in parentheses where it binds more
loosely than `and`; a text filter is not. -/

namespace ODataClient

namespace ExpandNode

/-- The node that a path leads to, with its names in lower case. -/
inductive Located : List ExpandNode → List String → ExpandNode → Prop
  | here {nodes : List ExpandNode} {n : ExpandNode} (h : n ∈ nodes) :
      Located nodes [lowerAscii n.name] n
  | inside {nodes : List ExpandNode} {n m : ExpandNode} {item : List String} (h : n ∈ nodes)
      (hm : Located n.children item m) : Located nodes (lowerAscii n.name :: item) m

theorem exists_of_mem_entries {nodes : List ExpandNode} {p : List String × String}
    (h : p ∈ entries nodes) : ∃ n ∈ nodes, ∃ item, p.1 = lowerAscii n.name :: item := by
  induction nodes with
  | nil => rw [entries] at h; exact absurd h List.not_mem_nil
  | cons n nodes ih =>
    rw [entries_cons] at h
    rcases List.mem_append.1 h with h | h
    · obtain ⟨q, -, rfl⟩ := List.mem_map.1 h
      exact ⟨n, List.mem_cons_self, q.1, rfl⟩
    · obtain ⟨m, hm, hp⟩ := ih h
      exact ⟨m, List.mem_cons_of_mem n hm, hp⟩

theorem filter_under (name : String) (item : List String) (l : List (List String × String)) :
    (under name l).filter (fun p => p.1 = lowerAscii name :: item) =
      under name (l.filter fun p => p.1 = item) := by
  rw [under, under, List.filter_map]
  congr 2
  funext p
  simp

theorem filter_entries {nodes : List ExpandNode} (hn : AllApart nodes) {n : ExpandNode}
    (h : n ∈ nodes) (item : List String) :
    (entries nodes).filter (fun p => p.1 = lowerAscii n.name :: item) =
      under n.name (n.inside.filter fun p => p.1 = item) := by
  have hnone : ∀ {nodes : List ExpandNode} {name : String},
      (∀ m ∈ nodes, lowerAscii m.name ≠ lowerAscii name) →
      (entries nodes).filter (fun p => p.1 = lowerAscii name :: item) = [] := by
    intro nodes name hne
    refine List.filter_eq_nil_iff.2 fun p hp he => ?_
    obtain ⟨m, hm, rest, hrest⟩ := exists_of_mem_entries hp
    rw [hrest, decide_eq_true_eq] at he
    exact hne m hm (List.cons.inj he).1
  induction nodes with
  | nil => exact absurd h List.not_mem_nil
  | cons m nodes ih =>
    obtain ⟨-, hne, hn⟩ := hn
    rw [entries_cons, List.filter_append]
    rcases List.mem_cons.1 h with rfl | h
    · rw [filter_under, hnone hne, List.append_nil]
    · have hm : (under m.name m.inside).filter (fun p => p.1 = lowerAscii n.name :: item) = [] := by
        refine List.filter_eq_nil_iff.2 fun p hp he => ?_
        obtain ⟨q, -, rfl⟩ := List.mem_map.1 hp
        exact hne n h (List.cons.inj (of_decide_eq_true he)).1.symm
      rw [hm, List.nil_append, ih hn h]

theorem allApart_children {nodes : List ExpandNode} (hn : AllApart nodes) {n : ExpandNode}
    (h : n ∈ nodes) : AllApart n.children := by
  induction nodes with
  | nil => exact absurd h List.not_mem_nil
  | cons m nodes ih =>
    obtain ⟨hm, -, hn⟩ := hn
    rcases List.mem_cons.1 h with rfl | h
    · exact (apart_iff n).1 hm
    · exact ih hn h

theorem filter_inside (n : ExpandNode) (item : List String) :
    n.inside.filter (fun p => p.1 = item) =
      (n.filters.map ([], ·)).filter (fun p => p.1 = item) ++
        (entries n.children).filter fun p => p.1 = item := by
  rw [inside_eq, List.filter_append]

/-- Among the filters of a tree, those with the path of a node are the filters of the node. -/
theorem filter_entries_of_located {nodes : List ExpandNode} (hn : AllApart nodes) {item : List String}
    {n : ExpandNode} (h : Located nodes item n) :
    (entries nodes).filter (fun p => p.1 = item) = n.filters.map (item, ·) := by
  induction h with
  | @here nodes n h =>
    have hchildren : (entries n.children).filter (fun p => p.1 = []) = [] := by
      refine List.filter_eq_nil_iff.2 fun p hp he => ?_
      obtain ⟨m, -, rest, hrest⟩ := exists_of_mem_entries hp
      rw [of_decide_eq_true he] at hrest
      exact List.cons_ne_nil _ _ hrest.symm
    rw [filter_entries hn h, filter_inside, hchildren, List.append_nil, List.filter_eq_self.2, under,
      List.map_map]
    · rfl
    · intro p hp
      obtain ⟨text, -, rfl⟩ := List.mem_map.1 hp
      rfl
  | @inside nodes n m item h hm ih =>
    have hfilters : (n.filters.map (([] : List String), ·)).filter (fun p => p.1 = item) = [] := by
      refine List.filter_eq_nil_iff.2 fun p hp he => ?_
      obtain ⟨text, -, rfl⟩ := List.mem_map.1 hp
      have he : [] = item := of_decide_eq_true he
      cases hm <;> exact List.cons_ne_nil _ _ he.symm
    rw [filter_entries hn h, filter_inside, hfilters, List.nil_append, ih (allApart_children hn h),
      under, List.map_map]
    rfl

end ExpandNode

theorem exists_forall₂_filter {α β : Type} {R : α → β → Prop} {l : List α} {bs : List β}
    (h : List.Forall₂ R l bs) (p : β → Bool) :
    ∃ kept others, (kept ++ others).Perm l ∧ List.Forall₂ R kept (bs.filter p) ∧
      List.Forall₂ R others (bs.filter fun b => !p b) := by
  induction h with
  | nil => exact ⟨[], [], .refl [], .nil, .nil⟩
  | @cons a b l bs hab hrest ih =>
    obtain ⟨kept, others, hperm, hkept, hothers⟩ := ih
    cases hb : p b with
    | true => exact ⟨a :: kept, others, hperm.cons a, by simpa [hb] using ⟨hab, hkept⟩,
        by simpa [hb] using hothers⟩
    | false => exact ⟨kept, a :: others, List.perm_middle.trans (hperm.cons a),
        by simpa [hb] using hkept, by simpa [hb] using ⟨hab, hothers⟩⟩

namespace Adapter

variable {a : Adapter} {c : Command} {t : CommandTarget} {filters : EntityFilters}
  {predicates : List Predicate} {s : StoredPredicate} {item : List String} {alone : Bool}

/-- The predicate belongs to the filter of an expand item: a fragment that is nested, or a text of
another entity set that is expanded. -/
def NestsInto (a : Adapter) (c : Command) (t : CommandTarget) (item : List String) :
    StoredPredicate → Prop
  | .part entity part => ∃ b e, a.fragment t entity part = .ok (b, e) ∧
      a.placement c t b e = .nested ∧ itemPath b = item
  | .text entity _ => sameName entity t.entityKey = false ∧ a.nests c entity = true ∧
      itemPath entity = item

theorem nestsInto_iff {p : Piece} (h : a.Writes c t alone s p) :
    a.NestsInto c t item s ↔ ∃ text, p = .entry item text := by
  have hpart : ∀ {entity part b e place}, a.fragment t entity part = .ok (b, e) →
      a.placement c t b e = place → a.NestsInto c t item (.part entity part) →
      place = .nested ∧ itemPath b = item := by
    rintro entity part b e place hf hp ⟨b', e', hf', hp', hi⟩
    obtain ⟨rfl, rfl⟩ := Prod.mk.inj (Except.ok.inj (hf.symm.trans hf'))
    exact ⟨hp.symm.trans hp', hi⟩
  cases h with
  | whole hf hp hr =>
    refine ⟨fun hn => absurd (hpart hf hp hn).1 (by decide), ?_⟩
    rintro ⟨text, he⟩
    exact Piece.noConfusion he
  | wrapped hf hp hr =>
    refine ⟨fun hn => absurd (hpart hf hp hn).1 (by decide), ?_⟩
    rintro ⟨text, he⟩
    exact Piece.noConfusion he
  | nested hf hp hr =>
    refine ⟨fun hn => ⟨_, by rw [(hpart hf hp hn).2]⟩, ?_⟩
    rintro ⟨text, he⟩
    exact ⟨_, _, hf, hp, (Piece.entry.inj he).1⟩
  | own h =>
    refine ⟨fun hn => absurd h (Bool.eq_false_iff.1 hn.1), ?_⟩
    rintro ⟨text, he⟩
    exact Piece.noConfusion he
  | wrappedText h hn =>
    refine ⟨fun hn' => absurd hn'.2.1 hn, ?_⟩
    rintro ⟨text, he⟩
    exact Piece.noConfusion he
  | nestedText h hn =>
    refine ⟨fun hn' => ⟨_, by rw [hn'.2.2]⟩, ?_⟩
    rintro ⟨text, he⟩
    exact ⟨Bool.eq_false_iff.2 h, hn, (Piece.entry.inj he).1⟩

/-- What a predicate says in an item: the expression of a fragment, or a text as a phrase. Their atoms
are spelled by `f`. -/
inductive SaysThere {α : Type} (a : Adapter) (t : CommandTarget) (f : α → String) :
    StoredPredicate → Conjunct α → Prop
  | fragment {entity b : String} {part e : Expr} {u : Formula α}
      (hf : a.fragment t entity part = .ok (b, e))
      (hu : u.map f = e.formula.map a.renderer.atomText) :
      SaysThere a t f (.part entity part) (.rendered u)
  | text {entity text : String} {p : Phrase α}
      (hp : Token.spelled f p.tokens = unqualify (rangeVariable entity) text) :
      SaysThere a t f (.text entity text) (.written p)

theorem spelled_of_conjunct {α : Type} {f : α → String} {e : Expr} {text : String} {u : Formula α}
    (h : a.conjunct e = .ok text) (hu : u.map f = e.formula.map a.renderer.atomText) :
    Token.spelled f (Conjunct.rendered u).tokens = text := by
  have hmap : ∀ {β : Type} (g : β → String) (v : Formula β),
      Token.spelled g (Conjunct.rendered v).tokens =
        Token.spelled id (Conjunct.rendered (v.map g)).tokens := by
    intro β g v
    rw [Conjunct.tokens, Conjunct.tokens, Formula.tokens_map, Formula.bracketed_map,
      Token.spelled_map]
    rfl
  obtain ⟨inner, hr, rfl⟩ := map_eq_ok_iff.1 h
  rw [hmap, hu, ← hmap, Conjunct.tokens, Renderer.spelled_bracketed, Renderer.spelled_of_render hr]

theorem spelled_of_saysThere {α : Type} {f : α → String} {x : Conjunct α} {text : String}
    (hd : a.dialect = .modern) (hw : a.Writes c t alone s (.entry item text))
    (h : a.SaysThere t f s x) : Token.spelled f x.tokens = text := by
  cases hw with
  | nested hf hp hr =>
    cases h with
    | fragment hf' hu =>
      obtain ⟨rfl, rfl⟩ := Prod.mk.inj (Except.ok.inj (hf.symm.trans hf'))
      have hrel : ∀ b e, a.relative b e = e := fun b e => by rw [relative, hd]
      rw [hrel] at hr
      exact spelled_of_conjunct hr hu
  | nestedText h' hn =>
    cases h with
    | text hp => exact hp

theorem filter_entries_eq (pieces : List Piece) (item : List String) :
    pieces.filter (fun p => p.entry?.any fun q => q.1 = item) =
      ((pieces.filterMap Piece.entry?).filter fun q => q.1 = item).map fun q => .entry item q.2 := by
  induction pieces with
  | nil => rfl
  | cons p pieces ih =>
    cases p with
    | filter text =>
      have hnone : Piece.entry? (.filter text) = none := rfl
      rw [List.filterMap_cons_none hnone, ← ih]
      exact List.filter_cons_of_neg (by simp [hnone])
    | entry path text =>
      have hsome : Piece.entry? (.entry path text) = some (path, text) := rfl
      rw [List.filterMap_cons_some hsome]
      by_cases hp : path = item
      · subst hp
        rw [List.filter_cons_of_pos (by simp [hsome]), List.filter_cons_of_pos (by simp),
          List.map_cons, ih]
      · rw [List.filter_cons_of_neg (by simp [hsome, hp]), List.filter_cons_of_neg (by simp [hp]), ih]

/-- The filters of an item are written by the predicates that belong to it, and by all of them. -/
theorem exists_stored (R : a.Routing c t) {nodes : List ExpandNode}
    (hentries : (ExpandNode.entries nodes).Perm (R.pieces.filterMap Piece.entry?))
    (hapart : ExpandNode.AllApart nodes) {n : ExpandNode} (hn : ExpandNode.Located nodes item n) :
    ∃ stored others, (stored ++ others).Perm c.storedPredicates ∧
      (∀ s ∈ stored, a.NestsInto c t item s) ∧ (∀ s ∈ others, ¬ a.NestsInto c t item s) ∧
      List.Forall₂ (fun s text => a.Writes c t ((filterPieces R.pieces).length == 1) s
        (.entry item text)) stored n.filters := by
  obtain ⟨kept, others, hperm, hkept, hothers⟩ := exists_forall₂_filter R.written
    fun p => p.entry?.any fun q => q.1 = item
  rw [filter_entries_eq, List.forall₂_map_right_iff] at hkept
  have hfilters : (n.filters.map (item, ·)).Perm
      ((R.pieces.filterMap Piece.entry?).filter fun q => q.1 = item) := by
    rw [← ExpandNode.filter_entries_of_located hapart hn]
    exact hentries.filter _
  obtain ⟨stored, hstored, hsame⟩ := List.perm_comp_forall₂ hfilters hkept.flip
  rw [List.forall₂_map_left_iff] at hstored
  have hwritten : List.Forall₂ (fun s text => a.Writes c t ((filterPieces R.pieces).length == 1) s
      (.entry item text)) stored n.filters := hstored.flip
  refine ⟨stored, others, ((hsame.append_right others).trans hperm).trans R.complete, ?_, ?_, hwritten⟩
  · intro s hs
    obtain ⟨text, -, hw⟩ := exists_of_mem_forall₂ hwritten.flip hs
    exact (nestsInto_iff hw).2 ⟨text, rfl⟩
  · intro s hs hnests
    obtain ⟨p, hp, hw⟩ := exists_of_mem_forall₂ hothers.flip hs
    obtain ⟨text, rfl⟩ := (nestsInto_iff hw).1 hnests
    simpa [ Piece.entry?] using (List.mem_filter.1 hp).2

theorem spelled_joined {α : Type} (f : α → String) (x : Conjunct α) (xs : List (Conjunct α)) :
    Token.spelled f (Conjunct.joined x xs) =
      String.intercalate " and " ((x :: xs).map fun y => Token.spelled f y.tokens) := by
  induction xs generalizing x with
  | nil => simp [Conjunct.joined]
  | cons y xs ih =>
    have hstep : Conjunct.joined x (y :: xs) = x.tokens ++ .joint .and :: Conjunct.joined y xs := by
      simp [Conjunct.joined]
    have hne : ((y :: xs).map fun z => Token.spelled f z.tokens) ≠ [] := by simp
    have hand : (Token.joint .and).text f = " and " :=
      show " " ++ Operator.and.keyword ++ " " = " and " by decide
    rw [hstep, Token.spelled_append, Token.spelled, ih, List.map_cons (a := x),
      String.intercalate_cons_of_ne_nil hne, hand, String.append_assoc]

end Adapter

/-- The items of `$expand` with the filters that are nested into them. -/
def Command.expandTree (c : Command) (predicates : List Predicate) : List ExpandNode :=
  ExpandNode.ofItems c.node.expands (Predicate.nestedTable predicates).entries

namespace Adapter

/-- In a request of the modern syntax, the filter of an expand item joins the predicates that belong
to the item. It is read as a filter that has the value of their conjunction, for all values of the
atoms, exactly when every fragment keeps its value by itself, and none of several predicates is a
text with an `or` outside of its parentheses. -/
theorem compile_itemFilter_iff {a : Adapter} {c : Command} {r : CompiledRequest}
    (hd : a.dialect = .modern) (h : a.compile c = .ok r) :
    ∃ t filters predicates, a.target c = .ok t ∧ a.analyze c = .ok filters ∧
      a.predicates c t filters = .ok predicates ∧
      (∃ before after, r.clauses =
        before ++ listClause "$expand" (ExpandNode.texts (c.expandTree predicates)) ++ after) ∧
      ∀ item n, ExpandNode.Located (c.expandTree predicates) item n →
        ∃ stored others, (stored ++ others).Perm c.storedPredicates ∧
          (∀ s ∈ stored, a.NestsInto c t item s) ∧ (∀ s ∈ others, ¬ a.NestsInto c t item s) ∧
          n.filters.length = stored.length ∧
          ∀ (α : Type) (f : α → String) (x : Conjunct α) (xs : List (Conjunct α)),
            List.Forall₂ (a.SaysThere t f) stored (x :: xs) → (∀ y ∈ x :: xs, y.WellFormed) →
            (Conjunct.meant x xs).atoms.Nodup →
            String.intercalate " and " n.filters = Token.spelled f (Conjunct.joined x xs) ∧
            ∃ back, Reader.read (Conjunct.joined x xs) = some back ∧
              ((∀ σ : α → Scalar, (back.map σ).value = ((Conjunct.meant x xs).map σ).value) ↔
                ((∃ σ : α → Scalar, ((Conjunct.meant x xs).map σ).value ≠ none) →
                  (∀ y ∈ x :: xs, y.isKept = true) ∧
                    (xs = [] ∨ ∀ y ∈ x :: xs, y.isDisjunction = false))) := by
  obtain ⟨filters, hf, hc⟩ := clauses_of_compile h
  obtain ⟨t, predicates, search, items, selects, custom, ht, hp, -, he, -, hclauses⟩ :=
    clauses_eq_ok hc
  obtain ⟨R, hR⟩ := exists_routing ht hf hp rfl
  obtain ⟨rfl, -⟩ := modern_expand_eq_ok hd he
  obtain ⟨hperm, hapart⟩ := ExpandNode.entries_ofItems c.node.expands
    (Predicate.nestedTable predicates).entries
  have hentries : (ExpandNode.entries (c.expandTree predicates)).Perm
      (R.pieces.filterMap Piece.entry?) := by
    rw [hR]
    exact (hperm.trans (Predicate.entries_nestedTable_perm predicates _)).trans
      (((Predicate.ownLast_perm predicates).symm.map _).filterMap _)
  refine ⟨t, filters, predicates, ht, hf, hp, ⟨_, _, hclauses⟩, fun item n hn => ?_⟩
  obtain ⟨stored, others, hcomplete, hstored, hothers, hwritten⟩ := exists_stored R hentries hapart hn
  refine ⟨stored, others, hcomplete, hstored, hothers, hwritten.length_eq.symm,
    fun α f x xs hsaid hw hatoms => ⟨?_, Conjunct.read_joined_iff hw hatoms⟩⟩
  have htexts : (x :: xs).map (fun y => Token.spelled f y.tokens) = n.filters := by
    rw [← List.forall₂_eq_eq_eq, List.forall₂_map_left_iff]
    exact forall₂_comp hsaid.flip hwritten fun y s text hs hw => spelled_of_saysThere hd hw hs
  rw [spelled_joined, htexts]

/-- Orders with their details, and filters of both kinds on the details. -/
def detailedOrders (text : String) : Command :=
  (((Command.forCollection "Orders").addFilter "Orders" (.binary .gt
    (.reference "OrderDetails/Quantity") (.value (.int32 5)))).setTextFilter "OrderDetails" text).update
      fun n => { n with expands := [("OrderDetails", .plain)] }

def detailedOrdersRequest (filter : String) : CompiledRequest where
  method := .get
  path := "Orders"
  clauses := [⟨"$expand", "OrderDetails($filter=" ++ filter ++ ")"⟩]
  entityFilters := Table.empty.append "OrderDetails" ["Quantity gt 5"]
  payload := none

def quantityConjunct : Conjunct (Nat × String) :=
  .rendered (.binary .gt (.atom (0, "Quantity")) (.atom (1, "5")))

def discountPhrase : Phrase (Nat × String) :=
  .joint .gt (.operand (2, "Discount")) (.operand (3, "0"))

def discountAndShipped : Conjunct (Nat × String) :=
  .written (.joint .and discountPhrase (.operand (4, "Shipped")))

theorem saysThere_quantity : (northwindAdapter .v4).SaysThere ⟨some "Orders", "Orders"⟩ Prod.snd
    (.part "Orders" (.binary .gt (.reference "OrderDetails/Quantity") (.value (.int32 5))))
    quantityConjunct :=
  .fragment (b := "OrderDetails") (e := .binary .gt (.reference "Quantity") (.value (.int32 5))) rfl rfl

theorem saysThere_discountAndShipped : (northwindAdapter .v4).SaysThere ⟨some "Orders", "Orders"⟩
    Prod.snd (.text "OrderDetails" "OrderDetails/Discount gt 0 and OrderDetails/Shipped")
    discountAndShipped := .text rfl

theorem wellFormed_conjuncts :
    quantityConjunct.WellFormed ∧ discountAndShipped.WellFormed :=
  ⟨⟨by decide, trivial, trivial⟩, by decide, by decide, by decide,
    ⟨by decide, by decide, by decide, trivial, trivial⟩, trivial⟩

theorem compile_discountAndShipped :
    (northwindAdapter .v4).compile
        (detailedOrders "OrderDetails/Discount gt 0 and OrderDetails/Shipped") =
      .ok (detailedOrdersRequest "Quantity gt 5 and Discount gt 0 and Shipped") ∧
    ∃ (x y : Conjunct (Nat × String)) (back : Formula (Nat × String)),
      [x, y].Perm [quantityConjunct, discountAndShipped] ∧
      Token.spelled Prod.snd (Conjunct.joined x [y]) =
        "Quantity gt 5 and Discount gt 0 and Shipped" ∧
      Reader.read (Conjunct.joined x [y]) = some back ∧
      ∀ σ : Nat × String → Scalar, (back.map σ).value = ((Conjunct.meant x [y]).map σ).value := by
  have hcompile : (northwindAdapter .v4).compile
      (detailedOrders "OrderDetails/Discount gt 0 and OrderDetails/Shipped") =
    .ok (detailedOrdersRequest "Quantity gt 5 and Discount gt 0 and Shipped") := rfl
  refine ⟨hcompile, ?_⟩
  obtain ⟨t, filters, predicates, ht, hf, hp, -, hitems⟩ := compile_itemFilter_iff rfl hcompile
  obtain rfl : (⟨some "Orders", "Orders"⟩ : CommandTarget) = t := Except.ok.inj ht
  obtain rfl := Except.ok.inj hf
  obtain rfl := Except.ok.inj hp
  obtain ⟨stored, others, hperm, hstored, -, hlength, hread⟩ :=
    hitems ["orderdetails"] ⟨"OrderDetails", .plain, ["Quantity gt 5", "Discount gt 0 and Shipped"], []⟩
      (.here List.mem_cons_self)
  have hlength' := hperm.length_eq
  rw [List.length_append, ← hlength] at hlength'
  obtain rfl : others = [] := List.length_eq_zero_iff.1 (Nat.add_left_cancel hlength')
  obtain ⟨hx, hy⟩ := wellFormed_conjuncts
  rw [List.append_nil] at hperm
  rcases List.perm_pair.1 hperm with rfl | rfl
  · obtain ⟨hspelled, back, hback, hiff⟩ := hread _ Prod.snd quantityConjunct [discountAndShipped]
      (.cons saysThere_quantity (.cons saysThere_discountAndShipped .nil))
      (List.forall_mem_cons.2 ⟨hx, List.forall_mem_singleton.2 hy⟩) (by decide)
    exact ⟨_, _, back, .refl _, hspelled.symm, hback, hiff.2 fun _ => by decide⟩
  · obtain ⟨hspelled, back, hback, hiff⟩ := hread _ Prod.snd discountAndShipped [quantityConjunct]
      (.cons saysThere_discountAndShipped (.cons saysThere_quantity .nil))
      (List.forall_mem_cons.2 ⟨hy, List.forall_mem_singleton.2 hx⟩) (by decide)
    exact ⟨_, _, back, .swap _ _ _, hspelled.symm, hback, hiff.2 fun _ => by decide⟩

def discountOrPrice : Conjunct (Nat × String) :=
  .written (.joint .or discountPhrase
    (.joint .gt (.operand (4, "UnitPrice")) (.operand (5, "10"))))

/-- The details with a price above ten are in the item whatever their quantity is. -/
theorem compile_discountOrPrice :
    (northwindAdapter .v4).compile
        (detailedOrders "OrderDetails/Discount gt 0 or OrderDetails/UnitPrice gt 10") =
      .ok (detailedOrdersRequest "Quantity gt 5 and Discount gt 0 or UnitPrice gt 10") ∧
    List.Forall₂ ((northwindAdapter .v4).SaysThere ⟨some "Orders", "Orders"⟩ Prod.snd)
      (detailedOrders "OrderDetails/Discount gt 0 or OrderDetails/UnitPrice gt 10").storedPredicates
      [quantityConjunct, discountOrPrice] ∧
    Token.spelled Prod.snd (Conjunct.joined quantityConjunct [discountOrPrice]) =
      "Quantity gt 5 and Discount gt 0 or UnitPrice gt 10" ∧
    ∃ (σ : Nat × String → Scalar) (back : Formula (Nat × String)),
      Reader.read (Conjunct.joined quantityConjunct [discountOrPrice]) = some back ∧
      (back.map σ).value = some (.bool true) ∧
      ((Conjunct.meant quantityConjunct [discountOrPrice]).map σ).value = some (.bool false) :=
  ⟨rfl, .cons saysThere_quantity (.cons (.text rfl) .nil), rfl,
    fun a => .int ([1, 5, 1, 0, 11, 10].getD a.1 0), _, rfl, rfl, rfl⟩

end Adapter

end ODataClient
