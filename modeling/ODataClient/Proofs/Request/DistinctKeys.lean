import ODataClient.Proofs.Expr.Operands
import ODataClient.Proofs.Request.Casts
import ODataClient.Proofs.Request.KeyPredicates

/-! Different keys have different addresses. Two commands that are the same but for the values of
their keys write the same names, marks and parentheses, so their paths part at the first value in
which they differ. -/

namespace ODataClient

/-- Keys with the same names, if any, whose values are related place by place. -/
def Keys.Alike (P : Value → Value → Prop) : Keys → Keys → Prop
  | .none, .none => True
  | .positional values, .positional values' => List.Forall₂ P values values'
  | .named pairs, .named pairs' =>
    List.Forall₂ (fun p q => p.1 = q.1 ∧ P p.2 q.2) pairs pairs'
  | _, _ => False

theorem eq_of_map_fst_snd {α β : Type} {l l' : List (α × β)} (hfst : l.map (·.1) = l'.map (·.1))
    (hsnd : l.map (·.2) = l'.map (·.2)) : l = l' := by
  rw [← List.zip_unzip l, ← List.zip_unzip l', List.unzip_eq_map, List.unzip_eq_map]
  exact congrArg₂ List.zip hfst hsnd

namespace Keys

variable {P : Value → Value → Prop} {keys keys' : Keys}

theorem Alike.eq_none (h : Keys.none.Alike P keys) : keys = .none := by
  cases keys with
  | none => rfl
  | _ => exact h.elim

theorem Alike.eq_none_of_right (h : keys.Alike P .none) : keys = .none := by
  cases keys with
  | none => rfl
  | _ => exact h.elim

theorem Alike.isSingle_eq (h : keys.Alike P keys') : keys.isSingle = keys'.isSingle := by
  cases keys <;> cases keys'
  case positional.positional =>
    cases h with
    | nil => rfl
    | cons _ hvalues =>
      cases hvalues <;> rfl
  all_goals first | rfl | exact h.elim

theorem Alike.eq_of_values_eq (h : keys.Alike P keys') (hv : keys.values = keys'.values) :
    keys = keys' := by
  cases keys <;> cases keys'
  case none.none => rfl
  case positional.positional => exact congrArg positional hv
  case named.named pairs pairs' =>
    have hnames : List.Forall₂ (· = ·) (pairs.map (·.1)) (pairs'.map (·.1)) :=
      List.rel_map (fun _ _ hpq => hpq.1) h
    rw [List.forall₂_eq_eq_eq] at hnames
    exact congrArg named (eq_of_map_fst_snd hnames hv)
  all_goals exact h.elim

end Keys

def CommandNode.Alike (P : Value → Value → Prop) (n n' : CommandNode) : Prop :=
  n' = { n with keys := n'.keys } ∧ n.keys.Alike P n'.keys

/-- The same commands but for the values of the keys along their chains. -/
def Command.Alike (P : Value → Value → Prop) (c c' : Command) : Prop :=
  List.Forall₂ (CommandNode.Alike P) c.chain c'.chain

theorem Command.Alike.node {P : Value → Value → Prop} {c c' : Command} (h : c.Alike P c') :
    c.node.Alike P c'.node := by
  have hreverse := List.forall₂_reverse_iff.2 h
  rw [Command.chain, Command.chain, List.reverse_concat, List.reverse_concat] at hreverse
  cases hreverse with
  | cons hnode _ => exact hnode

theorem Command.chain_inj {c c' : Command} (h : c.chain = c'.chain) : c = c' := by
  obtain ⟨hancestors, hnode⟩ := List.append_inj' h rfl
  cases c
  cases c'
  simp_all

theorem forall₂_zip_of_forall₂ {P : Value → Value → Prop} {values values' : List Value}
    (h : List.Forall₂ P values values') (names : List String) :
    List.Forall₂ (fun p q => p.1 = q.1 ∧ P p.2 q.2) (names.zip values) (names.zip values') := by
  induction h generalizing names with
  | nil => simp
  | cons hv _ ih =>
    cases names with
    | nil => exact .nil
    | cons name names => exact .cons ⟨rfl, hv⟩ (ih names)

namespace Adapter

variable {a : Adapter} {collection : Option String} {keys keys' : Keys} {text text' : String}
  {P : Value → Value → Prop} {n n' : CommandNode} {p p' q q' : Address} {r r' : List Char}

theorem toldApart_keyLiteral {v w : Value} (hc : a.style.Comparable v w) :
    ToldApart a.keyLiteral v w := LiteralStyle.toldApart_written true hc

theorem toldApart_namedLiteral {x y : String × Value} (hname : x.1 = y.1)
    (hc : a.style.Comparable x.2 y.2) : ToldApart a.namedLiteral x y := by
  obtain ⟨name, v⟩ := x
  obtain ⟨_, w⟩ := y
  obtain rfl : name = _ := hname
  intro r r' hr hr' h
  simp only [namedLiteral, String.toList_append, List.append_assoc] at h
  obtain ⟨rfl, hrest⟩ := toldApart_keyLiteral hc r r' hr hr'
    (List.append_cancel_left (List.append_cancel_left h))
  exact ⟨rfl, hrest⟩

theorem toldApart_parenthesized {α : Type} {item : α → String} {l l' : List α}
    (ht : List.Forall₂ (ToldApart item) l l')
    (h : (parenthesized (l.map item)).toList ++ r = (parenthesized (l'.map item)).toList ++ r') :
    l = l' ∧ r = r' := by
  simp only [parenthesized, String.toList_append, List.append_assoc] at h
  exact toldApart_intercalate ht (List.append_cancel_left h)

theorem forall₂_keyPairs (a : Adapter) (collection : Option String)
    (h : keys.Alike P keys') :
    List.Forall₂ (fun p q => p.1 = q.1 ∧ P p.2 q.2) (a.keyPairs collection keys)
      (a.keyPairs collection keys') := by
  cases keys <;> cases keys'
  case none.none => exact .nil
  case named.named => exact h
  case positional.positional =>
    cases h with
    | nil =>
      simp only [keyPairs]
      split
      · exact forall₂_zip_of_forall₂ .nil _
      · exact .nil
    | cons hv hvalues =>
      cases hvalues with
      | nil => exact .nil
      | cons hw hvalues =>
        simp only [keyPairs]
        split
        · exact forall₂_zip_of_forall₂ (.cons hv (.cons hw hvalues)) _
        · exact .nil
  all_goals exact h.elim

/-- Several positional values are written with the names of the same properties. -/
theorem toldApart_keyPredicate (ha : keys.Alike a.style.Comparable keys')
    (h : a.keyPredicate collection keys = .ok text)
    (h' : a.keyPredicate collection keys' = .ok text')
    (htext : text.toList ++ r = text'.toList ++ r') : keys = keys' ∧ r = r' := by
  by_cases hnone : keys = .none
  · subst hnone
    obtain rfl := ha.eq_none
    rw [h] at h'
    obtain rfl := Except.ok.inj h'
    exact ⟨rfl, List.append_cancel_left htext⟩
  · have hnone' : keys' ≠ .none := fun he => hnone (he ▸ ha).eq_none_of_right
    have hsingle := ha.isSingle_eq
    rcases eq_of_keyPredicate h hnone with ⟨v, rfl, rfl⟩ | ⟨hlist, hvalues, rfl⟩ <;>
      rcases eq_of_keyPredicate h' hnone' with ⟨w, rfl, rfl⟩ | ⟨hlist', hvalues', rfl⟩
    · cases ha with
      | cons hvw _ =>
        have ht : List.Forall₂ (ToldApart a.keyLiteral) [v] [w] :=
          .cons (toldApart_keyLiteral hvw) .nil
        exact (toldApart_parenthesized ht htext).imp_left (congrArg Keys.positional)
    · exact Bool.noConfusion (hsingle.trans hlist')
    · exact Bool.noConfusion (hlist.symm.trans hsingle)
    · have ht : List.Forall₂ (ToldApart a.namedLiteral) (a.keyPairs collection keys)
          (a.keyPairs collection keys') :=
        (forall₂_keyPairs a collection ha).imp fun _ _ hpq => toldApart_namedLiteral hpq.1 hpq.2
      obtain ⟨hpairs, hr⟩ := toldApart_parenthesized ht htext
      exact ⟨ha.eq_of_values_eq (by rw [← hvalues, ← hvalues', hpairs]), hr⟩

theorem values_eq_of_literals_eq {values values' : List Value}
    (hv : ∀ v ∈ values, v.isDiscrete = true) (hv' : ∀ v ∈ values', v.isDiscrete = true)
    (hkinds : a.style = .legacy ∨ values.map (·.type?) = values'.map (·.type?))
    (h : values.map a.style.literal = values'.map a.style.literal) : values = values' := by
  induction values generalizing values' with
  | nil => exact (List.map_eq_nil_iff.1 h.symm).symm
  | cons v values ih =>
    cases values' with
    | nil => cases h
    | cons w values' =>
      obtain ⟨hliteral, hrest⟩ := List.cons.inj h
      rw [List.forall_mem_cons] at hv hv'
      have hkind : a.style = .legacy ∨ v.type? = w.type? := hkinds.imp_right fun hk =>
        (List.cons.inj hk).1
      have hkinds : a.style = .legacy ∨ values.map (·.type?) = values'.map (·.type?) :=
        hkinds.imp_right fun hk => (List.cons.inj hk).2
      rw [LiteralStyle.literal_inj (.inr ⟨hv.1, hv'.1, hkind⟩) hliteral, ih hv.2 hv'.2 hkinds hrest]

/-- One value is not written like a list: it is not empty, and no equals sign is in it. -/
theorem parenthesized_ne {v : Value} (hv : v.isDiscrete = true) (pairs : List (String × Value)) :
    parenthesized [a.keyLiteral v] ≠ parenthesized (pairs.map a.namedLiteral) := by
  intro h
  have hinner := intercalate_eq_of_parenthesized_eq h
  rw [String.intercalate_singleton] at hinner
  match pairs with
  | [] =>
    have hne := (LiteralStyle.isToken_written a.style true hv).1
    rw [← keyLiteral, hinner] at hne
    exact hne rfl
  | [p] =>
    have havoids : Avoids '=' (a.keyLiteral v) := avoids_delimiter (by decide) a v
    rw [hinner] at havoids
    simp [namedLiteral, Avoids] at havoids
  | p :: p₂ :: pairs =>
    have havoids : Avoids '=' (a.keyLiteral v) := avoids_delimiter (by decide) a v
    rw [hinner, List.map_cons, List.map_cons, String.intercalate_cons_cons] at havoids
    simp [namedLiteral, Avoids] at havoids

theorem keyPredicate_ne_empty (h : a.keyPredicate collection keys = .ok text)
    (hk : keys ≠ .none) : text ≠ "" := by
  rcases eq_of_keyPredicate h hk with ⟨v, -, rfl⟩ | ⟨-, -, rfl⟩ <;> simp [parenthesized]

theorem map_snd_keyPairs (h : a.keyPredicate collection keys = .ok text)
    (hs : keys.isSingle = false) : (a.keyPairs collection keys).map (·.2) = keys.values := by
  by_cases hk : keys = .none
  · subst hk
    rfl
  · rcases eq_of_keyPredicate h hk with ⟨v, rfl, -⟩ | ⟨-, hvalues, -⟩
    · cases hs
    · exact hvalues

theorem keyPairs_of_isSingle (hs : keys.isSingle = true) : a.keyPairs collection keys = [] := by
  rw [Keys.isSingle.eq_def] at hs
  split at hs
  · rfl
  · cases hs

section Shapes

variable {collection' : Option String} (h : a.keyPredicate collection keys = .ok text)
  (h' : a.keyPredicate collection' keys' = .ok text)
  (hv : ∀ v ∈ keys.values, v.isDiscrete = true) (hv' : ∀ v ∈ keys'.values, v.isDiscrete = true)
  (hn : ∀ p ∈ a.keyPairs collection keys, Avoids ',' p.1 ∧ Avoids '=' p.1)
  (hn' : ∀ p ∈ a.keyPairs collection' keys', Avoids ',' p.1 ∧ Avoids '=' p.1)

include h h' hv hv' hn hn'

theorem same_shape_of_keyPredicate_eq (hk : keys ≠ .none) (hk' : keys' ≠ .none) :
    keys'.isSingle = keys.isSingle ∧
      (a.keyPairs collection' keys').map (·.1) = (a.keyPairs collection keys).map (·.1) := by
  rcases eq_of_keyPredicate h hk with ⟨v, rfl, rfl⟩ | ⟨hlist, hvalues, rfl⟩ <;>
    rcases eq_of_keyPredicate h' hk' with ⟨w, rfl, htext⟩ | ⟨hlist', hvalues', htext⟩
  · exact ⟨rfl, rfl⟩
  · exact absurd htext (parenthesized_ne (hv v (List.mem_singleton_self v)) _)
  · exact absurd htext.symm (parenthesized_ne (hv' w (List.mem_singleton_self w)) _)
  · have hread := readPairs_keyPairs (a := a) hn'
    rw [← intercalate_eq_of_parenthesized_eq htext, readPairs_keyPairs hn] at hread
    have hnames := congrArg (List.map (·.1)) (Option.some.inj hread)
    simp only [List.map_map, Function.comp_def] at hnames
    exact ⟨hlist'.trans hlist.symm, hnames.symm⟩

/-- Keys with the same text have the same values under the same names. -/
theorem eq_of_keyPredicate_eq
    (hkinds : a.style = .legacy ∨ keys.values.map (·.type?) = keys'.values.map (·.type?)) :
    keys.isSingle = keys'.isSingle ∧ a.keyPairs collection keys = a.keyPairs collection' keys' ∧
      keys.values = keys'.values := by
  by_cases hk : keys = .none
  · subst hk
    obtain rfl : keys' = .none := by
      by_contra hk'
      exact keyPredicate_ne_empty h' hk' (Except.ok.inj h).symm
    exact ⟨rfl, rfl, rfl⟩
  by_cases hk' : keys' = .none
  · subst hk'
    exact absurd (Except.ok.inj h').symm (keyPredicate_ne_empty h hk)
  obtain ⟨hshape, hnames⟩ := same_shape_of_keyPredicate_eq h h' hv hv' hn hn' hk hk'
  have hliterals := literals_eq_of_keyPredicate_eq h h' hk hk' hn hshape hnames
  have hvalues := values_eq_of_literals_eq hv hv' hkinds hliterals.symm
  refine ⟨hshape.symm, ?_, hvalues⟩
  cases hs : keys.isSingle with
  | true => rw [keyPairs_of_isSingle hs, keyPairs_of_isSingle (hshape.trans hs)]
  | false =>
    have hpairs := map_snd_keyPairs h hs
    have hpairs' := map_snd_keyPairs h' (hshape.trans hs)
    exact eq_of_map_fst_snd hnames.symm (hpairs.trans (hvalues.trans hpairs'.symm))

end Shapes

/-- The same list put behind two lists that are empty together goes on in the same way. -/
theorem exists_tail (segs more : List String) : ∃ tail, ∀ segs', (segs' = [] ↔ segs = []) →
    joinSegments (segs' ++ more) = joinSegments segs' ++ tail := by
  by_cases hs : segs = []
  · refine ⟨joinSegments more, fun segs' h => ?_⟩
    obtain rfl := h.2 hs
    rfl
  · exact ⟨behind more, fun segs' h => joinSegments_behind (fun hs' => hs (h.1 hs')) more⟩

theorem joinSegments_concat (init : List String) (last key : String) :
    joinSegments (init ++ [last ++ key]) = joinSegments (init ++ [last]) ++ key := by
  by_cases hinit : init = []
  · subst hinit
    simp [joinSegments]
  · rw [joinSegments_append hinit (by simp), joinSegments_append hinit (by simp)]
    simp [joinSegments, String.append_assoc]

theorem addKey_eq_ok (h : a.addKey p keys = .ok q) :
    ∃ key, a.keyPredicate p.collection keys = .ok key ∧ q.collection = p.collection ∧
      joinSegments q.segments = joinSegments p.segments ++ key ∧
        (q.segments = [] ↔ p.segments = []) := by
  rw [addKey] at h
  split at h
  next hnone =>
    obtain rfl := Except.ok.inj h
    exact ⟨"", by rw [hnone, keyPredicate], rfl, by simp, Iff.rfl⟩
  next =>
    obtain ⟨key, hkey, h⟩ := bind_eq_ok_iff.1 h
    cases hlast : p.segments.getLast? with
    | none =>
      rw [hlast] at h
      cases h
    | some last =>
      rw [hlast] at h
      obtain rfl := Except.ok.inj h
      obtain ⟨init, hinit⟩ := List.getLast?_eq_some_iff.1 hlast
      refine ⟨key, hkey, rfl, ?_, by simp [hinit]⟩
      rw [hinit, List.dropLast_concat]
      exact joinSegments_concat init last key

/-- Two addresses of one collection whose texts are told apart if `Q` fails. -/
structure Parallel (Q : Prop) (p p' : Address) : Prop where
  collection : p'.collection = p.collection
  empty : p'.segments = [] ↔ p.segments = []
  told : ∀ r r', (joinSegments p.segments).toList ++ r = (joinSegments p'.segments).toList ++ r' →
    Q ∧ r = r'

variable {Q : Prop}

theorem Parallel.addSegment (h : Parallel Q p p') (hq : a.addSegment p n = .ok q)
    (hq' : a.addSegment p' n = .ok q') : Parallel Q q q' := by
  have hunder : ∀ p : Address, p = (⟨[], p.collection⟩ : Address).under p.segments := fun p => by
    simp [Address.under]
  rw [hunder p, addSegment_under] at hq
  rw [hunder p', addSegment_under, h.collection] at hq'
  obtain ⟨added, hadded, rfl⟩ := map_eq_ok_iff.1 hq
  obtain ⟨added', hadded', rfl⟩ := map_eq_ok_iff.1 hq'
  obtain rfl := Except.ok.inj (hadded.symm.trans hadded')
  obtain ⟨tail, htail⟩ := exists_tail p.segments added.segments
  refine ⟨rfl, by simp [Address.under, h.empty], fun r r' htext => ?_⟩
  simp only [Address.under, htail _ Iff.rfl, htail _ h.empty, String.toList_append,
    List.append_assoc] at htext
  exact (h.told _ _ htext).imp_right List.append_cancel_left

theorem Parallel.addKey (h : Parallel Q p p') (ha : keys.Alike a.style.Comparable keys')
    (hq : a.addKey p keys = .ok q) (hq' : a.addKey p' keys' = .ok q') :
    Parallel (Q ∧ keys = keys') q q' := by
  obtain ⟨key, hkey, hcollection, htext, hempty⟩ := addKey_eq_ok hq
  obtain ⟨key', hkey', hcollection', htext', hempty'⟩ := addKey_eq_ok hq'
  refine ⟨by rw [hcollection', h.collection, hcollection],
    hempty'.trans (h.empty.trans hempty.symm), fun r r' hr => ?_⟩
  simp only [htext, htext', String.toList_append, List.append_assoc] at hr
  obtain ⟨hQ, hrest⟩ := h.told _ _ hr
  rw [h.collection] at hkey'
  obtain ⟨hkeys, hr⟩ := toldApart_keyPredicate ha hkey hkey' hrest
  exact ⟨⟨hQ, hkeys⟩, hr⟩

theorem Parallel.addNode (h : Parallel Q p p') (ha : n.Alike a.style.Comparable n')
    (hq : a.addNode p n = .ok q) (hq' : a.addNode p' n' = .ok q') :
    Parallel (Q ∧ n = n') q q' := by
  obtain ⟨hn, hkeys⟩ := ha
  obtain ⟨p₁, hp₁, hq⟩ := bind_eq_ok_iff.1 hq
  obtain ⟨p₁', hp₁', hq'⟩ := bind_eq_ok_iff.1 hq'
  have hsegment : a.addSegment p' n' = a.addSegment p' n := by rw [hn]; rfl
  rw [hsegment] at hp₁'
  obtain ⟨hcollection, hempty, htold⟩ := (h.addSegment hp₁ hp₁').addKey hkeys hq hq'
  refine ⟨hcollection, hempty, fun r r' hr => ?_⟩
  obtain ⟨⟨hQ, hk⟩, hr⟩ := htold r r' hr
  exact ⟨⟨hQ, by rw [hn, ← hk]⟩, hr⟩

theorem Parallel.foldlM {nodes nodes' : List CommandNode} (h : Parallel Q p p')
    (ha : List.Forall₂ (CommandNode.Alike a.style.Comparable) nodes nodes')
    (hq : nodes.foldlM a.addNode p = .ok q) (hq' : nodes'.foldlM a.addNode p' = .ok q') :
    Parallel (Q ∧ nodes = nodes') q q' := by
  induction ha generalizing Q p p' with
  | nil =>
    obtain rfl := Except.ok.inj hq
    obtain rfl := Except.ok.inj hq'
    exact ⟨h.collection, h.empty, fun r r' hr => (h.told r r' hr).imp_left fun hQ => ⟨hQ, rfl⟩⟩
  | @cons n n' nodes nodes' hn _ ih =>
    rw [List.foldlM_cons] at hq hq'
    obtain ⟨p₁, hp₁, hq⟩ := bind_eq_ok_iff.1 hq
    obtain ⟨p₁', hp₁', hq'⟩ := bind_eq_ok_iff.1 hq'
    obtain ⟨hcollection, hempty, htold⟩ := ih (h.addNode hn hp₁ hp₁') hq hq'
    refine ⟨hcollection, hempty, fun r r' hr => ?_⟩
    obtain ⟨⟨⟨hQ, hnode⟩, hnodes⟩, hr⟩ := htold r r' hr
    exact ⟨⟨hQ, by rw [hnode, hnodes]⟩, hr⟩

/-- Behind the keys both paths have the same links, the same media and the same call. -/
theorem eq_of_path_eq {c c' : Command} (ha : c.Alike a.style.Comparable c')
    (h : a.path c = .ok text) (h' : a.path c' = .ok text) : c = c' := by
  have hlinks : a.linkSegments c'.node = a.linkSegments c.node := by
    rw [ha.node.1]
    rfl
  have hmore : ∀ links : List String, links ++ c'.node.media.toList ++
      (if c'.node.computeCount then ["$count"] else []) ++
        (c'.node.invocation.map a.invocationSegment).toList =
      links ++ c.node.media.toList ++ (if c.node.computeCount then ["$count"] else []) ++
        (c.node.invocation.map a.invocationSegment).toList := by
    intro links
    rw [ha.node.1]
  obtain ⟨p, hp, h⟩ := bind_eq_ok_iff.1 h
  obtain ⟨p', hp', h'⟩ := bind_eq_ok_iff.1 h'
  obtain ⟨links, hl, h⟩ := bind_eq_ok_iff.1 h
  obtain ⟨links', hl', h'⟩ := bind_eq_ok_iff.1 h'
  obtain rfl : links' = links := Except.ok.inj (hl'.symm.trans (hlinks.trans hl))
  have hstart : Parallel True ⟨[], none⟩ ⟨[], none⟩ :=
    ⟨rfl, Iff.rfl, fun r r' hr => ⟨trivial, hr⟩⟩
  obtain ⟨-, hempty, htold⟩ := hstart.foldlM ha hp hp'
  obtain ⟨tail, htail⟩ := exists_tail p.segments (links' ++ c.node.media.toList ++
    (if c.node.computeCount then ["$count"] else []) ++
      (c.node.invocation.map a.invocationSegment).toList)
  have htext : joinSegments p.segments ++ tail = joinSegments p'.segments ++ tail := by
    have hpath := Except.ok.inj (h.trans h'.symm)
    simp only [List.append_assoc] at hpath hmore htail
    rw [hmore, htail _ Iff.rfl, htail _ hempty] at hpath
    exact hpath
  rw [← String.toList_inj, String.toList_append, String.toList_append] at htext
  exact Command.chain_inj (htold _ _ htext).1.2

/-- Different values have different literals, escaped or not: in the legacy syntax if they are of any
kinds, in the modern syntax if they are of one. So keys with one text have the same values under the
same names, unless the names have marks of their own in them; commands that only differ in the
values of their keys have different paths; and expressions that only differ in their operands have
different texts. -/
theorem texts_determine_values (a : Adapter) :
    (∀ (style : LiteralStyle) (escaped : Bool) (v w : Value),
      v.isDiscrete = true → w.isDiscrete = true → (style = .legacy ∨ v.type? = w.type?) →
        style.written escaped v = style.written escaped w → v = w) ∧
    (∀ collection collection' keys keys' text,
      a.keyPredicate collection keys = .ok text → a.keyPredicate collection' keys' = .ok text →
        (∀ v ∈ keys.values, v.isDiscrete = true) → (∀ v ∈ keys'.values, v.isDiscrete = true) →
        (a.style = .legacy ∨ keys.values.map (·.type?) = keys'.values.map (·.type?)) →
        (∀ p ∈ a.keyPairs collection keys, Avoids ',' p.1 ∧ Avoids '=' p.1) →
        (∀ p ∈ a.keyPairs collection' keys', Avoids ',' p.1 ∧ Avoids '=' p.1) →
          keys.isSingle = keys'.isSingle ∧
            a.keyPairs collection keys = a.keyPairs collection' keys' ∧
              keys.values = keys'.values) ∧
    (∀ c c' text, c.Alike a.style.Comparable c' → a.path c = .ok text → a.path c' = .ok text →
      c = c') ∧
    ∀ (r : Renderer) e e' text, e.Alike r.style.Comparable e' → r.render e = .ok text →
      r.render e' = .ok text → e = e' := by
  refine ⟨fun style escaped v w hv hw hkind h => ?_, fun collection collection' keys keys' text => ?_,
    fun c c' text => eq_of_path_eq, fun r e e' text => Renderer.eq_of_render_eq⟩
  · exact LiteralStyle.literal_inj (.inr ⟨hv, hw, hkind⟩) (LiteralStyle.literal_eq_of_written_eq h)
  · exact fun h h' hv hv' hkinds hn hn' => eq_of_keyPredicate_eq h h' hv hv' hn hn' hkinds

/-- A name with a quote, and the same name with the quote written twice, as keys and operands. -/
theorem texts_determine_values_quotes :
    let a : Adapter := ⟨.v4, (northwind Version.v4.text).navigator, .plain⟩
    let customer (name : String) : Command :=
      (Command.forCollection "Customers").update fun n => { n with keys := .positional [.string name] }
    let named (name : String) : Expr := .binary .eq (.reference "Name") (.value (.string name))
    a.path (customer "O'Neil") = .ok "Customers('O''Neil')" ∧
      a.path (customer "O''Neil") ≠ .ok "Customers('O''Neil')" ∧
      a.renderer.render (named "O'Neil") = .ok "Name eq 'O''Neil'" ∧
      a.renderer.render (named "O''Neil") ≠ .ok "Name eq 'O''Neil'" := by
  intro a customer named
  have hpath : a.path (customer "O'Neil") = .ok "Customers('O''Neil')" := by decide
  have hrender : a.renderer.render (named "O'Neil") = .ok "Name eq 'O''Neil'" := by decide
  have hcomparable : a.style.Comparable (.string "O'Neil") (.string "O''Neil") :=
    .inr ⟨rfl, rfl, .inr rfl⟩
  obtain ⟨-, -, hcommands, hoperands⟩ := texts_determine_values a
  refine ⟨hpath, fun h => ?_, hrender, fun h => ?_⟩
  · have halike : (customer "O'Neil").Alike a.style.Comparable (customer "O''Neil") :=
      .cons ⟨rfl, .cons hcomparable .nil⟩ .nil
    have hkeys := congrArg (fun c => c.node.keys) (hcommands _ _ _ halike hpath h)
    exact absurd hkeys (by decide)
  · have halike : (named "O'Neil").Alike a.style.Comparable (named "O''Neil") :=
      ⟨rfl, rfl, hcomparable⟩
    have hright := (Expr.binary.inj (hoperands _ _ _ _ halike hrender h)).2.2
    exact absurd (Expr.value.inj hright) (by decide)

end Adapter

end ODataClient
