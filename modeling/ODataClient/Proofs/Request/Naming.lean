import ODataClient.Proofs.Expr.Names
import ODataClient.Proofs.Request.Routing

/-! Where the names in a filter come from: the stored filters, the paths that they are stored
under, and the model. A character that none of these names has is in no name of a fragment, and an
ampersand that none of them has is in no predicate when literals are escaped. -/

namespace ODataClient

variable {c : Char} {nav : Navigator} {dialect : Dialect} {root path : String}

namespace Navigator

structure Avoids (nav : Navigator) (c : Char) : Prop where
  collection {name found : String} :
    nav.collectionName name = some found → ODataClient.Avoids c found
  navigation {entity property found : String} :
    nav.navigationName entity property = some found → ODataClient.Avoids c found

theorem Avoids.requireCollection (h : nav.Avoids c) {name found : String}
    (hf : nav.requireCollection name = .ok found) : ODataClient.Avoids c found := by
  rw [Navigator.requireCollection] at hf
  split at hf
  next hname =>
    obtain rfl := Except.ok.inj hf
    exact h.collection hname
  next => exact absurd hf (by simp)

end Navigator

theorem EntityModel.avoids_navigator {m : EntityModel}
    (h : ∀ x ∈ m.collections, Avoids c x.name ∧ ∀ n ∈ x.navigations, Avoids c n.name) :
    m.navigator.Avoids c := by
  constructor
  · intro name found hf
    obtain ⟨x, hx, rfl⟩ := Option.map_eq_some_iff.1 hf
    exact (h x (mem_of_findByName hx)).1
  · intro entity property found hf
    obtain ⟨x, hx, hf⟩ := Option.bind_eq_some_iff.1 hf
    obtain ⟨n, hn, rfl⟩ := Option.map_eq_some_iff.1 hf
    exact (h x (mem_of_findByName hx)).2 n (mem_of_findByName hn)

/-- A target is the root or a path of navigations of the model, and what is kept is the path or
an end of it. -/
theorem avoids_followPath (hc : c ≠ '/') (hnav : nav.Avoids c) (hroot : Avoids c root)
    {segs passed : List String} {current : String} {t : ReferenceTarget}
    (hp : ∀ s ∈ passed, Avoids c s)
    (h : followPath nav dialect root path current passed segs = .ok t) :
    Avoids c t.entity ∧ (Avoids c path → (∀ s ∈ segs, Avoids c s) → Avoids c t.kept) := by
  induction segs generalizing current passed with
  | nil =>
    obtain rfl := Except.ok.inj h
    exact ⟨hroot, fun hpath _ => hpath⟩
  | cons segment rest ih =>
    rw [followPath] at h
    split at h
    next =>
      obtain rfl := Except.ok.inj h
      exact ⟨hroot, fun hpath _ => hpath⟩
    next name hname =>
      have hpassed : ∀ s ∈ passed ++ [name], Avoids c s := List.forall_mem_append.2
        ⟨hp, List.forall_mem_singleton.2 (hnav.navigation hname)⟩
      obtain ⟨many, -, h⟩ := bind_eq_ok_iff.1 h
      cases many with
      | true =>
        obtain rfl := Except.ok.inj h
        -- the entity is spelled by the model, whatever the path spells
        refine ⟨avoids_joinSegments hc hpassed, fun hpath hsegs => ?_⟩
        dsimp only
        split
        · exact avoids_joinSegments hc (List.forall_mem_cons.1 hsegs).2
        · exact hpath
      | false =>
        obtain ⟨next, -, h⟩ := bind_eq_ok_iff.1 h
        have hr := ih hpassed h
        exact ⟨hr.1, fun hpath hsegs => hr.2 hpath (List.forall_mem_cons.1 hsegs).2⟩

theorem avoids_referenceTarget (hc : c ≠ '/') (hnav : nav.Avoids c) (hroot : Avoids c root)
    {t : ReferenceTarget} (h : referenceTarget nav dialect root path = .ok t) :
    Avoids c t.entity ∧ (Avoids c path → Avoids c t.kept) := by
  have hf := avoids_followPath hc hnav hroot (List.forall_mem_nil _) h
  exact ⟨hf.1, fun hpath => hf.2 hpath fun s hs => avoids_of_mem_segments hpath hs⟩

theorem avoids_keptPath (hc : c ≠ '/') (hnav : nav.Avoids c) (hroot : Avoids c root)
    (hpath : Avoids c path) : Avoids c (keptPath nav dialect root path) := by
  rw [keptPath]
  split
  next t ht => exact (avoids_referenceTarget hc hnav hroot ht).2 hpath
  next => exact hpath

theorem avoids_dropSegments (hc : c ≠ '/') (hpath : Avoids c path) (depth : Nat) :
    Avoids c (Expr.dropSegments depth path) := by
  rw [Expr.dropSegments]
  split
  · exact avoids_joinSegments hc fun s hs =>
      avoids_of_mem_segments hpath (List.mem_of_mem_drop hs)
  · exact hpath

theorem Expr.names_conjuncts {e part : Expr} (h : part ∈ e.conjuncts) : part.names ⊆ e.names := by
  fun_induction Expr.conjuncts e with
  | case1 left right hl hr =>
    rw [Expr.names]
    rcases List.mem_append.1 h with h | h
    · exact List.subset_append_of_subset_left _ (hl h)
    · exact List.subset_append_of_subset_right _ (hr h)
  | case2 e =>
    obtain rfl := List.mem_singleton.1 h
    exact List.Subset.refl _

/-- The names in the stored filters, and the paths that they are stored under. -/
def Command.filterNames (cmd : Command) : List String :=
  cmd.node.filters.entries.flatMap fun p => p.1 :: p.2.names

/-- Nothing in the name of the bucket or in the names of the fragment is `c`. -/
def FragmentAvoids (c : Char) (f : String × Expr) : Prop :=
  Avoids c f.1 ∧ ∀ n ∈ f.2.names, Avoids c n

theorem avoids_filePart (hc : c ≠ '/') (hnav : nav.Avoids c) (hroot : Avoids c root)
    {options : FilterOptions} (hq : options.queryOption = false) {part : Expr}
    (hpart : ∀ n ∈ part.names, Avoids c n) {f : String × Expr}
    (h : filePart nav options root part = .ok f) : FragmentAvoids c f := by
  rcases filePart_cases hq h with ⟨hkept, hbucket⟩ | rfl
  · constructor
    · rcases hbucket with hb | ⟨path, t, ht, hb⟩
      · rw [hb]
        exact hroot
      · rw [hb]
        exact (avoids_referenceTarget hc hnav hroot ht).1
    · rw [hkept, Expr.retargeted, Expr.names_coerced]
      exact Expr.names_mapScoped (fun n hn => avoids_keptPath hc hnav hroot hn) hpart []
  · exact ⟨hroot, hpart⟩

namespace Adapter

variable {a : Adapter} {cmd : Command} {t : CommandTarget} {filters : EntityFilters}
  {b entity : String} {e part : Expr}

theorem avoids_canonicalPath (hc : c ≠ '/') (hnav : nav.Avoids c) {collection : Option String}
    (hpath : Avoids c path) : Avoids c (canonicalPath nav collection path) := by
  have hhops : ∀ (segs : List String) (current : String) (names : List String),
      canonicalHops? nav current segs = some names → ∀ n ∈ names, Avoids c n := by
    intro segs
    induction segs with
    | nil =>
      intro current names h
      obtain rfl := Option.some.inj h
      exact List.forall_mem_nil _
    | cons segment rest ih =>
      intro current names h
      obtain ⟨name, hname, h⟩ := Option.bind_eq_some_iff.1 h
      obtain ⟨next, -, h⟩ := Option.bind_eq_some_iff.1 h
      obtain ⟨others, hothers, h⟩ := Option.bind_eq_some_iff.1 h
      obtain rfl := Option.some.inj h
      exact List.forall_mem_cons.2 ⟨hnav.navigation hname, ih next others hothers⟩
  rw [canonicalPath]
  split
  next names h =>
    obtain ⟨r, -, h⟩ := Option.bind_eq_some_iff.1 h
    exact avoids_joinSegments hc (hhops _ r names h)
  next => exact hpath

theorem names_qualified (hc : c ≠ '/') (hb : Avoids c b) (he : ∀ n ∈ e.names, Avoids c n) :
    ∀ n ∈ (e.qualified b).names, Avoids c n := by
  have hslash : Avoids c "/" := by simpa [ODataClient.Avoids] using hc
  rw [Expr.qualified, Expr.mapReferences]
  refine Expr.names_mapScoped (fun n hn => ?_) he []
  exact avoids_append.2 ⟨avoids_append.2 ⟨hb, hslash⟩, hn⟩

theorem names_relative (hc : c ≠ '/') (he : ∀ n ∈ e.names, Avoids c n) :
    ∀ n ∈ (a.relative b e).names, Avoids c n := by
  have hdrop : ∀ n, Avoids c n → Avoids c (Expr.dropSegments (segments b).length n) :=
    fun n hn => avoids_dropSegments hc hn (segments b).length
  rw [relative]
  split
  · rw [Expr.relativize, Expr.mapReferences]
    exact Expr.names_mapScoped hdrop he []
  · exact he

theorem avoids_fragment (hc : c ≠ '/') (hnav : a.navigator.Avoids c) (hentity : Avoids c entity)
    (hpart : ∀ n ∈ part.names, Avoids c n) {f : String × Expr}
    (h : a.fragment t entity part = .ok f) : FragmentAvoids c f := by
  rw [fragment] at h
  split at h
  · split at h
    · exact absurd h (by simp)
    · obtain ⟨root, hroot, h⟩ := bind_eq_ok_iff.1 h
      exact avoids_filePart hc hnav (hnav.requireCollection hroot) rfl hpart h
  · obtain rfl := Except.ok.inj h
    have hpath : Avoids c (canonicalPath a.navigator t.collection entity) :=
      avoids_canonicalPath hc hnav hentity
    refine ⟨hpath, ?_⟩
    dsimp only
    rw [relatedForm]
    split
    · exact names_qualified hc hpath hpart
    · exact hpart

theorem names_emitted (hc : c ≠ '/') (hx : c ≠ 'x') {place : Placement}
    (he : ∀ n ∈ e.names, Avoids c n) : ∀ n ∈ (a.emitted b e place).names, Avoids c n := by
  cases place with
  | whole => exact he
  | nested => exact names_relative hc he
  | wrapped =>
    have hvar : Avoids c wrapperVariable := by simpa [ODataClient.Avoids, wrapperVariable] using hx
    exact names_qualified hc hvar (names_relative hc he)

theorem mem_bucket_of_mem_others {f : String × Expr} (hf : f ∈ otherFragments t filters) :
    f.2 ∈ (filters.get? f.1).getD [] := by
  have hheaded : f ∈ filters.headed (CommandTarget.rootBucket t) := List.mem_append_right _ hf
  exact Table.mem_headed.1 hheaded

theorem avoids_bucket (hc : c ≠ '/') (hnav : a.navigator.Avoids c)
    (hf : ∀ n ∈ cmd.filterNames, Avoids c n) (ht : a.target cmd = .ok t)
    (ha : a.analyze cmd = .ok filters) (he : e ∈ (filters.get? b).getD []) :
    FragmentAvoids c (b, e) := by
  obtain ⟨p, hp, hfragment⟩ := (mem_bucket_iff ht ha).1 he
  obtain ⟨entry, hentry, hp⟩ := List.mem_flatMap.1 hp
  obtain ⟨part, hpart, rfl⟩ := List.mem_map.1 hp
  obtain ⟨hentity, hnames⟩ := List.forall_mem_cons.1 (List.forall_mem_flatMap.1 hf entry hentry)
  exact avoids_fragment hc hnav hentity
    (fun n hn => hnames n (Expr.names_conjuncts hpart hn)) hfragment

end Adapter

def Predicate.texts : Predicate → List String
  | part text => [text]
  | own text => [text]
  | nested path text => [path, text]

namespace Adapter

variable {a : Adapter} {cmd : Command} {t : CommandTarget} {filters : EntityFilters}
  {predicates : List Predicate} {e : Expr} {text : String}

theorem avoids_conjunct (hr : a.options.escapeLiterals = true) (h : a.conjunct e = .ok text)
    (he : ∀ n ∈ e.names, Avoids '&' n) : Avoids '&' text := by
  obtain ⟨inner, hinner, rfl⟩ := map_eq_ok_iff.1 h
  have hi : Avoids '&' inner := Renderer.avoids_render hr hinner he
  have hparen : Avoids '&' "(" ∧ Avoids '&' ")" := by decide
  rw [Renderer.bracketed]
  split
  · exact avoids_append.2 ⟨avoids_append.2 ⟨hparen.1, hi⟩, hparen.2⟩
  · exact hi

theorem avoids_relatedPredicate (hr : a.options.escapeLiterals = true) {b : String}
    (hb : b ≠ CommandTarget.rootBucket t) (hf : FragmentAvoids '&' (b, e)) {p : Predicate}
    (h : a.relatedPredicate cmd b e = .ok p) : ∀ s ∈ p.texts, Avoids '&' s := by
  rw [relatedPredicate_eq (t := t) hb, map_eq_ok_iff] at h
  obtain ⟨text, htext, rfl⟩ := h
  have hnames : ∀ n ∈ (a.emitted b e (a.placement cmd t b e)).names, Avoids '&' n :=
    names_emitted (by decide) (by decide) hf.2
  have hwritten : Avoids '&' text := by
    rw [written] at htext
    split at htext
    · exact Renderer.avoids_render hr htext hnames
    · exact avoids_conjunct hr htext hnames
  have hbucket : Avoids '&' b := hf.1
  cases a.placement cmd t b e with
  | whole => simpa [Placement.predicate, Predicate.texts] using hwritten
  | nested => simpa [Placement.predicate, Predicate.texts] using ⟨hbucket, hwritten⟩
  | wrapped =>
    have hlambda : Avoids '&' "/any(" ∧ Avoids '&' "x" ∧ Avoids '&' ":" ∧ Avoids '&' ")" := by decide
    simp [Placement.predicate, Predicate.texts, anyLambda, wrapperVariable, hbucket, hlambda, hwritten]

/-- When literals are escaped and no name has an ampersand, no predicate has one. -/
theorem avoids_predicates (hr : a.options.escapeLiterals = true) (hnav : a.navigator.Avoids '&')
    (hf : ∀ n ∈ cmd.filterNames, Avoids '&' n) (hn : cmd.node.textFilters = .empty) (ht : a.target cmd = .ok t)
    (ha : a.analyze cmd = .ok filters) (hp : a.predicates cmd t filters = .ok predicates) :
    ∀ p ∈ predicates, ∀ s ∈ p.texts, Avoids '&' s := by
  obtain ⟨own, related, hown, hrelated, rfl⟩ := predicates_eq_ok hp
  have hnone : cmd.node.textFilters.entries = [] := by rw [hn]; rfl
  rw [hnone, List.map_nil, List.append_nil, List.forall_mem_append]
  refine ⟨fun p hp => ?_, fun p hp => ?_⟩
  · obtain ⟨text, htext, rfl⟩ := List.mem_map.1 hp
    obtain ⟨e, he, htext⟩ := (mem_mapM_ok hown).1 htext
    have hbucket := avoids_bucket (by decide) hnav hf ht ha he
    exact List.forall_mem_singleton.2 (avoids_conjunct hr htext hbucket.2)
  · obtain ⟨f, hm, hp⟩ := (mem_mapM_ok hrelated).1 hp
    have hbucket := avoids_bucket (by decide) hnav hf ht ha (mem_bucket_of_mem_others hm)
    exact avoids_relatedPredicate hr (bucket_ne_of_mem_others hm) hbucket hp

end Adapter

end ODataClient
