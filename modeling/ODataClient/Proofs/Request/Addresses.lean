import ODataClient.Proofs.Model.Memo
import ODataClient.Request.Compile

/-! The two walks along a chain. One looks for the collection that filters are analyzed against,
the other writes the address. They are in the same collection at every node, so that once the
first has found its way the second can only fail on what the command itself says. -/

namespace ODataClient

namespace Error

/-- A name was looked up that a model does not have. -/
def isUnknown : Error → Bool
  | unknownEntity _ | unknownNavigation _ _ => true
  | _ => false

def IsInvalidCommand (e : Error) : Prop := ∃ fault, e = .invalidCommand fault

end Error

namespace Navigator

/-- The key properties of the collection, if there is one, can be looked up. -/
def Knows (nav : Navigator) (collection : Option String) : Prop :=
  ∀ name ∈ collection, ∃ names, nav.keyProperties name = .ok names

/-- What the answers about a model have in common: the collections that they name are known, and
there is nothing but unknown names to fail on. -/
structure Lawful (nav : Navigator) : Prop where
  knows_collection : ∀ name, nav.Knows (nav.collectionName name)
  knows_partner : ∀ {entity property found : String},
    nav.partner entity property = .ok found → nav.Knows (some found)
  isCollection : ∀ entity property,
    FailsAs (·.isUnknown = true) (nav.isCollection entity property)
  partner : ∀ entity property, FailsAs (·.isUnknown = true) (nav.partner entity property)
  keyProperties : ∀ entity, FailsAs (·.isUnknown = true) (nav.keyProperties entity)

variable {nav : Navigator}

theorem knows_none (nav : Navigator) : nav.Knows none := fun _ h => by cases h

theorem isUnknown_requireCollection (nav : Navigator) (name : String) :
    FailsAs (·.isUnknown = true) (nav.requireCollection name) := by
  rw [requireCollection]
  cases nav.collectionName name with
  | none => exact failsAs_error (by rfl)
  | some found => exact failsAs_ok _ found

theorem isUnknown_requireNavigation (nav : Navigator) (entity property : String) :
    FailsAs (·.isUnknown = true) (nav.requireNavigation entity property) := by
  rw [requireNavigation]
  cases nav.navigationName entity property with
  | none => exact failsAs_error (by rfl)
  | some name => exact failsAs_ok _ name

theorem requireCollection_eq_ok_iff {name found : String} :
    nav.requireCollection name = .ok found ↔ nav.collectionName name = some found := by
  rw [requireCollection]
  cases nav.collectionName name <;> simp

theorem Lawful.fact (h : nav.Lawful) (entity property : String) :
    FailsAs (·.isUnknown = true) (nav.fact entity property) := by
  rw [Navigator.fact]
  cases nav.navigationName entity property with
  | none => exact failsAs_ok _ none
  | some name =>
    exact (h.isCollection entity name).bind fun _ _ =>
      (h.partner entity name).bind fun _ _ => failsAs_ok _ _

theorem isUnknown_requireFact {fact : Except Error (Option NavigationFact)}
    (h : FailsAs (·.isUnknown = true) fact) (entity property : String) :
    FailsAs (·.isUnknown = true) (requireFact entity property fact) := by
  cases fact with
  | error e => exact failsAs_error (h e (by rfl))
  | ok fact? =>
    cases fact? with
    | none => exact failsAs_error (by rfl)
    | some fact => exact failsAs_ok _ fact

/-- A fact carries a partner that the navigator has answered with. -/
theorem partner_of_fact {entity property : String} {fact : NavigationFact}
    (h : nav.fact entity property = .ok (some fact)) :
    nav.partner entity fact.name = .ok fact.partner := by
  rw [Navigator.fact] at h
  cases hname : nav.navigationName entity property with
  | none => simp [hname] at h
  | some name =>
    rw [hname] at h
    obtain ⟨isCollection, -, h⟩ := bind_eq_ok_iff.1 h
    obtain ⟨partner, hpartner, h⟩ := bind_eq_ok_iff.1 h
    obtain rfl := Option.some.inj (Except.ok.inj h)
    exact hpartner

theorem Lawful.viaFacts (h : nav.Lawful) : nav.viaFacts.Lawful where
  knows_collection := h.knows_collection
  knows_partner {entity property found} hpartner := by
    obtain ⟨fact, hfact, rfl⟩ := map_eq_ok_iff.1 hpartner
    cases hask : nav.fact entity property with
    | error e => simp [hask, requireFact] at hfact
    | ok fact? =>
      cases fact? with
      | none => simp [hask, requireFact] at hfact
      | some fact' =>
        rw [hask] at hfact
        obtain rfl := Except.ok.inj hfact
        exact h.knows_partner (partner_of_fact hask)
  isCollection entity property := (isUnknown_requireFact (h.fact entity property) _ _).map
  partner entity property := (isUnknown_requireFact (h.fact entity property) _ _).map
  keyProperties := h.keyProperties

end Navigator

namespace EntityModel

variable {m : EntityModel}

theorem isUnknown_collection (m : EntityModel) (name : String) :
    FailsAs (·.isUnknown = true) (m.collection name) := by
  rw [collection]
  cases m.collection? name with
  | none => exact failsAs_error (by rfl)
  | some c => exact failsAs_ok _ c

theorem isUnknown_navigation (m : EntityModel) (entity property : String) :
    FailsAs (·.isUnknown = true) (m.navigation entity property) := by
  rw [navigation]
  refine (m.isUnknown_collection entity).bind fun c _ => ?_
  cases c.navigation? property with
  | none => exact failsAs_error (by rfl)
  | some n => exact failsAs_ok _ n

theorem knows_name {name : String} {c : EntityCollection} (h : m.collection? name = some c) :
    m.navigator.Knows (some c.name) := by
  intro found hfound
  obtain rfl := Option.some.inj hfound
  refine ⟨c.key, ?_⟩
  simp [navigator, collection, collection?_name h]

theorem partner_eq_ok {entity property found : String}
    (h : m.navigator.partner entity property = .ok found) :
    ∃ name c, m.collection? name = some c ∧ c.name = found := by
  obtain ⟨n, -, h⟩ := bind_eq_ok_iff.1 h
  cases hc : m.collection? n.target with
  | none => simp [hc] at h
  | some c =>
    rw [hc] at h
    exact ⟨n.target, c, hc, Except.ok.inj h⟩

theorem lawful (m : EntityModel) : m.navigator.Lawful where
  knows_collection name found hfound := by
    obtain ⟨c, hc, rfl⟩ := Option.map_eq_some_iff.1 hfound
    exact knows_name hc _ rfl
  knows_partner hpartner := by
    obtain ⟨name, c, hc, rfl⟩ := partner_eq_ok hpartner
    exact knows_name hc
  isCollection entity property := (m.isUnknown_navigation entity property).map
  partner entity property := by
    refine (m.isUnknown_navigation entity property).bind fun n _ => ?_
    cases m.collection? n.target with
    | none => exact failsAs_error (by rfl)
    | some c => exact failsAs_ok _ c.name
  keyProperties entity := (m.isUnknown_collection entity).map

/-- The navigators over a model: its own, and the one that remembers whole facts. -/
def Answers (m : EntityModel) (nav : Navigator) : Prop :=
  nav = m.navigator ∨ nav = m.navigator.viaFacts

theorem Answers.lawful {nav : Navigator} (h : m.Answers nav) : nav.Lawful := by
  rcases h with rfl | rfl
  · exact m.lawful
  · exact m.lawful.viaFacts

end EntityModel

namespace Adapter

/-- The collection that a walk along the nodes ends in. -/
def reached (a : Adapter) (nodes : List CommandNode) : Except Error (Option String) :=
  nodes.foldlM (fun collection n => followSegment a.navigator collection n.segment) none

def address (a : Adapter) (nodes : List CommandNode) : Except Error Address :=
  nodes.foldlM a.addNode ⟨[], none⟩

/-- The address gets to the collection unless something in the command is refused. -/
def Lands (collection : Option String) (x : Except Error Address) : Prop :=
  (∃ segments, x = .ok ⟨segments, collection⟩) ∨ ∃ fault, x = .error (.invalidCommand fault)

variable {a : Adapter} {c : Command} {p : Address} {n : CommandNode}
  {collection collection' : Option String}

theorem Lands.failsAs {x : Except Error Address} (h : Lands collection x) :
    FailsAs Error.IsInvalidCommand x := by
  rcases h with ⟨segments, rfl⟩ | ⟨fault, rfl⟩
  · exact failsAs_ok _ _
  · exact failsAs_error ⟨fault, rfl⟩

theorem Lands.collection_eq {x : Except Error Address} (h : Lands collection x) (hp : x = .ok p) :
    p.collection = collection := by
  rcases h with ⟨segments, rfl⟩ | ⟨fault, rfl⟩
  · obtain rfl := Except.ok.inj hp
    rfl
  · cases hp

theorem Lands.bind {x : Except Error Address} {f : Address → Except Error Address}
    (h : Lands collection x) (hf : ∀ segments, Lands collection (f ⟨segments, collection⟩)) :
    Lands collection (x >>= f) := by
  rcases h with ⟨segments, rfl⟩ | ⟨fault, rfl⟩
  · exact hf segments
  · exact .inr ⟨fault, rfl⟩

theorem knows_followSegment (hnav : a.navigator.Lawful) (hc : a.navigator.Knows collection)
    {segment : Option Segment}
    (h : followSegment a.navigator collection segment = .ok collection') :
    a.navigator.Knows collection' := by
  match segment, collection, h with
  | some (.collection name), _, h =>
    obtain ⟨found, hfound, rfl⟩ := map_eq_ok_iff.1 h
    have hknows := hnav.knows_collection name
    rwa [Navigator.requireCollection_eq_ok_iff.1 hfound] at hknows
  | some (.navigation navigation), some current, h =>
    obtain ⟨name, -, h⟩ := bind_eq_ok_iff.1 h
    obtain ⟨partner, hpartner, h⟩ := bind_eq_ok_iff.1 h
    obtain rfl := Except.ok.inj h
    exact hnav.knows_partner hpartner
  | some (.navigation navigation), none, h =>
    obtain rfl := Except.ok.inj h
    exact a.navigator.knows_none
  | some (.batchReference key), _, h =>
    obtain rfl := Except.ok.inj h
    exact a.navigator.knows_none
  | some (.derivedType name), _, h =>
    obtain rfl := Except.ok.inj h
    exact hc
  | none, _, h =>
    obtain rfl := Except.ok.inj h
    exact hc

/-- A segment leaves something that a key can belong to. -/
theorem segments_ne_nil {q : Address} (hs : n.segment.isSome = true)
    (h : a.addSegment p n = .ok q) : q.segments ≠ [] := by
  obtain ⟨segment, hs⟩ := Option.isSome_iff_exists.1 hs
  simp only [addSegment, hs] at h
  cases segment with
  | collection name =>
    obtain ⟨_, -, h⟩ := bind_eq_ok_iff.1 h
    obtain rfl := Except.ok.inj h
    simp
  | derivedType name =>
    obtain rfl := Except.ok.inj h
    simp
  | batchReference key =>
    obtain ⟨_, -, h⟩ := bind_eq_ok_iff.1 h
    obtain rfl := Except.ok.inj h
    simp
  | navigation navigation =>
    cases hp : p.collection with
    | none =>
      rw [hp] at h
      obtain rfl := Except.ok.inj h
      simp
    | some current =>
      rw [hp] at h
      obtain ⟨_, -, h⟩ := bind_eq_ok_iff.1 h
      obtain ⟨_, -, h⟩ := bind_eq_ok_iff.1 h
      obtain rfl := Except.ok.inj h
      simp

/-- Both walks look up the same names. -/
theorem lands_addSegment (h : followSegment a.navigator p.collection n.segment = .ok collection) :
    Lands collection (a.addSegment p n) := by
  cases hs : n.segment with
  | none =>
    rw [hs] at h
    obtain rfl := Except.ok.inj h
    exact .inl ⟨p.segments, by simp only [addSegment, hs]⟩
  | some segment =>
    rw [hs] at h
    cases segment with
    | derivedType name =>
      obtain rfl := Except.ok.inj h
      exact .inl ⟨p.segments ++ [name], by simp only [addSegment, hs]⟩
    | batchReference key =>
      obtain rfl := Except.ok.inj h
      simp only [addSegment, hs, batchSegment]
      cases n.batch.bind fun b => b.contentId? key with
      | none => exact .inr ⟨_, rfl⟩
      | some id => exact .inl ⟨_, rfl⟩
    | collection name =>
      obtain ⟨found, hfound, rfl⟩ := map_eq_ok_iff.1 h
      simp only [addSegment, hs, hfound]
      exact .inl ⟨_, rfl⟩
    | navigation navigation =>
      cases hp : p.collection with
      | none =>
        rw [hp] at h
        obtain rfl := Except.ok.inj h
        exact .inl ⟨p.segments ++ [navigation], by simp only [addSegment, hs, hp]⟩
      | some current =>
        rw [hp] at h
        obtain ⟨name, hname, h⟩ := bind_eq_ok_iff.1 h
        obtain ⟨partner, hpartner, h⟩ := bind_eq_ok_iff.1 h
        obtain rfl := Except.ok.inj h
        simp only [addSegment, hs, hp, hname, hpartner, ok_bind]
        exact .inl ⟨_, rfl⟩

theorem failsAs_keyPredicate {P : Error → Prop} (keys : Keys)
    (hnames : ∀ name ∈ collection, FailsAs P (a.navigator.keyProperties name))
    (hunknown : P (.invalidCommand .compositeKeyWithoutCollection))
    (hcount : ∀ name declared supplied, P (.invalidCommand (.keyCount name declared supplied))) :
    FailsAs P (a.keyPredicate collection keys) := by
  rw [keyPredicate.eq_def]
  split
  · exact failsAs_ok _ _
  · exact failsAs_ok _ _
  · split
    · exact failsAs_error hunknown
    next name =>
      refine (hnames name (by rfl)).bind fun names _ => ?_
      split
      · exact failsAs_error (hcount _ _ _)
      · exact failsAs_ok _ _
  · exact failsAs_ok _ _

theorem isInvalidCommand_keyPredicate (hc : a.navigator.Knows collection) (keys : Keys) :
    FailsAs Error.IsInvalidCommand (a.keyPredicate collection keys) := by
  refine failsAs_keyPredicate keys (fun name hname => ?_) ⟨_, rfl⟩ fun _ _ _ => ⟨_, rfl⟩
  obtain ⟨names, hnames⟩ := hc name hname
  rw [hnames]
  exact failsAs_ok _ names

theorem lands_addKey (hp : a.navigator.Knows p.collection) (keys : Keys) :
    Lands p.collection (a.addKey p keys) := by
  rw [addKey]
  split
  · exact .inl ⟨p.segments, rfl⟩
  cases hk : a.keyPredicate p.collection keys with
  | error e =>
    obtain ⟨fault, rfl⟩ := isInvalidCommand_keyPredicate hp keys e hk
    exact .inr ⟨fault, rfl⟩
  | ok predicate =>
    rw [ok_bind]
    split
    · exact .inl ⟨_, rfl⟩
    · exact .inr ⟨_, rfl⟩

theorem lands_addNode (hnav : a.navigator.Lawful) (hp : a.navigator.Knows p.collection)
    (h : followSegment a.navigator p.collection n.segment = .ok collection) :
    Lands collection (a.addNode p n) :=
  (lands_addSegment h).bind fun segments =>
    lands_addKey (p := ⟨segments, collection⟩) (knows_followSegment hnav hp h) n.keys

/-- The walks go side by side. -/
theorem lands_foldlM (hnav : a.navigator.Lawful) {nodes : List CommandNode}
    (hp : a.navigator.Knows p.collection)
    (h : nodes.foldlM (fun collection n => followSegment a.navigator collection n.segment)
      p.collection = .ok collection) :
    Lands collection (nodes.foldlM a.addNode p) := by
  induction nodes generalizing p with
  | nil =>
    obtain rfl := Except.ok.inj h
    exact .inl ⟨p.segments, rfl⟩
  | cons n nodes ih =>
    rw [List.foldlM_cons] at h ⊢
    obtain ⟨next, hnext, h⟩ := bind_eq_ok_iff.1 h
    rcases lands_addNode hnav hp hnext with ⟨segments, hn⟩ | ⟨fault, hn⟩
    · rw [hn, ok_bind]
      exact ih (p := ⟨segments, next⟩) (knows_followSegment hnav hp hnext) h
    · exact .inr ⟨fault, by rw [hn, error_bind]⟩

theorem lands_address (hnav : a.navigator.Lawful) {nodes : List CommandNode}
    (h : a.reached nodes = .ok collection) : Lands collection (a.address nodes) :=
  lands_foldlM hnav a.navigator.knows_none h

theorem reached_of_append {front back : List CommandNode}
    (h : a.reached (front ++ back) = .ok collection) :
    ∃ collection', a.reached front = .ok collection' := by
  rw [reached, List.foldlM_append] at h
  obtain ⟨collection', hfront, -⟩ := bind_eq_ok_iff.1 h
  exact ⟨collection', hfront⟩

theorem failsAs_linkSegments {P : Error → Prop} (h : P (.invalidCommand .linkTargetNotValue))
    (n : CommandNode) : FailsAs P (a.linkSegments n) := by
  rw [linkSegments.eq_def]
  split
  · exact failsAs_ok _ _
  · exact failsAs_ok _ _
  · split
    · exact failsAs_ok _ _
    · exact failsAs_error h

/-- The segments of a path in front of its function or action. -/
def resource (a : Adapter) (c : Command) : Except Error (List String) := do
  let p ← a.address c.chain
  let links ← a.linkSegments c.node
  return p.segments ++ links ++ c.node.media.toList ++ if c.node.computeCount then ["$count"] else []

theorem path_eq (a : Adapter) (c : Command) : a.path c = (a.resource c).map fun front =>
    joinSegments (front ++ (c.node.invocation.map a.invocationSegment).toList) := by
  rw [path, resource, address]
  cases c.chain.foldlM a.addNode ⟨[], none⟩ with
  | error e => rfl
  | ok p => cases a.linkSegments c.node <;> rfl

theorem isInvalidCommand_path (hnav : a.navigator.Lawful)
    (h : a.reached c.chain = .ok collection) : FailsAs Error.IsInvalidCommand (a.path c) :=
  (lands_address hnav h).failsAs.bind fun _ _ =>
    (failsAs_linkSegments ⟨_, rfl⟩ c.node).bind fun _ _ => failsAs_ok _ _

theorem reached_of_target {t : CommandTarget} (h : a.target c = .ok t) :
    a.reached c.chain = .ok t.collection := by
  obtain ⟨collection, hreached, h⟩ := bind_eq_ok_iff.1 h
  split at h
  · obtain rfl := Except.ok.inj h
    exact hreached
  · cases h

end Adapter

end ODataClient
