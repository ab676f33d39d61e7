import ODataClient.Proofs.Cache.Steps
import ODataClient.Proofs.Model.Memo

/-! Bindings. An entry is bound to the version of its own document, and to the model that its
key has. That model was read from the document of the entry that was bound first since the key
was cleared, which need not be the entry that is bound now: it may have been replaced by then, or
be held by a caller from before the key was cleared. -/

namespace ODataClient

/-- The resolver answers like a memoizing one over the model that is read from the document. -/
def MetadataDocument.Describes (doc : MetadataDocument) (loader : ModelLoader) (nav : Navigator) :
    Prop :=
  ∃ model, loader.load doc = .ok model ∧ nav = (Memo.fresh model.navigator).navigator

theorem MetadataDocument.Describes.unique {doc : MetadataDocument} {loader : ModelLoader}
    {nav nav' : Navigator} (h : doc.Describes loader nav) (h' : doc.Describes loader nav') :
    nav = nav' := by
  obtain ⟨model, hm, rfl⟩ := h
  obtain ⟨model', hm', rfl⟩ := h'
  obtain rfl := Except.ok.inj (hm.symm.trans hm')
  rfl

theorem BoundMetadata.navigator_eq (b : BoundMetadata) :
    b.navigator = (Memo.fresh b.model.navigator).navigator :=
  (Memo.navigator_askAll b.model.navigator []).symm

namespace MetadataCache

variable {c d : MetadataCache} {a : AttemptId} {e origin : EntryId} {key : String}
  {entry : CacheEntry} {b : BoundMetadata} {loader : ModelLoader} {model : EntityModel}
  {event : Event} {events before later : List Event}
  {produced : Option (Except Error MetadataDocument)}

def bound? (c : MetadataCache) (e : EntryId) : Option BoundMetadata :=
  (c.made[e]?).bind CacheEntry.bound

theorem bind_loaded (c : MetadataCache) (e : EntryId) (entry : CacheEntry) {version : Version}
    (hb : entry.bound = none) (hv : entry.document.version = .ok version)
    (hm : loader.load entry.document = .ok model) :
    let kept := (c.models.get? entry.key).getD model
    c.bind e entry loader = (.ok ⟨version, kept⟩, { c with
      models := c.models.set entry.key kept
      made := c.made.modify e fun x => { x with bound := some ⟨version, kept⟩ } }) := by
  simp only [bind, hb, hv, hm]

theorem bind_cases (c : MetadataCache) (e : EntryId) (entry : CacheEntry) (loader : ModelLoader) :
    (∃ b, entry.bound = some b ∧ c.bind e entry loader = (.ok b, c)) ∨
    (entry.bound = none ∧ ∃ err, c.bind e entry loader = (.error err, c)) ∨
    (entry.bound = none ∧ ∃ version model, entry.document.version = .ok version ∧
      loader.load entry.document = .ok model ∧
      let kept := (c.models.get? entry.key).getD model
      c.bind e entry loader = (.ok ⟨version, kept⟩, { c with
        models := c.models.set entry.key kept
        made := c.made.modify e fun x => { x with bound := some ⟨version, kept⟩ } })) := by
  cases hb : entry.bound with
  | some b => exact .inl ⟨b, rfl, by simp only [bind, hb]⟩
  | none =>
    refine .inr ?_
    cases hv : entry.document.version with
    | error err => exact .inl ⟨rfl, err, by simp only [bind, hb, hv]⟩
    | ok version =>
      cases hm : loader.load entry.document with
      | error err => exact .inl ⟨rfl, err, by simp only [bind, hb, hv, hm]⟩
      | ok model => exact .inr ⟨rfl, version, model, rfl, rfl, c.bind_loaded e entry hb hv hm⟩

theorem step_bind_of_made (he : c.made[e]? = some entry) (loader : ModelLoader) :
    c.step (.bind e loader) = (c.bind e entry loader).2 := by
  unfold step
  simp only [he]

/-- What a first binding does. -/
theorem bind_unbound (he : c.made[e]? = some entry) (hb : c.bound? e = none)
    (hd : (c.step (.bind e loader)).bound? e = some b) :
    ∃ model, entry.document.version = .ok b.version ∧ loader.load entry.document = .ok model ∧
      b.model = (c.models.get? entry.key).getD model ∧
      (c.step (.bind e loader)).models = c.models.set entry.key b.model := by
  rw [bound?, he] at hb
  rw [step_bind_of_made he] at hd ⊢
  rcases c.bind_cases e entry loader with ⟨b', hb', hq⟩ | ⟨-, err, hq⟩ |
    ⟨-, version, model, hv, hm, hq⟩
  · exact absurd (hb'.symm.trans hb) nofun
  · rw [hq, bound?, he] at hd
    exact absurd (hb.symm.trans hd) nofun
  · rw [hq, bound?, List.getElem?_modify_eq, he] at hd
    obtain rfl := Option.some.inj hd
    exact ⟨model, hv, hm, rfl, by rw [hq]⟩

/-! Entries over time. -/

theorem Move.grown (hm : Move a produced c d) :
    ∃ entries, d.made = c.made ++ entries ∧ ∀ x ∈ entries, x.bound = none := by
  cases hm with
  | queue | fetch => exact ⟨[], (List.append_nil _).symm, List.forall_mem_nil _⟩
  | cancelled | found | failed =>
    exact ⟨[], (made_finish ..).trans (List.append_nil _).symm, List.forall_mem_nil _⟩
  | fetched => exact ⟨_, made_finish .., fun x hx => List.mem_singleton.1 hx ▸ rfl⟩

theorem Moves.grown (hm : Moves a produced c d) :
    ∃ entries, d.made = c.made ++ entries ∧ ∀ x ∈ entries, x.bound = none := by
  induction hm with
  | refl => exact ⟨[], (List.append_nil _).symm, List.forall_mem_nil _⟩
  | tail _ hm ih =>
    obtain ⟨entries, h, hnone⟩ := ih
    obtain ⟨entries', h', hnone'⟩ := hm.grown
    refine ⟨entries ++ entries', by rw [h', h, List.append_assoc], fun x hx => ?_⟩
    exact (List.mem_append.1 hx).elim (hnone x) (hnone' x)

/-- Only a binding changes an entry, and new entries are not bound. -/
theorem made_grown (c : MetadataCache) (hne : ∀ e loader, event ≠ .bind e loader) :
    ∃ entries, (c.step event).made = c.made ++ entries ∧ ∀ x ∈ entries, x.bound = none := by
  have hsame : (c.step event).made = c.made →
      ∃ entries, (c.step event).made = c.made ++ entries ∧ ∀ x ∈ entries, x.bound = none :=
    fun h => ⟨[], h.trans (List.append_nil _).symm, List.forall_mem_nil _⟩
  cases event with
  | add key produced =>
    rw [step_add] at hsame ⊢
    rcases c.add_cases key produced with ⟨_, _, hq⟩ | ⟨_, _, hq⟩ | ⟨_, doc, hq⟩ <;>
      rw [hq] at hsame ⊢
    · exact hsame rfl
    · exact hsame rfl
    · exact ⟨[⟨key, doc, none⟩], rfl, fun x hx => List.mem_singleton.1 hx ▸ rfl⟩
  | call key =>
    rw [step_call] at hsame ⊢
    rcases c.call_cases key with ⟨_, _, hq⟩ | ⟨_, _, _, hq⟩ | ⟨_, _, hq⟩ <;>
      exact hsame (by rw [hq])
  | advance a produced => exact (moves_advance c a produced).grown
  | hear i =>
    obtain ⟨calls, hq⟩ := c.hear_eq i
    exact hsame (by rw [step_hear, hq])
  | abandon i => exact hsame rfl
  | clear key =>
    obtain ⟨attempts, models, hq⟩ := c.clear_eq key
    exact hsame (by rw [step_clear, hq])
  | clearAll =>
    obtain ⟨attempts, hq⟩ := c.clearAll_eq
    exact hsame (by rw [step_clearAll, hq])
  | bind e loader => exact absurd rfl (hne e loader)

theorem made_step (event : Event) (he : c.made[e]? = some entry) :
    ∃ bound, (c.step event).made[e]? = some { entry with bound := bound } := by
  have hsame : (c.step event).made[e]? = c.made[e]? →
      ∃ bound, (c.step event).made[e]? = some { entry with bound := bound } := fun h =>
    ⟨entry.bound, h.trans he⟩
  by_cases hbind : ∃ e' loader, event = .bind e' loader
  · obtain ⟨e', loader, rfl⟩ := hbind
    rcases c.step_bind e' loader with hq | ⟨bound, models, hq⟩ <;> rw [hq] at hsame ⊢
    · exact hsame rfl
    · by_cases hee : e' = e
      · subst hee
        exact ⟨bound, by rw [List.getElem?_modify_eq, he]; rfl⟩
      · exact hsame (List.getElem?_modify_ne _ _ hee)
  · obtain ⟨entries, hq, -⟩ := c.made_grown fun e' loader h => hbind ⟨e', loader, h⟩
    refine hsame ?_
    rw [hq, List.getElem?_append_left (List.getElem?_eq_some_iff.1 he).1]

theorem bound?_step (h : (c.step event).bound? e = some b) :
    c.bound? e = some b ∨ c.bound? e = none ∧ ∃ loader, event = .bind e loader := by
  by_cases hbind : ∃ e' loader, event = .bind e' loader
  · obtain ⟨e', loader, rfl⟩ := hbind
    by_cases hee : e' = e
    · subst hee
      cases hb : c.bound? e' with
      | none => exact .inr ⟨rfl, loader, rfl⟩
      | some b' =>
        obtain ⟨entry, he, hbound⟩ := Option.bind_eq_some_iff.1 hb
        rcases c.bind_cases e' entry loader with ⟨_, -, hq⟩ | ⟨hn, -⟩ | ⟨hn, -⟩
        · rw [step_bind_of_made he, hq] at h
          exact .inl (hb.symm.trans h)
        · exact absurd (hn.symm.trans hbound) nofun
        · exact absurd (hn.symm.trans hbound) nofun
    · rcases c.step_bind e' loader with hq | ⟨bound, models, hq⟩ <;> rw [hq] at h
      · exact .inl h
      · rw [bound?, List.getElem?_modify_ne _ _ hee] at h
        exact .inl h
  · obtain ⟨entries, hq, hnone⟩ := c.made_grown fun e' loader h => hbind ⟨e', loader, h⟩
    rw [bound?, hq, List.getElem?_append] at h
    split at h
    · exact .inl h
    · obtain ⟨entry, he, hbound⟩ := Option.bind_eq_some_iff.1 h
      have hn := hnone entry (List.mem_of_getElem? he)
      exact absurd (hn.symm.trans hbound) nofun

/-! Models over time. -/

theorem Move.models (hm : Move a produced c d) : d.models = c.models := by
  cases hm with
  | queue | fetch => rfl
  | cancelled | found | failed | fetched => exact models_finish ..

theorem Moves.models (hm : Moves a produced c d) : d.models = c.models := by
  induction hm with
  | refl => rfl
  | tail _ hm ih => exact hm.models.trans ih

theorem models_clear (c : MetadataCache) (key : String) :
    (c.clear key).models = c.models.erase key := by
  unfold clear
  cases c.inFlight.get? key <;> rfl

/-- A key has its model from the first binding since it was cleared. -/
theorem models_step (h : (c.step event).models.get? key = some model) :
    c.models.get? key = some model ∧ ¬ event.Clears key ∨
    c.models.get? key = none ∧ ∃ d loader source, event = .bind d loader ∧
      c.made[d]? = some source ∧ source.key = key ∧ loader.load source.document = .ok model := by
  have hsame : ¬ event.Clears key → (c.step event).models = c.models →
      c.models.get? key = some model ∧ ¬ event.Clears key := fun hc hq => ⟨hq ▸ h, hc⟩
  cases event with
  | add k produced =>
    refine .inl (hsame id ?_)
    obtain ⟨made, cached, hq⟩ := c.add_eq k produced
    rw [step_add, hq]
  | call k =>
    refine .inl (hsame id ?_)
    rw [step_call]
    rcases c.call_cases k with ⟨_, _, hq⟩ | ⟨_, _, _, hq⟩ | ⟨_, _, hq⟩ <;> rw [hq]
  | advance a produced => exact .inl (hsame id (moves_advance c a produced).models)
  | hear i =>
    refine .inl (hsame id ?_)
    obtain ⟨calls, hq⟩ := c.hear_eq i
    rw [step_hear, hq]
  | abandon i => exact .inl (hsame id rfl)
  | clear k =>
    rw [step_clear, models_clear, Table.get?_erase] at h
    split at h
    · exact absurd h nofun
    next hk => exact .inl ⟨h, Ne.symm hk⟩
  | clearAll =>
    obtain ⟨attempts, hq⟩ := c.clearAll_eq
    rw [step_clearAll, hq] at h
    exact absurd h nofun
  | bind e loader =>
    cases he : c.made[e]? with
    | none =>
      refine .inl (hsame id ?_)
      unfold step
      simp only [he]
    | some entry =>
      rcases c.bind_cases e entry loader with ⟨_, -, hq⟩ | ⟨-, _, hq⟩ | ⟨-, _, m, -, hm, hq⟩
      · exact .inl (hsame id (by rw [step_bind_of_made he, hq]))
      · exact .inl (hsame id (by rw [step_bind_of_made he, hq]))
      · rw [step_bind_of_made he, hq, Table.get?_set] at h
        split at h
        next hk =>
          subst hk
          cases hkept : c.models.get? entry.key with
          | some kept =>
            rw [hkept] at h
            exact .inl ⟨h, id⟩
          | none =>
            rw [hkept] at h
            obtain rfl := Option.some.inj h
            exact .inr ⟨rfl, e, loader, entry, rfl, he, rfl, hm⟩
        next => exact .inl ⟨h, id⟩

/-! Whose model it is. -/

/-- The entry is one of the key, and the loader reads the model from its document. -/
def Reads (c : MetadataCache) (key : String) (e : EntryId) (loader : ModelLoader)
    (model : EntityModel) : Prop :=
  ∃ entry, c.made[e]? = some entry ∧ entry.key = key ∧ loader.load entry.document = .ok model

/-- The binding of this entry gave the key its model, and the key was not cleared since. -/
def PlacedBy (events : List Event) (key : String) (e : EntryId) (loader : ModelLoader) : Prop :=
  ∃ before later, events = before ++ .bind e loader :: later ∧
    (run .empty before).models.get? key = none ∧
    (run .empty (before ++ [.bind e loader])).models.get? key ≠ none ∧
    ∀ event ∈ later, ¬ event.Clears key

/-- When the entry was bound its key had the model that the binding of `origin` gave it. -/
def BoundBy (events : List Event) (key : String) (e origin : EntryId) (loader : ModelLoader) :
    Prop :=
  ∃ before own later, events = before ++ .bind e own :: later ∧
    (run .empty before).bound? e = none ∧ (run .empty (before ++ [.bind e own])).bound? e ≠ none ∧
    PlacedBy (before ++ [.bind e own]) key origin loader

theorem Reads.step (h : c.Reads key e loader model) (event : Event) :
    (c.step event).Reads key e loader model := by
  obtain ⟨entry, he, hk, hm⟩ := h
  obtain ⟨bound, he⟩ := made_step event he
  exact ⟨_, he, hk, hm⟩

theorem PlacedBy.append (h : PlacedBy events key e loader) (hn : ¬ event.Clears key) :
    PlacedBy (events ++ [event]) key e loader := by
  obtain ⟨before, later, rfl, hnone, hsome, hkept⟩ := h
  refine ⟨before, later ++ [event], by simp, hnone, hsome, fun ev hev => ?_⟩
  rcases List.mem_append.1 hev with hev | hev
  · exact hkept ev hev
  · exact List.mem_singleton.1 hev ▸ hn

theorem BoundBy.append (h : BoundBy events key e origin loader) (event : Event) :
    BoundBy (events ++ [event]) key e origin loader := by
  obtain ⟨before, own, later, rfl, hbound⟩ := h
  exact ⟨before, own, later ++ [event], by simp, hbound⟩

theorem BoundBy.mem (h : BoundBy events key e origin loader) : Event.bind origin loader ∈ events := by
  obtain ⟨before, own, later, rfl, -, -, before', later', hsplit, -⟩ := h
  have hmem : Event.bind origin loader ∈ before ++ [Event.bind e own] := hsplit ▸ by simp
  rw [List.append_cons]
  exact List.mem_append_left later hmem

theorem run_concat (events : List Event) (event : Event) :
    run .empty (events ++ [event]) = (run .empty events).step event :=
  run_append .empty events [event]

theorem placedBy_of_model (h : (run .empty events).models.get? key = some model) :
    ∃ e loader, PlacedBy events key e loader ∧ (run .empty events).Reads key e loader model := by
  induction events using List.reverseRecOn with
  | nil => exact absurd h nofun
  | append_singleton events event ih =>
    rw [run_concat] at h ⊢
    rcases models_step h with ⟨hold, hn⟩ | ⟨hnone, e, loader, entry, rfl, he, hk, hm⟩
    · obtain ⟨e, loader, hplaced, hreads⟩ := ih hold
      exact ⟨e, loader, hplaced.append hn, hreads.step event⟩
    · refine ⟨e, loader, ⟨events, [], rfl, hnone, fun hn => ?_, List.forall_mem_nil _⟩,
        Reads.step ⟨entry, he, hk, hm⟩ _⟩
      rw [run_concat] at hn
      exact absurd (hn.symm.trans h) nofun

theorem boundBy_of_bound (h : (run .empty events).bound? e = some b) :
    ∃ entry, (run .empty events).made[e]? = some entry ∧
      entry.document.version = .ok b.version ∧
      ∃ origin loader, BoundBy events entry.key e origin loader ∧
        (run .empty events).Reads entry.key origin loader b.model := by
  induction events using List.reverseRecOn with
  | nil => exact absurd h nofun
  | append_singleton events event ih =>
    rw [run_concat] at h ⊢
    rcases bound?_step h with hold | ⟨hnone, own, rfl⟩
    · obtain ⟨entry, he, hv, origin, loader, hbound, hreads⟩ := ih hold
      obtain ⟨bound, he'⟩ := made_step event he
      exact ⟨_, he', hv, origin, loader, hbound.append event, hreads.step event⟩
    · cases he : (run .empty events).made[e]? with
      | none =>
        have hsame : (run .empty events).step (.bind e own) = run .empty events := by
          unfold step
          simp only [he]
        rw [hsame] at h
        exact absurd (hnone.symm.trans h) nofun
      | some entry =>
        obtain ⟨model, hv, -, -, hmodels⟩ := bind_unbound he hnone h
        have hplaced : (run .empty (events ++ [.bind e own])).models.get? entry.key =
            some b.model := by
          rw [run_concat, hmodels, Table.get?_set, if_pos rfl]
        obtain ⟨origin, loader, hplaced, hreads⟩ := placedBy_of_model hplaced
        rw [run_concat] at hreads
        obtain ⟨bound, he'⟩ := made_step (.bind e own) he
        refine ⟨_, he', hv, origin, loader, ⟨events, own, [], rfl, hnone, fun hn => ?_, hplaced⟩,
          hreads⟩
        rw [run_concat] at hn
        exact absurd (hn.symm.trans h) nofun

theorem bound?_of_bind (he : c.made[e]? = some entry) (hb : (c.bind e entry loader).1 = .ok b) :
    (c.step (.bind e loader)).bound? e = some b := by
  rw [step_bind_of_made he]
  rcases c.bind_cases e entry loader with ⟨b', hbound, hq⟩ | ⟨-, err, hq⟩ |
    ⟨-, version, model, -, -, hq⟩ <;> rw [hq] at hb ⊢
  · obtain rfl := Except.ok.inj hb
    rw [bound?, he]
    exact hbound
  · exact absurd hb nofun
  · obtain rfl := Except.ok.inj hb
    rw [bound?, List.getElem?_modify_eq, he]
    rfl

/-- The version of a binding is the one of the entry's own document. Its resolver is read from
the document of the entry that had given the key its model when this entry was bound first, and
it is the one of the own document exactly if both documents describe the same. -/
theorem bind_own_iff (events : List Event) (he : (run .empty events).made[e]? = some entry)
    (hb : ((run .empty events).bind e entry .json).1 = .ok b) :
    let after := events ++ [.bind e .json]
    entry.document.version = .ok b.version ∧
    ∃ origin loader source, BoundBy after entry.key e origin loader ∧
      (run .empty after).made[origin]? = some source ∧ source.key = entry.key ∧
      source.document.Describes loader b.navigator ∧
      (entry.document.Describes .json b.navigator ↔
        ∃ nav, source.document.Describes loader nav ∧ entry.document.Describes .json nav) := by
  intro after
  have hbound : (run .empty after).bound? e = some b := by
    rw [run_concat]
    exact bound?_of_bind he hb
  obtain ⟨entry', he', hv, origin, loader, hboundBy, source, hs, hk, hm⟩ := boundBy_of_bound hbound
  obtain ⟨bound, hself⟩ := made_step (.bind e .json) he
  rw [← run_concat] at hself
  obtain rfl := Option.some.inj (hself.symm.trans he')
  have hdescribes : source.document.Describes loader b.navigator :=
    ⟨b.model, hm, b.navigator_eq⟩
  refine ⟨hv, origin, loader, source, hboundBy, hs, hk, hdescribes, fun h => ?_, ?_⟩
  · exact ⟨b.navigator, hdescribes, h⟩
  · rintro ⟨nav, hsource, hown⟩
    exact hdescribes.unique hsource ▸ hown

/-- A service with products, and the same service when it had none yet. -/
def products : MetadataDocument :=
  ⟨"\x7b\"collections\":[\x7b\"name\":\"Products\",\"entity_type\":\"Product\"\x7d]\x7d", ["4.0"]⟩

def noProducts : MetadataDocument := ⟨"\x7b\x7d", ["3.0"]⟩

theorem load_products :
    ModelLoader.json.load products = .ok ⟨none, [⟨"Products", "Product", [], []⟩]⟩ := by
  decide +kernel

theorem load_noProducts : ModelLoader.json.load noProducts = .ok ⟨none, []⟩ := by decide +kernel

/-- An entry that is bound after it was evicted, when nothing was bound before. -/
theorem bind_own_evicted :
    let c := run .empty [.add "Northwind" (.ok products), .clear "Northwind",
      .add "Northwind" (.ok noProducts)]
    let entry : CacheEntry := ⟨"Northwind", products, none⟩
    c.made[0]? = some entry ∧ c.get? "Northwind" = some 1 ∧
      ∃ b, (c.bind 0 entry .json).1 = .ok b ∧ b.version = .v4 ∧
        products.Describes .json b.navigator := by
  intro c entry
  have he : c.made[0]? = some entry := rfl
  have hload := c.bind_loaded 0 entry rfl (by rfl : products.version = .ok .v4) load_products
  have hb := congrArg Prod.fst hload
  obtain ⟨-, origin, loader, source, hbound, hs, -, -, hown⟩ := bind_own_iff _ he hb
  refine ⟨he, rfl, _, hb, rfl, hown.2 ?_⟩
  -- nothing else was bound
  have hmem := hbound.mem
  simp only [List.cons_append, List.nil_append, List.mem_cons, List.not_mem_nil, reduceCtorEq,
    Event.bind.injEq, false_or, or_false] at hmem
  obtain ⟨rfl, rfl⟩ := hmem
  obtain ⟨bound, hself⟩ := made_step (.bind 0 .json) he
  rw [run_concat] at hs
  obtain rfl := Option.some.inj (hself.symm.trans hs)
  exact ⟨_, ⟨_, load_products, rfl⟩, _, load_products, rfl⟩

/-- A fetch replaces an entry that was added and bound meanwhile. -/
theorem bind_replaced :
    let c := run .empty [.call "Northwind", .advance 0 none, .add "Northwind" (.ok products),
      .bind 0 .json, .advance 0 (some (.ok noProducts))]
    let entry : CacheEntry := ⟨"Northwind", noProducts, none⟩
    c.get? "Northwind" = some 1 ∧ c.made[1]? = some entry ∧
      ∃ b, (c.bind 1 entry .json).1 = .ok b ∧ entry.document.version = .ok b.version ∧
        ¬ entry.document.Describes .json b.navigator := by
  intro c entry
  obtain ⟨hget, hmade, hmodels⟩ : c.get? "Northwind" = some 1 ∧ c.made[1]? = some entry ∧
      c.models.get? "Northwind" = some ⟨none, [⟨"Products", "Product", [], []⟩]⟩ := by
    let added := run .empty [.call "Northwind", .advance 0 none,
      .add "Northwind" (.ok products)]
    have hfirst := added.bind_loaded 0 ⟨"Northwind", products, none⟩ rfl
      (by rfl : products.version = .ok .v4) load_products
    have hc : c = ((added.bind 0 ⟨"Northwind", products, none⟩ .json).2).advance 0
        (some (.ok noProducts)) := rfl
    rw [hc, hfirst]
    exact ⟨rfl, rfl, rfl⟩
  have hb : (c.bind 1 entry .json).1 =
      .ok ⟨.v3, ⟨none, [⟨"Products", "Product", [], []⟩]⟩⟩ := by
    rw [c.bind_loaded 1 entry rfl (by rfl : noProducts.version = .ok .v3) load_noProducts, hmodels]
    rfl
  refine ⟨hget, hmade, _, hb, rfl, ?_⟩
  rintro ⟨model, hm, hnav⟩
  obtain rfl := Except.ok.inj (load_noProducts.symm.trans hm)
  have hname := congrArg (fun nav => nav.collectionName "Products") hnav
  exact absurd hname nofun

end MetadataCache

end ODataClient
