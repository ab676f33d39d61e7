import ODataClient.Proofs.Command.Effects
import ODataClient.Proofs.Text.Grouping

/-! The shape of a chain that calls have made. It starts with a collection or a batch reference,
and every later node is a navigation or a cast; a node without a segment is alone. Keys are set
where there is a segment, and they say something. A batch reference is known to the batch of its
node, as long as the batch only grows. -/

namespace ODataClient

def Segment.isStart : Segment → Bool
  | collection _ | batchReference _ => true
  | navigation _ | derivedType _ => false

def Keys.isProper : Keys → Bool
  | none => true
  | positional values => !values.isEmpty
  | named pairs => !(pairs.isEmpty || pairs.any (·.1.isEmpty))

namespace BatchEntries

/-- Everything that was registered is still registered, with its content id. -/
def Extends (b later : BatchEntries) : Prop :=
  ∀ name id, b.contentId? name = some id → later.contentId? name = some id

theorem extends_register (b : BatchEntries) (name : String) : b.Extends (b.register name).2 := by
  intro other id h
  rw [register]
  cases hget : b.get? name with
  | some entry => exact h
  | none =>
    obtain ⟨entry, hentry, rfl⟩ := Option.map_eq_some_iff.1 h
    have hne : other ≠ name := by
      rintro rfl
      simp [hget] at hentry
    refine Option.map_eq_some_iff.2 ⟨entry, ?_, by rfl⟩
    exact ((Table.get?_set _ _ _ _).trans (if_neg hne)).trans hentry

theorem register_of_contentId? {b : BatchEntries} {name : String} {id : UInt32}
    (h : b.contentId? name = some id) : b.register name = (id, b) := by
  obtain ⟨entry, hentry, rfl⟩ := Option.map_eq_some_iff.1 h
  rw [register, hentry]

theorem extends_resolve (b : BatchEntries) (name : String) (payload : Entry) :
    b.Extends (b.resolve name payload).2 := by
  intro other id h
  have hkept := b.extends_register name other id h
  obtain ⟨entry, hentry, rfl⟩ := Option.map_eq_some_iff.1 hkept
  rw [resolve, contentId?, get?, Table.get?_set]
  by_cases hname : other = name
  · subst hname
    simp [register_of_contentId? h]
  · rw [if_neg hname]
    exact hkept

end BatchEntries

namespace CommandNode

/-- The batch of a node knows the entity that the node refers to. -/
def Known (n : CommandNode) : Prop :=
  ∀ name, n.segment = some (.batchReference name) →
    ∃ batch, n.batch = some batch ∧ (batch.contentId? name).isSome = true

end CommandNode

namespace Call

theorem isStart_of_start? {x : Call} {segment : Segment} (h : x.start? = some segment) :
    segment.isStart = true := by
  cases x with
  | collection name =>
    obtain rfl := Option.some.inj h
    rfl
  | batchRef name =>
    obtain rfl := Option.some.inj h
    rfl
  | _ => simp [start?] at h

theorem isStart_of_step? {x : Call} {segment : Segment} (h : x.step? = some segment) :
    segment.isStart = false := by
  cases x with
  | navigate name =>
    obtain rfl := Option.some.inj h
    rfl
  | asType name =>
    obtain rfl := Option.some.inj h
    rfl
  | _ => simp [step?] at h

theorem needsEntity_of_step? {x : Call} {segment : Segment} (h : x.step? = some segment) :
    x.needsEntity = true := by
  cases x <;> first | rfl | simp [step?] at h

theorem keys?_eq_some {x : Call} {keys : Keys} (h : x.keys? = some keys) :
    x.needsEntity = true ∧ x.isComplete = keys.isProper := by
  cases x with
  | key values =>
    obtain rfl := Option.some.inj h
    exact ⟨rfl, rfl⟩
  | namedKeys pairs =>
    obtain rfl := Option.some.inj h
    exact ⟨rfl, rfl⟩
  | _ => simp [keys?] at h

theorem reference?_of_start? {x : Call} {name : String}
    (h : x.start? = some (.batchReference name)) : x.reference? = some name := by
  cases x <;> simp_all [start?, reference?]

theorem start?_of_batch? {x : Call} {batch : BatchEntries} (h : x.batch? = some batch) :
    x.start? = none := by
  cases x <;> first | rfl | simp [batch?] at h

theorem step?_of_batch? {x : Call} {batch : BatchEntries} (h : x.batch? = some batch) :
    x.step? = none := by
  cases x <;> first | rfl | simp [batch?] at h

end Call

namespace Command

def way (c : Command) : List (Option Segment) := c.chain.map (·.segment)

/-- The chain is a node without a segment, or it starts once and goes on from there; keys say
something and belong to a segment. -/
structure WellFormed (c : Command) : Prop where
  shape : c.way = [none] ∨ ∃ (start : Segment) (steps : List Segment),
    c.way = some start :: steps.map some ∧
    start.isStart = true ∧ ∀ segment ∈ steps, segment.isStart = false
  keyed : ∀ n ∈ c.chain, n.keys ≠ .none → n.segment.isSome = true ∧ n.keys.isProper = true

variable {c d : Command} {x : Call} {calls : List Call}

theorem node_mem_chain (c : Command) : c.node ∈ c.chain := by simp [chain]

theorem mem_chain_update {f : CommandNode → CommandNode} {n : CommandNode} :
    n ∈ (c.update f).chain ↔ n ∈ c.ancestors ∨ n = f c.node := by
  rw [chain, List.mem_append, List.mem_singleton]
  rfl

theorem mem_chain_step {segment : Segment} {n : CommandNode} :
    n ∈ (c.step segment).chain ↔ n ∈ c.chain ∨ n = (c.step segment).node := by
  rw [chain, List.mem_append, List.mem_singleton]
  rfl

theorem way_step (c : Command) (segment : Segment) :
    (c.step segment).way = c.way ++ [some segment] := List.map_append

theorem way_update (c : Command) (f : CommandNode → CommandNode) :
    (c.update f).way = c.ancestors.map (·.segment) ++ [(f c.node).segment] := List.map_append

theorem way_eq (c : Command) :
    c.way = c.ancestors.map (·.segment) ++ [c.node.segment] := List.map_append

theorem wellFormed_empty : empty.WellFormed where
  shape := .inl rfl
  keyed n hn hk := by
    obtain rfl := List.mem_singleton.1 hn
    exact absurd rfl hk

theorem WellFormed.ancestors_eq_nil (h : c.WellFormed) (hs : c.node.segment = none) :
    c.ancestors = [] := by
  have hway := c.way_eq
  rw [hs] at hway
  rcases h.shape with halone | ⟨start, steps, hchain, -, -⟩
  · rw [halone] at hway
    simpa using congrArg List.length hway
  · -- a chain that has started has a segment everywhere
    have hmem : none ∈ some start :: steps.map some := by
      rw [← hchain, hway]
      exact List.mem_append_right _ List.mem_cons_self
    simp at hmem

/-- A step adds a node that has a segment and no keys. -/
theorem WellFormed.step (h : c.WellFormed) (hs : c.node.segment.isSome = true) {segment : Segment}
    (hsegment : segment.isStart = false) : (c.step segment).WellFormed where
  shape := by
    refine .inr ?_
    rw [way_step]
    rcases h.shape with halone | ⟨start, steps, hchain, hstart, hsteps⟩
    · have hmem : c.node.segment ∈ c.way := List.mem_map_of_mem c.node_mem_chain
      rw [halone, List.mem_singleton] at hmem
      simp [hmem] at hs
    · refine ⟨start, steps ++ [segment], ?_, hstart, ?_⟩
      · rw [hchain, List.map_append]
        rfl
      · intro s hmem
        rcases List.mem_append.1 hmem with hmem | hmem
        · exact hsteps s hmem
        · obtain rfl := List.mem_singleton.1 hmem
          exact hsegment
  keyed n hn hk := by
    rcases mem_chain_step.1 hn with hn | rfl
    · exact h.keyed n hn hk
    · exact absurd rfl hk

theorem segment_edit_of_isSome (hx : c.Accepts x) (hs : c.node.segment.isSome = true) :
    (x.edit c.entityName? c.node).segment = c.node.segment := by
  rw [Call.segment_edit, hx.start?_eq_none hs, Option.none_or]

/-- A call that stays gives a segment to a node that is alone, and to no other. -/
theorem WellFormed.stay (h : c.WellFormed) (hx : c.Accepts x) :
    (c.update (x.edit c.entityName?)).WellFormed where
  shape := by
    rw [way_update]
    cases hs : c.node.segment with
    | none =>
      rw [h.ancestors_eq_nil hs, Call.segment_edit, hs, Option.or_none]
      cases hstart : x.start? with
      | none => exact .inl rfl
      | some start =>
        exact .inr ⟨start, [], rfl, Call.isStart_of_start? hstart, by simp⟩
    | some segment =>
      rw [segment_edit_of_isSome hx (by simp [hs]), ← way_eq]
      exact h.shape
  keyed n hn hk := by
    rcases mem_chain_update.1 hn with hn | rfl
    · exact h.keyed n (List.mem_append_left _ hn) hk
    rw [Call.keys_edit] at hk ⊢
    cases hkeys : x.keys? with
    | none =>
      rw [hkeys] at hk
      obtain ⟨hs, hproper⟩ := h.keyed c.node c.node_mem_chain hk
      exact ⟨segment_edit_of_isSome hx hs ▸ hs, hproper⟩
    | some keys =>
      obtain ⟨hneeds, hcomplete⟩ := Call.keys?_eq_some hkeys
      have hs := hx.entity hneeds
      exact ⟨segment_edit_of_isSome hx hs ▸ hs, hcomplete ▸ hx.complete⟩

theorem WellFormed.applied (h : c.WellFormed) (hx : c.Accepts x) : (c.applied x).WellFormed := by
  cases hstep : x.step? with
  | none =>
    rw [applied_of_stay hstep]
    exact h.stay hx
  | some segment =>
    rw [applied_of_step hstep]
    exact h.step (hx.entity (Call.needsEntity_of_step? hstep)) (Call.isStart_of_step? hstep)

/-- The calls keep the shape, whatever comes after them. -/
theorem wellFormed_of_run (h : calls.foldlM apply empty = .ok c) : c.WellFormed :=
  foldlM_apply_induction h wellFormed_empty fun _ _ _ hc hx => hc.applied hx

theorem WellFormed.segment_of_ancestor (h : c.WellFormed) {n : CommandNode} (hn : n ∈ c.ancestors) :
    n.segment.isSome = true := by
  rcases h.shape with halone | ⟨start, steps, hchain, -, -⟩
  · rw [way_eq] at halone
    have hlength := congrArg List.length halone
    have hnil : c.ancestors = [] := by simpa using hlength
    exact absurd hn (by simp [hnil])
  · have hmem : n.segment ∈ some start :: steps.map some := by
      rw [← hchain, way_eq]
      exact List.mem_append_left _ (List.mem_map_of_mem hn)
    rcases List.mem_cons.1 hmem with heq | hmem
    · simp [heq]
    · obtain ⟨segment, -, heq⟩ := List.mem_map.1 hmem
      simp [← heq]

/-! ### Batches -/

/-- The calls work on one batch, which only grows between them. -/
def OneBatch (calls : List Call) : Prop := (calls.filterMap Call.batch?).Pairwise BatchEntries.Extends

theorem known_stay (hx : c.Accepts x) (hk : c.node.Known)
    (hb : ∀ old ∈ c.node.batch, ∀ batch ∈ x.batch?, old.Extends batch) :
    (x.edit c.entityName? c.node).Known := by
  intro name hs
  rw [Call.segment_edit] at hs
  rw [Call.batch_edit]
  cases hbatch : x.batch? with
  | none =>
    rw [Option.none_or]
    cases hstart : x.start? with
    | none =>
      rw [hstart, Option.none_or] at hs
      exact hk name hs
    | some segment =>
      rw [hstart] at hs
      obtain rfl := Option.some.inj hs
      exact hx.registered name (Call.reference?_of_start? hstart)
  | some batch =>
    rw [Call.start?_of_batch? hbatch, Option.none_or] at hs
    obtain ⟨old, hold, hid⟩ := hk name hs
    obtain ⟨id, hid⟩ := Option.isSome_iff_exists.1 hid
    exact ⟨batch, rfl, by simp [hb old hold batch hbatch name id hid]⟩

theorem known_applied (hx : c.Accepts x) (hk : ∀ n ∈ c.chain, n.Known)
    (hb : ∀ old ∈ c.node.batch, ∀ batch ∈ x.batch?, old.Extends batch) :
    ∀ n ∈ (c.applied x).chain, n.Known := by
  intro n hn
  cases hstep : x.step? with
  | none =>
    rw [applied_of_stay hstep] at hn
    rcases mem_chain_update.1 hn with hn | rfl
    · exact hk n (List.mem_append_left _ hn)
    · exact known_stay hx (hk c.node c.node_mem_chain) hb
  | some segment =>
    rw [applied_of_step hstep] at hn
    rcases mem_chain_step.1 hn with hn | rfl
    · exact hk n hn
    · intro name hs
      obtain rfl := Option.some.inj hs
      exact absurd (Call.isStart_of_step? hstep) (by simp [Segment.isStart])

theorem batch_applied (c : Command) (x : Call) :
    (c.applied x).node.batch = x.batch?.or c.node.batch := by
  cases hstep : x.step? with
  | none =>
    rw [applied_of_stay hstep]
    exact Call.batch_edit _ x c.node
  | some segment =>
    have hbatch : x.batch? = none := by
      by_contra hbatch
      obtain ⟨batch, hbatch⟩ := Option.ne_none_iff_exists'.1 hbatch
      simp [Call.step?_of_batch? hbatch] at hstep
    rw [applied_of_step hstep, hbatch, Option.none_or]
    rfl

theorem known_of_run (h : calls.foldlM apply c = .ok d) (hk : ∀ n ∈ c.chain, n.Known)
    (hb : (c.node.batch.toList ++ calls.filterMap Call.batch?).Pairwise BatchEntries.Extends) :
    ∀ n ∈ d.chain, n.Known := by
  induction calls generalizing c with
  | nil =>
    obtain rfl : c = d := Except.ok.inj h
    exact hk
  | cons x calls ih =>
    obtain ⟨hx, h⟩ := foldlM_cons_eq_ok_iff.1 h
    obtain ⟨-, hlater, hold⟩ := List.pairwise_append.1 hb
    have hgrows : ∀ old ∈ c.node.batch, ∀ batch ∈ x.batch?, old.Extends batch := by
      intro old hmem batch hbatch
      exact hold old (Option.mem_toList.2 hmem) batch
        (List.mem_filterMap.2 ⟨x, List.mem_cons_self, hbatch⟩)
    refine ih h (known_applied hx hk hgrows) ?_
    rw [batch_applied]
    cases hbatch : x.batch? with
    | none =>
      rw [List.filterMap_cons_none hbatch] at hb
      exact hb
    | some batch =>
      rw [List.filterMap_cons_some hbatch] at hlater
      exact hlater

theorem known_of_build (h : build calls = .ok c) (hb : OneBatch calls) : ∀ n ∈ c.chain, n.Known := by
  refine known_of_run (build_eq_ok_iff.1 h).1 ?_ hb
  intro n hn name hs
  obtain rfl := List.mem_singleton.1 hn
  cases hs

end Command

end ODataClient
