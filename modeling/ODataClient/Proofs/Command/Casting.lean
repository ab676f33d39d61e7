import ODataClient.Proofs.Command.Chain
import ODataClient.Proofs.Command.FilterOrigins

/-! A cast put into a sequence of calls. It starts a node that takes over the filters and the batch
and nothing else. The calls after it are accepted as before; up to the next step along the chain
they are put on a node that lacks the rest, and after that step nothing differs but the chain. -/

namespace ODataClient

namespace CommandNode

/-- What a cast leaves of a node, and what says where the node is. -/
def bare (n : CommandNode) : CommandNode :=
  { empty with
    segment := n.segment
    keys := n.keys
    textFilters := n.textFilters
    filters := n.filters
    batch := n.batch }

/-- The same node at another place of a chain. -/
def placed (segment : Option Segment) (keys : Keys) (n : CommandNode) : CommandNode :=
  { n with segment := segment, keys := keys }

end CommandNode

namespace Call

/-- The calls that are about the chain, the filters or the batch. -/
def outlivesCast : Call → Bool
  | collection _ | batchRef _ | navigate _ | asType _ | key _ | namedKeys _
  | filter _ | filterOn _ _ | filterText _ | inBatch _ => true
  | _ => false

variable {entity? : Option String} {x : Call} {n : CommandNode}

theorem bare_edit (h : x.outlivesCast = true) :
    (x.edit entity? n).bare = x.edit entity? n.bare := by
  cases x <;> first | rfl | simp [outlivesCast] at h

theorem bare_edit_of_not (h : x.outlivesCast = false) : (x.edit entity? n).bare = n.bare := by
  cases x <;> first | rfl | simp [outlivesCast] at h

theorem outlivesCast_of_step? {segment : Segment} (h : x.step? = some segment) :
    x.outlivesCast = true := by
  cases x <;> first | rfl | simp [step?] at h

theorem invocation?_of_outlivesCast (h : x.outlivesCast = true) : x.invocation? = none := by
  cases x <;> first | rfl | simp [outlivesCast] at h

/-- A call that neither starts the chain nor sets keys does the same at every place. -/
theorem edit_placed (hstart : x.start? = none) (hkeys : x.keys? = none) (segment : Option Segment)
    (keys : Keys) : x.edit entity? (n.placed segment keys) = (x.edit entity? n).placed segment keys := by
  cases x with
  | collection name => simp [start?] at hstart
  | batchRef name => simp [start?] at hstart
  | key values => simp [keys?] at hkeys
  | namedKeys pairs => simp [keys?] at hkeys
  | _ => rfl

def editAll (entity? : Option String) (calls : List Call) (n : CommandNode) : CommandNode :=
  calls.foldl (fun n x => x.edit entity? n) n

theorem editAll_placed {calls : List Call} (hstart : ∀ x ∈ calls, x.start? = none)
    (hkeys : ∀ x ∈ calls, x.keys? = none) (segment : Option Segment) (keys : Keys) :
    editAll entity? calls (n.placed segment keys) = (editAll entity? calls n).placed segment keys := by
  induction calls generalizing n with
  | nil => rfl
  | cons x calls ih =>
    rw [List.forall_mem_cons] at hstart hkeys
    rw [editAll, List.foldl_cons, edit_placed hstart.1 hkeys.1]
    exact ih hstart.2 hkeys.2

theorem place_editAll {calls : List Call} (hstart : ∀ x ∈ calls, x.start? = none)
    (hkeys : ∀ x ∈ calls, x.keys? = none) :
    (editAll entity? calls n).segment = n.segment ∧ (editAll entity? calls n).keys = n.keys := by
  have hself : n.placed n.segment n.keys = n := rfl
  have hplaced : editAll entity? calls n = (editAll entity? calls n).placed n.segment n.keys := by
    rw [← editAll_placed hstart hkeys, hself]
  exact ⟨congrArg (·.segment) hplaced, congrArg (·.keys) hplaced⟩

end Call

namespace Command

variable {c d e f : Command} {x : Call} {calls before after : List Call}

def bare (c : Command) : Command := ⟨c.ancestors.map (·.bare), c.node.bare⟩

theorem chain_bare (c : Command) : c.bare.chain = c.chain.map (·.bare) := by
  rw [chain, chain, List.map_append]
  rfl

theorem entityName?_bare (c : Command) : c.bare.entityName? = c.entityName? := by
  rw [entityName?, chain_bare, ← List.map_reverse, List.findSome?_map]
  rfl

theorem bare_step (c : Command) (segment : Segment) : (c.step segment).bare = c.bare.step segment := by
  have hchain := c.chain_bare
  simp only [step, branch, update, hchain]
  rfl

theorem bare_applied (h : x.outlivesCast = true) : (c.applied x).bare = c.bare.applied x := by
  cases hstep : x.step? with
  | some segment => rw [applied_of_step hstep, applied_of_step hstep, bare_step]
  | none =>
    rw [applied_of_stay hstep, applied_of_stay hstep, entityName?_bare]
    exact congrArg (Command.mk _) (Call.bare_edit h)

theorem bare_applied_of_not (h : x.outlivesCast = false) : (c.applied x).bare = c.bare := by
  have hstep : x.step? = none := by
    by_contra hstep
    obtain ⟨segment, hstep⟩ := Option.ne_none_iff_exists'.1 hstep
    simp [Call.outlivesCast_of_step? hstep] at h
  rw [applied_of_stay hstep]
  exact congrArg (Command.mk _) (Call.bare_edit_of_not h)

theorem accepts_bare (h : x.outlivesCast = true) (hx : c.Accepts x) : c.bare.Accepts x where
  entity := hx.entity
  complete := hx.complete
  first := hx.first
  unfiltered hn := by
    have hfree := hx.unfiltered hn
    rwa [hasRootFilter, ← entityName?_bare] at hfree
  single hi := by simp [Call.invocation?_of_outlivesCast h] at hi
  registered := hx.registered

/-- Without the calls that a cast discards, the others build the bare command. -/
theorem run_bare (h : calls.foldlM apply c = .ok d) :
    (calls.filter Call.outlivesCast).foldlM apply c.bare = .ok d.bare := by
  induction calls generalizing c with
  | nil =>
    obtain rfl : c = d := Except.ok.inj h
    rfl
  | cons x calls ih =>
    obtain ⟨hx, h⟩ := foldlM_cons_eq_ok_iff.1 h
    cases hout : x.outlivesCast with
    | true =>
      rw [List.filter_cons_of_pos hout, foldlM_cons_eq_ok_iff, ← bare_applied hout]
      exact ⟨accepts_bare hout hx, ih h⟩
    | false =>
      rw [List.filter_cons_of_neg (by simp [hout]), ← bare_applied_of_not hout]
      exact ih h

/-! ### Accepted as before -/

/-- Nothing that the guards look at keeps `e` from going on like `c`. -/
structure Follows (c e : Command) : Prop where
  here : c.node.segment.isSome = true
  there : e.node.segment.isSome = true
  entity : e.entityName? = c.entityName?
  filters : e.node.filters = c.node.filters
  textFilters : e.node.textFilters = c.node.textFilters
  batch : e.node.batch = c.node.batch
  single : c.node.invocation = none → e.node.invocation = none

theorem follows_bare (h : c.node.segment.isSome = true) : c.Follows c.bare :=
  ⟨h, h, c.entityName?_bare, rfl, rfl, rfl, fun _ => rfl⟩

theorem follows_cast (h : c.node.segment.isSome = true) (typeName : String) :
    c.Follows (c.step (.derivedType typeName)) :=
  ⟨h, rfl, c.entityName?_step _, rfl, rfl, rfl, fun _ => rfl⟩

theorem Follows.accepts (h : c.Follows e) (hx : c.Accepts x) : e.Accepts x where
  entity _ := h.there
  complete := hx.complete
  first hs := by
    have hnone := hx.start?_eq_none h.here
    simp [hnone] at hs
  unfiltered hn := by
    have hfree := hx.unfiltered hn
    rwa [hasRootFilter, ← h.entity, ← h.filters, ← h.textFilters] at hfree
  single hi := h.single (hx.single hi)
  registered := by
    rw [h.batch]
    exact hx.registered

theorem Follows.applied (h : c.Follows e) (hx : c.Accepts x) : (c.applied x).Follows (e.applied x) := by
  have he := h.accepts hx
  cases hstep : x.step? with
  | some segment =>
    rw [applied_of_step hstep, applied_of_step hstep]
    refine ⟨rfl, rfl, ?_, h.filters, h.textFilters, h.batch, fun _ => rfl⟩
    rw [entityName?_step, entityName?_step, h.entity]
  | none =>
    refine ⟨segment_applied h.here x, segment_applied h.there x, ?_, ?_, ?_, ?_, ?_⟩
    · have hn : x.navigation? = none := by cases x <;> first | rfl | simp [Call.step?] at hstep
      rw [entityName?_applied h.there he hn, entityName?_applied h.here hx hn, h.entity]
    all_goals rw [applied_of_stay hstep, applied_of_stay hstep, h.entity]
    · refine (Call.filters_edit _ x e.node).trans (Eq.trans ?_ (Call.filters_edit _ x c.node).symm)
      rw [h.filters]
    · refine (Call.textFilters_edit _ x e.node).trans
        (Eq.trans ?_ (Call.textFilters_edit _ x c.node).symm)
      rw [h.textFilters]
    · refine (Call.batch_edit _ x e.node).trans (Eq.trans ?_ (Call.batch_edit _ x c.node).symm)
      rw [h.batch]
    · intro hnone
      have hc := (Call.invocation_edit _ x c.node).symm.trans hnone
      obtain ⟨hx?, hfree⟩ := Option.or_eq_none_iff.1 hc
      refine (Call.invocation_edit _ x e.node).trans ?_
      rw [hx?, h.single hfree]
      rfl

theorem Follows.run (h : c.Follows e) (hrun : calls.foldlM apply c = .ok d) :
    ∃ f, calls.foldlM apply e = .ok f ∧ d.Follows f := by
  induction calls generalizing c e with
  | nil =>
    obtain rfl : c = d := Except.ok.inj hrun
    exact ⟨e, rfl, h⟩
  | cons x calls ih =>
    obtain ⟨hx, hrun⟩ := foldlM_cons_eq_ok_iff.1 hrun
    obtain ⟨f, hf, hfollows⟩ := ih (h.applied hx) hrun
    exact ⟨f, foldlM_cons_eq_ok_iff.2 ⟨h.accepts hx, hf⟩, hfollows⟩

/-! ### Up to the next step, and after it -/

theorem start?_of_run (h : calls.foldlM apply c = .ok d) (hs : c.node.segment.isSome = true) :
    ∀ x ∈ calls, x.start? = none := by
  induction calls generalizing c with
  | nil => exact fun x hx => absurd hx List.not_mem_nil
  | cons x calls ih =>
    obtain ⟨hx, h⟩ := foldlM_cons_eq_ok_iff.1 h
    exact List.forall_mem_cons.2 ⟨hx.start?_eq_none hs, ih h (segment_applied hs x)⟩

/-- Calls that stay change one node. -/
theorem run_of_stays (h : calls.foldlM apply c = .ok d) (hs : c.node.segment.isSome = true)
    (hstay : ∀ x ∈ calls, x.step? = none) :
    d = ⟨c.ancestors, Call.editAll c.entityName? calls c.node⟩ := by
  induction calls generalizing c with
  | nil =>
    obtain rfl : c = d := Except.ok.inj h
    rfl
  | cons x calls ih =>
    obtain ⟨hx, h⟩ := foldlM_cons_eq_ok_iff.1 h
    rw [List.forall_mem_cons] at hstay
    have hn : x.navigation? = none := by
      cases x <;> first | rfl | simp [Call.step?] at hstay
    rw [ih h (segment_applied hs x) hstay.2, entityName?_applied hs hx hn, applied_of_stay hstay.1]
    rfl

theorem applied_of_same (hn : e.node = c.node) (he : e.entityName? = c.entityName?) (x : Call) :
    (e.applied x).node = (c.applied x).node ∧
      ∃ tail, (c.applied x).ancestors = c.ancestors ++ tail ∧
        (e.applied x).ancestors = e.ancestors ++ tail := by
  cases hstep : x.step? with
  | some segment =>
    rw [applied_of_step hstep, applied_of_step hstep]
    refine ⟨?_, [c.node], rfl, ?_⟩
    · simp only [step, branch, update, hn]
    · simp only [step, branch, update, chain, hn]
  | none =>
    rw [applied_of_stay hstep, applied_of_stay hstep, he]
    refine ⟨?_, [], ?_, ?_⟩
    · simp only [update, hn]
    · simp [update]
    · simp [update]

/-- Two commands that address the same node go the same way from there. -/
theorem Follows.run_of_same (h : c.Follows e) (hn : e.node = c.node)
    (hrun : calls.foldlM apply c = .ok d) :
    ∃ f tail, calls.foldlM apply e = .ok f ∧ d.Follows f ∧ f.node = d.node ∧
      d.ancestors = c.ancestors ++ tail ∧ f.ancestors = e.ancestors ++ tail := by
  induction calls generalizing c e with
  | nil =>
    obtain rfl : c = d := Except.ok.inj hrun
    exact ⟨e, [], rfl, h, hn, by simp, by simp⟩
  | cons x calls ih =>
    obtain ⟨hx, hrun⟩ := foldlM_cons_eq_ok_iff.1 hrun
    obtain ⟨hnode, first, hc, he⟩ := applied_of_same hn h.entity x
    obtain ⟨f, tail, hf, hfollows, hfnode, hd, hf'⟩ := ih (h.applied hx) hnode hrun
    refine ⟨f, first ++ tail, foldlM_cons_eq_ok_iff.2 ⟨h.accepts hx, hf⟩, hfollows, hfnode, ?_, ?_⟩
    · rw [hd, hc, List.append_assoc]
    · rw [hf', he, List.append_assoc]

theorem node_cast (d : Command) (typeName : String) : (d.step (.derivedType typeName)).node =
    d.node.bare.placed (some (.derivedType typeName)) .none := rfl

/-- When a step follows the cast, only the chain has changed: the node of the cast stands in it. -/
theorem cast_before_step {middle rest : List Call} {y : Call} {segment : Segment}
    (hs : d.node.segment.isSome = true) (hstay : ∀ x ∈ middle, x.step? = none)
    (hkeys : ∀ x ∈ middle, x.keys? = none) (hy : y.step? = some segment)
    (h : (middle ++ y :: rest).foldlM apply d = .ok c) (typeName : String) :
    ∃ c', (middle ++ y :: rest).foldlM apply (d.step (.derivedType typeName)) = .ok c' ∧
      c.Follows c' ∧ c'.node = c.node ∧ ∃ n n' tail,
        n.segment = d.node.segment ∧ n.keys = d.node.keys ∧
        n'.segment = some (.derivedType typeName) ∧ n'.keys = .none ∧
        c.ancestors = d.ancestors ++ n :: tail ∧ c'.ancestors = d.chain ++ n' :: tail := by
  obtain ⟨dm, hdm, h⟩ := foldlM_append_eq_ok_iff.1 h
  obtain ⟨hx, h⟩ := foldlM_cons_eq_ok_iff.1 h
  obtain ⟨em, hem, hfollows⟩ := (follows_cast hs typeName).run hdm
  have hnodes : (em.applied y).node = (dm.applied y).node := by
    rw [applied_of_step hy, applied_of_step hy]
    simp only [step, branch, update, hfollows.filters, hfollows.textFilters, hfollows.batch]
  obtain ⟨c', tail, hc', hlast, hnode, hc, hc'a⟩ := (hfollows.applied hx).run_of_same hnodes h
  have hstart := start?_of_run hdm hs
  obtain rfl := run_of_stays hdm hs hstay
  obtain rfl := run_of_stays hem (by rfl) hstay
  have hplace (e : Command) : (Call.editAll e.entityName? middle e.node).segment = e.node.segment ∧
      (Call.editAll e.entityName? middle e.node).keys = e.node.keys :=
    Call.place_editAll hstart hkeys
  obtain ⟨hseg, hkey⟩ := hplace d
  obtain ⟨hseg', hkey'⟩ := hplace (d.step (.derivedType typeName))
  refine ⟨c', foldlM_append_eq_ok_iff.2 ⟨_, hem, foldlM_cons_eq_ok_iff.2
    ⟨hfollows.accepts hx, hc'⟩⟩, hlast, hnode, _, _, tail, hseg, hkey, hseg', hkey', ?_, ?_⟩
  · rw [hc, applied_of_step hy]
    simp [step, branch, update, chain]
  · rw [hc'a, applied_of_step hy]
    simp [step, branch, update, chain]

/-- When no step follows the cast, its node is that of the command without the discarded calls,
put behind the addressed one. -/
theorem cast_at_end (hs : d.node.segment.isSome = true) (hstay : ∀ x ∈ calls, x.step? = none)
    (hkeys : ∀ x ∈ calls, x.keys? = none) (h : calls.foldlM apply d = .ok c) (typeName : String) :
    ∃ c' c₀, calls.foldlM apply (d.step (.derivedType typeName)) = .ok c' ∧
      calls.foldlM apply d.bare = .ok c₀ ∧ c.Follows c' ∧ c.Follows c₀ ∧
      c'.node = c₀.node.placed (some (.derivedType typeName)) .none ∧
      (c.ancestors = d.ancestors ∧ c.node.segment = d.node.segment ∧ c.node.keys = d.node.keys) ∧
      (c₀.ancestors = d.bare.ancestors ∧ c₀.node.segment = d.node.segment ∧
        c₀.node.keys = d.node.keys) ∧ c'.ancestors = d.chain := by
  obtain ⟨c', hc', hfollows'⟩ := (follows_cast hs typeName).run h
  obtain ⟨c₀, hc₀, hfollows₀⟩ := (follows_bare hs).run h
  have hstart := start?_of_run h hs
  refine ⟨c', c₀, hc', hc₀, hfollows', hfollows₀, ?_⟩
  obtain rfl := run_of_stays hc' (by rfl) hstay
  obtain rfl := run_of_stays hc₀ hs hstay
  obtain rfl := run_of_stays h hs hstay
  refine ⟨?_, ⟨rfl, Call.place_editAll hstart hkeys⟩, ⟨rfl, ?_⟩, rfl⟩
  swap
  · exact Call.place_editAll (n := d.bare.node) hstart hkeys
  have hentity : (d.step (.derivedType typeName)).entityName? = d.bare.entityName? := by
    rw [entityName?_step, entityName?_bare]
    rfl
  simp only [hentity, node_cast]
  exact Call.editAll_placed hstart hkeys _ _

/-- A command over a collection goes on from it and does not refer to a batch. -/
theorem over_collection {name : String} (h : calls.foldlM apply empty = .ok d)
    (hcall : .collection name ∈ calls) : d.node.segment.isSome = true ∧
      ∀ n ∈ d.chain, ∀ key, n.segment ≠ some (.batchReference key) := by
  obtain ⟨before, after, rfl⟩ := List.append_of_mem hcall
  obtain ⟨e, he, h⟩ := foldlM_append_eq_ok_iff.1 h
  obtain ⟨hx, h⟩ := foldlM_cons_eq_ok_iff.1 h
  have hnone : e.node.segment = none := hx.first (by rfl)
  have hchain : (e.applied (.collection name)).chain =
      [{ e.node with segment := some (.collection name) }] := by
    rw [applied_of_stay (by rfl), chain]
    simp [update, Call.edit, (wellFormed_of_run he).ancestors_eq_nil hnone]
  refine foldlM_apply_induction
    (P := fun e => e.node.segment.isSome = true ∧
      ∀ n ∈ e.chain, ∀ key, n.segment ≠ some (.batchReference key)) h ⟨by rfl, ?_⟩ ?_
  · intro n hn key
    rw [hchain, List.mem_singleton] at hn
    simp [hn]
  · rintro f y - ⟨hs, hf⟩ hy
    refine ⟨segment_applied hs y, fun n hn key => ?_⟩
    cases hstep : y.step? with
    | some segment =>
      rw [applied_of_step hstep] at hn
      rcases mem_chain_step.1 hn with hn | rfl
      · exact hf n hn key
      · rintro hsegment
        obtain rfl := Option.some.inj hsegment
        exact absurd (Call.isStart_of_step? hstep) (by simp [Segment.isStart])
    | none =>
      rw [applied_of_stay hstep] at hn
      rcases mem_chain_update.1 hn with hn | rfl
      · exact hf n (List.mem_append_left _ hn) key
      · rw [segment_edit_of_isSome hy hs]
        exact hf f.node f.node_mem_chain key

end Command

end ODataClient
