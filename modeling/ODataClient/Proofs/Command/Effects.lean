import ODataClient.Proofs.Request.CallOrder

/-! What a call does. It is accepted when its names are in order, what it needs has been chosen
and what it excludes has not. An accepted call goes one step along the chain or changes the node
that is addressed; nothing else of a command ever changes. -/

namespace ODataClient

namespace Call

/-- The segment that a call starts the chain with. -/
def start? : Call → Option Segment
  | collection name => some (.collection name)
  | batchRef name => some (.batchReference name)
  | _ => none

/-- The segment of the new node that a call goes on to. -/
def step? : Call → Option Segment
  | navigate navigation => some (.navigation navigation)
  | asType typeName => some (.derivedType typeName)
  | _ => none

def keys? : Call → Option Keys
  | key values => some (.positional values)
  | namedKeys pairs => some (.named pairs)
  | _ => none

def invocation? : Call → Option Invocation
  | invoke invocation => some invocation
  | _ => none

def batch? : Call → Option BatchEntries
  | inBatch batch => some batch
  | _ => none

def navigation? : Call → Option String
  | navigate navigation => some navigation
  | _ => none

def reference? : Call → Option String
  | batchRef name => some name
  | _ => none

/-- No name, text or list that the call is given is empty where it has to say something. -/
def isComplete : Call → Bool
  | collection name | navigate name | asType name | linkTo name _ | batchRef name =>
    !isBlankText name
  | invoke invocation => !isBlankText invocation.name
  | key values => !values.isEmpty
  | namedKeys pairs => !(pairs.isEmpty || pairs.any (·.1.isEmpty))
  | x => x.isNamed

def needsEntity : Call → Bool
  | collection _ | batchRef _ | invoke _ | queryOptions _ | queryOptionsExpr _ | queryOption _ _
  | inBatch _ => false
  | _ => true

/-- What a call makes of the node that is addressed, when it does not leave it. -/
def edit (entity? : Option String) : Call → CommandNode → CommandNode
  | collection name, n => { n with segment := some (.collection name) }
  | batchRef name, n => { n with segment := some (.batchReference name) }
  | key values, n => { n with keys := .positional values }
  | namedKeys pairs, n => { n with keys := .named pairs }
  | invoke invocation, n => { n with invocation := some invocation }
  | insert entry, n => { n with entry := some entry, operation := .insert }
  | update entry, n => { n with entry := some entry, operation := .update }
  | delete, n => { n with operation := .delete }
  | linkTo navigation target, n => { n with link := some navigation, linkTarget := some target }
  | inBatch batch, n => { n with batch := some batch }
  | x, n => x.change entity? n

variable (entity? : Option String) (x : Call) (n : CommandNode)

theorem segment_edit : (x.edit entity? n).segment = x.start?.or n.segment := by
  cases x <;> rfl

theorem keys_edit : (x.edit entity? n).keys = x.keys?.getD n.keys := by
  cases x <;> rfl

theorem invocation_edit : (x.edit entity? n).invocation = x.invocation?.or n.invocation := by
  cases x <;> rfl

theorem batch_edit : (x.edit entity? n).batch = x.batch?.or n.batch := by
  cases x <;> rfl

theorem entity?_of_step {x : Call} {segment : Segment} (h : x.step? = some segment) :
    segment.entity? = x.navigation? := by
  cases x with
  | navigate navigation =>
    obtain rfl := Option.some.inj h
    rfl
  | asType typeName =>
    obtain rfl := Option.some.inj h
    rfl
  | _ => simp [step?] at h

end Call

namespace Command

/-- The guards of a call. -/
@[mk_iff] structure Accepts (c : Command) (x : Call) : Prop where
  entity : x.needsEntity = true → c.node.segment.isSome = true
  complete : x.isComplete = true
  first : x.start?.isSome = true → c.node.segment = none
  unfiltered : x.navigation?.isSome = true → c.hasRootFilter = false
  single : x.invocation?.isSome = true → c.node.invocation = none
  registered : ∀ key ∈ x.reference?,
    ∃ batch, c.node.batch = some batch ∧ (batch.contentId? key).isSome = true

def applied (c : Command) (x : Call) : Command :=
  match x.step? with
  | some segment => c.step segment
  | none => c.update (x.edit c.entityName?)

variable {c d : Command} {x : Call} {calls : List Call}

theorem applied_of_step {segment : Segment} (h : x.step? = some segment) :
    c.applied x = c.step segment := by
  rw [applied, h]

theorem applied_of_stay (h : x.step? = none) : c.applied x = c.update (x.edit c.entityName?) := by
  rw [applied, h]

theorem requireEntity_bind {α : Type} {operation : String} {f : Unit → Except Error α} {y : α} :
    (c.requireEntity operation >>= f) = .ok y ↔ c.node.segment.isSome = true ∧ f () = .ok y := by
  by_cases h : c.node.segment.isSome = true
  · rw [requireEntity_ok h, ok_bind]
    exact (and_iff_right h).symm
  · rw [requireEntity, if_neg h, error_bind]
    simp [h]

theorem requireText_bind {α : Type} {operation value : String} {f : Unit → Except Error α} {y : α} :
    (requireText operation value >>= f) = .ok y ↔ (!isBlankText value) = true ∧ f () = .ok y := by
  by_cases h : (!isBlankText value) = true
  · rw [requireText_ok h, ok_bind]
    exact (and_iff_right h).symm
  · have hblank : isBlankText value = true := by simpa using h
    rw [requireText, if_pos hblank, error_bind]
    simp [hblank]

theorem requireBoth_bind {α : Type} {operation value : String} {f : Unit → Except Error α} {y : α} :
    (c.requireBoth operation value >>= f) = .ok y ↔
      c.node.segment.isSome = true ∧ (!isBlankText value) = true ∧ f () = .ok y := by
  have hassoc : (c.requireBoth operation value >>= f) =
      c.requireEntity operation >>= fun _ => requireText operation value >>= f := by
    rw [requireBoth]
    cases c.requireEntity operation <;> rfl
  rw [hassoc, requireEntity_bind, requireText_bind]

theorem addSelects_bind {α : Type} {items selects : List String} {f : List String → Except Error α}
    {y : α} : (addSelects selects items >>= f) = .ok y ↔
      (items.all fun item => !isBlankText item) = true ∧
        f (Adapter.addMissing selects items) = .ok y := by
  by_cases h : (items.all fun item => !isBlankText item) = true
  · rw [addSelects_ok (List.all_eq_true.1 h), ok_bind]
    exact (and_iff_right h).symm
  · have herror : ∃ e, addSelects selects items = .error e := by
      induction items generalizing selects with
      | nil => exact absurd rfl h
      | cons item items ih =>
        rw [addSelects]
        cases hb : isBlankText item with
        | true => exact ⟨_, by rw [requireText, if_pos hb]; rfl⟩
        | false =>
          rw [requireText_ok (by simp [hb]), ok_bind]
          exact ih (by simpa [hb] using h)
    obtain ⟨e, he⟩ := herror
    rw [he, error_bind]
    simp [h]

theorem filterEntity_eq (c : Command) (e : Expr) :
    c.filterEntity e = c.update (Call.edit c.entityName? (.filter e)) := by
  rw [filterEntity]
  cases c.entityName? <;> rfl

theorem filterEntityText_eq (c : Command) (text : String) :
    c.filterEntityText text = c.update (Call.edit c.entityName? (.filterText text)) := by
  rw [filterEntityText]
  cases c.entityName? <;> rfl

theorem guard_eq_ok_iff {b : Bool} {e : Error} :
    (if b = true then (Except.error e >>= fun _ : PUnit => Except.ok c) else Except.ok c) = .ok d ↔
      b = false ∧ c = d := by
  cases b <;> simp

/-- A call succeeds exactly when it is accepted, and then does what it says. -/
theorem apply_eq_ok_iff : c.apply x = .ok d ↔ c.Accepts x ∧ d = c.applied x := by
  rw [accepts_iff, @eq_comm _ d]
  cases x <;>
    simp only [apply, putEntry, putOperation, putLink, bind_assoc, ok_bind, requireEntity_bind,
      requireText_bind, requireBoth_bind, addSelects_bind, filterEntity_eq, filterEntityText_eq,
      guard_eq_ok_iff, throw_eq_error, pure_eq_ok, Except.ok.injEq, Call.isComplete, Call.isNamed,
      Call.needsEntity, Call.start?, Call.navigation?, Call.invocation?, Call.reference?,
      Call.step?, applied, Option.isSome_none, Option.isSome_some, Option.isSome_eq_false_iff,
      Option.isNone_iff_eq_none, Option.mem_def, Option.some.injEq, forall_eq', reduceCtorEq,
      Bool.not_eq_true', false_implies, implies_true, true_implies, and_true, true_and,
      Bool.false_eq_true, and_assoc]
  case insert entry => exact ⟨fun h => ⟨h.1, h.2.2⟩, fun h => ⟨h.1, h.1, h.2⟩⟩
  case update entry => exact ⟨fun h => ⟨h.1, h.2.2⟩, fun h => ⟨h.1, h.1, h.2⟩⟩
  case batchRef name =>
    refine and_congr_right fun _ => ?_
    cases c.node.batch with
    | none => simp
    | some batch =>
      cases hid : batch.contentId? name with
      | none => simp [hid]
      | some id => cases hs : c.node.segment <;> simp [hid]; rfl
  all_goals rfl

theorem Accepts.start?_eq_none (hx : c.Accepts x) (hs : c.node.segment.isSome = true) :
    x.start? = none := by
  cases hstart : x.start? with
  | none => rfl
  | some segment =>
    have hnone : c.node.segment = none := hx.first (by simp [hstart])
    simp [hnone] at hs

theorem entityName?_step (c : Command) (segment : Segment) :
    (c.step segment).entityName? = segment.entity?.or c.entityName? := by
  have hchain : (c.step segment).chain.reverse = (c.step segment).node :: c.chain.reverse := by
    rw [chain, List.reverse_append]
    rfl
  rw [entityName?, hchain, List.findSome?_cons]
  cases segment <;> rfl

/-- The entity set that a command addresses is left by navigations only. -/
theorem entityName?_applied (hs : c.node.segment.isSome = true) (hx : c.Accepts x)
    (hn : x.navigation? = none) : (c.applied x).entityName? = c.entityName? := by
  cases hstep : x.step? with
  | none =>
    rw [applied_of_stay hstep, entityName?_update]
    rw [Call.segment_edit, hx.start?_eq_none hs, Option.none_or]
  | some segment =>
    rw [applied_of_step hstep, entityName?_step, Call.entity?_of_step hstep, hn, Option.none_or]

theorem segment_applied (hs : c.node.segment.isSome = true) (x : Call) :
    (c.applied x).node.segment.isSome = true := by
  cases hstep : x.step? with
  | none =>
    rw [applied_of_stay hstep]
    refine (congrArg Option.isSome (Call.segment_edit _ x c.node)).trans ?_
    simp [hs]
  | some segment =>
    rw [applied_of_step hstep]
    rfl

/-! ### Runs -/

theorem foldlM_cons_eq_ok_iff :
    (x :: calls).foldlM apply c = .ok d ↔
      c.Accepts x ∧ calls.foldlM apply (c.applied x) = .ok d := by
  rw [List.foldlM_cons, bind_eq_ok_iff]
  simp only [apply_eq_ok_iff, and_assoc, exists_and_left, exists_eq_left]

theorem foldlM_append_eq_ok_iff {more : List Call} :
    (calls ++ more).foldlM apply c = .ok d ↔
      ∃ e, calls.foldlM apply c = .ok e ∧ more.foldlM apply e = .ok d := by
  rw [List.foldlM_append, bind_eq_ok_iff]

/-- What holds at the start and is kept by every accepted call holds after the calls. -/
theorem foldlM_apply_induction {P : Command → Prop} (h : calls.foldlM apply c = .ok d) (hc : P c)
    (hstep : ∀ e, ∀ y ∈ calls, P e → e.Accepts y → P (e.applied y)) : P d := by
  induction calls generalizing c with
  | nil =>
    obtain rfl : c = d := Except.ok.inj h
    exact hc
  | cons x calls ih =>
    obtain ⟨hx, h⟩ := foldlM_cons_eq_ok_iff.1 h
    exact ih h (hstep c x List.mem_cons_self hc hx) fun e y hy => hstep e y (List.mem_cons_of_mem x hy)

theorem build_eq_ok_iff : build calls = .ok c ↔
    calls.foldlM apply empty = .ok c ∧
      (c.node.segment.isSome = true ∨ c.node.invocation.isSome = true) := by
  rw [build, bind_eq_ok_iff]
  constructor
  · rintro ⟨d, hd, h⟩
    rw [finished] at h
    split at h
    · exact absurd h (by simp)
    next hf =>
      obtain rfl := Except.ok.inj h
      refine ⟨hd, ?_⟩
      cases hs : d.node.segment <;> cases hi : d.node.invocation <;> simp_all
  · rintro ⟨hd, h⟩
    refine ⟨c, hd, if_neg ?_⟩
    cases hs : c.node.segment <;> cases hi : c.node.invocation <;> simp_all

end Command

end ODataClient
