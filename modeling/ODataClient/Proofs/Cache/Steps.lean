import ODataClient.Proofs.Cache.Moves

/-! What a step keeps. An attempt keeps its key and its call, stays cancelled once it was, and
stays ended once it is; a cancelled attempt can only end as cancelled; entries stay what they
are, apart from their binding; and a call that waits for an attempt can only be answered with
the outcome of that attempt. -/

namespace ODataClient

namespace Attempt

variable {x y z : Attempt}

structure Later (x y : Attempt) : Prop where
  key : y.key = x.key
  call : y.call = x.call
  cancelled : x.cancelled = true → y.cancelled = true
  ended {outcome : Except Error EntryId} : x.phase = .ended outcome → y.phase = .ended outcome
  stopped : x.cancelled = true → y.phase = x.phase ∨ y.phase = .ended (.error .cancelled)

theorem Later.refl (x : Attempt) : x.Later x := ⟨rfl, rfl, id, id, fun _ => .inl rfl⟩

theorem Later.trans (h : x.Later y) (h' : y.Later z) : x.Later z where
  key := h'.key.trans h.key
  call := h'.call.trans h.call
  cancelled := h'.cancelled ∘ h.cancelled
  ended := h'.ended ∘ h.ended
  stopped hc := by
    rcases h'.stopped (h.cancelled hc) with hz | hz
    · exact hz ▸ h.stopped hc
    · exact .inr hz

end Attempt

namespace MetadataCache

variable {c d : MetadataCache} {a b : AttemptId} {x y : Attempt} {key : String} {e : EntryId}
  {i : CallId} {event : Event} {doc : MetadataDocument}
  {produced : Option (Except Error MetadataDocument)}

theorem call_of_cached (hm : c.get? key = some e) :
    c.call key = { c with calls := c.calls ++ [.answered (.ok e)] } := by
  simp only [call, hm]

theorem call_of_inFlight (hm : c.get? key = none) (hf : c.inFlight.get? key = some a) :
    c.call key = { c with calls := c.calls ++ [.joined a] } := by
  simp only [call, hm, hf]

theorem call_of_none (hm : c.get? key = none) (hf : c.inFlight.get? key = none) :
    c.call key = { c with
      attempts := c.attempts ++ [⟨key, c.calls.length, false, .starting⟩]
      inFlight := c.inFlight.set key c.attempts.length
      calls := c.calls ++ [.joined c.attempts.length] } := by
  simp only [call, hm, hf]

section Events

variable (c)

theorem step_add (key : String) (produced : Except Error MetadataDocument) :
    c.step (.add key produced) = (c.add key produced).2 := rfl

theorem step_call (key : String) : c.step (.call key) = c.call key := rfl

theorem step_advance (a : AttemptId) (produced : Option (Except Error MetadataDocument)) :
    c.step (.advance a produced) = c.advance a produced := rfl

theorem step_hear (i : CallId) : c.step (.hear i) = c.hear i := rfl

theorem step_clear (key : String) : c.step (.clear key) = c.clear key := rfl

theorem step_clearAll : c.step .clearAll = c.clearAll := rfl

theorem get?_eq (key : String) : c.get? key = c.cached.get? key := rfl

theorem run_append (l r : List Event) : c.run (l ++ r) = (c.run l).run r := List.foldl_append

theorem add_cases (key : String) (produced : Except Error MetadataDocument) :
    (∃ e, c.get? key = some e ∧ c.add key produced = (.ok e, c)) ∨
    (c.get? key = none ∧ ∃ err, c.add key produced = (.error err, c)) ∨
    (c.get? key = none ∧ ∃ doc, c.add key produced = (.ok c.made.length,
      { c.make key doc with cached := c.cached.set key c.made.length })) := by
  cases hm : c.get? key with
  | some e => exact .inl ⟨e, rfl, by simp only [add, hm]⟩
  | none =>
    cases produced with
    | error err => exact .inr (.inl ⟨rfl, err, by simp only [add, hm]⟩)
    | ok doc => exact .inr (.inr ⟨rfl, doc, by simp only [add, hm]⟩)

theorem add_eq (key : String) (produced : Except Error MetadataDocument) :
    ∃ made cached, (c.add key produced).2 = { c with made := made, cached := cached } := by
  rcases c.add_cases key produced with ⟨_, _, h⟩ | ⟨_, _, h⟩ | ⟨_, _, h⟩
  · exact ⟨c.made, c.cached, by rw [h]⟩
  · exact ⟨c.made, c.cached, by rw [h]⟩
  · exact ⟨_, _, by rw [h]; rfl⟩

theorem call_cases (key : String) :
    (∃ e, c.get? key = some e ∧
      c.call key = { c with calls := c.calls ++ [.answered (.ok e)] }) ∨
    (∃ a, c.get? key = none ∧ c.inFlight.get? key = some a ∧
      c.call key = { c with calls := c.calls ++ [.joined a] }) ∨
    (c.get? key = none ∧ c.inFlight.get? key = none ∧
      c.call key = { c with
        attempts := c.attempts ++ [⟨key, c.calls.length, false, .starting⟩]
        inFlight := c.inFlight.set key c.attempts.length
        calls := c.calls ++ [.joined c.attempts.length] }) := by
  cases hm : c.get? key with
  | some e => exact .inl ⟨e, rfl, call_of_cached hm⟩
  | none =>
    cases hf : c.inFlight.get? key with
    | some a => exact .inr (.inl ⟨a, rfl, rfl, call_of_inFlight hm hf⟩)
    | none => exact .inr (.inr ⟨rfl, rfl, call_of_none hm hf⟩)

theorem hear_cases (i : CallId) :
    c.hear i = c ∨ ∃ a x outcome, c.calls[i]? = some (.joined a) ∧ c.attempts[a]? = some x ∧
      x.phase = .ended outcome ∧
      c.hear i = { c with calls := c.calls.set i (.answered outcome) } := by
  rw [hear]
  split
  next a hi =>
    split
    next outcome hp =>
      obtain ⟨x, hx, hp⟩ := Option.map_eq_some_iff.1 hp
      exact .inr ⟨a, x, outcome, hi, hx, hp, rfl⟩
    next => exact .inl rfl
  next => exact .inl rfl

theorem hear_eq (i : CallId) : ∃ calls, c.hear i = { c with calls := calls } := by
  rcases c.hear_cases i with h | ⟨_, _, _, _, _, _, h⟩
  · exact ⟨c.calls, h⟩
  · exact ⟨_, h⟩

/-- A binding is added to an entry, or nothing happens. -/
theorem step_bind (e : EntryId) (loader : ModelLoader) :
    c.step (.bind e loader) = c ∨ ∃ bound models, c.step (.bind e loader) = { c with
      models := models
      made := c.made.modify e fun x => { x with bound := bound } } := by
  rw [step]
  split
  next entry =>
    rw [bind]
    split
    next => exact .inl rfl
    next =>
      split
      next => exact .inl rfl
      next => exact .inl rfl
      next => exact .inr ⟨_, _, rfl⟩
  next => exact .inl rfl

/-- No attempt, record or place at the gate changes. -/
def Event.Quiet : Event → Prop
  | .call _ | .advance _ _ | .clear _ | .clearAll => False
  | _ => True

theorem step_quiet (event : Event) (h : event.Quiet) : ∃ made cached calls models,
    c.step event =
      { c with made := made, cached := cached, calls := calls, models := models } := by
  cases event with
  | add key produced =>
    obtain ⟨made, cached, hq⟩ := c.add_eq key produced
    exact ⟨made, cached, c.calls, c.models, hq⟩
  | hear i =>
    obtain ⟨calls, hq⟩ := c.hear_eq i
    exact ⟨c.made, c.cached, calls, c.models, hq⟩
  | abandon i => exact ⟨c.made, c.cached, _, c.models, rfl⟩
  | bind e loader =>
    rcases c.step_bind e loader with hq | ⟨bound, models, hq⟩
    · exact ⟨c.made, c.cached, c.calls, c.models, hq⟩
    · exact ⟨_, c.cached, c.calls, models, hq⟩
  | call | advance | clear | clearAll => exact h.elim

theorem getElem?_cancel (b : AttemptId) : (c.cancel a).attempts[b]? =
    c.attempts[b]?.map fun x => { x with cancelled := x.cancelled || a == b } := by
  rw [cancel, List.getElem?_modify]
  split
  next h => subst h; simp
  next h => simp [beq_false_of_ne h]

theorem clear_eq (key : String) : ∃ attempts models, c.clear key = { c with
    attempts := attempts
    inFlight := c.inFlight.erase key
    cached := c.cached.erase key
    models := models } := by
  rw [clear]
  cases c.inFlight.get? key with
  | none => exact ⟨_, _, rfl⟩
  | some a => exact ⟨_, _, rfl⟩

theorem getElem?_clear (key : String) (b : AttemptId) : (c.clear key).attempts[b]? =
    c.attempts[b]?.map fun x =>
      { x with cancelled := x.cancelled || c.inFlight.get? key == some b } := by
  rw [clear]
  cases hf : c.inFlight.get? key with
  | none => simp
  | some a => exact c.getElem?_cancel b

theorem foldl_cancel (l : List (String × AttemptId)) : ∃ attempts,
    l.foldl (fun c p => c.cancel p.2) c = { c with attempts := attempts } := by
  induction l generalizing c with
  | nil => exact ⟨_, rfl⟩
  | cons p l ih => exact ih (c.cancel p.2)

theorem getElem?_foldl_cancel (l : List (String × AttemptId)) (b : AttemptId) :
    (l.foldl (fun c p => c.cancel p.2) c).attempts[b]? = c.attempts[b]?.map fun x =>
      { x with cancelled := x.cancelled || l.any fun p => p.2 == b } := by
  induction l generalizing c with
  | nil => simp
  | cons p l ih =>
    rw [List.foldl_cons, ih, getElem?_cancel, Option.map_map]
    congr 1
    funext x
    simp [Bool.or_assoc]

theorem clearAll_eq : ∃ attempts, c.clearAll = { c with
    attempts := attempts
    inFlight := .empty
    cached := .empty
    models := .empty } := by
  obtain ⟨attempts, h⟩ := c.foldl_cancel c.inFlight.entries
  exact ⟨attempts, by rw [clearAll, h]⟩

theorem getElem?_clearAll (b : AttemptId) : c.clearAll.attempts[b]? =
    c.attempts[b]?.map fun x =>
      { x with cancelled := x.cancelled || c.inFlight.entries.any fun p => p.2 == b } :=
  c.getElem?_foldl_cancel c.inFlight.entries b

end Events

/-- What every event of a run preserves holds at its end. -/
theorem run_induction {P : MetadataCache → Prop} {events : List Event} (h : P c)
    (hstep : ∀ d, P d → ∀ event ∈ events, P (d.step event)) : P (c.run events) :=
  events.foldlRecOn step h hstep

theorem Move.attempts (hm : Move a produced c d) : ∃ x phase, c.attempts[a]? = some x ∧ x.Running ∧
    (x.cancelled = true → phase = .ended (.error .cancelled)) ∧
    d.attempts = (c.setPhase a phase).attempts := by
  have hno : ∀ {x : Attempt} {phase : Phase}, x.cancelled = false →
      x.cancelled = true → phase = .ended (.error .cancelled) := fun hc h =>
    absurd (hc.symm.trans h) nofun
  cases hm with
  | queue hx hc hp => exact ⟨_, _, hx, Attempt.running_of_phase hp fun _ => nofun, hno hc, rfl⟩
  | fetch hx hc hp => exact ⟨_, _, hx, Attempt.running_of_phase hp fun _ => nofun, hno hc, rfl⟩
  | cancelled hx hc hr => exact ⟨_, _, hx, hr, fun _ => rfl, attempts_finish ..⟩
  | found hx hc hp | failed hx hc hp | fetched hx hc hp =>
    exact ⟨_, _, hx, Attempt.running_of_phase hp fun _ => nofun, hno hc, attempts_finish ..⟩

theorem Move.calls (hm : Move a produced c d) : d.calls = c.calls := by
  cases hm with
  | queue | fetch => rfl
  | cancelled | found | failed | fetched => exact calls_finish ..

theorem Move.later (hm : Move a produced c d) (hx : c.attempts[b]? = some x) :
    ∃ y, d.attempts[b]? = some y ∧ x.Later y := by
  obtain ⟨x', phase, hx', hr, hs, hd⟩ := hm.attempts
  rw [hd]
  by_cases h : a = b
  · subst h
    obtain rfl := Option.some.inj (hx.symm.trans hx')
    exact ⟨_, getElem?_setPhase_self hx phase, rfl, rfl, id, fun he => absurd he (hr _),
      fun hc => .inr (hs hc)⟩
  · exact ⟨x, (getElem?_setPhase_of_ne h phase).trans hx, .refl x⟩

theorem Moves.later (hm : Moves a produced c d) (hx : c.attempts[b]? = some x) :
    ∃ y, d.attempts[b]? = some y ∧ x.Later y := by
  induction hm with
  | refl => exact ⟨x, hx, .refl x⟩
  | tail _ hm ih =>
    obtain ⟨y, hy, hl⟩ := ih
    obtain ⟨z, hz, hl'⟩ := hm.later hy
    exact ⟨z, hz, hl.trans hl'⟩

theorem Moves.others (hm : Moves a produced c d) (hab : a ≠ b) :
    d.attempts[b]? = c.attempts[b]? := by
  induction hm with
  | refl => rfl
  | tail _ hm ih =>
    obtain ⟨x, phase, -, -, -, h⟩ := hm.attempts
    rw [h, getElem?_setPhase_of_ne hab, ih]

theorem Moves.length_attempts (hm : Moves a produced c d) :
    d.attempts.length = c.attempts.length := by
  induction hm with
  | refl => rfl
  | tail _ hm ih =>
    obtain ⟨x, phase, -, -, -, h⟩ := hm.attempts
    rw [h, setPhase, List.length_modify, ih]

theorem Moves.calls (hm : Moves a produced c d) : d.calls = c.calls := by
  induction hm with
  | refl => rfl
  | tail _ hm ih => exact hm.calls.trans ih

/-- No step changes more in an attempt than whether it is cancelled, unless the attempt itself
goes on. -/
theorem attempt_step (event : Event) (hx : c.attempts[b]? = some x) :
    ∃ y, (c.step event).attempts[b]? = some y ∧ x.Later y ∧
      (y.phase = x.phase ∨ ∃ produced, event = .advance b produced) := by
  have hcancel : ∀ stop : Bool, x.Later { x with cancelled := x.cancelled || stop } := fun stop =>
    ⟨rfl, rfl, fun h => by rw [h, Bool.true_or], id, fun _ => .inl rfl⟩
  have hquiet := c.step_quiet event
  cases event with
  | add | hear | abandon | bind =>
    obtain ⟨made, cached, calls, models, h⟩ := hquiet trivial
    exact ⟨x, by rwa [h], .refl x, .inl rfl⟩
  | call key =>
    refine ⟨x, ?_, .refl x, .inl rfl⟩
    rw [step_call]
    rcases c.call_cases key with ⟨_, _, h⟩ | ⟨_, _, _, h⟩ | ⟨_, _, h⟩ <;> rw [h]
    · exact hx
    · exact hx
    · exact (List.getElem?_append_left (List.getElem?_eq_some_iff.1 hx).1).trans hx
  | advance a produced =>
    by_cases hab : a = b
    · obtain ⟨y, hy, hl⟩ := (moves_advance c a produced).later hx
      exact ⟨y, hy, hl, .inr ⟨produced, by rw [hab]⟩⟩
    · exact ⟨x, ((moves_advance c a produced).others hab).trans hx, .refl x, .inl rfl⟩
  | clear key =>
    rw [step_clear, getElem?_clear, hx]
    exact ⟨_, rfl, hcancel _, .inl rfl⟩
  | clearAll =>
    rw [step_clearAll, getElem?_clearAll, hx]
    exact ⟨_, rfl, hcancel _, .inl rfl⟩

theorem later_step (event : Event) (hx : c.attempts[b]? = some x) :
    ∃ y, (c.step event).attempts[b]? = some y ∧ x.Later y := by
  obtain ⟨y, hy, hl, -⟩ := attempt_step event hx
  exact ⟨y, hy, hl⟩

theorem later_run (events : List Event) (hx : c.attempts[b]? = some x) :
    ∃ y, (c.run events).attempts[b]? = some y ∧ x.Later y := by
  refine run_induction (P := fun d => ∃ y, d.attempts[b]? = some y ∧ x.Later y)
    ⟨x, hx, .refl x⟩ fun d hd event _ => ?_
  obtain ⟨y, hy, hl⟩ := hd
  obtain ⟨z, hz, hl'⟩ := later_step event hy
  exact ⟨z, hz, hl.trans hl'⟩

/-- Attempts are started by calls that find neither an entry nor an attempt to join. -/
theorem new_attempt (hb : c.attempts[b]? = none) (hy : (c.step event).attempts[b]? = some y) :
    event = .call y.key ∧ c.get? y.key = none ∧ c.inFlight.get? y.key = none ∧
      b = c.attempts.length ∧ y = ⟨y.key, c.calls.length, false, .starting⟩ := by
  have hsame : (c.step event).attempts.length = c.attempts.length → False := fun h => by
    have hlt := (List.getElem?_eq_some_iff.1 hy).1
    have hle := List.getElem?_eq_none_iff.1 hb
    omega
  have hquiet := c.step_quiet event
  cases event with
  | add | hear | abandon | bind =>
    obtain ⟨made, cached, calls, models, h⟩ := hquiet trivial
    exact absurd (by rw [h]) hsame
  | call key =>
    rw [step_call] at hsame hy
    rcases c.call_cases key with ⟨_, _, h⟩ | ⟨_, _, _, h⟩ | ⟨hm, hf, h⟩ <;> rw [h] at hsame hy
    · exact absurd rfl hsame
    · exact absurd rfl hsame
    · have hle := List.getElem?_eq_none_iff.1 hb
      rw [List.getElem?_append_right hle, List.getElem?_singleton] at hy
      split at hy
      next he =>
        obtain rfl := Option.some.inj hy
        exact ⟨rfl, hm, hf, (Nat.sub_eq_zero_iff_le.1 he).antisymm hle, rfl⟩
      next => exact absurd hy nofun
  | advance a produced => exact absurd (moves_advance c a produced).length_attempts hsame
  | clear key =>
    rw [step_clear, getElem?_clear, hb] at hy
    exact absurd hy nofun
  | clearAll =>
    rw [step_clearAll, getElem?_clearAll, hb] at hy
    exact absurd hy nofun

/-! Calls. -/

/-- The call still waits for the attempt, or was answered with its outcome. -/
def Awaits (c : MetadataCache) (i : CallId) (a : AttemptId) : Prop :=
  c.calls[i]? = some (.joined a) ∨ ∃ x outcome, c.attempts[a]? = some x ∧
    x.phase = .ended outcome ∧ c.calls[i]? = some (.answered outcome)

theorem Awaits.frame (h : c.Awaits i a) (hi : d.calls[i]? = c.calls[i]?)
    (ha : ∀ x, c.attempts[a]? = some x → ∃ y, d.attempts[a]? = some y ∧ x.Later y) :
    d.Awaits i a := by
  rcases h with h | ⟨x, outcome, hx, hp, h⟩
  · exact .inl (hi.trans h)
  · obtain ⟨y, hy, hl⟩ := ha x hx
    exact .inr ⟨y, outcome, hy, hl.ended hp, hi.trans h⟩

theorem Awaits.step (h : c.Awaits i a) (hne : event ≠ .abandon i) : (c.step event).Awaits i a := by
  have hi : ∃ s, c.calls[i]? = some s := by
    rcases h with h | ⟨_, _, _, _, h⟩ <;> exact ⟨_, h⟩
  obtain ⟨s, hs⟩ := hi
  have happend : ∀ t : CallState, (c.calls ++ [t])[i]? = c.calls[i]? := fun t =>
    List.getElem?_append_left (List.getElem?_eq_some_iff.1 hs).1
  have hlater := fun x (hx : c.attempts[a]? = some x) => later_step event hx
  cases event with
  | add key produced =>
    obtain ⟨made, cached, hq⟩ := c.add_eq key produced
    exact h.frame (by rw [step_add, hq]) hlater
  | call key =>
    refine h.frame ?_ hlater
    rw [step_call]
    rcases c.call_cases key with ⟨_, _, h⟩ | ⟨_, _, _, h⟩ | ⟨_, _, h⟩ <;> rw [h] <;>
      exact happend _
  | advance b produced =>
    refine h.frame ?_ hlater
    rw [step_advance, (moves_advance c b produced).calls]
  | hear j =>
    rw [step_hear] at hlater ⊢
    rcases c.hear_cases j with hq | ⟨b, y, outcome, hj, hy, hp, hq⟩ <;> rw [hq] at hlater ⊢
    · exact h
    · by_cases hij : j = i
      · subst hij
        rcases h with h | ⟨x, _, _, _, h⟩
        · obtain rfl := CallState.joined.inj (Option.some.inj (hj.symm.trans h))
          exact .inr ⟨y, outcome, hy, hp,
            List.getElem?_set_self (List.getElem?_eq_some_iff.1 hs).1⟩
        · exact absurd (hj.symm.trans h) nofun
      · exact h.frame (List.getElem?_set_ne hij) hlater
  | abandon j =>
    have hij : j ≠ i := fun he => hne (he ▸ rfl)
    exact h.frame (List.getElem?_set_ne hij) hlater
  | clear key =>
    obtain ⟨attempts, models, hq⟩ := c.clear_eq key
    exact h.frame (by rw [step_clear, hq]) hlater
  | clearAll =>
    obtain ⟨attempts, hq⟩ := c.clearAll_eq
    exact h.frame (by rw [step_clearAll, hq]) hlater
  | bind e loader =>
    rcases c.step_bind e loader with hq | ⟨_, _, hq⟩ <;> exact h.frame (by rw [hq]) hlater

theorem Awaits.run (h : c.Awaits i a) {events : List Event} (hne : .abandon i ∉ events) :
    (c.run events).Awaits i a :=
  run_induction (P := fun d => d.Awaits i a) h fun _ hd _ he =>
    hd.step fun habandon => hne (habandon ▸ he)

theorem Awaits.hear (h : c.Awaits i a) (hx : c.attempts[a]? = some x)
    {outcome : Except Error EntryId} (hp : x.phase = .ended outcome) :
    (c.hear i).calls[i]? = some (.answered outcome) := by
  rcases h with h | ⟨y, outcome', hy, hp', h⟩
  · rw [MetadataCache.hear, h]
    simp only [hx, Option.map_some, hp]
    exact List.getElem?_set_self (List.getElem?_eq_some_iff.1 h).1
  · obtain rfl := Option.some.inj (hx.symm.trans hy)
    obtain rfl := Phase.ended.inj (hp.symm.trans hp')
    rw [MetadataCache.hear, h]
    exact h

/-! Entries. -/

def IsEntry (c : MetadataCache) (key : String) (e : EntryId) : Prop :=
  (c.made[e]?).map CacheEntry.key = some key

theorem IsEntry.lt_length (h : c.IsEntry key e) : e < c.made.length := by
  obtain ⟨entry, he, -⟩ := Option.map_eq_some_iff.1 h
  exact (List.getElem?_eq_some_iff.1 he).1

theorem isEntry_append (h : c.IsEntry key e) {entries : List CacheEntry}
    (hd : d.made = c.made ++ entries) : d.IsEntry key e := by
  rw [IsEntry, hd, List.getElem?_append_left h.lt_length]
  exact h

theorem isEntry_made (hd : d.made = c.made ++ [⟨key, doc, none⟩]) :
    d.IsEntry key c.made.length := by
  rw [IsEntry, hd, List.getElem?_concat_length]
  rfl

theorem Move.made (hm : Move a produced c d) : ∃ entries, d.made = c.made ++ entries := by
  cases hm with
  | queue | fetch => exact ⟨[], (List.append_nil _).symm⟩
  | cancelled | found | failed =>
    exact ⟨[], (made_finish ..).trans (List.append_nil _).symm⟩
  | fetched => exact ⟨_, made_finish ..⟩

theorem Moves.made (hm : Moves a produced c d) : ∃ entries, d.made = c.made ++ entries := by
  induction hm with
  | refl => exact ⟨[], (List.append_nil _).symm⟩
  | tail _ hm ih =>
    obtain ⟨entries, h⟩ := ih
    obtain ⟨entries', h'⟩ := hm.made
    exact ⟨entries ++ entries', by rw [h', h, List.append_assoc]⟩

theorem IsEntry.step (h : c.IsEntry key e) (event : Event) : (c.step event).IsEntry key e := by
  cases event with
  | add key produced =>
    rw [step_add]
    rcases c.add_cases key produced with ⟨_, _, hq⟩ | ⟨_, _, hq⟩ | ⟨_, doc, hq⟩ <;> rw [hq]
    · exact h
    · exact h
    · exact isEntry_append h rfl
  | call key =>
    rw [step_call]
    rcases c.call_cases key with ⟨_, _, hq⟩ | ⟨_, _, _, hq⟩ | ⟨_, _, hq⟩ <;> rw [hq] <;> exact h
  | advance a produced =>
    obtain ⟨entries, hd⟩ := (moves_advance c a produced).made
    exact isEntry_append h hd
  | hear i =>
    obtain ⟨calls, hq⟩ := c.hear_eq i
    rw [step_hear, hq]
    exact h
  | abandon i => exact h
  | clear key =>
    obtain ⟨attempts, models, hq⟩ := c.clear_eq key
    rw [step_clear, hq]
    exact h
  | clearAll =>
    obtain ⟨attempts, hq⟩ := c.clearAll_eq
    rw [step_clearAll, hq]
    exact h
  | bind e' loader =>
    rcases c.step_bind e' loader with hq | ⟨bound, models, hq⟩ <;> rw [hq]
    · exact h
    · obtain ⟨entry, he, hk⟩ := Option.map_eq_some_iff.1 h
      rw [IsEntry, List.getElem?_modify, he, Option.map_eq_map, Option.map_some, Option.map_some]
      split <;> exact congrArg some hk

/-! Clearing. -/

def Event.Clears (key : String) : Event → Prop
  | .clear k => k = key
  | .clearAll => True
  | _ => False

theorem get?_of_clears (c : MetadataCache) (hc : event.Clears key) :
    (c.step event).get? key = none := by
  cases event with
  | clear k =>
    obtain rfl : k = key := hc
    obtain ⟨attempts, models, hq⟩ := c.clear_eq k
    rw [step_clear, hq, get?_eq, Table.get?_erase, if_pos rfl]
  | clearAll =>
    obtain ⟨attempts, hq⟩ := c.clearAll_eq
    rw [step_clearAll, hq, get?_eq, Table.get?_empty]
  | add | call | advance | hear | abandon | bind => exact hc.elim

theorem cached_hear (c : MetadataCache) (i : CallId) : (c.hear i).cached = c.cached := by
  obtain ⟨calls, hq⟩ := c.hear_eq i
  rw [hq]

theorem cached_call (c : MetadataCache) (key : String) : (c.call key).cached = c.cached := by
  rcases c.call_cases key with ⟨_, _, hq⟩ | ⟨_, _, _, hq⟩ | ⟨_, _, hq⟩ <;> rw [hq]

theorem cached_bind (c : MetadataCache) (e : EntryId) (loader : ModelLoader) :
    (c.step (.bind e loader)).cached = c.cached := by
  rcases c.step_bind e loader with hq | ⟨_, _, hq⟩ <;> rw [hq]

end MetadataCache

end ODataClient
