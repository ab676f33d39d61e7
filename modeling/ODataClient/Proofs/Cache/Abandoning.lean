import ODataClient.Proofs.Cache.Steps

/-! Callers who give up. Whether a caller goes on waiting makes no difference to anybody else:
without the events in which callers give up, a run goes through the same states, apart from the
calls of these callers. -/

namespace ODataClient

namespace MetadataCache

variable {c d : MetadataCache} {i : CallId} {event : Event} {events : List Event}
  {calls : List CallState} {gone : CallId → Prop}

def Event.isAbandonment : Event → Bool
  | .abandon _ => true
  | _ => false

def withoutAbandonments (events : List Event) : List Event :=
  events.filter fun event => !event.isAbandonment

def withCalls (c : MetadataCache) (calls : List CallState) : MetadataCache :=
  { c with calls := calls }

/-- The second cache is the first, but for what became of the calls that are gone. -/
structure Alike (gone : CallId → Prop) (c d : MetadataCache) : Prop where
  others : d = c.withCalls d.calls
  length : d.calls.length = c.calls.length
  calls (i : CallId) (hi : ¬ gone i) : d.calls[i]? = c.calls[i]?

theorem Alike.refl (gone : CallId → Prop) (c : MetadataCache) : Alike gone c c :=
  ⟨rfl, rfl, fun _ _ => rfl⟩

/-! Events that have nothing to do with the calls. -/

def Event.SparesCalls : Event → Prop
  | .call _ | .hear _ | .abandon _ => False
  | _ => True

theorem finish_withCalls (a : AttemptId) (x : Attempt) (outcome : Except Error EntryId) :
    (c.withCalls calls).finish a x outcome = (c.finish a x outcome).withCalls calls := by
  have hcurrent : (c.withCalls calls).isCurrent a x = c.isCurrent a x := rfl
  unfold finish
  rw [hcurrent]
  dsimp only
  split <;> rfl

theorem deliver_withCalls (a : AttemptId) (x : Attempt)
    (produced : Except Error MetadataDocument) :
    (c.withCalls calls).deliver a x produced = (c.deliver a x produced).withCalls calls := by
  cases produced with
  | error err => exact finish_withCalls a x (.error err)
  | ok doc => exact finish_withCalls (c := c.make x.key doc) a x (.ok c.made.length)

theorem enterAtHead_withCalls (a : AttemptId) (x : Attempt)
    (produced : Option (Except Error MetadataDocument)) :
    (c.withCalls calls).enterAtHead a x produced =
      (c.enterAtHead a x produced).withCalls calls := by
  have hgate : (c.withCalls calls).gate = c.gate := rfl
  have hget : (c.withCalls calls).get? x.key = c.get? x.key := rfl
  unfold enterAtHead
  rw [hgate]
  split
  · unfold enter
    rw [hget]
    cases c.get? x.key with
    | some e => exact finish_withCalls a x (.ok e)
    | none =>
      cases produced with
      | none => rfl
      | some produced =>
        exact deliver_withCalls
          (c := { c.setPhase a .fetching with started := c.started ++ [x.call] }) a x produced
  · rfl

theorem advance_withCalls (a : AttemptId) (produced : Option (Except Error MetadataDocument)) :
    (c.withCalls calls).advance a produced = (c.advance a produced).withCalls calls := by
  have hattempts : (c.withCalls calls).attempts = c.attempts := rfl
  unfold advance
  rw [hattempts]
  cases c.attempts[a]? with
  | none => rfl
  | some x =>
    dsimp only
    cases x.phase with
    | ended outcome => rfl
    | starting =>
      cases x.cancelled with
      | true => exact finish_withCalls a x (.error .cancelled)
      | false =>
        exact enterAtHead_withCalls
          (c := { c.setPhase a .queued with gate := c.gate ++ [a] }) a x produced
    | queued =>
      cases x.cancelled with
      | true => exact finish_withCalls a x (.error .cancelled)
      | false => exact enterAtHead_withCalls a x produced
    | fetching =>
      cases x.cancelled with
      | true => exact finish_withCalls a x (.error .cancelled)
      | false =>
        cases produced with
        | none => rfl
        | some produced => exact deliver_withCalls a x produced

theorem foldl_cancel_withCalls (l : List (String × AttemptId)) :
    l.foldl (fun c p => c.cancel p.2) (c.withCalls calls) =
      (l.foldl (fun c p => c.cancel p.2) c).withCalls calls := by
  induction l generalizing c with
  | nil => rfl
  | cons p l ih => exact ih (c := c.cancel p.2)

theorem add_withCalls (key : String) (produced : Except Error MetadataDocument) :
    (c.withCalls calls).add key produced =
      ((c.add key produced).1, (c.add key produced).2.withCalls calls) := by
  have hget : (c.withCalls calls).get? key = c.get? key := rfl
  unfold add
  rw [hget]
  cases c.get? key with
  | some e => rfl
  | none => cases produced <;> rfl

theorem step_withCalls (h : event.SparesCalls) (c : MetadataCache) (calls : List CallState) :
    (c.withCalls calls).step event = (c.step event).withCalls calls := by
  cases event with
  | add key produced => exact congrArg Prod.snd (add_withCalls key produced)
  | advance a produced => exact advance_withCalls a produced
  | clear key =>
    have hflight : (c.withCalls calls).inFlight = c.inFlight := rfl
    rw [step_clear, step_clear, clear, clear, hflight]
    cases c.inFlight.get? key <;> rfl
  | clearAll =>
    have hflight : (c.withCalls calls).inFlight = c.inFlight := rfl
    rw [step_clearAll, step_clearAll, clearAll, clearAll, hflight, foldl_cancel_withCalls]
    rfl
  | bind e loader =>
    have hmade : (c.withCalls calls).made = c.made := rfl
    have hmodels : (c.withCalls calls).models = c.models := rfl
    unfold step
    dsimp only
    rw [hmade]
    cases c.made[e]? with
    | none => rfl
    | some entry =>
      dsimp only
      unfold bind
      rw [hmodels]
      cases entry.bound with
      | some b => rfl
      | none =>
        cases entry.document.version with
        | error err => rfl
        | ok version => cases loader.load entry.document <;> rfl
  | call | hear | abandon => exact h.elim

theorem calls_step (h : event.SparesCalls) (c : MetadataCache) :
    (c.step event).calls = c.calls := by
  have hstep : c.step event = (c.step event).withCalls c.calls := step_withCalls h c c.calls
  rw [hstep]
  rfl

theorem Alike.spare (h : Alike gone c d) (he : event.SparesCalls) :
    Alike gone (c.step event) (d.step event) := by
  have hc : (c.step event).calls = c.calls := calls_step he c
  have hd : d.step event = (c.step event).withCalls d.calls := by
    rw [h.others]
    exact step_withCalls he c d.calls
  rw [hd]
  refine ⟨rfl, ?_, fun i hi => ?_⟩
  · rw [hc]
    exact h.length
  · rw [hc]
    exact h.calls i hi

/-! Calls. -/

theorem Alike.call (h : Alike gone c d) (key : String) : Alike gone (c.call key) (d.call key) := by
  have happend : ∀ state, Alike gone { c with calls := c.calls ++ [state] }
      { d with calls := d.calls ++ [state] } := by
    intro state
    refine ⟨?_, ?_, fun i hi => ?_⟩
    · rw [h.others]
      rfl
    · simp only [List.length_append, h.length]
    · simp only [List.getElem?_append, h.length, h.calls i hi]
  have hget : d.get? key = c.get? key := by rw [h.others]; rfl
  have hflight : d.inFlight.get? key = c.inFlight.get? key := by rw [h.others]; rfl
  cases hm : c.get? key with
  | some e =>
    rw [call_of_cached hm, call_of_cached (hget.trans hm)]
    exact happend (.answered (.ok e))
  | none =>
    cases hf : c.inFlight.get? key with
    | some a =>
      rw [call_of_inFlight hm hf, call_of_inFlight (hget.trans hm) (hflight.trans hf)]
      exact happend (.joined a)
    | none =>
      have hattempts : d.attempts = c.attempts := by rw [h.others]; rfl
      have hrest : d.inFlight = c.inFlight := by rw [h.others]; rfl
      rw [call_of_none hm hf, call_of_none (hget.trans hm) (hflight.trans hf), hattempts, hrest,
        h.length]
      refine ⟨?_, (happend _).length, (happend _).calls⟩
      rw [h.others]
      rfl

theorem hear_ended {a : AttemptId} {x : Attempt} {outcome : Except Error EntryId}
    (hi : c.calls[i]? = some (.joined a)) (hx : c.attempts[a]? = some x)
    (hp : x.phase = .ended outcome) :
    c.hear i = c.withCalls (c.calls.set i (.answered outcome)) := by
  rw [hear, hi]
  simp only [hx, Option.map_some, hp]
  rfl

theorem Alike.set (h : Alike gone c d) (i : CallId) (state : CallState) :
    Alike gone (c.withCalls (c.calls.set i state)) (d.withCalls (d.calls.set i state)) := by
  refine ⟨?_, ?_, fun j hj => ?_⟩
  · rw [h.others]
    rfl
  · simp only [withCalls, List.length_set, h.length]
  · simp only [withCalls, List.getElem?_set, h.length, h.calls j hj]

/-- What becomes of a call that is gone is of no account. -/
theorem Alike.set_left (h : Alike gone c d) (hi : gone i) (state : CallState) :
    Alike gone (c.withCalls (c.calls.set i state)) d := by
  refine ⟨?_, ?_, fun j hj => ?_⟩
  · rw [h.others]
    rfl
  · exact h.length.trans List.length_set.symm
  · have hij : i ≠ j := fun he => hj (he ▸ hi)
    exact (h.calls j hj).trans (List.getElem?_set_ne hij).symm

theorem Alike.set_right (h : Alike gone c d) (hi : gone i) (state : CallState) :
    Alike gone c (d.withCalls (d.calls.set i state)) := by
  refine ⟨?_, ?_, fun j hj => ?_⟩
  · rw [h.others]
    rfl
  · exact List.length_set.trans h.length
  · have hij : i ≠ j := fun he => hj (he ▸ hi)
    exact (List.getElem?_set_ne hij).trans (h.calls j hj)

theorem Alike.hear_gone (h : Alike gone c d) (hi : gone i) : Alike gone (c.hear i) (d.hear i) := by
  have hleft : Alike gone (c.hear i) d := by
    rcases c.hear_cases i with hq | ⟨_, _, outcome, _, _, _, hq⟩ <;> rw [hq]
    · exact h
    · exact h.set_left hi (.answered outcome)
  rcases d.hear_cases i with hq | ⟨_, _, outcome, _, _, _, hq⟩ <;> rw [hq]
  · exact hleft
  · exact hleft.set_right hi (.answered outcome)

/-- A caller who still waits hears the same in both caches. -/
theorem Alike.hear_kept (h : Alike gone c d) (hi : ¬ gone i) :
    Alike gone (c.hear i) (d.hear i) := by
  have hattempts : d.attempts = c.attempts := by rw [h.others]; rfl
  rcases c.hear_cases i with hc | ⟨a, x, outcome, hj, hx, hp, -⟩
  · rcases d.hear_cases i with hd | ⟨a, x, outcome, hj, hx, hp, -⟩
    · rw [hc, hd]
      exact h
    · rw [hear_ended hj hx hp, hear_ended ((h.calls i hi).symm.trans hj) (hattempts ▸ hx) hp]
      exact h.set i (.answered outcome)
  · rw [hear_ended hj hx hp, hear_ended ((h.calls i hi).trans hj) (hattempts.symm ▸ hx) hp]
    exact h.set i (.answered outcome)

/-! Runs. -/

theorem Alike.step (h : Alike gone c d) (he : event.isAbandonment = false) :
    Alike gone (c.step event) (d.step event) := by
  cases event with
  | call key => exact h.call key
  | hear i =>
    by_cases hi : gone i
    · exact h.hear_gone hi
    · exact h.hear_kept hi
  | abandon i => exact absurd he nofun
  | add | advance | clear | clearAll | bind => exact h.spare trivial

theorem Alike.run (h : Alike gone c d) (hgone : ∀ i, .abandon i ∈ events → gone i) :
    Alike gone (c.run events) (d.run (withoutAbandonments events)) := by
  induction events generalizing c d with
  | nil => exact h
  | cons event events ih =>
    have hlater : ∀ i, .abandon i ∈ events → gone i := fun i hi =>
      hgone i (List.mem_cons_of_mem _ hi)
    cases he : event.isAbandonment with
    | false =>
      have hfilter : withoutAbandonments (event :: events) =
          event :: withoutAbandonments events := by simp [withoutAbandonments, he]
      rw [hfilter]
      exact ih (h.step he) hlater
    | true =>
      have hfilter : withoutAbandonments (event :: events) = withoutAbandonments events := by
        simp [withoutAbandonments, he]
      rw [hfilter]
      cases event with
      | abandon i => exact ih (h.set_left (hgone i List.mem_cons_self) .abandoned) hlater
      | add | call | advance | hear | clear | clearAll | bind => exact absurd he nofun

/-- Of a run and what is left of it when nobody gives up, after as many events as one likes:
entries, attempts and factories are the same, so is what a synchronous addition would be
answered, and every call is answered the same unless its caller has given up. -/
theorem abandonments_unnoticed (events : List Event) :
    let c := run .empty events
    let d := run .empty (withoutAbandonments events)
    d.made = c.made ∧ d.cached = c.cached ∧ d.inFlight = c.inFlight ∧
      d.attempts = c.attempts ∧ d.gate = c.gate ∧ d.started = c.started ∧
      (∀ key produced, (d.add key produced).1 = (c.add key produced).1) ∧
      ∀ i, .abandon i ∉ events → d.calls[i]? = c.calls[i]? := by
  intro c d
  have h : Alike (fun i => .abandon i ∈ events) c d :=
    (Alike.refl _ .empty).run fun _ hi => hi
  have hadd : ∀ key produced, (d.add key produced).1 = (c.add key produced).1 := by
    intro key produced
    rw [h.others, add_withCalls]
  obtain ⟨calls, hd⟩ : ∃ calls, d = c.withCalls calls := ⟨d.calls, h.others⟩
  refine ⟨?_, ?_, ?_, ?_, ?_, ?_, hadd, h.calls⟩ <;> rw [hd] <;> rfl

end MetadataCache

end ODataClient
