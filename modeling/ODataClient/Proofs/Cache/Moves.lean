import Mathlib.Logic.Relation
import ODataClient.Cache.Step
import ODataClient.Proofs.Text.Grouping

/-! What an attempt does, one move at a time: it comes to the gate, begins its fetch, or ends,
because it was cancelled, found an entry, failed, or fetched a document. Whenever it goes on
it makes some of these moves one after the other, and nothing else. -/

namespace ODataClient

namespace Attempt

/-- It has not come to its end. -/
def Running (x : Attempt) : Prop := ∀ outcome, x.phase ≠ .ended outcome

theorem running_of_phase {x : Attempt} {phase : Phase} (h : x.phase = phase)
    (hp : ∀ outcome, phase ≠ .ended outcome) : x.Running := fun outcome => h ▸ hp outcome

end Attempt

namespace MetadataCache

variable {c d : MetadataCache} {a b : AttemptId} {x y : Attempt}

/-- A move of an attempt, where `produced` is the result of its fetch, once there is one. -/
inductive Move (a : AttemptId) (produced : Option (Except Error MetadataDocument))
    (c : MetadataCache) : MetadataCache → Prop
  | queue {x : Attempt} (hx : c.attempts[a]? = some x) (hc : x.cancelled = false)
      (hp : x.phase = .starting) :
      Move a produced c { c.setPhase a .queued with gate := c.gate ++ [a] }
  | fetch {x : Attempt} (hx : c.attempts[a]? = some x) (hc : x.cancelled = false)
      (hp : x.phase = .queued) (hg : c.gate.head? = some a) (hm : c.get? x.key = none) :
      Move a produced c { c.setPhase a .fetching with started := c.started ++ [x.call] }
  | cancelled {x : Attempt} (hx : c.attempts[a]? = some x) (hc : x.cancelled = true)
      (hr : x.Running) : Move a produced c (c.finish a x (.error .cancelled))
  | found {x : Attempt} {e : EntryId} (hx : c.attempts[a]? = some x) (hc : x.cancelled = false)
      (hp : x.phase = .queued) (hg : c.gate.head? = some a) (hm : c.get? x.key = some e) :
      Move a produced c (c.finish a x (.ok e))
  | failed {x : Attempt} {err : Error} (hx : c.attempts[a]? = some x) (hc : x.cancelled = false)
      (hp : x.phase = .fetching) (hd : produced = some (.error err)) :
      Move a produced c (c.finish a x (.error err))
  | fetched {x : Attempt} {doc : MetadataDocument} (hx : c.attempts[a]? = some x)
      (hc : x.cancelled = false) (hp : x.phase = .fetching) (hd : produced = some (.ok doc)) :
      Move a produced c ((c.make x.key doc).finish a x (.ok c.made.length))

abbrev Moves (a : AttemptId) (produced : Option (Except Error MetadataDocument)) :=
  Relation.ReflTransGen (Move a produced)

theorem getElem?_setPhase (c : MetadataCache) (a b : AttemptId) (phase : Phase) :
    (c.setPhase a phase).attempts[b]? =
      if a = b then c.attempts[b]?.map fun x => { x with phase := phase } else c.attempts[b]? := by
  rw [setPhase, List.getElem?_modify]
  split <;> simp

theorem getElem?_setPhase_self (hx : c.attempts[a]? = some x) (phase : Phase) :
    (c.setPhase a phase).attempts[a]? = some { x with phase := phase } := by
  rw [getElem?_setPhase, if_pos rfl, hx]
  rfl

theorem getElem?_setPhase_of_ne (h : a ≠ b) (phase : Phase) :
    (c.setPhase a phase).attempts[b]? = c.attempts[b]? := by rw [getElem?_setPhase, if_neg h]

section Finish

variable (c : MetadataCache) (a : AttemptId) (x : Attempt) (outcome : Except Error EntryId)

theorem attempts_finish :
    (c.finish a x outcome).attempts = (c.setPhase a (.ended outcome)).attempts := by
  unfold finish; dsimp only; split <;> rfl

theorem gate_finish : (c.finish a x outcome).gate = c.gate.filter (· != a) := by
  unfold finish; dsimp only; split <;> rfl

theorem calls_finish : (c.finish a x outcome).calls = c.calls := by
  unfold finish; dsimp only; split <;> rfl

theorem started_finish : (c.finish a x outcome).started = c.started := by
  unfold finish; dsimp only; split <;> rfl

theorem made_finish : (c.finish a x outcome).made = c.made := by
  unfold finish; dsimp only; split <;> rfl

theorem models_finish : (c.finish a x outcome).models = c.models := by
  unfold finish; dsimp only; split <;> rfl

theorem inFlight_finish : (c.finish a x outcome).inFlight =
    if c.isCurrent a x then c.inFlight.erase x.key else c.inFlight := by
  unfold finish; dsimp only; split <;> rfl

theorem cached_finish_error (err : Error) : (c.finish a x (.error err)).cached = c.cached := by
  unfold finish; dsimp only; split <;> rfl

theorem cached_finish_ok (e : EntryId) : (c.finish a x (.ok e)).cached =
    if c.isCurrent a x then c.cached.set x.key e else c.cached := by
  unfold finish; dsimp only; split <;> rfl

end Finish

theorem isCurrent_iff : c.isCurrent a x ↔ c.inFlight.get? x.key = some a := by
  rw [isCurrent, beq_iff_eq]

theorem moves_deliver (hx : c.attempts[a]? = some x) (hc : x.cancelled = false)
    (hp : x.phase = .fetching) (produced : Except Error MetadataDocument) :
    Moves a (some produced) c (c.deliver a x produced) := by
  cases produced with
  | error err => exact .single (.failed hx hc hp rfl)
  | ok doc => exact .single (.fetched hx hc hp rfl)

theorem moves_enterAtHead (hx : c.attempts[a]? = some x) (hc : x.cancelled = false)
    (hp : x.phase = .queued) (produced : Option (Except Error MetadataDocument)) :
    Moves a produced c (c.enterAtHead a x produced) := by
  rw [enterAtHead]
  split
  next hg =>
    rw [enter]
    cases hm : c.get? x.key with
    | some e => exact .single (.found hx hc hp hg hm)
    | none =>
      have hfetch : Move a produced c
          { c.setPhase a .fetching with started := c.started ++ [x.call] } :=
        .fetch hx hc hp hg hm
      cases produced with
      | none => exact .single hfetch
      | some produced =>
        refine (Relation.ReflTransGen.single hfetch).trans ?_
        have hx' := getElem?_setPhase_self hx .fetching
        cases produced with
        | error err =>
          exact .single (.failed (x := { x with phase := .fetching }) hx' hc rfl rfl)
        | ok doc => exact .single (.fetched (x := { x with phase := .fetching }) hx' hc rfl rfl)
  next => exact .refl

theorem moves_advance (c : MetadataCache) (a : AttemptId)
    (produced : Option (Except Error MetadataDocument)) :
    Moves a produced c (c.advance a produced) := by
  rw [advance]
  cases hx : c.attempts[a]? with
  | none => exact .refl
  | some x =>
    dsimp only
    cases hp : x.phase with
    | ended outcome => exact .refl
    | starting =>
      cases hc : x.cancelled with
      | true => exact .single (.cancelled hx hc (Attempt.running_of_phase hp fun _ => nofun))
      | false =>
        refine (Relation.ReflTransGen.single (.queue hx hc hp)).trans ?_
        have hx' := getElem?_setPhase_self hx .queued
        exact moves_enterAtHead (c := { c.setPhase a .queued with gate := c.gate ++ [a] })
          (x := { x with phase := .queued }) hx' hc rfl produced
    | queued =>
      cases hc : x.cancelled with
      | true => exact .single (.cancelled hx hc (Attempt.running_of_phase hp fun _ => nofun))
      | false => exact moves_enterAtHead hx hc hp produced
    | fetching =>
      cases hc : x.cancelled with
      | true => exact .single (.cancelled hx hc (Attempt.running_of_phase hp fun _ => nofun))
      | false =>
        cases produced with
        | none => exact .refl
        | some produced => exact moves_deliver hx hc hp produced

theorem advance_ended (hx : c.attempts[a]? = some x) {outcome : Except Error EntryId}
    (hp : x.phase = .ended outcome) (produced : Option (Except Error MetadataDocument)) :
    c.advance a produced = c := by
  simp only [advance, hx, hp]

theorem advance_cancelled (hx : c.attempts[a]? = some x) (hc : x.cancelled = true)
    (hr : x.Running) (produced : Option (Except Error MetadataDocument)) :
    c.advance a produced = c.finish a x (.error .cancelled) := by
  simp only [advance, hx]
  cases hp : x.phase with
  | ended outcome => exact absurd hp (hr outcome)
  | starting | queued | fetching => simp only [hc]

theorem advance_fetching (hx : c.attempts[a]? = some x) (hc : x.cancelled = false)
    (hp : x.phase = .fetching) (produced : Except Error MetadataDocument) :
    c.advance a (some produced) = c.deliver a x produced := by
  simp only [advance, hx, hp, hc]

end MetadataCache

end ODataClient
