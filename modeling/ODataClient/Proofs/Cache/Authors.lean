import ODataClient.Proofs.Cache.Coherence

/-! Who made the entries of a cache: an attempt that went on, or a synchronous addition. An
attempt that made an entry ends with it. -/

namespace ODataClient

namespace MetadataCache

variable {c d : MetadataCache} {a b : AttemptId} {x y : Attempt} {events : List Event}
  {produced : Option (Except Error MetadataDocument)}

def Event.author : Event → Option AttemptId
  | .advance a _ => some a
  | _ => none

/-- The author of each entry that is made while the events happen: the attempt that went on,
if one did. -/
def authors (c : MetadataCache) : List Event → List (Option AttemptId)
  | [] => []
  | event :: events =>
    List.replicate ((c.step event).made.length - c.made.length) event.author ++
      authors (c.step event) events

theorem Move.author (hm : Move a produced c d) :
    d.made = c.made ∨ ∃ y e, d.attempts[a]? = some y ∧ y.phase = .ended (.ok e) := by
  cases hm with
  | queue | fetch => exact .inl rfl
  | cancelled | found | failed => exact .inl (made_finish ..)
  | @fetched x doc hx =>
    refine .inr ⟨{ x with phase := .ended (.ok c.made.length) }, _, ?_, rfl⟩
    rw [attempts_finish]
    exact getElem?_setPhase_self hx _

theorem Moves.author (hm : Moves a produced c d) :
    d.made = c.made ∨ ∃ y e, d.attempts[a]? = some y ∧ y.phase = .ended (.ok e) := by
  induction hm with
  | refl => exact .inl rfl
  | tail _ hm ih =>
    rcases ih with ih | ⟨y, e, hy, hp⟩
    · rw [← ih]
      exact hm.author
    · obtain ⟨z, hz, hl⟩ := hm.later hy
      exact .inr ⟨z, e, hz, hl.ended hp⟩

theorem ended_of_author (h : some a ∈ c.authors events) :
    ∃ y e, (c.run events).attempts[a]? = some y ∧ y.phase = .ended (.ok e) := by
  induction events generalizing c with
  | nil => exact absurd h List.not_mem_nil
  | cons event events ih =>
    rcases List.mem_append.1 h with h | h
    · obtain ⟨hgrown, ha⟩ := List.mem_replicate.1 h
      cases event with
      | advance b produced =>
        obtain rfl := Option.some.inj ha
        rcases (moves_advance c a produced).author with hm | ⟨x, e, hx, hp⟩
        · rw [step_advance, hm, Nat.sub_self] at hgrown
          exact absurd rfl hgrown
        · obtain ⟨y, hy, hl⟩ := later_run events hx
          exact ⟨y, e, hy, hl.ended hp⟩
      | add | call | hear | abandon | clear | clearAll | bind => exact absurd ha nofun
    · exact ih h

/-- An attempt has made nothing so long as it has not ended with an entry. -/
theorem not_author (hy : (c.run events).attempts[a]? = some y)
    (hp : ∀ e, y.phase ≠ .ended (.ok e)) : some a ∉ c.authors events := by
  intro h
  obtain ⟨y', e, hy', hp'⟩ := ended_of_author h
  obtain rfl := Option.some.inj (hy.symm.trans hy')
  exact hp e hp'

end MetadataCache

end ODataClient
