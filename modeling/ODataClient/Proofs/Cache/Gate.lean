import ODataClient.Proofs.Cache.Cached

/-! The gate. The attempts at it wait for their turn or fetch, and the first can always be brought
to its end, so an attempt for a key without an entry comes to fetch once the service has failed
those before it. -/

namespace ODataClient

/-- It waits for its turn, or it has it. -/
def Attempt.AtGate (x : Attempt) : Prop := x.phase = .queued ∨ x.phase = .fetching

theorem Attempt.AtGate.running {x : Attempt} (h : x.AtGate) : x.Running := by
  rcases h with h | h <;> exact running_of_phase h fun _ => nofun

namespace MetadataCache

variable {c d : MetadataCache} {a b : AttemptId} {x y : Attempt} {key : String} {err : Error}
  {event : Event} {events : List Event} {produced : Option (Except Error MetadataDocument)}

def Gated (c : MetadataCache) : Prop := ∀ b ∈ c.gate, ∃ x, c.attempts[b]? = some x ∧ x.AtGate

theorem Gated.frame (h : c.Gated) (ha : d.attempts = c.attempts) (hg : d.gate = c.gate) :
    d.Gated := by
  rw [Gated, ha, hg]
  exact h

theorem Gated.finish (h : c.Gated) (outcome : Except Error EntryId) :
    (c.finish a x outcome).Gated := by
  intro b hb
  rw [gate_finish] at hb
  obtain ⟨hb, hne⟩ := List.mem_filter.1 hb
  rw [attempts_finish, getElem?_setPhase_of_ne (Ne.symm (bne_iff_ne.1 hne))]
  exact h b hb

/-- An attempt that takes a place at the gate, or its turn. -/
theorem Gated.setPhase (hx : c.attempts[a]? = some x) {phase : Phase}
    (hp : phase = .queued ∨ phase = .fetching) (hb : ∃ y, c.attempts[b]? = some y ∧ y.AtGate) :
    ∃ y, (c.setPhase a phase).attempts[b]? = some y ∧ y.AtGate := by
  by_cases hab : a = b
  · subst hab
    exact ⟨_, getElem?_setPhase_self hx phase, hp⟩
  · rw [getElem?_setPhase_of_ne hab]
    exact hb

theorem Gated.move (h : c.Gated) (hm : Move a produced c d) : d.Gated := by
  cases hm with
  | queue hx =>
    intro b hb
    rcases List.mem_append.1 hb with hb | hb
    · exact Gated.setPhase hx (.inl rfl) (h b hb)
    · obtain rfl := List.mem_singleton.1 hb
      exact ⟨_, getElem?_setPhase_self hx .queued, .inl rfl⟩
  | fetch hx => exact fun b hb => Gated.setPhase hx (.inr rfl) (h b hb)
  | cancelled | found | failed => exact h.finish _
  | fetched => exact (h.frame rfl rfl : (c.make _ _).Gated).finish _

theorem Gated.moves (h : c.Gated) (hm : Moves a produced c d) : d.Gated := by
  induction hm with
  | refl => exact h
  | tail _ hm ih => exact ih.move hm

theorem Gated.step (h : c.Gated) (event : Event) : (c.step event).Gated := by
  have hlater : ∀ {d : MetadataCache}, d.gate = c.gate →
      (∀ (b : AttemptId) (x : Attempt), c.attempts[b]? = some x →
        ∃ y : Attempt, d.attempts[b]? = some y ∧ y.phase = x.phase) → d.Gated := by
    intro d hg ha b hb
    obtain ⟨x, hx, hp⟩ := h b (hg ▸ hb)
    obtain ⟨y, hy, hpy⟩ := ha b x hx
    refine ⟨y, hy, ?_⟩
    rw [Attempt.AtGate, hpy]
    exact hp
  have hother : ∀ (b : AttemptId) (x : Attempt), c.attempts[b]? = some x →
      (∀ produced, event ≠ .advance b produced) →
      ∃ y : Attempt, (c.step event).attempts[b]? = some y ∧ y.phase = x.phase := by
    intro b x hx hne
    obtain ⟨y, hy, -, hp | ⟨produced, hp⟩⟩ := attempt_step event hx
    · exact ⟨y, hy, hp⟩
    · exact absurd hp (hne produced)
  have hquiet := c.step_quiet event
  cases event with
  | advance a produced => exact h.moves (moves_advance c a produced)
  | add | hear | abandon | bind =>
    obtain ⟨made, cached, calls, models, hq⟩ := hquiet trivial
    exact hlater (by rw [hq]) fun b x hx => hother b x hx fun _ => nofun
  | call key =>
    refine hlater ?_ fun b x hx => hother b x hx fun _ => nofun
    rw [step_call]
    rcases c.call_cases key with ⟨_, _, hq⟩ | ⟨_, _, _, hq⟩ | ⟨_, _, hq⟩ <;> rw [hq]
  | clear key =>
    obtain ⟨attempts, models, hq⟩ := c.clear_eq key
    exact hlater (by rw [step_clear, hq]) fun b x hx => hother b x hx fun _ => nofun
  | clearAll =>
    obtain ⟨attempts, hq⟩ := c.clearAll_eq
    exact hlater (by rw [step_clearAll, hq]) fun b x hx => hother b x hx fun _ => nofun

theorem gated_run (events : List Event) : (run .empty events).Gated :=
  run_induction (P := Gated) (List.forall_mem_nil _) fun _ hd event _ => hd.step event

/-! The first at the gate comes to its end when its fetch fails. -/

theorem advance_queued (hx : c.attempts[a]? = some x) (hc : x.cancelled = false)
    (hp : x.phase = .queued) (produced : Option (Except Error MetadataDocument)) :
    c.advance a produced = c.enterAtHead a x produced := by
  simp only [advance, hx, hp, hc]

theorem gate_advance_failed (hx : c.attempts[a]? = some x) (hg : x.AtGate)
    (hh : c.gate.head? = some a) :
    (c.advance a (some (.error err))).gate = c.gate.filter (· != a) := by
  cases hc : x.cancelled with
  | true =>
    rw [advance_cancelled hx hc hg.running]
    exact gate_finish ..
  | false =>
    rcases hg with hp | hp
    · rw [advance_queued hx hc hp, enterAtHead, if_pos hh]
      unfold enter
      split
      · exact gate_finish ..
      · exact gate_finish ..
    · rw [advance_fetching hx hc hp]
      exact gate_finish ..

theorem Moves.get?_failed (hm : Moves a (some (.error err)) c d) (h : c.get? key = none) :
    d.get? key = none := by
  induction hm with
  | refl => exact h
  | tail _ hm ih =>
    cases hm with
    | queue | fetch => exact ih
    | cancelled | failed => exact (get?_finish_error ..).trans ih
    | found _ _ _ _ hm =>
      rw [get?_finish_ok, if_neg]
      · exact ih
      · rintro ⟨-, rfl⟩
        exact absurd (ih.symm.trans hm) nofun
    | fetched _ _ _ hd => exact absurd (Option.some.inj hd) nofun

theorem started_advance (hx : c.attempts[a]? = some x) (hc : x.cancelled = false)
    (hp : x.phase = .queued) (hh : c.gate.head? = some a) (hm : c.get? x.key = none) :
    x.call ∈ (c.advance a none).started := by
  rw [advance_queued hx hc hp, enterAtHead, if_pos hh]
  unfold enter
  rw [hm]
  exact List.mem_append_right _ (List.mem_singleton_self _)

/-- Attempts go on, one after the other. -/
def advances (turns : List (AttemptId × Option (Except Error MetadataDocument))) : List Event :=
  turns.map fun turn => .advance turn.1 turn.2

/-- The induction is on the attempts at the gate: so long as another one is the first of them, it
is made to fail. -/
theorem exists_started_of_queued (hg : c.Gated) (hx : c.attempts[a]? = some x)
    (hc : x.cancelled = false) (hp : x.phase = .queued) (ha : a ∈ c.gate)
    (hm : c.get? x.key = none) : ∃ turns, x.call ∈ (c.run (advances turns)).started := by
  induction hn : c.gate.length using Nat.strong_induction_on generalizing c with
  | h n ih =>
    cases hgate : c.gate with
    | nil => exact absurd (hgate ▸ ha) List.not_mem_nil
    | cons b rest =>
      have hh : c.gate.head? = some b := by rw [hgate]; rfl
      by_cases hab : b = a
      · subst hab
        exact ⟨[(b, none)], started_advance hx hc hp hh hm⟩
      · obtain ⟨y, hy, hyg⟩ := hg b (hgate ▸ List.mem_cons_self)
        let failed := c.advance b (some (.error .cancelled))
        have hmoves : Moves b (some (.error .cancelled)) c failed := moves_advance c b _
        have hleft : failed.gate = c.gate.filter (· != b) := gate_advance_failed hy hyg hh
        have hshorter : failed.gate.length < n := by
          rw [hleft, ← hn]
          refine List.length_filter_lt_length_iff_exists.2 ⟨b, hgate ▸ List.mem_cons_self, ?_⟩
          simp
        have hstays : a ∈ failed.gate := by
          rw [hleft]
          exact List.mem_filter.2 ⟨ha, bne_iff_ne.2 (Ne.symm hab)⟩
        obtain ⟨turns, hturns⟩ := ih _ hshorter (hg.moves hmoves) ((hmoves.others hab).trans hx)
          hstays (hmoves.get?_failed hm) rfl
        exact ⟨(b, some (.error .cancelled)) :: turns, hturns⟩

theorem exists_started (hg : c.Gated) (hx : c.attempts[a]? = some x) (hc : x.cancelled = false)
    (hp : x.phase = .starting) (hm : c.get? x.key = none) :
    ∃ turns, x.call ∈ (c.run (advances turns)).started := by
  let queued : MetadataCache := { c.setPhase a .queued with gate := c.gate ++ [a] }
  have hx' : queued.attempts[a]? = some { x with phase := .queued } :=
    getElem?_setPhase_self hx .queued
  have hadvance : c.advance a none = queued.enterAtHead a x none := by
    simp only [advance, hx, hp, hc]
    rfl
  by_cases hh : queued.gate.head? = some a
  · refine ⟨[(a, none)], ?_⟩
    have hm' : queued.get? x.key = none := hm
    have hrun : c.run (advances [(a, none)]) = c.advance a none := rfl
    rw [hrun, hadvance, enterAtHead, if_pos hh]
    unfold enter
    rw [hm']
    exact List.mem_append_right _ (List.mem_singleton_self _)
  · have hwaits : c.advance a none = queued := by
      rw [hadvance, enterAtHead, if_neg hh]
    have hg' : queued.Gated := hwaits ▸ hg.moves (moves_advance c a none)
    obtain ⟨turns, hturns⟩ := exists_started_of_queued hg' hx' hc rfl
      (List.mem_append_right _ (List.mem_singleton_self _)) hm
    refine ⟨(a, none) :: turns, ?_⟩
    have hrun : c.run (advances ((a, none) :: turns)) = queued.run (advances turns) :=
      congrArg (·.run (advances turns)) hwaits
    rw [hrun]
    exact hturns

end MetadataCache

end ODataClient
