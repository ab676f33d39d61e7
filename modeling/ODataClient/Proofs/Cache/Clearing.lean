import ODataClient.Proofs.Cache.Authors

/-! Clearing a key while its document is fetched. The attempt in flight goes on as a task until
it is polled again, but it is out of the game: it makes no entry, whatever happens meanwhile it
touches neither the entry nor the attempt that its key has by then, and those who waited for it
learn that it was cancelled. -/

namespace ODataClient

namespace MetadataCache

variable {c d : MetadataCache} {a b : AttemptId} {x y : Attempt} {key : String} {i : CallId}
  {event : Event} {events : List Event}

/-- The attempt was cancelled, and if it has ended, then as cancelled. -/
def Stopped (c : MetadataCache) (a : AttemptId) : Prop :=
  ∃ x, c.attempts[a]? = some x ∧ x.cancelled = true ∧
    (x.Running ∨ x.phase = .ended (.error .cancelled))

theorem stopped_of_clears (h : c.Registered) (hc : event.Clears key)
    (hf : c.inFlight.get? key = some a) : (c.step event).Stopped a := by
  obtain ⟨x, hx, -, -, hr⟩ := (h.inFlight_iff key a).1 hf
  cases event with
  | clear k =>
    obtain rfl : k = key := hc
    refine ⟨{ x with cancelled := x.cancelled || c.inFlight.get? k == some a }, ?_, ?_, .inl hr⟩
    · rw [step_clear, getElem?_clear, hx]
      rfl
    · simp [hf]
  | clearAll =>
    refine ⟨{ x with cancelled := x.cancelled || c.inFlight.entries.any fun p => p.2 == a },
      ?_, ?_, .inl hr⟩
    · rw [step_clearAll, getElem?_clearAll, hx]
      rfl
    · have hany : (c.inFlight.entries.any fun p => p.2 == a) = true :=
        List.any_eq_true.2 ⟨_, Table.get?_eq_some_iff.1 hf, beq_self_eq_true a⟩
      simp [hany]
  | add | call | advance | hear | abandon | bind => exact hc.elim

theorem Stopped.run (h : c.Stopped a) (events : List Event) : (c.run events).Stopped a := by
  obtain ⟨x, hx, hc, hp⟩ := h
  obtain ⟨y, hy, hl⟩ := later_run events hx
  refine ⟨y, hy, hl.cancelled hc, ?_⟩
  rcases hl.stopped hc with hy | hy
  · rw [Attempt.Running, hy]
    exact hp
  · exact .inr hy

/-- The last poll of a stopped attempt changes nothing but its own phase and the gate. -/
theorem Stopped.advance (h : c.Stopped a) (hc : c.Registered)
    (produced : Option (Except Error MetadataDocument)) :
    (∃ y, (c.advance a produced).attempts[a]? = some y ∧ y.phase = .ended (.error .cancelled)) ∧
      (c.advance a produced).made = c.made ∧ (c.advance a produced).cached = c.cached ∧
      (c.advance a produced).inFlight = c.inFlight := by
  obtain ⟨x, hx, hcancelled, hr | hp⟩ := h
  · have hcurrent : ¬ c.isCurrent a x := fun hcur => by
      obtain ⟨y, hy, -, hlive, -⟩ := (hc.inFlight_iff x.key a).1 (isCurrent_iff.1 hcur)
      obtain rfl := Option.some.inj (hx.symm.trans hy)
      exact absurd (hlive.symm.trans hcancelled) nofun
    rw [advance_cancelled hx hcancelled hr]
    refine ⟨⟨{ x with phase := .ended (.error .cancelled) }, ?_, rfl⟩, made_finish ..,
      cached_finish_error .., ?_⟩
    · rw [attempts_finish]
      exact getElem?_setPhase_self hx (.ended (.error .cancelled))
    · rw [inFlight_finish, if_neg hcurrent]
  · rw [advance_ended hx hp]
    exact ⟨⟨x, hx, hp⟩, rfl, rfl, rfl⟩

theorem cleared_attempt (before later : List Event) (clearing : Event)
    (hc : clearing.Clears key) (hf : (run .empty before).inFlight.get? key = some a) :
    let events := before ++ clearing :: later
    let d := run .empty events
    some a ∉ authors .empty events ∧
      (∀ produced, (d.advance a produced).made = d.made ∧
        (d.advance a produced).cached = d.cached ∧
        (d.advance a produced).inFlight = d.inFlight) ∧
      ∀ i, (run .empty before).calls[i]? = some (.joined a) → .abandon i ∉ later →
        (d.calls[i]? = some (.joined a) ∨ d.calls[i]? = some (.answered (.error .cancelled))) ∧
        ∀ produced between, .abandon i ∉ between →
          (((d.advance a produced).run between).hear i).calls[i]? =
            some (.answered (.error .cancelled)) := by
  intro events d
  have hd : d.Coherent := coherent_run events
  have hrun : d = ((run .empty before).step clearing).run later :=
    run_append .empty before (clearing :: later)
  have hstopped : d.Stopped a := by
    rw [hrun]
    exact (stopped_of_clears (coherent_run before).toRegistered hc hf).run later
  refine ⟨?_, fun produced => (hstopped.advance hd.toRegistered produced).2, fun i hi hne => ?_⟩
  · obtain ⟨y, hy, -, hp⟩ := hstopped
    refine not_author hy fun e he => ?_
    rcases hp with hr | hp
    · exact hr _ he
    · exact absurd (hp.symm.trans he) nofun
  · have hclear : ((run .empty before).step clearing).Awaits i a := by
      refine Awaits.step (.inl hi) ?_
      rintro rfl
      exact hc
    have hawaits : d.Awaits i a := by
      rw [hrun]
      exact hclear.run hne
    refine ⟨?_, fun produced between hb => ?_⟩
    · rcases hawaits with hi | ⟨y, outcome, hy, hp, hi⟩
      · exact .inl hi
      · obtain ⟨y', hy', -, hend⟩ := hstopped
        obtain rfl := Option.some.inj (hy.symm.trans hy')
        have hend := hend.resolve_left fun hr => hr outcome hp
        obtain rfl := Phase.ended.inj (hp.symm.trans hend)
        exact .inr hi
    · obtain ⟨y, hy, hp⟩ := (hstopped.advance hd.toRegistered produced).1
      obtain ⟨z, hz, hl⟩ := later_run between hy
      have hlast : (d.step (.advance a produced)).Awaits i a := hawaits.step nofun
      exact (hlast.run hb).hear hz (hl.ended hp)

/-- A key is cleared while its document is fetched, asked for again, and then the first fetch
comes to its end. -/
theorem clearedFetch_attempt :
    let events : List Event := [.call "Northwind", .advance 0 none, .clear "Northwind",
      .call "Northwind", .advance 1 none]
    let d := run .empty events
    let doc : Except Error MetadataDocument := .ok (.ofText "4.0")
    some 0 ∉ authors .empty events ∧ d.inFlight.get? "Northwind" = some 1 ∧
      (d.advance 0 (some doc)).inFlight.get? "Northwind" = some 1 ∧
      (d.advance 0 (some doc)).get? "Northwind" = none ∧
      ((d.advance 0 (some doc)).hear 0).calls[0]? = some (.answered (.error .cancelled)) := by
  intro events d doc
  have hf : (run .empty [.call "Northwind", .advance 0 none]).inFlight.get? "Northwind" =
    some 0 := rfl
  obtain ⟨hnone, hkept, hwaiters⟩ := cleared_attempt [.call "Northwind", .advance 0 none]
    [.call "Northwind", .advance 1 none] (.clear "Northwind") rfl hf
  obtain ⟨-, hcached, hinFlight⟩ := hkept (some doc)
  have hnew : d.inFlight.get? "Northwind" = some 1 := rfl
  refine ⟨hnone, hnew, ?_, ?_, (hwaiters 0 rfl (by simp)).2 (some doc) [] (by simp)⟩
  · rw [← hnew]
    exact congrArg (·.get? "Northwind") hinFlight
  · exact congrArg (·.get? "Northwind") hcached

end MetadataCache

end ODataClient
