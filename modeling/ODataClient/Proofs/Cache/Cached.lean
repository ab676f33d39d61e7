import ODataClient.Proofs.Cache.Coherence

/-! What a key leads to, over time. An entry stays until its key is cleared or a fetch that began
before it was cached comes to its end; an entry that a key has lost never comes back; and an
attempt that ended with an entry has cached it. -/

namespace ODataClient

namespace MetadataCache

variable {c d : MetadataCache} {a : AttemptId} {x y : Attempt} {key : String} {e : EntryId}
  {event : Event} {events : List Event} {produced : Option (Except Error MetadataDocument)}

theorem get?_finish_ok (c : MetadataCache) (a : AttemptId) (x : Attempt) (e : EntryId)
    (key : String) : (c.finish a x (.ok e)).get? key =
      if c.isCurrent a x ∧ key = x.key then some e else c.get? key := by
  rw [get?_eq, cached_finish_ok]
  by_cases hcur : c.isCurrent a x
  · rw [if_pos hcur, Table.get?_set]
    simp only [hcur, true_and]
    rfl
  · rw [if_neg hcur, if_neg fun h => hcur h.1]
    rfl

theorem get?_finish_error (c : MetadataCache) (a : AttemptId) (x : Attempt) (err : Error)
    (key : String) : (c.finish a x (.error err)).get? key = c.get? key := by
  rw [get?_eq, cached_finish_error]
  rfl

/-! Entries that a key has lost. -/

theorem Move.get?_old (hm : Move a produced c d) (h : d.get? key = some e) :
    c.get? key = some e ∨ c.made.length ≤ e := by
  cases hm with
  | queue | fetch => exact .inl h
  | cancelled | failed =>
    rw [get?_finish_error] at h
    exact .inl h
  | found _ _ _ _ hm =>
    rw [get?_finish_ok] at h
    split at h
    next hk => exact .inl (by rw [hk.2, hm, h])
    next => exact .inl h
  | fetched =>
    rw [get?_finish_ok] at h
    split at h
    next => exact .inr (Option.some.inj h).le
    next => exact .inl h

theorem Moves.get?_old (hm : Moves a produced c d) (h : d.get? key = some e) :
    c.get? key = some e ∨ c.made.length ≤ e := by
  induction hm with
  | refl => exact .inl h
  | tail hm' hm ih =>
    rcases hm.get?_old h with h | h
    · exact ih h
    · obtain ⟨entries, hd⟩ := Moves.made hm'
      rw [hd, List.length_append] at h
      exact .inr ((Nat.le_add_right ..).trans h)

theorem get?_step_old (event : Event) (h : (c.step event).get? key = some e) :
    c.get? key = some e ∨ c.made.length ≤ e := by
  cases event with
  | add k produced =>
    rw [step_add] at h
    rcases c.add_cases k produced with ⟨_, _, hq⟩ | ⟨_, _, hq⟩ | ⟨_, doc, hq⟩ <;> rw [hq] at h
    · exact .inl h
    · exact .inl h
    · rw [get?_eq, Table.get?_set] at h
      split at h
      next => exact .inr (Option.some.inj h).le
      next => exact .inl h
  | call k =>
    rw [step_call, get?_eq, cached_call] at h
    exact .inl h
  | advance a produced => exact (moves_advance c a produced).get?_old h
  | hear i =>
    rw [step_hear, get?_eq, cached_hear] at h
    exact .inl h
  | abandon i => exact .inl h
  | clear k =>
    obtain ⟨attempts, models, hq⟩ := c.clear_eq k
    rw [step_clear, hq, get?_eq, Table.get?_erase] at h
    split at h
    · exact absurd h nofun
    · exact .inl h
  | clearAll =>
    have hnone : (c.step .clearAll).get? key = none := c.get?_of_clears trivial
    exact absurd (hnone.symm.trans h) nofun
  | bind e' loader =>
    rw [get?_eq, cached_bind] at h
    exact .inl h

/-- The key does not lead to this entry, which is an entry of it. -/
def Lost (c : MetadataCache) (key : String) (e : EntryId) : Prop :=
  c.IsEntry key e ∧ c.get? key ≠ some e

theorem Lost.step (h : c.Lost key e) (event : Event) : (c.step event).Lost key e := by
  refine ⟨h.1.step event, fun he => ?_⟩
  rcases get?_step_old event he with he | he
  · exact h.2 he
  · exact absurd h.1.lt_length he.not_gt

theorem Lost.run (h : c.Lost key e) (events : List Event) : (c.run events).Lost key e :=
  run_induction (P := fun d => d.Lost key e) h fun _ hd event _ => hd.step event

/-! Entries that a key keeps. -/

/-- A fetch for the key comes to its end although the key has an entry by now. -/
def Overwrites (c : MetadataCache) (key : String) (event : Event) : Prop :=
  c.get? key ≠ none ∧ ∃ a x doc, event = .advance a (some (.ok doc)) ∧
    c.attempts[a]? = some x ∧ x.key = key ∧ x.cancelled = false ∧ x.phase = .fetching

theorem attempt_setPhase {phase : Phase} (hx : c.attempts[a]? = some x)
    (hd : d.attempts = (c.setPhase a phase).attempts) (hy : d.attempts[a]? = some y) :
    y = { x with phase := phase } := by
  rw [hd, getElem?_setPhase_self hx] at hy
  exact (Option.some.inj hy).symm

/-- A fetch begins only while the key has no entry. -/
theorem Move.fetching (hm : Move a produced c d) (hy : d.attempts[a]? = some y)
    (hp : y.phase = .fetching) : c.get? y.key = none := by
  cases hm with
  | queue hx => exact absurd (attempt_setPhase hx rfl hy ▸ hp) nofun
  | fetch hx hc hpx hg hm => exact attempt_setPhase hx rfl hy ▸ hm
  | cancelled hx => exact absurd (attempt_setPhase hx (attempts_finish ..) hy ▸ hp) nofun
  | found hx => exact absurd (attempt_setPhase hx (attempts_finish ..) hy ▸ hp) nofun
  | failed hx => exact absurd (attempt_setPhase hx (attempts_finish ..) hy ▸ hp) nofun
  | fetched hx =>
    exact absurd (attempt_setPhase hx (attempts_finish (c.make _ _) ..) hy ▸ hp) nofun

/-- The attempt does not fetch for the key, or its fetch has no document yet. -/
def Harmless (key : String) (a : AttemptId)
    (produced : Option (Except Error MetadataDocument)) (c : MetadataCache) : Prop :=
  ∀ x doc, produced = some (.ok doc) → c.attempts[a]? = some x → x.key = key →
    x.cancelled = false → x.phase ≠ .fetching

theorem Move.get?_kept (hm : Move a produced c d) (h : c.get? key = some e)
    (hh : Harmless key a produced c) : d.get? key = some e := by
  cases hm with
  | queue | fetch => exact h
  | cancelled | failed => exact (get?_finish_error ..).trans h
  | found hx _ _ _ hm =>
    rw [get?_finish_ok]
    split
    next hk => rw [← hm, ← hk.2, h]
    next => exact h
  | fetched hx hc hp hd =>
    rw [get?_finish_ok, if_neg fun hk => hh _ _ hd hx hk.2.symm hc hp]
    exact h

theorem Moves.get?_kept (hm : Moves a produced c d) (h : c.get? key = some e)
    (hh : Harmless key a produced c) : d.get? key = some e ∧ Harmless key a produced d := by
  induction hm with
  | refl => exact ⟨h, hh⟩
  | tail _ hm ih =>
    refine ⟨hm.get?_kept ih.1 ih.2, fun y _ _ hy hk _ hp => ?_⟩
    have hnone := hm.fetching hy hp
    rw [hk] at hnone
    exact absurd (hnone.symm.trans ih.1) nofun

theorem get?_step_kept (h : c.get? key = some e) (hc : ¬ event.Clears key)
    (ho : ¬ c.Overwrites key event) : (c.step event).get? key = some e := by
  cases event with
  | add k produced =>
    rw [step_add]
    rcases c.add_cases k produced with ⟨_, _, hq⟩ | ⟨_, _, hq⟩ | ⟨hm, doc, hq⟩ <;> rw [hq]
    · exact h
    · exact h
    · have hk : key ≠ k := by
        rintro rfl
        exact absurd (hm.symm.trans h) nofun
      rw [get?_eq, Table.get?_set, if_neg hk]
      exact h
  | call k =>
    rw [step_call, get?_eq, cached_call]
    exact h
  | advance a produced =>
    have hharmless : Harmless key a produced c := by
      rintro x doc rfl hx hk hcancelled hp
      exact ho ⟨fun hn => absurd (hn.symm.trans h) nofun, a, x, doc, rfl, hx, hk, hcancelled, hp⟩
    exact ((moves_advance c a produced).get?_kept h hharmless).1
  | hear i =>
    rw [step_hear, get?_eq, cached_hear]
    exact h
  | abandon i => exact h
  | clear k =>
    obtain ⟨attempts, models, hq⟩ := c.clear_eq k
    rw [step_clear, hq, get?_eq, Table.get?_erase, if_neg fun he => hc he.symm]
    exact h
  | clearAll => exact absurd trivial hc
  | bind e' loader =>
    rw [get?_eq, cached_bind]
    exact h

theorem get?_overwritten (hc : c.Coherent) (h : c.get? key = some e)
    (ho : c.Overwrites key event) : (c.step event).get? key ≠ some e := by
  obtain ⟨-, a, x, doc, rfl, hx, rfl, hcancelled, hp⟩ := ho
  have hadvance : c.step (.advance a (some (.ok doc))) =
      (c.make x.key doc).finish a x (.ok c.made.length) :=
    advance_fetching hx hcancelled hp (.ok doc)
  have hrunning : x.Running := Attempt.running_of_phase hp fun _ => nofun
  have hcur : (c.make x.key doc).isCurrent a x :=
    isCurrent_iff.2 ((hc.inFlight_iff x.key a).2 ⟨x, hx, rfl, hcancelled, hrunning⟩)
  rw [hadvance, get?_finish_ok, if_pos ⟨hcur, rfl⟩]
  exact fun he => (hc.cached_entry x.key e h).lt_length.ne' (Option.some.inj he)

/-! Entries that an attempt ended with. -/

/-- The key has the entry, and no attempt that could bring another one. -/
def Delivered (c : MetadataCache) (key : String) (e : EntryId) : Prop :=
  c.get? key = some e ∧ c.inFlight.get? key = none

theorem delivered_finish (hc : c.Registered) (hx : c.attempts[a]? = some x)
    (hcancelled : x.cancelled = false) (hr : x.Running) (e : EntryId) :
    (c.finish a x (.ok e)).Delivered x.key e := by
  have hcur : c.isCurrent a x :=
    isCurrent_iff.2 ((hc.inFlight_iff x.key a).2 ⟨x, hx, rfl, hcancelled, hr⟩)
  constructor
  · rw [get?_finish_ok, if_pos ⟨hcur, rfl⟩]
  · rw [inFlight_finish, if_pos hcur, Table.get?_erase, if_pos rfl]

theorem Move.delivered (hm : Move a produced c d) (hc : c.Registered)
    (hy : d.attempts[a]? = some y) (hp : y.phase = .ended (.ok e)) : d.Delivered y.key e := by
  cases hm with
  | queue hx => exact absurd (attempt_setPhase hx rfl hy ▸ hp) nofun
  | fetch hx => exact absurd (attempt_setPhase hx rfl hy ▸ hp) nofun
  | cancelled hx => exact absurd (attempt_setPhase hx (attempts_finish ..) hy ▸ hp) nofun
  | failed hx => exact absurd (attempt_setPhase hx (attempts_finish ..) hy ▸ hp) nofun
  | found hx hcancelled hpx =>
    obtain rfl := attempt_setPhase hx (attempts_finish ..) hy
    obtain rfl := Except.ok.inj (Phase.ended.inj hp)
    exact delivered_finish hc hx hcancelled (Attempt.running_of_phase hpx fun _ => nofun) _
  | @fetched x doc hx hcancelled hpx =>
    obtain rfl := attempt_setPhase hx (attempts_finish (c.make _ _) ..) hy
    obtain rfl := Except.ok.inj (Phase.ended.inj hp)
    have hmade : (c.make x.key doc).Registered := hc.frame rfl rfl rfl
    exact delivered_finish hmade hx hcancelled (Attempt.running_of_phase hpx fun _ => nofun) _

theorem Moves.delivered (hm : Moves a produced c d) (hc : c.Registered)
    (hx : c.attempts[a]? = some x) (hr : x.Running) (hy : d.attempts[a]? = some y)
    (hp : y.phase = .ended (.ok e)) : d.Delivered y.key e := by
  cases hm with
  | refl =>
    obtain rfl := Option.some.inj (hx.symm.trans hy)
    exact absurd hp (hr _)
  | tail hm' hm => exact hm.delivered (hc.moves hm') hy hp

theorem Delivered.step (h : c.Delivered key e) (hc : c.Registered) (hn : ¬ event.Clears key) :
    (c.step event).Delivered key e := by
  have hno : ∀ b, ¬ c.Live key b := fun b hl =>
    absurd (((hc.inFlight_iff key b).2 hl).symm.trans h.2) nofun
  refine ⟨get?_step_kept h.1 hn ?_, Option.eq_none_iff_forall_ne_some.2 fun b hb => ?_⟩
  · rintro ⟨-, a, x, doc, rfl, hx, hk, hcancelled, hp⟩
    exact hno a ⟨x, hx, hk, hcancelled, Attempt.running_of_phase hp fun _ => nofun⟩
  · -- a call for the key would have found the entry
    by_cases hcall : event = .call key
    · subst hcall
      rcases c.call_cases key with ⟨_, _, hq⟩ | ⟨_, hm, _, hq⟩ | ⟨hm, _, hq⟩
      · rw [step_call, hq] at hb
        exact absurd (hb.symm.trans h.2) nofun
      · exact absurd (hm.symm.trans h.1) nofun
      · exact absurd (hm.symm.trans h.1) nofun
    · exact hno b (Live.of_step (((hc.step event).inFlight_iff key b).1 hb) hcall)

/-- An attempt ended with an entry before its key was cleared, or its key still has it. -/
theorem cleared_or_delivered (hx : (run .empty events).attempts[a]? = some x)
    (hp : x.phase = .ended (.ok e)) :
    (∃ (before : List Event) (clearing : Event) (rest : List Event) (y : Attempt),
      events = before ++ clearing :: rest ∧ clearing.Clears x.key ∧
        (run .empty before).attempts[a]? = some y ∧ y.phase = .ended (.ok e)) ∨
    (run .empty events).Delivered x.key e := by
  induction events using List.reverseRecOn generalizing x with
  | nil => exact absurd hx nofun
  | append_singleton events event ih =>
    have hrun : run .empty (events ++ [event]) = (run .empty events).step event :=
      run_append .empty events [event]
    have hc := coherent_run events
    rw [hrun] at hx ⊢
    cases hw : (run .empty events).attempts[a]? with
    | none =>
      obtain ⟨-, -, -, -, he⟩ := new_attempt hw hx
      rw [he] at hp
      exact absurd hp nofun
    | some w =>
      obtain ⟨x', hx', hl, hphase⟩ := attempt_step event hw
      obtain rfl := Option.some.inj (hx.symm.trans hx')
      by_cases hpw : w.phase = .ended (.ok e)
      · rcases ih hw hpw with ⟨before, clearing, rest, y, rfl, hclears, hy, hpy⟩ | hdelivered
        · exact .inl ⟨before, clearing, rest ++ [event], y, by simp, hl.key ▸ hclears, hy, hpy⟩
        · by_cases hclears : event.Clears x.key
          · exact .inl ⟨events, event, [], w, rfl, hclears, hw, hpw⟩
          · exact .inr (Delivered.step (hl.key ▸ hdelivered) hc.toRegistered hclears)
      · rcases hphase with hphase | ⟨produced, rfl⟩
        · exact absurd (hphase.symm.trans hp) hpw
        · have hr : w.Running := fun outcome hend =>
            hpw (hend.trans (hl.ended hend ▸ hp))
          exact .inr ((moves_advance _ a produced).delivered hc.toRegistered hw hr hx hp)

end MetadataCache

end ODataClient
