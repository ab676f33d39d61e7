import ODataClient.Proofs.Cache.Steps

/-! What holds of a metadata cache at all times. The attempts in flight are exactly those that
run and were not cancelled, an attempt that fetches is the first at the gate, only factories of
calls that started an attempt run, and what a key leads to is an entry of that key. -/

namespace ODataClient

namespace MetadataCache

variable {c d : MetadataCache} {a b : AttemptId} {x y : Attempt} {key : String} {e : EntryId}
  {i : CallId} {doc : MetadataDocument} {outcome : Except Error EntryId}
  {produced : Option (Except Error MetadataDocument)} {event : Event} {events : List Event}

/-- The attempt runs for the key and was not cancelled. -/
def Live (c : MetadataCache) (key : String) (a : AttemptId) : Prop :=
  ∃ x, c.attempts[a]? = some x ∧ x.key = key ∧ x.cancelled = false ∧ x.Running

structure Registered (c : MetadataCache) : Prop where
  inFlight_iff (key : String) (a : AttemptId) : c.inFlight.get? key = some a ↔ c.Live key a
  fetching_head (a : AttemptId) (x : Attempt) (hx : c.attempts[a]? = some x)
    (hp : x.phase = .fetching) : c.gate.head? = some a

structure Accounted (c : MetadataCache) : Prop where
  call_lt (a : AttemptId) (x : Attempt) (hx : c.attempts[a]? = some x) : x.call < c.calls.length
  started_call (i : CallId) (hi : i ∈ c.started) :
    ∃ (a : AttemptId) (x : Attempt), c.attempts[a]? = some x ∧ x.call = i

structure Filed (c : MetadataCache) : Prop where
  cached_entry (key : String) (e : EntryId) (h : c.get? key = some e) : c.IsEntry key e
  ended_entry (a : AttemptId) (x : Attempt) (e : EntryId) (hx : c.attempts[a]? = some x)
    (hp : x.phase = .ended (.ok e)) : c.IsEntry x.key e

structure Coherent (c : MetadataCache) : Prop extends Registered c, Accounted c, Filed c

theorem coherent_empty : Coherent .empty where
  inFlight_iff key a := by
    constructor
    · exact nofun
    · rintro ⟨x, hx, -⟩
      exact absurd hx nofun
  fetching_head _ _ hx := nomatch hx
  call_lt _ _ hx := nomatch hx
  started_call _ hi := nomatch hi
  cached_entry _ _ h := nomatch h
  ended_entry _ _ _ hx := nomatch hx

/-! The attempts in flight and the gate. -/

theorem Registered.frame (h : c.Registered) (ha : d.attempts = c.attempts)
    (hf : d.inFlight = c.inFlight) (hg : d.gate = c.gate) : d.Registered where
  inFlight_iff key a := by
    rw [hf, Live, ha]
    exact h.inFlight_iff key a
  fetching_head a x hx hp := hg ▸ h.fetching_head a x (ha ▸ hx) hp

theorem live_setPhase (hx : c.attempts[a]? = some x) (hr : x.Running) (phase : Phase)
    (hp : ∀ outcome, phase ≠ .ended outcome) : (c.setPhase a phase).Live key b ↔ c.Live key b := by
  by_cases h : a = b
  · subst h
    rw [Live, Live, getElem?_setPhase_self hx, hx]
    constructor
    · rintro ⟨y, hy, hkey, hc, -⟩
      obtain rfl := Option.some.inj hy
      exact ⟨x, rfl, hkey, hc, hr⟩
    · rintro ⟨y, hy, hkey, hc, -⟩
      obtain rfl := Option.some.inj hy
      exact ⟨_, rfl, hkey, hc, hp⟩
  · rw [Live, Live, getElem?_setPhase_of_ne h]

theorem live_ended (hx : c.attempts[a]? = some x) (outcome : Except Error EntryId) :
    (c.setPhase a (.ended outcome)).Live key b ↔ c.Live key b ∧ b ≠ a := by
  by_cases h : a = b
  · subst h
    rw [Live, getElem?_setPhase_self hx]
    constructor
    · rintro ⟨y, hy, -, -, hr⟩
      obtain rfl := Option.some.inj hy
      exact absurd rfl (hr outcome)
    · exact fun hl => absurd rfl hl.2
  · rw [Live, Live, getElem?_setPhase_of_ne h]
    exact ⟨fun hl => ⟨hl, Ne.symm h⟩, fun hl => hl.1⟩

theorem head?_filter_ne {l : List AttemptId} (h : l.head? = some b) (hne : b ≠ a) :
    (l.filter (· != a)).head? = some b := by
  cases l with
  | nil => exact absurd h nofun
  | cons b' l =>
    obtain rfl := Option.some.inj h
    rw [List.filter_cons_of_pos (by simpa using hne)]
    rfl

theorem Registered.key_of_inFlight (h : c.Registered) (hf : c.inFlight.get? key = some a)
    (hx : c.attempts[a]? = some x) : x.key = key := by
  obtain ⟨y, hy, hk, -⟩ := (h.inFlight_iff key a).1 hf
  rw [← hk, Option.some.inj (hx.symm.trans hy)]

theorem Registered.finish (h : c.Registered) (hx : c.attempts[a]? = some x) :
    (c.finish a x outcome).Registered where
  inFlight_iff key b := by
    have hlive : (c.finish a x outcome).Live key b ↔ c.Live key b ∧ b ≠ a := by
      rw [Live, attempts_finish]
      exact live_ended hx outcome
    rw [hlive, inFlight_finish, ← h.inFlight_iff]
    -- the record that goes, if any, is the one of the attempt
    split
    next hcur =>
      rw [isCurrent_iff] at hcur
      rw [Table.get?_erase]
      split
      next hk =>
        subst hk
        rw [hcur]
        exact iff_of_false nofun fun hl => hl.2 (Option.some.inj hl.1).symm
      next hk =>
        refine ⟨fun hb => ⟨hb, fun he => hk ?_⟩, fun hl => hl.1⟩
        subst he
        exact (h.key_of_inFlight hb hx).symm
    next hcur =>
      refine ⟨fun hb => ⟨hb, fun he => hcur (isCurrent_iff.2 ?_)⟩, fun hl => hl.1⟩
      subst he
      rw [h.key_of_inFlight hb hx]
      exact hb
  fetching_head b y hy hp := by
    rw [attempts_finish] at hy
    rw [gate_finish]
    by_cases hab : a = b
    · subst hab
      rw [getElem?_setPhase_self hx] at hy
      obtain rfl := Option.some.inj hy
      exact absurd hp nofun
    · rw [getElem?_setPhase_of_ne hab] at hy
      exact head?_filter_ne (h.fetching_head b y hy hp) (Ne.symm hab)

theorem Registered.move (h : c.Registered) (hm : Move a produced c d) : d.Registered := by
  cases hm with
  | queue hx hc hp =>
    constructor
    · intro key b
      exact (h.inFlight_iff key b).trans
        (live_setPhase hx (Attempt.running_of_phase hp fun _ => nofun) .queued fun _ => nofun).symm
    · intro b y hy hpy
      have hab : a ≠ b := by
        rintro rfl
        obtain rfl := Option.some.inj ((getElem?_setPhase_self hx .queued).symm.trans hy)
        exact absurd hpy nofun
      have hhead := h.fetching_head b y ((getElem?_setPhase_of_ne hab _).symm.trans hy) hpy
      exact List.head?_append.trans (by rw [hhead]; rfl)
  | fetch hx hc hp hg hn =>
    constructor
    · intro key b
      exact (h.inFlight_iff key b).trans
        (live_setPhase hx (Attempt.running_of_phase hp fun _ => nofun) .fetching
          fun _ => nofun).symm
    · intro b y hy hpy
      by_cases hab : a = b
      · exact hab ▸ hg
      · exact h.fetching_head b y ((getElem?_setPhase_of_ne hab _).symm.trans hy) hpy
  | cancelled hx => exact h.finish hx
  | found hx => exact h.finish hx
  | failed hx => exact h.finish hx
  | fetched hx => exact (h.frame rfl rfl rfl : (c.make _ _).Registered).finish hx

theorem Registered.moves (h : c.Registered) (hm : Moves a produced c d) : d.Registered := by
  induction hm with
  | refl => exact h
  | tail _ hm ih => exact ih.move hm

theorem Registered.call (h : c.Registered) (key : String) : (c.call key).Registered := by
  rcases c.call_cases key with ⟨_, _, hq⟩ | ⟨_, _, _, hq⟩ | ⟨_, hf, hq⟩ <;> rw [hq]
  · exact h.frame rfl rfl rfl
  · exact h.frame rfl rfl rfl
  · constructor
    · intro key' b
      rw [Table.get?_set, Live]
      rcases lt_trichotomy b c.attempts.length with hlt | rfl | hlt
      · rw [List.getElem?_append_left hlt]
        split
        next hk =>
          subst hk
          refine iff_of_false (fun he => hlt.ne (Option.some.inj he).symm) fun hl => ?_
          rw [(h.inFlight_iff key' b).2 hl] at hf
          exact absurd hf nofun
        next => exact h.inFlight_iff key' b
      · rw [List.getElem?_concat_length]
        split
        next hk => exact iff_of_true rfl ⟨_, rfl, hk.symm, rfl, nofun⟩
        next hk =>
          refine iff_of_false (fun he => ?_) ?_
          · obtain ⟨y, hy, -⟩ := (h.inFlight_iff key' _).1 he
            exact absurd (List.getElem?_eq_some_iff.1 hy).1 (lt_irrefl _)
          · rintro ⟨y, hy, hky, -⟩
            obtain rfl := Option.some.inj hy
            exact hk hky.symm
      · have hnone : (c.attempts ++ [(⟨key, c.calls.length, false, .starting⟩ : Attempt)])[b]? =
            none := List.getElem?_eq_none (by rw [List.length_append]; exact hlt)
        rw [hnone]
        refine iff_of_false (fun he => ?_) fun ⟨y, hy, _⟩ => absurd hy nofun
        split at he
        · exact hlt.ne (Option.some.inj he)
        · obtain ⟨y, hy, -⟩ := (h.inFlight_iff key' b).1 he
          exact absurd (List.getElem?_eq_some_iff.1 hy).1 hlt.asymm
    · intro b y hy hp
      rw [List.getElem?_append] at hy
      split at hy
      · exact h.fetching_head b y hy hp
      · rw [List.getElem?_singleton] at hy
        split at hy
        · obtain rfl := Option.some.inj hy
          exact absurd hp nofun
        · exact absurd hy nofun

/-- When attempts are cancelled together with their records, the others stay in flight. -/
theorem Registered.cancel (h : c.Registered) (stop : AttemptId → Bool)
    (ha : ∀ b : AttemptId, d.attempts[b]? =
      c.attempts[b]?.map fun x : Attempt => { x with cancelled := x.cancelled || stop b })
    (hf : ∀ key b, d.inFlight.get? key = some b ↔ c.inFlight.get? key = some b ∧ stop b = false)
    (hg : d.gate = c.gate) : d.Registered where
  inFlight_iff key b := by
    rw [hf, h.inFlight_iff, Live, Live, ha]
    constructor
    · rintro ⟨⟨x, hx, hk, hc, hr⟩, hs⟩
      rw [hx]
      exact ⟨_, rfl, hk, Bool.or_eq_false_iff.2 ⟨hc, hs⟩, hr⟩
    · rintro ⟨y, hy, hk, hc, hr⟩
      obtain ⟨x, hx, rfl⟩ := Option.map_eq_some_iff.1 hy
      obtain ⟨hc, hs⟩ := Bool.or_eq_false_iff.1 hc
      exact ⟨⟨x, hx, hk, hc, hr⟩, hs⟩
  fetching_head b y hy hp := by
    rw [ha] at hy
    obtain ⟨x, hx, rfl⟩ := Option.map_eq_some_iff.1 hy
    exact hg ▸ h.fetching_head b x hx hp

theorem Registered.clear (h : c.Registered) (key : String) : (c.clear key).Registered := by
  obtain ⟨attempts, models, hq⟩ := c.clear_eq key
  refine h.cancel (fun b => c.inFlight.get? key == some b) (c.getElem?_clear key) ?_ (by rw [hq])
  intro key' b
  have hf : (c.clear key).inFlight = c.inFlight.erase key := by rw [hq]
  rw [hf, Table.get?_erase]
  split
  next hk =>
    subst hk
    exact iff_of_false nofun fun hl => by simp [hl.1] at hl
  next hk =>
    refine ⟨fun hb => ⟨hb, beq_false_of_ne fun hb' => hk ?_⟩, fun hl => hl.1⟩
    obtain ⟨x, hx, hkx, -⟩ := (h.inFlight_iff key' b).1 hb
    rw [← hkx, h.key_of_inFlight hb' hx]

theorem Registered.clearAll (h : c.Registered) : c.clearAll.Registered := by
  obtain ⟨attempts, hq⟩ := c.clearAll_eq
  refine h.cancel (fun b => c.inFlight.entries.any fun p => p.2 == b) c.getElem?_clearAll ?_
    (by rw [hq])
  intro key b
  have hf : c.clearAll.inFlight = .empty := by rw [hq]
  rw [hf]
  refine iff_of_false nofun fun ⟨hb, hs⟩ => ?_
  have hany := List.any_eq_false.1 hs _ (Table.get?_eq_some_iff.1 hb)
  exact hany (beq_self_eq_true b)

theorem Registered.step (h : c.Registered) (event : Event) : (c.step event).Registered := by
  have hquiet := c.step_quiet event
  cases event with
  | add | hear | abandon | bind =>
    obtain ⟨made, cached, calls, models, hq⟩ := hquiet trivial
    rw [hq]
    exact h.frame rfl rfl rfl
  | call key => exact h.call key
  | advance a produced => exact h.moves (moves_advance c a produced)
  | clear key => exact h.clear key
  | clearAll => exact h.clearAll

/-! Calls and the factories that run. -/

theorem length_calls_step (c : MetadataCache) (event : Event) :
    c.calls.length ≤ (c.step event).calls.length := by
  cases event with
  | add key produced =>
    obtain ⟨made, cached, hq⟩ := c.add_eq key produced
    rw [step_add, hq]
  | call key =>
    rw [step_call]
    rcases c.call_cases key with ⟨_, _, hq⟩ | ⟨_, _, _, hq⟩ | ⟨_, _, hq⟩ <;> rw [hq] <;>
      exact List.length_append ▸ Nat.le_add_right ..
  | advance a produced => exact (congrArg List.length (moves_advance c a produced).calls).ge
  | hear i =>
    rw [step_hear]
    rcases c.hear_cases i with hq | ⟨_, _, _, _, _, _, hq⟩ <;> rw [hq]
    exact List.length_set.ge
  | abandon i => exact List.length_set.ge
  | clear key =>
    obtain ⟨attempts, models, hq⟩ := c.clear_eq key
    rw [step_clear, hq]
  | clearAll =>
    obtain ⟨attempts, hq⟩ := c.clearAll_eq
    rw [step_clearAll, hq]
  | bind e loader =>
    rcases c.step_bind e loader with hq | ⟨_, _, hq⟩ <;> rw [hq]

theorem length_calls_run (c : MetadataCache) (events : List Event) :
    c.calls.length ≤ (c.run events).calls.length :=
  run_induction (P := fun d => c.calls.length ≤ d.calls.length) le_rfl fun d hd event _ =>
    hd.trans (length_calls_step d event)

theorem Move.started (hm : Move a produced c d) : d.started = c.started ∨
    ∃ x, c.attempts[a]? = some x ∧ d.started = c.started ++ [x.call] := by
  cases hm with
  | queue => exact .inl rfl
  | fetch hx => exact .inr ⟨_, hx, rfl⟩
  | cancelled | found | failed | fetched => exact .inl (started_finish ..)

theorem Moves.started (hm : Moves a produced c d) (hi : i ∈ d.started) :
    i ∈ c.started ∨ ∃ y, d.attempts[a]? = some y ∧ y.call = i := by
  induction hm with
  | refl => exact .inl hi
  | @tail c' d _ hm ih =>
    have hold : i ∈ c'.started → i ∈ c.started ∨ ∃ y, d.attempts[a]? = some y ∧ y.call = i := by
      intro hi
      refine (ih hi).imp_right fun ⟨x, hx, hcall⟩ => ?_
      obtain ⟨y, hy, hl⟩ := hm.later hx
      exact ⟨y, hy, hl.call.trans hcall⟩
    rcases hm.started with h | ⟨x, hx, h⟩ <;> rw [h] at hi
    · exact hold hi
    · rcases List.mem_append.1 hi with hi | hi
      · exact hold hi
      · obtain ⟨y, hy, hl⟩ := hm.later hx
        exact .inr ⟨y, hy, hl.call.trans (List.mem_singleton.1 hi).symm⟩

theorem started_step (c : MetadataCache) (event : Event) (hi : i ∈ (c.step event).started) :
    i ∈ c.started ∨
      ∃ (a : AttemptId) (y : Attempt), (c.step event).attempts[a]? = some y ∧ y.call = i := by
  have hquiet := c.step_quiet event
  cases event with
  | add | hear | abandon | bind =>
    obtain ⟨made, cached, calls, models, hq⟩ := hquiet trivial
    rw [hq] at hi
    exact .inl hi
  | call key =>
    rw [step_call] at hi
    rcases c.call_cases key with ⟨_, _, hq⟩ | ⟨_, _, _, hq⟩ | ⟨_, _, hq⟩ <;> rw [hq] at hi <;>
      exact .inl hi
  | advance a produced =>
    exact ((moves_advance c a produced).started hi).imp_right fun h => ⟨a, h⟩
  | clear key =>
    obtain ⟨attempts, models, hq⟩ := c.clear_eq key
    rw [step_clear, hq] at hi
    exact .inl hi
  | clearAll =>
    obtain ⟨attempts, hq⟩ := c.clearAll_eq
    rw [step_clearAll, hq] at hi
    exact .inl hi

theorem Accounted.step (h : c.Accounted) (event : Event) : (c.step event).Accounted where
  call_lt b y hy := by
    have hlen := length_calls_step c event
    cases hb : c.attempts[b]? with
    | some x =>
      obtain ⟨y', hy', hl⟩ := later_step event hb
      obtain rfl := Option.some.inj (hy.symm.trans hy')
      exact (hl.call.trans_lt (h.call_lt b x hb)).trans_le hlen
    | none =>
      obtain ⟨rfl, hm, hf, -, he⟩ := new_attempt hb hy
      rw [he, step_call, MetadataCache.call, hm, hf]
      simp
  started_call i hi := by
    rcases started_step c event hi with hi | hi
    · obtain ⟨a, x, hx, hcall⟩ := h.started_call i hi
      obtain ⟨y, hy, hl⟩ := later_step event hx
      exact ⟨a, y, hy, hl.call.trans hcall⟩
    · exact hi

/-! Entries. -/

theorem Filed.frame (h : c.Filed) (hm : d.made = c.made) (hc : d.cached = c.cached)
    (ha : d.attempts = c.attempts) : d.Filed where
  cached_entry key e he := by
    rw [get?_eq, hc] at he
    rw [IsEntry, hm]
    exact h.cached_entry key e he
  ended_entry a x e hx hp := by
    rw [IsEntry, hm]
    exact h.ended_entry a x e (ha ▸ hx) hp

theorem Filed.finish (h : c.Filed) (hx : c.attempts[a]? = some x)
    (ho : ∀ e, outcome = .ok e → c.IsEntry x.key e) : (c.finish a x outcome).Filed where
  cached_entry key e he := by
    rw [IsEntry, made_finish]
    rw [get?_eq] at he
    cases outcome with
    | error err =>
      rw [cached_finish_error] at he
      exact h.cached_entry key e he
    | ok e' =>
      rw [cached_finish_ok] at he
      split at he
      · rw [Table.get?_set] at he
        split at he
        next hk =>
          obtain rfl := Option.some.inj he
          exact hk ▸ ho e' rfl
        next => exact h.cached_entry key e he
      · exact h.cached_entry key e he
  ended_entry b y e hy hp := by
    rw [IsEntry, made_finish]
    rw [attempts_finish] at hy
    by_cases hab : a = b
    · subst hab
      rw [getElem?_setPhase_self hx] at hy
      obtain rfl := Option.some.inj hy
      exact ho e (Phase.ended.inj hp)
    · rw [getElem?_setPhase_of_ne hab] at hy
      exact h.ended_entry b y e hy hp

theorem Filed.make (h : c.Filed) (key : String) (doc : MetadataDocument) :
    (c.make key doc).Filed where
  cached_entry key' e he := isEntry_append (h.cached_entry key' e he) rfl
  ended_entry a x e hx hp := isEntry_append (h.ended_entry a x e hx hp) rfl

theorem Filed.setPhase (h : c.Filed) (hx : c.attempts[a]? = some x) (phase : Phase)
    (hp : ∀ outcome, phase ≠ .ended outcome) : (c.setPhase a phase).Filed where
  cached_entry := h.cached_entry
  ended_entry b y e hy hpy := by
    by_cases hab : a = b
    · subst hab
      rw [getElem?_setPhase_self hx] at hy
      obtain rfl := Option.some.inj hy
      exact absurd hpy (hp _)
    · rw [getElem?_setPhase_of_ne hab] at hy
      exact h.ended_entry b y e hy hpy

theorem Filed.move (h : c.Filed) (hm : Move a produced c d) : d.Filed := by
  cases hm with
  | queue hx => exact (h.setPhase hx .queued fun _ => nofun).frame rfl rfl rfl
  | fetch hx => exact (h.setPhase hx .fetching fun _ => nofun).frame rfl rfl rfl
  | cancelled hx => exact h.finish hx nofun
  | failed hx => exact h.finish hx nofun
  | found hx _ _ _ he =>
    refine h.finish hx fun e' hq => ?_
    obtain rfl := Except.ok.inj hq
    exact h.cached_entry _ _ he
  | fetched hx =>
    refine (h.make _ _).finish hx fun e' hq => ?_
    obtain rfl := Except.ok.inj hq
    exact isEntry_made rfl

theorem Filed.moves (h : c.Filed) (hm : Moves a produced c d) : d.Filed := by
  induction hm with
  | refl => exact h
  | tail _ hm ih => exact ih.move hm

theorem Filed.add (h : c.Filed) (key : String) (produced : Except Error MetadataDocument) :
    (c.add key produced).2.Filed := by
  rcases c.add_cases key produced with ⟨_, _, hq⟩ | ⟨_, _, hq⟩ | ⟨_, doc, hq⟩ <;> rw [hq]
  · exact h
  · exact h
  · refine ⟨fun key' e he => ?_, (h.make key doc).ended_entry⟩
    rw [get?_eq, Table.get?_set] at he
    split at he
    next hk =>
      obtain rfl := Option.some.inj he
      exact hk ▸ isEntry_made rfl
    next => exact (h.make key doc).cached_entry key' e he

theorem Filed.cancel (h : c.Filed) (stop : AttemptId → Bool)
    (ha : ∀ b : AttemptId, d.attempts[b]? =
      c.attempts[b]?.map fun x : Attempt => { x with cancelled := x.cancelled || stop b })
    (hc : ∀ key e, d.get? key = some e → c.get? key = some e) (hm : d.made = c.made) :
    d.Filed where
  cached_entry key e he := by
    rw [IsEntry, hm]
    exact h.cached_entry key e (hc key e he)
  ended_entry b y e hy hp := by
    rw [ha] at hy
    obtain ⟨x, hx, rfl⟩ := Option.map_eq_some_iff.1 hy
    rw [IsEntry, hm]
    exact h.ended_entry b x e hx hp

theorem Filed.step (h : c.Filed) (event : Event) : (c.step event).Filed := by
  cases event with
  | add key produced => exact h.add key produced
  | call key =>
    rw [step_call]
    rcases c.call_cases key with ⟨_, _, hq⟩ | ⟨_, _, _, hq⟩ | ⟨_, _, hq⟩ <;> rw [hq]
    · exact h.frame rfl rfl rfl
    · exact h.frame rfl rfl rfl
    · refine ⟨h.cached_entry, fun b y e hy hp => ?_⟩
      rw [List.getElem?_append] at hy
      split at hy
      · exact h.ended_entry b y e hy hp
      · rw [List.getElem?_singleton] at hy
        split at hy
        · obtain rfl := Option.some.inj hy
          exact absurd hp nofun
        · exact absurd hy nofun
  | advance a produced => exact h.moves (moves_advance c a produced)
  | hear i =>
    obtain ⟨calls, hq⟩ := c.hear_eq i
    rw [step_hear, hq]
    exact h.frame rfl rfl rfl
  | abandon i => exact h.frame rfl rfl rfl
  | clear key =>
    obtain ⟨attempts, models, hq⟩ := c.clear_eq key
    refine h.cancel _ (c.getElem?_clear key) (fun key' e he => ?_) (by rw [step_clear, hq])
    have hc : (c.clear key).cached = c.cached.erase key := by rw [hq]
    rw [get?_eq, step_clear, hc, Table.get?_erase] at he
    split at he
    · exact absurd he nofun
    · exact he
  | clearAll =>
    obtain ⟨attempts, hq⟩ := c.clearAll_eq
    refine h.cancel _ c.getElem?_clearAll (fun key e he => ?_) (by rw [step_clearAll, hq])
    have hc : c.clearAll.cached = .empty := by rw [hq]
    rw [get?_eq, step_clearAll, hc] at he
    exact absurd he nofun
  | bind e loader =>
    refine ⟨fun key e' he => ?_, fun b y e' hy hp => ?_⟩
    · refine (h.cached_entry key e' ?_).step (.bind e loader)
      rcases c.step_bind e loader with hq | ⟨_, _, hq⟩ <;> rwa [hq] at he
    · have hy' : c.attempts[b]? = some y := by
        rcases c.step_bind e loader with hq | ⟨_, _, hq⟩ <;> rwa [hq] at hy
      exact (h.ended_entry b y e' hy' hp).step (.bind e loader)

/-! Runs. -/

theorem Coherent.step (h : c.Coherent) (event : Event) : (c.step event).Coherent :=
  { h.toRegistered.step event, h.toAccounted.step event, h.toFiled.step event with }

theorem Coherent.run (h : c.Coherent) (events : List Event) : (c.run events).Coherent :=
  run_induction h fun _ hd event _ => hd.step event

theorem coherent_run (events : List Event) : (run .empty events).Coherent :=
  coherent_empty.run events

theorem Live.running (h : c.Live key a) (hx : c.attempts[a]? = some x) : x.Running := by
  obtain ⟨y, hy, -, -, hr⟩ := h
  exact Option.some.inj (hy.symm.trans hx) ▸ hr

/-- Only a call for the key puts an attempt in flight for it. -/
theorem Live.of_step (h : (c.step event).Live key b) (hne : event ≠ .call key) : c.Live key b := by
  obtain ⟨y, hy, hk, hc, hr⟩ := h
  cases hb : c.attempts[b]? with
  | none =>
    obtain ⟨he, -⟩ := new_attempt hb hy
    exact absurd (hk ▸ he) hne
  | some x =>
    obtain ⟨y', hy', hl⟩ := later_step event hb
    obtain rfl := Option.some.inj (hy.symm.trans hy')
    refine ⟨x, hb, hl.key.symm.trans hk, ?_, fun outcome hp => hr outcome (hl.ended hp)⟩
    exact Bool.eq_false_iff.2 fun hx => absurd (hc.symm.trans (hl.cancelled hx)) nofun

theorem Live.of_run (h : (c.run events).Live key b) (hne : .call key ∉ events) : c.Live key b :=
  run_induction (P := fun d => d.Live key b → c.Live key b) id
    (fun _ hd _ he hlive => hd (hlive.of_step fun hcall => hne (hcall ▸ he))) h

end MetadataCache

end ODataClient
