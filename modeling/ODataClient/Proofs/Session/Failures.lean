import ODataClient.Proofs.Cache.Gate
import ODataClient.Proofs.Session.Construction

/-! A request for the metadata that fails. Only the caller that made it is told; whoever waits
behind it makes a request of its own. So the failure is shared by all exactly if there is but one
of them. -/

namespace ODataClient

namespace Client

variable {c d : Client} {r q : ResolutionId} {x y : Resolution} {i : SessionId} {j : Nat}
  {k : CallId} {a : AttemptId} {s : Session} {err : Error} {event : Event} {later : List Event}
  {waiting : List ResolutionId}

/-- The request of a session for its metadata runs, for the first of those who wait. -/
structure Requesting (c : Client) (i : SessionId) (j : Nat) (waiting : List ResolutionId)
    (a : AttemptId) : Prop where
  session : ∃ s t x, c.sessions[i]? = some s ∧ s.settings.metadataDocument = none ∧
    s.connection = .ok t ∧ c.cache.get? s.key = none ∧ c.cache.attempts[a]? = some x ∧
    x.key = s.key ∧ x.cancelled = false ∧ x.phase = .fetching
  slot : ∃ slot, c.slot? i j = some slot ∧ slot.queue = waiting
  first : ∃ r k, waiting.head? = some r ∧ c.resolutions[r]? = some ⟨i, j, .building k⟩ ∧
    c.cache.calls[k]? = some (.joined a)

/-- Nobody comes, and none of those who wait gives up. -/
def Event.Patient (waiting : List ResolutionId) : Event → Prop
  | .enter _ => False
  | .cancel r => r ∉ waiting
  | _ => True

/-- Everybody who waits is told of the failure when their turn comes, and nobody sends a request
of their own. -/
structure SharesFailure (c : Client) (waiting : List ResolutionId) (err : Error) : Prop where
  told (later : List Event) (hp : ∀ event ∈ later, event.Patient waiting)
    (hpolled : (waiting.map Event.progress).Sublist later) (r : ResolutionId) (hr : r ∈ waiting) :
    (c.run later).outcome? r = some (.error err)
  quiet (later : List Event) (hp : ∀ event ∈ later, event.Patient waiting) (r : ResolutionId)
    (hr : r ∈ waiting) (x : Resolution) (k : CallId) (hx : (c.run later).resolutions[r]? = some x)
    (hb : x.stage = .building k) (hk : c.cache.calls.length ≤ k) :
    k ∉ (c.run later).cache.started

/-! The one that made the request. -/

/-- Only three events are about a resolution that is there. -/
theorem eq_of_subject (hr : r < c.resolutions.length) (hs : event.subject c = r) :
    event = .look r ∨ event = .progress r ∨ event = .cancel r := by
  cases event with
  | look q => exact .inl (congrArg _ hs)
  | progress q => exact .inr (.inl (congrArg _ hs))
  | cancel q => exact .inr (.inr (congrArg _ hs))
  | enter | advance | clear | close | clearAll => exact absurd hs hr.ne'

/-- It was told of the failure, or has only to be polled. -/
def Faces (c : Client) (r : ResolutionId) (k : CallId) (a : AttemptId) (err : Error) : Prop :=
  c.outcome? r = some (.error err) ∨
    (∃ x, c.resolutions[r]? = some x ∧ x.stage = .building k) ∧ c.cache.Awaits k a ∧
      ∃ y, c.cache.attempts[a]? = some y ∧ y.phase = .ended (.error err)

theorem progress_failed (hx : c.resolutions[r]? = some x) (hp : x.stage = .building k)
    (hk : (c.cache.hear k).calls[k]? = some (.answered (.error err))) :
    c.progress r = endBuilding { c with cache := c.cache.hear k } r x (.error err) := by
  unfold progress
  simp only [hx, hp]
  unfold listen
  simp only [hk]
  rfl

theorem outcome?_endBuilding (hx : c.resolutions[r]? = some x)
    (outcome : Except Error AdapterId) :
    (c.endBuilding r x outcome).outcome? r = some outcome :=
  outcome?_eq_some.2 ⟨_, List.getElem?_set_self (List.getElem?_eq_some_iff.1 hx).1, rfl⟩

theorem Faces.polled (h : c.Faces r k a err) : (c.progress r).outcome? r = some (.error err) := by
  rcases h with ho | ⟨⟨x, hx, hp⟩, hawaits, y, hy, hend⟩
  · obtain ⟨x, hx, hp⟩ := outcome?_eq_some.1 ho
    unfold progress
    simp only [hx, hp]
    exact ho
  · rw [progress_failed hx hp (hawaits.hear hy hend)]
    exact outcome?_endBuilding hx _

theorem Faces.move (h : c.Faces r k a err) (hc : c.Orderly) {renews : SessionId → Prop}
    (hm : Move q renews c d) (hq : q ≠ r) : d.Faces r k a err := by
  rcases h with ho | ⟨⟨x, hx, hp⟩, hawaits, y, hy, hend⟩
  · obtain ⟨x, hx, hp⟩ := outcome?_eq_some.1 ho
    obtain ⟨z, hz, hl⟩ := hm.change.later hx
    exact .inl (outcome?_eq_some.2 ⟨z, hz, hl.answered hp⟩)
  · refine .inr ⟨⟨x, (hm.change.others (Ne.symm hq)).trans hx, hp⟩, ?_⟩
    rcases hm.cache with hsame | ⟨event, hstep, hgives⟩
    · rw [hsame]
      exact ⟨hawaits, y, hy, hend⟩
    · rw [hstep]
      obtain ⟨z, hz, hl⟩ := MetadataCache.later_step event hy
      refine ⟨hawaits.step fun he => ?_, z, hz, hl.ended hend⟩
      -- the call that is given up is the one of another resolution
      obtain ⟨w, hw, hpw⟩ := hgives k he
      exact hq (hc.one_caller q r w x k hw hx hpw hp)

theorem Faces.moves (h : c.Faces r k a err) (hc : c.Orderly) {renews : SessionId → Prop}
    (hm : Moves q renews c d) (hq : q ≠ r) : d.Faces r k a err := by
  induction hm with
  | refl => exact h
  | tail hm hlast ih => exact ih.move (hc.moves hm) hlast hq

theorem look_of_stage (hx : c.resolutions[r]? = some x) (hp : x.stage ≠ .entered) :
    c.look r = c := by
  unfold look
  rw [hx]
  dsimp only
  split
  next hentered _ => exact absurd hentered hp
  next => rfl

theorem Faces.step (h : c.Faces r k a err) (hc : c.Orderly) (hne : event ≠ .cancel r) :
    (c.step event).Faces r k a err := by
  obtain ⟨x, hx, hlooked⟩ : ∃ x, c.resolutions[r]? = some x ∧ x.stage ≠ .entered := by
    rcases h with ho | ⟨⟨x, hx, hp⟩, -⟩
    · obtain ⟨x, hx, hp⟩ := outcome?_eq_some.1 ho
      exact ⟨x, hx, hp ▸ nofun⟩
    · exact ⟨x, hx, hp ▸ nofun⟩
  by_cases hq : event.subject c = r
  · rcases eq_of_subject (List.getElem?_eq_some_iff.1 hx).1 hq with rfl | rfl | rfl
    · rwa [Client.step, look_of_stage hx hlooked]
    · exact .inl h.polled
    · exact absurd rfl hne
  · exact h.moves hc (hc.moves_step event) hq

theorem Faces.run (h : c.Faces r k a err) (hc : c.Orderly) (hne : .cancel r ∉ later) :
    (c.run later).Faces r k a err :=
  hc.run_induction (P := fun d => d.Faces r k a err) h fun _ hd hf _ he =>
    hf.step hd fun hcancel => hne (hcancel ▸ he)

theorem Faces.told (h : c.Faces r k a err) (hc : c.Orderly) (hne : .cancel r ∉ later)
    (hpolled : .progress r ∈ later) : (c.run later).outcome? r = some (.error err) := by
  obtain ⟨before, rest, rfl⟩ := List.append_of_mem hpolled
  have hrun : c.run (before ++ .progress r :: rest) = ((c.run before).progress r).run rest :=
    List.foldl_append
  rw [hrun]
  have hbefore : (c.run before).Faces r k a err :=
    h.run hc fun hmem => hne (List.mem_append_left _ hmem)
  exact ((hc.run before).step (.progress r)).outcome?_run rest hbefore.polled

theorem sharesFailure_of_faces (h : c.Faces r k a err) (hc : c.Orderly)
    (hk : k < c.cache.calls.length) : c.SharesFailure [r] err := by
  have hne : ∀ {later : List Event}, (∀ event ∈ later, event.Patient [r]) → .cancel r ∉ later :=
    fun hp hmem => hp _ hmem (List.mem_singleton_self r)
  constructor
  · intro later hp hpolled q hq
    obtain rfl := List.mem_singleton.1 hq
    exact h.told hc (hne hp) (List.singleton_sublist.1 hpolled)
  · intro later hp q hq x l hx hb hl
    obtain rfl := List.mem_singleton.1 hq
    rcases h.run hc (hne hp) with ho | ⟨⟨y, hy, hpy⟩, -⟩
    · obtain ⟨y, hy, hpy⟩ := outcome?_eq_some.1 ho
      obtain rfl := Option.some.inj (hx.symm.trans hy)
      exact absurd (hb.symm.trans hpy) nofun
    · obtain rfl := Option.some.inj (hx.symm.trans hy)
      obtain rfl := Stage.building.inj (hb.symm.trans hpy)
      exact absurd hk hl.not_gt

/-! The next in line. -/

theorem hear_new_attempt {m : MetadataCache} {key : String} (hm : m.get? key = none)
    (hf : m.inFlight.get? key = none) :
    (m.call key).hear m.calls.length = m.call key ∧
      (m.call key).calls[m.calls.length]? = some (.joined m.attempts.length) := by
  rw [MetadataCache.call_of_none hm hf]
  have hcall : (m.calls ++ [CallState.joined m.attempts.length])[m.calls.length]? =
      some (.joined m.attempts.length) := List.getElem?_concat_length
  have hattempt : (m.attempts ++ [(⟨key, m.calls.length, false, .starting⟩ : Attempt)])[
      m.attempts.length]? = some ⟨key, m.calls.length, false, .starting⟩ :=
    List.getElem?_concat_length
  refine ⟨?_, hcall⟩
  unfold MetadataCache.hear
  simp only [hcall, hattempt, Option.map_some]

/-- A session that can ask its service for the metadata, which nobody has or asks for. -/
structure Lacks (c : Client) (i : SessionId) (s : Session) : Prop where
  session : c.sessions[i]? = some s
  document : s.settings.metadataDocument = none
  connection : ∃ t, s.connection = .ok t
  cached : c.cache.get? s.key = none
  inFlight : c.cache.inFlight.get? s.key = none

theorem progress_calls (h : c.Lacks x.session s) (hx : c.resolutions[q]? = some x)
    (hp : x.stage = .queued) (hl : c.Leads q x) :
    (c.progress q).cache = c.cache.call s.key ∧ (c.progress q).resolutions =
      c.resolutions.set q { x with stage := .building c.cache.calls.length } := by
  obtain ⟨slot, hslot, hh, ha⟩ := hl
  obtain ⟨t, ht⟩ := h.connection
  have hslot' : s.slots[x.slot]? = some slot := (slot?_of_session h.session x.slot).symm.trans hslot
  have hprogress : c.progress q = c.build q x s := by
    unfold progress takeTurn
    simp only [hx, hp, h.session, hslot', Option.getD_some, ha, hh, if_true]
  obtain ⟨hhear, hcall⟩ := hear_new_attempt h.cached h.inFlight
  rw [hprogress]
  unfold build
  simp only [h.document, ht]
  unfold listen
  dsimp only [alterSession]
  rw [hhear]
  simp only [hcall, and_self]

theorem run_advances (c : Client)
    (turns : List (AttemptId × Option (Except Error MetadataDocument))) :
    c.run (turns.map fun turn => .advance turn.1 turn.2) =
      { c with cache := c.cache.run (MetadataCache.advances turns) } := by
  induction turns generalizing c with
  | nil => rfl
  | cons turn turns ih => exact ih (c.advance turn.1 turn.2)

/-- When it is its turn, it sends a request, however many others are sent before. -/
theorem exists_request (hc : c.Orderly) (h : c.Lacks x.session s)
    (hx : c.resolutions[q]? = some x) (hp : x.stage = .queued) (hl : c.Leads q x) :
    ∃ turns : List (AttemptId × Option (Except Error MetadataDocument)),
      let d := c.run (.progress q :: turns.map fun turn => .advance turn.1 turn.2)
      d.resolutions[q]? = some { x with stage := .building c.cache.calls.length } ∧
        c.cache.calls.length ∈ d.cache.started := by
  obtain ⟨hcache, hres⟩ := progress_calls h hx hp hl
  have hattempts := congrArg MetadataCache.attempts
    (MetadataCache.call_of_none h.cached h.inFlight)
  have hattempt : (c.progress q).cache.attempts[c.cache.attempts.length]? =
      some ⟨s.key, c.cache.calls.length, false, .starting⟩ := by
    rw [hcache, hattempts]
    exact List.getElem?_concat_length
  have hgated : (c.progress q).cache.Gated := by
    obtain ⟨events, hrun⟩ := (hc.step (.progress q)).history
    exact hrun ▸ MetadataCache.gated_run events
  have hnone : (c.progress q).cache.get? s.key = none := by
    rw [hcache, MetadataCache.get?_eq, MetadataCache.cached_call]
    exact h.cached
  obtain ⟨turns, hturns⟩ := MetadataCache.exists_started hgated hattempt rfl rfl hnone
  refine ⟨turns, ?_⟩
  have hrun : c.run (.progress q :: turns.map fun turn => .advance turn.1 turn.2) =
      { c.progress q with cache := (c.progress q).cache.run (MetadataCache.advances turns) } :=
    run_advances (c.progress q) turns
  rw [hrun]
  refine ⟨?_, hturns⟩
  rw [hres]
  exact List.getElem?_set_self (List.getElem?_eq_some_iff.1 hx).1

/-! What the failure leaves behind. -/

theorem cache_failed {m : MetadataCache} {x : Attempt} (hm : m.Coherent)
    (hx : m.attempts[a]? = some x) (hcancelled : x.cancelled = false) (hp : x.phase = .fetching)
    (hnone : m.get? x.key = none) (err : Error) :
    let d := m.advance a (some (.error err))
    d.get? x.key = none ∧ d.inFlight.get? x.key = none ∧ d.calls = m.calls ∧
      ∃ y, d.attempts[a]? = some y ∧ y.phase = .ended (.error err) := by
  intro d
  have hd : d = m.finish a x (.error err) := MetadataCache.advance_fetching hx hcancelled hp _
  have hcurrent : m.isCurrent a x := MetadataCache.isCurrent_iff.2 ((hm.inFlight_iff x.key a).2
    ⟨x, hx, rfl, hcancelled, Attempt.running_of_phase hp fun _ => nofun⟩)
  rw [hd]
  refine ⟨(MetadataCache.get?_finish_error ..).trans hnone, ?_, MetadataCache.calls_finish ..,
    { x with phase := .ended (.error err) }, ?_, rfl⟩
  · rw [MetadataCache.inFlight_finish, if_pos hcurrent, Table.get?_erase, if_pos rfl]
  · rw [MetadataCache.attempts_finish]
    exact MetadataCache.getElem?_setPhase_self hx _

/-- Whoever is answered leaves the session as it is. -/
theorem Lacks.endBuilding (h : c.Lacks x.session s) (r : ResolutionId)
    (outcome : Except Error AdapterId) :
    ∃ s', (c.endBuilding r x outcome).Lacks x.session s' := by
  obtain ⟨t, ht⟩ := h.connection
  let counted : Client := c.alterSession x.session fun s => { s with resolving := s.resolving - 1 }
  have hcounted : counted.sessions[x.session]? = some { s with resolving := s.resolving - 1 } :=
    getElem?_alterSession h.session _
  exact ⟨_, getElem?_alterSession hcounted _, h.document, ⟨t, ht⟩, h.cached, h.inFlight⟩

theorem Lacks.hear (h : c.Lacks i s) (k : CallId) :
    Lacks { c with cache := c.cache.hear k } i s := by
  obtain ⟨calls, hq⟩ := c.cache.hear_eq k
  rw [hq]
  exact ⟨h.session, h.document, h.connection, h.cached, h.inFlight⟩

theorem Leads.next {x y : Resolution} {slot : AdapterSlot} {rest : List ResolutionId}
    (hslot : c.slot? x.session x.slot = some slot) (hqueue : slot.queue = r :: q :: rest)
    (hempty : slot.adapter = none) (hrq : r ≠ q) (hi : y.session = x.session)
    (hj : y.slot = x.slot) (outcome : Except Error AdapterId) :
    (c.endBuilding r x outcome).Leads q y := by
  refine ⟨slot.left r, ?_, ?_, hempty⟩
  · rw [slot?_endBuilding, slot?_answer, if_pos ⟨hi.symm, hj.symm⟩, hi, hj, hslot]
    rfl
  · have hleft : (slot.left r).queue = q :: rest.filter (· != r) := by
      rw [AdapterSlot.left, hqueue]
      simp [Ne.symm hrq]
    rw [hleft]
    rfl

/-- The resolution is first in line and has called for the metadata; behind it another waits. -/
theorem not_sharesFailure {rest : List ResolutionId} (hc : c.Orderly) (h : c.Lacks i s)
    (hslot : ∃ slot, c.slot? i j = some slot ∧ slot.queue = r :: q :: rest)
    (hx : c.resolutions[r]? = some ⟨i, j, .building k⟩) (hawaits : c.cache.Awaits k a)
    (hend : ∃ y, c.cache.attempts[a]? = some y ∧ y.phase = .ended (.error err)) :
    ¬ c.SharesFailure (r :: q :: rest) err := by
  intro hshares
  obtain ⟨slot, hslot, hqueue⟩ := hslot
  obtain ⟨z, hz, hpz⟩ := hend
  have hnodup := hc.nodup i j slot hslot
  rw [hqueue] at hnodup
  have hrq : r ≠ q := fun he => (List.nodup_cons.1 hnodup).1 (he ▸ List.mem_cons_self)
  obtain ⟨own, hown, hhead, hempty⟩ := hc.leads r _ k hx rfl
  obtain rfl := Option.some.inj (hslot.symm.trans hown)
  have hmem : q ∈ slot.queue := hqueue ▸ List.mem_cons_of_mem _ List.mem_cons_self
  obtain ⟨y, hy, hyi, hyj, hqueued⟩ := hc.queued hslot hhead hmem hrq
  let heard : Client := { c with cache := c.cache.hear k }
  have hfirst : c.progress r = heard.endBuilding r ⟨i, j, .building k⟩ (.error err) :=
    progress_failed hx rfl (hawaits.hear hz hpz)
  obtain ⟨s', hlacks⟩ := (h.hear k).endBuilding (x := ⟨i, j, .building k⟩) r (.error err)
  have hlead : (heard.endBuilding r ⟨i, j, .building k⟩ (.error err)).Leads q y :=
    Leads.next (c := heard) (x := ⟨i, j, .building k⟩) hslot hqueue hempty hrq hyi hyj _
  have hstays : (heard.endBuilding r ⟨i, j, .building k⟩ (.error err)).resolutions[q]? = some y :=
    (List.getElem?_set_ne hrq).trans hy
  rw [← hfirst] at hlacks hlead hstays
  obtain ⟨turns, hbuilding, hstarted⟩ := exists_request (hc.step (.progress r))
    (hyi.symm ▸ hlacks) hstays hqueued hlead
  have hpatient : ∀ event ∈ .progress r :: .progress q :: turns.map (fun turn =>
      Event.advance turn.1 turn.2), event.Patient (r :: q :: rest) := by
    intro event he
    simp only [List.mem_cons, List.mem_map] at he
    rcases he with rfl | rfl | ⟨turn, -, rfl⟩ <;> trivial
  have hlate : c.cache.calls.length ≤ (c.progress r).cache.calls.length := by
    rw [hfirst]
    exact MetadataCache.length_calls_step c.cache (.hear k)
  exact hshares.quiet _ hpatient q (List.mem_cons_of_mem _ List.mem_cons_self) _ _ hbuilding rfl
    hlate hstarted

/-- When the request of a session fails, those who wait for it share the failure exactly if there
is one of them. -/
theorem failure_shared_iff (h : c.Reachable) (hr : c.Requesting i j waiting a) (err : Error) :
    (c.advance a (some (.error err))).SharesFailure waiting err ↔ waiting.length = 1 := by
  obtain ⟨⟨s, t, x, hs, hdocument, ht, hnone, hx, hkey, hcancelled, hp⟩, ⟨slot, hslot, hqueue⟩,
    r, k, hhead, hbuilds, hcall⟩ := hr
  have hc := h.orderly
  have hd : (c.advance a (some (.error err))).Orderly := hc.step (.advance a (some (.error err)))
  obtain ⟨hcached, hinFlight, hcalls, hend⟩ :=
    cache_failed hc.coherent hx hcancelled hp (hkey ▸ hnone) err
  have hawaits : (c.advance a (some (.error err))).cache.Awaits k a :=
    .inl ((congrArg (·[k]?) hcalls).trans hcall)
  have hlacks : (c.advance a (some (.error err))).Lacks i s :=
    ⟨hs, hdocument, ⟨t, ht⟩, hkey ▸ hcached, hkey ▸ hinFlight⟩
  cases waiting with
  | nil => exact absurd hhead nofun
  | cons first rest =>
    obtain rfl := Option.some.inj hhead
    cases rest with
    | nil =>
      refine iff_of_true ?_ rfl
      exact sharesFailure_of_faces (.inr ⟨⟨_, hbuilds, rfl⟩, hawaits, hend⟩) hd
        (hd.called first _ k hbuilds rfl)
    | cons q rest =>
      have hnot := not_sharesFailure hd hlacks ⟨slot, hslot, hqueue⟩ hbuilds hawaits hend
      exact iff_of_false hnot (by simp)

theorem failure_alone :
    let c := opened.run [.enter 0, .look 0, .progress 0, .advance 0 none]
    c.Requesting 0 0 [0] 0 ∧ (c.advance 0 (some (.error (.timeout 30)))).SharesFailure [0]
      (.timeout 30) := by
  intro c
  let s : Session := { Session.new northwindSettings none true with
    slots := [⟨none, [0]⟩], resolving := 1 }
  have hc : c.Reachable := reachable_opened.run _
  have hrequesting : c.Requesting 0 0 [0] 0 :=
    ⟨⟨s, some defaultTimeout, ⟨s.key, 0, false, .fetching⟩, rfl, rfl, rfl, rfl, rfl, rfl, rfl, rfl⟩,
      ⟨⟨none, [0]⟩, rfl, rfl⟩, 0, 0, rfl, rfl, rfl⟩
  exact ⟨hrequesting, (failure_shared_iff hc hrequesting (.timeout 30)).2 rfl⟩

/-- The first of two callers is told that the request failed, and the second sends another one,
which succeeds. -/
theorem failure_not_shared :
    let c := opened.run
      [.enter 0, .look 0, .progress 0, .enter 0, .look 1, .progress 1, .advance 0 none]
    let failed := c.advance 0 (some (.error (.timeout 30)))
    let later : List Event :=
      [.progress 0, .progress 1, .advance 1 (some (.ok ⟨"", ["4.0"]⟩)), .progress 1]
    ¬ failed.SharesFailure [0, 1] (.timeout 30) ∧
      (failed.run later).outcome? 0 = some (.error (.timeout 30)) ∧
      (failed.run later).outcome? 1 = some (.ok 0) ∧
      failed.cache.started = [0] ∧ (failed.run later).cache.started = [0, 1] := by
  intro c failed later
  have hsecond : (failed.run later).outcome? 1 = some (.ok 0) := by decide +kernel
  refine ⟨fun hshares => ?_, by decide +kernel, hsecond, by decide +kernel, by decide +kernel⟩
  have hpolled : ([0, 1].map Event.progress).Sublist later :=
    List.sublist_append_left [Event.progress 0, .progress 1] (later.drop 2)
  have htold := hshares.told later (by simp [later, Event.Patient]) hpolled 1 (by decide)
  exact absurd (hsecond.symm.trans htold) nofun

end Client

end ODataClient
