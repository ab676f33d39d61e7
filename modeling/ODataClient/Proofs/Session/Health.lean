import ODataClient.Proofs.Cache.Supply
import ODataClient.Proofs.Session.Failures
import ODataClient.Proofs.Session.Lifecycle

/-! A session that can make its adapter: it is open, the only one that uses the cache, and whatever
it learns of its service can be used. Whoever makes the adapter then gets one, or waits for an
attempt that comes to an entry. -/

namespace ODataClient

/-- It was opened with a document that can be used, or with a transport to ask its service. -/
def Session.CanAsk (s : Session) : Prop :=
  match s.settings.metadataDocument with
  | some raw => (MetadataDocument.ofText raw).Usable s.settings.loader
  | none => s.hasTransport = true

theorem Session.CanAsk.of_setup {s t : Session} (h : s.CanAsk) (hst : t.setup = s.setup) :
    t.CanAsk := by
  obtain ⟨hsettings, hrest⟩ := Prod.mk.inj hst
  obtain ⟨-, htransport⟩ := Prod.mk.inj hrest
  rw [CanAsk, hsettings, htransport]
  exact h

namespace MetadataCache

variable {c d : MetadataCache} {key : String} {loader : ModelLoader} {e : EntryId}

/-- The cache goes on as a well supplied one, and nobody gives up. -/
def Goes (key : String) (loader : ModelLoader) (c d : MetadataCache) : Prop :=
  ∃ events : List Event, (∀ event ∈ events, event.Supplies key loader ∧
    ∀ i, event ≠ .abandon i) ∧ d = c.run events

theorem Goes.refl (c : MetadataCache) : Goes key loader c c := ⟨[], List.forall_mem_nil _, rfl⟩

theorem goes_step (event : Event) (h : event.Supplies key loader)
    (hne : ∀ i, event ≠ .abandon i) : Goes key loader c (c.step event) :=
  ⟨[event], fun _ hmem => List.mem_singleton.1 hmem ▸ ⟨h, hne⟩, rfl⟩

theorem Goes.trans {m : MetadataCache} (h : Goes key loader c d) (h' : Goes key loader d m) :
    Goes key loader c m := by
  obtain ⟨events, hevents, rfl⟩ := h
  obtain ⟨events', hevents', rfl⟩ := h'
  refine ⟨events ++ events', fun event hmem => ?_, (run_append c events events').symm⟩
  exact (List.mem_append.1 hmem).elim (hevents event) (hevents' event)

theorem Goes.supplied (h : Goes key loader c d) (hc : c.Supplied key loader) :
    d.Supplied key loader := by
  obtain ⟨events, hevents, rfl⟩ := h
  exact hc.run fun event hmem => (hevents event hmem).1

theorem Goes.promises (h : Goes key loader c d) (hc : c.Supplied key loader) {a : AttemptId}
    (hp : c.Promises loader a) : d.Promises loader a := by
  obtain ⟨events, hevents, rfl⟩ := h
  exact hp.run hc fun event hmem => (hevents event hmem).1

theorem Goes.awaits (h : Goes key loader c d) {i : CallId} {a : AttemptId} (hi : c.Awaits i a) :
    d.Awaits i a := by
  obtain ⟨events, hevents, rfl⟩ := h
  exact hi.run fun hmem => (hevents _ hmem).2 i rfl

theorem Supplied.add (h : c.Supplied key loader) {doc : MetadataDocument}
    (hu : doc.Usable loader) :
    ∃ e, (c.add key (.ok doc)).1 = .ok e ∧ (c.add key (.ok doc)).2.Serves loader e := by
  cases hm : c.get? key with
  | some e =>
    have hq : c.add key (.ok doc) = (.ok e, c) := by simp only [MetadataCache.add, hm]
    exact ⟨e, congrArg Prod.fst hq, hq ▸ h.usable e hm⟩
  | none =>
    have hq : c.add key (.ok doc) = (.ok c.made.length,
        { c.make key doc with cached := c.cached.set key c.made.length }) := by
      simp only [MetadataCache.add, hm]
    exact ⟨_, congrArg Prod.fst hq, hq ▸ serves_made hu rfl⟩

/-- Whoever calls for the key is given an entry, or joins an attempt that comes to one. -/
theorem Supplied.call (h : c.Supplied key loader) :
    (∃ e, c.Serves loader e ∧ (c.call key).calls[c.calls.length]? = some (.answered (.ok e))) ∨
      ∃ a, (c.call key).calls[c.calls.length]? = some (.joined a) ∧
        (c.call key).Promises loader a := by
  have hcalls : ∀ state : CallState, (c.calls ++ [state])[c.calls.length]? = some state :=
    fun _ => List.getElem?_concat_length
  rcases c.call_cases key with ⟨e, hm, hq⟩ | ⟨a, hm, hf, hq⟩ | ⟨hm, hf, hq⟩ <;> rw [hq]
  · exact .inl ⟨e, h.usable e hm, hcalls _⟩
  · obtain ⟨x, hx, -, hc, hr⟩ := (h.inFlight_iff key a).1 hf
    exact .inr ⟨a, hcalls _, x, hx, .inl ⟨hr, hc⟩⟩
  · exact .inr ⟨_, hcalls _, _, List.getElem?_concat_length, .inl ⟨nofun, rfl⟩⟩

/-- An entry that can be used can be bound. -/
theorem Serves.bind (h : c.Serves loader e) :
    ∃ entry b, c.made[e]? = some entry ∧ (c.bind e entry loader).1 = .ok b := by
  obtain ⟨entry, he, ⟨version, hv⟩, model, hm⟩ := h
  cases hb : entry.bound with
  | some b =>
    refine ⟨entry, b, he, ?_⟩
    unfold MetadataCache.bind
    simp only [hb]
  | none => exact ⟨entry, _, he, congrArg Prod.fst (bind_loaded c e entry hb hv hm)⟩

end MetadataCache

namespace Client

variable {c d : Client} {r q : ResolutionId} {x y : Resolution} {i : SessionId} {s t : Session}
  {k : CallId} {a : AttemptId} {e : EntryId} {event : Event} {n : AdapterId}
  {outcome : Except Error AdapterId}

/-- The session is not cleared or closed, and what it asks for can be used. -/
def Event.Favours (loader : ModelLoader) : Event → Prop
  | .advance _ produced => MetadataCache.Yields loader produced
  | .clear _ | .close _ | .clearAll => False
  | _ => True

theorem not_renews_of_favours {loader : ModelLoader} (h : event.Favours loader) (i : SessionId) :
    ¬ event.Renews i := by
  cases event with
  | clear | close | clearAll => exact h.elim
  | enter | look | progress | cancel | advance => exact id

/-- A client with one session, which was opened like `s`. -/
structure Healthy (c : Client) (s : Session) : Prop where
  orderly : c.Orderly
  session (i : SessionId) (t : Session) (ht : c.sessions[i]? = some t) :
    i = 0 ∧ t.setup = s.setup ∧ t.closed = false
  canAsk : s.CanAsk
  supplied : c.cache.Supplied s.key s.settings.loader
  building (r : ResolutionId) (x : Resolution) (k : CallId) (hx : c.resolutions[r]? = some x)
    (hp : x.stage = .building k) :
    ∃ a, c.cache.Awaits k a ∧ c.cache.Promises s.settings.loader a

/-- Without a clear or a close the session stays as it was opened. -/
theorem Healthy.session_moves (h : c.Healthy s) (hm : Moves r renews c d)
    (hn : ∀ i, ¬ renews i) (i : SessionId) (t : Session) (ht : d.sessions[i]? = some t) :
    i = 0 ∧ t.setup = s.setup ∧ t.closed = false := by
  obtain ⟨u, hu, hsetup⟩ := setup?_eq_of_session (hm.setup? i).symm ht
  obtain ⟨hi, hus, hopen⟩ := h.session i u hu
  have hclosed : some t.closed = some u.closed :=
    (closed?_of_session ht).symm.trans ((hm.closed? (hn i)).trans (closed?_of_session hu))
  exact ⟨hi, hsetup.symm.trans hus, (Option.some.inj hclosed).trans hopen⟩

/-! The cache. -/

section Goes

variable {key : String} {loader : ModelLoader}

theorem goes_complete (c : Client) (r : ResolutionId) (x : Resolution)
    (outcome : Except Error EntryId) :
    c.cache.Goes key loader (c.complete r x outcome).cache := by
  cases outcome with
  | error err => exact .refl _
  | ok e =>
    unfold complete
    dsimp only
    cases hs : c.sessions[x.session]? with
    | none => exact .refl _
    | some t =>
      cases he : c.cache.made[e]? with
      | none => exact .refl _
      | some entry =>
        have hbind : c.cache.Goes key loader (c.cache.bind e entry t.settings.loader).2 := by
          rw [← MetadataCache.step_bind_of_made he]
          exact MetadataCache.goes_step (.bind e t.settings.loader) trivial nofun
        dsimp only
        cases hq : c.cache.bind e entry t.settings.loader with
        | mk result cache =>
          rw [hq] at hbind
          cases result with
          | error err => exact hbind
          | ok b => exact hbind

theorem goes_listen (c : Client) (r : ResolutionId) (x : Resolution) (k : CallId) :
    c.cache.Goes key loader (c.listen r x k).cache := by
  have hhear : c.cache.Goes key loader (c.cache.hear k) :=
    MetadataCache.goes_step (.hear k) trivial nofun
  unfold listen
  dsimp only
  split
  · exact hhear.trans (goes_complete { c with cache := c.cache.hear k } r x _)
  · exact hhear

theorem yields_document {raw : String} (ht : s.CanAsk)
    (hd : s.settings.metadataDocument = some raw) :
    MetadataCache.Yields s.settings.loader (some (.ok (.ofText raw))) := by
  intro result hresult
  refine ⟨_, (Option.some.inj hresult).symm, ?_⟩
  rw [Session.CanAsk, hd] at ht
  exact ht

theorem goes_build (c : Client) (r : ResolutionId) (x : Resolution) (ht : s.CanAsk) :
    c.cache.Goes s.key s.settings.loader (c.build r x s).cache := by
  unfold build
  dsimp only
  split
  next raw hd =>
    have hadd : c.cache.Goes s.key s.settings.loader (c.cache.add s.key (.ok (.ofText raw))).2 :=
      MetadataCache.goes_step (.add s.key (.ok (.ofText raw)))
        ⟨rfl, yields_document ht hd⟩ nofun
    exact hadd.trans (goes_complete _ r x _)
  next => exact .refl _
  next =>
    have hcall : c.cache.Goes s.key s.settings.loader (c.cache.call s.key) :=
      MetadataCache.goes_step (.call s.key) rfl nofun
    exact hcall.trans (goes_listen _ r _ _)

end Goes

theorem Healthy.goes_takeTurn (h : c.Healthy s) (r : ResolutionId) (x : Resolution) :
    c.cache.Goes s.key s.settings.loader (c.takeTurn r x).cache := by
  unfold takeTurn
  cases ht : c.sessions[x.session]? with
  | none => exact .refl _
  | some t =>
    obtain ⟨-, hsetup, -⟩ := h.session _ t ht
    have hbuild := goes_build c r x (h.canAsk.of_setup hsetup)
    rw [Session.key_eq hsetup, Session.settings_eq hsetup] at hbuild
    dsimp only
    split
    next => exact .refl _
    next =>
      split
      next => exact hbuild
      next => exact .refl _

/-- Whoever waits in the queue for the first time changes nothing but the queue. -/
theorem Healthy.join (h : c.Healthy s) (hx : c.resolutions[r]? = some x) (hp : x.stage = .arrived) :
    (c.join r x).Healthy s := by
  obtain ⟨slot, hslot⟩ := h.orderly.slotted r x hx hp
  have hm : Move r (fun _ => False) c (c.join r x) := .queued hx hp hslot
  refine ⟨h.orderly.move hm, h.session_moves (.tail .refl hm) fun _ => id, h.canAsk, h.supplied,
    fun q y k hy hpy => ?_⟩
  rcases getElem?_of_set hy with ⟨-, rfl⟩ | ⟨-, hy⟩
  · exact absurd hpy nofun
  · exact h.building q y k hy hpy

theorem Healthy.goes_firstPoll (h : c.Healthy s) (hx : c.resolutions[r]? = some x)
    (hp : x.stage = .arrived) (cancelled : Bool) :
    c.cache.Goes s.key s.settings.loader (c.firstPoll r x cancelled).cache := by
  obtain ⟨slot, hslot⟩ := h.orderly.slotted r x hx hp
  rcases firstPoll_cases (r := r) hslot cancelled with ⟨n, -, hq⟩ | ⟨-, hq⟩ <;> rw [hq]
  · exact .refl _
  · cases cancelled with
    | true => exact .refl _
    | false => exact (h.join hx hp).goes_takeTurn r _

theorem Healthy.goes_progress (h : c.Healthy s) (r : ResolutionId) :
    c.cache.Goes s.key s.settings.loader (c.progress r).cache := by
  unfold progress
  cases hx : c.resolutions[r]? with
  | none => exact .refl _
  | some x =>
    dsimp only
    cases hp : x.stage with
    | entered | answered => exact .refl _
    | arrived => exact h.goes_firstPoll hx hp false
    | queued => exact h.goes_takeTurn r x
    | building k => exact goes_listen c r x k

/-! What becomes of a resolution that makes the adapter. -/

theorem complete_ok (hx : c.resolutions[r]? = some x) (hs : c.sessions[x.session]? = some t)
    (he : c.cache.Serves t.settings.loader e) :
    ∃ n, (c.complete r x (.ok e)).outcome? r = some (.ok n) := by
  obtain ⟨entry, b, hmade, hb⟩ := he.bind
  unfold complete
  simp only [hs, hmade]
  cases hq : c.cache.bind e entry t.settings.loader with
  | mk result cache =>
    obtain rfl : result = .ok b := (congrArg Prod.fst hq).symm.trans hb
    refine ⟨t.adapters.length, outcome?_endBuilding ?_ _⟩
    exact hx

/-- A resolution that waits for an attempt which comes to an entry. -/
structure Expects (c : Client) (s : Session) (r : ResolutionId) (x : Resolution) (k : CallId)
    (a : AttemptId) : Prop where
  stored : c.resolutions[r]? = some x
  builds : x.stage = .building k
  awaits : c.cache.Awaits k a
  promises : c.cache.Promises s.settings.loader a

/-- When the attempt has ended it gets an adapter, and nothing happens until then. -/
theorem Expects.listen (h : c.Expects s r x k a) (hs : c.sessions[x.session]? = some t)
    (ht : t.settings = s.settings) :
    c.cache.Ended a ∧ (∃ n, (c.listen r x k).outcome? r = some (.ok n)) ∨
      ¬ c.cache.Ended a ∧ (c.listen r x k).resolutions[r]? = some x := by
  obtain ⟨y, hy, hy'⟩ := h.promises
  have hcall := fun outcome (hp : y.phase = .ended outcome) => h.awaits.hear hy hp
  unfold Client.listen
  dsimp only
  rcases hy' with ⟨hr, -⟩ | ⟨e, hp, hserves⟩
  · have hjoined : c.cache.calls[k]? = some (.joined a) := by
      refine h.awaits.resolve_right fun ⟨z, outcome, hz, hp, _⟩ => ?_
      obtain rfl := Option.some.inj (hy.symm.trans hz)
      exact hr outcome hp
    have hquiet : c.cache.hear k = c.cache := by
      rcases c.cache.hear_cases k with hq | ⟨b, z, outcome, hb, hz, hp, -⟩
      · exact hq
      · obtain rfl := CallState.joined.inj (Option.some.inj (hjoined.symm.trans hb))
        obtain rfl := Option.some.inj (hy.symm.trans hz)
        exact absurd hp (hr outcome)
    have hlasts : ¬ c.cache.Ended a := by
      rintro ⟨z, outcome, hz, hp⟩
      obtain rfl := Option.some.inj (hy.symm.trans hz)
      exact hr outcome hp
    refine .inr ⟨hlasts, ?_⟩
    rw [hquiet]
    simp only [hjoined]
    exact h.stored
  · refine .inl ⟨⟨y, _, hy, hp⟩, ?_⟩
    simp only [hcall _ hp]
    exact complete_ok (c := { c with cache := c.cache.hear k }) h.stored hs
      (ht ▸ hserves.step (.hear k))

theorem progress_building (hx : c.resolutions[r]? = some x) (hp : x.stage = .building k) :
    c.progress r = c.listen r x k := by
  unfold progress
  simp only [hx, hp]

theorem Healthy.session_of_pending (h : c.Healthy s) (hx : c.resolutions[r]? = some x)
    (hw : x.Pending) : ∃ t slot, c.sessions[x.session]? = some t ∧
      t.slots[x.slot]? = some slot := by
  obtain ⟨slot, hslot⟩ := h.orderly.slot_of_pending hx hw
  obtain ⟨t, ht, hj⟩ := slot?_eq_some.1 hslot
  exact ⟨t, slot, ht, hj⟩

/-- A resolution that waits for an attempt either gets an adapter, because the attempt has ended,
or waits on. -/
theorem Healthy.progress_expects (h : c.Healthy s) (he : c.Expects s r x k a) :
    c.cache.Ended a ∧ (∃ n, (c.progress r).outcome? r = some (.ok n)) ∨
      ¬ c.cache.Ended a ∧ (c.progress r).Expects s r x k a := by
  have hw : x.Pending := Resolution.pending_of_stage he.builds (fun _ => nofun) nofun
  obtain ⟨t, -, ht, -⟩ := h.session_of_pending he.stored hw
  have hgoes := h.goes_progress r
  have hlisten := he.listen ht (Session.settings_eq (h.session _ t ht).2.1)
  rw [← progress_building he.stored he.builds] at hlisten
  refine hlisten.imp_right fun ⟨hlasts, hstays⟩ => ⟨hlasts, hstays, he.builds, ?_, ?_⟩
  · exact hgoes.awaits he.awaits
  · exact hgoes.promises h.supplied he.promises

theorem listen_answered {outcome : Except Error EntryId}
    (hk : c.cache.calls[k]? = some (.answered outcome)) :
    c.listen r x k = c.complete r x outcome := by
  have hquiet : c.cache.hear k = c.cache := by
    unfold MetadataCache.hear
    simp only [hk]
  unfold listen
  rw [hquiet]
  simp only [hk]

theorem connection_ok (ht : t.CanAsk) (hopen : t.closed = false)
    (hd : t.settings.metadataDocument = none) : t.connection = .ok t.settings.timeout := by
  rw [Session.CanAsk, hd] at ht
  have ho : t.checkOpen = .ok () := if_neg (by rw [hopen]; exact Bool.false_ne_true)
  unfold Session.connection
  rw [ho]
  exact if_pos ht

/-- Whoever begins to make the adapter gets one or waits for an attempt. -/
theorem Healthy.build (h : c.Healthy s) (hx : c.resolutions[r]? = some x)
    (ht : c.sessions[x.session]? = some t) :
    (∃ n, (c.build r x t).outcome? r = some (.ok n)) ∨
      ∃ k a, (c.build r x t).Expects s r { x with stage := .building k } k a := by
  obtain ⟨-, hsetup, hopen⟩ := h.session _ t ht
  have hask := h.canAsk.of_setup hsetup
  have hsupplied := h.supplied
  rw [← Session.key_eq hsetup, ← Session.settings_eq hsetup] at hsupplied
  have ht' := getElem?_alterSession ht fun t => { t with resolving := t.resolving + 1 }
  unfold Client.build
  dsimp only
  split
  next raw hd =>
    rw [Session.CanAsk, hd] at hask
    obtain ⟨e, he, hserves⟩ := hsupplied.add hask
    left
    change ∃ n, (complete _ r x (c.cache.add t.key (.ok (.ofText raw))).1).outcome? r = _
    rw [he]
    exact complete_ok hx ht' hserves
  next err hd hfail => exact absurd (hfail.symm.trans (connection_ok hask hopen hd)) nofun
  next hd hok =>
    let asked : Client := { c.alterSession x.session fun t =>
        { t with resolving := t.resolving + 1 } with
      cache := c.cache.call t.key
      callers := c.callers ++ [x.session]
      resolutions := c.resolutions.set r { x with stage := .building c.cache.calls.length } }
    have hstored : asked.resolutions[r]? =
        some { x with stage := .building c.cache.calls.length } :=
      List.getElem?_set_self (List.getElem?_eq_some_iff.1 hx).1
    change (∃ n, (asked.listen r _ _).outcome? r = some (.ok n)) ∨
      ∃ k a, (asked.listen r _ _).Expects s r { x with stage := .building k } k a
    rcases hsupplied.call with ⟨e, hserves, hcall⟩ | ⟨a, hcall, hpromises⟩
    · left
      rw [listen_answered hcall]
      exact complete_ok hstored ht' (hserves.step (.call t.key))
    · rw [Session.settings_eq hsetup] at hpromises
      have hexpects : asked.Expects s r { x with stage := .building c.cache.calls.length }
        c.cache.calls.length a := ⟨hstored, rfl, .inl hcall, hpromises⟩
      rcases hexpects.listen ht' (Session.settings_eq hsetup) with ⟨-, hok⟩ | ⟨-, hstays⟩
      · exact .inl hok
      · have hgoes : asked.cache.Goes s.key s.settings.loader (asked.listen r
            { x with stage := .building c.cache.calls.length } c.cache.calls.length).cache :=
          goes_listen asked r _ _
        refine .inr ⟨_, a, hstays, rfl, hgoes.awaits hexpects.awaits, ?_⟩
        refine hgoes.promises ?_ hpromises
        exact Session.key_eq hsetup ▸ h.supplied.step (.call s.key) rfl

/-- A resolution in a queue goes on when it is its turn. -/
theorem Healthy.takeTurn (h : c.Healthy s) (hx : c.resolutions[r]? = some x)
    (hp : x.stage = .queued) :
    (∃ n, (c.takeTurn r x).outcome? r = some (.ok n)) ∨
      (∃ k a, (c.takeTurn r x).Expects s r { x with stage := .building k } k a) ∨
      c.takeTurn r x = c ∧ ∃ slot, c.slot? x.session x.slot = some slot ∧
        slot.queue.head? ≠ some r := by
  obtain ⟨t, slot, ht, hslot⟩ :=
    h.session_of_pending hx (Resolution.pending_of_stage hp (fun _ => nofun) nofun)
  unfold Client.takeTurn
  simp only [ht, hslot, Option.getD_some]
  cases ha : slot.adapter with
  | some n =>
    refine .inl ⟨n, outcome?_eq_some.2 ⟨{ x with stage := .answered (.ok n) }, ?_, rfl⟩⟩
    exact List.getElem?_set_self (List.getElem?_eq_some_iff.1 hx).1
  | none =>
    by_cases hh : slot.queue.head? = some r
    · simp only [hh, if_true]
      rcases h.build hx ht with hok | hexpects
      · exact .inl hok
      · exact .inr (.inl hexpects)
    · simp only [hh, if_false]
      exact .inr (.inr ⟨trivial, slot, (slot?_of_session ht _).trans hslot, hh⟩)

theorem outcome?_answer (hx : c.resolutions[r]? = some x) (outcome : Except Error AdapterId) :
    (c.answer r x outcome).outcome? r = some outcome :=
  outcome?_eq_some.2 ⟨{ x with stage := .answered outcome },
    List.getElem?_set_self (List.getElem?_eq_some_iff.1 hx).1, rfl⟩

theorem progress_queued (hx : c.resolutions[r]? = some x) (hp : x.stage = .queued) :
    c.progress r = c.takeTurn r x := by
  unfold progress
  simp only [hx, hp]

theorem progress_arrived (hx : c.resolutions[r]? = some x) (hp : x.stage = .arrived) :
    c.progress r = c.firstPoll r x false := by
  unfold progress
  simp only [hx, hp]

/-- Whoever has read its slot and is polled gets an adapter, waits for an attempt, or is in the
queue. -/
theorem Healthy.polled (h : c.Healthy s) (hx : c.resolutions[r]? = some x) (hw : x.Pending) :
    (∃ n, (c.progress r).outcome? r = some (.ok n)) ∨
      (∃ y k a, (c.progress r).Expects s r y k a) ∨
      (c.progress r).resolutions[r]? = some { x with stage := .queued } := by
  cases hp : x.stage with
  | entered => exact absurd hp hw.looked
  | answered outcome => exact absurd hp (hw.waits outcome)
  | building k =>
    obtain ⟨a, hawaits, hpromises⟩ := h.building r x k hx hp
    rcases h.progress_expects ⟨hx, hp, hawaits, hpromises⟩ with ⟨-, hok⟩ | ⟨-, he⟩
    · exact .inl hok
    · exact .inr (.inl ⟨x, k, a, he⟩)
  | queued =>
    rw [progress_queued hx hp]
    rcases h.takeTurn hx hp with hok | ⟨k, a, he⟩ | ⟨hsame, -⟩
    · exact .inl hok
    · exact .inr (.inl ⟨_, k, a, he⟩)
    · refine .inr (.inr ?_)
      rw [hsame, hx, ← hp]
  | arrived =>
    rw [progress_arrived hx hp]
    obtain ⟨slot, hslot⟩ := h.orderly.slotted r x hx hp
    rcases firstPoll_cases (r := r) hslot false with ⟨n, -, hq⟩ | ⟨-, hq⟩ <;> rw [hq]
    · exact .inl ⟨n, outcome?_answer hx _⟩
    · rw [if_neg Bool.false_ne_true]
      rcases (h.join hx hp).takeTurn (getElem?_join hx) rfl with hok | ⟨k, a, he⟩ | ⟨hsame, -⟩
      · exact .inl hok
      · exact .inr (.inl ⟨_, k, a, he⟩)
      · refine .inr (.inr ?_)
        rw [hsame]
        exact getElem?_join hx

/-! Steps. -/

theorem cache_look (c : Client) (r : ResolutionId) : (c.look r).cache = c.cache := by
  unfold look
  split
  next => rfl
  next =>
    dsimp only
    split <;> rfl

/-- The cache goes on, or a call is given up, by the resolution that made it. -/
theorem Healthy.cache_step (h : c.Healthy s) (hf : event.Favours s.settings.loader) :
    c.cache.Goes s.key s.settings.loader (c.step event).cache ∨
      ∃ r x k, event = .cancel r ∧ c.resolutions[r]? = some x ∧ x.stage = .building k ∧
        (c.step event).cache = c.cache.abandon k := by
  cases event with
  | enter i =>
    rw [Client.step]
    rcases c.enter_cases i with ⟨-, hq⟩ | ⟨t, -, ⟨-, hq⟩ | ⟨-, hq⟩⟩ <;> rw [hq] <;>
      exact .inl (.refl _)
  | look r =>
    rw [Client.step, cache_look]
    exact .inl (.refl _)
  | progress r => exact .inl (h.goes_progress r)
  | cancel r =>
    rw [Client.step]
    unfold cancel
    cases hx : c.resolutions[r]? with
    | none => exact .inl (.refl _)
    | some x =>
      dsimp only
      cases hp : x.stage with
      | entered | queued | answered => exact .inl (.refl _)
      | arrived => exact .inl (h.goes_firstPoll hx hp true)
      | building k => exact .inr ⟨r, x, k, rfl, hx, hp, rfl⟩
  | advance a produced =>
    exact .inl (MetadataCache.goes_step (.advance a produced) hf
      fun i he => MetadataCache.Event.noConfusion he)
  | clear | close | clearAll => exact hf.elim

theorem Healthy.supplied_step (h : c.Healthy s) (hf : event.Favours s.settings.loader) :
    (c.step event).cache.Supplied s.key s.settings.loader := by
  rcases h.cache_step hf with hgoes | ⟨r, x, k, -, -, -, hcache⟩
  · exact hgoes.supplied h.supplied
  · exact hcache ▸ h.supplied.step (.abandon k) trivial

/-- Nothing happens to a resolution that waits unless it reads its slot or is polled. -/
theorem Orderly.step_cases (h : c.Orderly) (hx : c.resolutions[r]? = some x) (hw : x.Waits)
    (event : Event) : (c.step event).resolutions[r]? = some x ∨
      (∃ j, (c.step event).resolutions[r]? = some { x with slot := j, stage := .arrived }) ∨
      x.Pending ∧ (event = .progress r ∨ event = .cancel r) := by
  have hlt := (List.getElem?_eq_some_iff.1 hx).1
  by_cases hs : event.subject c = r
  · by_cases hp : x.stage = .entered
    · rcases eq_of_subject hlt hs with rfl | rfl | rfl <;> rw [Client.step]
      · unfold look
        simp only [hx, hp]
        cases c.sessions[x.session]? with
        | none => exact .inl hx
        | some t => exact .inr (.inl ⟨_, List.getElem?_set_self hlt⟩)
      · unfold progress
        simp only [hx, hp]
        exact .inl trivial
      · unfold cancel
        simp only [hx, hp]
        exact .inl trivial
    · rcases eq_of_subject hlt hs with rfl | rfl | rfl
      · rw [Client.step, look_of_stage hx hp]
        exact .inl hx
      · exact .inr (.inr ⟨⟨hw, hp⟩, .inl rfl⟩)
      · exact .inr (.inr ⟨⟨hw, hp⟩, .inr rfl⟩)
  · exact .inl ((h.others_step (Ne.symm hs)).trans hx)

/-- Whoever waits in line and gives up is told so. -/
theorem cancel_inLine (hx : c.resolutions[r]? = some x) (hl : x.InLine) :
    (c.cancel r).outcome? r = some (.error .cancelled) := by
  unfold cancel
  rcases hl with hp | ⟨k, hp⟩ <;> simp only [hx, hp]
  · exact outcome?_answer hx _
  · exact outcome?_endBuilding (c := { c with cache := c.cache.abandon k }) hx _

/-- Whoever was cancelled before it is polled for the first time gets what is in the slot. -/
theorem cancel_arrived (hx : c.resolutions[r]? = some x) (hp : x.stage = .arrived)
    {slot : AdapterSlot} (hs : c.slot? x.session x.slot = some slot) :
    (c.cancel r).outcome? r = some (slot.adapter.elim (.error .cancelled) .ok) := by
  unfold cancel
  simp only [hx, hp]
  rcases firstPoll_cases (r := r) hs true with ⟨n, ha, hq⟩ | ⟨ha, hq⟩ <;>
    rw [hq, ha] <;> exact outcome?_answer hx _

theorem Orderly.cancel_answers (h : c.Orderly) (hx : c.resolutions[r]? = some x)
    (hw : x.Pending) : ∃ outcome, (c.cancel r).outcome? r = some outcome ∧
      (outcome = .error .cancelled ∨ ∃ n, outcome = .ok n) := by
  cases hp : x.stage with
  | entered => exact absurd hp hw.looked
  | answered outcome => exact absurd hp (hw.waits outcome)
  | queued => exact ⟨_, cancel_inLine hx (.inl hp), .inl rfl⟩
  | building k => exact ⟨_, cancel_inLine hx (.inr ⟨k, hp⟩), .inl rfl⟩
  | arrived =>
    obtain ⟨slot, hslot⟩ := h.slotted r x hx hp
    refine ⟨_, cancel_arrived hx hp hslot, ?_⟩
    cases slot.adapter with
    | none => exact .inl rfl
    | some n => exact .inr ⟨n, rfl⟩

/-- Whoever waits for an attempt waits on until it is answered. -/
theorem Healthy.expects_step (h : c.Healthy s) (hf : event.Favours s.settings.loader)
    (he : c.Expects s r x k a) (ho : (c.step event).outcome? r = none) :
    (c.step event).Expects s r x k a := by
  have hr := (List.getElem?_eq_some_iff.1 he.stored).1
  by_cases hs : event.subject c = r
  · rcases eq_of_subject hr hs with rfl | rfl | rfl
    · have hsame : c.step (.look r) = c := look_of_stage he.stored (he.builds ▸ nofun)
      rwa [hsame]
    · rcases h.progress_expects he with ⟨-, n, hn⟩ | ⟨-, hnext⟩
      · exact absurd (ho.symm.trans hn) nofun
      · exact hnext
    · exact absurd (ho.symm.trans (cancel_inLine he.stored (.inr ⟨k, he.builds⟩))) nofun
  · refine ⟨(h.orderly.others_step (Ne.symm hs)).trans he.stored, he.builds, ?_, ?_⟩ <;>
      rcases h.cache_step hf with hgoes | ⟨q, y, l, rfl, hy, hp, hcache⟩
    · exact hgoes.awaits he.awaits
    · have hne : MetadataCache.Event.abandon l ≠ .abandon k := by
        intro hl
        obtain rfl := MetadataCache.Event.abandon.inj hl
        exact hs (h.orderly.one_caller q r y x l hy he.stored hp he.builds)
      rw [hcache]
      exact he.awaits.step hne
    · exact hgoes.promises h.supplied he.promises
    · rw [hcache]
      exact he.promises.step h.supplied (.abandon l) trivial

theorem Healthy.building_step (h : c.Healthy s) (hf : event.Favours s.settings.loader)
    (hy : (c.step event).resolutions[r]? = some y) (hp : y.stage = .building k) :
    ∃ a, (c.step event).Expects s r y k a := by
  have hnone : (c.step event).outcome? r = none :=
    not_outcome?_of_waits hy (Resolution.waits_of_stage hp fun _ => nofun)
  cases hx : c.resolutions[r]? with
  | none =>
    rcases h.orderly.newcomer hx hy with ⟨-, hq⟩ | ⟨-, hq⟩ <;>
      exact absurd (hq.symm.trans hp) nofun
  | some x =>
    have hw : x.Waits := fun o hpx => by
      have hanswer := h.orderly.outcome?_run [event] (outcome?_eq_some.2 ⟨x, hx, hpx⟩)
      exact absurd (hnone.symm.trans hanswer) nofun
    have hold : ∀ {l}, x.stage = .building l → ∃ a, (c.step event).Expects s r y k a := by
      intro l hpx
      obtain ⟨a, hawaits, hpromises⟩ := h.building r x l hx hpx
      have he := h.expects_step hf ⟨hx, hpx, hawaits, hpromises⟩ hnone
      obtain rfl := Option.some.inj (hy.symm.trans he.stored)
      obtain rfl := Stage.building.inj (hpx.symm.trans hp)
      exact ⟨a, he⟩
    rcases h.orderly.step_cases hx hw event with hsame | ⟨j, harrived⟩ | ⟨hpending, rfl | rfl⟩
    · exact hold (Option.some.inj (hsame.symm.trans hy) ▸ hp)
    · obtain rfl := Option.some.inj (harrived.symm.trans hy)
      exact absurd hp nofun
    · rcases h.polled hx hpending with ⟨n, hn⟩ | ⟨z, l, a, he⟩ | hqueued
      · exact absurd (hnone.symm.trans hn) nofun
      · obtain rfl := Option.some.inj (hy.symm.trans he.stored)
        obtain rfl := Stage.building.inj (he.builds.symm.trans hp)
        exact ⟨a, he⟩
      · obtain rfl := Option.some.inj (hqueued.symm.trans hy)
        exact absurd hp nofun
    · obtain ⟨outcome, ho, -⟩ := h.orderly.cancel_answers hx hpending
      exact absurd (hnone.symm.trans ho) nofun

theorem Healthy.step (h : c.Healthy s) (hf : event.Favours s.settings.loader) :
    (c.step event).Healthy s where
  orderly := h.orderly.step event
  session := h.session_moves (h.orderly.moves_step event) (not_renews_of_favours hf)
  canAsk := h.canAsk
  supplied := h.supplied_step hf
  building r y k hy hp := by
    obtain ⟨a, he⟩ := h.building_step hf hy hp
    exact ⟨a, he.awaits, he.promises⟩

/-! Answers. -/

theorem Healthy.progress_answers (h : c.Healthy s) (hx : c.resolutions[r]? = some x)
    (hw : x.Pending) (ho : (c.progress r).outcome? r = some outcome) : ∃ n, outcome = .ok n := by
  rcases h.polled hx hw with ⟨n, hn⟩ | ⟨y, k, a, he⟩ | hqueued
  · exact ⟨n, Option.some.inj (ho.symm.trans hn)⟩
  · have hw := Resolution.waits_of_stage he.builds fun _ => nofun
    exact absurd (ho.symm.trans (not_outcome?_of_waits he.stored hw)) nofun
  · exact absurd (ho.symm.trans (not_outcome?_of_waits hqueued nofun)) nofun

/-- Whoever is answered gets an adapter, or has given up. -/
theorem Healthy.answered_step (h : c.Healthy s) (hb : c.outcome? r = none)
    (hf : event.Favours s.settings.loader)
    (ho : (c.step event).outcome? r = some outcome) :
    (∃ n, outcome = .ok n) ∨ outcome = .error .cancelled ∧ event = .cancel r := by
  obtain ⟨y, hy, hp⟩ := outcome?_eq_some.1 ho
  cases hx : c.resolutions[r]? with
  | none =>
    rcases h.orderly.newcomer hx hy with ⟨hclosed, -⟩ | ⟨-, hq⟩
    · obtain ⟨t, ht, hct⟩ := Option.map_eq_some_iff.1 hclosed
      exact absurd ((h.session _ t ht).2.2.symm.trans hct) Bool.false_ne_true
    · exact absurd (hq.symm.trans hp) nofun
  | some x =>
    have hw := waits_of_outcome? hx hb
    rcases h.orderly.step_cases hx hw event with hsame | ⟨j, harrived⟩ | ⟨hpending, rfl | rfl⟩
    · obtain rfl := Option.some.inj (hsame.symm.trans hy)
      exact absurd hp (hw outcome)
    · obtain rfl := Option.some.inj (harrived.symm.trans hy)
      exact absurd hp nofun
    · exact .inl (h.progress_answers hx hpending ho)
    · obtain ⟨o, hanswer, hcases⟩ := h.orderly.cancel_answers hx hpending
      obtain rfl := Option.some.inj (hanswer.symm.trans ho)
      exact hcases.symm.imp_right fun hcancelled => ⟨hcancelled, rfl⟩

end Client

end ODataClient
