import ODataClient.Proofs.Cache.Calls
import ODataClient.Proofs.Session.Construction

/-! What a session asks for. It keeps the settings that it was opened with, and whoever makes its
adapter has called for the metadata of its own service. -/

namespace ODataClient

/-- What a session is opened with. -/
def Session.setup (s : Session) : Settings × Option AdapterFactory × Bool :=
  (s.settings, s.factory, s.hasTransport)

theorem Session.settings_eq {s t : Session} (h : s.setup = t.setup) : s.settings = t.settings :=
  (Prod.mk.inj h).1

theorem Session.key_eq {s t : Session} (h : s.setup = t.setup) : s.key = t.key :=
  congrArg Settings.metadataKey (Session.settings_eq h)

namespace Client

variable {c d : Client} {r q : ResolutionId} {x y : Resolution} {i : SessionId} {s t : Session}
  {k : CallId} {renews : SessionId → Prop}

def setup? (c : Client) (i : SessionId) : Option (Settings × Option AdapterFactory × Bool) :=
  (c.sessions[i]?).map Session.setup

def closed? (c : Client) (i : SessionId) : Option Bool := (c.sessions[i]?).map Session.closed

/-- Moves change the slots, the adapters and the counter of a session, and whether it is closed
only when it gets a new slot. -/
theorem Move.map_session {α : Type} {g : Session → α} (hm : Move r renews c d)
    (hg : ∀ (s : Session) slots adapters resolving,
      g { s with slots := slots, adapters := adapters, resolving := resolving } = g s)
    (hi : ¬ renews i ∨ ∀ (s : Session) closed, g { s with closed := closed } = g s) :
    (d.sessions[i]?).map g = (c.sessions[i]?).map g := by
  have hslot : ∀ (c : Client) (x : Resolution) (f : AdapterSlot → AdapterSlot),
      ((c.alterSlot x f).sessions[i]?).map g = (c.sessions[i]?).map g := fun c x f =>
    map_alterSession (fun s => hg s _ s.adapters s.resolving) c x.session i
  have hcount : ∀ (c : Client) (l : SessionId) (count : Nat → Nat), ((c.alterSession l fun s =>
      { s with resolving := count s.resolving }).sessions[i]?).map g = (c.sessions[i]?).map g :=
    fun c l count => map_alterSession (fun s => hg s s.slots s.adapters _) c l i
  cases hm with
  | cached | begun | arrived | called => rfl
  | counted l count => exact hcount c l count
  | renewed l hl closed =>
    rcases hi with hi | hi
    · have hne : l ≠ i := fun he => hi (he ▸ hl)
      rw [getElem?_alterSession_ne hne]
    · exact map_alterSession (fun s => (hi { s with slots := s.slots ++ [.fresh] } closed).trans
        (hg s _ s.adapters s.resolving)) c l i
  | queued => exact hslot _ _ _
  | answered | abandoned => exact hslot _ _ _
  | @made x s make =>
    rw [endBuilding, answer]
    refine (hslot _ x _).trans ((hcount _ x.session (· - 1)).trans ((hslot _ x _).trans ?_))
    exact map_alterSession (fun s => hg s s.slots _ s.resolving) c x.session i

theorem Move.setup? (hm : Move r renews c d) (i : SessionId) : d.setup? i = c.setup? i :=
  hm.map_session (fun _ _ _ _ => rfl) (.inr fun _ _ => rfl)

theorem Move.closed? (hm : Move r renews c d) (hi : ¬ renews i) : d.closed? i = c.closed? i :=
  hm.map_session (fun _ _ _ _ => rfl) (.inl hi)

theorem Moves.setup? (hm : Moves r renews c d) (i : SessionId) : d.setup? i = c.setup? i := by
  induction hm with
  | refl => rfl
  | tail _ hm ih => exact (hm.setup? i).trans ih

theorem Moves.closed? (hm : Moves r renews c d) (hi : ¬ renews i) : d.closed? i = c.closed? i := by
  induction hm with
  | refl => rfl
  | tail _ hm ih => exact (hm.closed? hi).trans ih

theorem setup?_of_session (hs : c.sessions[i]? = some s) : c.setup? i = some s.setup :=
  congrArg (Option.map Session.setup) hs

theorem closed?_of_session (hs : c.sessions[i]? = some s) : c.closed? i = some s.closed :=
  congrArg (Option.map Session.closed) hs

theorem setup?_eq_of_session (hd : d.setup? i = c.setup? i) (hs : c.sessions[i]? = some s) :
    ∃ t, d.sessions[i]? = some t ∧ t.setup = s.setup :=
  Option.map_eq_some_iff.1 (hd.trans (congrArg (Option.map Session.setup) hs))

/-- Calls of resolutions are for the metadata of their session. -/
def Asking (c : Client) : Prop :=
  ∀ (r : ResolutionId) (x : Resolution) (k : CallId), c.resolutions[r]? = some x →
    x.stage = .building k → ∃ s, c.sessions[x.session]? = some s ∧ c.cache.Concerns k s.key

/-- A resolution that calls for the metadata now does so for the first time. -/
theorem Move.building (hm : Move r renews c d) (hy : d.resolutions[q]? = some y)
    (hp : y.stage = .building k) : c.resolutions[q]? = some y ∨
      ∃ s, c.sessions[y.session]? = some s ∧ s.closed = false ∧
        d.cache = c.cache.call s.key ∧ k = c.cache.calls.length := by
  have hset : ∀ {z : Resolution}, (∀ k, z.stage ≠ .building k) →
      (c.resolutions.set r z)[q]? = some y → c.resolutions[q]? = some y := by
    intro z hz hy
    rcases getElem?_of_set hy with ⟨-, rfl⟩ | ⟨-, hy⟩
    · exact absurd hp (hz k)
    · exact hy
  cases hm with
  | cached | counted | renewed => exact .inl hy
  | begun hr hj hb =>
    rcases getElem?_concat hy with hy | ⟨-, rfl⟩
    · exact .inl hy
    · rcases hb with rfl | ⟨err, rfl⟩ <;> exact absurd hp nofun
  | @called x s hx hpx hs hl hopen =>
    rcases getElem?_of_set hy with ⟨-, rfl⟩ | ⟨-, hy⟩
    · exact .inr ⟨s, hs, hopen, rfl, (Stage.building.inj hp).symm⟩
    · exact .inl hy
  | arrived | queued | answered | abandoned | made =>
    exact .inl (hset (fun _ => Stage.noConfusion) hy)

theorem Asking.move (h : c.Asking) (hc : c.Orderly) (hm : Move r renews c d) : d.Asking := by
  intro q y k hy hp
  rcases hm.building hy hp with hold | ⟨s, hs, -, hcache, rfl⟩
  · obtain ⟨s, hs, hk⟩ := h q y k hold hp
    obtain ⟨t, ht, hst⟩ := setup?_eq_of_session (hm.setup? y.session) hs
    refine ⟨t, ht, Session.key_eq hst ▸ ?_⟩
    rcases hm.cache with hcache | ⟨event, hcache, -⟩ <;> rw [hcache]
    · exact hk
    · exact hk.step hc.coherent.toFiled event
  · obtain ⟨t, ht, hst⟩ := setup?_eq_of_session (hm.setup? y.session) hs
    exact ⟨t, ht, hcache ▸ Session.key_eq hst ▸ MetadataCache.concerns_call hc.coherent s.key⟩

theorem Asking.moves (h : c.Asking) (hc : c.Orderly) (hm : Moves r renews c d) : d.Asking := by
  induction hm with
  | refl => exact h
  | tail hm hlast ih => exact ih.move (hc.moves hm) hlast

theorem Asking.opened (h : c.Asking) (hc : c.Orderly) {settings : Settings}
    {factory : Option AdapterFactory} {hasTransport : Bool}
    (ho : c.openSession settings factory hasTransport = .ok d) : d.Asking := by
  obtain ⟨hs, hr, events, hcache⟩ := openSession_eq ho
  intro r x k hx hp
  obtain ⟨s, hold, hk⟩ := h r x k (hr ▸ hx) hp
  exact ⟨s, hs ▸ getElem?_of_append hold _, hcache ▸ hk.run hc.coherent events⟩

theorem Reachable.asking (h : c.Reachable) : c.Asking := by
  induction h with
  | empty => exact fun r x k hx => absurd hx nofun
  | opened hc ho ih => exact ih.opened hc.orderly ho
  | step hc event ih => exact ih.moves hc.orderly (hc.orderly.moves_step event)

/-- Attempts are for the metadata of some session. -/
def Keyed (c : Client) : Prop :=
  ∀ (a : AttemptId) (x : Attempt), c.cache.attempts[a]? = some x →
    ∃ (i : SessionId) (s : Session), c.sessions[i]? = some s ∧ x.key = s.key

theorem Keyed.move (h : c.Keyed) (hm : Move r renews c d) : d.Keyed := by
  have hsession : ∀ {i : SessionId} {s : Session}, c.sessions[i]? = some s →
      ∃ (i : SessionId) (t : Session), d.sessions[i]? = some t ∧ s.key = t.key := by
    intro i s hs
    obtain ⟨t, ht, hst⟩ := setup?_eq_of_session (hm.setup? i) hs
    exact ⟨i, t, ht, (Session.key_eq hst).symm⟩
  have hold : ∀ {a : AttemptId} {y : Attempt} (event : MetadataCache.Event),
      (c.cache.step event).attempts[a]? = some y →
      (∀ key, event = .call key →
        ∃ (i : SessionId) (s : Session), c.sessions[i]? = some s ∧ key = s.key) →
      ∃ (i : SessionId) (t : Session), d.sessions[i]? = some t ∧ y.key = t.key := by
    intro a y event hy hcall
    cases hx : c.cache.attempts[a]? with
    | some x =>
      obtain ⟨z, hz, hl⟩ := MetadataCache.later_step event hx
      obtain rfl := Option.some.inj (hy.symm.trans hz)
      obtain ⟨i, s, hs, hk⟩ := h a x hx
      obtain ⟨i, t, ht, hst⟩ := hsession hs
      exact ⟨i, t, ht, hl.key.trans (hk.trans hst)⟩
    | none =>
      obtain ⟨he, -⟩ := MetadataCache.new_attempt hx hy
      obtain ⟨i, s, hs, hk⟩ := hcall y.key he
      obtain ⟨i, t, ht, hst⟩ := hsession hs
      exact ⟨i, t, ht, hk.trans hst⟩
  have hsame : d.cache.attempts = c.cache.attempts → d.Keyed := by
    intro hcache a y hy
    obtain ⟨i, s, hs, hk⟩ := h a y (hcache ▸ hy)
    obtain ⟨i, t, ht, hst⟩ := hsession hs
    exact ⟨i, t, ht, hk.trans hst⟩
  cases hm with
  | cached event he =>
    refine fun a y hy => hold event hy fun key hcall => ?_
    rw [hcall] at he
    exact he.elim
  | called hx hp hs hl =>
    refine fun a y hy => hold (.call _) hy fun key hcall => ⟨_, _, hs, ?_⟩
    exact (MetadataCache.Event.call.inj hcall).symm
  | counted | renewed | begun | arrived | queued | answered | abandoned | made => exact hsame rfl

theorem Keyed.moves (h : c.Keyed) (hm : Moves r renews c d) : d.Keyed := by
  induction hm with
  | refl => exact h
  | tail _ hm ih => exact ih.move hm

theorem attempts_openSession {settings : Settings} {factory : Option AdapterFactory}
    {hasTransport : Bool} (ho : c.openSession settings factory hasTransport = .ok d) :
    d.cache.attempts = c.cache.attempts := by
  unfold openSession at ho
  cases hv : settings.validate with
  | error err =>
    rw [hv] at ho
    exact absurd ho nofun
  | ok _ =>
    rw [hv] at ho
    cases hd : settings.metadataDocument with
    | none =>
      simp only [hd] at ho
      obtain rfl := Except.ok.inj ho
      rfl
    | some raw =>
      simp only [hd] at ho
      obtain rfl := Except.ok.inj ho
      obtain ⟨made, cached, hq⟩ := c.cache.add_eq
        (Session.new settings factory hasTransport).key (.ok (.ofText raw))
      exact (congrArg MetadataCache.attempts hq :)

theorem Reachable.keyed (h : c.Reachable) : c.Keyed := by
  induction h with
  | empty => exact fun a x hx => absurd hx nofun
  | opened hc ho ih =>
    obtain ⟨hs, -, -⟩ := openSession_eq ho
    intro a x hx
    obtain ⟨i, s, hi, hk⟩ := ih a x (attempts_openSession ho ▸ hx)
    exact ⟨i, s, hs ▸ getElem?_of_append hi _, hk⟩
  | step hc event ih => exact ih.moves (hc.orderly.moves_step event)

end Client

end ODataClient
