import Mathlib.Order.Filter.AtTopBot.Basic
import Mathlib.Order.Filter.Finite
import ODataClient.Proofs.Cache.Binding
import ODataClient.Proofs.Cache.Calls
import ODataClient.Proofs.Cache.Gate

/-! A cache that is well supplied: it serves one key, nobody clears it, and whatever is fetched for
it can be used. Then one more fetch begins at most, and an attempt that was not cancelled comes to
an entry. -/

namespace ODataClient

/-- A version and a model can be read from it. -/
def MetadataDocument.Usable (doc : MetadataDocument) (loader : ModelLoader) : Prop :=
  (∃ version, doc.version = .ok version) ∧ ∃ model, loader.load doc = .ok model

namespace MetadataCache

variable {c d : MetadataCache} {key : String} {loader : ModelLoader} {a b : AttemptId}
  {x y : Attempt} {e : EntryId} {event : Event} {events : List Event} {spent : Nat}
  {produced : Option (Except Error MetadataDocument)}

/-- If there is a result, it is a document that can be used. -/
def Yields (loader : ModelLoader) (produced : Option (Except Error MetadataDocument)) : Prop :=
  ∀ result, produced = some result → ∃ doc, result = .ok doc ∧ doc.Usable loader

/-- What may happen to a well supplied cache. -/
def Event.Supplies (key : String) (loader : ModelLoader) : Event → Prop
  | .add k produced => k = key ∧ Yields loader (some produced)
  | .call k => k = key
  | .advance _ produced => Yields loader produced
  | .hear _ | .abandon _ | .bind _ _ => True
  | .clear _ | .clearAll => False

def Serves (c : MetadataCache) (loader : ModelLoader) (e : EntryId) : Prop :=
  ∃ entry, c.made[e]? = some entry ∧ entry.document.Usable loader

/-- Whoever waits for a turn has a place at the gate. -/
def Placed (c : MetadataCache) : Prop :=
  ∀ (a : AttemptId) (x : Attempt), c.attempts[a]? = some x → x.phase = .queued → a ∈ c.gate

structure Supplied (c : MetadataCache) (key : String) (loader : ModelLoader) : Prop extends
    Registered c where
  gated : c.Gated
  placed : c.Placed
  one_key (a : AttemptId) (x : Attempt) (hx : c.attempts[a]? = some x) : x.key = key
  usable (e : EntryId) (h : c.get? key = some e) : c.Serves loader e

/-! Entries. -/

theorem Serves.step (h : c.Serves loader e) (event : Event) : (c.step event).Serves loader e := by
  obtain ⟨entry, he, hu⟩ := h
  obtain ⟨bound, he⟩ := made_step event he
  exact ⟨_, he, hu⟩

theorem Serves.append (h : c.Serves loader e) {entries : List CacheEntry}
    (hd : d.made = c.made ++ entries) : d.Serves loader e := by
  obtain ⟨entry, he, hu⟩ := h
  exact ⟨entry, hd ▸ (List.getElem?_append_left (List.getElem?_eq_some_iff.1 he).1).trans he, hu⟩

theorem Serves.move (h : c.Serves loader e) (hm : Move a produced c d) : d.Serves loader e := by
  obtain ⟨entries, hd⟩ := hm.made
  exact h.append hd

theorem serves_made {doc : MetadataDocument} (hu : doc.Usable loader)
    (hd : d.made = c.made ++ [⟨key, doc, none⟩]) : d.Serves loader c.made.length :=
  ⟨_, hd ▸ List.getElem?_concat_length, hu⟩

/-- Whatever an attempt leaves under the key can be used. -/
theorem Supplied.usable_move (h : c.Supplied key loader) (hm : Move a produced c d)
    (hp : Yields loader produced) (he : d.get? key = some e) : d.Serves loader e := by
  have hkept : c.get? key = some e → d.Serves loader e := fun hold => (h.usable e hold).move hm
  cases hm with
  | queue | fetch => exact hkept he
  | cancelled | failed => exact hkept ((get?_finish_error ..).symm.trans he)
  | found hx hc hpx hg hget =>
    rw [get?_finish_ok] at he
    split at he
    next hk =>
      rw [← hk.2] at hget
      exact hkept (hget.trans he)
    next => exact hkept he
  | @fetched x doc hx hc hpx hd =>
    rw [get?_finish_ok] at he
    split at he
    next =>
      obtain ⟨doc', hdoc, hu⟩ := hp _ hd
      obtain rfl := Except.ok.inj hdoc
      obtain rfl := Option.some.inj he
      exact serves_made hu (made_finish ..)
    next => exact hkept he

theorem Placed.move (h : c.Placed) (hm : Move a produced c d) : d.Placed := by
  intro b y hy hp
  have hfinish : ∀ (c' : MetadataCache) {x : Attempt} {outcome : Except Error EntryId},
      c'.attempts = c.attempts → c'.gate = c.gate → c.attempts[a]? = some x →
      (c'.finish a x outcome).attempts[b]? = some y → b ∈ (c'.finish a x outcome).gate := by
    intro c' x outcome ha hg hx hy
    rw [attempts_finish] at hy
    rw [gate_finish, hg]
    by_cases hab : a = b
    · subst hab
      rw [getElem?_setPhase_self (ha ▸ hx)] at hy
      obtain rfl := Option.some.inj hy
      exact absurd hp nofun
    · rw [getElem?_setPhase_of_ne hab, ha] at hy
      exact List.mem_filter.2 ⟨h b y hy hp, bne_iff_ne.2 (Ne.symm hab)⟩
  cases hm with
  | queue hx =>
    by_cases hab : a = b
    · exact hab ▸ List.mem_append_right _ (List.mem_singleton_self _)
    · exact List.mem_append_left _ (h b y ((getElem?_setPhase_of_ne hab _).symm.trans hy) hp)
  | fetch hx =>
    by_cases hab : a = b
    · subst hab
      obtain rfl := Option.some.inj ((getElem?_setPhase_self hx _).symm.trans hy)
      exact absurd hp nofun
    · exact h b y ((getElem?_setPhase_of_ne hab _).symm.trans hy) hp
  | cancelled hx | found hx | failed hx => exact hfinish c rfl rfl hx hy
  | fetched hx => exact hfinish (c.make _ _) rfl rfl hx hy

theorem Placed.moves (h : c.Placed) (hm : Moves a produced c d) : d.Placed := by
  induction hm with
  | refl => exact h
  | tail _ hm ih => exact ih.move hm

theorem gate_step (c : MetadataCache) (hne : ∀ a produced, event ≠ .advance a produced) :
    (c.step event).gate = c.gate := by
  have hquiet := c.step_quiet event
  cases event with
  | add | hear | abandon | bind =>
    obtain ⟨made, cached, calls, models, hq⟩ := hquiet trivial
    rw [hq]
  | call k =>
    rw [step_call]
    rcases c.call_cases k with ⟨_, _, hq⟩ | ⟨_, _, _, hq⟩ | ⟨_, _, hq⟩ <;> rw [hq]
  | advance a produced => exact absurd rfl (hne a produced)
  | clear k =>
    obtain ⟨attempts, models, hq⟩ := c.clear_eq k
    rw [step_clear, hq]
  | clearAll =>
    obtain ⟨attempts, hq⟩ := c.clearAll_eq
    rw [step_clearAll, hq]

theorem Placed.step (h : c.Placed) (event : Event) : (c.step event).Placed := by
  by_cases hadvance : ∃ a produced, event = .advance a produced
  · obtain ⟨a, produced, rfl⟩ := hadvance
    exact h.moves (moves_advance c a produced)
  · intro b y hy hp
    have hne : ∀ a produced, event ≠ .advance a produced := fun a produced he =>
      hadvance ⟨a, produced, he⟩
    rw [gate_step c hne]
    cases hx : c.attempts[b]? with
    | some x =>
      obtain ⟨z, hz, -, hsame | ⟨produced, he⟩⟩ := attempt_step event hx
      · obtain rfl := Option.some.inj (hy.symm.trans hz)
        exact h b x hx (hsame.symm.trans hp)
      · exact absurd he (hne b produced)
    | none =>
      obtain ⟨-, -, -, -, hq⟩ := new_attempt hx hy
      rw [hq] at hp
      exact absurd hp nofun

theorem placed_run (events : List Event) : (run .empty events).Placed :=
  run_induction (P := Placed) (fun _ _ hx => nomatch hx) fun _ hd event _ => hd.step event

theorem Supplied.move (h : c.Supplied key loader) (hm : Move a produced c d)
    (hp : Yields loader produced) : d.Supplied key loader where
  toRegistered := h.toRegistered.move hm
  gated := h.gated.move hm
  placed := h.placed.move hm
  one_key b y hy := by
    obtain ⟨x, phase, hx, -, -, hd⟩ := hm.attempts
    rw [hd] at hy
    by_cases hab : a = b
    · subst hab
      obtain rfl := Option.some.inj ((getElem?_setPhase_self hx _).symm.trans hy)
      exact h.one_key a x hx
    · exact h.one_key b y ((getElem?_setPhase_of_ne hab _).symm.trans hy)
  usable e he := h.usable_move hm hp he

theorem Supplied.moves (h : c.Supplied key loader) (hm : Moves a produced c d)
    (hp : Yields loader produced) : d.Supplied key loader := by
  induction hm with
  | refl => exact h
  | tail _ hm ih => exact ih.move hm hp

/-- No attempt goes on. There may be a new one, and an entry where there was none. -/
structure Still (key : String) (loader : ModelLoader) (c d : MetadataCache) : Prop where
  attempts : ∃ new, d.attempts = c.attempts ++ new
  started : d.started = c.started
  get? : d.get? key = c.get? key ∨
    c.get? key = none ∧ ∃ e, d.get? key = some e ∧ d.Serves loader e

theorem still_add {result : Except Error MetadataDocument} (h : Yields loader (some result)) :
    Still key loader c (c.add key result).2 := by
  obtain ⟨doc, rfl, hu⟩ := h _ rfl
  have hnone : ∃ new, c.attempts = c.attempts ++ new := ⟨[], (List.append_nil _).symm⟩
  cases hm : c.get? key with
  | some e =>
    have hq : (c.add key (.ok doc)).2 = c := by simp only [add, hm]
    rw [hq]
    exact ⟨hnone, rfl, .inl rfl⟩
  | none =>
    have hq : (c.add key (.ok doc)).2 =
        { c.make key doc with cached := c.cached.set key c.made.length } := by simp only [add, hm]
    rw [hq]
    refine ⟨hnone, rfl, .inr ⟨hm, c.made.length, ?_, serves_made hu rfl⟩⟩
    rw [get?_eq, Table.get?_set, if_pos rfl]

theorem still_call (c : MetadataCache) (k : String) : Still key loader c (c.call k) := by
  have hget : (c.call k).get? key = c.get? key := congrArg (·.get? key) (cached_call c k)
  rcases c.call_cases k with ⟨_, _, hq⟩ | ⟨_, _, _, hq⟩ | ⟨_, _, hq⟩ <;> rw [hq] at hget ⊢
  · exact ⟨⟨[], (List.append_nil _).symm⟩, rfl, .inl hget⟩
  · exact ⟨⟨[], (List.append_nil _).symm⟩, rfl, .inl hget⟩
  · exact ⟨⟨_, rfl⟩, rfl, .inl hget⟩

theorem still_step (h : event.Supplies key loader) :
    Still key loader c (c.step event) ∨ ∃ a produced, event = .advance a produced ∧
      Yields loader produced := by
  have hquiet := c.step_quiet event
  have hsame : (c.step event).cached = c.cached → event.Quiet →
      Still key loader c (c.step event) := by
    intro hcached hq
    obtain ⟨made, cached, calls, models, hq⟩ := hquiet hq
    have hget : (c.step event).get? key = c.get? key := congrArg (·.get? key) hcached
    rw [hq] at hget ⊢
    exact ⟨⟨[], (List.append_nil _).symm⟩, rfl, .inl hget⟩
  cases event with
  | add k produced =>
    obtain ⟨rfl, hp⟩ := h
    exact .inl (still_add hp)
  | call k => exact .inl (still_call c k)
  | hear i => exact .inl (hsame (cached_hear c i) trivial)
  | abandon i => exact .inl (hsame rfl trivial)
  | bind e loader => exact .inl (hsame (cached_bind c e loader) trivial)
  | advance a produced => exact .inr ⟨a, produced, rfl, h⟩
  | clear | clearAll => exact h.elim

theorem Still.kept (h : Still key loader c d) (hx : c.attempts[a]? = some x) :
    d.attempts[a]? = some x := by
  obtain ⟨new, hd⟩ := h.attempts
  exact hd ▸ (List.getElem?_append_left (List.getElem?_eq_some_iff.1 hx).1).trans hx

theorem Supplied.step (h : c.Supplied key loader) (event : Event)
    (he : event.Supplies key loader) : (c.step event).Supplied key loader := by
  rcases still_step he with hs | ⟨a, produced, rfl, hp⟩
  · refine ⟨h.toRegistered.step event, h.gated.step event, h.placed.step event,
      fun a y hy => ?_, fun e hget => ?_⟩
    · cases hx : c.attempts[a]? with
      | some x =>
        obtain rfl := Option.some.inj ((hs.kept hx).symm.trans hy)
        exact h.one_key a x hx
      | none =>
        obtain ⟨rfl, -⟩ := new_attempt hx hy
        exact he
    · rcases hs.get? with hsame | ⟨-, e', hnew, hserves⟩
      · exact (h.usable e (hsame.symm.trans hget)).step event
      · exact Option.some.inj (hnew.symm.trans hget) ▸ hserves
  · exact h.moves (moves_advance c a produced) hp

theorem Supplied.run (h : c.Supplied key loader)
    (he : ∀ event ∈ events, event.Supplies key loader) : (c.run events).Supplied key loader :=
  run_induction (P := fun d => d.Supplied key loader) h fun _ hd event hmem =>
    hd.step event (he event hmem)

/-- What supplying events preserve in a supplied cache holds after a run of them. -/
theorem Supplied.run_induction {P : MetadataCache → Prop} (hc : c.Supplied key loader)
    (he : ∀ event ∈ events, event.Supplies key loader) (h : P c)
    (hstep : ∀ d, d.Supplied key loader → P d → ∀ event : Event, event.Supplies key loader →
      P (d.step event)) : P (c.run events) := by
  have hrun : (c.run events).Supplied key loader ∧ P (c.run events) :=
    MetadataCache.run_induction (P := fun d => d.Supplied key loader ∧ P d) ⟨hc, h⟩
      fun d hd event hmem => ⟨hd.1.step event (he event hmem),
        hstep d hd.1 hd.2 event (he event hmem)⟩
  exact hrun.2

/-! Requests. -/

/-- An attempt fetches that was not cancelled. -/
def Fetching (c : MetadataCache) : Prop :=
  ∃ (a : AttemptId) (x : Attempt), c.attempts[a]? = some x ∧ x.cancelled = false ∧
    x.phase = .fetching

/-- There is no need for another fetch. -/
def Served (c : MetadataCache) (key : String) : Prop := c.get? key ≠ none ∨ c.Fetching

/-- One more fetch than so many has begun at most, and if it has there is no need for another. -/
structure Within (c : MetadataCache) (key : String) (spent : Nat) : Prop where
  most : c.started.length ≤ spent + 1
  served : c.Served key ∨ c.started.length ≤ spent

theorem Within.of_served (h : c.Within key spent) (hs : d.started = c.started)
    (hserved : c.Served key → d.Served key) : d.Within key spent where
  most := hs ▸ h.most
  served := h.served.imp hserved fun hle => hs ▸ hle

/-- A fetch goes on unless it is its own turn to end. -/
theorem Fetching.of_ne (hx : c.attempts[a]? = some x)
    (hne : x.cancelled = true ∨ x.phase ≠ .fetching) (h : c.Fetching) {phase : Phase}
    (hd : d.attempts = (c.setPhase a phase).attempts) : d.Fetching := by
  obtain ⟨b, y, hy, hc, hp⟩ := h
  have hab : a ≠ b := by
    rintro rfl
    obtain rfl := Option.some.inj (hx.symm.trans hy)
    rcases hne with hne | hne
    · exact absurd (hne.symm.trans hc) nofun
    · exact hne hp
  exact ⟨b, y, hd ▸ (getElem?_setPhase_of_ne hab phase).trans hy, hc, hp⟩

theorem Within.move (h : c.Within key spent) (hc : c.Supplied key loader)
    (hm : Move a produced c d) (hp : Yields loader produced) : d.Within key spent := by
  cases hm with
  | @queue x hx hcancelled hpx =>
    refine h.of_served rfl (Or.imp id fun hf => ?_)
    exact hf.of_ne hx (.inr (hpx ▸ nofun)) rfl
  | @fetch x hx hcancelled hpx hg hget =>
    -- it is the first at the gate and there is no entry, so no other fetch has begun
    have hnot : ¬ c.Served key := by
      rintro (hs | ⟨b, y, hy, -, hpy⟩)
      · exact hs (hc.one_key a x hx ▸ hget)
      · obtain rfl := Option.some.inj (hg.symm.trans (hc.fetching_head b y hy hpy))
        obtain rfl := Option.some.inj (hx.symm.trans hy)
        exact absurd (hpx.symm.trans hpy) nofun
    have hle := h.served.resolve_left hnot
    refine ⟨?_, .inl (.inr ⟨a, _, getElem?_setPhase_self hx _, hcancelled, rfl⟩)⟩
    exact List.length_append.trans_le (Nat.succ_le_succ hle)
  | @cancelled x hx hcancelled hr =>
    refine h.of_served (started_finish ..) (Or.imp (fun hs => ?_) fun hf => ?_)
    · rwa [get?_finish_error]
    · exact hf.of_ne hx (.inl hcancelled) (attempts_finish ..)
  | @found x e hx hcancelled hpx hg hget =>
    refine h.of_served (started_finish ..) fun _ => .inl ?_
    rw [get?_finish_ok]
    split
    · exact nofun
    · rw [← hc.one_key a x hx, hget]
      exact nofun
  | failed hx hcancelled hpx hd =>
    obtain ⟨doc, hdoc, -⟩ := hp _ hd
    exact absurd hdoc nofun
  | @fetched x doc hx hcancelled hpx hd =>
    refine h.of_served (started_finish ..) fun _ => .inl ?_
    have hcurrent : (c.make x.key doc).isCurrent a x :=
      isCurrent_iff.2 ((hc.inFlight_iff x.key a).2 ⟨x, hx, rfl, hcancelled,
        Attempt.running_of_phase hpx fun _ => nofun⟩)
    rw [get?_finish_ok, if_pos ⟨hcurrent, (hc.one_key a x hx).symm⟩]
    exact nofun

theorem Within.moves (h : c.Within key spent) (hc : c.Supplied key loader)
    (hm : Moves a produced c d) (hp : Yields loader produced) : d.Within key spent := by
  induction hm with
  | refl => exact h
  | tail hm hlast ih => exact ih.move (hc.moves hm hp) hlast hp

theorem Within.step (h : c.Within key spent) (hc : c.Supplied key loader)
    (he : event.Supplies key loader) : (c.step event).Within key spent := by
  rcases still_step he with hs | ⟨a, produced, rfl, hp⟩
  · refine h.of_served hs.started (Or.imp (fun hne => ?_) fun ⟨b, y, hy, hf⟩ => ?_)
    · rcases hs.get? with hsame | ⟨hnone, -⟩
      · exact hsame ▸ hne
      · exact absurd hnone hne
    · exact ⟨b, y, hs.kept hy, hf⟩
  · exact h.moves hc (moves_advance c a produced) hp

theorem Within.run (h : c.Within key spent) (hc : c.Supplied key loader)
    (he : ∀ event ∈ events, event.Supplies key loader) : (c.run events).Within key spent :=
  hc.run_induction (P := fun d => d.Within key spent) he h fun _ hd hw _ hev => hw.step hd hev

/-! Attempts that come to an entry. -/

/-- It has come to an entry that can be used, or still may. -/
def Promises (c : MetadataCache) (loader : ModelLoader) (a : AttemptId) : Prop :=
  ∃ x, c.attempts[a]? = some x ∧ (x.Running ∧ x.cancelled = false ∨
    ∃ e, x.phase = .ended (.ok e) ∧ c.Serves loader e)

theorem Promises.move (h : c.Promises loader a) (hc : c.Supplied key loader)
    (hm : Move b produced c d) (hp : Yields loader produced) : d.Promises loader a := by
  obtain ⟨x, hx, hx'⟩ := h
  by_cases hab : b = a
  · subst hab
    have hown : ∀ {y : Attempt}, c.attempts[b]? = some y → y.Running →
        y.cancelled = false := by
      intro y hy hr
      obtain rfl := Option.some.inj (hx.symm.trans hy)
      exact (hx'.resolve_right fun ⟨e, hended, _⟩ => hr _ hended).2
    have hfinish := fun (c' : MetadataCache) (y : Attempt) (e : EntryId) =>
      attempts_finish c' b y (.ok e)
    cases hm with
    | queue hy hc' => exact ⟨_, getElem?_setPhase_self hy _, .inl ⟨nofun, hc'⟩⟩
    | fetch hy hc' => exact ⟨_, getElem?_setPhase_self hy _, .inl ⟨nofun, hc'⟩⟩
    | cancelled hy hc' hr => exact absurd ((hown hy hr).symm.trans hc') nofun
    | failed hy hc' hpy hresult =>
      obtain ⟨doc, hdoc, -⟩ := hp _ hresult
      exact absurd hdoc nofun
    | @found y e hy hc' hpy hg hget =>
      refine ⟨_, hfinish c y e ▸ getElem?_setPhase_self hy _, .inr ⟨e, rfl, ?_⟩⟩
      rw [hc.one_key b y hy] at hget
      exact (hc.usable e hget).append ((made_finish ..).trans (List.append_nil _).symm)
    | @fetched y doc hy hc' hpy hresult =>
      obtain ⟨doc', hdoc, hu⟩ := hp _ hresult
      obtain rfl := Except.ok.inj hdoc
      refine ⟨_, hfinish (c.make y.key doc) y c.made.length ▸ getElem?_setPhase_self hy _,
        .inr ⟨c.made.length, rfl, ?_⟩⟩
      exact serves_made hu (made_finish ..)
  · obtain ⟨y, phase, -, -, -, hd⟩ := hm.attempts
    refine ⟨x, hd ▸ (getElem?_setPhase_of_ne hab phase).trans hx, hx'.imp_right ?_⟩
    exact fun ⟨e, hended, hs⟩ => ⟨e, hended, hs.move hm⟩

theorem Promises.moves (h : c.Promises loader a) (hc : c.Supplied key loader)
    (hm : Moves b produced c d) (hp : Yields loader produced) : d.Promises loader a := by
  induction hm with
  | refl => exact h
  | tail hm hlast ih => exact ih.move (hc.moves hm hp) hlast hp

theorem Promises.step (h : c.Promises loader a) (hc : c.Supplied key loader) (event : Event)
    (he : event.Supplies key loader) : (c.step event).Promises loader a := by
  rcases still_step he with hs | ⟨b, produced, rfl, hp⟩
  · obtain ⟨x, hx, hx'⟩ := h
    refine ⟨x, hs.kept hx, hx'.imp_right fun ⟨e, hended, hserves⟩ => ⟨e, hended, ?_⟩⟩
    exact hserves.step event
  · exact h.moves hc (moves_advance c b produced) hp

theorem Promises.run (h : c.Promises loader a) (hc : c.Supplied key loader)
    (he : ∀ event ∈ events, event.Supplies key loader) : (c.run events).Promises loader a :=
  hc.run_induction (P := fun d => d.Promises loader a) he h fun _ hd hp event hev =>
    hp.step hd event hev

/-! The end of an attempt. -/

def Ended (c : MetadataCache) (a : AttemptId) : Prop :=
  ∃ x outcome, c.attempts[a]? = some x ∧ x.phase = .ended outcome

theorem ended_finish (hx : c.attempts[a]? = some x) (y : Attempt)
    (outcome : Except Error EntryId) : (c.finish a y outcome).Ended a := by
  refine ⟨{ x with phase := .ended outcome }, outcome, ?_, rfl⟩
  rw [attempts_finish]
  exact getElem?_setPhase_self hx _

theorem ended_deliver (hx : c.attempts[a]? = some x) (y : Attempt)
    (result : Except Error MetadataDocument) : (c.deliver a y result).Ended a := by
  cases result with
  | error err => exact ended_finish hx y _
  | ok doc => exact ended_finish (c := c.make y.key doc) hx y _

theorem ended_enterAtHead (hx : c.attempts[a]? = some x) (y : Attempt) (hg : c.gate.head? = some a)
    (result : Except Error MetadataDocument) : (c.enterAtHead a y (some result)).Ended a := by
  rw [enterAtHead, if_pos hg, enter]
  split
  · exact ended_finish hx y _
  · exact ended_deliver (c := { c.setPhase a .fetching with started := c.started ++ [y.call] })
      (getElem?_setPhase_self hx _) y result

theorem head?_of_all {l : List AttemptId} (h : ∀ b ∈ l, b = a) (ha : a ∈ l) :
    l.head? = some a := by
  cases l with
  | nil => exact absurd ha List.not_mem_nil
  | cons b l => exact congrArg some (h b List.mem_cons_self)

/-- An attempt that is alone at the gate ends when it has a result. -/
theorem Supplied.ended_advance (h : c.Supplied key loader) (hx : c.attempts[a]? = some x)
    (hgate : ∀ b ∈ c.gate, b = a) (result : Except Error MetadataDocument) :
    (c.advance a (some result)).Ended a := by
  cases hc : x.cancelled with
  | true =>
    by_cases hr : x.Running
    · rw [advance_cancelled hx hc hr]
      exact ended_finish hx x _
    · obtain ⟨outcome, hp⟩ := not_forall_not.1 hr
      rw [advance_ended hx hp]
      exact ⟨x, outcome, hx, hp⟩
  | false =>
    cases hp : x.phase with
    | ended outcome =>
      rw [advance_ended hx hp]
      exact ⟨x, outcome, hx, hp⟩
    | fetching =>
      rw [advance_fetching hx hc hp]
      exact ended_deliver hx x result
    | queued =>
      rw [advance_queued hx hc hp]
      exact ended_enterAtHead hx x (head?_of_all hgate (h.placed a x hx hp)) result
    | starting =>
      have hstart : c.advance a (some result) =
          enterAtHead { c.setPhase a .queued with gate := c.gate ++ [a] } a x (some result) := by
        simp only [advance, hx, hp, hc]
      rw [hstart]
      refine ended_enterAtHead (c := { c.setPhase a .queued with gate := c.gate ++ [a] })
        (getElem?_setPhase_self hx _) x (head?_of_all (fun b hb => ?_) ?_) result
      · rcases List.mem_append.1 hb with hb | hb
        · exact hgate b hb
        · exact List.mem_singleton.1 hb
      · exact List.mem_append_right _ (List.mem_singleton_self a)

theorem Ended.run (h : c.Ended a) (events : List Event) : (c.run events).Ended a := by
  obtain ⟨x, outcome, hx, hp⟩ := h
  obtain ⟨y, hy, hl⟩ := later_run events hx
  exact ⟨y, outcome, hy, hl.ended hp⟩

theorem Moves.cancelled_eq (hm : Moves b produced c d) (hy : d.attempts[a]? = some y) :
    ∃ x, c.attempts[a]? = some x ∧ y.cancelled = x.cancelled := by
  induction hm generalizing y with
  | refl => exact ⟨y, hy, rfl⟩
  | tail _ hm ih =>
    obtain ⟨x, phase, hx, -, -, hd⟩ := hm.attempts
    rw [hd] at hy
    by_cases hba : b = a
    · subst hba
      obtain rfl := Option.some.inj ((getElem?_setPhase_self hx _).symm.trans hy)
      obtain ⟨z, hz, hq⟩ := ih hx
      exact ⟨z, hz, hq⟩
    · exact ih ((getElem?_setPhase_of_ne hba _).symm.trans hy)

/-- Nobody cancels an attempt. -/
theorem cancelled_of_step (h : event.Supplies key loader)
    (hy : (c.step event).attempts[a]? = some y) (hc : y.cancelled = true) :
    ∃ x, c.attempts[a]? = some x ∧ x.cancelled = true := by
  rcases still_step h with hs | ⟨b, produced, rfl, -⟩
  · cases hx : c.attempts[a]? with
    | some x =>
      obtain rfl := Option.some.inj ((hs.kept hx).symm.trans hy)
      exact ⟨x, rfl, hc⟩
    | none =>
      obtain ⟨-, -, -, -, hq⟩ := new_attempt hx hy
      rw [hq] at hc
      exact absurd hc nofun
  · obtain ⟨x, hx, hq⟩ := Moves.cancelled_eq (moves_advance c b produced) hy
    exact ⟨x, hx, hq.symm.trans hc⟩

theorem cancelled_of_run (h : ∀ event ∈ events, event.Supplies key loader)
    (hy : (c.run events).attempts[a]? = some y) (hc : y.cancelled = true) :
    ∃ x, c.attempts[a]? = some x ∧ x.cancelled = true := by
  refine run_induction (P := fun d => ∀ y, d.attempts[a]? = some y → y.cancelled = true →
    ∃ x, c.attempts[a]? = some x ∧ x.cancelled = true) (fun y hy hc => ⟨y, hy, hc⟩)
    (fun d hd event he y hy hc => ?_) y hy hc
  obtain ⟨x, hx, hcx⟩ := cancelled_of_step (h event he) hy hc
  exact hd x hx hcx

/-! A cache as time goes by. -/

/-- The states of a well supplied cache, one after the other. -/
structure Course (m : ℕ → MetadataCache) (key : String) (loader : ModelLoader) : Prop where
  start : (m 0).Supplied key loader
  step (k : ℕ) : ∃ events : List Event, (∀ event ∈ events, event.Supplies key loader) ∧
    m (k + 1) = (m k).run events

/-- Every attempt has its turn again and again, and then its result. -/
def Course.Fair (m : ℕ → MetadataCache) : Prop :=
  ∀ a, (∃ k, a < (m k).attempts.length) →
    ∃ᶠ k in Filter.atTop, ∃ result, m (k + 1) = (m k).advance a (some result)

section Course

variable {m : ℕ → MetadataCache} {j k : ℕ} (h : Course m key loader)

include h

theorem Course.run (hkj : k ≤ j) : ∃ events : List Event,
    (∀ event ∈ events, event.Supplies key loader) ∧ m j = (m k).run events := by
  induction j, hkj using Nat.le_induction with
  | base => exact ⟨[], List.forall_mem_nil _, rfl⟩
  | succ j _ ih =>
    obtain ⟨events, hsupplies, hrun⟩ := ih
    obtain ⟨events', hsupplies', hrun'⟩ := h.step j
    refine ⟨events ++ events', fun event he => ?_, by rw [hrun', hrun, run_append]⟩
    exact (List.mem_append.1 he).elim (hsupplies event) (hsupplies' event)

theorem Course.supplied (k : ℕ) : (m k).Supplied key loader := by
  obtain ⟨events, hsupplies, hrun⟩ := h.run (Nat.zero_le k)
  exact hrun ▸ h.start.run hsupplies

theorem Course.promises (hp : (m k).Promises loader a) (hkj : k ≤ j) :
    (m j).Promises loader a := by
  obtain ⟨events, hsupplies, hrun⟩ := h.run hkj
  exact hrun ▸ hp.run (h.supplied k) hsupplies

theorem Course.ended (he : (m k).Ended a) (hkj : k ≤ j) : (m j).Ended a := by
  obtain ⟨events, -, hrun⟩ := h.run hkj
  exact hrun ▸ he.run events

theorem Course.within (hw : (m 0).Within key spent) (k : ℕ) : (m k).Within key spent := by
  obtain ⟨events, hsupplies, hrun⟩ := h.run (Nat.zero_le k)
  exact hrun ▸ hw.run h.start hsupplies

/-- An attempt that was cancelled long ago ends when it has its turn. -/
theorem Course.eventually_ended_of_cancelled (hf : Course.Fair m) (hx : (m k).attempts[a]? = some x)
    (hc : x.cancelled = true) : ∀ᶠ j in Filter.atTop, (m j).Ended a := by
  have hturn := hf a ⟨k, (List.getElem?_eq_some_iff.1 hx).1⟩
  obtain ⟨j, ⟨result, hadvance⟩, hkj⟩ :=
    (hturn.and_eventually (Filter.eventually_ge_atTop k)).exists
  obtain ⟨events, -, hrun⟩ := h.run hkj
  obtain ⟨y, hy, hl⟩ : ∃ y, (m j).attempts[a]? = some y ∧ x.Later y := hrun ▸ later_run events hx
  have hended : (m (j + 1)).Ended a := by
    rw [hadvance]
    by_cases hr : y.Running
    · rw [advance_cancelled hy (hl.cancelled hc) hr]
      exact ended_finish hy y _
    · obtain ⟨outcome, hp⟩ := not_forall_not.1 hr
      rw [advance_ended hy hp]
      exact ⟨y, outcome, hy, hp⟩
  exact (Filter.eventually_ge_atTop (j + 1)).mono fun l hl => h.ended hended hl

/-- Attempts end that were not cancelled: those before them at the gate were, and once they are
gone there is nobody else at the gate. -/
theorem Course.eventually_ended (hf : Course.Fair m) (hp : (m k).Promises loader a) :
    ∃ j, k ≤ j ∧ (m j).Ended a := by
  by_contra hnever
  have hlive : ∀ j, k ≤ j → (m j).Live key a ∧ a < (m j).attempts.length := by
    intro j hkj
    obtain ⟨x, hx, ⟨hr, hc⟩ | ⟨e, he, -⟩⟩ := h.promises hp hkj
    · exact ⟨⟨x, hx, (h.supplied j).one_key a x hx, hc, hr⟩, (List.getElem?_eq_some_iff.1 hx).1⟩
    · exact absurd ⟨j, hkj, x, .ok e, hx, he⟩ hnever
  have hothers : ∀ᶠ j in Filter.atTop, ∀ b < (m k).attempts.length,
      (∃ x, (m k).attempts[b]? = some x ∧ x.cancelled = true) → (m j).Ended b := by
    refine (Filter.eventually_all_finite (Set.finite_lt_nat _)).2 fun b _ => ?_
    by_cases hb : ∃ x, (m k).attempts[b]? = some x ∧ x.cancelled = true
    · obtain ⟨x, hx, hc⟩ := hb
      exact (h.eventually_ended_of_cancelled hf hx hc).mono fun j hj _ => hj
    · exact Filter.Eventually.of_forall fun j hx => absurd hx hb
  have hturn := hf a ⟨k, (hlive k le_rfl).2⟩
  obtain ⟨j, ⟨⟨result, hadvance⟩, hgone⟩, hkj⟩ :=
    ((hturn.and_eventually hothers).and_eventually (Filter.eventually_ge_atTop k)).exists
  obtain ⟨events, hsupplies, hrun⟩ := h.run hkj
  have hsupplied := h.supplied j
  have halone : ∀ b ∈ (m j).gate, b = a := by
    intro b hb
    by_contra hne
    obtain ⟨y, hy, hg⟩ := hsupplied.gated b hb
    -- it was cancelled, or it would be the attempt in flight
    have hc : y.cancelled = true := by
      refine Bool.eq_true_of_not_eq_false fun hc => hne ?_
      have hb := (hsupplied.inFlight_iff key b).2 ⟨y, hy, hsupplied.one_key b y hy, hc, hg.running⟩
      have ha := (hsupplied.inFlight_iff key a).2 (hlive j hkj).1
      exact Option.some.inj (hb.symm.trans ha)
    obtain ⟨x, hx, hcx⟩ := cancelled_of_run hsupplies (hrun ▸ hy) hc
    obtain ⟨z, outcome, hz, hend⟩ := hgone b (List.getElem?_eq_some_iff.1 hx).1 ⟨x, hx, hcx⟩
    obtain rfl := Option.some.inj (hy.symm.trans hz)
    exact hg.running outcome hend
  obtain ⟨x, hx, -⟩ := (hlive j hkj).1
  have hended : (m (j + 1)).Ended a := hadvance ▸ hsupplied.ended_advance hx halone result
  exact hnever ⟨j + 1, hkj.trans (Nat.le_succ j), hended⟩

end Course

end MetadataCache

end ODataClient
