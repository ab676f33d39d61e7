import ODataClient.Proofs.Session.Queues

/-! What holds of a client at all times. Besides the order in the queues: an adapter is in one
slot only, a resolution has the adapter of its slot, each call for the metadata belongs to one
resolution, and the cache has a history of its own. -/

namespace ODataClient

/-- A resolution stays in the slot that it has read, and keeps its answer. -/
structure Resolution.Later (x y : Resolution) : Prop where
  session : y.session = x.session
  slot : x.stage ≠ .entered → y.stage ≠ .entered ∧ y.slot = x.slot
  answered {outcome : Except Error AdapterId} :
    x.stage = .answered outcome → y.stage = .answered outcome

theorem Resolution.Later.refl (x : Resolution) : x.Later x := ⟨rfl, fun hn => ⟨hn, rfl⟩, id⟩

theorem Resolution.Later.trans {x y z : Resolution} (h : x.Later y) (h' : y.Later z) :
    x.Later z where
  session := h'.session.trans h.session
  slot hn := by
    obtain ⟨hy, hxy⟩ := h.slot hn
    obtain ⟨hz, hyz⟩ := h'.slot hy
    exact ⟨hz, hyz.trans hxy⟩
  answered hp := h'.answered (h.answered hp)

theorem Resolution.Later.slot_of_answered {x y : Resolution} (h : x.Later y)
    {outcome : Except Error AdapterId} (hp : x.stage = .answered outcome) : y.slot = x.slot :=
  (h.slot (hp ▸ nofun)).2

namespace Client

variable {c d : Client} {r q : ResolutionId} {x y : Resolution} {i : SessionId} {j : Nat}
  {s : Session} {slot : AdapterSlot} {k : CallId} {n : AdapterId} {renews : SessionId → Prop}

/-- Adapters are made for one slot, and given to those who wait for it. -/
structure Handed (c : Client) : Prop where
  has (r : ResolutionId) (x : Resolution) (n : AdapterId) (hx : c.resolutions[r]? = some x)
    (hp : x.stage = .answered (.ok n)) : c.Has x.session x.slot n
  made (i : SessionId) (j : Nat) (n : AdapterId) (hn : c.Has i j n) : n < (c.adapters i).length
  one_slot (i : SessionId) (j l : Nat) (n : AdapterId) (hj : c.Has i j n) (hl : c.Has i l n) :
    j = l

/-- Each call for the metadata is the call of one resolution. -/
structure Calling (c : Client) : Prop where
  called (r : ResolutionId) (x : Resolution) (k : CallId) (hx : c.resolutions[r]? = some x)
    (hp : x.stage = .building k) : k < c.cache.calls.length
  one_caller (r q : ResolutionId) (x y : Resolution) (k : CallId) (hx : c.resolutions[r]? = some x)
    (hy : c.resolutions[q]? = some y) (hpx : x.stage = .building k) (hpy : y.stage = .building k) :
    r = q

/-- How the resolutions change when `r` may. -/
inductive Change (r : ResolutionId) (c d : Client) : Prop
  | same (h : d.resolutions = c.resolutions)
  | new (y : Resolution) (hr : r = c.resolutions.length) (h : d.resolutions = c.resolutions ++ [y])
      (hj : c.newest? y.session = some y.slot)
      (hb : y.stage = .entered ∨ ∃ err, y.stage = .answered (.error err))
  | further (x y : Resolution) (hx : c.resolutions[r]? = some x)
      (h : d.resolutions = c.resolutions.set r y) (hl : x.Later y)
      (hj : x.stage = .entered → y.stage ≠ .entered → c.newest? y.session = some y.slot)
      (hb : ∀ k, y.stage = .building k → k = c.cache.calls.length ∧ k < d.cache.calls.length)
      (ho : ∀ n, y.stage = .answered (.ok n) → d.Has y.session y.slot n)

theorem length_calls_call (c : MetadataCache) (key : String) :
    (c.call key).calls.length = c.calls.length + 1 := by
  rcases c.call_cases key with ⟨_, _, hq⟩ | ⟨_, _, _, hq⟩ | ⟨_, _, hq⟩ <;> rw [hq] <;>
    exact List.length_append

/-- A resolution that has read its slot goes on, in that slot. -/
theorem Change.set {stage : Stage} (hx : c.resolutions[r]? = some x) (hw : x.Pending)
    (h : d.resolutions = c.resolutions.set r { x with stage := stage }) (hn : stage ≠ .entered)
    (hb : ∀ k, stage = .building k → k = c.cache.calls.length ∧ k < d.cache.calls.length)
    (ho : ∀ n, stage = .answered (.ok n) → d.Has x.session x.slot n) : Change r c d :=
  .further x _ hx h ⟨rfl, fun _ => ⟨hn, rfl⟩, fun hp => absurd hp (hw.waits _)⟩
    (fun hp => absurd hp hw.looked) hb ho

theorem Move.change (hm : Move r renews c d) : Change r c d := by
  have hhas := fun {i j n} => hm.has (i := i) (j := j) (n := n)
  cases hm with
  | cached | counted | renewed => exact .same rfl
  | begun hr hj hb => exact .new _ hr rfl hj hb
  | @arrived x j slot hx hp hj hslot =>
    exact .further x _ hx rfl
      ⟨rfl, fun hn => absurd hp hn, fun ho => absurd (hp.symm.trans ho) nofun⟩
      (fun _ _ => hj) nofun nofun
  | queued hx hp hslot =>
    exact .set hx (Resolution.pending_of_stage hp (fun _ => nofun) nofun) rfl nofun nofun nofun
  | @called x s hx hp hs hl =>
    refine .set hx (Resolution.pending_of_stage hp (fun _ => nofun) nofun) rfl nofun
      (fun k hk => ?_) nofun
    rw [length_calls_call, Stage.building.inj hk]
    exact ⟨rfl, Nat.lt_succ_self _⟩
  | answered hx hw ho =>
    exact .set hx hw rfl nofun nofun fun n hp => hhas (ho n (Stage.answered.inj hp))
  | abandoned hx hp =>
    exact .set hx (Resolution.pending_of_stage hp (fun _ => nofun) nofun) rfl nofun nofun nofun
  | @made x s make hx hw hs hl =>
    refine .set hx hw rfl nofun nofun fun n hp => (leaves_made make _ _ c r _).has_iff.2 ?_
    obtain ⟨slot, hslot, -⟩ := hl
    refine ⟨slot, hslot, ?_⟩
    rw [if_pos ⟨rfl, rfl⟩, ← Except.ok.inj (Stage.answered.inj hp)]

namespace Change

theorem others (h : Change r c d) (hq : q ≠ r) : d.resolutions[q]? = c.resolutions[q]? := by
  cases h with
  | same h => rw [h]
  | new y hr h =>
    rw [h, List.getElem?_append]
    split
    · rfl
    next hlt =>
      have hle := not_lt.1 hlt
      have hlast : q - c.resolutions.length ≠ 0 :=
        Nat.sub_ne_zero_of_lt (hle.lt_of_ne fun he => hq (he.symm.trans hr.symm))
      rw [List.getElem?_singleton, if_neg hlast, List.getElem?_eq_none hle]
  | further x y hx h => rw [h, List.getElem?_set_ne (Ne.symm hq)]

theorem later (h : Change r c d) (hx : c.resolutions[q]? = some x) :
    ∃ y, d.resolutions[q]? = some y ∧ x.Later y := by
  cases h with
  | same h => exact ⟨x, h ▸ hx, .refl x⟩
  | new y hr h => exact ⟨x, h ▸ getElem?_of_append hx y, .refl x⟩
  | further z y hz h hl =>
    rw [h]
    by_cases hq : r = q
    · subst hq
      obtain rfl := Option.some.inj (hx.symm.trans hz)
      exact ⟨y, List.getElem?_set_self (List.getElem?_eq_some_iff.1 hx).1, hl⟩
    · exact ⟨x, (List.getElem?_set_ne hq).trans hx, .refl x⟩

theorem has (h : Change r c d) (hy : d.resolutions[q]? = some y)
    (hp : y.stage = .answered (.ok n)) :
    c.resolutions[q]? = some y ∨ d.Has y.session y.slot n := by
  cases h with
  | same h => exact .inl (h ▸ hy)
  | new z hr h hj hb =>
    rcases getElem?_concat (h ▸ hy) with hy | ⟨-, rfl⟩
    · exact .inl hy
    · rcases hb with hb | ⟨err, hb⟩ <;> exact absurd (hb.symm.trans hp) nofun
  | further x z hx h hl hj hb ho =>
    rcases getElem?_of_set (h ▸ hy) with ⟨-, rfl⟩ | ⟨-, hy⟩
    · exact .inr (ho n hp)
    · exact .inl hy

theorem building (h : Change r c d) (hy : d.resolutions[q]? = some y)
    (hp : y.stage = .building k) : c.resolutions[q]? = some y ∨
      q = r ∧ k = c.cache.calls.length ∧ k < d.cache.calls.length := by
  cases h with
  | same h => exact .inl (h ▸ hy)
  | new z hr h hj hb =>
    rcases getElem?_concat (h ▸ hy) with hy | ⟨-, rfl⟩
    · exact .inl hy
    · rcases hb with hb | ⟨err, hb⟩ <;> exact absurd (hb.symm.trans hp) nofun
  | further x z hx h hl hj hb ho =>
    rcases getElem?_of_set (h ▸ hy) with ⟨rfl, rfl⟩ | ⟨-, hy⟩
    · exact .inr ⟨rfl, hb k hp⟩
    · exact .inl hy

end Change

/-- A resolution stays in the slot that it has read, and reads the newest. -/
theorem Change.newest (h : Change r c d) (hy : d.resolutions[q]? = some y)
    (hn : y.stage ≠ .entered) :
    (∃ x, c.resolutions[q]? = some x ∧ x.Later y ∧ x.stage ≠ .entered) ∨
      c.newest? y.session = some y.slot := by
  cases h with
  | same h => exact .inl ⟨y, h ▸ hy, .refl y, hn⟩
  | new z hr h hj =>
    rcases getElem?_concat (h ▸ hy) with hy | ⟨-, rfl⟩
    · exact .inl ⟨y, hy, .refl y, hn⟩
    · exact .inr hj
  | further x z hx h hl hj =>
    rcases getElem?_of_set (h ▸ hy) with ⟨rfl, rfl⟩ | ⟨-, hy⟩
    · by_cases hp : x.stage = .entered
      · exact .inr (hj hp hn)
      · exact .inl ⟨x, hx, hl, hp⟩
    · exact .inl ⟨y, hy, .refl y, hn⟩

theorem Change.session (h : Change r c d) (hy : d.resolutions[q]? = some y) :
    (∃ x, c.resolutions[q]? = some x ∧ y.session = x.session) ∨
      ∃ j, c.newest? y.session = some j := by
  cases h with
  | same h => exact .inl ⟨y, h ▸ hy, rfl⟩
  | new z hr h hj =>
    rcases getElem?_concat (h ▸ hy) with hy | ⟨-, rfl⟩
    · exact .inl ⟨y, hy, rfl⟩
    · exact .inr ⟨_, hj⟩
  | further x z hx h hl =>
    rcases getElem?_of_set (h ▸ hy) with ⟨rfl, rfl⟩ | ⟨-, hy⟩
    · exact .inl ⟨x, hx, hl.session⟩
    · exact .inl ⟨y, hy, rfl⟩

/-- A resolution gives up no call but its own. -/
theorem Move.cache (hm : Move r renews c d) : d.cache = c.cache ∨ ∃ event,
    d.cache = c.cache.step event ∧ ∀ k, event = .abandon k →
      ∃ x, c.resolutions[r]? = some x ∧ x.stage = .building k := by
  cases hm with
  | cached event he =>
    refine .inr ⟨event, rfl, ?_⟩
    rintro k rfl
    exact he.elim
  | @called x s => exact .inr ⟨.call s.key, rfl, nofun⟩
  | @abandoned x k hx hp =>
    refine .inr ⟨.abandon k, rfl, fun l hl => ?_⟩
    exact ⟨x, hx, hp.trans (congrArg _ (MetadataCache.Event.abandon.inj hl))⟩
  | counted | renewed | begun | arrived | queued | answered | made => exact .inl rfl

theorem Move.length_calls (hm : Move r renews c d) :
    c.cache.calls.length ≤ d.cache.calls.length := by
  rcases hm.cache with h | ⟨event, h, -⟩ <;> rw [h]
  exact MetadataCache.length_calls_step c.cache event

theorem Handed.move (h : c.Handed) (hm : Move r renews c d) : d.Handed := by
  constructor
  · intro q y n hy hp
    rcases hm.change.has hy hp with hy | hn
    · exact hm.has (h.has q y n hy hp)
    · exact hn
  · intro i j n hn
    rcases hm.adapters with ⟨-, hhas⟩ | ⟨x, hmakes, -, hhas⟩
    · exact (h.made i j n ((hhas i j n).1 hn)).trans_le (hm.length_adapters i)
    · rcases (hhas i j n).1 hn with hn | ⟨rfl, -, rfl⟩
      · exact (h.made i j n hn).trans_le (hm.length_adapters i)
      · rw [hmakes.length]
        exact Nat.lt_succ_self _
  · intro i j l n hj hl
    rcases hm.adapters with ⟨-, hhas⟩ | ⟨x, -, -, hhas⟩
    · exact h.one_slot i j l n ((hhas i j n).1 hj) ((hhas i l n).1 hl)
    · rcases (hhas i j n).1 hj with hj | ⟨rfl, rfl, rfl⟩
      · rcases (hhas i l n).1 hl with hl | ⟨rfl, rfl, rfl⟩
        · exact h.one_slot i j l n hj hl
        · exact absurd (h.made _ _ _ hj) (lt_irrefl _)
      · rcases (hhas _ l _).1 hl with hl | ⟨-, rfl, -⟩
        · exact absurd (h.made _ _ _ hl) (lt_irrefl _)
        · rfl

theorem Calling.move (h : c.Calling) (hm : Move r renews c d) : d.Calling := by
  constructor
  · intro q y k hy hp
    rcases hm.change.building hy hp with hy | ⟨-, -, hk⟩
    · exact (h.called q y k hy hp).trans_le hm.length_calls
    · exact hk
  · intro q p x y k hx hy hpx hpy
    rcases hm.change.building hx hpx with hx | ⟨rfl, hk, -⟩
    · rcases hm.change.building hy hpy with hy | ⟨rfl, rfl, -⟩
      · exact h.one_caller q p x y k hx hy hpx hpy
      · exact absurd (h.called q x _ hx hpx) (lt_irrefl _)
    · rcases hm.change.building hy hpy with hy | ⟨rfl, -, -⟩
      · exact absurd (hk ▸ h.called p y k hy hpy) (lt_irrefl _)
      · rfl

/-! All of it. -/

def Roomy (c : Client) : Prop :=
  ∀ (i : SessionId) (s : Session), c.sessions[i]? = some s → s.slots ≠ []

/-- Resolutions are for sessions that there are. -/
def Housed (c : Client) : Prop :=
  ∀ (r : ResolutionId) (x : Resolution), c.resolutions[r]? = some x →
    ∃ j, c.newest? x.session = some j

structure Orderly (c : Client) : Prop extends Lined c, Handed c, Calling c where
  roomy : c.Roomy
  housed : c.Housed
  history : ∃ events, c.cache = MetadataCache.run .empty events

theorem Roomy.alterSession (h : c.Roomy) (i : SessionId) {f : Session → Session}
    (hf : ∀ s, s.slots ≠ [] → (f s).slots ≠ []) : (c.alterSession i f).Roomy := by
  intro i' s hs
  by_cases hi : i = i'
  · subst hi
    cases hold : c.sessions[i]? with
    | none => exact absurd (hs.symm.trans (getElem?_alterSession_none hold f)) nofun
    | some old =>
      obtain rfl := Option.some.inj ((getElem?_alterSession hold f).symm.trans hs)
      exact hf old (h i old hold)
  · rw [getElem?_alterSession_ne hi] at hs
    exact h i' s hs

theorem Roomy.alterSlot (h : c.Roomy) (x : Resolution) (f : AdapterSlot → AdapterSlot) :
    (c.alterSlot x f).Roomy :=
  h.alterSession x.session fun _ hne he => hne (List.modify_eq_nil_iff.1 he)

theorem Roomy.move (h : c.Roomy) (hm : Move r renews c d) : d.Roomy := by
  cases hm with
  | cached | begun | arrived | called => exact h
  | counted i => exact h.alterSession i fun _ hne => hne
  | renewed i =>
    exact h.alterSession i fun _ _ => List.append_ne_nil_of_right_ne_nil _ (List.cons_ne_nil _ _)
  | @queued x _ => exact Roomy.alterSlot (c := { c with resolutions := _ }) h x _
  | answered => exact h.alterSlot _ _
  | abandoned => exact h.alterSlot _ _
  | @made x s make =>
    have hmade : (c.alterSession x.session fun s =>
      { s with adapters := s.adapters ++ [make s] }).Roomy := h.alterSession _ fun _ hne => hne
    have hcounted := (hmade.alterSlot x fun slot =>
      { slot with adapter := some s.adapters.length }).alterSession x.session
      (f := fun s => { s with resolving := s.resolving - 1 }) fun _ hne => hne
    exact hcounted.alterSlot x _

theorem Housed.move (h : c.Housed) (hm : Move r renews c d) : d.Housed := by
  intro q y hy
  obtain ⟨j, hj⟩ : ∃ j, c.newest? y.session = some j := by
    rcases hm.change.session hy with ⟨x, hx, hi⟩ | hnewest
    · exact hi ▸ h q x hx
    · exact hnewest
  obtain ⟨l, hl, -⟩ := hm.newest_le hj
  exact ⟨l, hl⟩

theorem Orderly.move (h : c.Orderly) (hm : Move r renews c d) : d.Orderly where
  toLined := h.toLined.move hm
  toHanded := h.toHanded.move hm
  toCalling := h.toCalling.move hm
  roomy := h.roomy.move hm
  housed := h.housed.move hm
  history := by
    obtain ⟨events, hrun⟩ := h.history
    rcases hm.cache with hq | ⟨event, hq, -⟩
    · exact ⟨events, hq.trans hrun⟩
    · refine ⟨events ++ [event], ?_⟩
      rw [hq, hrun, MetadataCache.run_append]
      rfl

theorem Orderly.moves (h : c.Orderly) (hm : Moves r renews c d) : d.Orderly := by
  induction hm with
  | refl => exact h
  | tail _ hm ih => exact ih.move hm

theorem Orderly.moves_step (h : c.Orderly) (event : Event) :
    Moves (event.subject c) event.Renews c (c.step event) :=
  Client.moves_step ⟨h.roomy, h.slotted, h.leads⟩ event

theorem Orderly.step (h : c.Orderly) (event : Event) : (c.step event).Orderly :=
  h.moves (h.moves_step event)

/-- What every event of a run preserves holds at its end. -/
theorem run_induction {P : Client → Prop} {events : List Event} (h : P c)
    (hstep : ∀ d, P d → ∀ event ∈ events, P (d.step event)) : P (c.run events) :=
  events.foldlRecOn step h hstep

theorem Orderly.run (h : c.Orderly) (events : List Event) : (c.run events).Orderly :=
  run_induction h fun _ hd event _ => hd.step event

/-- What every event preserves in an orderly client holds after a run. -/
theorem Orderly.run_induction {P : Client → Prop} {events : List Event} (hc : c.Orderly) (h : P c)
    (hstep : ∀ d, d.Orderly → P d → ∀ event ∈ events, P (d.step event)) : P (c.run events) := by
  have hrun : (c.run events).Orderly ∧ P (c.run events) :=
    Client.run_induction (P := fun d => d.Orderly ∧ P d) ⟨hc, h⟩ fun d hd event he =>
      ⟨hd.1.step event, hstep d hd.1 hd.2 event he⟩
  exact hrun.2

theorem Orderly.coherent (h : c.Orderly) : c.cache.Coherent := by
  obtain ⟨events, hrun⟩ := h.history
  exact hrun ▸ MetadataCache.coherent_run events

/-! Clients are made by opening sessions and by what happens to them. -/

inductive Reachable : Client → Prop
  | empty : Reachable .empty
  | opened {c d : Client} {settings : Settings} {factory : Option AdapterFactory}
      {hasTransport : Bool} (h : Reachable c)
      (ho : c.openSession settings factory hasTransport = .ok d) : Reachable d
  | step {c : Client} (h : Reachable c) (event : Event) : Reachable (c.step event)

theorem Reachable.run (h : c.Reachable) (events : List Event) : (c.run events).Reachable :=
  run_induction h fun _ hd event _ => hd.step event

theorem openSession_eq {settings : Settings} {factory : Option AdapterFactory} {hasTransport : Bool}
    (ho : c.openSession settings factory hasTransport = .ok d) :
    d.sessions = c.sessions ++ [.new settings factory hasTransport] ∧
      d.resolutions = c.resolutions ∧ ∃ events, d.cache = c.cache.run events := by
  unfold openSession at ho
  cases hv : settings.validate with
  | error err =>
    rw [hv] at ho
    exact absurd ho nofun
  | ok _ =>
    rw [hv] at ho
    cases hd : settings.metadataDocument with
    | none =>
      simp only [hd] at ho
      obtain rfl := Except.ok.inj ho
      exact ⟨rfl, rfl, [], rfl⟩
    | some raw =>
      simp only [hd] at ho
      obtain rfl := Except.ok.inj ho
      exact ⟨rfl, rfl, [.add _ _], rfl⟩

section Opened

variable {new : Session} (hs : d.sessions = c.sessions ++ [new])

include hs

theorem extends_opened (hnew : new.slots = [.fresh]) : c.Extends d where
  kept hslot := by
    obtain ⟨s, hi, hj⟩ := slot?_eq_some.1 hslot
    exact slot?_eq_some.2 ⟨s, hs ▸ getElem?_of_append hi _, hj⟩
  fresh hslot := by
    obtain ⟨s, hi, hj⟩ := slot?_eq_some.1 hslot
    rw [hs] at hi
    rcases getElem?_concat hi with hi | ⟨-, rfl⟩
    · exact .inl (slot?_eq_some.2 ⟨s, hi, hj⟩)
    · exact .inr (List.mem_singleton.1 (hnew ▸ List.mem_of_getElem? hj))

theorem Handed.opened (h : c.Handed) (hnew : new.slots = [.fresh])
    (hr : d.resolutions = c.resolutions) : d.Handed where
  has r x n hx hp := (extends_opened hs hnew).has_iff.2 (h.has r x n (hr ▸ hx) hp)
  made i j n hn := by
    have hold := (extends_opened hs hnew).has_iff.1 hn
    obtain ⟨slot, hslot, -⟩ := hold
    obtain ⟨s, hi, -⟩ := slot?_eq_some.1 hslot
    have hi' : d.sessions[i]? = some s := hs ▸ getElem?_of_append hi _
    rw [adapters_of_session hi', ← adapters_of_session hi]
    exact h.made i j n ((extends_opened hs hnew).has_iff.1 hn)
  one_slot i j l n hj hl := h.one_slot i j l n ((extends_opened hs hnew).has_iff.1 hj)
    ((extends_opened hs hnew).has_iff.1 hl)

theorem Roomy.opened (h : c.Roomy) (hnew : new.slots = [.fresh]) : d.Roomy := by
  intro i s hi
  rw [hs] at hi
  rcases getElem?_concat hi with hi | ⟨-, rfl⟩
  · exact h i s hi
  · rw [hnew]
    exact List.cons_ne_nil _ _

end Opened

theorem Calling.frame (h : c.Calling) (hr : d.resolutions = c.resolutions)
    (hlength : c.cache.calls.length ≤ d.cache.calls.length) : d.Calling where
  called r x k hx hp := (h.called r x k (hr ▸ hx) hp).trans_le hlength
  one_caller r q x y k hx hy := h.one_caller r q x y k (hr ▸ hx) (hr ▸ hy)

theorem Orderly.opened (h : c.Orderly) {settings : Settings} {factory : Option AdapterFactory}
    {hasTransport : Bool} (ho : c.openSession settings factory hasTransport = .ok d) :
    d.Orderly := by
  obtain ⟨hs, hr, events, hcache⟩ := openSession_eq ho
  constructor
  · exact h.toLined.extend (extends_opened hs rfl) hr
  · exact h.toHanded.opened hs rfl hr
  · exact h.toCalling.frame hr (hcache ▸ MetadataCache.length_calls_run c.cache events)
  · exact h.roomy.opened hs rfl
  · intro r x hx
    obtain ⟨j, hj⟩ := h.housed r x (hr ▸ hx)
    obtain ⟨s, hi, -⟩ := Option.map_eq_some_iff.1 hj
    have hi' : d.sessions[x.session]? = some s := hs ▸ getElem?_of_append hi _
    exact ⟨_, newest?_of_session hi'⟩
  · obtain ⟨before, hrun⟩ := h.history
    exact ⟨before ++ events, by rw [hcache, hrun, MetadataCache.run_append]⟩

theorem orderly_empty : Orderly .empty := by
  have hres : ∀ (r : ResolutionId) (x : Resolution), empty.resolutions[r]? ≠ some x := nofun
  have hslot : ∀ (i : SessionId) (j : Nat) (slot : AdapterSlot), empty.slot? i j ≠ some slot :=
    nofun
  constructor
  · exact ⟨fun r x hx => absurd hx (hres r x), fun r x hx => absurd hx (hres r x),
      fun i j slot hs => absurd hs (hslot i j slot),
      fun i j slot hs => absurd hs (hslot i j slot), fun r x k hx => absurd hx (hres r x)⟩
  · exact ⟨fun r x n hx => absurd hx (hres r x),
      fun i j n ⟨slot, hs, _⟩ => absurd hs (hslot i j slot),
      fun i j l n ⟨slot, hs, _⟩ => absurd hs (hslot i j slot)⟩
  · exact ⟨fun r x k hx => absurd hx (hres r x), fun r q x y k hx => absurd hx (hres r x)⟩
  · exact fun i s hs => absurd hs nofun
  · exact fun r x hx => absurd hx (hres r x)
  · exact ⟨[], rfl⟩

theorem Reachable.orderly (h : c.Reachable) : c.Orderly := by
  induction h with
  | empty => exact orderly_empty
  | opened _ ho ih => exact ih.opened ho
  | step _ event ih => exact ih.step event

def northwindSettings : Settings :=
  { Settings.new "http://northwind" with loader := .fixed (northwind "4.0") }

/-- A session that has not asked for anything yet. -/
def opened : Client := ⟨.empty, [.new northwindSettings none true], [], []⟩

theorem reachable_opened : opened.Reachable :=
  .opened .empty (by rfl : empty.openSession northwindSettings none true = .ok opened)

end Client

end ODataClient
