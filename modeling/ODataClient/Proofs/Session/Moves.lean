import Mathlib.Logic.Relation
import ODataClient.Proofs.Cache.Steps
import ODataClient.Session.Resolution

/-! What happens to a client, one move at a time. A resolution begins, reads its slot, joins the
queue, calls for the metadata, makes the adapter, or is answered; the cache and the counters of
the sessions change by themselves. Every step is a few of these moves one after the other, and
nothing else. -/

namespace ODataClient

/-- It has no answer yet. -/
def Resolution.Waits (x : Resolution) : Prop := ∀ outcome, x.stage ≠ .answered outcome

theorem Resolution.waits_of_stage {x : Resolution} {stage : Stage} (h : x.stage = stage)
    (hs : ∀ outcome, stage ≠ .answered outcome) : x.Waits := fun outcome => h ▸ hs outcome

/-- It has read its slot and waits. -/
structure Resolution.Pending (x : Resolution) : Prop where
  waits : x.Waits
  looked : x.stage ≠ .entered

theorem Resolution.pending_of_stage {x : Resolution} {stage : Stage} (h : x.stage = stage)
    (hs : ∀ outcome, stage ≠ .answered outcome) (hn : stage ≠ .entered) : x.Pending :=
  ⟨waits_of_stage h hs, h ▸ hn⟩

/-- It has a place in the queue of its slot. -/
def Resolution.InLine (x : Resolution) : Prop := x.stage = .queued ∨ ∃ k, x.stage = .building k

theorem Resolution.InLine.pending {x : Resolution} (h : x.InLine) : x.Pending := by
  rcases h with hp | ⟨k, hp⟩ <;> exact pending_of_stage hp (fun _ => nofun) nofun

/-- The slot once the resolution has left the queue. -/
def AdapterSlot.left (slot : AdapterSlot) (r : ResolutionId) : AdapterSlot :=
  { slot with queue := slot.queue.filter (· != r) }

/-- The callers of the metadata have nothing to do with it. -/
def MetadataCache.Event.SparesCallers : MetadataCache.Event → Prop
  | .call _ | .abandon _ => False
  | _ => True

namespace Client

variable {c d : Client} {r : ResolutionId} {x : Resolution} {i i' : SessionId} {j j' : Nat}
  {s : Session} {slot : AdapterSlot} {f g : Session → Session} {renews : SessionId → Prop}

def adapters (c : Client) (i : SessionId) : List Adapter :=
  ((c.sessions[i]?).map Session.adapters).getD []

def newest? (c : Client) (i : SessionId) : Option Nat :=
  (c.sessions[i]?).map fun s => s.slots.length - 1

def Has (c : Client) (i : SessionId) (j : Nat) (n : AdapterId) : Prop :=
  ∃ slot, c.slot? i j = some slot ∧ slot.adapter = some n

/-- The metadata comes from a document in the settings, or the resolution has called for it. -/
def Sourced (s : Session) (x : Resolution) : Prop :=
  s.settings.metadataDocument ≠ none ∨ ∃ k, x.stage = .building k

/-- The slot is empty and it is the resolution's turn to fill it. -/
def Leads (c : Client) (r : ResolutionId) (x : Resolution) : Prop :=
  ∃ slot, c.slot? x.session x.slot = some slot ∧ slot.queue.head? = some r ∧ slot.adapter = none

/-- A move of a client, where `r` is the only resolution that may change, and only the sessions
that `renews` tells may get a new slot. -/
inductive Move (r : ResolutionId) (renews : SessionId → Prop) (c : Client) : Client → Prop
  | cached (event : MetadataCache.Event) (he : event.SparesCallers) :
      Move r renews c { c with cache := c.cache.step event }
  | counted (i : SessionId) (count : Nat → Nat) :
      Move r renews c (c.alterSession i fun s => { s with resolving := count s.resolving })
  | renewed (i : SessionId) (hi : renews i) (closed : Bool) :
      Move r renews c (c.alterSession i fun s =>
        { s with closed := closed, slots := s.slots ++ [.fresh] })
  | begun {i : SessionId} {j : Nat} {stage : Stage} (hr : r = c.resolutions.length)
      (hj : c.newest? i = some j)
      (hb : stage = .entered ∨ ∃ err, stage = .answered (.error err)) :
      Move r renews c (c.addResolution i j stage)
  | arrived {x : Resolution} {j : Nat} {slot : AdapterSlot} (hx : c.resolutions[r]? = some x)
      (hp : x.stage = .entered) (hj : c.newest? x.session = some j)
      (hslot : c.slot? x.session j = some slot) :
      Move r renews c { c with
        resolutions := c.resolutions.set r { x with slot := j, stage := .arrived } }
  | queued {x : Resolution} {slot : AdapterSlot} (hx : c.resolutions[r]? = some x)
      (hp : x.stage = .arrived) (hslot : c.slot? x.session x.slot = some slot) :
      Move r renews c (c.join r x)
  | called {x : Resolution} {s : Session} (hx : c.resolutions[r]? = some x)
      (hp : x.stage = .queued) (hs : c.sessions[x.session]? = some s) (hl : c.Leads r x)
      (hopen : s.closed = false) :
      Move r renews c { c with
        cache := c.cache.call s.key
        callers := c.callers ++ [x.session]
        resolutions := c.resolutions.set r { x with stage := .building c.cache.calls.length } }
  | answered {x : Resolution} {outcome : Except Error AdapterId}
      (hx : c.resolutions[r]? = some x) (hw : x.Pending)
      (ho : ∀ n, outcome = .ok n → c.Has x.session x.slot n) :
      Move r renews c (c.answer r x outcome)
  | abandoned {x : Resolution} {k : CallId} (hx : c.resolutions[r]? = some x)
      (hp : x.stage = .building k) :
      Move r renews c (answer { c with cache := c.cache.abandon k } r x (.error .cancelled))
  | made {x : Resolution} {s : Session} (make : Session → Adapter) (hx : c.resolutions[r]? = some x)
      (hw : x.Pending) (hs : c.sessions[x.session]? = some s) (hl : c.Leads r x)
      (hd : Sourced s x) :
      Move r renews c (((c.alterSession x.session fun s =>
        { s with adapters := s.adapters ++ [make s] }).alterSlot x fun slot =>
        { slot with adapter := some s.adapters.length }).endBuilding r x (.ok s.adapters.length))

abbrev Moves (r : ResolutionId) (renews : SessionId → Prop) :=
  Relation.ReflTransGen (Move r renews)

/-! What the changes of a client do to its sessions. -/

theorem getElem?_alterSession_ne (h : i ≠ i') (c : Client) (f : Session → Session) :
    (c.alterSession i f).sessions[i']? = c.sessions[i']? := List.getElem?_modify_ne f _ h

theorem getElem?_alterSession (hs : c.sessions[i]? = some s) (f : Session → Session) :
    (c.alterSession i f).sessions[i]? = some (f s) := by
  rw [alterSession, List.getElem?_modify_eq, hs]
  rfl

theorem getElem?_alterSession_none (hs : c.sessions[i]? = none) (f : Session → Session) :
    (c.alterSession i f).sessions[i]? = none := by
  rw [alterSession, List.getElem?_modify_eq, hs]
  rfl

/-- What is read off a session stays the same if the change to it leaves that alone. -/
theorem map_alterSession {α : Type} {g : Session → α} (hf : ∀ s, g (f s) = g s) (c : Client)
    (i i' : SessionId) : ((c.alterSession i f).sessions[i']?).map g = (c.sessions[i']?).map g := by
  by_cases hi : i = i'
  · subst hi
    cases hs : c.sessions[i]? with
    | none => rw [getElem?_alterSession_none hs]
    | some s => rw [getElem?_alterSession hs, Option.map_some, Option.map_some, hf]
  · rw [getElem?_alterSession_ne hi]

theorem alterSession_congr (h : ∀ s, c.sessions[i]? = some s → f s = g s) :
    c.alterSession i f = c.alterSession i g := by
  have hsessions : c.sessions.modify i f = c.sessions.modify i g := by
    refine List.ext_getElem? fun i' => ?_
    rw [List.getElem?_modify, List.getElem?_modify]
    by_cases hi : i = i'
    · subst hi
      cases hs : c.sessions[i]? with
      | none => rfl
      | some s => simp [h s hs]
    · simp [hi]
  rw [alterSession, alterSession, hsessions]

theorem alterSession_id (c : Client) (i : SessionId) : c.alterSession i id = c := by
  rw [alterSession, List.modify_id]

theorem slot?_of_session (hs : c.sessions[i]? = some s) (j : Nat) : c.slot? i j = s.slots[j]? := by
  rw [slot?, hs]
  rfl

theorem slot?_alterSession (hf : ∀ s, (f s).slots = s.slots) (c : Client) (i i' : SessionId)
    (j : Nat) : (c.alterSession i f).slot? i' j = c.slot? i' j := by
  by_cases hi : i = i'
  · subst hi
    cases hs : c.sessions[i]? with
    | none => simp [slot?, alterSession, hs]
    | some s => rw [slot?_of_session (getElem?_alterSession hs f), hf, slot?_of_session hs]
  · rw [slot?, getElem?_alterSession_ne hi]
    rfl

theorem slot?_alterSlot (c : Client) (x : Resolution) (f : AdapterSlot → AdapterSlot)
    (i : SessionId) (j : Nat) : (c.alterSlot x f).slot? i j =
      if x.session = i ∧ x.slot = j then (c.slot? i j).map f else c.slot? i j := by
  rw [alterSlot]
  by_cases hi : x.session = i
  · subst hi
    cases hs : c.sessions[x.session]? with
    | none => simp [slot?, alterSession, hs]
    | some s =>
      rw [slot?_of_session (getElem?_alterSession hs _), slot?_of_session hs,
        List.getElem?_modify]
      by_cases hj : x.slot = j <;> simp [hj]
  · rw [slot?, getElem?_alterSession_ne hi, if_neg fun h => hi h.1]
    rfl

theorem slot?_join (c : Client) (r : ResolutionId) (x : Resolution) (i : SessionId) (j : Nat) :
    (c.join r x).slot? i j = if x.session = i ∧ x.slot = j then
      (c.slot? i j).map fun slot => { slot with queue := slot.queue ++ [r] } else c.slot? i j :=
  slot?_alterSlot _ x _ i j

theorem slot?_answer (c : Client) (r : ResolutionId) (x : Resolution)
    (outcome : Except Error AdapterId) (i : SessionId) (j : Nat) :
    (c.answer r x outcome).slot? i j =
      if x.session = i ∧ x.slot = j then (c.slot? i j).map (·.left r) else c.slot? i j :=
  c.slot?_alterSlot x _ i j

theorem slot?_endBuilding (c : Client) (r : ResolutionId) (x : Resolution)
    (outcome : Except Error AdapterId) (i : SessionId) (j : Nat) :
    (c.endBuilding r x outcome).slot? i j = (c.answer r x outcome).slot? i j := by
  rw [endBuilding, slot?_answer, slot?_answer, slot?_alterSession (f := fun s =>
    { s with resolving := s.resolving - 1 }) fun _ => rfl]

theorem adapters_alterSession (hf : ∀ s, (f s).adapters = s.adapters) (c : Client)
    (i i' : SessionId) : (c.alterSession i f).adapters i' = c.adapters i' :=
  congrArg (Option.getD · []) (map_alterSession hf c i i')

theorem adapters_alterSlot (c : Client) (x : Resolution) (f : AdapterSlot → AdapterSlot)
    (i : SessionId) : (c.alterSlot x f).adapters i = c.adapters i :=
  adapters_alterSession (f := fun s => { s with slots := s.slots.modify x.slot f })
    (fun _ => rfl) c x.session i

theorem Leads.of_slot? (h : c.Leads r x)
    (hd : d.slot? x.session x.slot = c.slot? x.session x.slot) : d.Leads r x := by
  rwa [Leads, hd]

/-! Steps as moves. -/

/-- The resolution that is first in line goes on. -/
structure AtWork (c : Client) (r : ResolutionId) (x : Resolution) : Prop where
  stored : c.resolutions[r]? = some x
  pending : x.Pending
  leads : c.Leads r x

theorem AtWork.alterSession (h : c.AtWork r x) (hf : ∀ s, (f s).slots = s.slots) :
    (c.alterSession i f).AtWork r x :=
  ⟨h.stored, h.pending, h.leads.of_slot? (c.slot?_alterSession hf i x.session x.slot)⟩

theorem AtWork.cache (h : c.AtWork r x) (cache : MetadataCache) :
    AtWork { c with cache := cache } r x := ⟨h.stored, h.pending, h.leads⟩

theorem moves_endBuilding_error (h : c.AtWork r x) (err : Error) :
    Moves r renews c (c.endBuilding r x (.error err)) :=
  (Relation.ReflTransGen.single (.counted x.session (· - 1))).tail
    (.answered h.stored h.pending nofun)

theorem moves_complete (h : c.AtWork r x) (outcome : Except Error EntryId)
    (hd : ∀ s, c.sessions[x.session]? = some s → Sourced s x) :
    Moves r renews c (c.complete r x outcome) := by
  cases outcome with
  | error err => exact moves_endBuilding_error h err
  | ok e =>
    unfold complete
    dsimp only
    cases hs : c.sessions[x.session]? with
    | none => exact .refl
    | some s =>
      cases he : c.cache.made[e]? with
      | none => exact .refl
      | some entry =>
        have hbind : Move r renews c
            { c with cache := (c.cache.bind e entry s.settings.loader).2 } := by
          have hstep : c.cache.step (.bind e s.settings.loader) =
              (c.cache.bind e entry s.settings.loader).2 := by
            unfold MetadataCache.step
            simp only [he]
          rw [← hstep]
          exact .cached (.bind e s.settings.loader) trivial
        dsimp only
        cases hb : c.cache.bind e entry s.settings.loader with
        | mk result cache =>
          rw [hb] at hbind
          have h' := h.cache cache
          dsimp only at hbind ⊢
          cases result with
          | error err => exact .head hbind (moves_endBuilding_error h' err)
          | ok bound =>
            exact .head hbind (.single (.made (fun s => makeAdapter s.factory bound
              s.settings.options) h'.stored h'.pending hs h'.leads (hd s hs)))

theorem moves_listen {k : CallId} (h : c.AtWork r x) (hp : x.stage = .building k) :
    Moves r renews c (c.listen r x k) := by
  have hhear : Move r renews c { c with cache := c.cache.hear k } := .cached (.hear k) trivial
  unfold listen
  dsimp only
  split
  · exact .head hhear (moves_complete (h.cache _) _ fun _ _ => .inr ⟨k, hp⟩)
  · exact .single hhear

theorem connection_closed (hclosed : s.closed = true) :
    s.connection = .error (.invalid .sessionClosed) := by
  have ho : s.checkOpen = .error (.invalid .sessionClosed) := if_pos hclosed
  unfold Session.connection
  rw [ho]
  rfl

theorem closed_of_connection {timeout : Option Nat} (h : s.connection = .ok timeout) :
    s.closed = false := by
  by_contra hn
  exact absurd ((connection_closed (Bool.eq_true_of_not_eq_false hn)).symm.trans h) nofun

theorem moves_build (h : c.AtWork r x) (hp : x.stage = .queued)
    (hs : c.sessions[x.session]? = some s) : Moves r renews c (c.build r x s) := by
  let entered := c.alterSession x.session fun s => { s with resolving := s.resolving + 1 }
  have hentered : Move r renews c entered := .counted x.session (· + 1)
  have h' : entered.AtWork r x := h.alterSession fun _ => rfl
  have hs' : entered.sessions[x.session]? = some { s with resolving := s.resolving + 1 } :=
    getElem?_alterSession hs _
  unfold build
  dsimp only
  split
  next raw hd =>
    refine .head hentered (.head (.cached (.add s.key (.ok (.ofText raw))) trivial) ?_)
    refine moves_complete (h'.cache (entered.cache.step (.add s.key (.ok (.ofText raw))))) _
      fun t ht => .inl ?_
    obtain rfl := Option.some.inj (hs'.symm.trans ht)
    exact hd ▸ nofun
  next err hd ht => exact .head hentered (moves_endBuilding_error h' err)
  next hd ht =>
    have hopen : s.closed = false := closed_of_connection ht
    refine .head hentered (.head (.called h'.stored hp hs' h'.leads hopen)
      (moves_listen ⟨?_, ?_, ?_⟩ rfl))
    · exact List.getElem?_set_self (List.getElem?_eq_some_iff.1 h'.stored).1
    · exact Resolution.pending_of_stage rfl (fun _ => nofun) nofun
    · exact h'.leads

theorem moves_takeTurn (hx : c.resolutions[r]? = some x) (hp : x.stage = .queued) :
    Moves r renews c (c.takeTurn r x) := by
  have hw : x.Pending := Resolution.pending_of_stage hp (fun _ => nofun) nofun
  unfold takeTurn
  cases hs : c.sessions[x.session]? with
  | none => exact .refl
  | some s =>
    dsimp only
    cases hslot : s.slots[x.slot]? with
    | none => exact .refl
    | some slot =>
      have hslot' : c.slot? x.session x.slot = some slot := (slot?_of_session hs _).trans hslot
      dsimp only [Option.getD_some]
      cases ha : slot.adapter with
      | some n =>
        refine .single (.answered hx hw fun m hm => ?_)
        exact Except.ok.inj hm ▸ ⟨slot, hslot', ha⟩
      | none =>
        dsimp only
        split
        next hh => exact moves_build ⟨hx, hw, slot, hslot', hh, ha⟩ hp hs
        next => exact .refl

theorem getElem?_join (hx : c.resolutions[r]? = some x) :
    (c.join r x).resolutions[r]? = some { x with stage := .queued } :=
  List.getElem?_set_self (List.getElem?_eq_some_iff.1 hx).1

/-- What is in its slot answers a resolution that is polled for the first time. -/
theorem firstPoll_cases (hslot : c.slot? x.session x.slot = some slot) (cancelled : Bool) :
    (∃ n, slot.adapter = some n ∧ c.firstPoll r x cancelled = c.answer r x (.ok n)) ∨
      slot.adapter = none ∧ c.firstPoll r x cancelled =
        if cancelled then c.answer r x (.error .cancelled)
        else (c.join r x).takeTurn r { x with stage := .queued } := by
  unfold firstPoll
  rw [hslot, Option.bind_some]
  cases slot.adapter with
  | some n => exact .inl ⟨n, rfl, rfl⟩
  | none => cases cancelled <;> exact .inr ⟨rfl, rfl⟩

theorem moves_firstPoll (hx : c.resolutions[r]? = some x) (hp : x.stage = .arrived)
    (hslot : c.slot? x.session x.slot = some slot) (cancelled : Bool) :
    Moves r renews c (c.firstPoll r x cancelled) := by
  have hw : x.Pending := Resolution.pending_of_stage hp (fun _ => nofun) nofun
  rcases firstPoll_cases (r := r) hslot cancelled with ⟨n, ha, hq⟩ | ⟨-, hq⟩ <;> rw [hq]
  · refine .single (.answered hx hw fun m hm => ?_)
    exact Except.ok.inj hm ▸ ⟨slot, hslot, ha⟩
  · cases cancelled with
    | true => exact .single (.answered hx hw nofun)
    | false => exact .head (.queued hx hp hslot) (moves_takeTurn (getElem?_join hx) rfl)

theorem slot?_last (hs : c.sessions[i]? = some s) (hne : s.slots ≠ []) :
    c.slot? i (s.slots.length - 1) = some s.slot := by
  rw [slot?_of_session hs, ← List.getLast?_eq_getElem?, Session.slot,
    List.getLast?_eq_some_getLast hne]
  rfl

theorem newest?_of_session (hs : c.sessions[i]? = some s) :
    c.newest? i = some (s.slots.length - 1) := congrArg (Option.map _) hs

/-- What the moves of a step rest on. -/
structure Furnished (c : Client) : Prop where
  slots (i : SessionId) (s : Session) (hs : c.sessions[i]? = some s) : s.slots ≠ []
  slotted (r : ResolutionId) (x : Resolution) (hx : c.resolutions[r]? = some x)
    (hp : x.stage = .arrived) : ∃ slot, c.slot? x.session x.slot = some slot
  leads (r : ResolutionId) (x : Resolution) (k : CallId) (hx : c.resolutions[r]? = some x)
    (hp : x.stage = .building k) : c.Leads r x

theorem moves_enter (c : Client) (i : SessionId) :
    Moves c.resolutions.length renews c (c.enter i) := by
  unfold enter
  cases hs : c.sessions[i]? with
  | none => exact .refl
  | some s =>
    dsimp only
    split
    next err _ => exact .single (.begun rfl (newest?_of_session hs) (.inr ⟨err, rfl⟩))
    next => exact .single (.begun rfl (newest?_of_session hs) (.inl rfl))

theorem moves_look (h : c.Furnished) (r : ResolutionId) : Moves r renews c (c.look r) := by
  unfold look
  cases hx : c.resolutions[r]? with
  | none => exact .refl
  | some x =>
    dsimp only
    split
    next s hp hs =>
      exact .single (.arrived hx hp (newest?_of_session hs) (slot?_last hs (h.slots _ s hs)))
    next => exact .refl

theorem moves_progress (h : c.Furnished) (r : ResolutionId) :
    Moves r renews c (c.progress r) := by
  unfold progress
  cases hx : c.resolutions[r]? with
  | none => exact .refl
  | some x =>
    dsimp only
    cases hp : x.stage with
    | entered | answered => exact .refl
    | arrived =>
      obtain ⟨slot, hslot⟩ := h.slotted r x hx hp
      exact moves_firstPoll hx hp hslot false
    | queued => exact moves_takeTurn hx hp
    | building k =>
      exact moves_listen ⟨hx, Resolution.pending_of_stage hp (fun _ => nofun) nofun,
        h.leads r x k hx hp⟩ hp

theorem moves_cancel (h : c.Furnished) (r : ResolutionId) : Moves r renews c (c.cancel r) := by
  unfold cancel
  cases hx : c.resolutions[r]? with
  | none => exact .refl
  | some x =>
    dsimp only
    cases hp : x.stage with
    | entered | answered => exact .refl
    | arrived =>
      obtain ⟨slot, hslot⟩ := h.slotted r x hx hp
      exact moves_firstPoll hx hp hslot true
    | queued =>
      exact .single (.answered hx (Resolution.pending_of_stage hp (fun _ => nofun) nofun) nofun)
    | building k =>
      let left := c.alterSession x.session fun s => { s with resolving := s.resolving - 1 }
      have hx' : left.resolutions[r]? = some x := hx
      exact .head (.counted x.session (· - 1)) (.single (.abandoned hx' hp))

theorem moves_clear (c : Client) (r : ResolutionId) (hi : renews i) :
    Moves r renews c (c.clear i) := by
  unfold clear
  cases hs : c.sessions[i]? with
  | none => exact .refl
  | some s =>
    dsimp only
    rw [alterSession_congr (g := fun t =>
      { t with closed := s.closed, slots := t.slots ++ [.fresh] }) fun t ht => ?_]
    · exact .head (.cached (.clear s.key) trivial) (.single (.renewed i hi s.closed))
    · obtain rfl := Option.some.inj (hs.symm.trans ht)
      rfl

theorem moves_close (c : Client) (r : ResolutionId) (hi : renews i) :
    Moves r renews c (c.close i) := by
  unfold close
  cases hs : c.sessions[i]? with
  | none =>
    rw [alterSession_congr (g := id) fun t ht => absurd (hs.symm.trans ht) nofun, alterSession_id]
  | some s =>
    cases hc : s.closed with
    | true =>
      rw [alterSession_congr (g := id) fun t ht => ?_, alterSession_id]
      obtain rfl := Option.some.inj (hs.symm.trans ht)
      exact if_pos hc
    | false =>
      rw [alterSession_congr (g := fun t =>
        { t with closed := true, slots := t.slots ++ [.fresh] }) fun t ht => ?_]
      · exact .single (.renewed i hi true)
      · obtain rfl := Option.some.inj (hs.symm.trans ht)
        exact if_neg (by rw [hc]; exact Bool.false_ne_true)

/-- The resolution that an event is about. -/
def Event.subject (c : Client) : Event → ResolutionId
  | .look r | .progress r | .cancel r => r
  | _ => c.resolutions.length

/-- The session gets a new slot. -/
def Event.Renews : Event → SessionId → Prop
  | .clear i, i' | .close i, i' => i = i'
  | _, _ => False

theorem moves_step (h : c.Furnished) (event : Event) :
    Moves (event.subject c) event.Renews c (c.step event) := by
  cases event with
  | enter i => exact moves_enter c i
  | look r => exact moves_look h r
  | progress r => exact moves_progress h r
  | cancel r => exact moves_cancel h r
  | advance a produced => exact .single (.cached (.advance a produced) trivial)
  | clear i => exact moves_clear c _ rfl
  | close i => exact moves_close c _ rfl
  | clearAll => exact .single (.cached .clearAll trivial)

end Client

end ODataClient
