import ODataClient.Proofs.Session.Counting

/-! The life of a session. Its adapter is made anew after it was cleared, by somebody who read the
slot after that; its counter tells how many are making an adapter; when nobody waits its state
tells whether the newest slot was filled; and once it is closed it refuses everybody who comes.
But who found it open and has still to read the slot when it is cleared or closed gets the new
slot, and may fill it. -/

namespace ODataClient

namespace Client

variable {c d : Client} {r q : ResolutionId} {x y : Resolution} {i : SessionId} {j l : Nat}
  {s t : Session} {n : AdapterId} {k : CallId} {renews : SessionId → Prop} {event : Event}
  {later : List Event} {f : Session → Session}

/-- The step makes the adapter, for the resolution that the event is about. -/
structure Builds (c : Client) (event : Event) (i : SessionId) (r : ResolutionId) (n : AdapterId) :
    Prop where
  subject : event.subject c = r
  made : (c.adapters i).length ≤ n ∧ n < ((c.step event).adapters i).length
  given : ∃ y, (c.step event).resolutions[r]? = some y ∧ y.session = i ∧
    y.stage = .answered (.ok n)

/-- A resolution that waited in the newest slot of the session was given an adapter. -/
def Succeeded (c : Client) (i : SessionId) : Prop :=
  ∃ (r : ResolutionId) (x : Resolution) (n : AdapterId), c.resolutions[r]? = some x ∧
    x.session = i ∧ c.newest? i = some x.slot ∧
    x.stage = .answered (.ok n)

/-- The resolution has found its session open, and not read the slot yet. -/
def Entering (c : Client) (i : SessionId) (r : ResolutionId) : Prop :=
  ∃ x, c.resolutions[r]? = some x ∧ x.session = i ∧ x.stage = .entered

/-- The resolution begins later, or it has begun and reads the slot later. -/
def LooksLater (c : Client) (i : SessionId) (r : ResolutionId) : Prop :=
  c.resolutions.length ≤ r ∨ c.Entering i r

/-- The session turns down whoever comes, at once. -/
structure Refuses (c : Client) (i : SessionId) : Prop where
  connection : ∃ s, c.sessions[i]? = some s ∧ s.connection = .error (.invalid .sessionClosed)
  adapter : (c.enter i).outcome? c.resolutions.length =
    some (.error (.invalid .sessionClosed))

structure Lifecycle (c : Client) (i : SessionId) (s : Session) : Prop where
  renewed (later : List Event) (q : ResolutionId) (y : Resolution) (n : AdapterId)
    (hq : c.LooksLater i q) (hy : ((c.clear i).run later).resolutions[q]? = some y)
    (hi : y.session = i) (hp : y.stage = .answered (.ok n)) :
    ∃ before event after r, later = before ++ event :: after ∧ c.LooksLater i r ∧
      ((c.clear i).run before).Builds event i r n
  counted : s.resolving = c.builders i
  positive (r : ResolutionId) (x : Resolution) (k : CallId) (hx : c.resolutions[r]? = some x)
    (hi : x.session = i) (hp : x.stage = .building k) : 0 < s.resolving
  settled (hn : ∀ (r : ResolutionId) (x : Resolution), c.resolutions[r]? = some x →
    x.session = i → ¬ x.Waits) :
    s.state = .resolved ∧ c.Succeeded i ∨ s.state = .unresolved ∧ ¬ c.Succeeded i
  refuses (later : List Event) : ((c.close i).run later).Refuses i
  unresolved (later : List Event) (t : Session) (hopen : s.closed = false)
    (ht : ((c.close i).run later).sessions[i]? = some t) (hr : t.state = .resolved) :
    s.settings.metadataDocument ≠ none ∧
      ∃ r n, c.Entering i r ∧ ((c.close i).run later).outcome? r = some (.ok n)

/-! Who makes an adapter. -/

theorem Moves.length_adapters (hm : Moves r renews c d) (i : SessionId) :
    (c.adapters i).length ≤ (d.adapters i).length := by
  induction hm with
  | refl => exact le_rfl
  | tail _ hm ih => exact ih.trans (hm.length_adapters i)

/-- An adapter that comes into a slot is a new one. -/
theorem Moves.length_le_of_has (hm : Moves r renews c d) (hn : ¬ c.Has i j n) (hd : d.Has i j n) :
    (c.adapters i).length ≤ n := by
  induction hm with
  | refl => exact absurd hd hn
  | @tail d e hm hlast ih =>
    by_cases hold : d.Has i j n
    · exact ih hold
    · rcases hlast.adapters with ⟨-, hhas⟩ | ⟨x, -, -, hhas⟩
      · exact absurd ((hhas i j n).1 hd) hold
      · rcases (hhas i j n).1 hd with hd | ⟨rfl, rfl, rfl⟩
        · exact absurd hd hold
        · exact Moves.length_adapters hm x.session

theorem Given.builds (h : Given c (c.step event) i j (event.subject c) n)
    (hle : (c.adapters i).length ≤ n) (hd : (c.step event).Orderly) :
    c.Builds event i (event.subject c) n where
  subject := rfl
  made := ⟨hle, hd.made i j n (h.has hd.toHanded)⟩
  given := by
    obtain ⟨-, x, hx, hi, -, hp⟩ := h
    exact ⟨x, hx, hi, hp⟩

/-- When a slot is filled in the course of a run, somebody who waits for it fills it. -/
theorem Orderly.exists_builds (h : c.Orderly) (hn : ¬ c.Has i j n) (hd : (c.run later).Has i j n) :
    ∃ before event after r, later = before ++ event :: after ∧
      (c.run before).Builds event i r n ∧
      Given (c.run before) ((c.run before).step event) i j r n := by
  induction later generalizing c with
  | nil => exact absurd hd hn
  | cons event later ih =>
    by_cases hnow : (c.step event).Has i j n
    · have hm := h.moves_step event
      have hle := hm.length_le_of_has hn hnow
      obtain ⟨l, hgiven⟩ := hm.given hle ((h.step event).made i j n hnow)
      obtain rfl := (h.step event).one_slot i j l n hnow (hgiven.has (h.step event).toHanded)
      exact ⟨[], event, later, _, rfl, hgiven.builds hle (h.step event), hgiven⟩
    · obtain ⟨before, event', after, r, rfl, hbuilds⟩ := ih (h.step event) hnow hd
      exact ⟨event :: before, event', after, r, rfl, hbuilds⟩

/-! A session that gets a new slot. -/

/-- There is a newest slot now, which is empty. -/
structure Renewed (c d : Client) (i : SessionId) (j : Nat) : Prop where
  resolutions : d.resolutions = c.resolutions
  newest : d.newest? i = some j
  empty : d.slot? i j = some .fresh
  older (l : Nat) (slot : AdapterSlot) (hs : c.slot? i l = some slot) : l < j

theorem renewed_alterSession (hs : c.sessions[i]? = some s) (cache : MetadataCache)
    (hf : (f s).slots = s.slots ++ [.fresh]) :
    Renewed c (alterSession { c with cache := cache } i f) i s.slots.length := by
  have hs' := getElem?_alterSession (c := { c with cache := cache }) hs f
  refine ⟨rfl, ?_, ?_, fun l slot hl => ?_⟩
  · rw [newest?_of_session hs', hf, List.length_append]
    rfl
  · rw [slot?_of_session hs', hf]
    exact List.getElem?_concat_length
  · rw [slot?_of_session hs] at hl
    exact (List.getElem?_eq_some_iff.1 hl).1

theorem renewed_clear (hs : c.sessions[i]? = some s) :
    Renewed c (c.clear i) i s.slots.length := by
  unfold clear
  rw [hs]
  exact renewed_alterSession hs _ rfl

theorem renewed_close (hs : c.sessions[i]? = some s) (hopen : s.closed = false) :
    Renewed c (c.close i) i s.slots.length := by
  refine renewed_alterSession hs c.cache ?_
  rw [hopen]
  rfl

theorem Renewed.not_has (h : Renewed c d i j) (hl : j ≤ l) : ¬ d.Has i l n := by
  rintro ⟨slot, hs, hn⟩
  obtain ⟨t, ht, hslot⟩ := slot?_eq_some.1 hs
  have hlast : t.slots.length - 1 = j :=
    Option.some.inj ((newest?_of_session ht).symm.trans h.newest)
  have hlt := (List.getElem?_eq_some_iff.1 hslot).1
  obtain rfl : j = l := by omega
  obtain rfl := Option.some.inj (hs.symm.trans h.empty)
  exact absurd hn nofun

/-- What is in the new slot later, or in a newer one, was made by somebody who read it then. -/
theorem Renewed.exists_builds (h : Renewed c d i j) (hc : c.Orderly) (hd : d.Orderly) (hl : j ≤ l)
    (hhas : (d.run later).Has i l n) :
    ∃ before event after r, later = before ++ event :: after ∧ c.LooksLater i r ∧
      (d.run before).Builds event i r n := by
  obtain ⟨before, event, after, r, hsplit, hbuilds, hnone, y, hy, rfl, rfl, -⟩ :=
    hd.exists_builds (h.not_has hl) hhas
  refine ⟨before, event, after, r, hsplit, ?_, hbuilds⟩
  by_contra hr
  obtain ⟨hlt, hentered⟩ := not_or.1 hr
  have hx := List.getElem?_eq_getElem (not_le.1 hlt)
  have hx' := (congrArg (·[r]?) h.resolutions).trans hx
  obtain ⟨z, hz, hlz⟩ := hd.later_run before hx'
  obtain ⟨w, hw, hlw⟩ := (hd.run before).later_step event hz
  obtain rfl := Option.some.inj (hw.symm.trans hy)
  have hlater := hlz.trans hlw
  have hlooked : (c.resolutions[r]).stage ≠ .entered := fun hp =>
    hentered ⟨_, hx, hlater.session.symm, hp⟩
  have hwaits : (c.resolutions[r]).Waits := waits_of_outcome? hx' <|
    Option.eq_none_iff_forall_ne_some.2 fun o ho =>
      absurd (hnone.symm.trans (hd.outcome?_run before ho)) nofun
  -- it had read one of the slots that there were
  obtain ⟨slot, hslot⟩ := hc.slot_of_pending hx ⟨hwaits, hlooked⟩
  rw [← hlater.session, ← (hlater.slot hlooked).2] at hslot
  exact absurd (h.older _ slot hslot) hl.not_gt

/-- Whoever reads the slot from now on reads this one or a newer one. -/
structure Past (c : Client) (i : SessionId) (j : Nat) (reads : ResolutionId → Prop) : Prop where
  newest : ∃ l, c.newest? i = some l ∧ j ≤ l
  slots (q : ResolutionId) (y : Resolution) (hq : reads q) (hy : c.resolutions[q]? = some y)
    (hi : y.session = i) (hn : y.stage ≠ .entered) : j ≤ y.slot

theorem Renewed.past (h : Renewed c d i j) : d.Past i j (c.LooksLater i) where
  newest := ⟨j, h.newest, le_rfl⟩
  slots q y hq hy hi hn := by
    rw [h.resolutions] at hy
    rcases hq with hq | ⟨x, hx, -, hp⟩
    · exact absurd (List.getElem?_eq_some_iff.1 hy).1 hq.not_gt
    · obtain rfl := Option.some.inj (hy.symm.trans hx)
      exact absurd hp hn

theorem Past.move {reads : ResolutionId → Prop} (h : c.Past i j reads) (hm : Move r renews c d) :
    d.Past i j reads where
  newest := by
    obtain ⟨l, hl, hjl⟩ := h.newest
    obtain ⟨l', hl', hll⟩ := hm.newest_le hl
    exact ⟨l', hl', hjl.trans hll⟩
  slots q y hq hy hi hn := by
    rcases hm.change.newest hy hn with ⟨x, hx, hl, hxn⟩ | hnew
    · exact (hl.slot hxn).2 ▸ h.slots q x hq hx (hl.session.symm.trans hi) hxn
    · obtain ⟨l, hl, hjl⟩ := h.newest
      rw [hi, hl] at hnew
      exact Option.some.inj hnew ▸ hjl

theorem Past.moves {reads : ResolutionId → Prop} (h : c.Past i j reads)
    (hm : Moves r renews c d) : d.Past i j reads := by
  induction hm with
  | refl => exact h
  | tail _ hm ih => exact ih.move hm

theorem Past.run {reads : ResolutionId → Prop} (h : c.Past i j reads) (hc : c.Orderly)
    (events : List Event) : (c.run events).Past i j reads :=
  hc.run_induction (P := fun d => d.Past i j reads) h fun _ hd hp event _ =>
    hp.moves (hd.moves_step event)

theorem Renewed.answered (h : Renewed c d i j) (hc : c.Orderly) (hd : d.Orderly)
    (hq : c.LooksLater i q) (hy : (d.run later).resolutions[q]? = some y) (hi : y.session = i)
    (hp : y.stage = .answered (.ok n)) :
    ∃ before event after r, later = before ++ event :: after ∧ c.LooksLater i r ∧
      (d.run before).Builds event i r n := by
  have hhas : (d.run later).Has i y.slot n := hi ▸ (hd.run later).has q y n hy hp
  refine h.exists_builds hc hd ?_ hhas
  exact (h.past.run hd later).slots q y hq hy hi (hp ▸ nofun)

/-! When nobody waits. -/

/-- Whatever a slot holds was given to somebody who waited for it. -/
def Credited (c : Client) : Prop :=
  ∀ (i : SessionId) (j : Nat) (n : AdapterId), c.Has i j n →
    ∃ (r : ResolutionId) (x : Resolution), c.resolutions[r]? = some x ∧ x.session = i ∧
      x.slot = j ∧ x.stage = .answered (.ok n)

theorem Credited.move (h : c.Credited) (hm : Move r renews c d) : d.Credited := by
  intro i j n hn
  have hkeep : c.Has i j n → ∃ (r : ResolutionId) (x : Resolution), d.resolutions[r]? = some x ∧
      x.session = i ∧ x.slot = j ∧ x.stage = .answered (.ok n) := by
    intro hn
    obtain ⟨q, x, hx, rfl, rfl, hp⟩ := h i j n hn
    obtain ⟨y, hy, hl⟩ := hm.change.later hx
    exact ⟨q, y, hy, hl.session, hl.slot_of_answered hp, hl.answered hp⟩
  rcases hm.adapters with ⟨-, hhas⟩ | ⟨x, hmakes, -, hhas⟩
  · exact hkeep ((hhas i j n).1 hn)
  · rcases (hhas i j n).1 hn with hn | ⟨rfl, rfl, rfl⟩
    · exact hkeep hn
    · exact ⟨r, _, hmakes.answered, rfl, rfl, rfl⟩

theorem Credited.moves (h : c.Credited) (hm : Moves r renews c d) : d.Credited := by
  induction hm with
  | refl => exact h
  | tail _ hm ih => exact ih.move hm

theorem Reachable.credited (h : c.Reachable) : c.Credited := by
  induction h with
  | empty => exact fun i j n ⟨slot, hs, _⟩ => absurd hs nofun
  | opened _ ho ih =>
    obtain ⟨hs, hr, -⟩ := openSession_eq ho
    intro i j n hn
    rw [hr]
    exact ih i j n ((extends_opened hs rfl).has_iff.1 hn)
  | step hc event ih => exact ih.moves (hc.orderly.moves_step event)

theorem Reachable.succeeded_iff (h : c.Reachable) (hs : c.sessions[i]? = some s) :
    c.Succeeded i ↔ s.slot.adapter.isSome := by
  have hnewest := newest?_of_session hs
  have hslot := slot?_last hs (h.orderly.roomy i s hs)
  constructor
  · rintro ⟨r, x, n, hx, rfl, hj, hp⟩
    obtain ⟨own, hown, hn⟩ := h.orderly.has r x n hx hp
    rw [← Option.some.inj (hnewest.symm.trans hj)] at hown
    obtain rfl := Option.some.inj (hslot.symm.trans hown)
    exact Option.isSome_of_eq_some hn
  · intro hsome
    obtain ⟨n, hn⟩ := Option.isSome_iff_exists.1 hsome
    obtain ⟨r, x, hx, hi, hj, hp⟩ := h.credited i _ n ⟨s.slot, hslot, hn⟩
    exact ⟨r, x, n, hx, hi, hj ▸ hnewest, hp⟩

theorem settled_state (h : c.Reachable) (hs : c.sessions[i]? = some s)
    (hn : ∀ (r : ResolutionId) (x : Resolution), c.resolutions[r]? = some x → x.session = i →
      ¬ x.Waits) :
    s.state = .resolved ∧ c.Succeeded i ∨ s.state = .unresolved ∧ ¬ c.Succeeded i := by
  have hbuilders : c.builders i = 0 := by
    refine List.countP_eq_zero.2 fun x hx hb => ?_
    obtain ⟨r, hx⟩ := List.mem_iff_getElem?.1 hx
    obtain ⟨hi, hp⟩ := Bool.and_eq_true_iff.1 hb
    refine hn r x hx (eq_of_beq hi) fun outcome ho => ?_
    rw [ho] at hp
    exact absurd hp Bool.false_ne_true
  have hresolving : s.resolving = 0 :=
    (h.tallied i s.resolving (congrArg (Option.map _) hs)).trans hbuilders
  rw [h.succeeded_iff hs, Session.state, hresolving]
  cases hsome : s.slot.adapter.isSome with
  | true => exact .inl ⟨if_pos rfl, rfl⟩
  | false => exact .inr ⟨rfl, Bool.false_ne_true⟩

/-! Closing. -/

theorem step_of_length_le (hr : c.resolutions.length ≤ r) :
    c.look r = c ∧ c.progress r = c ∧ c.cancel r = c := by
  unfold look progress cancel
  rw [List.getElem?_eq_none hr]
  exact ⟨rfl, rfl, rfl⟩

theorem resolutions_clear (c : Client) (i : SessionId) :
    (c.clear i).resolutions = c.resolutions := by
  unfold clear
  cases c.sessions[i]? <;> rfl

/-- Only a caller that comes is a new resolution. -/
theorem Orderly.new_resolution (h : c.Orderly) (hx : c.resolutions[r]? = none)
    (hy : (c.step event).resolutions[r]? = some y) :
    ∃ i, event = .enter i ∧ r = c.resolutions.length := by
  have hs : event.subject c = r := by
    by_contra hs
    exact absurd ((h.others_step (Ne.symm hs)).symm.trans hy) (hx ▸ nofun)
  have hsame : (c.step event).resolutions ≠ c.resolutions := fun hq =>
    absurd ((congrArg (·[r]?) hq).symm.trans hy) (hx ▸ nofun)
  obtain ⟨hlook, hprogress, hcancel⟩ := step_of_length_le (List.getElem?_eq_none_iff.1 hx)
  cases event with
  | enter i => exact ⟨i, rfl, hs.symm⟩
  | look q =>
    obtain rfl : q = r := hs
    exact absurd (congrArg resolutions hlook) hsame
  | progress q =>
    obtain rfl : q = r := hs
    exact absurd (congrArg resolutions hprogress) hsame
  | cancel q =>
    obtain rfl : q = r := hs
    exact absurd (congrArg resolutions hcancel) hsame
  | clear i => exact absurd (c.resolutions_clear i) hsame
  | advance | close | clearAll => exact absurd rfl hsame

/-- A caller that comes is turned down when the session is closed, and else has to read the slot. -/
theorem enter_cases (c : Client) (i : SessionId) :
    c.sessions[i]? = none ∧ c.enter i = c ∨ ∃ s, c.sessions[i]? = some s ∧
      (s.closed = true ∧ c.enter i = c.addResolution i (s.slots.length - 1)
        (.answered (.error (.invalid .sessionClosed))) ∨
      s.closed = false ∧ c.enter i = c.addResolution i (s.slots.length - 1) .entered) := by
  unfold enter
  cases hs : c.sessions[i]? with
  | none => exact .inl ⟨rfl, rfl⟩
  | some s =>
    refine .inr ⟨s, rfl, ?_⟩
    cases hclosed : s.closed with
    | true =>
      have ho : s.checkOpen = .error (.invalid .sessionClosed) := if_pos hclosed
      refine .inl ⟨rfl, ?_⟩
      simp only [ho]
    | false =>
      have ho : s.checkOpen = .ok () := if_neg (hclosed ▸ Bool.false_ne_true)
      refine .inr ⟨rfl, ?_⟩
      simp only [ho]

/-- Who comes when the session is closed is turned down, and else has to read the slot. -/
theorem Orderly.newcomer (h : c.Orderly) (hx : c.resolutions[r]? = none)
    (hy : (c.step event).resolutions[r]? = some y) :
    c.closed? y.session = some true ∧ y.stage = .answered (.error (.invalid .sessionClosed)) ∨
      c.closed? y.session = some false ∧ y.stage = .entered := by
  obtain ⟨i, rfl, rfl⟩ := h.new_resolution hx hy
  rw [Client.step] at hy
  rcases c.enter_cases i with ⟨-, hq⟩ | ⟨s, hs, ⟨hclosed, hq⟩ | ⟨hopen, hq⟩⟩ <;> rw [hq] at hy
  · exact absurd (hy.symm.trans hx) (Option.some_ne_none y)
  · obtain rfl := Option.some.inj (List.getElem?_concat_length.symm.trans hy)
    exact .inl ⟨(closed?_of_session hs).trans (congrArg some hclosed), rfl⟩
  · obtain rfl := Option.some.inj (List.getElem?_concat_length.symm.trans hy)
    exact .inr ⟨(closed?_of_session hs).trans (congrArg some hopen), rfl⟩

/-- A session that was closed stays closed. -/
theorem closed?_step (hc : c.Orderly) (h : c.closed? i = some true) (event : Event) :
    (c.step event).closed? i = some true := by
  obtain ⟨s, hs, hclosed⟩ := Option.map_eq_some_iff.1 h
  by_cases hi : event.Renews i
  · cases event with
    | clear l =>
      obtain rfl : l = i := hi
      rw [Client.step, clear, hs]
      exact (map_alterSession (f := fun s => { s with slots := s.slots ++ [.fresh] })
        (fun _ => rfl) _ l l).trans h
    | close l =>
      obtain rfl : l = i := hi
      refine (closed?_of_session (getElem?_alterSession hs _)).trans ?_
      rw [if_pos hclosed, hclosed]
    | enter | look | progress | cancel | advance | clearAll => exact hi.elim
  · exact (Moves.closed? (hc.moves_step event) hi).trans h

/-- The session is closed, and has turned down whoever came since then. -/
structure Shut (c : Client) (i : SessionId) (since : ResolutionId) : Prop where
  closed : c.closed? i = some true
  refused (q : ResolutionId) (y : Resolution) (hq : since ≤ q) (hy : c.resolutions[q]? = some y)
    (hi : y.session = i) : ∃ err, y.stage = .answered (.error err)

theorem Shut.step {since : ResolutionId} (h : c.Shut i since) (hc : c.Orderly) (event : Event) :
    (c.step event).Shut i since where
  closed := closed?_step hc h.closed event
  refused q y hq hy hi := by
    cases hx : c.resolutions[q]? with
    | some x =>
      obtain ⟨z, hz, hl⟩ := hc.later_step event hx
      obtain rfl := Option.some.inj (hy.symm.trans hz)
      obtain ⟨err, hp⟩ := h.refused q x hq hx (hl.session.symm.trans hi)
      exact ⟨err, hl.answered hp⟩
    | none =>
      rcases hc.newcomer hx hy with ⟨-, hp⟩ | ⟨hopen, -⟩
      · exact ⟨_, hp⟩
      · rw [hi, h.closed] at hopen
        exact absurd hopen nofun

theorem Shut.run {since : ResolutionId} (h : c.Shut i since) (hc : c.Orderly)
    (events : List Event) : (c.run events).Shut i since :=
  hc.run_induction (P := fun d => d.Shut i since) h fun _ hd hs event _ => hs.step hd event

theorem shut_close (hs : c.sessions[i]? = some s) : (c.close i).Shut i c.resolutions.length where
  closed := by
    refine (closed?_of_session (getElem?_alterSession hs _)).trans ?_
    cases hopen : s.closed <;> simp [hopen]
  refused q y hq hy hi := absurd (List.getElem?_eq_some_iff.1 hy).1 hq.not_gt

theorem Shut.refuses {since : ResolutionId} (h : c.Shut i since) : c.Refuses i := by
  obtain ⟨s, hs, hclosed⟩ := Option.map_eq_some_iff.1 h.closed
  refine ⟨⟨s, hs, connection_closed hclosed⟩, ?_⟩
  rcases c.enter_cases i with ⟨hnone, -⟩ | ⟨t, ht, ⟨-, hq⟩ | ⟨hopen, -⟩⟩
  · exact absurd (hs.symm.trans hnone) (Option.some_ne_none s)
  · rw [hq]
    exact outcome?_eq_some.2 ⟨_, List.getElem?_concat_length, rfl⟩
  · obtain rfl := Option.some.inj (hs.symm.trans ht)
    exact absurd (hopen.symm.trans hclosed) Bool.false_ne_true

/-- The step that puts a slot into a session leaves the resolutions as they are. -/
theorem resolutions_renewed (hi : event.Renews i) : (c.step event).resolutions = c.resolutions := by
  cases event with
  | clear l => exact c.resolutions_clear l
  | close l => rfl
  | enter | look | progress | cancel | advance | clearAll => exact hi.elim

/-- The session is closed and has no document of its own, and nobody who reads the slot `j` or a
newer one has called for its metadata. -/
structure Barred (c : Client) (i : SessionId) (j : Nat) : Prop where
  closed : c.closed? i = some true
  undocumented : (c.setup? i).map (·.1.metadataDocument) = some none
  idle (q : ResolutionId) (y : Resolution) (k : CallId) (hy : c.resolutions[q]? = some y)
    (hi : y.session = i) (hl : j ≤ y.slot) : y.stage ≠ .building k

theorem Barred.move (h : c.Barred i j) (hn : ¬ renews i) (hm : Move r renews c d) :
    d.Barred i j where
  closed := (hm.closed? hn).trans h.closed
  undocumented := (congrArg (Option.map _) (hm.setup? i)).trans h.undocumented
  idle q y k hy hi hl hp := by
    rcases hm.building hy hp with hold | ⟨s, hs, hopen, -⟩
    · exact h.idle q y k hold hi hl hp
    · rw [hi] at hs
      have hclosed := (closed?_of_session hs).symm.trans h.closed
      exact absurd (hopen.symm.trans (Option.some.inj hclosed)) Bool.false_ne_true

/-- Nobody fills these slots. -/
theorem Barred.has (h : c.Barred i j) (hm : Move r renews c d) (hl : j ≤ l) (hn : d.Has i l n) :
    c.Has i l n := by
  rcases hm.adapters with ⟨-, hhas⟩ | ⟨x, hmakes, -, hhas⟩
  · exact (hhas i l n).1 hn
  · rcases (hhas i l n).1 hn with hn | ⟨rfl, rfl, -⟩
    · exact hn
    · obtain ⟨s, hs, hd | ⟨k, hp⟩⟩ := hmakes.sourced
      · have hnone := h.undocumented
        rw [setup?_of_session hs] at hnone
        exact absurd (Option.some.inj hnone) hd
      · exact absurd hp (h.idle r x k hmakes.stored rfl hl)

theorem Barred.moves (h : c.Barred i j) (hn : ¬ renews i) (hm : Moves r renews c d) :
    d.Barred i j ∧ ∀ l n, j ≤ l → d.Has i l n → c.Has i l n := by
  induction hm with
  | refl => exact ⟨h, fun _ _ _ => id⟩
  | tail _ hm ih =>
    obtain ⟨hbarred, hhas⟩ := ih
    exact ⟨hbarred.move hn hm, fun l n hl hd => hhas l n hl (hbarred.has hm hl hd)⟩

theorem Barred.step (h : c.Barred i j) (hc : c.Orderly) (event : Event) :
    (c.step event).Barred i j := by
  have hm := hc.moves_step event
  by_cases hi : event.Renews i
  · refine ⟨closed?_step hc h.closed event, ?_, fun q y k hy => ?_⟩
    · exact (congrArg (Option.map _) (Moves.setup? hm i)).trans h.undocumented
    · exact h.idle q y k (resolutions_renewed hi ▸ hy)
  · exact (h.moves hi hm).1

theorem Barred.run (h : c.Barred i j) (hc : c.Orderly) (events : List Event) :
    (c.run events).Barred i j :=
  hc.run_induction (P := fun d => d.Barred i j) h fun _ hd hb event _ => hb.step hd event

theorem Barred.not_given (h : c.Barred i j) (hc : c.Orderly) (hl : j ≤ l)
    (hle : (c.adapters i).length ≤ n) : ¬ Given c (c.step event) i l r n := by
  intro hgiven
  by_cases hi : event.Renews i
  · obtain ⟨hnone, y, hy, -, -, hp⟩ := hgiven
    rw [resolutions_renewed hi] at hy
    exact absurd (hnone.symm.trans (outcome?_eq_some.2 ⟨y, hy, hp⟩)) nofun
  · have hhas := hgiven.has (hc.step event).toHanded
    have hold := (h.moves hi (hc.moves_step event)).2 l n hl hhas
    exact (hc.made i l n hold).not_ge hle

theorem Barred.not_has (h : c.Barred i j) (hc : c.Orderly) (hl : j ≤ l) (hn : ¬ c.Has i l n) :
    ¬ (c.run later).Has i l n := by
  intro hhas
  obtain ⟨before, event, after, r, rfl, hbuilds, hgiven⟩ := hc.exists_builds hn hhas
  exact (h.run hc before).not_given (hc.run before) hl hbuilds.made.1 hgiven

theorem barred_close (hc : c.Orderly) (hs : c.sessions[i]? = some s) (hopen : s.closed = false)
    (hd : s.settings.metadataDocument = none) : (c.close i).Barred i s.slots.length where
  closed := (shut_close hs).closed
  undocumented := by
    have hsetup : (c.close i).setup? i = some s.setup :=
      (Moves.setup? (hc.moves_step (.close i)) i).trans (setup?_of_session hs)
    exact (congrArg (Option.map _) hsetup).trans (congrArg some hd)
  idle q y k hy hi hl hp := by
    -- whoever has called already did so for an older slot
    obtain ⟨slot, hslot⟩ := hc.slot_of_pending hy
      (Resolution.pending_of_stage hp (fun _ => nofun) nofun)
    rw [hi] at hslot
    exact absurd ((renewed_close hs hopen).older _ slot hslot) hl.not_gt

/-- After an open session was closed, only somebody who had found it open fills its slot, and only
with a document of the session's own. -/
theorem resolved_closed (hc : c.Orderly) (hs : c.sessions[i]? = some s) (hopen : s.closed = false)
    (ht : ((c.close i).run later).sessions[i]? = some t) (hr : t.state = .resolved) :
    s.settings.metadataDocument ≠ none ∧
      ∃ r n, c.Entering i r ∧ ((c.close i).run later).outcome? r = some (.ok n) := by
  have hd : (c.close i).Orderly := hc.step (.close i)
  have hrenewed := renewed_close hs hopen
  obtain ⟨n, hn⟩ : ∃ n, t.slot.adapter = some n := by
    unfold Session.state at hr
    split at hr
    next hsome => exact Option.isSome_iff_exists.1 hsome
    next => split at hr <;> exact absurd hr nofun
  obtain ⟨l, hl, hjl⟩ := (hrenewed.past.run hd later).newest
  obtain rfl := Option.some.inj (hl.symm.trans (newest?_of_session ht))
  have hhas : ((c.close i).run later).Has i (t.slots.length - 1) n :=
    ⟨t.slot, slot?_last ht ((hd.run later).roomy i t ht), hn⟩
  refine ⟨fun hnone => ?_, ?_⟩
  · exact (barred_close hc hs hopen hnone).not_has hd hjl (hrenewed.not_has hjl) hhas
  obtain ⟨before, event, after, r, rfl, hlooks, hbuilds⟩ := hrenewed.exists_builds hc hd hjl hhas
  have hrun : (c.close i).run (before ++ event :: after) =
      (((c.close i).run before).step event).run after := List.foldl_append
  obtain ⟨x, hx, hi, hp⟩ := hbuilds.given
  obtain ⟨y, hy, hl⟩ := ((hd.run before).step event).later_run after hx
  rw [← hrun] at hy
  refine ⟨r, n, hlooks.resolve_left fun hlate => ?_, outcome?_eq_some.2 ⟨y, hy, hl.answered hp⟩⟩
  -- whoever came later was turned down
  obtain ⟨err, herr⟩ := ((shut_close hs).run hd _).refused r y hlate hy (hl.session.trans hi)
  exact absurd ((hl.answered hp).symm.trans herr) nofun

/-- What holds of a session at all times, whatever was and will be done with it and with others. -/
theorem lifecycle (h : c.Reachable) (hs : c.sessions[i]? = some s) : Lifecycle c i s where
  renewed later q y n hq hy hi hp :=
    (renewed_clear hs).answered h.orderly (h.orderly.step (.clear i)) hq hy hi hp
  counted := h.tallied i s.resolving (congrArg (Option.map _) hs)
  positive r x k hx hi hp := by
    subst hi
    exact (h.tallied.building hx hp).pos (congrArg (Option.map _) hs)
  settled hn := settled_state h hs hn
  refuses later := by
    have hd : (c.close i).Orderly := h.orderly.step (.close i)
    exact ((shut_close hs).run hd later).refuses
  unresolved later t hopen ht hr := resolved_closed h.orderly hs hopen ht hr

/-- When everybody has an outcome nobody is at another stage. -/
theorem stage_of_answered (h : ∀ r < c.resolutions.length, (c.outcome? r).isSome)
    (hx : c.resolutions[r]? = some x) : ∃ outcome, x.stage = .answered outcome := by
  have hr := (List.getElem?_eq_some_iff.1 hx).1
  obtain ⟨outcome, ho⟩ := Option.isSome_iff_exists.1 (h r hr)
  obtain ⟨y, hy, hp⟩ := outcome?_eq_some.1 ho
  exact ⟨outcome, Option.some.inj (hy.symm.trans hx) ▸ hp⟩

/-- A request is sent for a first caller, and the session is cleared. A second caller comes and
gets its adapter, and the first is told that its request was cancelled. -/
def clearedOnce : List Event :=
  [.advance 0 none, .enter 0, .look 1, .progress 1, .advance 1 none,
    .advance 1 (some (.ok ⟨"", ["4.0"]⟩)), .progress 1, .progress 0]

theorem lifecycle_clearedOnce :
    let c := opened.run [.enter 0, .look 0, .progress 0, .advance 0 none]
    let d := (c.clear 0).run clearedOnce
    (∃ s, c.sessions[0]? = some s ∧ s.resolving = 1 ∧ c.builders 0 = 1) ∧
      (∃ before event after r, clearedOnce = before ++ event :: after ∧ 1 ≤ r ∧
        ((c.clear 0).run before).Builds event 0 r 0) ∧
      (∃ s, d.sessions[0]? = some s ∧ s.state = .resolved ∧ s.resolving = 0) ∧
      (d.close 0).Refuses 0 ∧ ∀ later s, ((d.close 0).run later).sessions[0]? = some s →
        s.state ≠ .resolved := by
  intro c d
  have hc : c.Reachable := reachable_opened.run _
  have hd : d.Reachable := (hc.step (.clear 0)).run _
  obtain ⟨s, hs⟩ := Option.isSome_iff_exists.1 (by decide +kernel : (c.sessions[0]?).isSome)
  obtain ⟨t, ht⟩ := Option.isSome_iff_exists.1 (by decide +kernel : (d.sessions[0]?).isSome)
  have hopen : t.closed = false := by
    have hclosed : d.closed? 0 = some false := by decide +kernel
    exact Option.some.inj ((closed?_of_session ht).symm.trans hclosed)
  have hcl := lifecycle hc hs
  have hdl := lifecycle hd ht
  have hone : c.builders 0 = 1 := by decide +kernel
  have hnone : d.builders 0 = 0 := by decide +kernel
  have hbuilding : c.resolutions.map (·.stage.isBuilding) = [true] := by decide +kernel
  have hlength : c.resolutions.length = 1 := by decide +kernel
  have hsecond : d.outcome? 1 = some (.ok 0) := by decide +kernel
  have hanswered : ∀ r < d.resolutions.length, (d.outcome? r).isSome := by decide +kernel
  obtain ⟨y, hy, hp⟩ := outcome?_eq_some.1 hsecond
  have hplace : (d.resolutions[1]?).map (fun y => (y.session, some y.slot)) =
    some (0, d.newest? 0) := by decide +kernel
  rw [hy] at hplace
  obtain ⟨hsession, hslot⟩ := Prod.mk.inj (Option.some.inj hplace)
  refine ⟨⟨s, hs, hcl.counted.trans hone, hone⟩, ?_, ⟨t, ht, ?_, hdl.counted.trans hnone⟩,
    hdl.refuses [], fun later u hu hr => ?_⟩
  · obtain ⟨before, event, after, r, hsplit, hlooks, hbuilds⟩ :=
      hcl.renewed clearedOnce 1 y 0 (.inl hlength.le) hy hsession hp
    refine ⟨before, event, after, r, hsplit, hlength ▸ hlooks.resolve_right ?_, hbuilds⟩
    rintro ⟨x, hx, -, hentered⟩
    have hmem := List.mem_map_of_mem (f := (·.stage.isBuilding)) (List.mem_of_getElem? hx)
    rw [hbuilding, hentered] at hmem
    exact absurd (List.mem_singleton.1 hmem) Bool.false_ne_true
  · have hfilled : d.Succeeded 0 := ⟨1, y, 0, hy, hsession, hslot.symm, hp⟩
    refine ((hdl.settled fun r x hx _ hw => ?_).resolve_right fun h => h.2 hfilled).1
    obtain ⟨outcome, ho⟩ := stage_of_answered hanswered hx
    exact hw outcome ho
  · obtain ⟨-, r, n, ⟨x, hx, -, hentered⟩, -⟩ := hdl.unresolved later u hopen hu hr
    obtain ⟨outcome, ho⟩ := stage_of_answered hanswered hx
    exact absurd (hentered.symm.trans ho) nofun

/-! Between finding a session open and reading its slot. -/

def offlineDocument : String := "\x7b\"version\":\"4.0\",\"collections\":[]\x7d"

/-- A session with a document of its own, so that nobody has to wait for its metadata. -/
def offline : Client :=
  ⟨(MetadataCache.empty.add "http://northwind" (.ok (.ofText offlineDocument))).2,
    [.new (.offline "http://northwind" offlineDocument) none false], [], []⟩

theorem reachable_offline : offline.Reachable := by
  have hopened : empty.openSession (.offline "http://northwind" offlineDocument) none false =
    .ok offline := by rfl
  exact .opened .empty hopened

/-- Who found the session open fills the slot after it was closed; or after it was cleared, and
whoever comes later is given that adapter. -/
theorem lateLook_resolves :
    let c := offline.enter 0
    let closed := (c.close 0).run [.look 0, .progress 0]
    let cleared := (c.clear 0).run [.look 0, .progress 0, .enter 0, .look 1, .progress 1]
    c.Reachable ∧ c.resolutions.length = 1 ∧ closed.closed? 0 = some true ∧
      (closed.sessions[0]?).map Session.state = some .resolved ∧
      ((c.clear 0).step (.look 0)).Builds (.progress 0) 0 0 0 ∧
      cleared.outcome? 1 = some (.ok 0) := by
  intro c closed cleared
  have hc : c.Reachable := .step reachable_offline (.enter 0)
  refine ⟨hc, rfl, by decide +kernel, by decide +kernel, ⟨rfl, by decide +kernel, ?_⟩,
    by decide +kernel⟩
  have hanswer : ((c.clear 0).run [.look 0, .progress 0]).outcome? 0 = some (.ok 0) := by
    decide +kernel
  obtain ⟨y, hy, hp⟩ := outcome?_eq_some.1 hanswer
  have hentered : (c.clear 0).resolutions[0]? = some ⟨0, 0, .entered⟩ := rfl
  obtain ⟨z, hz, hl⟩ := (hc.orderly.step (.clear 0)).later_run [.look 0, .progress 0] hentered
  obtain rfl := Option.some.inj (hz.symm.trans hy)
  exact ⟨z, hy, hl.session, hp⟩

end Client

end ODataClient
