import ODataClient.Proofs.Session.Orderly

/-! How often a session makes its adapter. A slot is filled once, and whoever waited for it is
given what it holds. But a resolution stays with the slot that it found, so those that waited when
the session was cleared may fill the old slot when others have filled the new one. -/

namespace ODataClient

namespace Client

variable {c d : Client} {r q : ResolutionId} {x y : Resolution} {i : SessionId} {j l : Nat}
  {n m : AdapterId} {renews : SessionId → Prop} {outcome : Except Error AdapterId}
  {events during : List Event}

/-! What a run keeps. -/

theorem Moves.later (hm : Moves r renews c d) (hx : c.resolutions[q]? = some x) :
    ∃ y, d.resolutions[q]? = some y ∧ x.Later y := by
  induction hm with
  | refl => exact ⟨x, hx, .refl x⟩
  | tail _ hm ih =>
    obtain ⟨y, hy, hl⟩ := ih
    obtain ⟨z, hz, hl'⟩ := hm.change.later hy
    exact ⟨z, hz, hl.trans hl'⟩

theorem Orderly.later_step (h : c.Orderly) (event : Event) (hx : c.resolutions[q]? = some x) :
    ∃ y, (c.step event).resolutions[q]? = some y ∧ x.Later y :=
  (h.moves_step event).later hx

theorem Orderly.later_run (h : c.Orderly) (events : List Event)
    (hx : c.resolutions[q]? = some x) :
    ∃ y, (c.run events).resolutions[q]? = some y ∧ x.Later y := by
  refine h.run_induction (P := fun d => ∃ y, d.resolutions[q]? = some y ∧ x.Later y)
    ⟨x, hx, .refl x⟩ fun d hd hlater event _ => ?_
  obtain ⟨y, hy, hl⟩ := hlater
  obtain ⟨z, hz, hl'⟩ := hd.later_step event hy
  exact ⟨z, hz, hl.trans hl'⟩

theorem Moves.others (hm : Moves r renews c d) (hq : q ≠ r) :
    d.resolutions[q]? = c.resolutions[q]? := by
  induction hm with
  | refl => rfl
  | tail _ hm ih => exact (hm.change.others hq).trans ih

theorem Orderly.others_step (h : c.Orderly) {event : Event} (hq : q ≠ event.subject c) :
    (c.step event).resolutions[q]? = c.resolutions[q]? :=
  (h.moves_step event).others hq

theorem outcome?_eq_some : c.outcome? r = some outcome ↔
    ∃ x, c.resolutions[r]? = some x ∧ x.stage = .answered outcome := by
  unfold outcome?
  cases c.resolutions[r]? with
  | none => exact iff_of_false nofun fun ⟨x, hx, _⟩ => absurd hx nofun
  | some x =>
    cases hp : x.stage with
    | entered | arrived | queued | building =>
      refine iff_of_false ?_ fun ⟨y, hy, hpy⟩ => ?_
      · simp [hp]
      · obtain rfl := Option.some.inj hy
        exact absurd (hp.symm.trans hpy) nofun
    | answered o => simp [hp]

theorem waits_of_outcome? (hx : c.resolutions[r]? = some x) (ho : c.outcome? r = none) :
    x.Waits := fun outcome hp => by
  rw [outcome?_eq_some.2 ⟨x, hx, hp⟩] at ho
  exact absurd ho nofun

theorem not_outcome?_of_waits (hx : c.resolutions[r]? = some x) (hw : x.Waits) :
    c.outcome? r = none := by
  refine Option.eq_none_iff_forall_ne_some.2 fun o ho => ?_
  obtain ⟨y, hy, hp⟩ := outcome?_eq_some.1 ho
  obtain rfl := Option.some.inj (hx.symm.trans hy)
  exact hw o hp

theorem Orderly.outcome?_run (h : c.Orderly) (events : List Event)
    (ho : c.outcome? r = some outcome) : (c.run events).outcome? r = some outcome := by
  obtain ⟨x, hx, hp⟩ := outcome?_eq_some.1 ho
  obtain ⟨y, hy, hl⟩ := h.later_run events hx
  exact outcome?_eq_some.2 ⟨y, hy, hl.answered hp⟩

/-! Adapters and those who are given them. -/

/-- The resolution is answered with the adapter of its slot, and was not answered before. -/
structure Given (c d : Client) (i : SessionId) (j : Nat) (r : ResolutionId) (n : AdapterId) :
    Prop where
  before : c.outcome? r = none
  after : ∃ x, d.resolutions[r]? = some x ∧ x.session = i ∧ x.slot = j ∧
    x.stage = .answered (.ok n)

/-- The session makes one adapter at most, and everybody is given the same. -/
structure OneAdapter (c d : Client) (i : SessionId) : Prop where
  made : (d.adapters i).length ≤ (c.adapters i).length + 1
  same {j l : Nat} {r q : ResolutionId} {n m : AdapterId} :
    Given c d i j r n → Given c d i l q m → n = m

theorem Given.has (h : Given c d i j r n) (hd : d.Handed) : d.Has i j n := by
  obtain ⟨-, x, hx, rfl, rfl, hp⟩ := h
  exact hd.has r x n hx hp

theorem Has.unique (h : c.Has i j n) (h' : c.Has i j m) : n = m := by
  obtain ⟨slot, hs, hn⟩ := h
  obtain ⟨slot', hs', hm⟩ := h'
  obtain rfl := Option.some.inj (hs.symm.trans hs')
  exact Option.some.inj (hn.symm.trans hm)

/-- Whatever is made meanwhile is made by a resolution that is answered meanwhile. -/
theorem Moves.given (hm : Moves r renews c d) (hle : (c.adapters i).length ≤ n)
    (hlt : n < (d.adapters i).length) : ∃ j, Given c d i j r n := by
  induction hm with
  | refl => exact absurd hlt hle.not_gt
  | @tail d e hd hm ih =>
    by_cases hn : n < (d.adapters i).length
    · obtain ⟨j, hbefore, x, hx, rfl, hj, hp⟩ := ih hn
      obtain ⟨y, hy, hl⟩ := hm.change.later hx
      exact ⟨j, hbefore, y, hy, hl.session, (hl.slot_of_answered hp).trans hj, hl.answered hp⟩
    · rcases hm.adapters with ⟨hsame, -⟩ | ⟨x, hmakes, hsame, -⟩
      · exact absurd (hsame i ▸ hlt) hn
      · obtain rfl : i = x.session := by
          by_contra hi
          exact hn (hsame i hi ▸ hlt)
        have hlast : n = (d.adapters x.session).length :=
          (Nat.lt_succ_iff.1 (hlt.trans_eq hmakes.length)).antisymm (not_lt.1 hn)
        refine ⟨x.slot, Option.eq_none_iff_forall_ne_some.2 fun o ho => ?_, _, hmakes.answered,
          rfl, rfl, by rw [hlast]⟩
        obtain ⟨y, hy, hp⟩ := outcome?_eq_some.1 ho
        obtain ⟨z, hz, hl⟩ := Moves.later hd hy
        obtain rfl := Option.some.inj (hz.symm.trans hmakes.stored)
        exact hmakes.pending.waits o (hl.answered hp)

theorem Given.mono (hc : c.Orderly) {event : Event} (h : Given (c.step event) d i j r n) :
    Given c d i j r n := by
  refine ⟨Option.eq_none_iff_forall_ne_some.2 fun o ho => ?_, h.after⟩
  exact absurd (h.before.symm.trans (hc.outcome?_run [event] ho)) nofun

theorem Orderly.given_run (h : c.Orderly) (hle : (c.adapters i).length ≤ n)
    (hlt : n < ((c.run during).adapters i).length) :
    ∃ j r, Given c (c.run during) i j r n := by
  induction during generalizing c with
  | nil => exact absurd hlt hle.not_gt
  | cons event during ih =>
    by_cases hn : n < ((c.step event).adapters i).length
    · obtain ⟨j, hbefore, x, hx, hi, hj, hp⟩ := (h.moves_step event).given hle hn
      obtain ⟨y, hy, hl⟩ := (h.step event).later_run during hx
      exact ⟨j, _, hbefore, y, hy, hl.session.trans hi, (hl.slot_of_answered hp).trans hj,
        hl.answered hp⟩
    · obtain ⟨j, r, hgiven⟩ := ih (h.step event) (not_lt.1 hn) hlt
      exact ⟨j, r, hgiven.mono h⟩

/-- If they wait for one slot, they are given what it holds, and a second adapter would be given
to somebody too. -/
theorem Orderly.oneAdapter (h : c.Orderly) (hslot : ∀ {j l r q n m},
    Given c (c.run during) i j r n → Given c (c.run during) i l q m → j = l) :
    OneAdapter c (c.run during) i := by
  have hd : (c.run during).Orderly := h.run during
  have hsame : ∀ {j l r q n m}, Given c (c.run during) i j r n →
      Given c (c.run during) i l q m → n = m := by
    intro j l r q n m hr hq
    obtain rfl := hslot hr hq
    exact (hr.has hd.toHanded).unique (hq.has hd.toHanded)
  refine ⟨?_, hsame⟩
  by_contra hmore
  have htwo := not_le.1 hmore
  obtain ⟨j, r, hfirst⟩ := h.given_run le_rfl ((Nat.lt_succ_self _).trans htwo)
  obtain ⟨l, q, hsecond⟩ := h.given_run (Nat.le_succ _) htwo
  exact absurd (hsame hfirst hsecond) (Nat.lt_succ_self _).ne

/-- Whatever happens meanwhile, the session makes one adapter at most and gives everybody the same,
exactly if all who are given one wait for the same slot. A slot is the newest from one time that
the session is cleared to the next, but those who wait for an older one stay there. -/
theorem one_adapter_iff (h : c.Reachable) (during : List Event) (i : SessionId) :
    OneAdapter c (c.run during) i ↔ ∀ {j l r q n m}, Given c (c.run during) i j r n →
      Given c (c.run during) i l q m → j = l := by
  have hd : (c.run during).Orderly := h.orderly.run during
  refine ⟨fun hone {j l r q n m} hr hq => ?_, fun hslot => h.orderly.oneAdapter hslot⟩
  obtain rfl := hone.same hr hq
  exact hd.one_slot i j l n (hr.has hd.toHanded) (hq.has hd.toHanded)

/-- Two callers come at once. -/
def resolveTwice : List Event :=
  [.enter 0, .look 0, .progress 0, .enter 0, .look 1, .progress 1, .advance 0 none,
    .advance 0 (some (.ok ⟨"", ["4.0"]⟩)), .progress 0, .progress 1]

theorem resolveTwice_one_adapter :
    let d := opened.run resolveTwice
    OneAdapter opened d 0 ∧ (d.adapters 0).length = 1 ∧
      d.outcome? 0 = some (.ok 0) ∧ d.outcome? 1 = some (.ok 0) := by
  intro d
  have hslots : ∀ x ∈ d.resolutions, x.slot = 0 := by decide +kernel
  refine ⟨(one_adapter_iff reachable_opened resolveTwice 0).2 fun {j l r q n m} hr hq => ?_,
    by decide +kernel, by decide +kernel, by decide +kernel⟩
  obtain ⟨-, x, hx, -, rfl, -⟩ := hr
  obtain ⟨-, y, hy, -, rfl, -⟩ := hq
  rw [hslots x (List.mem_of_getElem? hx), hslots y (List.mem_of_getElem? hy)]

/-- Two callers wait for the metadata when the session is cleared. -/
def clearedWhileWaiting : List Event :=
  [.enter 0, .look 0, .progress 0, .enter 0, .look 1, .progress 1, .advance 0 none, .clear 0]

/-- A third one comes. The first is told that its request was cancelled, and the second then
shares the request of the third. -/
def thirdCaller : List Event :=
  [.enter 0, .look 2, .progress 2, .advance 0 none, .progress 0, .progress 1,
    .advance 1 (some (.ok ⟨"", ["4.0"]⟩)), .progress 2, .progress 1]

theorem thirdCaller_two_adapters :
    let c := opened.run clearedWhileWaiting
    let d := c.run thirdCaller
    (∀ event ∈ thirdCaller, ¬ event.Renews 0) ∧ c.adapters 0 = [] ∧ ¬ OneAdapter c d 0 ∧
      (d.adapters 0).length = 2 ∧ d.outcome? 2 = some (.ok 0) ∧ d.outcome? 1 = some (.ok 1) := by
  intro c d
  have htwo : (d.adapters 0).length = 2 := by decide +kernel
  refine ⟨by simp [thirdCaller, Event.Renews], rfl, fun hone => ?_, htwo, by decide +kernel,
    by decide +kernel⟩
  have hmade := hone.made
  rw [htwo] at hmade
  exact absurd hmade (by decide +kernel)

/-! Between two times that the session is cleared. -/

/-- The session has no new slot, and who is answered meanwhile waits for the newest. -/
structure KeepsSlot (c d : Client) (i : SessionId) : Prop where
  newest : d.newest? i = c.newest? i
  slots (r : ResolutionId) (x : Resolution) (hx : d.resolutions[r]? = some x)
    (hi : x.session = i) (hn : x.stage ≠ .entered) (ho : c.outcome? r = none) :
    c.newest? i = some x.slot

theorem KeepsSlot.move (h : KeepsSlot c d i) {e : Client} (hm : Move r renews d e)
    (hn : ¬ renews i) : KeepsSlot c e i where
  newest := (hm.newest? hn).trans h.newest
  slots q y hy hi hn ho := by
    rcases hm.change.newest hy hn with ⟨x, hx, hl, hxn⟩ | hj
    · rw [(hl.slot hxn).2]
      exact h.slots q x hx (hl.session.symm.trans hi) hxn ho
    · rw [← h.newest, ← hj, hi]

theorem KeepsSlot.moves (h : KeepsSlot c d i) {e : Client} (hm : Moves r renews d e)
    (hn : ¬ renews i) : KeepsSlot c e i := by
  induction hm with
  | refl => exact h
  | tail _ hm ih => exact ih.move hm hn

theorem KeepsSlot.run (h : KeepsSlot c d i) (hd : d.Orderly)
    (hn : ∀ event ∈ during, ¬ event.Renews i) : KeepsSlot c (d.run during) i :=
  hd.run_induction (P := fun e => KeepsSlot c e i) h fun _ he hk event hmem =>
    hk.moves (he.moves_step event) (hn event hmem)

/-- One adapter is made at most so long as the session is not cleared, and nobody waits who read
its slot before it was cleared last. -/
theorem one_adapter_of_newest (h : c.Reachable) (hn : ∀ event ∈ during, ¬ event.Renews i)
    (hw : ∀ (r : ResolutionId) (x : Resolution), c.resolutions[r]? = some x → x.session = i →
      x.Pending → c.newest? i = some x.slot) : OneAdapter c (c.run during) i := by
  have hstart : KeepsSlot c c i := by
    refine ⟨rfl, fun r x hx hi hn ho => hw r x hx hi ⟨fun outcome hp => ?_, hn⟩⟩
    exact absurd (ho.symm.trans (outcome?_eq_some.2 ⟨x, hx, hp⟩)) nofun
  have hkeeps := hstart.run h.orderly hn
  have hslot : ∀ {j r n}, Given c (c.run during) i j r n → c.newest? i = some j := by
    intro j r n hgiven
    obtain ⟨hbefore, x, hx, hi, rfl, hp⟩ := hgiven
    exact hkeeps.slots r x hx hi (hp ▸ nofun) hbefore
  refine h.orderly.oneAdapter fun {j l r q n m} hr hq => ?_
  exact Option.some.inj ((hslot hr).symm.trans (hslot hq))

end Client

end ODataClient
