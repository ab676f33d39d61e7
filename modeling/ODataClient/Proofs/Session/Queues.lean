import ODataClient.Proofs.Cache.Coherence
import ODataClient.Proofs.Session.Slots

/-! The queues of the slots. The resolutions in line are exactly those in the queues, each once
and in its own, and a resolution that calls for the metadata is the first in its queue. -/

namespace ODataClient

namespace Client

variable {c d : Client} {r q : ResolutionId} {x y : Resolution} {i : SessionId} {j : Nat}
  {slot : AdapterSlot} {k : CallId} {renews : SessionId → Prop}

/-- Resolutions wait in line. -/
structure Lined (c : Client) : Prop where
  slotted (r : ResolutionId) (x : Resolution) (hx : c.resolutions[r]? = some x)
    (hp : x.stage = .arrived) : ∃ slot, c.slot? x.session x.slot = some slot
  placed (r : ResolutionId) (x : Resolution) (hx : c.resolutions[r]? = some x) (hl : x.InLine) :
    ∃ slot, c.slot? x.session x.slot = some slot ∧ r ∈ slot.queue
  member (i : SessionId) (j : Nat) (slot : AdapterSlot) (hs : c.slot? i j = some slot)
    (r : ResolutionId) (hr : r ∈ slot.queue) :
    ∃ x, c.resolutions[r]? = some x ∧ x.session = i ∧ x.slot = j ∧ x.InLine
  nodup (i : SessionId) (j : Nat) (slot : AdapterSlot) (hs : c.slot? i j = some slot) :
    slot.queue.Nodup
  leads (r : ResolutionId) (x : Resolution) (k : CallId) (hx : c.resolutions[r]? = some x)
    (hp : x.stage = .building k) : c.Leads r x

theorem Lined.extend (h : c.Lined) (hd : c.Extends d) (hr : d.resolutions = c.resolutions) :
    d.Lined where
  slotted r x hx hp := by
    obtain ⟨slot, hs⟩ := h.slotted r x (hr ▸ hx) hp
    exact ⟨slot, hd.kept hs⟩
  placed r x hx hl := by
    obtain ⟨slot, hs, hmem⟩ := h.placed r x (hr ▸ hx) hl
    exact ⟨slot, hd.kept hs, hmem⟩
  member i j slot hs r hmem := by
    rw [hr]
    rcases hd.fresh hs with hs | rfl
    · exact h.member i j slot hs r hmem
    · exact absurd hmem List.not_mem_nil
  nodup i j slot hs := by
    rcases hd.fresh hs with hs | rfl
    · exact h.nodup i j slot hs
    · exact List.nodup_nil
  leads r x k hx hp := by
    obtain ⟨slot, hs, hh, ha⟩ := h.leads r x k (hr ▸ hx) hp
    exact ⟨slot, hd.kept hs, hh, ha⟩

/-- Only the first in line calls for the metadata. -/
theorem Lined.queued (h : c.Lined) (hs : c.slot? i j = some slot)
    (hh : slot.queue.head? = some r) (hq : q ∈ slot.queue) (hrq : r ≠ q) :
    ∃ y, c.resolutions[q]? = some y ∧ y.session = i ∧ y.slot = j ∧ y.stage = .queued := by
  obtain ⟨y, hy, rfl, rfl, hp | ⟨k, hp⟩⟩ := h.member i j slot hs q hq
  · exact ⟨y, hy, rfl, rfl, hp⟩
  · obtain ⟨own, hown, hhead, -⟩ := h.leads q y k hy hp
    obtain rfl := Option.some.inj (hs.symm.trans hown)
    exact absurd (Option.some.inj (hh.symm.trans hhead)) hrq

/-- Whoever has read its slot and waits found it there. -/
theorem Lined.slot_of_pending (h : c.Lined) (hx : c.resolutions[r]? = some x) (hw : x.Pending) :
    ∃ slot, c.slot? x.session x.slot = some slot := by
  have hplaced : x.InLine → ∃ slot, c.slot? x.session x.slot = some slot := fun hl => by
    obtain ⟨slot, hs, -⟩ := h.placed r x hx hl
    exact ⟨slot, hs⟩
  cases hp : x.stage with
  | entered => exact absurd hp hw.looked
  | arrived => exact h.slotted r x hx hp
  | queued => exact hplaced (.inl hp)
  | building k => exact hplaced (.inr ⟨k, hp⟩)
  | answered outcome => exact absurd hp (hw.waits outcome)

/-- A resolution that is out of line has no place in a queue. -/
theorem Lined.notMem (h : c.Lined) (hx : c.resolutions[r]? = some x) (hl : ¬ x.InLine)
    (hs : c.slot? i j = some slot) : r ∉ slot.queue := by
  intro hmem
  obtain ⟨y, hy, -, -, hyl⟩ := h.member i j slot hs r hmem
  exact hl (Option.some.inj (hx.symm.trans hy) ▸ hyl)

theorem not_inLine_of_stage {stage : Stage} (hp : x.stage = stage) (hq : stage ≠ .queued)
    (hb : ∀ k, stage ≠ .building k) : ¬ x.InLine := by
  rintro (h | ⟨k, h⟩)
  · exact hq (hp.symm.trans h)
  · exact hb k (hp.symm.trans h)

theorem Lined.begin (h : c.Lined) {stage : Stage}
    (hb : stage = .entered ∨ ∃ err, stage = .answered (.error err)) :
    (c.addResolution i j stage).Lined := by
  have hnew : stage ≠ .arrived ∧ ¬ (⟨i, j, stage⟩ : Resolution).InLine := by
    rcases hb with rfl | ⟨err, rfl⟩ <;>
      exact ⟨nofun, not_inLine_of_stage rfl nofun fun _ => nofun⟩
  constructor
  · intro r x hx hp
    rcases getElem?_concat hx with hx | ⟨-, rfl⟩
    · exact h.slotted r x hx hp
    · exact absurd hp hnew.1
  · intro r x hx hl
    rcases getElem?_concat hx with hx | ⟨-, rfl⟩
    · exact h.placed r x hx hl
    · exact absurd hl hnew.2
  · intro i j slot hs r hmem
    obtain ⟨x, hx, hrest⟩ := h.member i j slot hs r hmem
    exact ⟨x, getElem?_of_append hx _, hrest⟩
  · exact h.nodup
  · intro r x k hx hp
    rcases getElem?_concat hx with hx | ⟨-, rfl⟩
    · exact h.leads r x k hx hp
    · exact absurd (.inr ⟨k, hp⟩) hnew.2

/-- A resolution goes on, and keeps its place in the queue if it has one. -/
theorem Lined.set (h : c.Lined) (hx : c.resolutions[r]? = some x)
    (hslot : ∀ i j, d.slot? i j = c.slot? i j) (hr : d.resolutions = c.resolutions.set r y)
    (hin : x.InLine → y.InLine ∧ y.session = x.session ∧ y.slot = x.slot)
    (hout : y.InLine → x.InLine)
    (hslotted : y.stage = .arrived → ∃ slot, c.slot? y.session y.slot = some slot)
    (hleads : ∀ k, y.stage = .building k → c.Leads r y) : d.Lined := by
  have hother := fun {q z} (hz : d.resolutions[q]? = some z) => getElem?_of_set (hr ▸ hz)
  constructor
  · intro q z hz hp
    rw [hslot]
    rcases hother hz with ⟨rfl, rfl⟩ | ⟨-, hz⟩
    · exact hslotted hp
    · exact h.slotted q z hz hp
  · intro q z hz hl
    rw [hslot]
    rcases hother hz with ⟨rfl, rfl⟩ | ⟨-, hz⟩
    · obtain ⟨-, hi, hj⟩ := hin (hout hl)
      rw [hi, hj]
      exact h.placed r x hx (hout hl)
    · exact h.placed q z hz hl
  · intro i j slot hs q hmem
    rw [hslot] at hs
    obtain ⟨z, hz, rfl, rfl, hzl⟩ := h.member i j slot hs q hmem
    rw [hr]
    by_cases hqr : r = q
    · subst hqr
      obtain rfl := Option.some.inj (hx.symm.trans hz)
      obtain ⟨hyl, hi, hj⟩ := hin hzl
      exact ⟨y, List.getElem?_set_self (List.getElem?_eq_some_iff.1 hx).1, hi, hj, hyl⟩
    · exact ⟨z, (List.getElem?_set_ne hqr).trans hz, rfl, rfl, hzl⟩
  · intro i j slot hs
    rw [hslot] at hs
    exact h.nodup i j slot hs
  · intro q z k hz hp
    rcases hother hz with ⟨rfl, rfl⟩ | ⟨-, hz⟩
    · exact (hleads k hp).of_slot? (hslot _ _)
    · exact (h.leads q z k hz hp).of_slot? (hslot _ _)

theorem Lined.arrive (h : c.Lined) (hx : c.resolutions[r]? = some x) (hp : x.stage = .entered)
    (hs : c.slot? x.session j = some slot) :
    Lined { c with resolutions := c.resolutions.set r { x with slot := j, stage := .arrived } } :=
  h.set hx (fun _ _ => rfl) rfl (fun hl => absurd hp hl.pending.looked)
    (fun hl => absurd hl (not_inLine_of_stage rfl nofun fun _ => nofun)) (fun _ => ⟨slot, hs⟩) nofun

theorem Lined.call (h : c.Lined) (hx : c.resolutions[r]? = some x) (hp : x.stage = .queued)
    (hl : c.Leads r x) (hslot : ∀ i j, d.slot? i j = c.slot? i j)
    (hr : d.resolutions = c.resolutions.set r { x with stage := .building k }) : d.Lined :=
  h.set hx hslot hr (fun _ => ⟨.inr ⟨k, rfl⟩, rfl, rfl⟩) (fun _ => .inl hp) nofun fun _ _ => hl

/-- A resolution goes to the end of the queue. -/
theorem Lined.join (h : c.Lined) (hx : c.resolutions[r]? = some x) (hp : x.stage = .arrived)
    (hs : c.slot? x.session x.slot = some slot) : (c.join r x).Lined := by
  have hout : ¬ x.InLine := not_inLine_of_stage hp nofun fun _ => nofun
  have hslot := slot?_join c r x
  have hother := fun {q z} (hz : (c.join r x).resolutions[q]? = some z) => getElem?_of_set hz
  constructor
  · intro q z hz hpz
    rcases hother hz with ⟨rfl, rfl⟩ | ⟨-, hz⟩
    · exact absurd hpz nofun
    · obtain ⟨own, hown⟩ := h.slotted q z hz hpz
      rw [hslot]
      split
      · exact ⟨_, congrArg (Option.map _) hown⟩
      · exact ⟨own, hown⟩
  · intro q z hz hl
    rw [hslot]
    rcases hother hz with ⟨rfl, rfl⟩ | ⟨-, hz⟩
    · rw [if_pos ⟨rfl, rfl⟩]
      refine ⟨_, congrArg (Option.map _) hs, ?_⟩
      exact List.mem_append_right _ (List.mem_singleton_self _)
    · obtain ⟨own, hown, hmem⟩ := h.placed q z hz hl
      split
      · exact ⟨_, congrArg (Option.map _) hown, List.mem_append_left _ hmem⟩
      · exact ⟨own, hown, hmem⟩
  · intro i j slot' hs' q hmem
    have hstays : ∀ old, c.slot? i j = some old → q ∈ old.queue →
        ∃ z, (c.join r x).resolutions[q]? = some z ∧ z.session = i ∧ z.slot = j ∧ z.InLine := by
      intro old hold hmem
      obtain ⟨z, hz, hrest⟩ := h.member i j old hold q hmem
      have hrq : r ≠ q := fun he => h.notMem hx hout hold (he ▸ hmem)
      exact ⟨z, (List.getElem?_set_ne hrq).trans hz, hrest⟩
    rw [hslot] at hs'
    split at hs'
    next hij =>
      obtain ⟨rfl, rfl⟩ := hij
      obtain ⟨old, hold, rfl⟩ := Option.map_eq_some_iff.1 hs'
      rcases List.mem_append.1 hmem with hmem | hmem
      · exact hstays old hold hmem
      · obtain rfl := List.mem_singleton.1 hmem
        exact ⟨_, getElem?_join hx, rfl, rfl, .inl rfl⟩
    next => exact hstays slot' hs' hmem
  · intro i j slot' hs'
    rw [hslot] at hs'
    split at hs'
    next =>
      obtain ⟨old, hold, rfl⟩ := Option.map_eq_some_iff.1 hs'
      refine List.nodup_append.2 ⟨h.nodup i j old hold, List.nodup_singleton _, ?_⟩
      rintro q hq _ hmem rfl
      exact h.notMem hx hout hold (List.mem_singleton.1 hmem ▸ hq)
    next => exact h.nodup i j slot' hs'
  · intro q z k hz hpz
    rcases hother hz with ⟨rfl, rfl⟩ | ⟨-, hz⟩
    · exact absurd hpz nofun
    · obtain ⟨own, hown, hh, ha⟩ := h.leads q z k hz hpz
      unfold Leads
      rw [hslot]
      split
      · refine ⟨_, congrArg (Option.map _) hown, ?_, ha⟩
        rw [List.head?_append, hh]
        rfl
      · exact ⟨own, hown, hh, ha⟩

/-- A resolution is answered and leaves its queue. It may have filled the slot, when the slot was
its own to fill. -/
theorem Lined.leave (h : c.Lined) (hx : c.resolutions[r]? = some x)
    {outcome : Except Error AdapterId} {fill : Option AdapterId → Option AdapterId}
    (hslot : Leaves r x fill c d) (hf : fill none = none ∨ c.Leads r x)
    (hr : d.resolutions = c.resolutions.set r { x with stage := .answered outcome }) :
    d.Lined := by
  have hother := fun {q y} (hy : d.resolutions[q]? = some y) => getElem?_of_set (hr ▸ hy)
  constructor
  · intro q y hy hp
    rcases hother hy with ⟨-, rfl⟩ | ⟨-, hy⟩
    · exact absurd hp nofun
    · obtain ⟨slot, hs⟩ := h.slotted q y hy hp
      rw [hslot]
      split
      · exact ⟨_, congrArg (Option.map _) hs⟩
      · exact ⟨slot, hs⟩
  · intro q y hy hl
    rcases hother hy with ⟨-, rfl⟩ | ⟨hqr, hy⟩
    · exact absurd hl (not_inLine_of_stage rfl nofun fun _ => nofun)
    · obtain ⟨slot, hs, hmem⟩ := h.placed q y hy hl
      rw [hslot]
      split
      · refine ⟨_, congrArg (Option.map _) hs, List.mem_filter.2 ⟨hmem, ?_⟩⟩
        exact bne_iff_ne.2 (Ne.symm hqr)
      · exact ⟨slot, hs, hmem⟩
  · intro i j slot hs q hmem
    have hstays : ∀ slot, c.slot? i j = some slot → q ∈ slot.queue → r ≠ q →
        ∃ y, d.resolutions[q]? = some y ∧ y.session = i ∧ y.slot = j ∧ y.InLine := by
      intro slot hs hmem hqr
      obtain ⟨y, hy, hrest⟩ := h.member i j slot hs q hmem
      exact ⟨y, hr ▸ (List.getElem?_set_ne hqr).trans hy, hrest⟩
    rw [hslot] at hs
    split at hs
    next =>
      obtain ⟨old, hold, rfl⟩ := Option.map_eq_some_iff.1 hs
      obtain ⟨hmem, hqr⟩ := List.mem_filter.1 hmem
      exact hstays old hold hmem (Ne.symm (bne_iff_ne.1 hqr))
    next hij =>
      refine hstays slot hs hmem ?_
      rintro rfl
      obtain ⟨y, hy, hi, hj, -⟩ := h.member i j slot hs r hmem
      obtain rfl := Option.some.inj (hx.symm.trans hy)
      exact hij ⟨hi, hj⟩
  · intro i j slot hs
    rw [hslot] at hs
    split at hs
    · obtain ⟨old, hold, rfl⟩ := Option.map_eq_some_iff.1 hs
      exact (h.nodup i j old hold).filter _
    · exact h.nodup i j slot hs
  · intro q y k hy hp
    rcases hother hy with ⟨-, rfl⟩ | ⟨hqr, hy⟩
    · exact absurd hp nofun
    · obtain ⟨slot, hs, hh, ha⟩ := h.leads q y k hy hp
      unfold Leads
      rw [hslot]
      split
      next hij =>
        refine ⟨_, congrArg (Option.map _) hs, MetadataCache.head?_filter_ne hh (Ne.symm hqr), ?_⟩
        rcases hf with hf | ⟨own, hown, hhead, -⟩
        · exact (congrArg fill ha).trans hf
        · rw [hij.1, hij.2, hs] at hown
          obtain rfl := Option.some.inj hown
          exact absurd (Option.some.inj (hhead.symm.trans hh)) hqr
      next => exact ⟨slot, hs, hh, ha⟩

theorem Lined.move (h : c.Lined) (hm : Move r renews c d) : d.Lined := by
  cases hm with
  | cached => exact h.extend (extends_of_eq fun _ _ => rfl) rfl
  | counted i count => exact h.extend (c.extends_counted i count) rfl
  | renewed i hi closed => exact h.extend (c.extends_renewed i closed) rfl
  | begun hr hj hb => exact h.begin hb
  | arrived hx hp hj hslot => exact h.arrive hx hp hslot
  | queued hx hp hslot => exact h.join hx hp hslot
  | called hx hp hs hl => exact h.call hx hp hl (fun _ _ => rfl) rfl
  | answered hx hw ho => exact h.leave hx (leaves_answer _ r _ _) (.inl rfl) rfl
  | abandoned hx hp => exact h.leave hx (leaves_answer _ r _ _) (.inl rfl) rfl
  | made make hx hw hs hl => exact h.leave hx (leaves_made make _ _ c r _) (.inr hl) rfl

end Client

end ODataClient
