import Mathlib.Data.Nat.Pairing
import ODataClient.Proofs.Session.Health

/-! Callers share what they ask for. So long as a session is not cleared or closed and its service
answers, however many come and whoever of them gives up, one request is sent at most and one
adapter is made, which everybody gets who does not give up. -/

namespace ODataClient

namespace Client

variable {c d : Client} {r q : ResolutionId} {x y : Resolution} {i : SessionId} {s t : Session}
  {k j l : ℕ} {a : AttemptId} {n m : AdapterId} {σ : ℕ → Event} {outcome : Except Error AdapterId}
  {renews : SessionId → Prop} {others : List ResolutionId}

/-- The client after so many events of a schedule. -/
def after (c : Client) (σ : ℕ → Event) : ℕ → Client
  | 0 => c
  | k + 1 => (c.after σ k).step (σ k)

/-- A client with one session, which nobody waits for, and which can make its adapter. -/
structure Ready (c : Client) (s : Session) : Prop where
  reachable : c.Reachable
  alone : c.sessions = [s]
  isOpen : s.closed = false
  idle (r : ResolutionId) (x : Resolution) (hx : c.resolutions[r]? = some x) : ¬ x.Waits
  canAsk : s.CanAsk
  usable (e : EntryId) (h : c.cache.get? s.key = some e) : c.cache.Serves s.settings.loader e

/-- Every resolution comes to read its slot and is polled again and again, and every attempt has its
turn and then a result. -/
structure Fair (c : Client) (σ : ℕ → Event) : Prop where
  looked (r : ResolutionId) (hr : ∃ k, r < (c.after σ k).resolutions.length) :
    ∃ᶠ k in Filter.atTop, σ k = .look r
  polled (r : ResolutionId) (hr : ∃ k, r < (c.after σ k).resolutions.length) :
    ∃ᶠ k in Filter.atTop, σ k = .progress r
  advanced (a : AttemptId) (ha : ∃ k, a < (c.after σ k).cache.attempts.length) :
    ∃ᶠ k in Filter.atTop, ∃ result, σ k = .advance a (some result)

/-- What callers get who come to the session while the schedule runs: one adapter, for one request.
Who gives up is told so, unless it was cancelled before it was polled for the first time and there
is an adapter for it then. -/
structure Shares (c : Client) (σ : ℕ → Event) (n : AdapterId) : Prop where
  requests (k : ℕ) : (c.after σ k).cache.started.length ≤ c.cache.started.length + 1
  adapters (k : ℕ) : ((c.after σ k).adapters 0).length ≤ (c.adapters 0).length + 1
  answered (k : ℕ) (r : ResolutionId) (outcome : Except Error AdapterId)
    (hr : c.resolutions.length ≤ r) (ho : (c.after σ k).outcome? r = some outcome) :
    outcome = .ok n ∨ outcome = .error .cancelled ∧ ∃ j < k, σ j = .cancel r
  cancelled (k : ℕ) (r : ResolutionId) (x : Resolution)
    (hx : (c.after σ k).resolutions[r]? = some x) (hl : x.InLine) (he : σ k = .cancel r) :
    (c.after σ (k + 1)).outcome? r = some (.error .cancelled)
  early (k : ℕ) (r : ResolutionId) (x : Resolution) (slot : AdapterSlot)
    (hx : (c.after σ k).resolutions[r]? = some x) (hp : x.stage = .arrived)
    (hs : (c.after σ k).slot? x.session x.slot = some slot) (he : σ k = .cancel r) :
    (c.after σ (k + 1)).outcome? r =
      some (if slot.adapter.isSome then .ok n else .error .cancelled)
  received (hf : Fair c σ) (k : ℕ) (r : ResolutionId) (hr : c.resolutions.length ≤ r)
    (hk : r < (c.after σ k).resolutions.length) (hg : ∀ j, σ j ≠ .cancel r) :
    ∃ j, (c.after σ j).outcome? r = some (.ok n)

/-! The order in the queues. -/

/-- The resolution is in the queue, behind some of the others at most. -/
def Behind (c : Client) (i : SessionId) (j : Nat) (others : List ResolutionId)
    (r : ResolutionId) : Prop :=
  ∃ slot before after, c.slot? i j = some slot ∧ slot.queue = before ++ r :: after ∧
    before.Sublist others

theorem Behind.extend (h : c.Behind i j others r) (hd : c.Extends d) : d.Behind i j others r := by
  obtain ⟨slot, before, after, hs, hq, hsub⟩ := h
  exact ⟨slot, before, after, hd.kept hs, hq, hsub⟩

theorem Behind.join (h : c.Behind i j others r) (q : ResolutionId) (x : Resolution) :
    (c.join q x).Behind i j others r := by
  obtain ⟨slot, before, after, hs, hq, hsub⟩ := h
  rw [Behind, slot?_join]
  split
  · refine ⟨_, before, after ++ [q], congrArg (Option.map _) hs, ?_, hsub⟩
    have hlast : slot.queue ++ [q] = before ++ r :: (after ++ [q]) := by
      rw [hq, List.append_assoc, List.cons_append]
    exact hlast
  · exact ⟨slot, before, after, hs, hq, hsub⟩

theorem Behind.leave (h : c.Behind i j others r) (hrq : q ≠ r)
    {fill : Option AdapterId → Option AdapterId} (hd : Leaves q x fill c d) :
    d.Behind i j others r := by
  obtain ⟨slot, before, after, hs, hq, hsub⟩ := h
  rw [Behind, hd]
  split
  · refine ⟨_, before.filter (· != q), after.filter (· != q), congrArg (Option.map _) hs, ?_,
      List.filter_sublist.trans hsub⟩
    have hleft : slot.queue.filter (· != q) =
        before.filter (· != q) ++ r :: after.filter (· != q) := by
      rw [hq, List.filter_append, List.filter_cons_of_pos (p := (· != q))]
      exact bne_iff_ne.2 (Ne.symm hrq)
    exact hleft
  · exact ⟨slot, before, after, hs, hq, hsub⟩

/-- Nobody gets ahead of a resolution that waits. -/
theorem Behind.move (h : c.Behind i j others r) (hm : Move q renews c d)
    (ho : d.outcome? r = none) : d.Behind i j others r := by
  have hne : ∀ {x : Resolution} {outcome : Except Error AdapterId}, c.resolutions[q]? = some x →
      d.resolutions = c.resolutions.set q { x with stage := .answered outcome } → q ≠ r := by
    rintro x outcome hx hd rfl
    have hanswered := hd ▸ List.getElem?_set_self (List.getElem?_eq_some_iff.1 hx).1
    rw [outcome?_eq_some.2 ⟨_, hanswered, rfl⟩] at ho
    exact absurd ho nofun
  cases hm with
  | cached | begun | arrived | called => exact h
  | counted l count => exact h.extend (c.extends_counted l count)
  | renewed l hl closed => exact h.extend (c.extends_renewed l closed)
  | queued hx hp hslot => exact h.join q _
  | answered hx hw ho => exact h.leave (hne hx rfl) (leaves_answer _ q _ _)
  | abandoned hx hp => exact h.leave (hne hx rfl) (leaves_answer _ q _ _)
  | made make hx hw hs hl => exact h.leave (hne hx rfl) (leaves_made make _ _ c q _)

theorem Behind.moves (h : c.Behind i j others r) (hm : Moves q renews c d)
    (ho : d.outcome? r = none) : d.Behind i j others r := by
  induction hm with
  | refl => exact h
  | tail hm hlast ih =>
    refine (ih (Option.eq_none_iff_forall_ne_some.2 fun o hanswer => ?_)).move hlast ho
    obtain ⟨x, hx, hp⟩ := outcome?_eq_some.1 hanswer
    obtain ⟨y, hy, hl⟩ := hlast.change.later hx
    exact absurd (ho.symm.trans (outcome?_eq_some.2 ⟨y, hy, hl.answered hp⟩)) nofun

theorem Behind.member (h : c.Behind i j others r) (hc : c.Lined) :
    ∃ x, c.resolutions[r]? = some x ∧ x.session = i ∧ x.slot = j ∧ x.InLine := by
  obtain ⟨slot, before, after, hs, hq, -⟩ := h
  exact hc.member i j slot hs r (hq ▸ List.mem_append_right _ List.mem_cons_self)

/-! Schedules. -/

theorem Reachable.after (h : c.Reachable) (σ : ℕ → Event) (k : ℕ) : (c.after σ k).Reachable := by
  induction k with
  | zero => exact h
  | succ k ih => exact ih.step (σ k)

theorem after_eq_run (c : Client) (σ : ℕ → Event) (k : ℕ) :
    c.after σ k = c.run ((List.range k).map σ) := by
  induction k with
  | zero => rfl
  | succ k ih =>
    rw [List.range_succ, List.map_append, Client.after, ih, run, run, List.foldl_append]
    rfl

theorem Reachable.outcome?_after (h : c.Reachable)
    (ho : (c.after σ k).outcome? r = some outcome) (hkj : k ≤ j) :
    (c.after σ j).outcome? r = some outcome := by
  induction j, hkj using Nat.le_induction with
  | base => exact ho
  | succ j _ ih => exact (h.after σ j).orderly.outcome?_run [σ j] ih

theorem Reachable.length_le_after (h : c.Reachable) (σ : ℕ → Event) (hkj : k ≤ j) :
    (c.after σ k).resolutions.length ≤ (c.after σ j).resolutions.length := by
  induction j, hkj using Nat.le_induction with
  | base => exact le_rfl
  | succ j _ ih =>
    refine ih.trans (le_of_forall_lt fun r hr => ?_)
    obtain ⟨y, hy, -⟩ := (h.after σ j).orderly.later_step (σ j) (List.getElem?_eq_getElem hr)
    exact (List.getElem?_eq_some_iff.1 hy).1

theorem Ready.healthy (h : c.Ready s) : c.Healthy s where
  orderly := h.reachable.orderly
  session i t ht := by
    rw [h.alone, List.getElem?_singleton] at ht
    split at ht
    next hi =>
      obtain rfl := Option.some.inj ht
      exact ⟨hi, rfl, h.isOpen⟩
    next => exact absurd ht nofun
  canAsk := h.canAsk
  supplied := by
    have hc := h.reachable.orderly
    obtain ⟨events, hrun⟩ := hc.history
    refine ⟨hc.coherent.toRegistered, ?_, ?_, fun a x hx => ?_, h.usable⟩
    · exact hrun ▸ MetadataCache.gated_run events
    · exact hrun ▸ MetadataCache.placed_run events
    · obtain ⟨i, t, ht, hk⟩ := h.reachable.keyed a x hx
      rw [h.alone, List.getElem?_singleton] at ht
      split at ht
      · exact Option.some.inj ht ▸ hk
      · exact absurd ht nofun
  building r x k hx hp := absurd (Resolution.waits_of_stage hp fun _ => nofun) (h.idle r x hx)

theorem Reachable.behind_after (h : c.Reachable) (hb : (c.after σ k).Behind i l others r)
    (hnone : ∀ j, (c.after σ j).outcome? r = none) (hkj : k ≤ j) :
    (c.after σ j).Behind i l others r := by
  induction j, hkj using Nat.le_induction with
  | base => exact hb
  | succ j _ ih => exact ih.moves ((h.after σ j).orderly.moves_step (σ j)) (hnone (j + 1))

theorem Reachable.pending_after (h : c.Reachable)
    (hx : ∃ x, (c.after σ k).resolutions[r]? = some x ∧ x.stage ≠ .entered)
    (hnone : ∀ j, (c.after σ j).outcome? r = none) (hkj : k ≤ j) :
    ∃ x, (c.after σ j).resolutions[r]? = some x ∧ x.Pending := by
  obtain ⟨x, hx, hn⟩ : ∃ x, (c.after σ j).resolutions[r]? = some x ∧ x.stage ≠ .entered := by
    induction j, hkj using Nat.le_induction with
    | base => exact hx
    | succ j _ ih =>
      obtain ⟨x, hx, hn⟩ := ih
      obtain ⟨y, hy, hl⟩ := (h.after σ j).orderly.later_step (σ j) hx
      exact ⟨y, hy, (hl.slot hn).1⟩
  exact ⟨x, hx, waits_of_outcome? hx (hnone j), hn⟩

/-- Whoever has its turn to read the slot has read it then. -/
theorem Orderly.look_leaves (h : c.Orderly) (hx : c.resolutions[r]? = some x) :
    ∃ y, (c.look r).resolutions[r]? = some y ∧ y.stage ≠ .entered := by
  by_cases hp : x.stage = .entered
  · obtain ⟨j, hj⟩ := h.housed r x hx
    obtain ⟨t, ht, -⟩ := Option.map_eq_some_iff.1 hj
    unfold look
    simp only [hx, hp, ht]
    exact ⟨_, List.getElem?_set_self (List.getElem?_eq_some_iff.1 hx).1, nofun⟩
  · rw [look_of_stage hx hp]
    exact ⟨x, hx, hp⟩

/-- Whoever waits came since the schedule began. -/
theorem Ready.le_of_waits (h : c.Ready s) (hx : (c.after σ k).resolutions[r]? = some x)
    (hw : x.Waits) : c.resolutions.length ≤ r := by
  by_contra hr
  have hold := List.getElem?_eq_getElem (not_le.1 hr)
  obtain ⟨outcome, hp⟩ := not_forall_not.1 (h.idle r _ hold)
  have hanswer : (c.after σ 0).outcome? r = some outcome := outcome?_eq_some.2 ⟨_, hold, hp⟩
  have hlater := h.reachable.outcome?_after hanswer (Nat.zero_le k)
  exact absurd (hlater.symm.trans (not_outcome?_of_waits hx hw)) nofun

section Favoured

variable (h : c.Ready s) (hσ : ∀ k, (σ k).Favours s.settings.loader)

include h hσ

theorem Ready.healthy_after (k : ℕ) : (c.after σ k).Healthy s := by
  induction k with
  | zero => exact h.healthy
  | succ k ih => exact ih.step (hσ k)

theorem Ready.course :
    MetadataCache.Course (fun k => (c.after σ k).cache) s.key s.settings.loader where
  start := h.healthy.supplied
  step k := by
    rcases (h.healthy_after hσ k).cache_step (hσ k) with ⟨events, hevents, hrun⟩ |
      ⟨r, x, l, -, -, -, hcache⟩
    · exact ⟨events, fun event hmem => (hevents event hmem).1, hrun⟩
    · refine ⟨[.abandon l], fun event hmem => ?_, hcache⟩
      rw [List.mem_singleton.1 hmem]
      trivial

theorem Ready.requests (k : ℕ) :
    (c.after σ k).cache.started.length ≤ c.cache.started.length + 1 :=
  ((h.course hσ).within ⟨Nat.le_succ _, .inr le_rfl⟩ k).most

theorem Ready.answered (hr : c.resolutions.length ≤ r)
    (ho : (c.after σ k).outcome? r = some outcome) :
    (∃ n, outcome = .ok n) ∨
      outcome = .error .cancelled ∧ ∃ j < k, σ j = .cancel r := by
  induction k with
  | zero =>
    obtain ⟨x, hx, -⟩ := outcome?_eq_some.1 ho
    exact absurd (List.getElem?_eq_some_iff.1 hx).1 hr.not_gt
  | succ k ih =>
    cases hb : (c.after σ k).outcome? r with
    | some o =>
      have hsame := h.reachable.outcome?_after hb (Nat.le_succ k)
      rcases ih (hb.trans (hsame.symm.trans ho)) with hok | ⟨herr, j, hj, hgives⟩
      · exact .inl hok
      · exact .inr ⟨herr, j, hj.trans (Nat.lt_succ_self k), hgives⟩
    | none =>
      rcases (h.healthy_after hσ k).answered_step hb (hσ k) ho with hok | ⟨herr, hgives⟩
      · exact .inl hok
      · exact .inr ⟨herr, k, Nat.lt_succ_self k, hgives⟩

theorem Ready.one_adapter (k : ℕ) : OneAdapter c (c.after σ k) 0 := by
  rw [after_eq_run]
  refine one_adapter_of_newest h.reachable (fun event hmem => ?_) fun r x hx _ hw =>
    absurd hw.waits (h.idle r x hx)
  obtain ⟨j, -, rfl⟩ := List.mem_map.1 hmem
  exact not_renews_of_favours (hσ j) 0

theorem Ready.given (hr : c.resolutions.length ≤ r)
    (ho : (c.after σ k).outcome? r = some (.ok n)) : ∃ j, Given c (c.after σ k) 0 j r n := by
  have hk := h.healthy_after hσ k
  obtain ⟨x, hx, hp⟩ := outcome?_eq_some.1 ho
  obtain ⟨slot, hslot, -⟩ := hk.orderly.has r x n hx hp
  obtain ⟨t, ht, -⟩ := slot?_eq_some.1 hslot
  refine ⟨x.slot, Option.eq_none_iff_forall_ne_some.2 fun o ho => ?_, x, hx,
    (hk.session _ t ht).1, rfl, hp⟩
  obtain ⟨y, hy, -⟩ := outcome?_eq_some.1 ho
  exact absurd (List.getElem?_eq_some_iff.1 hy).1 hr.not_gt

/-- Everybody is given the same adapter. -/
theorem Ready.same (hr : c.resolutions.length ≤ r) (hq : c.resolutions.length ≤ q)
    (hn : (c.after σ k).outcome? r = some (.ok n)) (hm : (c.after σ j).outcome? q = some (.ok m)) :
    n = m := by
  obtain ⟨l, hl⟩ := h.given hσ hr (h.reachable.outcome?_after hn (le_max_left k j))
  obtain ⟨l', hl'⟩ := h.given hσ hq (h.reachable.outcome?_after hm (le_max_right k j))
  exact (h.one_adapter hσ _).same hl hl'

/-- Whoever makes the adapter makes it after all. -/
theorem Ready.eventually_built (hf : Fair c σ) (he : ∃ x l a, (c.after σ k).Expects s r x l a) :
    ∃ j, (c.after σ j).outcome? r ≠ none := by
  by_contra hnever
  obtain ⟨x, l, a, he⟩ := he
  have hexpects : ∀ j, k ≤ j → (c.after σ j).Expects s r x l a := by
    intro j hkj
    induction j, hkj using Nat.le_induction with
    | base => exact he
    | succ j _ ih =>
      exact (h.healthy_after hσ j).expects_step (hσ j) ih (not_not.1 (not_exists.1 hnever (j + 1)))
  have hcourse := h.course hσ
  have hturns : MetadataCache.Course.Fair fun k => (c.after σ k).cache := fun b hb =>
    (hf.advanced b hb).mono fun j ⟨result, hj⟩ =>
      ⟨result, congrArg (fun event => ((c.after σ j).step event).cache) hj⟩
  obtain ⟨j, hkj, hended⟩ := hcourse.eventually_ended hturns he.promises
  have hpolled := hf.polled r ⟨k, (List.getElem?_eq_some_iff.1 he.stored).1⟩
  obtain ⟨m, hm, hjm⟩ := (hpolled.and_eventually (Filter.eventually_ge_atTop j)).exists
  rcases (h.healthy_after hσ m).progress_expects (hexpects m (hkj.trans hjm)) with
    ⟨-, n, hn⟩ | ⟨hlasts, -⟩
  · have hstep : c.after σ (m + 1) = (c.after σ m).progress r := congrArg (Client.step _) hm
    exact hnever ⟨m + 1, fun hnone => absurd ((hstep ▸ hnone).symm.trans hn) nofun⟩
  · exact hlasts (hcourse.ended hended hjm)

/-- Whoever is the first in the queue is answered some time. -/
theorem Ready.eventually_front (hf : Fair c σ) (hb : (c.after σ k).Behind i l [] r) :
    ∃ j, (c.after σ j).outcome? r ≠ none := by
  by_contra hnever
  have hnone : ∀ j, (c.after σ j).outcome? r = none := fun j => not_not.1 (not_exists.1 hnever j)
  obtain ⟨x, hx, -⟩ := hb.member (h.reachable.after σ k).orderly.toLined
  have hcomes : ∃ k, r < (c.after σ k).resolutions.length :=
    ⟨k, (List.getElem?_eq_some_iff.1 hx).1⟩
  obtain ⟨j, hpoll, hkj⟩ :=
    ((hf.polled r hcomes).and_eventually (Filter.eventually_ge_atTop k)).exists
  have hc := h.healthy_after hσ j
  have hbehind := h.reachable.behind_after hb hnone hkj
  obtain ⟨y, hy, rfl, rfl, hline⟩ := hbehind.member hc.orderly.toLined
  refine hnever (h.eventually_built hσ hf (k := j + 1) ?_)
  rcases hline with hp | ⟨m, hp⟩
  · have hstep : c.after σ (j + 1) = (c.after σ j).takeTurn r y :=
      (congrArg (Client.step _) hpoll).trans (progress_queued hy hp)
    rcases hc.takeTurn hy hp with ⟨n, hn⟩ | ⟨m, a, he⟩ | ⟨-, slot, hslot, hhead⟩
    · exact absurd ((hstep ▸ hnone (j + 1)).symm.trans hn) nofun
    · exact ⟨_, m, a, hstep ▸ he⟩
    · obtain ⟨own, before, after, hown, hq, hsub⟩ := hbehind
      obtain rfl := Option.some.inj (hslot.symm.trans hown)
      rw [hq, List.sublist_nil.1 hsub] at hhead
      exact absurd rfl hhead
  · obtain ⟨a, hawaits, hpromises⟩ := hc.building r y m hy hp
    exact ⟨y, m, a, hc.expects_step (hσ j) ⟨hy, hp, hawaits, hpromises⟩ (hnone (j + 1))⟩

/-- So is whoever is behind some others, since they are answered first. -/
theorem Ready.eventually_passed (hf : Fair c σ) (hb : (c.after σ k).Behind i l others r) :
    ∃ j, (c.after σ j).outcome? r ≠ none := by
  induction others generalizing k with
  | nil => exact h.eventually_front hσ hf hb
  | cons q rest ih =>
    by_contra hnever
    have hnone : ∀ j, (c.after σ j).outcome? r = none := fun j =>
      not_not.1 (not_exists.1 hnever j)
    have hrest : ∀ {j slot before after}, (c.after σ j).slot? i l = some slot →
        slot.queue = before ++ r :: after → ¬ before.Sublist rest := fun hs hq hsub =>
      hnever (ih ⟨_, _, _, hs, hq, hsub⟩)
    obtain ⟨slot, before, after, hs, hq, hsub⟩ := id hb
    rcases List.sublist_cons_iff.1 hsub with hsub | ⟨between, rfl, -⟩
    · exact hrest hs hq hsub
    · obtain ⟨j, hj⟩ := h.eventually_front hσ hf (r := q)
        ⟨slot, [], between ++ r :: after, hs, hq, List.Sublist.refl _⟩
      obtain ⟨outcome, ho⟩ := Option.ne_none_iff_exists'.1 hj
      have hanswered := h.reachable.outcome?_after ho (le_max_left j k)
      obtain ⟨slot', before', after', hs', hq', hsub'⟩ :=
        h.reachable.behind_after hb hnone (le_max_right j k)
      rcases List.sublist_cons_iff.1 hsub' with hsub' | ⟨between', rfl, -⟩
      · exact hrest hs' hq' hsub'
      · -- who was answered is in no queue
        have hc := (h.reachable.after σ (max j k)).orderly
        obtain ⟨x, hx, -, -, hl⟩ := hc.member i l slot' hs' q (hq' ▸ List.mem_cons_self)
        exact absurd (hanswered.symm.trans (not_outcome?_of_waits hx hl.pending.waits)) nofun

/-- Everybody reads the slot some time, is polled and joins the queue. -/
theorem Ready.eventually_answered (hf : Fair c σ) (r : ResolutionId)
    (hr : ∃ k, r < (c.after σ k).resolutions.length) :
    ∃ j, (c.after σ j).outcome? r ≠ none := by
  by_contra hnever
  have hnone : ∀ j, (c.after σ j).outcome? r = none := fun j => not_not.1 (not_exists.1 hnever j)
  obtain ⟨k, hk⟩ := id hr
  obtain ⟨j, hlook, hkj⟩ :=
    ((hf.looked r hr).and_eventually (Filter.eventually_ge_atTop k)).exists
  have hlt := hk.trans_le (h.reachable.length_le_after σ hkj)
  have hlooked : ∃ x, (c.after σ (j + 1)).resolutions[r]? = some x ∧ x.stage ≠ .entered := by
    have hstep : c.after σ (j + 1) = (c.after σ j).look r := congrArg (Client.step _) hlook
    rw [hstep]
    exact (h.reachable.after σ j).orderly.look_leaves (List.getElem?_eq_getElem hlt)
  obtain ⟨m, hpoll, hjm⟩ :=
    ((hf.polled r hr).and_eventually (Filter.eventually_ge_atTop (j + 1))).exists
  obtain ⟨x, hx, hpending⟩ := h.reachable.pending_after hlooked hnone hjm
  have hstep : c.after σ (m + 1) = (c.after σ m).progress r := congrArg (Client.step _) hpoll
  rcases (h.healthy_after hσ m).polled hx hpending with ⟨n, hn⟩ | he | hqueued
  · exact absurd ((hstep ▸ hnone (m + 1)).symm.trans hn) nofun
  · exact hnever (h.eventually_built hσ hf (k := m + 1) (hstep ▸ he))
  · rw [← hstep] at hqueued
    have hc := (h.reachable.after σ (m + 1)).orderly
    obtain ⟨slot, hslot, hmem⟩ := hc.placed r _ hqueued (.inl rfl)
    obtain ⟨before, after, hq⟩ := List.append_of_mem hmem
    exact hnever (h.eventually_passed hσ hf ⟨slot, before, after, hslot, hq, List.Sublist.refl _⟩)

theorem Ready.shares : ∃ n, Shares c σ n := by
  -- if nobody is ever given an adapter then any will do
  obtain ⟨n, hn⟩ : ∃ n, ∀ (k : ℕ) (r : ResolutionId) (m : AdapterId), c.resolutions.length ≤ r →
      (c.after σ k).outcome? r = some (.ok m) → m = n := by
    by_cases hg : ∃ (k : ℕ) (r : ResolutionId) (n : AdapterId), c.resolutions.length ≤ r ∧
        (c.after σ k).outcome? r = some (.ok n)
    · obtain ⟨j, q, n, hq, hn⟩ := hg
      exact ⟨n, fun k r m hr hm => h.same hσ hr hq hm hn⟩
    · exact ⟨0, fun k r m hr hm => absurd ⟨k, r, m, hr, hm⟩ hg⟩
  refine ⟨n, h.requests hσ, fun k => (h.one_adapter hσ k).made, fun k r outcome hr ho => ?_,
    fun k r x hx hl he => ?_, fun k r x slot hx hp hs he => ?_, fun hf k r hr hk hg => ?_⟩
  · rcases h.answered hσ hr ho with ⟨m, rfl⟩ | hgives
    · exact .inl (congrArg _ (hn k r m hr ho))
    · exact .inr hgives
  · exact (congrArg (fun event => ((c.after σ k).step event).outcome? r) he).trans
      (cancel_inLine hx hl)
  · have hanswer : (c.after σ (k + 1)).outcome? r =
        some (slot.adapter.elim (.error .cancelled) .ok) :=
      (congrArg (fun event => ((c.after σ k).step event).outcome? r) he).trans
        (cancel_arrived hx hp hs)
    cases ha : slot.adapter with
    | none => rw [hanswer, ha]; rfl
    | some m =>
      have hwaits := Resolution.waits_of_stage hp fun _ => nofun
      rw [ha] at hanswer
      rw [hanswer, ← hn (k + 1) r m (h.le_of_waits hx hwaits) hanswer]
      rfl
  · obtain ⟨j, hj⟩ := h.eventually_answered hσ hf r ⟨k, hk⟩
    obtain ⟨outcome, ho⟩ := Option.ne_none_iff_exists'.1 hj
    rcases h.answered hσ hr ho with ⟨m, rfl⟩ | ⟨-, l, -, hgives⟩
    · exact ⟨j, hn j r m hr ho ▸ ho⟩
    · exact absurd hgives (hg l)

end Favoured

def turnOf (kind a : ℕ) : Event :=
  match kind with
  | 0 => .look a
  | 1 => .progress a
  | _ => .advance a (some (.ok ⟨"", ["4.0"]⟩))

/-- Every resolution and every attempt has its turns infinitely often. -/
def turn (k : ℕ) : Event := turnOf (k.unpair.1 % 3) (k.unpair.1 / 3)

/-- Two callers come, and the first of them gives up. -/
def twoCallers : List Event :=
  [.enter 0, .look 0, .progress 0, .enter 0, .look 1, .progress 1, .cancel 0]

def firstGivesUp (k : ℕ) : Event := (twoCallers[k]?).getD (turn (k - 7))

theorem firstGivesUp_cases (k : ℕ) :
    firstGivesUp k ∈ twoCallers ∨ ∃ j, firstGivesUp k = turn j := by
  rw [firstGivesUp]
  cases he : twoCallers[k]? with
  | none => exact .inr ⟨k - 7, rfl⟩
  | some event => exact .inl (List.mem_of_getElem? he)

theorem firstGivesUp_add (k : ℕ) : firstGivesUp (k + 7) = turn k := by
  have hlength : twoCallers.length ≤ k + 7 := Nat.le_add_left 7 k
  rw [firstGivesUp, List.getElem?_eq_none hlength, Nat.add_sub_cancel]
  rfl

theorem turn_pair (a : ℕ) {kind : ℕ} (hk : kind < 3) (j : ℕ) :
    turn (Nat.pair (3 * a + kind) j) = turnOf kind a := by
  have hmod : (3 * a + kind) % 3 = kind := by omega
  have hdiv : (3 * a + kind) / 3 = a := by omega
  rw [turn, Nat.unpair_pair, hmod, hdiv]

theorem yields_northwind :
    MetadataCache.Yields northwindSettings.loader (some (.ok ⟨"", ["4.0"]⟩)) :=
  fun _ hresult => ⟨⟨"", ["4.0"]⟩, (Option.some.inj hresult).symm, ⟨_, rfl⟩, _, rfl⟩

theorem favours_firstGivesUp (k : ℕ) : (firstGivesUp k).Favours northwindSettings.loader := by
  rcases firstGivesUp_cases k with hmem | ⟨j, hj⟩
  · generalize firstGivesUp k = event at hmem
    simp only [twoCallers, List.mem_cons, List.not_mem_nil, or_false] at hmem
    rcases hmem with rfl | rfl | rfl | rfl | rfl | rfl | rfl <;> trivial
  · rw [hj]
    unfold turn turnOf
    split
    · trivial
    · trivial
    · exact yields_northwind

theorem frequently_turn (a kind : ℕ) (hk : kind < 3) :
    ∃ᶠ k in Filter.atTop, firstGivesUp k = turnOf kind a := by
  refine Filter.frequently_atTop.2 fun j => ⟨Nat.pair (3 * a + kind) j + 7, ?_, ?_⟩
  · exact (Nat.right_le_pair _ j).trans (Nat.le_add_right _ 7)
  · rw [firstGivesUp_add, turn_pair a hk]

theorem fair_firstGivesUp : Fair opened firstGivesUp where
  looked r _ := frequently_turn r 0 (by decide)
  polled r _ := frequently_turn r 1 (by decide)
  advanced a _ := (frequently_turn a 2 (by decide)).mono fun _ hk => ⟨_, hk⟩

theorem ready_opened : opened.Ready (.new northwindSettings none true) where
  reachable := reachable_opened
  alone := rfl
  isOpen := rfl
  idle _ _ hx := absurd hx nofun
  canAsk := rfl
  usable _ he := absurd he nofun

theorem ne_cancel_firstGivesUp (k : ℕ) : firstGivesUp k ≠ .cancel 1 := by
  rcases firstGivesUp_cases k with hmem | ⟨j, hj⟩
  · rintro he
    rw [he] at hmem
    simp [twoCallers] at hmem
  · rw [hj]
    unfold turn turnOf
    split <;> exact nofun

theorem firstGivesUp_shares : ∃ n,
    (opened.after firstGivesUp 7).outcome? 0 = some (.error .cancelled) ∧
      ∃ j, (opened.after firstGivesUp j).outcome? 1 = some (.ok n) := by
  obtain ⟨n, hn⟩ := ready_opened.shares favours_firstGivesUp
  exact ⟨n, hn.cancelled 6 0 ⟨0, 0, .building 0⟩ rfl (.inr ⟨0, rfl⟩) rfl,
    hn.received fair_firstGivesUp 6 1 (Nat.zero_le 1) (by decide +kernel) ne_cancel_firstGivesUp⟩

/-- A caller is given the adapter that was made, and another comes and reads the slot. -/
def servedOnce : List Event :=
  [.enter 0, .look 0, .progress 0, .advance 0 (some (.ok ⟨"", ["4.0"]⟩)), .progress 0, .enter 0,
    .look 1]

theorem servedOnce_early :
    let c := opened.run servedOnce
    (∀ event ∈ servedOnce, event.Favours northwindSettings.loader) ∧
      (c.resolutions[1]?).map Resolution.stage = some .arrived ∧
      ¬ ∀ r x, c.resolutions[r]? = some x → x.Pending →
        (c.cancel r).outcome? r = some (.error .cancelled) := by
  refine ⟨fun event hmem => ?_, rfl, fun hcancelled => ?_⟩
  · simp only [servedOnce, List.mem_cons, List.not_mem_nil, or_false] at hmem
    rcases hmem with rfl | rfl | rfl | rfl | rfl | rfl | rfl
    all_goals first | trivial | exact yields_northwind
  · have hpending : (⟨0, 0, .arrived⟩ : Resolution).Pending :=
      Resolution.pending_of_stage rfl (fun _ => nofun) nofun
    exact absurd (hcancelled 1 _ rfl hpending) (by decide +kernel)

end Client

end ODataClient
