import ODataClient.Proofs.Cache.Abandoning
import ODataClient.Proofs.Cache.Coherence

/-! What a call is for. The attempt that a call joins is one for its key, and so is the entry that
it is answered with. -/

namespace ODataClient

namespace MetadataCache

variable {c d : MetadataCache} {i : CallId} {key : String}

/-- The call is for the key, and so is whatever it came to. -/
structure Concerns (c : MetadataCache) (i : CallId) (key : String) : Prop where
  called : i < c.calls.length
  joined (a : AttemptId) (h : c.calls[i]? = some (.joined a)) :
    ∃ x, c.attempts[a]? = some x ∧ x.key = key
  entry (e : EntryId) (h : c.calls[i]? = some (.answered (.ok e))) : c.IsEntry key e

theorem Concerns.frame (h : c.Concerns i key) (event : Event)
    (hi : (c.step event).calls[i]? = c.calls[i]?) : (c.step event).Concerns i key where
  called := h.called.trans_le (length_calls_step c event)
  joined a ha := by
    obtain ⟨x, hx, hk⟩ := h.joined a (hi ▸ ha)
    obtain ⟨y, hy, hl⟩ := later_step event hx
    exact ⟨y, hy, hl.key.trans hk⟩
  entry e he := (h.entry e (hi ▸ he)).step event

theorem Concerns.step (h : c.Concerns i key) (hc : c.Filed) (event : Event) :
    (c.step event).Concerns i key := by
  by_cases hs : event.SparesCalls
  · exact h.frame event (by rw [calls_step hs])
  · cases event with
    | add | advance | clear | clearAll | bind => exact absurd trivial hs
    | call k =>
      refine h.frame (.call k) ?_
      rw [step_call]
      rcases c.call_cases k with ⟨_, _, hq⟩ | ⟨_, _, _, hq⟩ | ⟨_, _, hq⟩ <;> rw [hq] <;>
        exact List.getElem?_append_left h.called
    | hear j =>
      rcases c.hear_cases j with hq | ⟨a, x, outcome, hj, hx, hp, hq⟩
      · exact h.frame (.hear j) (by rw [step_hear, hq])
      · by_cases hij : j = i
        · subst hij
          rw [step_hear, hq]
          have hnow : (c.calls.set j (.answered outcome))[j]? = some (.answered outcome) :=
            List.getElem?_set_self h.called
          refine ⟨h.called.trans_eq List.length_set.symm, fun b hb => ?_, fun e he => ?_⟩
          · exact absurd (hnow.symm.trans hb) nofun
          · obtain ⟨y, hy, hk⟩ := h.joined a hj
            obtain rfl := Option.some.inj (hx.symm.trans hy)
            have ho := CallState.answered.inj (Option.some.inj (hnow.symm.trans he))
            exact hk ▸ hc.ended_entry a x e hx (hp.trans (congrArg _ ho))
        · exact h.frame (.hear j) (by rw [step_hear, hq]; exact List.getElem?_set_ne hij)
    | abandon j =>
      by_cases hij : j = i
      · subst hij
        have hnow : (c.abandon j).calls[j]? = some .abandoned := List.getElem?_set_self h.called
        refine ⟨h.called.trans_eq List.length_set.symm, fun b hb => ?_, fun e he => ?_⟩
        · exact absurd (hnow.symm.trans hb) nofun
        · exact absurd (hnow.symm.trans he) nofun
      · exact h.frame (.abandon j) (List.getElem?_set_ne hij)

theorem Concerns.run (h : c.Concerns i key) (hc : c.Coherent) (events : List Event) :
    (c.run events).Concerns i key := by
  have hrun : (c.run events).Concerns i key ∧ (c.run events).Coherent :=
    run_induction (P := fun d => d.Concerns i key ∧ d.Coherent) ⟨h, hc⟩ fun d hd event _ =>
      ⟨hd.1.step hd.2.toFiled event, hd.2.step event⟩
  exact hrun.1

theorem concerns_call (h : c.Coherent) (key : String) :
    (c.call key).Concerns c.calls.length key := by
  have hcalls : ∀ t : CallState, (c.calls ++ [t])[c.calls.length]? = some t := fun t =>
    List.getElem?_concat_length
  have hlength : ∀ t : CallState, c.calls.length < (c.calls ++ [t]).length := fun t =>
    (List.getElem?_eq_some_iff.1 (hcalls t)).1
  rcases c.call_cases key with ⟨e, hm, hq⟩ | ⟨a, hm, hf, hq⟩ | ⟨hm, hf, hq⟩ <;> rw [hq]
  · refine ⟨hlength _, fun a ha => absurd ((hcalls _).symm.trans ha) nofun, fun e' he => ?_⟩
    have hee := CallState.answered.inj (Option.some.inj ((hcalls _).symm.trans he))
    exact Except.ok.inj hee ▸ h.cached_entry key e hm
  · refine ⟨hlength _, fun b hb => ?_, fun e he => absurd ((hcalls _).symm.trans he) nofun⟩
    obtain rfl := CallState.joined.inj (Option.some.inj ((hcalls _).symm.trans hb))
    obtain ⟨x, hx, hk, -⟩ := (h.inFlight_iff key a).1 hf
    exact ⟨x, hx, hk⟩
  · refine ⟨hlength _, fun b hb => ?_, fun e he => absurd ((hcalls _).symm.trans he) nofun⟩
    obtain rfl := CallState.joined.inj (Option.some.inj ((hcalls _).symm.trans hb))
    exact ⟨_, List.getElem?_concat_length, rfl⟩

end MetadataCache

end ODataClient
