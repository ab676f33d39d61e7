import ODataClient.Proofs.Cache.Cached

/-! What callers are told. Once a call was answered with an entry of a key, the key keeps that
entry and every later answer is that entry, until the key is cleared, in exactly these runs: no
fetch that began before the key was cached ends after it was, and no caller who waited for an
attempt that ended before the key was cleared hears of it only afterwards. -/

namespace ODataClient

namespace MetadataCache

/-- What callers do, and what happens in between. Looking an entry up changes nothing. -/
inductive Action
  | get (key : String)
  | event (event : Event)

namespace Action

def event? : Action → Option Event
  | .get _ => none
  | .event ev => some ev

def Clears (key : String) : Action → Prop
  | .get _ => False
  | .event ev => ev.Clears key

def Overwrites (c : MetadataCache) (key : String) : Action → Prop
  | .get _ => False
  | .event ev => c.Overwrites key ev

end Action

def happened (history : List Action) : List Event := history.filterMap Action.event?

def after (history : List Action) : MetadataCache := run .empty (happened history)

/-- The action answers a caller who asked for the key with the entry. -/
inductive Answered (c : MetadataCache) (key : String) (e : EntryId) : Action → Prop
  | got (h : c.get? key = some e) : Answered c key e (.get key)
  | added {produced : Except Error MetadataDocument} (h : (c.add key produced).1 = .ok e) :
      Answered c key e (.event (.add key produced))
  | called (h : (c.call key).calls[c.calls.length]? = some (.answered (.ok e))) :
      Answered c key e (.event (.call key))
  | heard {i : CallId} {a : AttemptId} {x : Attempt} (hi : c.calls[i]? = some (.joined a))
      (hx : c.attempts[a]? = some x) (hk : x.key = key)
      (h : (c.hear i).calls[i]? = some (.answered (.ok e))) : Answered c key e (.event (.hear i))

/-- A caller hears of an attempt which had ended with an entry before the key was cleared. -/
def HeardLate (history : List Action) (key : String) (action : Action) : Prop :=
  ∃ (i : CallId) (a : AttemptId) (x : Attempt) (e : EntryId) (before rest : List Event)
    (clearing : Event), action = .event (.hear i) ∧
    (after history).calls[i]? = some (.joined a) ∧
    happened history = before ++ clearing :: rest ∧ clearing.Clears key ∧
    (run .empty before).attempts[a]? = some x ∧ x.key = key ∧ x.phase = .ended (.ok e)

/-- From the history on, the key has the entry, and callers get it. -/
def Keeps (key : String) (e : EntryId) (history : List Action) : List Action → Prop
  | [] => (after history).get? key = some e
  | action :: later => (after history).get? key = some e ∧
      (∀ e', (after history).Answered key e' action → e' = e) ∧
      Keeps key e (history ++ [action]) later

def Undisturbed (key : String) (history : List Action) : List Action → Prop
  | [] => True
  | action :: later => ¬ action.Overwrites (after history) key ∧ ¬ HeardLate history key action ∧
      Undisturbed key (history ++ [action]) later

variable {history : List Action} {action : Action} {key : String} {e : EntryId}

theorem happened_append (history : List Action) (event : Event) :
    happened (history ++ [Action.event event]) = happened history ++ [event] := by
  rw [happened, List.filterMap_append]
  rfl

theorem after_event (history : List Action) (event : Event) :
    after (history ++ [Action.event event]) = (after history).step event := by
  rw [after, happened_append, run_append]
  rfl

theorem after_get (history : List Action) (key : String) :
    after (history ++ [Action.get key]) = after history := by
  rw [after, happened, List.filterMap_append]
  exact congrArg (run .empty) (List.append_nil _)

theorem coherent_after (history : List Action) : (after history).Coherent :=
  coherent_run (happened history)

theorem Keeps.get? {later : List Action} (h : Keeps key e history later) :
    (after history).get? key = some e := by
  cases later with
  | nil => exact h
  | cons action later => exact h.1

theorem not_heardLate (h : ∀ event ∈ happened history, ¬ event.Clears key) :
    ¬ HeardLate history key action := by
  rintro ⟨i, a, x, e, before, rest, clearing, -, -, hsplit, hc, -⟩
  refine h clearing ?_ hc
  rw [hsplit]
  exact List.mem_append_right _ List.mem_cons_self

theorem Answered.unique {c : MetadataCache} {e' : EntryId} (h : c.Answered key e action)
    (h' : c.Answered key e' action) : e = e' := by
  cases h with
  | got h =>
    obtain ⟨h'⟩ := h'
    exact Option.some.inj (h.symm.trans h')
  | added h =>
    obtain _ | h' := h'
    exact Except.ok.inj (h.symm.trans h')
  | called h =>
    obtain _ | _ | h' := h'
    exact Except.ok.inj (CallState.answered.inj (Option.some.inj (h.symm.trans h')))
  | heard _ _ _ h =>
    obtain _ | _ | _ | ⟨_, _, _, h'⟩ := h'
    exact Except.ok.inj (CallState.answered.inj (Option.some.inj (h.symm.trans h')))

/-- What is heard late is an entry that its key has lost. -/
theorem HeardLate.lost (h : HeardLate history key action) :
    ∃ e, (after history).Answered key e action ∧ (after history).Lost key e := by
  obtain ⟨i, a, x, e, before, rest, clearing, rfl, hi, hsplit, hc, hx, rfl, hp⟩ := h
  have hafter : after history = ((run .empty before).step clearing).run rest := by
    rw [after, hsplit, run_append]
    rfl
  have hentry : (run .empty before).IsEntry x.key e :=
    (coherent_run before).ended_entry a x e hx hp
  have hlost : ((run .empty before).step clearing).Lost x.key e := by
    refine ⟨hentry.step clearing, ?_⟩
    rw [get?_of_clears _ hc]
    exact nofun
  obtain ⟨y, hy, hl⟩ := later_step clearing hx
  obtain ⟨z, hz, hl'⟩ := later_run rest hy
  have hz' : (after history).attempts[a]? = some z := by rwa [hafter]
  have hheard := Awaits.hear (.inl hi) hz' (hl'.ended (hl.ended hp))
  refine ⟨e, .heard hi hz' ((hl'.key.trans hl.key)) hheard, ?_⟩
  rw [hafter]
  exact hlost.run rest

/-- Of the answers to a call, none is older than the last time that its key was cleared. -/
theorem Answered.get?_after (h : (after history).Answered key e action)
    (hl : ¬ HeardLate history key action) : (after (history ++ [action])).get? key = some e := by
  cases h with
  | got h =>
    rw [after_get]
    exact h
  | @added produced h =>
    rw [after_event, step_add]
    rcases (after history).add_cases key produced with ⟨e', hm, hq⟩ | ⟨_, _, hq⟩ | ⟨_, doc, hq⟩ <;>
      rw [hq] at h ⊢
    · obtain rfl := Except.ok.inj h
      exact hm
    · exact absurd h nofun
    · obtain rfl := Except.ok.inj h
      rw [get?_eq, Table.get?_set, if_pos rfl]
  | called h =>
    rw [after_event, step_call, get?_eq, cached_call]
    rcases (after history).call_cases key with ⟨e', hm, hq⟩ | ⟨_, _, _, hq⟩ | ⟨_, _, hq⟩ <;>
      rw [hq, List.getElem?_concat_length] at h
    · obtain rfl := Except.ok.inj (CallState.answered.inj (Option.some.inj h))
      exact hm
    · exact absurd h nofun
    · exact absurd h nofun
  | @heard i a x hi hx hk h =>
    rw [after_event, step_hear, get?_eq, cached_hear]
    rcases (after history).hear_cases i with hq | ⟨b, y, outcome, hj, hy, hp, hq⟩ <;> rw [hq] at h
    · exact absurd (hi.symm.trans h) nofun
    · obtain rfl := CallState.joined.inj (Option.some.inj (hi.symm.trans hj))
      obtain rfl := Option.some.inj (hx.symm.trans hy)
      rw [List.getElem?_set_self (List.getElem?_eq_some_iff.1 hi).1] at h
      obtain rfl := CallState.answered.inj (Option.some.inj h)
      rcases cleared_or_delivered hx hp with ⟨before, clearing, rest, w, hsplit, hc, hw, hpw⟩ | hd
      · obtain ⟨v, hv, hlv⟩ : ∃ v, (after history).attempts[a]? = some v ∧ w.Later v := by
          rw [after, hsplit, run_append]
          exact later_run (clearing :: rest) hw
        obtain rfl := Option.some.inj (hx.symm.trans hv)
        exact absurd ⟨i, a, w, e, before, rest, clearing, rfl, hi, hsplit, hk ▸ hc, hw,
          hlv.key.symm.trans hk, hpw⟩ hl
      · exact hk ▸ hd.1

theorem get?_after_kept (h : (after history).get? key = some e) (hc : ¬ action.Clears key)
    (ho : ¬ action.Overwrites (after history) key) :
    (after (history ++ [action])).get? key = some e := by
  cases action with
  | get k =>
    rw [after_get]
    exact h
  | event event =>
    rw [after_event]
    exact get?_step_kept h hc ho

theorem get?_after_overwritten (h : (after history).get? key = some e)
    (ho : action.Overwrites (after history) key) :
    (after (history ++ [action])).get? key ≠ some e := by
  cases action with
  | get k => exact ho.elim
  | event event =>
    rw [after_event]
    exact get?_overwritten (coherent_after history) h ho

theorem keeps_iff_undisturbed {later : List Action} (h : (after history).get? key = some e)
    (hn : ∀ action ∈ later, ¬ action.Clears key) :
    Keeps key e history later ↔ Undisturbed key history later := by
  induction later generalizing history with
  | nil => exact iff_of_true h trivial
  | cons action later ih =>
    have hlater : ∀ action ∈ later, ¬ action.Clears key := fun action ha =>
      hn action (List.mem_cons_of_mem _ ha)
    constructor
    · rintro ⟨-, hanswers, hkeeps⟩
      refine ⟨fun ho => get?_after_overwritten h ho hkeeps.get?, fun hl => ?_,
        (ih hkeeps.get? hlater).1 hkeeps⟩
      obtain ⟨e', hanswer, hlost⟩ := hl.lost
      obtain rfl := hanswers e' hanswer
      exact hlost.2 h
    · rintro ⟨ho, hl, hundisturbed⟩
      have hkept := get?_after_kept h (hn action List.mem_cons_self) ho
      refine ⟨h, fun e' hanswer => ?_, (ih hkept hlater).2 hundisturbed⟩
      exact Option.some.inj ((hanswer.get?_after hl).symm.trans hkept)

theorem answer_keeps_iff (before : List Action) {first : Action} {later : List Action}
    (hfirst : (after before).Answered key e first)
    (hlater : ∀ action ∈ later, ¬ action.Clears key) :
    Keeps key e (before ++ [first]) later ↔
      ¬ HeardLate before key first ∧ Undisturbed key (before ++ [first]) later := by
  by_cases hl : HeardLate before key first
  · refine iff_of_false (fun hkeeps => ?_) fun h => h.1 hl
    obtain ⟨e', hanswer, hlost⟩ := hl.lost
    obtain rfl := hfirst.unique hanswer
    obtain ⟨i, -, -, -, -, -, -, rfl, -⟩ := hl
    have hgone := (hlost.step (.hear i)).2
    rw [← after_event] at hgone
    exact hgone hkeeps.get?
  · rw [keeps_iff_undisturbed (hfirst.get?_after hl) hlater, and_iff_right hl]

/-- The fetch waits at the gate when the document is added, and finds it there. -/
theorem answer_keeps_added :
    Keeps "Northwind" 0
      ([.event (.call "Northwind")] ++ [.event (.add "Northwind" (.ok (.ofText "added")))])
      [.event (.advance 0 (some (.ok (.ofText "fetched")))), .event (.hear 0),
        .get "Northwind"] := by
  have hfirst : (after [.event (.call "Northwind")]).Answered "Northwind" 0
      (.event (.add "Northwind" (.ok (.ofText "added")))) := .added rfl
  refine (answer_keeps_iff [.event (.call "Northwind")] hfirst ?_).2
    ⟨not_heardLate ?_, ⟨?_, not_heardLate ?_, nofun, not_heardLate ?_, id, not_heardLate ?_,
      trivial⟩⟩
  · simp [Action.Clears, Event.Clears]
  · simp [happened, Action.event?, Event.Clears]
  · rintro ⟨-, a, x, doc, h, hx, -, -, hp⟩
    obtain ⟨rfl, -⟩ := Event.advance.inj h
    obtain rfl : (⟨"Northwind", 0, false, .starting⟩ : Attempt) = x := Option.some.inj hx
    exact absurd hp nofun
  all_goals simp [happened, Action.event?, Event.Clears]

/-- The fetch is under way when the document is added, and replaces it. -/
theorem overwritten_answer :
    let before : List Action := [.event (.call "Northwind"), .event (.advance 0 none)]
    let first : Action := .event (.add "Northwind" (.ok (.ofText "added")))
    let later : List Action := [.event (.advance 0 (some (.ok (.ofText "fetched"))))]
    (after before).Answered "Northwind" 0 first ∧
      (∀ action ∈ later, ¬ action.Clears "Northwind") ∧
      (after (before ++ first :: later)).Answered "Northwind" 1 (.get "Northwind") := by
  refine ⟨.added rfl, fun action ha => ?_, .got rfl⟩
  obtain rfl := List.mem_singleton.1 ha
  exact id

end MetadataCache

end ODataClient
