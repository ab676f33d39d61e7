import ODataClient.Proofs.Cache.Authors

/-! Fetches are shared and take turns. At most one attempt fetches at a time, a call that finds
an attempt in flight never runs a fetch of its own and is answered with what that attempt comes
to, and an attempt that failed leaves nothing behind that could keep the next call from trying
again. -/

namespace ODataClient

namespace MetadataCache

variable {c d : MetadataCache} {a b : AttemptId} {x y : Attempt} {key : String} {i : CallId}
  {event : Event} {events : List Event}

/-- The call has started no attempt. -/
def Guest (c : MetadataCache) (i : CallId) : Prop :=
  i < c.calls.length ∧ ∀ (b : AttemptId) (x : Attempt), c.attempts[b]? = some x → x.call ≠ i

theorem Guest.step (h : c.Guest i) (event : Event) : (c.step event).Guest i := by
  refine ⟨h.1.trans_le (length_calls_step c event), fun b y hy => ?_⟩
  cases hb : c.attempts[b]? with
  | none =>
    obtain ⟨-, -, -, -, he⟩ := new_attempt hb hy
    exact he ▸ h.1.ne'
  | some x =>
    obtain ⟨y', hy', hl⟩ := later_step event hb
    obtain rfl := Option.some.inj (hy.symm.trans hy')
    exact hl.call ▸ h.2 b x hb

theorem Guest.run (h : c.Guest i) (events : List Event) : (c.run events).Guest i :=
  run_induction (P := fun d => d.Guest i) h fun _ hd event _ => hd.step event

theorem Guest.not_started (h : c.Guest i) (hc : c.Accounted) : i ∉ c.started := by
  intro hi
  obtain ⟨b, x, hx, hcall⟩ := hc.started_call i hi
  exact h.2 b x hx hcall

/-- The call waits for the attempt, or has its outcome; and it has it as soon as it is polled
when the attempt has ended. -/
structure Receives (c : MetadataCache) (i : CallId) (a : AttemptId) : Prop where
  awaits : c.Awaits i a
  heard (x : Attempt) (outcome : Except Error EntryId) (hx : c.attempts[a]? = some x)
    (hp : x.phase = .ended outcome) : (c.hear i).calls[i]? = some (.answered outcome)

/-- A call for the key starts one attempt, which is then the one in flight. -/
structure StartsAttempt (c : MetadataCache) (key : String) : Prop where
  attempts : (c.call key).attempts = c.attempts ++ [⟨key, c.calls.length, false, .starting⟩]
  inFlight : (c.call key).inFlight.get? key = some c.attempts.length

structure SingleFlight (events : List Event) (c : MetadataCache) : Prop where
  one_fetches (a b : AttemptId) (x y : Attempt) (hx : c.attempts[a]? = some x)
    (hy : c.attempts[b]? = some y) (hpx : x.phase = .fetching) (hpy : y.phase = .fetching) : a = b
  shared (key : String) (a : AttemptId) (hm : c.get? key = none)
    (hf : c.inFlight.get? key = some a) (later : List Event) :
    let i := c.calls.length
    let d := (c.call key).run later
    i ∉ d.started ∧ (.abandon i ∉ later → d.Receives i a)
  failed (a : AttemptId) (x y : Attempt) (produced : Option (Except Error MetadataDocument))
    (err : Error) (hx : c.attempts[a]? = some x) (hr : x.Running)
    (hy : (c.advance a produced).attempts[a]? = some y) (hp : y.phase = .ended (.error err))
    (later : List Event) :
    let d := (c.advance a produced).run later
    some a ∉ authors .empty (events ++ .advance a produced :: later) ∧
      (∀ key, d.inFlight.get? key ≠ some a) ∧
      (.call x.key ∉ later → d.get? x.key = none → d.StartsAttempt x.key ∨
        x.cancelled = true ∧ ∃ b ≠ a, c.inFlight.get? x.key = some b ∧
          d.inFlight.get? x.key = some b)

theorem receives_shared (hm : c.get? key = none) (hf : c.inFlight.get? key = some a)
    {later : List Event} (hne : .abandon c.calls.length ∉ later) :
    ((c.call key).run later).Receives c.calls.length a := by
  have hcall : (c.call key).Awaits c.calls.length a := by
    rw [call_of_inFlight hm hf]
    exact .inl List.getElem?_concat_length
  exact ⟨hcall.run hne, fun x outcome hx hp => (hcall.run hne).hear hx hp⟩

theorem guest_shared (h : c.Coherent) (hm : c.get? key = none)
    (hf : c.inFlight.get? key = some a) : (c.call key).Guest c.calls.length := by
  rw [call_of_inFlight hm hf]
  refine ⟨?_, fun b x hx => (h.call_lt b x hx).ne⟩
  rw [List.length_append]
  exact Nat.lt_succ_self _

theorem startsAttempt_of_none (hm : c.get? key = none) (hf : c.inFlight.get? key = none) :
    c.StartsAttempt key := by
  constructor <;> rw [call_of_none hm hf]
  rw [Table.get?_set, if_pos rfl]

theorem single_flight (events : List Event) : SingleFlight events (run .empty events) where
  one_fetches a b x y hx hy hpx hpy := by
    have h := coherent_run events
    have hhead := (h.fetching_head a x hx hpx).symm.trans (h.fetching_head b y hy hpy)
    exact Option.some.inj hhead
  shared key a hm hf later := by
    have h := coherent_run events
    have hd : (((run .empty events).call key).run later).Coherent := (h.step (.call key)).run later
    exact ⟨((guest_shared h hm hf).run later).not_started hd.toAccounted,
      fun hne => receives_shared hm hf hne⟩
  failed a x y produced err hx hr hy hp later := by
    intro d
    have hc := coherent_run events
    have hd : d.Coherent := (hc.step (.advance a produced)).run later
    have hrun : run .empty (events ++ .advance a produced :: later) = d :=
      run_append .empty events (.advance a produced :: later)
    obtain ⟨z, hz, hl⟩ : ∃ z, d.attempts[a]? = some z ∧ y.Later z := later_run later hy
    have hend : z.phase = .ended (.error err) := hl.ended hp
    have hgone : ∀ key, d.inFlight.get? key ≠ some a := fun key hf =>
      ((hd.inFlight_iff key a).1 hf).running hz _ hend
    refine ⟨not_author (by rw [hrun]; exact hz) fun e he => ?_, hgone, fun hne hm => ?_⟩
    · exact absurd (hend.symm.trans he) nofun
    · cases hf : d.inFlight.get? x.key with
      | none => exact .inl (startsAttempt_of_none hm hf)
      | some b =>
        have hb : b ≠ a := fun he => hgone x.key (he ▸ hf)
        have hnew : ((run .empty events).step (.advance a produced)).Live x.key b :=
          ((hd.inFlight_iff x.key b).1 hf).of_run hne
        have hold := (hc.inFlight_iff x.key b).2 (hnew.of_step fun he => Event.noConfusion he)
        -- had it not been cancelled, the attempt would itself be the one in flight
        refine .inr ⟨Bool.eq_true_of_not_eq_false fun hx' => hb ?_, b, hb, hold, rfl⟩
        have ha := (hc.inFlight_iff x.key a).2 ⟨x, hx, rfl, hx', hr⟩
        exact Option.some.inj (hold.symm.trans ha)

/-- A service that is asked for and has not answered yet. -/
def slowFetch : List Event := [.call "Northwind", .advance 0 none]

theorem slowFetch_single_flight :
    let c := run .empty slowFetch
    let timeout : Except Error MetadataDocument := .error (.timeout 30)
    let d := (c.call "Northwind").run [.advance 0 (some timeout)]
    1 ∉ d.started ∧ (d.hear 1).calls[1]? = some (.answered (.error (.timeout 30))) ∧
      (c.advance 0 (some timeout)).StartsAttempt "Northwind" := by
  intro c timeout d
  have h := single_flight slowFetch
  obtain ⟨hidle, hreceives⟩ := h.shared "Northwind" 0 rfl rfl [.advance 0 (some timeout)]
  have hheard := (hreceives (by simp)).heard ⟨"Northwind", 0, false, .ended (.error (.timeout 30))⟩
    (.error (.timeout 30)) rfl rfl
  obtain ⟨-, -, hnext⟩ := h.failed 0 ⟨"Northwind", 0, false, .fetching⟩
    ⟨"Northwind", 0, false, .ended (.error (.timeout 30))⟩ (some timeout) (.timeout 30) rfl nofun
    rfl rfl []
  refine ⟨hidle, hheard, (hnext (by simp) rfl).resolve_right fun hc => ?_⟩
  exact absurd hc.1 nofun

end MetadataCache

end ODataClient
