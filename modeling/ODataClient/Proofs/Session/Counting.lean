import ODataClient.Proofs.Session.Asking

/-! The counter of a session. It tells how many resolutions are making its adapter. Who begins to
make it is counted at once, and who ends is taken away from a counter that counts it. -/

namespace ODataClient

def Stage.isBuilding : Stage → Bool
  | .building _ => true
  | _ => false

/-- The resolution is making the adapter of the session. -/
def Resolution.builds (i : SessionId) (x : Resolution) : Bool :=
  x.session == i && x.stage.isBuilding

theorem countP_set_add {α : Type} {l : List α} {r : Nat} {a : α} (h : l[r]? = some a)
    (p : α → Bool) (b : α) :
    (l.set r b).countP p + (p a).toNat = l.countP p + (p b).toNat := by
  obtain ⟨hlt, rfl⟩ := List.getElem?_eq_some_iff.1 h
  have hpos : p l[r] = true → 0 < l.countP p := fun hp =>
    List.countP_pos_iff.2 ⟨_, List.getElem_mem hlt, hp⟩
  rw [List.countP_set hlt]
  cases ha : p l[r] with
  | false => cases p b <;> simp
  | true =>
    have := hpos ha
    cases p b <;> simp <;> omega

namespace Client

variable {c d : Client} {r : ResolutionId} {x y : Resolution} {i : SessionId} {s : Session}
  {k : CallId} {f : Session → Session}

/-- How many resolutions are making the adapter of the session. -/
def builders (c : Client) (i : SessionId) : Nat := c.resolutions.countP (·.builds i)

def resolving? (c : Client) (i : SessionId) : Option Nat := (c.sessions[i]?).map Session.resolving

/-- The counter of every session is right. -/
def Tallied (c : Client) : Prop :=
  ∀ (i : SessionId) (n : Nat), c.resolving? i = some n → n = c.builders i

/-- The counters are right if the resolution counts as one of those who are making an adapter,
whether it has called for the metadata or not. -/
structure Building (c : Client) (r : ResolutionId) (x : Resolution) : Prop where
  stored : c.resolutions[r]? = some x
  counted (i : SessionId) (n : Nat) (hn : c.resolving? i = some n) :
    n + (x.builds i).toNat = c.builders i + (x.session == i).toNat

theorem resolving?_alterSession {count : Nat → Nat} (hf : ∀ s, (f s).resolving = count s.resolving)
    (c : Client) (l i : SessionId) : (c.alterSession l f).resolving? i =
      if l = i then (c.resolving? i).map count else c.resolving? i := by
  by_cases hi : l = i
  · subst hi
    rw [if_pos rfl, resolving?, resolving?]
    cases hs : c.sessions[l]? with
    | none => rw [getElem?_alterSession_none hs]; rfl
    | some s => rw [getElem?_alterSession hs, Option.map_some, hf]; rfl
  · rw [if_neg hi, resolving?, getElem?_alterSession_ne hi]
    rfl

theorem resolving?_alterSlot (c : Client) (x : Resolution) (f : AdapterSlot → AdapterSlot)
    (i : SessionId) : (c.alterSlot x f).resolving? i = c.resolving? i :=
  map_alterSession (f := fun s => { s with slots := s.slots.modify x.slot f }) (fun _ => rfl)
    c x.session i

theorem Tallied.frame (h : c.Tallied) (hr : ∀ i, d.builders i = c.builders i)
    (hn : ∀ i, d.resolving? i = c.resolving? i) : d.Tallied := fun i n hi =>
  (h i n (hn i ▸ hi)).trans (hr i).symm

theorem Building.frame (h : c.Building r x) (hr : d.resolutions = c.resolutions)
    (hn : ∀ i, d.resolving? i = c.resolving? i) : d.Building r x where
  stored := hr ▸ h.stored
  counted i n hi := by
    rw [builders, hr]
    exact h.counted i n (hn i ▸ hi)

theorem builds_of_building (hp : x.stage = .building k) (i : SessionId) :
    x.builds i = (x.session == i) := by
  rw [Resolution.builds, hp]
  exact Bool.and_true _

theorem builds_eq_false (hp : x.stage.isBuilding = false) (i : SessionId) :
    x.builds i = false := by
  rw [Resolution.builds, hp]
  exact Bool.and_false _

theorem Tallied.building (h : c.Tallied) (hx : c.resolutions[r]? = some x)
    (hp : x.stage = .building k) : c.Building r x where
  stored := hx
  counted i n hn := by rw [builds_of_building hp, h i n hn]

theorem Building.tallied (h : c.Building r x) (hp : x.stage = .building k) : c.Tallied := by
  intro i n hn
  have hcount := h.counted i n hn
  rw [builds_of_building hp] at hcount
  exact Nat.add_right_cancel hcount

theorem builders_set (hx : c.resolutions[r]? = some x) (y : Resolution) (i : SessionId)
    (hr : d.resolutions = c.resolutions.set r y) :
    d.builders i + (x.builds i).toNat = c.builders i + (y.builds i).toNat := by
  rw [builders, hr]
  exact countP_set_add hx _ _

/-- The counter counts the resolution, so it is not zero. -/
theorem Building.pos (h : c.Building r x) {n : Nat} (hn : c.resolving? x.session = some n) :
    0 < n := by
  have hcount := h.counted x.session n hn
  rw [beq_self_eq_true, Bool.toNat_true] at hcount
  cases hb : x.builds x.session with
  | false =>
    rw [hb, Bool.toNat_false] at hcount
    omega
  | true =>
    have hpos : 0 < c.builders x.session :=
      List.countP_pos_iff.2 ⟨x, List.mem_of_getElem? h.stored, hb⟩
    rw [hb, Bool.toNat_true] at hcount
    omega

/-- To call for the metadata makes no difference to the counter. -/
theorem Building.call (h : c.Building r x) (k : CallId)
    (hr : d.resolutions = c.resolutions.set r { x with stage := .building k })
    (hn : ∀ i, d.resolving? i = c.resolving? i) : d.Building r { x with stage := .building k } where
  stored := hr ▸ List.getElem?_set_self (List.getElem?_eq_some_iff.1 h.stored).1
  counted i n hi := by
    have hcount := h.counted i n (hn i ▸ hi)
    have hset := builders_set h.stored _ i hr
    rw [builds_of_building (x := { x with stage := .building k }) rfl] at hset ⊢
    have hsame : n + (x.builds i).toNat = d.builders i + (x.builds i).toNat :=
      hcount.trans hset.symm
    rw [Nat.add_right_cancel hsame]

theorem Building.endBuilding (h : c.Building r x) (outcome : Except Error AdapterId) :
    (c.endBuilding r x outcome).Tallied := by
  intro i n hn
  have hset : (c.endBuilding r x outcome).builders i + (x.builds i).toNat = c.builders i :=
    (builders_set h.stored { x with stage := .answered outcome } i rfl).trans
      (by rw [builds_eq_false rfl, Bool.toNat_false, Nat.add_zero])
  have hleft : (c.endBuilding r x outcome).resolving? i =
      if x.session = i then (c.resolving? i).map (· - 1) else c.resolving? i :=
    (resolving?_alterSlot _ x _ i).trans (resolving?_alterSession (f := fun s =>
      { s with resolving := s.resolving - 1 }) (fun _ => rfl) c x.session i)
  rw [hleft] at hn
  split at hn
  next hi =>
    subst hi
    obtain ⟨m, hm, rfl⟩ := Option.map_eq_some_iff.1 hn
    have hcount := h.counted x.session m hm
    have hpos := h.pos hm
    rw [beq_self_eq_true, Bool.toNat_true] at hcount
    omega
  next hi =>
    have hcount := h.counted i n hn
    rw [beq_false_of_ne hi, Bool.toNat_false] at hcount
    omega

theorem Building.complete (h : c.Building r x) (hs : c.sessions[x.session]? = some s)
    {outcome : Except Error EntryId} (ho : ∀ e, outcome = .ok e → c.cache.IsEntry s.key e) :
    (c.complete r x outcome).Tallied := by
  cases outcome with
  | error err => exact h.endBuilding _
  | ok e =>
    obtain ⟨entry, he, -⟩ := Option.map_eq_some_iff.1 (ho e rfl)
    unfold Client.complete
    simp only [hs, he]
    have hbound : ∀ cache, Building { c with cache := cache } r x := fun cache =>
      h.frame rfl fun _ => rfl
    cases hb : c.cache.bind e entry s.settings.loader with
    | mk result cache =>
      cases result with
      | error err => exact (hbound cache).endBuilding _
      | ok bound =>
        let made : Client := (alterSession { c with cache := cache } x.session fun t =>
          { t with adapters := t.adapters ++ [makeAdapter t.factory bound t.settings.options] }
          ).alterSlot x fun slot => { slot with adapter := some s.adapters.length }
        refine Building.endBuilding (c := made) ((hbound cache).frame rfl fun i => ?_) _
        exact (resolving?_alterSlot _ x _ i).trans (map_alterSession (f := fun t =>
          { t with adapters := t.adapters ++ [makeAdapter t.factory bound t.settings.options] })
          (fun _ => rfl) _ x.session i)

theorem Building.listen (h : c.Building r x) (hp : x.stage = .building k)
    (hs : c.sessions[x.session]? = some s) (hk : c.cache.Concerns k s.key) (hc : c.cache.Filed) :
    (c.listen r x k).Tallied := by
  have hheard : Building { c with cache := c.cache.hear k } r x := h.frame rfl fun _ => rfl
  unfold Client.listen
  dsimp only
  split
  next outcome ho =>
    refine hheard.complete hs fun e he => ?_
    exact (hk.step hc (.hear k)).entry e (he ▸ ho)
  next => exact hheard.tallied hp

theorem isEntry_add {m : MetadataCache} (hm : m.Filed) {key : String}
    {produced : Except Error MetadataDocument} {e : EntryId} (he : (m.add key produced).1 = .ok e) :
    (m.add key produced).2.IsEntry key e := by
  rcases m.add_cases key produced with ⟨e', hget, hq⟩ | ⟨_, err, hq⟩ | ⟨_, doc, hq⟩ <;>
    rw [hq] at he ⊢
  · exact Except.ok.inj he ▸ hm.cached_entry key e' hget
  · exact absurd he nofun
  · exact Except.ok.inj he ▸ MetadataCache.isEntry_made rfl

theorem Tallied.build (h : c.Tallied) (hx : c.resolutions[r]? = some x) (hp : x.stage = .queued)
    (hs : c.sessions[x.session]? = some s) (hc : c.cache.Coherent) :
    (c.build r x s).Tallied := by
  let entered := c.alterSession x.session fun s => { s with resolving := s.resolving + 1 }
  have hs' : entered.sessions[x.session]? = some { s with resolving := s.resolving + 1 } :=
    getElem?_alterSession hs _
  have hentered : entered.Building r x := by
    refine ⟨hx, fun i n hn => ?_⟩
    have hcount : entered.resolving? i =
        if x.session = i then (c.resolving? i).map (· + 1) else c.resolving? i :=
      resolving?_alterSession (fun _ => rfl) c x.session i
    rw [hcount] at hn
    rw [builds_eq_false (by rw [hp]; rfl), Bool.toNat_false]
    split at hn
    next hi =>
      obtain ⟨m, hm, rfl⟩ := Option.map_eq_some_iff.1 hn
      rw [h i m hm, hi, beq_self_eq_true, Bool.toNat_true]
      rfl
    next hi =>
      rw [h i n hn, beq_false_of_ne hi, Bool.toNat_false]
      rfl
  unfold Client.build
  dsimp only
  split
  next raw hd =>
    refine (hentered.frame (d := { entered with
      cache := (c.cache.add s.key (.ok (.ofText raw))).2 }) rfl fun _ => rfl).complete hs' ?_
    exact fun e he => isEntry_add hc.toFiled he
  next err hd ht => exact hentered.endBuilding _
  next hd ht =>
    let asked : Client := { entered with
      cache := c.cache.call s.key
      callers := c.callers ++ [x.session]
      resolutions := c.resolutions.set r { x with stage := .building c.cache.calls.length } }
    have hasked : asked.Building r { x with stage := .building c.cache.calls.length } :=
      hentered.call c.cache.calls.length rfl fun _ => rfl
    exact hasked.listen rfl hs' (MetadataCache.concerns_call hc s.key)
      (hc.step (.call s.key)).toFiled

/-! Steps and runs. -/

/-- Whoever was not making an adapter goes on, and makes none. -/
theorem Tallied.set (h : c.Tallied) (hx : c.resolutions[r]? = some x)
    (hp : x.stage.isBuilding = false) (hr : d.resolutions = c.resolutions.set r y)
    (hy : y.stage.isBuilding = false) (hn : ∀ i, d.resolving? i = c.resolving? i) :
    d.Tallied := by
  refine h.frame (fun i => ?_) hn
  have hset := builders_set hx y i hr
  rwa [builds_eq_false hp, builds_eq_false hy] at hset

theorem Tallied.answer (h : c.Tallied) (hx : c.resolutions[r]? = some x)
    (hp : x.stage.isBuilding = false) (outcome : Except Error AdapterId) :
    (c.answer r x outcome).Tallied :=
  h.set hx hp rfl rfl (resolving?_alterSlot c x _)

theorem Tallied.add (h : c.Tallied) {j : Nat} {stage : Stage} (hp : stage.isBuilding = false) :
    (c.addResolution i j stage).Tallied := by
  refine h.frame (fun l => ?_) fun _ => rfl
  have hnew : List.countP (·.builds l) [(⟨i, j, stage⟩ : Resolution)] = 0 :=
    List.countP_eq_zero.2 fun y hy => by
      rw [List.mem_singleton.1 hy, builds_eq_false hp]
      exact Bool.false_ne_true
  exact List.countP_append.trans (congrArg (c.builders l + ·) hnew)

theorem Tallied.takeTurn (h : c.Tallied) (hc : c.Orderly) (hx : c.resolutions[r]? = some x)
    (hp : x.stage = .queued) : (c.takeTurn r x).Tallied := by
  unfold Client.takeTurn
  cases hs : c.sessions[x.session]? with
  | none => exact h
  | some s =>
    dsimp only
    split
    next n hn => exact h.answer hx (by rw [hp]; rfl) _
    next =>
      split
      next => exact h.build hx hp hs hc.coherent
      next => exact h

theorem Tallied.firstPoll (h : c.Tallied) (hc : c.Orderly) (hx : c.resolutions[r]? = some x)
    (hp : x.stage = .arrived) (cancelled : Bool) : (c.firstPoll r x cancelled).Tallied := by
  have hstage : x.stage.isBuilding = false := by rw [hp]; rfl
  obtain ⟨slot, hslot⟩ := hc.slotted r x hx hp
  rcases firstPoll_cases (r := r) hslot cancelled with ⟨n, -, hq⟩ | ⟨-, hq⟩ <;> rw [hq]
  · exact h.answer hx hstage _
  · cases cancelled with
    | true => exact h.answer hx hstage _
    | false =>
      have hjoins : Move r (fun _ => False) c (c.join r x) := .queued hx hp hslot
      have hjoined : (c.join r x).Tallied := h.set hx hstage rfl rfl (resolving?_alterSlot _ x _)
      exact hjoined.takeTurn (hc.move hjoins) (getElem?_join hx) rfl

theorem Tallied.enter (h : c.Tallied) (i : SessionId) : (c.enter i).Tallied := by
  unfold Client.enter
  cases c.sessions[i]? with
  | none => exact h
  | some s =>
    dsimp only
    split <;> exact h.add rfl

theorem Tallied.look (h : c.Tallied) (r : ResolutionId) : (c.look r).Tallied := by
  unfold Client.look
  cases hx : c.resolutions[r]? with
  | none => exact h
  | some x =>
    dsimp only
    split
    next s hp hs => exact h.set hx (by rw [hp]; rfl) rfl rfl fun _ => rfl
    next => exact h

theorem Tallied.progress (h : c.Tallied) (hc : c.Orderly) (ha : c.Asking) (r : ResolutionId) :
    (c.progress r).Tallied := by
  unfold Client.progress
  cases hx : c.resolutions[r]? with
  | none => exact h
  | some x =>
    dsimp only
    cases hp : x.stage with
    | entered | answered => exact h
    | arrived => exact h.firstPoll hc hx hp false
    | queued => exact h.takeTurn hc hx hp
    | building k =>
      obtain ⟨s, hs, hk⟩ := ha r x k hx hp
      exact (h.building hx hp).listen hp hs hk hc.coherent.toFiled

theorem Tallied.cancel (h : c.Tallied) (hc : c.Orderly) (r : ResolutionId) :
    (c.cancel r).Tallied := by
  unfold Client.cancel
  cases hx : c.resolutions[r]? with
  | none => exact h
  | some x =>
    dsimp only
    cases hp : x.stage with
    | entered | answered => exact h
    | arrived => exact h.firstPoll hc hx hp true
    | queued => exact h.answer hx (by rw [hp]; rfl) _
    | building k =>
      have hleft : Building { c with cache := c.cache.abandon k } r x :=
        (h.building hx hp).frame rfl fun _ => rfl
      exact hleft.endBuilding _

theorem Tallied.step (h : c.Tallied) (hc : c.Orderly) (ha : c.Asking) (event : Event) :
    (c.step event).Tallied := by
  cases event with
  | enter i => exact h.enter i
  | look r => exact h.look r
  | progress r => exact h.progress hc ha r
  | cancel r => exact h.cancel hc r
  | advance a produced => exact h.frame (fun _ => rfl) fun _ => rfl
  | clear i =>
    rw [Client.step, Client.clear]
    cases c.sessions[i]? with
    | none => exact h
    | some s =>
      exact h.frame (fun _ => rfl) (map_alterSession (f := fun s =>
        { s with slots := s.slots ++ [.fresh] }) (fun _ => rfl) _ i)
  | close i =>
    refine h.frame (fun _ => rfl) (map_alterSession (fun s => ?_) c i)
    split <;> rfl
  | clearAll => exact h.frame (fun _ => rfl) fun _ => rfl

theorem Asking.builders_eq_zero (h : c.Asking) (hi : c.sessions[i]? = none) :
    c.builders i = 0 := by
  refine List.countP_eq_zero.2 fun x hx hb => ?_
  obtain ⟨r, hx⟩ := List.mem_iff_getElem?.1 hx
  obtain ⟨hses, hstage⟩ := Bool.and_eq_true_iff.1 hb
  cases hp : x.stage with
  | entered | arrived | queued | answered =>
    rw [hp] at hstage
    exact absurd hstage Bool.false_ne_true
  | building k =>
    obtain ⟨s, hs, -⟩ := h r x k hx hp
    rw [eq_of_beq hses, hi] at hs
    exact absurd hs nofun

theorem Reachable.tallied (h : c.Reachable) : c.Tallied := by
  induction h with
  | empty => exact fun i n hn => absurd hn nofun
  | @opened c d settings factory hasTransport hc ho ih =>
    obtain ⟨hs, hr, -⟩ := openSession_eq ho
    have hbuilders : ∀ i, d.builders i = c.builders i := fun i => by rw [builders, hr]; rfl
    intro i n hn
    obtain ⟨s, hi, rfl⟩ := Option.map_eq_some_iff.1 hn
    rw [hbuilders]
    rw [hs] at hi
    rcases getElem?_concat hi with hi | ⟨rfl, rfl⟩
    · exact ih i _ (congrArg (Option.map _) hi)
    · exact (hc.asking.builders_eq_zero (List.getElem?_eq_none le_rfl)).symm
  | step hc event ih => exact ih.step hc.orderly hc.asking event

end Client

end ODataClient
