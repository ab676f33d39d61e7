import ODataClient.Proofs.Session.Moves

/-! What a move does to the slots. New slots are empty, whoever is answered leaves a queue, and a
slot is filled by the resolution whose turn it is, with an adapter that is new. -/

namespace ODataClient

theorem getElem?_concat {α : Type} {l : List α} {a b : α} {r : Nat}
    (h : (l ++ [a])[r]? = some b) : l[r]? = some b ∨ r = l.length ∧ a = b := by
  rw [List.getElem?_append] at h
  split at h
  · exact .inl h
  next hr =>
    rw [List.getElem?_singleton] at h
    split at h
    next he => exact .inr ⟨by omega, Option.some.inj h⟩
    next => exact absurd h nofun

theorem getElem?_of_set {α : Type} {l : List α} {a b : α} {r q : Nat}
    (h : (l.set r a)[q]? = some b) : r = q ∧ a = b ∨ r ≠ q ∧ l[q]? = some b := by
  by_cases hq : r = q
  · subst hq
    have hr := (List.getElem?_eq_some_iff.1 h).1
    rw [List.length_set] at hr
    rw [List.getElem?_set_self hr] at h
    exact .inl ⟨rfl, Option.some.inj h⟩
  · rw [List.getElem?_set_ne hq] at h
    exact .inr ⟨hq, h⟩

theorem getElem?_of_append {α : Type} {l : List α} {b : α} {r : Nat} (h : l[r]? = some b)
    (a : α) : (l ++ [a])[r]? = some b :=
  (List.getElem?_append_left (List.getElem?_eq_some_iff.1 h).1).trans h

namespace Client

variable {c d : Client} {r : ResolutionId} {x : Resolution} {i : SessionId} {j : Nat}
  {s : Session} {slot : AdapterSlot} {n : AdapterId} {renews : SessionId → Prop}

/-- New slots are empty, and the others stay as they are. -/
structure Extends (c d : Client) : Prop where
  kept {i : SessionId} {j : Nat} {slot : AdapterSlot} :
    c.slot? i j = some slot → d.slot? i j = some slot
  fresh {i : SessionId} {j : Nat} {slot : AdapterSlot} :
    d.slot? i j = some slot → c.slot? i j = some slot ∨ slot = .fresh

theorem extends_of_eq (h : ∀ i j, d.slot? i j = c.slot? i j) : c.Extends d where
  kept hs := (h _ _).trans hs
  fresh hs := .inl ((h _ _).symm.trans hs)

theorem Extends.has_iff (h : c.Extends d) : d.Has i j n ↔ c.Has i j n := by
  constructor
  · rintro ⟨slot, hs, hn⟩
    rcases h.fresh hs with hs | rfl
    · exact ⟨slot, hs, hn⟩
    · exact absurd hn nofun
  · rintro ⟨slot, hs, hn⟩
    exact ⟨slot, h.kept hs, hn⟩

theorem has_alterSlot {f : AdapterSlot → AdapterSlot} (hf : ∀ slot, (f slot).adapter = slot.adapter)
    (c : Client) (x : Resolution) : (c.alterSlot x f).Has i j n ↔ c.Has i j n := by
  rw [Has, slot?_alterSlot]
  split
  · constructor
    · rintro ⟨slot, hs, hn⟩
      obtain ⟨old, hold, rfl⟩ := Option.map_eq_some_iff.1 hs
      exact ⟨old, hold, (hf old).symm.trans hn⟩
    · rintro ⟨slot, hs, hn⟩
      exact ⟨f slot, congrArg (Option.map f) hs, (hf slot).trans hn⟩
  · rfl

theorem has_answer (c : Client) (r : ResolutionId) (x : Resolution)
    (outcome : Except Error AdapterId) : (c.answer r x outcome).Has i j n ↔ c.Has i j n :=
  has_alterSlot (f := (·.left r)) (fun _ => rfl) c x

theorem slot?_eq_some : c.slot? i j = some slot ↔
    ∃ s, c.sessions[i]? = some s ∧ s.slots[j]? = some slot := Option.bind_eq_some_iff

theorem extends_counted (c : Client) (i : SessionId) (count : Nat → Nat) :
    c.Extends (c.alterSession i fun s => { s with resolving := count s.resolving }) :=
  extends_of_eq (c.slot?_alterSession (f := fun s =>
    { s with resolving := count s.resolving }) (fun _ => rfl) i)

theorem extends_renewed (c : Client) (i : SessionId) (closed : Bool) :
    c.Extends (c.alterSession i fun s =>
      { s with closed := closed, slots := s.slots ++ [.fresh] }) where
  kept {i' j' slot} hs := by
    obtain ⟨s, hs, hslot⟩ := slot?_eq_some.1 hs
    by_cases hi : i = i'
    · subst hi
      exact slot?_eq_some.2 ⟨_, getElem?_alterSession hs _, getElem?_of_append hslot _⟩
    · exact slot?_eq_some.2 ⟨s, (getElem?_alterSession_ne hi c _).trans hs, hslot⟩
  fresh {i' j' slot} hs := by
    obtain ⟨s, hs, hslot⟩ := slot?_eq_some.1 hs
    by_cases hi : i = i'
    · subst hi
      cases hold : c.sessions[i]? with
      | none => exact absurd (hs.symm.trans (getElem?_alterSession_none hold _)) nofun
      | some old =>
        obtain rfl := Option.some.inj ((getElem?_alterSession hold _).symm.trans hs)
        rcases getElem?_concat hslot with hslot | ⟨-, rfl⟩
        · exact .inl (slot?_eq_some.2 ⟨old, hold, hslot⟩)
        · exact .inr rfl
    · rw [getElem?_alterSession_ne hi] at hs
      exact .inl (slot?_eq_some.2 ⟨s, hs, hslot⟩)

/-- What the answer to a resolution does to the slots, which it may have filled. -/
def Leaves (r : ResolutionId) (x : Resolution) (fill : Option AdapterId → Option AdapterId)
    (c d : Client) : Prop :=
  ∀ i j, d.slot? i j = if x.session = i ∧ x.slot = j then
    (c.slot? i j).map fun slot => ⟨fill slot.adapter, (slot.left r).queue⟩ else c.slot? i j

theorem leaves_made (make : Session → Adapter) (n : AdapterId) (outcome : Except Error AdapterId)
    (c : Client) (r : ResolutionId) (x : Resolution) :
    Leaves r x (fun _ => some n) c (((c.alterSession x.session fun s =>
      { s with adapters := s.adapters ++ [make s] }).alterSlot x fun slot =>
      { slot with adapter := some n }).endBuilding r x outcome) := by
  intro i j
  rw [slot?_endBuilding, slot?_answer, slot?_alterSlot,
    slot?_alterSession (f := fun s => { s with adapters := s.adapters ++ [make s] }) fun _ => rfl]
  split
  · rw [Option.map_map]
    rfl
  · rfl

theorem leaves_answer (c : Client) (r : ResolutionId) (x : Resolution)
    (outcome : Except Error AdapterId) : Leaves r x id c (c.answer r x outcome) :=
  c.slot?_answer r x outcome

theorem Leaves.has_iff {fill : Option AdapterId → Option AdapterId} (h : Leaves r x fill c d) :
    d.Has i j n ↔ ∃ slot, c.slot? i j = some slot ∧
      (if x.session = i ∧ x.slot = j then fill slot.adapter else slot.adapter) = some n := by
  rw [Has, h]
  split
  · constructor
    · rintro ⟨slot, hs, hn⟩
      obtain ⟨old, hold, rfl⟩ := Option.map_eq_some_iff.1 hs
      exact ⟨old, hold, hn⟩
    · rintro ⟨slot, hs, hn⟩
      exact ⟨_, congrArg (Option.map _) hs, hn⟩
  · rfl

/-! Adapters. -/

/-- The resolution makes the next adapter of its session and is answered with it. -/
structure Makes (r : ResolutionId) (x : Resolution) (c d : Client) : Prop where
  stored : c.resolutions[r]? = some x
  pending : x.Pending
  empty (n : AdapterId) : ¬ c.Has x.session x.slot n
  sourced : ∃ s, c.sessions[x.session]? = some s ∧ Sourced s x
  length : (d.adapters x.session).length = (c.adapters x.session).length + 1
  answered : d.resolutions[r]? =
    some { x with stage := .answered (.ok (c.adapters x.session).length) }

theorem Leads.not_has (h : c.Leads r x) (n : AdapterId) : ¬ c.Has x.session x.slot n := by
  rintro ⟨slot, hs, hn⟩
  obtain ⟨own, hown, -, ha⟩ := h
  obtain rfl := Option.some.inj (hs.symm.trans hown)
  exact absurd (ha.symm.trans hn) nofun

theorem adapters_of_session (hs : c.sessions[i]? = some s) : c.adapters i = s.adapters := by
  rw [adapters, hs]
  rfl

theorem adapters_answer (c : Client) (r : ResolutionId) (x : Resolution)
    (outcome : Except Error AdapterId) (i : SessionId) :
    (c.answer r x outcome).adapters i = c.adapters i := c.adapters_alterSlot x _ i

theorem adapters_made (make : Session → Adapter) (n : AdapterId) (outcome : Except Error AdapterId)
    (c : Client) (r : ResolutionId) (x : Resolution) (i : SessionId) :
    (((c.alterSession x.session fun s => { s with adapters := s.adapters ++ [make s] }).alterSlot x
      fun slot => { slot with adapter := some n }).endBuilding r x outcome).adapters i =
      (c.alterSession x.session fun s =>
        { s with adapters := s.adapters ++ [make s] }).adapters i := by
  rw [endBuilding, adapters_answer, adapters_alterSession (f := fun s =>
    { s with resolving := s.resolving - 1 }) (fun _ => rfl), adapters_alterSlot]

theorem Move.adapters (hm : Move r renews c d) :
    (∀ i, d.adapters i = c.adapters i) ∧ (∀ i j n, d.Has i j n ↔ c.Has i j n) ∨
    ∃ x, Makes r x c d ∧ (∀ i, i ≠ x.session → d.adapters i = c.adapters i) ∧
      ∀ i j n, d.Has i j n ↔ c.Has i j n ∨
        i = x.session ∧ j = x.slot ∧ n = (c.adapters x.session).length := by
  cases hm with
  | cached | begun | arrived | called => exact .inl ⟨fun _ => rfl, fun _ _ _ => Iff.rfl⟩
  | counted i count =>
    exact .inl ⟨c.adapters_alterSession (f := fun s =>
      { s with resolving := count s.resolving }) (fun _ => rfl) i,
      fun _ _ _ => (c.extends_counted i count).has_iff⟩
  | renewed i hi closed =>
    exact .inl ⟨c.adapters_alterSession (f := fun s =>
      { s with closed := closed, slots := s.slots ++ [.fresh] }) (fun _ => rfl) i,
      fun _ _ _ => (c.extends_renewed i closed).has_iff⟩
  | queued =>
    exact .inl ⟨adapters_alterSlot _ _ _, fun _ _ _ => has_alterSlot (f := fun slot =>
      { slot with queue := slot.queue ++ [r] }) (fun _ => rfl) _ _⟩
  | answered => exact .inl ⟨adapters_answer _ r _ _, fun _ _ _ => has_answer _ r _ _⟩
  | abandoned => exact .inl ⟨adapters_answer _ r _ _, fun _ _ _ => has_answer _ r _ _⟩
  | @made x s make hx hw hs hl hd =>
    have hn : (c.adapters x.session).length = s.adapters.length := by
      rw [adapters_of_session hs]
    refine .inr ⟨x, ⟨hx, hw, hl.not_has, ⟨s, hs, hd⟩, ?_, ?_⟩, fun i hi => ?_, fun i j n => ?_⟩
    · rw [adapters_made, adapters_of_session (getElem?_alterSession hs _), hn]
      exact List.length_append
    · rw [hn]
      exact List.getElem?_set_self (List.getElem?_eq_some_iff.1 hx).1
    · rw [adapters_made, Client.adapters, getElem?_alterSession_ne (Ne.symm hi)]
      rfl
    · rw [(leaves_made make _ _ c r x).has_iff, hn]
      constructor
      · rintro ⟨slot, hslot, ha⟩
        split at ha
        next hij => exact .inr ⟨hij.1.symm, hij.2.symm, (Option.some.inj ha).symm⟩
        next => exact .inl ⟨slot, hslot, ha⟩
      · rintro (⟨slot, hslot, ha⟩ | ⟨rfl, rfl, rfl⟩)
        · refine ⟨slot, hslot, ?_⟩
          rw [if_neg]
          · exact ha
          · rintro ⟨rfl, rfl⟩
            exact hl.not_has n ⟨slot, hslot, ha⟩
        · obtain ⟨slot, hslot, -⟩ := hl
          exact ⟨slot, hslot, if_pos ⟨rfl, rfl⟩⟩

theorem Move.has (hm : Move r renews c d) (h : c.Has i j n) : d.Has i j n := by
  rcases hm.adapters with ⟨-, hhas⟩ | ⟨x, -, -, hhas⟩
  · exact (hhas i j n).2 h
  · exact (hhas i j n).2 (.inl h)

theorem Move.length_adapters (hm : Move r renews c d) (i : SessionId) :
    (c.adapters i).length ≤ (d.adapters i).length := by
  rcases hm.adapters with ⟨hsame, -⟩ | ⟨x, hmakes, hsame, -⟩
  · rw [hsame]
  · by_cases hi : i = x.session
    · rw [hi, hmakes.length]
      exact Nat.le_succ _
    · rw [hsame i hi]

/-! The newest slot. -/

theorem newest?_alterSession {f : Session → Session}
    (hf : ∀ s, (f s).slots.length = s.slots.length) (c : Client) (l i : SessionId) :
    (c.alterSession l f).newest? i = c.newest? i :=
  map_alterSession (fun s => congrArg (· - 1) (hf s)) c l i

theorem newest?_alterSlot (c : Client) (x : Resolution) (f : AdapterSlot → AdapterSlot)
    (i : SessionId) : (c.alterSlot x f).newest? i = c.newest? i :=
  newest?_alterSession (fun _ => List.length_modify ..) c x.session i

theorem newest?_endBuilding (c : Client) (r : ResolutionId) (x : Resolution)
    (outcome : Except Error AdapterId) (i : SessionId) :
    (c.endBuilding r x outcome).newest? i = c.newest? i :=
  (newest?_alterSlot _ x _ i).trans (newest?_alterSession (f := fun s =>
    { s with resolving := s.resolving - 1 }) (fun _ => rfl) c x.session i)

/-- The newest slot stays the newest, or a session that is renewed gets a newer one. -/
theorem Move.newest_cases (hm : Move r renews c d) (i : SessionId) :
    d.newest? i = c.newest? i ∨
      renews i ∧ ∀ j, c.newest? i = some j → ∃ l, d.newest? i = some l ∧ j ≤ l := by
  cases hm with
  | cached | begun | arrived | called => exact .inl rfl
  | counted l count =>
    exact .inl (newest?_alterSession (f := fun s => { s with resolving := count s.resolving })
      (fun _ => rfl) c l i)
  | renewed l hl closed =>
    by_cases hi : l = i
    · subst hi
      refine .inr ⟨hl, fun j hj => ?_⟩
      obtain ⟨s, hs, rfl⟩ := Option.map_eq_some_iff.1 hj
      refine ⟨s.slots.length, ?_, Nat.sub_le _ _⟩
      rw [newest?, getElem?_alterSession hs, Option.map_some, List.length_append]
      rfl
    · rw [newest?, getElem?_alterSession_ne hi]
      exact .inl rfl
  | queued => exact .inl (newest?_alterSlot _ _ _ i)
  | answered | abandoned => exact .inl (newest?_alterSlot _ _ _ i)
  | @made x s make =>
    left
    rw [newest?_endBuilding, newest?_alterSlot, newest?_alterSession (f := fun s =>
      { s with adapters := s.adapters ++ [make s] }) fun _ => rfl]

theorem Move.newest? (hm : Move r renews c d) (hi : ¬ renews i) : d.newest? i = c.newest? i :=
  (hm.newest_cases i).resolve_right fun h => hi h.1

theorem Move.newest_le (hm : Move r renews c d) (hj : c.newest? i = some j) :
    ∃ l, d.newest? i = some l ∧ j ≤ l := by
  rcases hm.newest_cases i with h | ⟨-, h⟩
  · exact ⟨j, h.trans hj, le_rfl⟩
  · exact h j hj

end Client

end ODataClient
