import ODataClient.Proofs.Command.Chain

/-! Content ids of a batch. The keys that are mentioned in it, whether to be registered or with a
payload, are numbered in the order of their first mention, and keep their numbers; a payload is
kept until the next one for its key. -/

namespace ODataClient.BatchEntries

/-- A mention of an entity of a batch. -/
inductive Mention
  | register (key : String)
  | resolve (key : String) (payload : Entry)

namespace Mention

def key : Mention → String
  | register key => key
  | resolve key _ => key

def payloadOf? (key : String) : Mention → Option Entry
  | register _ => none
  | resolve other payload => if other = key then some payload else none

theorem payloadOf?_of_ne {x : Mention} {key : String} (h : key ≠ x.key) :
    x.payloadOf? key = none := by
  cases x with
  | register other => rfl
  | resolve other payload => exact if_neg (Ne.symm h)

end Mention

/-- The keys that are mentioned, in the order of their first mention. -/
def mentioned (mentions : List Mention) : List String := (mentions.map Mention.key).eraseDups

def lastPayload? (mentions : List Mention) (key : String) : Option Entry :=
  mentions.reverse.findSome? (Mention.payloadOf? key)

/-- The number of a key, counted from one. -/
def numberOf (mentions : List Mention) (key : String) : UInt32 :=
  UInt32.ofNat ((mentioned mentions).idxOf key + 1)

/-- What a batch should know of a key. -/
def entryOf? (mentions : List Mention) (key : String) : Option BatchEntry :=
  if key ∈ mentioned mentions then some ⟨numberOf mentions key, lastPayload? mentions key⟩ else none

section Mentions

variable {mentions before after : List Mention} {x : Mention} {key : String}

theorem mem_mentioned : key ∈ mentioned mentions ↔ ∃ x ∈ mentions, x.key = key := by
  rw [mentioned, List.mem_eraseDups, List.mem_map]

theorem mem_mentioned_concat :
    key ∈ mentioned (mentions ++ [x]) ↔ key ∈ mentioned mentions ∨ key = x.key := by
  simp [mentioned, List.mem_eraseDups, or_comm]

theorem mentioned_append (before after : List Mention) : mentioned (before ++ after) =
    mentioned before ++ ((after.map Mention.key).removeAll (before.map Mention.key)).eraseDups := by
  rw [mentioned, List.map_append, List.eraseDups_append]
  rfl

theorem mentioned_concat_of_mem (h : x.key ∈ mentioned mentions) :
    mentioned (mentions ++ [x]) = mentioned mentions := by
  rw [mentioned, List.mem_eraseDups] at h
  rw [mentioned_append, List.map_singleton, List.removeAll, List.filter_singleton]
  simp [h]

theorem mentioned_concat_of_notMem (h : x.key ∉ mentioned mentions) :
    mentioned (mentions ++ [x]) = mentioned mentions ++ [x.key] := by
  rw [mentioned, List.mem_eraseDups] at h
  rw [mentioned_append, List.map_singleton, List.removeAll, List.filter_singleton]
  simp [h, List.eraseDups_cons]

theorem mentioned_resolve (mentions : List Mention) (key : String) (payload : Entry) :
    mentioned (mentions ++ [.resolve key payload]) = mentioned (mentions ++ [.register key]) := by
  rw [mentioned_append, mentioned_append]
  rfl

theorem nodup_mentioned (mentions : List Mention) : (mentioned mentions).Nodup := by
  induction mentions using List.reverseRecOn with
  | nil => exact List.nodup_nil
  | append_singleton mentions x ih =>
    by_cases h : x.key ∈ mentioned mentions
    · rwa [mentioned_concat_of_mem h]
    · rw [mentioned_concat_of_notMem h]
      exact List.concat_eq_append ▸ (List.nodup_concat _ _).2 ⟨h, ih⟩

theorem numberOf_append (h : key ∈ mentioned before) (after : List Mention) :
    numberOf (before ++ after) key = numberOf before key := by
  rw [numberOf, mentioned_append, List.idxOf_append, if_pos h]
  rfl

theorem toNat_numberOf (h : (mentioned mentions).length < UInt32.size) (hm : key ∈ mentioned mentions) :
    (numberOf mentions key).toNat = (mentioned mentions).idxOf key + 1 := by
  have hlt := List.idxOf_lt_length_of_mem hm
  exact UInt32.toNat_ofNat_of_lt' (by omega)

theorem numberOf_inj (h : (mentioned mentions).length < UInt32.size) {other : String}
    (hm : key ∈ mentioned mentions) (ho : other ∈ mentioned mentions)
    (he : numberOf mentions key = numberOf mentions other) : key = other := by
  have hnat := congrArg UInt32.toNat he
  rw [toNat_numberOf h hm, toNat_numberOf h ho, Nat.add_right_cancel_iff] at hnat
  exact (List.idxOf_inj hm).1 hnat

/-- A new key gets the next number. -/
theorem numberOf_concat_of_notMem (h : x.key ∉ mentioned mentions) :
    numberOf (mentions ++ [x]) x.key = UInt32.ofNat (mentioned mentions).length + 1 := by
  rw [numberOf, mentioned_concat_of_notMem h, List.idxOf_append, if_neg h, List.idxOf_cons_self,
    Nat.zero_add, UInt32.ofNat_add]
  rfl

theorem lastPayload?_concat (mentions : List Mention) (x : Mention) (key : String) :
    lastPayload? (mentions ++ [x]) key = (x.payloadOf? key).or (lastPayload? mentions key) := by
  rw [lastPayload?, List.reverse_concat, List.findSome?_cons]
  cases x.payloadOf? key <;> rfl

theorem lastPayload?_of_notMem (h : key ∉ mentioned mentions) : lastPayload? mentions key = none := by
  rw [lastPayload?, List.findSome?_eq_none_iff]
  intro x hx
  exact Mention.payloadOf?_of_ne fun he => h (mem_mentioned.2 ⟨x, List.mem_reverse.1 hx, he.symm⟩)

/-- A mention changes what is known of its own key only. -/
theorem entryOf?_concat (mentions : List Mention) (x : Mention) (key : String) :
    entryOf? (mentions ++ [x]) key =
      if key = x.key then
        some ⟨numberOf (mentions ++ [x]) x.key,
          (x.payloadOf? x.key).or (lastPayload? mentions x.key)⟩
      else entryOf? mentions key := by
  by_cases hk : key = x.key
  · subst hk
    rw [if_pos rfl, entryOf?, if_pos (mem_mentioned_concat.2 (.inr rfl)), lastPayload?_concat]
  · rw [if_neg hk, entryOf?, entryOf?]
    by_cases hm : key ∈ mentioned mentions
    · rw [if_pos hm, if_pos (mem_mentioned_concat.2 (.inl hm)), numberOf_append hm,
        lastPayload?_concat, Mention.payloadOf?_of_ne hk, Option.none_or]
    · have hstill : key ∉ mentioned (mentions ++ [x]) := fun h =>
        (mem_mentioned_concat.1 h).elim hm hk
      rw [if_neg hm, if_neg hstill]

theorem entryOf?_register (mentions : List Mention) (key other : String) :
    entryOf? (mentions ++ [.register key]) other =
      if other = key then
        some ⟨numberOf (mentions ++ [.register key]) key, lastPayload? mentions key⟩
      else entryOf? mentions other :=
  entryOf?_concat mentions (.register key) other

theorem entryOf?_resolve (mentions : List Mention) (key : String) (payload : Entry)
    (other : String) : entryOf? (mentions ++ [.resolve key payload]) other =
      if other = key then some ⟨numberOf (mentions ++ [.register key]) key, some payload⟩
      else entryOf? mentions other := by
  have hpayload : Mention.payloadOf? key (.resolve key payload) = some payload := if_pos rfl
  have hnumber : numberOf (mentions ++ [.resolve key payload]) key =
      numberOf (mentions ++ [.register key]) key := by
    rw [numberOf, numberOf, mentioned_resolve]
  refine (entryOf?_concat mentions (.resolve key payload) other).trans ?_
  simp only [Mention.key, hpayload, hnumber, Option.some_or]

end Mentions

variable {b : BatchEntries} {mentions : List Mention} {key : String}

theorem register_of_get?_eq_none (h : b.get? key = none) : b.register key =
    (b.lastId + 1, ⟨b.entries.set key ⟨b.lastId + 1, none⟩, b.lastId + 1⟩) := by
  rw [register, h]

def apply (b : BatchEntries) : Mention → UInt32 × BatchEntries
  | .register key => b.register key
  | .resolve key payload => b.resolve key payload

/-- The ids that the mentions are answered with, and the batch after them. -/
def run (b : BatchEntries) : List Mention → List UInt32 × BatchEntries
  | [] => ([], b)
  | x :: rest =>
    let (id, b) := b.apply x
    let (ids, b) := b.run rest
    (id :: ids, b)

/-- The batch is what these mentions make of an empty one. -/
structure Numbers (b : BatchEntries) (mentions : List Mention) : Prop where
  lastId_eq : b.lastId = UInt32.ofNat (mentioned mentions).length
  get?_eq : ∀ key, b.get? key = entryOf? mentions key

theorem numbers_empty : empty.Numbers [] := ⟨rfl, fun _ => rfl⟩

theorem Numbers.register (h : b.Numbers mentions) (key : String) :
    (b.register key).1 = numberOf (mentions ++ [.register key]) key ∧
      (b.register key).2.Numbers (mentions ++ [.register key]) := by
  by_cases hm : key ∈ mentioned mentions
  · have hget : b.get? key = some ⟨numberOf mentions key, lastPayload? mentions key⟩ :=
      (h.get?_eq key).trans (if_pos hm)
    have hnumber := numberOf_append hm [.register key]
    rw [register_of_contentId? (congrArg (Option.map BatchEntry.contentId) hget)]
    refine ⟨hnumber.symm, ?_, fun other => ?_⟩
    · rw [mentioned_concat_of_mem (x := .register key) hm]
      exact h.lastId_eq
    · rw [entryOf?_register, hnumber]
      by_cases ho : other = key
      · rw [if_pos ho, ho, hget]
      · rw [if_neg ho, h.get?_eq]
  · have hnew : b.lastId + 1 = numberOf (mentions ++ [.register key]) key := by
      rw [h.lastId_eq]
      exact (numberOf_concat_of_notMem (x := .register key) hm).symm
    rw [register_of_get?_eq_none ((h.get?_eq key).trans (if_neg hm))]
    refine ⟨hnew, ?_, fun other => ?_⟩
    · rw [mentioned_concat_of_notMem (x := .register key) hm, List.length_append, UInt32.ofNat_add,
        ← h.lastId_eq]
      rfl
    · rw [entryOf?_register, lastPayload?_of_notMem hm, ← hnew, ← h.get?_eq]
      exact Table.get?_set _ _ _ _

theorem Numbers.resolve (h : b.Numbers mentions) (key : String) (payload : Entry) :
    (b.resolve key payload).1 = numberOf (mentions ++ [.resolve key payload]) key ∧
      (b.resolve key payload).2.Numbers (mentions ++ [.resolve key payload]) := by
  obtain ⟨hid, hnext⟩ := h.register key
  have hkeys := mentioned_resolve mentions key payload
  refine ⟨hid.trans (by rw [numberOf, numberOf, hkeys]), ?_, fun other => ?_⟩
  · rw [hkeys]
    exact hnext.lastId_eq
  · rw [entryOf?_resolve, ← hid]
    refine (Table.get?_set _ _ _ _).trans ?_
    by_cases ho : other = key
    · rw [if_pos ho, if_pos ho]
      rfl
    · rw [if_neg ho, if_neg ho]
      exact (hnext.get?_eq other).trans ((entryOf?_register mentions key other).trans (if_neg ho))

theorem Numbers.apply (h : b.Numbers mentions) (x : Mention) :
    (b.apply x).1 = numberOf (mentions ++ [x]) x.key ∧ (b.apply x).2.Numbers (mentions ++ [x]) := by
  cases x with
  | register key => exact h.register key
  | resolve key payload => exact h.resolve key payload

theorem Numbers.run {before : List Mention} (h : b.Numbers before) (after : List Mention) :
    (b.run after).1 = after.map (fun x => numberOf (before ++ after) x.key) ∧
      (b.run after).2.Numbers (before ++ after) := by
  induction after generalizing b before with
  | nil => exact ⟨rfl, by rwa [List.append_nil]⟩
  | cons x rest ih =>
    obtain ⟨hid, hnext⟩ := h.apply x
    obtain ⟨hids, hlast⟩ := ih hnext
    have hall : before ++ [x] ++ rest = before ++ x :: rest := by
      rw [List.append_assoc, List.singleton_append]
    have hx : x.key ∈ mentioned (before ++ [x]) := mem_mentioned_concat.2 (.inr rfl)
    have hnumber := numberOf_append hx rest
    rw [hall] at hids hlast hnumber
    exact ⟨congrArg₂ List.cons (hid.trans hnumber.symm) hids, hlast⟩

theorem Numbers.size_eq (h : b.Numbers mentions) : b.size = (mentioned mentions).length := by
  have hmem : ∀ key, key ∈ b.entries.names ↔ key ∈ mentioned mentions := by
    intro key
    have hget : b.entries.get? key = entryOf? mentions key := h.get?_eq key
    rw [Table.mem_names, hget, entryOf?]
    by_cases hk : key ∈ mentioned mentions <;> simp [hk]
  have hperm := (List.perm_ext_iff_of_nodup b.entries.nodup_names (nodup_mentioned mentions)).2 hmem
  rw [← hperm.length_eq, Table.names, List.length_map]
  rfl

theorem Numbers.contentId?_eq (h : b.Numbers mentions) (key : String) : b.contentId? key =
    if key ∈ mentioned mentions then some (numberOf mentions key) else none := by
  rw [contentId?, h.get?_eq, entryOf?]
  split <;> rfl

theorem Numbers.payload_eq (h : b.Numbers mentions) (key : String) :
    (b.get? key).bind (·.payload) = lastPayload? mentions key := by
  rw [h.get?_eq, entryOf?]
  split
  next => rfl
  next hm => exact (lastPayload?_of_notMem hm).symm

/-- A key keeps its id in all that is mentioned later. -/
theorem extends_run (before after : List Mention) :
    (empty.run before).2.Extends (empty.run (before ++ after)).2 := by
  intro key id hid
  have hbefore := (numbers_empty.run before).2.contentId?_eq key
  have hafter := (numbers_empty.run (before ++ after)).2.contentId?_eq key
  rw [List.nil_append] at hbefore hafter
  rw [hid] at hbefore
  by_cases hm : key ∈ mentioned before
  · have hlater : key ∈ mentioned (before ++ after) := by
      rw [mentioned_append]
      exact List.mem_append_left _ hm
    rw [hafter, if_pos hlater, numberOf_append hm, hbefore, if_pos hm]
  · exact absurd hbefore (by rw [if_neg hm]; exact nofun)

/-- As long as there are fewer than 2 ^ 32 keys, each has a number of its own. -/
theorem content_ids (mentions : List Mention) (h : (mentioned mentions).length < UInt32.size) :
    let keys := mentioned mentions
    let ids := (empty.run mentions).1
    let b := (empty.run mentions).2
    keys.map (fun key => (b.contentId? key).map UInt32.toNat) =
        (List.range' 1 keys.length).map some ∧
      b.size = keys.length ∧
      (∀ key, (b.get? key).isSome ↔ key ∈ keys) ∧
      (∀ key other id, b.contentId? key = some id → b.contentId? other = some id → key = other) ∧
      (∀ before after, mentions = before ++ after → (empty.run before).2.Extends b) ∧
      ids.map some = mentions.map (fun x => b.contentId? x.key) ∧
      ∀ key, (b.get? key).bind (·.payload) = lastPayload? mentions key := by
  have hrun := numbers_empty.run mentions
  rw [List.nil_append] at hrun
  obtain ⟨hids, hb⟩ := hrun
  refine ⟨?_, hb.size_eq, fun key => ?_, fun key other id hkey hother => ?_, ?_, ?_, hb.payload_eq⟩
  · refine List.ext_getElem (by simp) fun i hi _ => ?_
    rw [List.length_map] at hi
    have hnumber := (nodup_mentioned mentions).idxOf_getElem i hi
    rw [List.getElem_map, List.getElem_map, List.getElem_range', hb.contentId?_eq,
      if_pos (List.getElem_mem hi), Option.map_some, toNat_numberOf h (List.getElem_mem hi), hnumber,
      Nat.one_mul, Nat.add_comm]
  · rw [hb.get?_eq, entryOf?]
    split <;> simp_all
  · rw [hb.contentId?_eq, Option.ite_none_right_eq_some] at hkey hother
    exact numberOf_inj h hkey.1 hother.1 (Option.some.inj (hkey.2.trans hother.2.symm))
  · rintro before after rfl
    exact extends_run before after
  · rw [hids, List.map_map]
    refine List.map_congr_left fun x hx => ?_
    rw [hb.contentId?_eq, if_pos (mem_mentioned.2 ⟨x, hx, rfl⟩)]
    rfl

def orderMentions : List Mention :=
  [.register "customer", .resolve "order" (.ofList [("OrderID", .int32 7)]), .register "customer",
    .resolve "customer" (.ofList [("CustomerID", .string "ALFKI")]),
    .resolve "order" (.ofList [("OrderID", .int32 8)])]

theorem content_ids_orders :
    (mentioned orderMentions).length < UInt32.size ∧
      (empty.run orderMentions).1 = [1, 2, 1, 1, 2] ∧
      (empty.run orderMentions).2.size = 2 ∧
      ((empty.run orderMentions).2.get? "order").bind (·.payload) =
        some (.ofList [("OrderID", .int32 8)]) := by
  have hkeys : mentioned orderMentions = ["customer", "order"] := by decide
  have hfew : (mentioned orderMentions).length < UInt32.size := by rw [hkeys]; decide
  obtain ⟨-, hsize, -, -, -, -, hpayload⟩ := content_ids orderMentions hfew
  refine ⟨hfew, by decide, hsize.trans (congrArg List.length hkeys), (hpayload "order").trans rfl⟩

end ODataClient.BatchEntries
