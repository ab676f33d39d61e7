import ODataClient.Proofs.Model.Path
import ODataClient.Proofs.Text.Segments

/-! Where paths end. A path follows its hops and then names a property of the entity that
it has come to. A path read from the end of another one goes on along its route. -/

namespace ODataClient

/-- The navigations that a path follows, and the segments after them. -/
structure Route where
  hops : List Hop
  rest : List String
  deriving DecidableEq

def Route.after (passed : List Hop) (r : Route) : Route := ⟨passed ++ r.hops, r.rest⟩

namespace EntityModel

def TargetsDeclared (m : EntityModel) : Prop :=
  ∀ c ∈ m.collections, ∀ n ∈ c.navigations, (m.collection? n.target).isSome

instance (m : EntityModel) : Decidable m.TargetsDeclared :=
  inferInstanceAs (Decidable (∀ c ∈ m.collections, ∀ n ∈ c.navigations, _))

def route (m : EntityModel) (current : String) (segs : List String) : Route :=
  ⟨m.hops current segs, segs.drop (m.hops current segs).length⟩

def leadsTo (m : EntityModel) : String → List String → Option String
  | current, [] => some current
  | current, segment :: rest =>
    (m.navigation? current segment).bind fun n =>
      (m.collection? n.target).bind fun c => m.leadsTo c.name rest

variable {m : EntityModel} {current d : String}

theorem length_hops_le (m : EntityModel) (current : String) (segs : List String) :
    (m.hops current segs).length ≤ segs.length := by
  induction segs generalizing current with
  | nil => simp [hops]
  | cons segment rest ih =>
    cases hn : m.navigation? current segment with
    | none => simp [hops_cons_none hn]
    | some n =>
      rw [hops_cons hn]
      cases m.collection? n.target with
      | none => simp
      | some c => simpa using ih c.name

theorem route_length (m : EntityModel) (current : String) (segs : List String) :
    (m.route current segs).hops.length + (m.route current segs).rest.length = segs.length := by
  have h := length_hops_le m current segs
  simp only [route, List.length_drop]
  omega

theorem hops_append {p : List String} (h : m.leadsTo current p = some d) (q : List String) :
    m.hops current (p ++ q) = m.hops current p ++ m.hops d q := by
  induction p generalizing current with
  | nil =>
    obtain rfl : current = d := by simpa [leadsTo] using h
    rfl
  | cons segment rest ih =>
    obtain ⟨n, hn, h⟩ := Option.bind_eq_some_iff.1 h
    obtain ⟨c, hc, h⟩ := Option.bind_eq_some_iff.1 h
    rw [List.cons_append, hops_cons hn, hops_cons hn, hc]
    simp only [ih h, List.cons_append]

theorem length_hops_of_leadsTo {p : List String} (h : m.leadsTo current p = some d) :
    (m.hops current p).length = p.length := by
  induction p generalizing current with
  | nil => simp [hops]
  | cons segment rest ih =>
    obtain ⟨n, hn, h⟩ := Option.bind_eq_some_iff.1 h
    obtain ⟨c, hc, h⟩ := Option.bind_eq_some_iff.1 h
    rw [hops_cons hn, hc]
    simp [ih h]

theorem route_append {p : List String} (h : m.leadsTo current p = some d) (q : List String) :
    m.route current (p ++ q) = (m.route d q).after (m.hops current p) := by
  have hd : (p ++ q).drop (m.hops current (p ++ q)).length = q.drop (m.hops d q).length := by
    rw [hops_append h, List.length_append, length_hops_of_leadsTo h, List.drop_append]
    simp
  rw [route, hd, hops_append h]
  rfl

theorem hops_take (m : EntityModel) (current : String) (segs : List String) (k : Nat) :
    m.hops current (segs.take k) = (m.hops current segs).take k := by
  induction segs generalizing current k with
  | nil => simp [hops]
  | cons segment rest ih =>
    cases k with
    | zero => simp [hops]
    | succ k =>
      rw [List.take_succ_cons]
      cases hn : m.navigation? current segment with
      | none => simp [hops_cons_none hn]
      | some n =>
        rw [hops_cons hn, hops_cons hn, List.take_succ_cons]
        cases m.collection? n.target with
        | none => simp
        | some c => simp only [ih]

theorem hops_hopNames (m : EntityModel) (current : String) (segs : List String) :
    m.hops current (hopNames (m.hops current segs)) = m.hops current segs := by
  induction segs generalizing current with
  | nil => rfl
  | cons segment rest ih =>
    cases hn : m.navigation? current segment with
    | none => rw [hops_cons_none hn]; rfl
    | some n =>
      rw [hops_cons hn, hopNames, List.map_cons, hops_cons (navigation?_name hn)]
      cases m.collection? n.target with
      | none => rfl
      | some c => exact congrArg _ (ih c.name)

theorem leadsTo_hopNames {segs : List String}
    (h : (m.hops current segs).length = segs.length) :
    m.leadsTo current (hopNames (m.hops current segs)) = m.leadsTo current segs := by
  induction segs generalizing current with
  | nil => rfl
  | cons segment rest ih =>
    cases hn : m.navigation? current segment with
    | none => simp [hops_cons_none hn] at h
    | some n =>
      rw [hops_cons hn] at h ⊢
      rw [hopNames, List.map_cons, leadsTo, leadsTo, navigation?_name hn, hn]
      cases hc : m.collection? n.target with
      | none => simp [hc]
      | some c =>
        rw [hc] at h
        have hr : (m.hops c.name rest).length = rest.length := by simpa using h
        simpa [hc, hopNames] using ih hr

theorem target_of_declared (hd : m.TargetsDeclared) {segment : String} {n : NavigationProperty}
    (hn : m.navigation? current segment = some n) : ∃ c, m.collection? n.target = some c := by
  obtain ⟨c, hc, hn⟩ := Option.bind_eq_some_iff.1 hn
  exact Option.isSome_iff_exists.1 (hd c (mem_of_findByName hc) n (mem_of_findByName hn))

theorem leadsTo_of_declared (hd : m.TargetsDeclared) {segs : List String}
    (h : (m.hops current segs).length = segs.length) : ∃ d, m.leadsTo current segs = some d := by
  induction segs generalizing current with
  | nil => exact ⟨current, rfl⟩
  | cons segment rest ih =>
    cases hn : m.navigation? current segment with
    | none => simp [hops_cons_none hn] at h
    | some n =>
      obtain ⟨c, hc⟩ := target_of_declared hd hn
      rw [hops_cons hn, hc] at h
      have hr : (m.hops c.name rest).length = rest.length := by simpa using h
      obtain ⟨d, hd⟩ := ih hr
      exact ⟨d, by simp [leadsTo, hn, hc, hd]⟩

theorem noSlash_of_mem_hopNames {segs : List String} (h : ∀ s ∈ segs, '/' ∉ s.toList)
    {name : String} (hm : name ∈ hopNames (m.hops current segs)) : '/' ∉ name.toList := by
  induction segs generalizing current with
  | nil => simp [hops, hopNames] at hm
  | cons segment rest ih =>
    cases hn : m.navigation? current segment with
    | none => simp [hops_cons_none hn, hopNames] at hm
    | some n =>
      rw [hops_cons hn, hopNames, List.map_cons, List.mem_cons] at hm
      rcases hm with rfl | hm
      · exact noSlash_of_sameName (sameName_of_navigation? hn) (h segment (by simp))
      · cases hc : m.collection? n.target with
        | none => simp [hc] at hm
        | some c =>
          rw [hc] at hm
          exact ih (fun s hs => h s (List.mem_cons_of_mem _ hs)) hm

variable {root path b : String}

theorem lt_length_of_crossing {i : Nat} (h : crossing? (m.hops root (segments path)) = some i) :
    i < (m.hops root (segments path)).length ∧ i < (segments path).length := by
  have hi : i < (m.hops root (segments path)).length :=
    (List.findIdx?_eq_some_iff_findIdx_eq.1 h).1
  have hle := length_hops_le m root (segments path)
  exact ⟨hi, by omega⟩

/-- The names up to the first hop to many entities are the segments of their path. -/
theorem segments_of_crossing {i : Nat} (h : crossing? (m.hops root (segments path)) = some i) :
    segments (joinSegments (hopNames ((m.hops root (segments path)).take (i + 1)))) =
      hopNames ((m.hops root (segments path)).take (i + 1)) := by
  obtain ⟨hi, -⟩ := lt_length_of_crossing h
  refine segments_joinSegments (fun hn => ?_) fun s hs => ?_
  · have hz := congrArg List.length hn
    rw [hopNames, List.length_map, List.length_take, List.length_nil] at hz
    omega
  · rw [← hops_take] at hs
    exact noSlash_of_mem_hopNames
      (fun s hs => noSlash_of_mem_segments (List.mem_of_mem_take hs)) hs

theorem filterEntity_away (h : m.filterEntity root path = .ok b) (hb : b ≠ root) :
    ∃ i, crossing? (m.hops root (segments path)) = some i ∧
      segments b = hopNames (m.hops root ((segments path).take (i + 1))) ∧
      (m.hops root ((segments path).take (i + 1))).length = ((segments path).take (i + 1)).length ∧
      i < (segments path).length := by
  rw [filterEntity] at h
  cases hc : crossing? (m.hops root (segments path)) with
  | none =>
    rw [hc] at h
    dsimp only at h
    split at h
    · simp at h
    · exact absurd (Except.ok.inj h).symm hb
  | some i =>
    rw [hc] at h
    obtain ⟨hi, hlt⟩ := lt_length_of_crossing hc
    refine ⟨i, rfl, ?_, ?_, hlt⟩
    · rw [← Except.ok.inj h, segments_of_crossing hc, hops_take]
    · rw [hops_take, List.length_take, List.length_take]
      omega

/-- The collection that a reference is filed under has as many segments as its path up to there. -/
theorem length_segments_of_away (h : m.filterEntity root path = .ok b) (hb : b ≠ root) :
    ∃ i, crossing? (m.hops root (segments path)) = some i ∧ (segments b).length = i + 1 ∧
      i < (segments path).length := by
  obtain ⟨i, hi, hsegments, hlen, hlt⟩ := filterEntity_away h hb
  refine ⟨i, hi, ?_, hlt⟩
  rw [hsegments, hopNames, List.length_map, hlen, List.length_take]
  omega

theorem route_after_drop {k : Nat}
    (hb : segments b = hopNames (m.hops root ((segments path).take k)))
    (hlen : (m.hops root ((segments path).take k)).length = ((segments path).take k).length)
    (hd : m.leadsTo root (segments b) = some d) :
    (m.route d ((segments path).drop k)).after (m.hops root (segments b)) =
      m.route root (segments path) := by
  rw [hb, leadsTo_hopNames hlen] at hd
  rw [hb, hops_hopNames, ← route_append hd, List.take_append_drop]

/-- A path read from the end of another one never leads where it leads from the root. -/
theorem route_after_self_ne {segs p : List String} (hp : p ≠ [])
    (hd : m.leadsTo root p = some d) :
    (m.route d segs).after (m.hops root p) ≠ m.route root segs := by
  intro he
  have hh := congrArg (fun r : Route => r.hops.length + r.rest.length) he
  have hpos : 0 < p.length := List.length_pos_iff.2 hp
  have hl := route_length m d segs
  have hr := route_length m root segs
  simp only [Route.after, List.length_append, length_hops_of_leadsTo hd] at hh
  omega

end EntityModel

end ODataClient
