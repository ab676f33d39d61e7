import ODataClient.Proofs.Request.Refusals
import ODataClient.Proofs.Text.Segments

/-! What becomes of a function or action. Every accepted invocation stays in the chain, but a
navigation or a cast starts a node without one, which the next may be put on; and only the
invocation of the last node gets into a request. -/

namespace ODataClient

def InvocationKind.method : InvocationKind → HttpMethod
  | function => .get
  | action => .post

theorem Call.invocation?_eq_some {x : Call} {i : Invocation} :
    x.invocation? = some i ↔ x = .invoke i := by
  cases x <;> simp [Call.invocation?]

namespace Command

variable {c d : Command} {x : Call} {calls before after : List Call} {i : Invocation}

/-- The functions and actions along the chain. -/
def invocations (c : Command) : List Invocation := c.chain.filterMap (·.invocation)

theorem invocations_eq (c : Command) :
    c.invocations = c.ancestors.filterMap (·.invocation) ++ c.node.invocation.toList := by
  rw [invocations, chain, List.filterMap_append]
  cases h : c.node.invocation <;> simp [h]

theorem invocation_applied (c : Command) (x : Call) : (c.applied x).node.invocation =
    if x.step?.isSome then none else x.invocation?.or c.node.invocation := by
  cases hstep : x.step? with
  | none =>
    rw [applied_of_stay hstep]
    exact Call.invocation_edit _ x c.node
  | some segment =>
    rw [applied_of_step hstep]
    rfl

theorem step?_of_invocation? (h : x.invocation? = some i) : x.step? = none := by
  obtain rfl := Call.invocation?_eq_some.1 h
  rfl

/-- An accepted call adds its invocation to the chain and takes none away. -/
theorem invocations_applied (hx : c.Accepts x) :
    (c.applied x).invocations = c.invocations ++ x.invocation?.toList := by
  cases hstep : x.step? with
  | some segment =>
    have hnone : x.invocation? = none := by
      by_contra hsome
      obtain ⟨i, hi⟩ := Option.ne_none_iff_exists'.1 hsome
      simp [step?_of_invocation? hi] at hstep
    rw [applied_of_step hstep, hnone, invocations_eq]
    rfl
  | none =>
    rw [invocations_eq, invocations_eq, invocation_applied, hstep, applied_of_stay hstep]
    cases hi : x.invocation? with
    | none => simp [update]
    | some i =>
      have hfree : c.node.invocation = none := hx.single (by simp [hi])
      simp [hfree, update]

theorem invocations_of_run (h : calls.foldlM apply c = .ok d) :
    d.invocations = c.invocations ++ calls.filterMap Call.invocation? := by
  induction calls generalizing c with
  | nil =>
    obtain rfl : c = d := Except.ok.inj h
    simp
  | cons x calls ih =>
    obtain ⟨hx, h⟩ := foldlM_cons_eq_ok_iff.1 h
    rw [ih h, invocations_applied hx, List.append_assoc]
    cases hi : x.invocation? <;> simp [hi]

/-- While the calls stay, the invocation of the node stays and is the only one. -/
theorem invocation_of_stays (h : calls.foldlM apply c = .ok d)
    (hstay : ∀ x ∈ calls, x.step? = none) (hi : c.node.invocation = some i) :
    d.node.invocation = some i ∧ calls.filterMap Call.invocation? = [] := by
  induction calls generalizing c with
  | nil =>
    obtain rfl : c = d := Except.ok.inj h
    exact ⟨hi, rfl⟩
  | cons x calls ih =>
    obtain ⟨hx, h⟩ := foldlM_cons_eq_ok_iff.1 h
    have hnone : x.invocation? = none := by
      by_contra hsome
      have hfree := hx.single (Option.isSome_iff_ne_none.2 hsome)
      simp [hi] at hfree
    have hkept : (c.applied x).node.invocation = some i := by
      rw [invocation_applied, hstay x List.mem_cons_self, hnone]
      exact hi
    obtain ⟨hd, hcalls⟩ := ih h (fun y hy => hstay y (List.mem_cons_of_mem x hy)) hkept
    exact ⟨hd, by rw [List.filterMap_cons_none hnone, hcalls]⟩

theorem invocation_of_none (h : calls.foldlM apply c = .ok d)
    (hnone : calls.filterMap Call.invocation? = []) (hc : c.node.invocation = none) :
    d.node.invocation = none := by
  induction calls generalizing c with
  | nil =>
    obtain rfl : c = d := Except.ok.inj h
    exact hc
  | cons x calls ih =>
    obtain ⟨-, h⟩ := foldlM_cons_eq_ok_iff.1 h
    have hx : x.invocation? = none := by
      cases hi : x.invocation? with
      | none => rfl
      | some i => simp [hi] at hnone
    rw [List.filterMap_cons_none hx] at hnone
    refine ih h hnone ?_
    rw [invocation_applied, hx, hc]
    simp

theorem segment_of_run (h : calls.foldlM apply c = .ok d) (hs : c.node.segment.isSome = true) :
    d.node.segment.isSome = true :=
  foldlM_apply_induction (P := fun e => e.node.segment.isSome = true) h hs fun _ y _ he _ =>
    segment_applied he y

/-- Without a step after it, an invocation is the last one and stays on the node. -/
theorem invocation_of_last (h : (before ++ .invoke i :: after).foldlM apply c = .ok d)
    (hstay : ∀ x ∈ after, x.step? = none) :
    d.node.invocation = some i ∧ after.filterMap Call.invocation? = [] := by
  obtain ⟨e, -, h⟩ := foldlM_append_eq_ok_iff.1 h
  obtain ⟨-, h⟩ := foldlM_cons_eq_ok_iff.1 h
  exact invocation_of_stays h hstay (by rfl)

end Command

namespace Adapter

variable {a : Adapter} {c : Command} {i : Invocation} {r : CompiledRequest}

/-- A request ends in a function or action. -/
def EndsIn (a : Adapter) (c : Command) (i : Invocation) (r : CompiledRequest) : Prop :=
  (∃ front, a.resource c = .ok front ∧ r.path = joinSegments (front ++ [a.invocationSegment i])) ∧
    r.method = i.kind.method

theorem compile_eq_ok_iff : a.compile c = .ok r ↔ ∃ filters, a.analyze c = .ok filters ∧
    a.clauses c filters = .ok r.clauses ∧ a.path c = .ok r.path ∧ a.method c = .ok r.method ∧
    a.filterTexts filters = .ok r.entityFilters ∧ r.payload = a.payload c := by
  constructor
  · intro h
    obtain ⟨filters, hfilters, h⟩ := bind_eq_ok_iff.1 h
    obtain ⟨clauses, hclauses, h⟩ := bind_eq_ok_iff.1 h
    obtain ⟨path, hpath, h⟩ := bind_eq_ok_iff.1 h
    obtain ⟨method, hmethod, h⟩ := bind_eq_ok_iff.1 h
    obtain ⟨texts, htexts, h⟩ := bind_eq_ok_iff.1 h
    obtain rfl := Except.ok.inj h
    exact ⟨filters, hfilters, hclauses, hpath, hmethod, htexts, rfl⟩
  · rintro ⟨filters, hfilters, hclauses, hpath, hmethod, htexts, hpayload⟩
    rw [compile, hfilters, ok_bind, hclauses, ok_bind, hpath, ok_bind, hmethod, ok_bind, htexts,
      ok_bind, ← hpayload]
    rfl

theorem path_of_compile (h : a.compile c = .ok r) : a.path c = .ok r.path := by
  obtain ⟨_, -, -, hpath, -⟩ := compile_eq_ok_iff.1 h
  exact hpath

theorem method_of_compile (h : a.compile c = .ok r) : a.method c = .ok r.method := by
  obtain ⟨_, -, -, -, hmethod, -⟩ := compile_eq_ok_iff.1 h
  exact hmethod

theorem method_of_invocation (hi : c.node.invocation = some i) :
    a.method c = .ok i.kind.method := by
  simp only [method, hi]
  cases i.kind with
  | function => rfl
  | action => rfl

theorem endsIn_of_invocation (h : a.compile c = .ok r) (hi : c.node.invocation = some i) :
    a.EndsIn c i r := by
  have hpath := path_of_compile h
  rw [path_eq, map_eq_ok_iff] at hpath
  obtain ⟨front, hfront, hpath⟩ := hpath
  refine ⟨⟨front, hfront, ?_⟩, ?_⟩
  · rw [← hpath, hi]
    rfl
  · exact Except.ok.inj ((method_of_compile h).symm.trans (method_of_invocation hi))

theorem segments_addKey {p q : Address} {keys : Keys} (h : a.addKey p keys = .ok q)
    (hp : p.segments ≠ []) : q.segments ≠ [] := by
  rw [addKey] at h
  split at h
  · obtain rfl := Except.ok.inj h
    exact hp
  · obtain ⟨predicate, -, h⟩ := bind_eq_ok_iff.1 h
    split at h
    · obtain rfl := Except.ok.inj h
      simp
    · cases h

/-- A command that addresses something has an address. -/
theorem address_ne_nil {p : Address} (hs : c.node.segment.isSome = true)
    (h : a.address c.chain = .ok p) : p.segments ≠ [] := by
  rw [address, Command.chain, List.foldlM_append] at h
  obtain ⟨p₀, -, h⟩ := bind_eq_ok_iff.1 h
  rw [List.foldlM_cons] at h
  obtain ⟨q, hq, h⟩ := bind_eq_ok_iff.1 h
  obtain rfl := Except.ok.inj h
  obtain ⟨q', hq', hkey⟩ := bind_eq_ok_iff.1 hq
  exact segments_addKey hkey (segments_ne_nil hs hq')

theorem resource_ne_nil {front : List String} (hs : c.node.segment.isSome = true)
    (h : a.resource c = .ok front) : front ≠ [] := by
  obtain ⟨p, hp, h⟩ := bind_eq_ok_iff.1 h
  obtain ⟨links, -, h⟩ := bind_eq_ok_iff.1 h
  obtain rfl := Except.ok.inj h
  simp [address_ne_nil hs hp]

theorem not_endsIn_of_none (h : a.compile c = .ok r) (hs : c.node.segment.isSome = true)
    (hi : c.node.invocation = none) : ¬ a.EndsIn c i r := by
  rintro ⟨⟨front, hfront, hends⟩, -⟩
  have hpath := path_of_compile h
  rw [path_eq, hfront, map_ok, hi, Option.map_none, Option.toList_none, List.append_nil] at hpath
  have hne := resource_ne_nil hs hfront
  -- the segment of the invocation would come after the whole path
  have hlength := congrArg String.length ((Except.ok.inj hpath).trans hends)
  have hslash : "/".length = 1 := rfl
  rw [joinSegments_append hne (by simp), String.length_append, String.length_append] at hlength
  omega

end Adapter

namespace Command

open Adapter

variable {c d : Command} {calls : List Call} {i : Invocation}

/-- The chain keeps every invocation that was accepted. A request ends in the only one of them
exactly when no navigation and no cast comes after an invocation. -/
theorem invocation_kept_iff (h : build calls = .ok c) (hi : .invoke i ∈ calls) :
    c.invocations = calls.filterMap Call.invocation? ∧
    ∀ (a : Adapter) (r : CompiledRequest), a.compile c = .ok r →
      ((c.invocations = [i] ∧ a.EndsIn c i r) ↔
        ∀ before j after, calls = before ++ .invoke j :: after → ∀ x ∈ after, x.step? = none) := by
  obtain ⟨hrun, -⟩ := build_eq_ok_iff.1 h
  have hall : c.invocations = calls.filterMap Call.invocation? := by
    simpa [invocations, chain, empty, CommandNode.empty] using invocations_of_run hrun
  refine ⟨hall, fun a r hr => ⟨?_, ?_⟩⟩
  · rintro ⟨hone, hends⟩ before j after hcalls x hx
    by_contra hstep
    obtain ⟨segment, hstep⟩ := Option.ne_none_iff_exists'.1 hstep
    obtain ⟨middle, rest, rfl⟩ := List.append_of_mem hx
    subst hcalls
    have hrest : rest.filterMap Call.invocation? = [] := by
      have hsub : (Call.invoke j :: rest).Sublist (before ++ .invoke j :: (middle ++ x :: rest)) := by
        refine List.Sublist.trans (List.Sublist.cons_cons _ ?_) (List.sublist_append_right _ _)
        exact (List.sublist_cons_self x rest).trans (List.sublist_append_right _ _)
      have hlength := (hsub.filterMap Call.invocation?).length_le
      rw [← hall, hone, List.filterMap_cons_some (by rfl), List.length_cons] at hlength
      exact List.eq_nil_of_length_eq_zero (by simpa using hlength)
    obtain ⟨e, -, hrun⟩ := foldlM_append_eq_ok_iff.1 hrun
    obtain ⟨-, hrun⟩ := foldlM_cons_eq_ok_iff.1 hrun
    obtain ⟨e', -, hrun⟩ := foldlM_append_eq_ok_iff.1 hrun
    obtain ⟨hx, hrun⟩ := foldlM_cons_eq_ok_iff.1 hrun
    have hfree : (e'.applied x).node.invocation = none := by
      rw [invocation_applied, hstep]
      rfl
    have hs : (e'.applied x).node.segment.isSome = true :=
      segment_applied (hx.entity (Call.needsEntity_of_step? hstep)) x
    exact Adapter.not_endsIn_of_none hr (segment_of_run hrun hs)
      (invocation_of_none hrun hrest hfree) hends
  · intro hlast
    obtain ⟨before, after, rfl⟩ := List.append_of_mem hi
    obtain ⟨hnode, hafter⟩ := invocation_of_last hrun (hlast before i after rfl)
    have hbefore : before.filterMap Call.invocation? = [] := by
      by_contra hne
      obtain ⟨j, hj⟩ := List.exists_mem_of_ne_nil _ hne
      obtain ⟨x, hx, hxj⟩ := List.mem_filterMap.1 hj
      obtain rfl := Call.invocation?_eq_some.1 hxj
      obtain ⟨first, second, rfl⟩ := List.append_of_mem hx
      rw [List.append_assoc, List.cons_append] at hrun hlast
      have hnone := (invocation_of_last hrun (hlast first j _ rfl)).2
      have hmem : i ∈ (second ++ .invoke i :: after).filterMap Call.invocation? :=
        List.mem_filterMap.2 ⟨.invoke i, by simp, rfl⟩
      exact absurd hmem (by simp [hnone])
    refine ⟨?_, Adapter.endsIn_of_invocation hr hnode⟩
    rw [hall, List.filterMap_append, hbefore, List.filterMap_cons_some (by rfl), hafter]
    rfl

def topSellers : Invocation := ⟨.function, "TopSellers", [("count", .int32 3)]⟩

/-- The best sold products of a category, and how many details the best of them has. -/
def topOfCategory : List Call :=
  [.collection "Categories", .key [.int32 1], .navigate "Products", .invoke topSellers, .top 3]

theorem topOfCategory_invocation :
    ∃ c r, build topOfCategory = .ok c ∧ (northwindAdapter .v4).compile c = .ok r ∧
      r.uri = "Categories(1)/Products/TopSellers(count=3)?$top=3" ∧
      c.invocations = [topSellers] ∧ (northwindAdapter .v4).EndsIn c topSellers r := by
  obtain ⟨c, r, hc, hr, huri⟩ : ∃ c r, build topOfCategory = .ok c ∧
      (northwindAdapter .v4).compile c = .ok r ∧
      r.uri = "Categories(1)/Products/TopSellers(count=3)?$top=3" := ⟨_, _, rfl, rfl, rfl⟩
  refine ⟨c, r, hc, hr, huri, ?_⟩
  refine ((invocation_kept_iff hc (by simp [topOfCategory])).2 _ r hr).2 ?_
  intro before j after hcalls x hx
  have hafter : after = [.top 3] := by
    rcases before with _ | ⟨x₁, _ | ⟨x₂, _ | ⟨x₃, _ | ⟨x₄, _ | ⟨x₅, before⟩⟩⟩⟩⟩ <;>
      simp_all [topOfCategory]
  subst hafter
  obtain rfl := List.mem_singleton.1 hx
  rfl

def discontinued : Invocation := ⟨.function, "Discontinued", []⟩

def siblings : Invocation := ⟨.function, "Siblings", []⟩

def discontinuedSiblings : List Call :=
  [.collection "Products", .invoke discontinued, .navigate "Category", .invoke siblings]

def discontinuedSiblingsRequest : CompiledRequest where
  method := .get
  path := "Products/Category/Siblings()"
  clauses := []
  entityFilters := .empty
  payload := none

/-- The guard against a second invocation looks at the node only: behind a navigation it is
accepted, and the first one is not in the request. -/
theorem discontinuedSiblings_invocations :
    ∃ c, build discontinuedSiblings = .ok c ∧ c.invocations = [discontinued, siblings] ∧
      (northwindAdapter .v4).compile c = .ok discontinuedSiblingsRequest ∧
      ¬ (northwindAdapter .v4).EndsIn c discontinued discontinuedSiblingsRequest := by
  refine ⟨_, rfl, rfl, rfl, ?_⟩
  rintro ⟨⟨front, hfront, hpath⟩, -⟩
  obtain rfl : ["Products", "Category"] = front := Except.ok.inj hfront
  revert hpath
  decide

end Command

end ODataClient
