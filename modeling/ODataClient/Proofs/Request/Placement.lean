import ODataClient.Proofs.Request.Fragments

/-! Where fragments stand in a query. A fragment of the root bucket and a lambda over the
collection of its own bucket stand as they are. Any other one is read from its collection,
in the expand item of that collection or under a lambda over it. -/

namespace ODataClient

inductive Placement
  | whole
  | nested
  | wrapped
  deriving DecidableEq

namespace Placement

def predicate (b text : String) : Placement → Predicate
  | whole => .part text
  | nested => .nested b text
  | wrapped => .part (anyLambda b wrapperVariable text)

end Placement

namespace Adapter

variable {a : Adapter} {c : Command} {t : CommandTarget} {filters : EntityFilters} {b : String}
  {e : Expr}

theorem nests_of_legacy (hd : a.dialect = .legacy) (c : Command) (path : String) :
    a.nests c path = false := by
  rw [nests, hd]
  rfl

def placement (a : Adapter) (c : Command) (t : CommandTarget) (b : String) (e : Expr) : Placement :=
  if b = CommandTarget.rootBucket t ∨ e.isLambdaOver b then .whole
  else if a.nests c b then .nested
  else .wrapped

def emitted (a : Adapter) (b : String) (e : Expr) : Placement → Expr
  | .whole => e
  | .nested => a.relative b e
  | .wrapped => (a.relative b e).qualified wrapperVariable

def written (a : Adapter) (b : String) (e : Expr) (place : Placement) : Except Error String :=
  if place = .wrapped then a.renderer.render (a.emitted b e place)
  else a.conjunct (a.emitted b e place)

theorem relatedPredicate_eq (hb : b ≠ CommandTarget.rootBucket t) (e : Expr) :
    a.relatedPredicate c b e =
      (a.written b e (a.placement c t b e)).map fun text =>
        (a.placement c t b e).predicate b text := by
  rw [relatedPredicate]
  by_cases hl : e.isLambdaOver b = true
  · have hp : a.placement c t b e = .whole := by rw [placement, if_pos (Or.inr hl)]
    rw [if_pos hl, hp]
    rfl
  · have ho : ¬ (b = CommandTarget.rootBucket t ∨ e.isLambdaOver b = true) := by simp [hb, hl]
    rw [if_neg hl]
    by_cases hn : a.nests c b = true
    · have hp : a.placement c t b e = .nested := by rw [placement, if_neg ho, if_pos hn]
      rw [hp]
      exact if_pos hn
    · have hp : a.placement c t b e = .wrapped := by rw [placement, if_neg ho, if_neg hn]
      rw [hp]
      exact if_neg hn

theorem mem_predicates {predicates : List Predicate} (hp : a.predicates c t filters = .ok predicates)
    (he : e ∈ (filters.get? b).getD []) :
    ∃ text, a.written b e (a.placement c t b e) = .ok text ∧
      (a.placement c t b e).predicate b text ∈ predicates := by
  obtain ⟨own, hown, hp⟩ := bind_eq_ok_iff.1 hp
  obtain ⟨related, hrelated, hp⟩ := bind_eq_ok_iff.1 hp
  obtain rfl := Except.ok.inj hp
  by_cases hb : b = CommandTarget.rootBucket t
  · have hplace : a.placement c t b e = .whole := by rw [placement, if_pos (Or.inl hb)]
    obtain ⟨text, htext⟩ := exists_ok_of_mapM hown (hb ▸ he)
    refine ⟨text, by rw [hplace]; exact htext, ?_⟩
    have hm : text ∈ own := (mem_mapM_ok hown).2 ⟨e, hb ▸ he, htext⟩
    rw [hplace]
    simp [Placement.predicate, hm]
  · obtain ⟨fragments, hbucket⟩ : ∃ fragments, filters.get? b = some fragments := by
      cases h : filters.get? b with
      | none => simp [h] at he
      | some fragments => exact ⟨fragments, rfl⟩
    rw [hbucket, Option.getD_some] at he
    have hentry : (b, fragments) ∈ filters.entries.filter fun b => b.1 != CommandTarget.rootBucket t := by
      simp [Table.get?_eq_some_iff.1 hbucket, hb]
    obtain ⟨predicates, hpredicates⟩ := exists_ok_of_mapM hrelated hentry
    obtain ⟨predicate, hpredicate⟩ := exists_ok_of_mapM hpredicates he
    have hm := (mem_mapM_ok hrelated).2 ⟨_, hentry, hpredicates⟩
    have hm' := (mem_mapM_ok hpredicates).2 ⟨_, he, hpredicate⟩
    rw [relatedPredicate_eq hb] at hpredicate
    obtain ⟨text, htext, rfl⟩ := map_eq_ok_iff.1 hpredicate
    refine ⟨text, htext, ?_⟩
    simp only [List.mem_append, List.mem_flatten]
    exact Or.inl (Or.inr ⟨predicates, hm, hm'⟩)

end Adapter

end ODataClient
