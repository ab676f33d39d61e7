import Mathlib.Data.Finset.Card
import ODataClient.Proofs.Model.Memo

/-! Questions about navigations, asked one after the other. Whatever was asked before, every reply
is that of an empty memo, and in the end as many facts are remembered as there are different
pairs of an entity and a property, as they were spelled, that could be resolved. -/

namespace ODataClient

/-- What is asked about a property of an entity. -/
inductive Aspect
  | name
  | isNavigation
  | isCollection
  | partner
  deriving DecidableEq

structure Question where
  aspect : Aspect
  entity : String
  property : String
  deriving DecidableEq

inductive NavigationAnswer
  | name (name : Option String)
  | isNavigation (answer : Bool)
  | isCollection (answer : Except Error Bool)
  | partner (answer : Except Error String)

def Question.pair (q : Question) : String × String := (q.entity, q.property)

/-- The property is no navigation, or one that leads to a declared collection. -/
def EntityModel.resolves (m : EntityModel) (pair : String × String) : Bool :=
  (m.navigation? pair.1 pair.2).all fun n => (m.collection? n.target).isSome

theorem EntityModel.resolves_iff {m : EntityModel} {entity property : String} :
    m.resolves (entity, property) = true ↔ ∃ fact, m.navigator.fact entity property = .ok fact := by
  rw [resolves]
  cases hn : m.navigation? entity property with
  | none => exact ⟨fun _ => ⟨none, fact_of_none hn⟩, fun _ => rfl⟩
  | some n =>
    cases hc : m.collection? n.target with
    | none => simp [fact_of_undeclared hn hc, hc]
    | some c => simp [fact_of_declared hn hc, hc]

namespace Memo

variable {memo : Memo} {m : EntityModel} {asked : Finset (String × String)}

def isNavigation (memo : Memo) (entity property : String) : Bool × Memo :=
  let (name, memo) := memo.navigationName entity property
  (name.isSome, memo)

def reply (memo : Memo) (q : Question) : NavigationAnswer × Memo :=
  match q.aspect with
  | .name => (memo.navigationName q.entity q.property).map .name id
  | .isNavigation => (memo.isNavigation q.entity q.property).map .isNavigation id
  | .isCollection => (memo.isCollection q.entity q.property).map .isCollection id
  | .partner => (memo.partner q.entity q.property).map .partner id

def replies (memo : Memo) : List Question → List NavigationAnswer × Memo
  | [] => ([], memo)
  | q :: rest =>
    let (reply, memo) := memo.reply q
    let (others, memo) := memo.replies rest
    (reply :: others, memo)

/-- The pairs that are remembered. -/
def known (memo : Memo) : Finset (String × String) := (memo.facts.map (·.1)).toFinset

theorem reply_snd (memo : Memo) (q : Question) :
    (memo.reply q).2 = (memo.fact q.entity q.property).2 := by
  rw [reply]
  cases q.aspect <;> rfl

theorem Faithful.reply_eq (h : memo.Faithful) (q : Question) :
    (memo.reply q).1 = ((fresh memo.inner).reply q).1 := by
  have hfact := h.fact_eq q.entity q.property
  have hfresh : ((fresh memo.inner).fact q.entity q.property).1 =
      memo.inner.fact q.entity q.property := (faithful_fresh memo.inner).fact_eq q.entity q.property
  rw [reply, reply]
  cases q.aspect <;>
    simp only [isNavigation, navigationName, isCollection, partner, Prod.map_fst, hfact, hfresh]

theorem isSome_lookup {pair : String × String} :
    (memo.facts.lookup pair).isSome = true ↔ pair ∈ memo.known := by
  simp [known]

/-- What is remembered after these pairs were asked about. -/
structure Remembers (memo : Memo) (m : EntityModel) (asked : Finset (String × String)) : Prop where
  inner : memo.inner = m.navigator
  faithful : memo.Faithful
  nodup : (memo.facts.map (·.1)).Nodup
  known_eq : memo.known = asked.filter (m.resolves ·)

theorem remembers_fresh (m : EntityModel) : (fresh m.navigator).Remembers m ∅ where
  inner := rfl
  faithful := faithful_fresh m.navigator
  nodup := List.nodup_nil
  known_eq := rfl

theorem Remembers.size_eq (h : memo.Remembers m asked) :
    memo.size = (asked.filter (m.resolves ·)).card := by
  rw [← h.known_eq, known, List.toFinset_card_of_nodup h.nodup, List.length_map]
  rfl

/-- A pair is added when it is new and can be resolved; one that cannot is tried again. -/
theorem Remembers.fact (h : memo.Remembers m asked) (entity property : String) :
    (memo.fact entity property).2.Remembers m (insert (entity, property) asked) := by
  have hfaithful := h.faithful.fact entity property
  have hinner := (memo.inner_fact entity property).trans h.inner
  rw [Memo.fact] at hfaithful hinner ⊢
  cases hm : memo.facts.lookup (entity, property) with
  | some fact =>
    have hmem : (entity, property) ∈ asked.filter (m.resolves ·) :=
      h.known_eq ▸ isSome_lookup.1 (by rw [hm]; rfl)
    refine ⟨h.inner, h.faithful, h.nodup, ?_⟩
    rw [Finset.insert_eq_of_mem (Finset.mem_filter.1 hmem).1, h.known_eq]
  | none =>
    have hnew : (entity, property) ∉ memo.known := fun hk => by
      have hsome := isSome_lookup.2 hk
      rw [hm] at hsome
      exact absurd hsome (by simp)
    rw [hm] at hfaithful hinner
    cases hf : memo.inner.fact entity property with
    | error e =>
      have hfails : ¬ m.resolves (entity, property) = true := by
        rw [EntityModel.resolves_iff, ← h.inner, hf]
        simp
      refine ⟨h.inner, h.faithful, h.nodup, ?_⟩
      rw [Finset.filter_insert, if_neg hfails]
      exact h.known_eq
    | ok fact =>
      have hresolves : m.resolves (entity, property) = true := by
        rw [EntityModel.resolves_iff, ← h.inner]
        exact ⟨fact, hf⟩
      rw [hf] at hfaithful hinner
      refine ⟨hinner, hfaithful, ?_, ?_⟩
      · exact List.nodup_cons.2 ⟨fun hk => hnew (List.mem_toFinset.2 hk), h.nodup⟩
      · rw [Finset.filter_insert, if_pos hresolves, ← h.known_eq]
        exact List.toFinset_cons

theorem Remembers.replies (h : memo.Remembers m asked) (questions : List Question) :
    (memo.replies questions).1 = questions.map (fun q => ((fresh m.navigator).reply q).1) ∧
      (memo.replies questions).2.Remembers m (asked ∪ (questions.map Question.pair).toFinset) := by
  induction questions generalizing memo asked with
  | nil => exact ⟨rfl, by simpa [Memo.replies] using h⟩
  | cons q rest ih =>
    have hnext : (memo.reply q).2.Remembers m (insert q.pair asked) :=
      memo.reply_snd q ▸ h.fact q.entity q.property
    have hreply : (memo.reply q).1 = ((fresh m.navigator).reply q).1 :=
      h.inner ▸ h.faithful.reply_eq q
    obtain ⟨hothers, hlast⟩ := ih hnext
    refine ⟨congrArg₂ List.cons hreply hothers, ?_⟩
    rwa [List.map_cons, List.toFinset_cons, Finset.union_insert, ← Finset.insert_union]

/-- Replies do not depend on what was asked before, and the memo counts the pairs that could be
resolved. -/
theorem replies_as_fresh (m : EntityModel) (questions : List Question) :
    ((fresh m.navigator).replies questions).1 =
        questions.map (fun q => ((fresh m.navigator).reply q).1) ∧
      ((fresh m.navigator).replies questions).2.size =
        ((questions.map Question.pair).toFinset.filter (m.resolves ·)).card := by
  obtain ⟨hreplies, hlast⟩ := (remembers_fresh m).replies questions
  rw [Finset.empty_union] at hlast
  exact ⟨hreplies, hlast.size_eq⟩

example : ((fresh (northwind "4.0").navigator).replies [⟨.partner, "Orders", "Customer"⟩,
    ⟨.isNavigation, "Orders", "Freight"⟩, ⟨.isCollection, "orders", "Customer"⟩,
    ⟨.name, "Orders", "Customer"⟩]).2.size = 3 := by decide

end Memo

end ODataClient
