import ODataClient.Proofs.Model.Lookup

/-! What is remembered about navigations. Whatever was asked before, the answers are those that
whole facts give; and over a model these are its own answers where a navigation leads to a
declared collection, and those of no navigation where it does not. -/

namespace ODataClient

/-- A question whose answer may be remembered. -/
inductive Lookup
  | navigationName (entity property : String)
  | isCollection (entity property : String)
  | partner (entity property : String)

namespace Memo

variable {memo : Memo}

/-- What is remembered once the question has been answered. -/
def ask (memo : Memo) : Lookup → Memo
  | .navigationName entity property => (memo.navigationName entity property).2
  | .isCollection entity property => (memo.isCollection entity property).2
  | .partner entity property => (memo.partner entity property).2

def askAll (memo : Memo) (lookups : List Lookup) : Memo := lookups.foldl ask memo

/-- Only what would be found out again is remembered. -/
def Faithful (memo : Memo) : Prop :=
  ∀ (entity property : String) (fact : Option NavigationFact),
    memo.facts.lookup (entity, property) = some fact → memo.inner.fact entity property = .ok fact

theorem faithful_fresh (nav : Navigator) : (fresh nav).Faithful :=
  fun _ _ _ hm => absurd hm nofun

theorem Faithful.fact_eq (h : memo.Faithful) (entity property : String) :
    (memo.fact entity property).1 = memo.inner.fact entity property := by
  rw [Memo.fact]
  cases hm : memo.facts.lookup (entity, property) with
  | some fact => exact (h entity property fact hm).symm
  | none => cases memo.inner.fact entity property <;> rfl

theorem inner_fact (memo : Memo) (entity property : String) :
    (memo.fact entity property).2.inner = memo.inner := by
  rw [Memo.fact]
  cases memo.facts.lookup (entity, property) with
  | some fact => rfl
  | none => cases memo.inner.fact entity property <;> rfl

theorem Faithful.fact (h : memo.Faithful) (entity property : String) :
    (memo.fact entity property).2.Faithful := by
  rw [Memo.fact]
  cases memo.facts.lookup (entity, property) with
  | some fact => exact h
  | none =>
    cases hf : memo.inner.fact entity property with
    | error error => exact h
    | ok fact =>
      intro entity' property' fact' hm
      by_cases hk : (entity', property') = (entity, property)
      · obtain ⟨rfl, rfl⟩ := Prod.mk.inj hk
        have hfact : fact = fact' := by simpa using hm
        exact hfact ▸ hf
      · have hne : ((entity', property') == (entity, property)) = false := beq_false_of_ne hk
        rw [List.lookup_cons, hne] at hm
        exact h entity' property' fact' hm

theorem ask_eq (memo : Memo) (lookup : Lookup) :
    ∃ entity property, memo.ask lookup = (memo.fact entity property).2 := by
  cases lookup with
  | navigationName entity property => exact ⟨entity, property, rfl⟩
  | isCollection entity property => exact ⟨entity, property, rfl⟩
  | partner entity property => exact ⟨entity, property, rfl⟩

theorem Faithful.askAll (h : memo.Faithful) (lookups : List Lookup) :
    (memo.askAll lookups).Faithful ∧ (memo.askAll lookups).inner = memo.inner := by
  induction lookups generalizing memo with
  | nil => exact ⟨h, rfl⟩
  | cons lookup lookups ih =>
    obtain ⟨entity, property, hask⟩ := memo.ask_eq lookup
    have hnext : (memo.ask lookup).Faithful := hask ▸ h.fact entity property
    have hinner : (memo.ask lookup).inner = memo.inner := hask ▸ memo.inner_fact entity property
    exact ⟨(ih hnext).1, (ih hnext).2.trans hinner⟩

theorem Faithful.navigator_eq (h : memo.Faithful) : memo.navigator = memo.inner.viaFacts := by
  have hfact := h.fact_eq
  simp only [navigator, navigationName, isCollection, partner, Navigator.viaFacts, hfact]

/-- The answers do not depend on what was asked before. -/
theorem navigator_askAll (nav : Navigator) (lookups : List Lookup) :
    ((fresh nav).askAll lookups).navigator = nav.viaFacts := by
  obtain ⟨hfaithful, hinner⟩ := (faithful_fresh nav).askAll lookups
  rw [hfaithful.navigator_eq, hinner]
  rfl

end Memo

namespace EntityModel

variable {m : EntityModel} {entity property : String} {n : NavigationProperty}

theorem fact_of_none (h : m.navigation? entity property = none) :
    m.navigator.fact entity property = .ok none := by
  rw [Navigator.fact, navigationName_eq, h]
  rfl

theorem fact_of_declared (h : m.navigation? entity property = some n) {c : EntityCollection}
    (hc : m.collection? n.target = some c) :
    m.navigator.fact entity property = .ok (some ⟨n.name, n.isCollection, c.name⟩) := by
  have hname : m.navigator.navigationName entity property = some n.name := by
    rw [navigationName_eq, h, Option.map_some]
  rw [Navigator.fact, hname]
  simp only [isCollection_name h, partner_name h, hc, ok_bind, pure_eq_ok]

theorem fact_of_undeclared (h : m.navigation? entity property = some n)
    (hc : m.collection? n.target = none) :
    m.navigator.fact entity property = .error (.unknownNavigation entity n.name) := by
  have hname : m.navigator.navigationName entity property = some n.name := by
    rw [navigationName_eq, h, Option.map_some]
  rw [Navigator.fact, hname]
  simp only [isCollection_name h, partner_name h, hc, ok_bind, error_bind]

/-- A navigation that leads to a declared collection is found as it is. -/
theorem viaFacts_of_declared (h : m.navigation? entity property = some n) {c : EntityCollection}
    (hc : m.collection? n.target = some c) :
    m.navigator.viaFacts.navigationName entity property = some n.name ∧
      m.navigator.viaFacts.isCollection entity n.name = .ok n.isCollection ∧
      m.navigator.viaFacts.partner entity n.name = .ok c.name := by
  have hfact := fact_of_declared h hc
  have hname := fact_of_declared (navigation?_name h) hc
  simp only [Navigator.viaFacts, hfact, hname, factName, requireFact, map_ok, and_self]

theorem navigationName_of_not_declared
    (h : ∀ n c, m.navigation? entity property = some n → m.collection? n.target ≠ some c) :
    m.navigator.viaFacts.navigationName entity property = none := by
  cases hn : m.navigation? entity property with
  | none => simp only [Navigator.viaFacts, fact_of_none hn, factName]
  | some n =>
    have hc : m.collection? n.target = none := Option.eq_none_iff_forall_ne_some.2 fun c => h n c hn
    simp only [Navigator.viaFacts, fact_of_undeclared hn hc, factName]

end EntityModel

end ODataClient
