import ODataClient.Proofs.Model.Lookup

/-! Names as a model spells them. A lookup answers with the spelling of the declaration that it
has found, and what is asked next is asked with that spelling. It finds the same declaration
again, also where names are declared twice or differ in their case alone, so all answers stay the
same; only the errors name what they were asked for. -/

namespace ODataClient

/-- Two answers that agree, or that both fail, each with its own error. -/
inductive Agree {α : Type} (e e' : Error) : Except Error α → Except Error α → Prop
  | answer (a : α) : Agree e e' (.ok a) (.ok a)
  | error : Agree e e' (.error e) (.error e')

namespace Agree

variable {α β : Type} {e e' : Error} {x y : Except Error α}

theorem bind {f g : α → Except Error β} (h : Agree e e' x y) (hfg : ∀ a, Agree e e' (f a) (g a)) :
    Agree e e' (x >>= f) (y >>= g) := by
  cases h with
  | answer a => exact hfg a
  | error => exact .error

theorem map (h : Agree e e' x y) (f : α → β) : Agree e e' (x.map f) (y.map f) := by
  cases h with
  | answer a => exact .answer (f a)
  | error => exact .error

end Agree

namespace EntityModel

variable {m : EntityModel} {name found entity property : String} {c : EntityCollection}
  {n : NavigationProperty}

theorem collection?_of_collectionName (h : m.navigator.collectionName name = some found) :
    ∃ c, m.collection? name = some c ∧ m.collection? found = some c ∧ c.name = found := by
  obtain ⟨c, hc, rfl⟩ := Option.map_eq_some_iff.1 h
  exact ⟨c, hc, collection?_name hc, rfl⟩

theorem collection_eq_ok (h : m.collection? name = some c) : m.collection name = .ok c := by
  rw [collection, h]

/-- Two names of one collection find the same navigations. -/
theorem navigation_agree (h : m.collection? name = some c) (h' : m.collection? found = some c)
    (property : String) :
    Agree (.unknownNavigation found property) (.unknownNavigation name property)
      (m.navigation found property) (m.navigation name property) := by
  rw [navigation, navigation, collection_eq_ok h, collection_eq_ok h', ok_bind, ok_bind]
  cases c.navigation? property with
  | some n => exact .answer n
  | none => exact .error

theorem partner_agree {entity' property' : String}
    (h : Agree (.unknownNavigation entity property) (.unknownNavigation entity' property')
      (m.navigation entity property) (m.navigation entity' property')) :
    Agree (.unknownNavigation entity property) (.unknownNavigation entity' property')
      (m.navigator.partner entity property) (m.navigator.partner entity' property') := by
  refine h.bind fun n => ?_
  cases m.collection? n.target with
  | some c => exact .answer c.name
  | none => exact .error

/-- The spelling that a lookup answers with is looked up as the name was that led to it. -/
theorem canonical_answers (m : EntityModel) :
    (∀ name found, m.navigator.collectionName name = some found →
      m.navigator.collectionName found = some found ∧
      m.navigator.entityType found = m.navigator.entityType name ∧
      m.navigator.keyProperties found = m.navigator.keyProperties name ∧
      ∀ property,
        m.navigator.navigationName found property = m.navigator.navigationName name property ∧
        Agree (.unknownNavigation found property) (.unknownNavigation name property)
          (m.navigator.isCollection found property) (m.navigator.isCollection name property) ∧
        Agree (.unknownNavigation found property) (.unknownNavigation name property)
          (m.navigator.partner found property) (m.navigator.partner name property)) ∧
    ∀ entity property found, m.navigator.navigationName entity property = some found →
      m.navigator.navigationName entity found = some found ∧
      m.navigator.isCollection entity found = m.navigator.isCollection entity property ∧
      Agree (.unknownNavigation entity found) (.unknownNavigation entity property)
        (m.navigator.partner entity found) (m.navigator.partner entity property) := by
  constructor
  · intro name found h
    obtain ⟨c, hc, hfound, rfl⟩ := collection?_of_collectionName h
    have hcollection : m.collection c.name = m.collection name := by
      rw [collection_eq_ok hc, collection_eq_ok hfound]
    refine ⟨?_, congrArg (Except.map EntityCollection.entityType) hcollection,
      congrArg (Except.map EntityCollection.key) hcollection, fun property => ?_⟩
    · exact congrArg (Option.map (·.name)) hfound
    · have hagree := navigation_agree hc hfound property
      refine ⟨?_, hagree.map (·.isCollection), partner_agree hagree⟩
      rw [navigationName_eq, navigationName_eq, navigation?, navigation?, hc, hfound]
  · intro entity property found h
    rw [navigationName_eq] at h
    obtain ⟨n, hn, rfl⟩ := Option.map_eq_some_iff.1 h
    have hfound := navigation?_name hn
    have hnavigation : m.navigation entity n.name = m.navigation entity property := by
      rw [navigation_eq_ok hn, navigation_eq_ok hfound]
    refine ⟨?_, congrArg (Except.map NavigationProperty.isCollection) hnavigation, partner_agree ?_⟩
    · rw [navigationName_eq, hfound, Option.map_some]
    · rw [navigation_eq_ok hn, navigation_eq_ok hfound]
      exact .answer n

/-- Collections and navigations that are declared twice or differ in case, and a navigation whose
target is not declared. -/
def crowded : EntityModel where
  version := none
  collections := [
    ⟨"orders", "Shop.Order", ["ID"],
      [⟨"Lines", true, "LINES"⟩, ⟨"lines", false, "orders"⟩, ⟨"Gone", false, "Nowhere"⟩]⟩,
    ⟨"Orders", "Shop.Archived", ["Year", "ID"], [⟨"lines", false, "Orders"⟩]⟩,
    ⟨"orders", "Shop.Draft", [], []⟩,
    ⟨"lines", "Shop.Line", ["ID"], []⟩]

theorem canonical_answers_crowded :
    (crowded.navigator.collectionName "ORDERS" = some "orders" ∧
      crowded.navigator.collectionName "orders" = some "orders" ∧
      crowded.navigator.keyProperties "ORDERS" = .ok ["ID"] ∧
      crowded.navigator.keyProperties "orders" = crowded.navigator.keyProperties "ORDERS" ∧
      crowded.navigator.partner "ORDERS" "GONE" = .error (.unknownNavigation "ORDERS" "GONE") ∧
      Agree (.unknownNavigation "orders" "GONE") (.unknownNavigation "ORDERS" "GONE")
        (crowded.navigator.partner "orders" "GONE") (crowded.navigator.partner "ORDERS" "GONE")) ∧
    (crowded.navigator.navigationName "orders" "LINES" = some "Lines" ∧
      crowded.navigator.partner "orders" "LINES" = .ok "lines" ∧
      Agree (.unknownNavigation "orders" "Lines") (.unknownNavigation "orders" "LINES")
        (crowded.navigator.partner "orders" "Lines")
        (crowded.navigator.partner "orders" "LINES")) := by
  have hname : crowded.navigator.collectionName "ORDERS" = some "orders" := rfl
  have hproperty : crowded.navigator.navigationName "orders" "LINES" = some "Lines" := rfl
  obtain ⟨hagain, -, hkey, hqueries⟩ := (canonical_answers crowded).1 "ORDERS" "orders" hname
  obtain ⟨-, -, hpartner⟩ := (canonical_answers crowded).2 "orders" "LINES" "Lines" hproperty
  exact ⟨⟨hname, hagain, rfl, hkey, rfl, (hqueries "GONE").2.2⟩, hproperty, rfl, hpartner⟩

end EntityModel

end ODataClient
