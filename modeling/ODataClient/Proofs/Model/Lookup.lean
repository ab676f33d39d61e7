import ODataClient.Model.Memo
import ODataClient.Proofs.Outcome

/-! Lookups by name. The item that a name finds is also what its own spelling finds, so
the answers about a navigation can be read off the navigation itself. -/

namespace ODataClient

variable {α : Type} {nameOf : α → String} {items : List α} {name : String} {x : α}

theorem sameName_of_findByName (h : findByName nameOf items name = some x) :
    sameName (nameOf x) name := by
  rw [findByName, Option.or_eq_some_iff] at h
  rcases h with h | ⟨-, h⟩
  · have he : nameOf x = name := by simpa using List.find?_some h
    rw [he]
    exact sameName_refl name
  · simpa using List.find?_some h

theorem mem_of_findByName (h : findByName nameOf items name = some x) : x ∈ items := by
  rw [findByName, Option.or_eq_some_iff] at h
  rcases h with h | ⟨-, h⟩
  · exact List.mem_of_find?_eq_some h
  · exact List.mem_of_find?_eq_some h

theorem findByName_nameOf (h : findByName nameOf items name = some x) :
    findByName nameOf items (nameOf x) = some x := by
  rw [findByName, Option.or_eq_some_iff] at h
  rcases h with h | ⟨-, h⟩
  · have he : nameOf x = name := by simpa using List.find?_some h
    rw [findByName, he, h, Option.some_or]
  · obtain ⟨hx, before, after, rfl, hb⟩ := List.find?_eq_some_iff_append.1 h
    have hfirst : (before ++ x :: after).find? (fun y => nameOf y == nameOf x) = some x := by
      refine List.find?_eq_some_iff_append.2 ⟨by simp, before, after, rfl, fun y hy => ?_⟩
      have hne : nameOf y ≠ nameOf x := fun he => by
        have hs := hb y hy
        rw [he, hx] at hs
        exact absurd hs (by simp)
      simpa using hne
    rw [findByName, hfirst, Option.some_or]

namespace EntityModel

def navigation? (m : EntityModel) (entity property : String) : Option NavigationProperty :=
  (m.collection? entity).bind fun c => c.navigation? property

variable {m : EntityModel} {entity property : String} {n : NavigationProperty}

theorem navigationName_eq (m : EntityModel) (entity property : String) :
    m.navigator.navigationName entity property = (m.navigation? entity property).map (·.name) := by
  simp only [navigator, navigation?, Option.map_bind]
  rfl

theorem sameName_of_navigation? (h : m.navigation? entity property = some n) :
    sameName n.name property := by
  obtain ⟨c, -, hn⟩ := Option.bind_eq_some_iff.1 h
  exact sameName_of_findByName hn

theorem navigation?_name (h : m.navigation? entity property = some n) :
    m.navigation? entity n.name = some n := by
  obtain ⟨c, hc, hn⟩ := Option.bind_eq_some_iff.1 h
  rw [navigation?, hc, Option.bind_some]
  exact findByName_nameOf hn

theorem navigation_eq_ok (h : m.navigation? entity property = some n) :
    m.navigation entity property = .ok n := by
  obtain ⟨c, hc, hn⟩ := Option.bind_eq_some_iff.1 h
  simp [navigation, collection, hc, hn]

theorem isCollection_name (h : m.navigation? entity property = some n) :
    m.navigator.isCollection entity n.name = .ok n.isCollection := by
  simp [navigator, navigation_eq_ok (navigation?_name h)]

theorem partner_name (h : m.navigation? entity property = some n) :
    m.navigator.partner entity n.name =
      match m.collection? n.target with
      | some c => .ok c.name
      | none => .error (.unknownNavigation entity n.name) := by
  simp only [navigator, partner, navigation_eq_ok (navigation?_name h), ok_bind]
  cases m.collection? n.target <;> rfl

theorem collection?_name {c : EntityCollection} (h : m.collection? entity = some c) :
    m.collection? c.name = some c := findByName_nameOf h

theorem requireCollection_name {c : EntityCollection} (h : m.collection? entity = some c) :
    m.navigator.requireCollection entity = .ok c.name := by
  simp [Navigator.requireCollection, navigator, h]

end EntityModel

end ODataClient
