import ODataClient.Model.Navigator

/-! Navigation answers that are remembered. A lookup that fails is not remembered; a
property that is no navigation is. -/

namespace ODataClient

structure NavigationFact where
  name : String
  isCollection : Bool
  partner : String
  deriving DecidableEq

def Navigator.fact (nav : Navigator) (entity property : String) :
    Except Error (Option NavigationFact) :=
  match nav.navigationName entity property with
  | none => .ok none
  | some name => do
    let isCollection ← nav.isCollection entity name
    let partner ← nav.partner entity name
    return some ⟨name, isCollection, partner⟩

def requireFact (entity property : String) :
    Except Error (Option NavigationFact) → Except Error NavigationFact
  | .ok (some fact) => .ok fact
  | .ok none => .error (.unknownNavigation entity property)
  | .error e => .error e

def factName : Except Error (Option NavigationFact) → Option String
  | .ok (some fact) => some fact.name
  | _ => none

/-- The answers that whole facts give; a navigation whose target cannot be resolved
counts as none. -/
def Navigator.viaFacts (nav : Navigator) : Navigator :=
  { nav with
    navigationName := fun entity property => factName (nav.fact entity property)
    isCollection := fun entity property =>
      (requireFact entity property (nav.fact entity property)).map (·.isCollection)
    partner := fun entity property =>
      (requireFact entity property (nav.fact entity property)).map (·.partner) }

structure Memo where
  inner : Navigator
  facts : List ((String × String) × Option NavigationFact)

namespace Memo

def fresh (inner : Navigator) : Memo := ⟨inner, []⟩

def size (m : Memo) : Nat := m.facts.length

def fact (m : Memo) (entity property : String) : Except Error (Option NavigationFact) × Memo :=
  match m.facts.lookup (entity, property) with
  | some fact => (.ok fact, m)
  | none =>
    match m.inner.fact entity property with
    | .ok fact => (.ok fact, { m with facts := ((entity, property), fact) :: m.facts })
    | .error e => (.error e, m)

def navigationName (m : Memo) (entity property : String) : Option String × Memo :=
  let (fact, m) := m.fact entity property
  (factName fact, m)

def isCollection (m : Memo) (entity property : String) : Except Error Bool × Memo :=
  let (fact, m) := m.fact entity property
  ((requireFact entity property fact).map (·.isCollection), m)

def partner (m : Memo) (entity property : String) : Except Error String × Memo :=
  let (fact, m) := m.fact entity property
  ((requireFact entity property fact).map (·.partner), m)

def navigator (m : Memo) : Navigator :=
  { m.inner with
    navigationName := fun entity property => (m.navigationName entity property).1
    isCollection := fun entity property => (m.isCollection entity property).1
    partner := fun entity property => (m.partner entity property).1 }

end Memo

end ODataClient
