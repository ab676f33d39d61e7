import ODataClient.Error
import ODataClient.Text.Case

/-! Entity models: the entity collections of a service and the navigations between
them. Names are looked up as written first, and in any case when that fails. -/

namespace ODataClient

/-- A navigation property; `target` is the collection that it leads to. -/
structure NavigationProperty where
  name : String
  isCollection : Bool
  target : String
  deriving DecidableEq

structure EntityCollection where
  name : String
  entityType : String
  key : List String
  navigations : List NavigationProperty
  deriving DecidableEq

structure EntityModel where
  version : Option String
  collections : List EntityCollection
  deriving DecidableEq

def findByName {α : Type} (nameOf : α → String) (items : List α) (name : String) : Option α :=
  (items.find? fun x => nameOf x == name).or (items.find? fun x => sameName (nameOf x) name)

def EntityCollection.navigation? (c : EntityCollection) (property : String) :
    Option NavigationProperty :=
  findByName NavigationProperty.name c.navigations property

namespace EntityModel

def collection? (m : EntityModel) (name : String) : Option EntityCollection :=
  findByName EntityCollection.name m.collections name

def collection (m : EntityModel) (name : String) : Except Error EntityCollection :=
  match m.collection? name with
  | some c => .ok c
  | none => .error (.unknownEntity name)

def navigation (m : EntityModel) (entity property : String) : Except Error NavigationProperty := do
  let c ← m.collection entity
  match c.navigation? property with
  | some n => return n
  | none => throw (.unknownNavigation entity property)

end EntityModel

def northwind (version : String) : EntityModel :=
  let one (name target : String) : NavigationProperty := ⟨name, false, target⟩
  let many (name target : String) : NavigationProperty := ⟨name, true, target⟩
  { version := some version
    collections := [
      ⟨"Products", "NorthwindModel.Product", ["ProductID"],
        [one "Category" "Categories", one "Supplier" "Suppliers",
          many "OrderDetails" "OrderDetails"]⟩,
      ⟨"Categories", "NorthwindModel.Category", ["CategoryID"], [many "Products" "Products"]⟩,
      ⟨"Suppliers", "NorthwindModel.Supplier", ["SupplierID"], [many "Products" "Products"]⟩,
      ⟨"Orders", "NorthwindModel.Order", ["OrderID"],
        [many "OrderDetails" "OrderDetails", one "Customer" "Customers"]⟩,
      ⟨"OrderDetails", "NorthwindModel.OrderDetail", ["OrderID", "ProductID"],
        [one "Product" "Products", one "Order" "Orders"]⟩,
      ⟨"Customers", "NorthwindModel.Customer", ["CustomerID"], [many "Orders" "Orders"]⟩] }

end ODataClient
