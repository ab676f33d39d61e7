import ODataClient.Command.Basic
import ODataClient.Text.Parts

/-! Expand items as a tree. Items whose paths begin alike share their nodes; a node has
the options of the last item with its path and the filters that belong to it. -/

namespace ODataClient

structure ExpandNode where
  name : String
  options : ExpandOptions
  filters : List String
  children : List ExpandNode

def orderText (item : OrderItem) : String :=
  if item.descending then item.name ++ " desc" else item.name

def orderList (items : List OrderItem) : String := String.intercalate "," (items.map orderText)

namespace ExpandNode

def new (name : String) : ExpandNode := ⟨name, .plain, [], []⟩

def alterChild (name : String) (f : ExpandNode → ExpandNode) : List ExpandNode → List ExpandNode
  | [] => [f (new name)]
  | n :: r => if sameName n.name name then f n :: r else n :: alterChild name f r

/-- The node at the end of a path, changed by `f`; the nodes on the way are made where
they are missing. -/
def alterAt (f : ExpandNode → ExpandNode) : List String → List ExpandNode → List ExpandNode
  | [], nodes => nodes
  | [name], nodes => alterChild name f nodes
  | name :: rest, nodes =>
    alterChild name (fun n => { n with children := alterAt f rest n.children }) nodes

def addItem (nodes : List ExpandNode) (item : String × ExpandOptions) : List ExpandNode :=
  alterAt (fun n => { n with options := item.2 }) (segments item.1) nodes

def addFilters (nodes : List ExpandNode) (nested : String × List String) : List ExpandNode :=
  alterAt (fun n => { n with filters := n.filters ++ nested.2 }) (segments nested.1) nodes

def ofItems (items : List (String × ExpandOptions)) (nested : List (String × List String)) :
    List ExpandNode :=
  nested.foldl addFilters (items.foldl addItem [])

def listOption (name separator : String) (items : List String) : List String :=
  if items.isEmpty then [] else [name ++ "=" ++ String.intercalate separator items]

def orderOption (items : List OrderItem) : List String :=
  if items.isEmpty then [] else ["$orderby=" ++ orderList items]

theorem orderOption_eq_listOption (items : List OrderItem) :
    orderOption items = listOption "$orderby" "," (items.map orderText) := by
  rw [orderOption, listOption, List.isEmpty_map]
  rfl

def levelsOption : Option Levels → List String
  | none => []
  | some (.depth n) => ["$levels=" ++ digitsText n]
  | some .max => ["$levels=max"]

def withOptions (name : String) (options : List String) : String :=
  if options.isEmpty then name else name ++ "(" ++ String.intercalate ";" options ++ ")"

mutual

def text : ExpandNode → String
  | ⟨name, options, filters, children⟩ =>
    withOptions (if options.byRef then name ++ "/$ref" else name)
      (listOption "$filter" " and " filters ++ listOption "$expand" "," (texts children) ++
        listOption "$select" "," options.select ++
        orderOption options.orderBy ++
        levelsOption options.levels)

def texts : List ExpandNode → List String
  | [] => []
  | n :: r => text n :: texts r

end

end ExpandNode

end ODataClient
