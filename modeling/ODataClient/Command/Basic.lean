import ODataClient.Command.Batch
import ODataClient.Expr.Basic
import ODataClient.Text.Case

/-! Commands: a chain of nodes from the entity set at the root to the one that is
addressed. Every step along the chain starts a node with its own copies of the
filters; what was set on the nodes before it stays there. -/

namespace ODataClient

inductive Segment
  | collection (name : String)
  | navigation (name : String)
  | derivedType (name : String)
  | batchReference (key : String)
  deriving DecidableEq

inductive Keys
  | none
  | positional (values : List Value)
  | named (pairs : List (String × Value))
  deriving DecidableEq

structure OrderItem where
  name : String
  descending : Bool
  deriving DecidableEq

inductive Levels
  | depth (n : Nat)
  | max
  deriving DecidableEq

structure ExpandOptions where
  levels : Option Levels
  select : List String
  orderBy : List OrderItem
  byRef : Bool
  deriving DecidableEq

def ExpandOptions.plain : ExpandOptions := ⟨none, [], [], false⟩

def ExpandOptions.isPlain (o : ExpandOptions) : Bool :=
  o.levels.isNone && o.select.isEmpty && o.orderBy.isEmpty && !o.byRef

inductive Operation
  | query
  | insert
  | update
  | delete
  deriving DecidableEq

inductive InvocationKind
  | function
  | action
  deriving DecidableEq

structure Invocation where
  kind : InvocationKind
  name : String
  parameters : List (String × Value)
  deriving DecidableEq

structure QueryOptions where
  text : Option String
  expression : Option Expr
  pairs : List (String × Value)

def QueryOptions.none : QueryOptions := ⟨Option.none, Option.none, []⟩

def QueryOptions.isEmpty (o : QueryOptions) : Bool :=
  o.text.isNone && o.expression.isNone && o.pairs.isEmpty

/-- All that a command says at one point of its chain. The filters are kept by the
path of the entity that they restrict. -/
structure CommandNode where
  segment : Option Segment
  keys : Keys
  entry : Option Entry
  operation : Operation
  textFilters : Table String
  filters : Table Expr
  search : Option String
  skip : Option Nat
  top : Option Nat
  expands : List (String × ExpandOptions)
  selects : List String
  orderBy : List OrderItem
  computeCount : Bool
  includeCount : Bool
  link : Option String
  linkTarget : Option Expr
  options : QueryOptions
  invocation : Option Invocation
  media : Option String
  batch : Option BatchEntries

def CommandNode.empty : CommandNode where
  segment := none
  keys := .none
  entry := none
  operation := .query
  textFilters := .empty
  filters := .empty
  search := none
  skip := none
  top := none
  expands := []
  selects := []
  orderBy := []
  computeCount := false
  includeCount := false
  link := none
  linkTarget := none
  options := .none
  invocation := none
  media := none
  batch := none

structure Command where
  ancestors : List CommandNode
  node : CommandNode

def Segment.entity? : Segment → Option String
  | collection name => some name
  | navigation name => some name
  | batchReference key => some key
  | derivedType _ => none

namespace Command

def empty : Command := ⟨[], .empty⟩

def forCollection (name : String) : Command :=
  ⟨[], { CommandNode.empty with segment := some (.collection name) }⟩

def chain (c : Command) : List CommandNode := c.ancestors ++ [c.node]

def parent? (c : Command) : Option Command :=
  c.ancestors.getLast?.map fun last => ⟨c.ancestors.dropLast, last⟩

def branch (c : Command) : Command :=
  ⟨c.chain, { CommandNode.empty with
    textFilters := c.node.textFilters, filters := c.node.filters, batch := c.node.batch }⟩

/-- The name of the entity set addressed: the last collection, navigation or batch
reference of the chain. -/
def entityName? (c : Command) : Option String :=
  c.chain.reverse.findSome? fun n => n.segment.bind Segment.entity?

def derivedType? (c : Command) : Option String :=
  match c.chain.reverse.findSome? CommandNode.segment with
  | some (.derivedType name) => some name
  | _ => none

def hasRootFilter (c : Command) : Bool :=
  match c.entityName? with
  | some name => c.node.textFilters.contains name || c.node.filters.contains name
  | none => false

def update (c : Command) (f : CommandNode → CommandNode) : Command := { c with node := f c.node }

def addFilter (c : Command) (entity : String) (e : Expr) : Command :=
  c.update fun n => { n with filters := n.filters.alter entity fun
    | some old => .binary .and old e
    | none => e }

def setTextFilter (c : Command) (entity text : String) : Command :=
  c.update fun n => { n with textFilters := n.textFilters.set entity text }

end Command

end ODataClient
