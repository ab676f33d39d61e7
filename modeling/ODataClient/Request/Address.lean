import ODataClient.Request.Target

/-! The resource path of a command, relative to the service root, and its HTTP method. -/

namespace ODataClient

inductive HttpMethod
  | get
  | post
  | put
  | patch
  | delete
  deriving DecidableEq

def HttpMethod.text : HttpMethod → String
  | get => "GET"
  | post => "POST"
  | put => "PUT"
  | patch => "PATCH"
  | delete => "DELETE"

structure Address where
  segments : List String
  collection : Option String

namespace Adapter

def namedLiteral (a : Adapter) (pair : String × Value) : String :=
  pair.1 ++ "=" ++ a.keyLiteral pair.2

def parenthesized (items : List String) : String := "(" ++ String.intercalate "," items ++ ")"

/-- The key in parentheses. One value stands alone; several positional values get the
names of the key properties. -/
def keyPredicate (a : Adapter) (collection : Option String) : Keys → Except Error String
  | .none => .ok ""
  | .positional [v] => .ok (parenthesized [a.keyLiteral v])
  | .positional values =>
    match collection with
    | none => .error (.invalidCommand .compositeKeyWithoutCollection)
    | some name => do
      let names ← a.navigator.keyProperties name
      if names.length ≠ values.length then
        throw (.invalidCommand (.keyCount name names.length values.length))
      return parenthesized ((names.zip values).map a.namedLiteral)
  | .named pairs => .ok (parenthesized (pairs.map a.namedLiteral))

def batchSegment (n : CommandNode) (key : String) : Except Error String :=
  match n.batch.bind fun b => b.contentId? key with
  | some id => .ok ("$" ++ digitsText id.toNat)
  | none => .error (.invalidCommand (.noBatchEntry key))

def addSegment (a : Adapter) (p : Address) (n : CommandNode) : Except Error Address :=
  match n.segment with
  | some (.collection name) => do
    let name ← a.navigator.requireCollection name
    return ⟨p.segments ++ [name], some name⟩
  | some (.navigation navigation) =>
    match p.collection with
    | some current => do
      let name ← a.navigator.requireNavigation current navigation
      let partner ← a.navigator.partner current name
      return ⟨p.segments ++ [name], some partner⟩
    | none => .ok ⟨p.segments ++ [navigation], none⟩
  | some (.derivedType name) => .ok { p with segments := p.segments ++ [name] }
  | some (.batchReference key) => do
    let segment ← batchSegment n key
    return ⟨p.segments ++ [segment], none⟩
  | none => .ok p

def addKey (a : Adapter) (p : Address) (keys : Keys) : Except Error Address :=
  if keys = .none then .ok p
  else do
    let key ← a.keyPredicate p.collection keys
    match p.segments.getLast? with
    | some last => return { p with segments := p.segments.dropLast ++ [last ++ key] }
    | none => throw (.invalidCommand .keyWithoutEntitySet)

def addNode (a : Adapter) (p : Address) (n : CommandNode) : Except Error Address := do
  let p ← a.addSegment p n
  a.addKey p n.keys

def linkPath (a : Adapter) (navigation target : String) : String :=
  match a.dialect with
  | .legacy => "$links/" ++ navigation ++ target
  | .modern => navigation ++ target ++ "/$ref"

def linkSegments (a : Adapter) (n : CommandNode) : Except Error (List String) :=
  match n.link, n.linkTarget with
  | none, _ => .ok []
  | some navigation, none => .ok [a.linkPath navigation ""]
  | some navigation, some target =>
    match target.value? with
    | some v => .ok [a.linkPath navigation (parenthesized [a.keyLiteral v])]
    | none => .error (.invalidCommand .linkTargetNotValue)

def invocationSegment (a : Adapter) (call : Invocation) : String :=
  match a.dialect, call.kind with
  | .modern, .function => call.name ++ parenthesized (call.parameters.map a.namedLiteral)
  | _, _ => call.name

def path (a : Adapter) (c : Command) : Except Error String := do
  let p ← c.chain.foldlM a.addNode ⟨[], none⟩
  let links ← a.linkSegments c.node
  return joinSegments (p.segments ++ links ++ c.node.media.toList ++
    (if c.node.computeCount then ["$count"] else []) ++
    (c.node.invocation.map a.invocationSegment).toList)

def addressedKey (a : Adapter) (c : Command) : Except Error (List (String × Value)) :=
  match c.node.keys with
  | .none => .ok []
  | .named pairs => .ok pairs
  | .positional values => do
    let t ← a.target c
    match t.collection with
    | none => return []
    | some name =>
      let names ← a.navigator.keyProperties name
      return names.zip values

def reassigns (entry : Entry) (pair : String × Value) : Bool :=
  match entry.entries.find? fun p => sameName p.1 pair.1 with
  | some p => !p.2.equal pair.2
  | none => false

def changesKey (a : Adapter) (c : Command) : Except Error Bool :=
  match c.node.entry with
  | none => .ok false
  | some entry => (a.addressedKey c).map fun key => key.any (reassigns entry)

def addressesEntity (n : CommandNode) : Bool :=
  n.keys != .none || (match n.segment with
    | some (.batchReference _) => true
    | _ => false)

def method (a : Adapter) (c : Command) : Except Error HttpMethod :=
  match c.node.invocation with
  | some call => .ok (match call.kind with
    | .function => .get
    | .action => .post)
  | none =>
    match c.node.operation with
    | .query => .ok .get
    | .insert =>
      if c.node.entry.isNone && c.node.linkTarget.isNone then
        .error (.invalidCommand .insertWithoutPayload)
      else .ok .post
    | .delete =>
      if !addressesEntity c.node && c.node.link.isNone then
        .error (.invalidCommand .deleteWithoutKey)
      else .ok .delete
    | .update =>
      if !addressesEntity c.node then .error (.invalidCommand .updateWithoutKey)
      else if a.options.updateMethod = .put then .ok .put
      else (a.changesKey c).map fun changed => if changed then .put else .patch

end Adapter

end ODataClient
