import ODataClient.Request.Address
import ODataClient.Request.Clauses

/-! Requests: what a command is compiled to. -/

namespace ODataClient

structure CompiledRequest where
  method : HttpMethod
  path : String
  clauses : List Clause
  entityFilters : Table (List String)
  payload : Option Entry

namespace CompiledRequest

def query (r : CompiledRequest) : String := String.intercalate "&" (r.clauses.map Clause.text)

def uri (r : CompiledRequest) : String :=
  if r.clauses.isEmpty then r.path else r.path ++ "?" ++ r.query

def clause? (r : CompiledRequest) (name : String) : Option String :=
  (r.clauses.find? fun c => c.name == name).map (·.value)

end CompiledRequest

namespace Adapter

def filterTexts (a : Adapter) (filters : EntityFilters) : Except Error (Table (List String)) := do
  let texts ← filters.entries.mapM fun b => do
    let l ← b.2.mapM a.renderer.render
    return (b.1, l)
  return Table.ofList texts

def payload (a : Adapter) (c : Command) : Option Entry :=
  match a.dialect, c.node.invocation with
  | .modern, some ⟨.action, _, parameters⟩ => some (Table.ofList parameters)
  | _, _ => c.node.entry

def compile (a : Adapter) (c : Command) : Except Error CompiledRequest := do
  let filters ← a.analyze c
  let clauses ← a.clauses c filters
  let path ← a.path c
  let method ← a.method c
  let texts ← a.filterTexts filters
  return ⟨method, path, clauses, texts, a.payload c⟩

end Adapter

end ODataClient
