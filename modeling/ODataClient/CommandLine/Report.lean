import ODataClient.Command.Description
import ODataClient.CommandLine.Arguments
import ODataClient.Json.Printer
import ODataClient.Request.Compile

/-! What the tasks of the program find out, and how it is printed: as text, or as an
indented JSON text. -/

namespace ODataClient

structure CompileReport where
  version : Version
  request : CompiledRequest

def Clause.toJson (c : Clause) : Json :=
  .object [("name", .string c.name), ("value", .string c.value)]

namespace CompiledRequest

def toJson? (r : CompiledRequest) : Except String Json := do
  let payload ← r.payload.mapM fun p => Value.membersToJson? p.entries
  return .object ([("method", .string r.method.text), ("path", .string r.path),
    ("clauses", .array (r.clauses.map Clause.toJson)),
    ("entity_filters", .object (r.entityFilters.entries.map fun f => (f.1, .ofStrings f.2)))] ++
    (payload.map fun p => ("payload", p)).toList)

def text (r : CompiledRequest) : String :=
  let payload := match r.payload.map fun p => Value.membersToJson? p.entries with
    | some (.ok j) => j.compact ++ "\n"
    | _ => ""
  r.method.text ++ " " ++ r.uri ++ "\n" ++ payload

end CompiledRequest

def versionMember (v : Version) : String × Json := ("version", .string v.text)

def CompileReport.toJson? (r : CompileReport) : Except String Json := do
  return .object [versionMember r.version, ("uri", .string r.request.uri),
    ("request", ← r.request.toJson?)]

def CompileReport.output (r : CompileReport) : OutputFormat → Except Error String
  | .text => .ok r.request.text
  | .json =>
    match r.toJson? with
    | .ok j => .ok (j.pretty ++ "\n")
    | .error detail => .error (.invalid (.unwritable detail))

def Version.output (v : Version) : OutputFormat → String
  | .text => v.text ++ "\n"
  | .json => (Json.object [versionMember v]).pretty ++ "\n"

/-- Compiles for the metadata document of the settings. The version is that of the named
protocol, or else one that the document declares. -/
def Settings.adapterFor (s : Settings) (protocol : Option String) : Except Error Adapter := do
  match s.metadataDocument with
  | none => throw (.config .noModel)
  | some raw =>
    let document : MetadataDocument := ⟨raw, protocol.toList⟩
    let version ← document.version
    let model ← s.loader.load document
    return ⟨version, model.navigator, s.options⟩

def Adapter.report (a : Adapter) (description : String) : Except Error CompileReport := do
  let d ← CommandDescription.ofText description
  let request ← a.compile (← d.command)
  return ⟨a.version, request⟩

/-- The settings as the options change them; flags never take anything back. -/
def CompileOptions.change (o : CompileOptions) (s : Settings) : Settings :=
  { s with options :=
    ⟨s.options.escapeLiterals && !o.unescaped, s.options.enumTypeFree || o.enumTypeFree,
      s.options.strictTargets || o.strict, o.updateMethod.getD s.options.updateMethod⟩ }

def readHeader (s : String) : Except Error (String × String) :=
  match cutFirst ':' s.toList with
  | some (name, value) =>
    .ok (String.ofList (trimBlanks name), String.ofList (trimBlanks value))
  | none => .error (.invalid (.malformedHeader s))

variable {m : Type → Type} [Monad m]

def readFile (read : FileReader m) (path : String) : ExceptT Error m String :=
  .mk ((read path) >>= fun r => pure (r.mapError (Error.unreadable path)))

def CompileOptions.base (read : FileReader m) (o : CompileOptions) : ExceptT Error m Settings := do
  match o.config with
  | none => return .new "http://localhost/"
  | some path =>
    let file ← ExceptT.mk (SettingsFile.load read path)
    .mk (file.toSettings read)

def CompileOptions.settings (read : FileReader m) (o : CompileOptions) :
    ExceptT Error m Settings := do
  let s ← o.base read
  match o.model with
  | none => return o.change s
  | some path =>
    let raw ← readFile read path
    return { o.change s with metadataDocument := some raw }

namespace Task

def compileReport (read : FileReader m) (command : String) (o : CompileOptions) :
    ExceptT Error m CompileReport := do
  let s ← o.settings read
  let adapter ← s.adapterFor o.protocol
  let description ← readFile read command
  adapter.report description

def detectedVersion (read : FileReader m) (headers : List String) (metadata : Option String) :
    ExceptT Error m Version := do
  let headers ← headers.mapM (m := Except Error) readHeader
  let document ← metadata.mapM (readFile read)
  detectVersion headers document

def output (read : FileReader m) (format : OutputFormat) : Task → ExceptT Error m String
  | compile command o => do
    let report ← compileReport read command o
    report.output format
  | detect headers metadata => do
    let version ← detectedVersion read headers metadata
    return version.output format

end Task

end ODataClient
