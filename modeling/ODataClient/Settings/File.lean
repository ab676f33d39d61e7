import ODataClient.Files.Path
import ODataClient.Settings.Basic
import ODataClient.Toml.Printer
import ODataClient.Toml.Reader

/-! Settings files, which are TOML documents. They may leave out any setting and must not
have others. -/

namespace ODataClient

structure SettingsFile where
  baseUri : String
  metadataFile : Option String
  timeout : Option Nat
  renewConnection : Bool
  strictTargets : Bool
  enumTypeFree : Bool
  escapeLiterals : Option Bool
  updateMethod : Option UpdateMethod
  deriving DecidableEq

abbrev FileReader (m : Type → Type) := String → m (Except String String)

namespace Toml

def string? : Toml → Option String
  | string s => some s
  | _ => none

def boolean? : Toml → Option Bool
  | boolean b => some b
  | _ => none

def nat? : Toml → Option Nat
  | integer v => if 0 ≤ v then some v.toNat else none
  | _ => none

def isEmptyGroup : Toml → Bool
  | list items => items.isEmpty
  | table _ entries => entries.isEmpty
  | _ => false

/-- The name of a choice: a string, or the only key of a table, which holds nothing. -/
def choice? : Toml → Option String
  | string s => some s
  | table _ [(name, v)] => if v.isEmptyGroup then some name else none
  | _ => none

def optional? {α : Type} (read : Toml → Option α) (name : String) (entries : Entries) :
    Option (Option α) :=
  match entries.lookup name with
  | none => some none
  | some v => (read v).map some

def orElse? {α : Type} (read : Toml → Option α) (default : α) (name : String)
    (entries : Entries) : Option α :=
  (optional? read name entries).map fun v => v.getD default

end Toml

def UpdateMethod.name : UpdateMethod → String
  | patch => "patch"
  | put => "put"

def UpdateMethod.ofName? (s : String) : Option UpdateMethod :=
  if s = "patch" then some .patch else if s = "put" then some .put else none

def Error.unreadable (path reason : String) : Error := .config (.unreadable path reason)

namespace SettingsFile

def keys : List String :=
  ["base_uri", "metadata_file", "request_timeout_ms", "renew_connection",
    "strict_filter_targets", "enum_prefix_free", "escape_literals", "update_method"]

def ofEntries? (entries : Toml.Entries) : Option SettingsFile := do
  if !entries.all (fun e => keys.contains e.1) then none
  let baseUri ← Toml.orElse? Toml.string? "" "base_uri" entries
  let metadataFile ← Toml.optional? Toml.string? "metadata_file" entries
  let timeout ← Toml.optional? Toml.nat? "request_timeout_ms" entries
  let renewConnection ← Toml.orElse? Toml.boolean? false "renew_connection" entries
  let strictTargets ← Toml.orElse? Toml.boolean? false "strict_filter_targets" entries
  let enumTypeFree ← Toml.orElse? Toml.boolean? false "enum_prefix_free" entries
  let escapeLiterals ← Toml.optional? Toml.boolean? "escape_literals" entries
  let updateMethod ← Toml.optional? (fun v => v.choice?.bind UpdateMethod.ofName?)
    "update_method" entries
  some ⟨baseUri, metadataFile, timeout, renewConnection, strictTargets, enumTypeFree,
    escapeLiterals, updateMethod⟩

def ofText (text : String) : Except Error SettingsFile :=
  match (Toml.read? text).bind ofEntries? with
  | some f => .ok f
  | none => .error (.config .malformed)

/-- The file that `ofText` reads as `f`. Settings that are not set have no line. -/
def text (f : SettingsFile) : String :=
  let optional (name : String) (value : Option String) : String :=
    (value.map (Toml.lineText name)).getD ""
  Toml.lineText "base_uri" (Toml.stringText f.baseUri) ++
    optional "metadata_file" (f.metadataFile.map Toml.stringText) ++
    optional "request_timeout_ms" (f.timeout.map digitsText) ++
    Toml.lineText "renew_connection" (Toml.booleanText f.renewConnection) ++
    Toml.lineText "strict_filter_targets" (Toml.booleanText f.strictTargets) ++
    Toml.lineText "enum_prefix_free" (Toml.booleanText f.enumTypeFree) ++
    optional "escape_literals" (f.escapeLiterals.map Toml.booleanText) ++
    optional "update_method" (f.updateMethod.map fun u => Toml.stringText u.name)

def locatedAt (path : String) (f : SettingsFile) : SettingsFile :=
  { f with metadataFile := f.metadataFile.map (pathFrom (folderOf path)) }

variable {m : Type → Type} [Monad m]

def load (read : FileReader m) (path : String) : m (Except Error SettingsFile) := do
  match ← read path with
  | .error reason => return .error (.unreadable path reason)
  | .ok text => return (ofText text).map (locatedAt path)

def settings (f : SettingsFile) (document : Option String) : Settings :=
  let timeout := match f.timeout with
    | none => some defaultTimeout
    | some 0 => none
    | some n => some n
  ⟨f.baseUri, document, timeout, f.renewConnection,
    ⟨f.escapeLiterals.getD true, f.enumTypeFree, f.strictTargets, f.updateMethod.getD .patch⟩,
    .json⟩

def checkedSettings (f : SettingsFile) (document : Option String) : Except Error Settings :=
  let s := f.settings document
  s.validate.map fun _ => s

def toSettings (read : FileReader m) (f : SettingsFile) : m (Except Error Settings) := do
  match f.metadataFile with
  | none => return f.checkedSettings none
  | some path =>
    match ← read path with
    | .error reason => return .error (.unreadable path reason)
    | .ok text => return f.checkedSettings (some text)

end SettingsFile

end ODataClient
