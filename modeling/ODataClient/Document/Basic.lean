import ODataClient.Document.Tokens
import ODataClient.Error
import ODataClient.Model.Codec
import ODataClient.Model.Navigator

/-! Metadata documents, the protocol version that they stand for, and the models that
are read from them. -/

namespace ODataClient

def firstVersion? (tokens : List String) : Option Version := tokens.findSome? Version.ofToken?

def resolveVersion (tokens : List String) (document : Option String) : Except Error Version :=
  match firstVersion? tokens with
  | some v => .ok v
  | none =>
    let declared := (document.map documentTokens).getD []
    match firstVersion? declared with
    | some v => .ok v
    | none =>
      let seen := tokens ++ declared
      if seen.isEmpty then .error .undetectableVersion else .error (.unsupportedVersion seen)

def detectVersion (headers : List (String × String)) (document : Option String) :
    Except Error Version := resolveVersion (headerTokens headers) document

structure MetadataDocument where
  raw : String
  tokens : List String
  deriving DecidableEq

inductive ModelLoader
  | json
  | fixed (model : EntityModel)

namespace MetadataDocument

def ofText (raw : String) : MetadataDocument := ⟨raw, []⟩

def ofResponse (raw : String) (headers : List (String × String)) : MetadataDocument :=
  ⟨raw, headerTokens headers⟩

def isJson (d : MetadataDocument) : Bool := looksLikeJson d.raw

def version (d : MetadataDocument) : Except Error Version := resolveVersion d.tokens (some d.raw)

end MetadataDocument

def ModelLoader.load (loader : ModelLoader) (d : MetadataDocument) : Except Error EntityModel :=
  match loader with
  | json => if d.isJson then EntityModel.ofText d.raw else .error (.malformedMetadata .notJson)
  | fixed model => .ok model

end ODataClient
