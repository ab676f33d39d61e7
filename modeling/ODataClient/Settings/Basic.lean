import ODataClient.Document.Basic
import ODataClient.Request.Adapter

/-! The settings of a client session. -/

namespace ODataClient

structure Settings where
  baseUri : String
  metadataDocument : Option String
  timeout : Option Nat
  renewConnection : Bool
  options : AdapterOptions
  loader : ModelLoader

def defaultTimeout : Nat := 100000

namespace Settings

def new (baseUri : String) : Settings :=
  ⟨baseUri, none, some defaultTimeout, false, ⟨true, false, false, .patch⟩, .json⟩

def offline (baseUri document : String) : Settings :=
  { new baseUri with metadataDocument := some document, timeout := none }

def strict (baseUri : String) : Settings :=
  { new baseUri with options := ⟨true, false, true, .put⟩ }

def metadataKey (s : Settings) : String :=
  String.ofList (s.baseUri.toList.reverse.dropWhile (· == '/')).reverse

def validate (s : Settings) : Except Error Unit :=
  if isBlankText s.metadataKey then .error (.config .emptyBaseUri)
  else if s.timeout = some 0 then .error (.config .zeroTimeout)
  else .ok ()

end Settings

end ODataClient
