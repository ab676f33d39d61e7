import ODataClient.Cache.Basic
import ODataClient.Request.Compile
import ODataClient.Settings.Basic
import ODataClient.Transport.Exchange
import ODataClient.Value.Codec

/-! Sessions with a service. A session makes an adapter from the metadata of its service
when it first needs one, and keeps it in a slot until the metadata is cleared. -/

namespace ODataClient

/-- Makes adapters in place of the built-in way, or leaves a version to it. -/
abbrev AdapterFactory := Version → Navigator → AdapterOptions → Option Adapter

def makeAdapter (factory : Option AdapterFactory) (b : BoundMetadata) (options : AdapterOptions) :
    Adapter :=
  (factory.bind fun f => f b.version b.navigator options).getD ⟨b.version, b.navigator, options⟩

abbrev SessionId := Nat

abbrev ResolutionId := Nat

abbrev AdapterId := Nat

/-- A place for one adapter. Of the resolutions that wait for it the first makes it. -/
structure AdapterSlot where
  adapter : Option AdapterId
  queue : List ResolutionId

def AdapterSlot.fresh : AdapterSlot := ⟨none, []⟩

structure Session where
  settings : Settings
  factory : Option AdapterFactory
  hasTransport : Bool
  slots : List AdapterSlot
  adapters : List Adapter
  resolving : Nat
  closed : Bool

inductive SessionState
  | unresolved
  | resolving
  | resolved
  deriving DecidableEq

namespace Session

def new (settings : Settings) (factory : Option AdapterFactory) (hasTransport : Bool) : Session :=
  ⟨settings, factory, hasTransport, [.fresh], [], 0, false⟩

def key (s : Session) : String := s.settings.metadataKey

def slot (s : Session) : AdapterSlot := s.slots.getLast?.getD .fresh

def state (s : Session) : SessionState :=
  if s.slot.adapter.isSome then .resolved
  else if 0 < s.resolving then .resolving
  else .unresolved

def checkOpen (s : Session) : Except Error Unit :=
  if s.closed then .error (.invalid .sessionClosed) else .ok ()

def connection (s : Session) : Except Error (Option Nat) := do
  s.checkOpen
  if s.hasTransport then return s.settings.timeout
  else throw (.config .noTransport)

def metadataRequest (s : Session) : HttpRequest :=
  ⟨.get, s.key ++ "/$metadata", [("Accept", "application/xml")], none⟩

def versionHeader (a : Adapter) : String × String :=
  match a.dialect with
  | .legacy => ("DataServiceVersion", a.version.text)
  | .modern => ("OData-Version", a.version.text)

def bodyOf (payload : Entry) : Except Error Json :=
  (Value.membersToJson? payload.entries).mapError fun detail =>
    .invalid (.unwritablePayload detail)

def request (s : Session) (a : Adapter) (compiled : CompiledRequest) :
    Except Error HttpRequest := do
  let uri := s.key ++ "/" ++ compiled.uri
  let headers := [("Accept", "application/json"), versionHeader a]
  match compiled.payload with
  | none => return ⟨compiled.method, uri, headers, none⟩
  | some payload =>
    let body ← bodyOf payload
    return ⟨compiled.method, uri, headers ++ [("Content-Type", "application/json")], some body⟩

def documentOf (r : Response) : MetadataDocument := .ofResponse r.body r.headers

end Session

end ODataClient
