import ODataClient.Document.Basic
import ODataClient.Model.Memo
import ODataClient.Text.Table

/-! The cache of metadata documents, one per service. Callers that ask for a document that
is not there share one attempt to fetch it, and attempts fetch one after another: a gate
lets them in by the order in which they came to it. -/

namespace ODataClient

abbrev EntryId := Nat

abbrev AttemptId := Nat

abbrev CallId := Nat

structure BoundMetadata where
  version : Version
  model : EntityModel
  deriving DecidableEq

def BoundMetadata.navigator (b : BoundMetadata) : Navigator := b.model.navigator.viaFacts

structure CacheEntry where
  key : String
  document : MetadataDocument
  bound : Option BoundMetadata
  deriving DecidableEq

inductive Phase
  | starting
  | queued
  | fetching
  | ended (outcome : Except Error EntryId)

structure Attempt where
  key : String
  call : CallId
  cancelled : Bool
  phase : Phase

inductive CallState
  | joined (attempt : AttemptId)
  | answered (outcome : Except Error EntryId)
  | abandoned

structure MetadataCache where
  made : List CacheEntry
  cached : Table EntryId
  attempts : List Attempt
  inFlight : Table AttemptId
  gate : List AttemptId
  calls : List CallState
  started : List CallId
  models : Table EntityModel

namespace MetadataCache

def empty : MetadataCache := ⟨[], .empty, [], .empty, [], [], [], .empty⟩

def get? (c : MetadataCache) (key : String) : Option EntryId := c.cached.get? key

def entry? (c : MetadataCache) (key : String) : Option CacheEntry :=
  (c.get? key).bind fun e => c.made[e]?

def size (c : MetadataCache) : Nat := c.cached.size

def make (c : MetadataCache) (key : String) (d : MetadataDocument) : MetadataCache :=
  { c with made := c.made ++ [⟨key, d, none⟩] }

def setPhase (c : MetadataCache) (a : AttemptId) (phase : Phase) : MetadataCache :=
  { c with attempts := c.attempts.modify a fun x => { x with phase := phase } }

def isCurrent (c : MetadataCache) (a : AttemptId) (x : Attempt) : Bool :=
  c.inFlight.get? x.key == some a

end MetadataCache

end ODataClient
