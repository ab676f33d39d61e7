import ODataClient.Cache.Step

/-! Named callers of a metadata cache, whose fetches end when they are handed an outcome.
The attempts run until all of them wait. -/

namespace ODataClient

structure CacheSchedule where
  cache : MetadataCache
  names : List String
  handed : List (CallId × Except Error MetadataDocument)

namespace CacheSchedule

def empty : CacheSchedule := ⟨.empty, [], []⟩

def call? (s : CacheSchedule) (name : String) : Option CallId :=
  (s.names.zipIdx.reverse.find? fun p => p.1 == name).map (·.2)

def advanceAttempt (s : CacheSchedule) (a : AttemptId) : CacheSchedule :=
  let outcome := (s.cache.attempts[a]?).bind fun x => s.handed.lookup x.call
  { s with cache := s.cache.advance a outcome }

def turn (s : CacheSchedule) : CacheSchedule :=
  let s := (List.range s.cache.attempts.length).foldl advanceAttempt s
  { s with cache := (List.range s.cache.calls.length).foldl MetadataCache.hear s.cache }

/-- Turns until all wait: in every turn but the last an attempt comes to its end. -/
def settle (s : CacheSchedule) : CacheSchedule :=
  (List.range (s.cache.attempts.length + 1)).foldl (fun s _ => s.turn) s

def change (s : CacheSchedule) (f : MetadataCache → MetadataCache) : CacheSchedule :=
  settle { s with cache := f s.cache }

def start (s : CacheSchedule) (name key : String) : CacheSchedule :=
  change { s with names := s.names ++ [name] } fun c => c.call key

/-- Whether the fetch of a call can still use an outcome: it is running or has yet to run,
or its call waits for the attempt of another. -/
def fetchIsHeld (c : MetadataCache) (i : CallId) : Bool :=
  match c.attempts.find? fun x => x.call == i, c.calls[i]? with
  | some x, _ =>
    match x.phase with
    | .ended _ => false
    | _ => true
  | none, some (.joined _) => true
  | none, _ => false

def hand (s : CacheSchedule) (name : String) (outcome : Except Error MetadataDocument) :
    Bool × CacheSchedule :=
  match s.call? name with
  | none => (false, s)
  | some i =>
    if (s.handed.lookup i).isNone && fetchIsHeld s.cache i then
      (true, settle { s with handed := (i, outcome) :: s.handed })
    else (false, s)

def abandon (s : CacheSchedule) (name : String) : CacheSchedule :=
  match s.call? name with
  | some i => s.change fun c => c.abandon i
  | none => s

def started (s : CacheSchedule) : List String := s.cache.started.filterMap fun i => s.names[i]?

end CacheSchedule

end ODataClient
