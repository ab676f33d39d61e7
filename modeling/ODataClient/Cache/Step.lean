import ODataClient.Cache.Basic

/-! What can happen to a metadata cache. Every step is indivisible. A fetch ends with what its
factory produces or is cancelled. One whose task fails itself is left out: it would leave its
record in flight, and answer each caller of the key with the same transport error until the key
is cleared. -/

namespace ODataClient

namespace MetadataCache

def add (c : MetadataCache) (key : String) (produced : Except Error MetadataDocument) :
    Except Error EntryId × MetadataCache :=
  match c.get? key with
  | some e => (.ok e, c)
  | none =>
    match produced with
    | .error err => (.error err, c)
    | .ok d =>
      let e := c.made.length
      (.ok e, { c.make key d with cached := c.cached.set key e })

/-- A new call for the entry of a key. It is answered at once when the key is cached, joins
the attempt in flight when there is one, and starts an attempt otherwise. -/
def call (c : MetadataCache) (key : String) : MetadataCache :=
  match c.get? key, c.inFlight.get? key with
  | some e, _ => { c with calls := c.calls ++ [.answered (.ok e)] }
  | none, some a => { c with calls := c.calls ++ [.joined a] }
  | none, none =>
    let a := c.attempts.length
    { c with
      attempts := c.attempts ++ [⟨key, c.calls.length, false, .starting⟩]
      inFlight := c.inFlight.set key a
      calls := c.calls ++ [.joined a] }

/-- An attempt ends and leaves the gate. Its entry is cached only if callers still join
this attempt, and not one that was started after it. -/
def finish (c : MetadataCache) (a : AttemptId) (x : Attempt) (outcome : Except Error EntryId) :
    MetadataCache :=
  let ended := { c.setPhase a (.ended outcome) with gate := c.gate.filter (· != a) }
  if c.isCurrent a x then
    { ended with
      inFlight := c.inFlight.erase x.key
      cached := match outcome with
        | .ok e => c.cached.set x.key e
        | .error _ => c.cached }
  else ended

def deliver (c : MetadataCache) (a : AttemptId) (x : Attempt) :
    Except Error MetadataDocument → MetadataCache
  | .error err => c.finish a x (.error err)
  | .ok d => (c.make x.key d).finish a x (.ok c.made.length)

/-- An attempt that has the gate looks into the cache once more before it fetches. -/
def enter (c : MetadataCache) (a : AttemptId) (x : Attempt)
    (produced : Option (Except Error MetadataDocument)) : MetadataCache :=
  match c.get? x.key with
  | some e => c.finish a x (.ok e)
  | none =>
    let running := { c.setPhase a .fetching with started := c.started ++ [x.call] }
    match produced with
    | some p => running.deliver a x p
    | none => running

def enterAtHead (c : MetadataCache) (a : AttemptId) (x : Attempt)
    (produced : Option (Except Error MetadataDocument)) : MetadataCache :=
  if c.gate.head? = some a then c.enter a x produced else c

/-- An attempt goes on as far as it can; `produced` is the result of its fetch, once there
is one. Cancellation comes before all else. -/
def advance (c : MetadataCache) (a : AttemptId)
    (produced : Option (Except Error MetadataDocument)) : MetadataCache :=
  match c.attempts[a]? with
  | none => c
  | some x =>
    match x.phase, x.cancelled with
    | .ended _, _ => c
    | _, true => c.finish a x (.error .cancelled)
    | .starting, false =>
      enterAtHead { c.setPhase a .queued with gate := c.gate ++ [a] } a x produced
    | .queued, false => c.enterAtHead a x produced
    | .fetching, false =>
      match produced with
      | some p => c.deliver a x p
      | none => c

def hear (c : MetadataCache) (i : CallId) : MetadataCache :=
  match c.calls[i]? with
  | some (.joined a) =>
    match (c.attempts[a]?).map Attempt.phase with
    | some (.ended outcome) => { c with calls := c.calls.set i (.answered outcome) }
    | _ => c
  | _ => c

def abandon (c : MetadataCache) (i : CallId) : MetadataCache :=
  { c with calls := c.calls.set i .abandoned }

def cancel (c : MetadataCache) (a : AttemptId) : MetadataCache :=
  { c with attempts := c.attempts.modify a fun x => { x with cancelled := true } }

def clear (c : MetadataCache) (key : String) : MetadataCache :=
  let stopped := match c.inFlight.get? key with
    | some a => c.cancel a
    | none => c
  { stopped with
    inFlight := c.inFlight.erase key
    cached := c.cached.erase key
    models := c.models.erase key }

def clearAll (c : MetadataCache) : MetadataCache :=
  { c.inFlight.entries.foldl (fun c p => c.cancel p.2) c with
    inFlight := .empty
    cached := .empty
    models := .empty }

/-- The version and the model of an entry. They are found once for an entry, and the model
once for a key. -/
def bind (c : MetadataCache) (e : EntryId) (entry : CacheEntry) (loader : ModelLoader) :
    Except Error BoundMetadata × MetadataCache :=
  match entry.bound with
  | some b => (.ok b, c)
  | none =>
    match entry.document.version, loader.load entry.document with
    | .error err, _ => (.error err, c)
    | .ok _, .error err => (.error err, c)
    | .ok version, .ok model =>
      let kept := (c.models.get? entry.key).getD model
      let b : BoundMetadata := ⟨version, kept⟩
      (.ok b, { c with
        models := c.models.set entry.key kept
        made := c.made.modify e fun x => { x with bound := some b } })

inductive Event
  | add (key : String) (produced : Except Error MetadataDocument)
  | call (key : String)
  | advance (a : AttemptId) (produced : Option (Except Error MetadataDocument))
  | hear (i : CallId)
  | abandon (i : CallId)
  | clear (key : String)
  | clearAll
  | bind (e : EntryId) (loader : ModelLoader)

def step (c : MetadataCache) : Event → MetadataCache
  | .add key produced => (c.add key produced).2
  | .call key => c.call key
  | .advance a produced => c.advance a produced
  | .hear i => c.hear i
  | .abandon i => c.abandon i
  | .clear key => c.clear key
  | .clearAll => c.clearAll
  | .bind e loader =>
    match c.made[e]? with
    | some entry => (c.bind e entry loader).2
    | none => c

def run (c : MetadataCache) (events : List Event) : MetadataCache := events.foldl step c

end MetadataCache

end ODataClient
