import ODataClient.Cache.Step
import ODataClient.Session.Basic

/-! Sessions that share a metadata cache, and the resolutions of their adapters. A resolution
finds its session open, reads the slot of the session, and looks into it when it is polled for
the first time; other threads may act in between. Resolutions that find no adapter wait in the
queue of the slot. The first makes the adapter: it calls for the metadata, binds it, and fills
the slot. When that fails the next one tries. -/

namespace ODataClient

inductive Stage
  | entered
  | arrived
  | queued
  | building (call : CallId)
  | answered (outcome : Except Error AdapterId)

/-- The slot is the one that was read, and until then the newest when the resolution began. -/
structure Resolution where
  session : SessionId
  slot : Nat
  stage : Stage

structure Client where
  cache : MetadataCache
  sessions : List Session
  callers : List SessionId
  resolutions : List Resolution

namespace Client

def empty : Client := ⟨.empty, [], [], []⟩

/-- A session opened with valid settings. A document in the settings is cached at once. -/
def openSession (c : Client) (settings : Settings) (factory : Option AdapterFactory)
    (hasTransport : Bool) : Except Error Client := do
  settings.validate
  let s := Session.new settings factory hasTransport
  let opened := { c with sessions := c.sessions ++ [s] }
  match settings.metadataDocument with
  | none => return opened
  | some raw => return { opened with cache := (c.cache.add s.key (.ok (.ofText raw))).2 }

def slot? (c : Client) (i : SessionId) (j : Nat) : Option AdapterSlot :=
  (c.sessions[i]?).bind fun s => s.slots[j]?

def alterSession (c : Client) (i : SessionId) (f : Session → Session) : Client :=
  { c with sessions := c.sessions.modify i f }

def alterSlot (c : Client) (x : Resolution) (f : AdapterSlot → AdapterSlot) : Client :=
  c.alterSession x.session fun s => { s with slots := s.slots.modify x.slot f }

def answer (c : Client) (r : ResolutionId) (x : Resolution) (outcome : Except Error AdapterId) :
    Client :=
  let left := c.alterSlot x fun slot => { slot with queue := slot.queue.filter (· != r) }
  { left with resolutions := c.resolutions.set r { x with stage := .answered outcome } }

def endBuilding (c : Client) (r : ResolutionId) (x : Resolution)
    (outcome : Except Error AdapterId) : Client :=
  (c.alterSession x.session fun s => { s with resolving := s.resolving - 1 }).answer r x outcome

def complete (c : Client) (r : ResolutionId) (x : Resolution) :
    Except Error EntryId → Client
  | .error err => c.endBuilding r x (.error err)
  | .ok e =>
    match c.sessions[x.session]?, c.cache.made[e]? with
    | some s, some entry =>
      match c.cache.bind e entry s.settings.loader with
      | (.error err, cache) => endBuilding { c with cache := cache } r x (.error err)
      | (.ok bound, cache) =>
        let n := s.adapters.length
        let made := alterSession { c with cache := cache } x.session fun s =>
          { s with adapters := s.adapters ++ [makeAdapter s.factory bound s.settings.options] }
        (made.alterSlot x fun slot => { slot with adapter := some n }).endBuilding r x (.ok n)
    | _, _ => c

def listen (c : Client) (r : ResolutionId) (x : Resolution) (call : CallId) : Client :=
  let heard : Client := { c with cache := c.cache.hear call }
  match heard.cache.calls[call]? with
  | some (.answered outcome) => heard.complete r x outcome
  | _ => heard

def build (c : Client) (r : ResolutionId) (x : Resolution) (s : Session) : Client :=
  let c := c.alterSession x.session fun s => { s with resolving := s.resolving + 1 }
  match s.settings.metadataDocument, s.connection with
  | some raw, _ =>
    let (e, cache) := c.cache.add s.key (.ok (.ofText raw))
    complete { c with cache := cache } r x e
  | none, .error err => c.endBuilding r x (.error err)
  | none, .ok _ =>
    let call := c.cache.calls.length
    let x := { x with stage := .building call }
    listen { c with
      cache := c.cache.call s.key
      callers := c.callers ++ [x.session]
      resolutions := c.resolutions.set r x } r x call

/-- Whoever waits takes the adapter in its slot, or makes one when it is first in line. -/
def takeTurn (c : Client) (r : ResolutionId) (x : Resolution) : Client :=
  match c.sessions[x.session]? with
  | none => c
  | some s =>
    let slot := (s.slots[x.slot]?).getD .fresh
    match slot.adapter with
    | some n => c.answer r x (.ok n)
    | none => if slot.queue.head? = some r then c.build r x s else c

def join (c : Client) (r : ResolutionId) (x : Resolution) : Client :=
  alterSlot { c with resolutions := c.resolutions.set r { x with stage := .queued } } x fun slot =>
    { slot with queue := slot.queue ++ [r] }

/-- The first poll. An adapter in the slot is the answer, even to who was cancelled meanwhile. -/
def firstPoll (c : Client) (r : ResolutionId) (x : Resolution) (cancelled : Bool) : Client :=
  match (c.slot? x.session x.slot).bind AdapterSlot.adapter, cancelled with
  | some n, _ => c.answer r x (.ok n)
  | none, true => c.answer r x (.error .cancelled)
  | none, false => (c.join r x).takeTurn r { x with stage := .queued }

def addResolution (c : Client) (i : SessionId) (slot : Nat) (stage : Stage) : Client :=
  { c with resolutions := c.resolutions ++ [⟨i, slot, stage⟩] }

/-- A resolution begins. It is turned down when the session is closed. -/
def enter (c : Client) (i : SessionId) : Client :=
  match c.sessions[i]? with
  | none => c
  | some s =>
    let j := s.slots.length - 1
    match s.checkOpen with
    | .error err => c.addResolution i j (.answered (.error err))
    | .ok _ => c.addResolution i j .entered

/-- A resolution that found the session open reads the slot that is the newest by now. -/
def look (c : Client) (r : ResolutionId) : Client :=
  match c.resolutions[r]? with
  | none => c
  | some x =>
    match x.stage, c.sessions[x.session]? with
    | .entered, some s =>
      let x := { x with slot := s.slots.length - 1, stage := .arrived }
      { c with resolutions := c.resolutions.set r x }
    | _, _ => c

/-- A resolution is polled. Before it has read its slot it cannot be. -/
def progress (c : Client) (r : ResolutionId) : Client :=
  match c.resolutions[r]? with
  | none => c
  | some x =>
    match x.stage with
    | .entered | .answered _ => c
    | .arrived => c.firstPoll r x false
    | .queued => c.takeTurn r x
    | .building call => c.listen r x call

/-- A resolution is polled that was cancelled. Its call for the metadata is abandoned, and the
attempt goes on. -/
def cancel (c : Client) (r : ResolutionId) : Client :=
  match c.resolutions[r]? with
  | none => c
  | some x =>
    match x.stage with
    | .entered | .answered _ => c
    | .arrived => c.firstPoll r x true
    | .queued => c.answer r x (.error .cancelled)
    | .building call =>
      endBuilding { c with cache := c.cache.abandon call } r x (.error .cancelled)

/-- The metadata is evicted and then the slot replaced. What others do in between to the cache
comes to the same afterwards, and what they read of the slot beforehand. -/
def clear (c : Client) (i : SessionId) : Client :=
  match c.sessions[i]? with
  | none => c
  | some s =>
    alterSession { c with cache := c.cache.clear s.key } i fun s =>
      { s with slots := s.slots ++ [.fresh] }

/-- The session is marked as closed and then the slot replaced. In between it turns down whoever
comes, as afterwards, and what others read of the slot comes to the same beforehand. -/
def close (c : Client) (i : SessionId) : Client :=
  c.alterSession i fun s =>
    if s.closed then s else { s with closed := true, slots := s.slots ++ [.fresh] }

def clearAll (c : Client) : Client := { c with cache := c.cache.clearAll }

def advance (c : Client) (a : AttemptId) (produced : Option (Except Error MetadataDocument)) :
    Client := { c with cache := c.cache.advance a produced }

inductive Event
  | enter (i : SessionId)
  | look (r : ResolutionId)
  | progress (r : ResolutionId)
  | cancel (r : ResolutionId)
  | advance (a : AttemptId) (produced : Option (Except Error MetadataDocument))
  | clear (i : SessionId)
  | close (i : SessionId)
  | clearAll

def step (c : Client) : Event → Client
  | .enter i => c.enter i
  | .look r => c.look r
  | .progress r => c.progress r
  | .cancel r => c.cancel r
  | .advance a produced => c.advance a produced
  | .clear i => c.clear i
  | .close i => c.close i
  | .clearAll => c.clearAll

def run (c : Client) (events : List Event) : Client := events.foldl step c

/-- A resolution that nothing interrupts until it waits or is answered. -/
def resolve (c : Client) (i : SessionId) (cancelled : Bool) : Client :=
  let r := c.resolutions.length
  c.run [.enter i, .look r, if cancelled then .cancel r else .progress r]

def outcome? (c : Client) (r : ResolutionId) : Option (Except Error AdapterId) :=
  match (c.resolutions[r]?).map Resolution.stage with
  | some (.answered outcome) => some outcome
  | _ => none

end Client

end ODataClient
